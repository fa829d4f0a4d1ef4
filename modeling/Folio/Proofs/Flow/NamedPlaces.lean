import Folio.Proofs.Flow.Destinations

/-!
# Links to names

A link whose target begins with `#` leads to the name behind it, and a name leads to the line drawn
last of all that hold a mark of it. So whatever else is done to a document, every name that one of
its nodes marks is found when the document is closed, and any other is not: a link to it is left out.
-/
namespace Folio.Flow

open Layout Pdf

variable {α : Type}

/-- What a link to a place says if the first page has the number `first`. -/
def placeEntry (first : Nat) (d : Destination α) : String × Obj α :=
  ("Dest", .array [.reference (first + d.pageIndex), Obj.nameOf "XYZ", .real d.x, .real d.y, .null])

/-- No place lies behind the last page, so a link leads wherever its name does. -/
theorem linkAction_hash {t : Layout α} (ht : Bound t) (first : Nat) (name : String) :
    linkAction (pageNumbers first t.finished.length) t.destinations ("#" ++ name) =
      (t.destination? name).map (placeEntry first) := by
  have hhash : ("#" ++ name).toList = '#' :: name.toList := by simp
  unfold linkAction destination?
  rw [hhash]
  simp only [String.ofList_toList]
  cases hfind : t.destinations.find? (·.1 == name) with
  | none => rfl
  | some entry =>
    have hplaced := ht.placed entry (List.mem_of_find?_eq_some hfind)
    simp [getElem?_pageNumbers hplaced, placeEntry]

variable [Scalar α]

/-- The names that are marked where a node is laid out. -/
def namesIn (n : Node α) : List String := (passagesOf n).flatMap Passage.names

/-- An inline node marks the names that it comes from. -/
theorem names_ofInline {n : Node α} {os : List Origin} (h : originsOf [] n = some os) :
    (Passage.ofInline n).names = namesOf os := by
  have hcollected : Collected [] (collectInline none .empty n) (originsOf [] n) :=
    collectInline_gathered n [] gathered_empty
  rw [h] at hcollected
  have hmarks : marksOf (Passage.ofInline n).run.tokens = (Passage.ofInline n).names :=
    (Passage.ofInline n).gathered.marks
  rw [← hmarks, Passage.run_ofInline]
  cases hrun : collectInline none .empty n with
  | none => rw [hrun] at hcollected; exact hcollected.elim
  | some run =>
    rw [hrun] at hcollected
    exact Gathered.marks hcollected

theorem id_mem_namesIn {ends : AnchorEnds} {id : String} (h : ends.id = some id)
    (shape : AnchorShape α) (content : Node α) : id ∈ namesIn (.anchor ends shape content) := by
  obtain ⟨os, hos⟩ : ∃ os, originsOf [] (.anchor ends shape content) =
      some (.name id content.textContent :: os) := by
    simp only [originsOf, h]
    split
    · exact ⟨_, rfl⟩
    · exact ⟨_, rfl⟩
  have hpassages : passagesOf (.anchor ends shape content) =
      [.ofInline (.anchor ends shape content)] := by simp only [passagesOf]
  unfold namesIn
  rw [hpassages, List.flatMap_singleton, names_ofInline hos]
  exact List.mem_cons_self

/-! ## Names stay -/

theorem isSome_perform {name : String} (acts : List (Act α)) : ∀ {s : Layout α},
    (s.destination? name).isSome → ((perform acts s).destination? name).isSome := by
  induction acts with
  | nil => exact fun h => h
  | cons a acts ih =>
    intro s h
    refine ih ?_
    by_cases hmark : ∃ l, a = .line l ∧ name ∈ marksOf l.line.tokens
    · obtain ⟨l, rfl, hl⟩ := hmark
      obtain ⟨x, hx⟩ := (Act.destination?_line l s name).2 hl
      rw [hx]
      rfl
    · have hsame : (perform [a] s).destination? name = s.destination? name := by
        refine perform_destination? (fun l hl => ?_) s
        cases a with
        | line m =>
          obtain rfl := List.mem_singleton.mp hl
          exact fun hm => hmark ⟨l, rfl, hm⟩
        | _ => cases hl
      exact hsame ▸ h

theorem isSome_foldl_apply {name : String} (calls : List (Call α)) : ∀ {s : Layout α},
    (s.destination? name).isSome →
      ((calls.foldl (fun s call => call.apply s) s).destination? name).isSome := by
  induction calls with
  | nil => exact fun h => h
  | cons call calls ih =>
    intro s h
    refine ih ?_
    rcases apply_records call s with hsame | ⟨n, -, happly⟩
    · simpa only [destination?, hsame] using h
    · change ((call.apply s).destination? name).isSome
      rw [happly]
      exact isSome_perform (scriptOf n s) h

/-! ## Where names are recorded -/

/-- The place is that of a line which holds a mark of `name`, and is drawn while the node is added:
the page that is open then, and the top of the line. -/
def MarkedAt (n : Node α) (s : Layout α) (name : String) (d : Destination α) : Prop :=
  ∃ pre l post, scriptOf n s = pre ++ .line l :: post ∧ name ∈ marksOf l.line.tokens ∧
    d.pageIndex = (perform pre s).finished.length ∧ d.y = l.top

/-- Adding a node records each of its names, at the last line that holds it. -/
theorem add_markedAt {n : Node α} {s t : Layout α} (hopen : s.phase = .opened)
    (hrun : (add n).run s = (.ok (), t)) {name : String} (hname : name ∈ namesIn n) :
    ∃ d, t.destination? name = some d ∧ MarkedAt n s name d := by
  obtain ⟨p, hp, hname⟩ := List.mem_flatMap.mp hname
  rw [run_add hopen] at hrun
  have hdone : perform (scriptOf n s) s = t := by rw [runs_scriptOf, hrun]
  obtain ⟨laid, hlaid, hall⟩ := scriptOf_laysOut n s
  obtain ⟨q, hq, rfl⟩ := List.mem_map.mp (hall (congrArg Prod.fst hrun) p hp)
  rw [← (hlaid.placed q hq).2.marks] at hname
  obtain ⟨m, hm, hmark⟩ := List.mem_flatMap.mp hname
  have hdrawn : m ∈ linesIn (scriptOf n s) := by
    rw [hlaid.lines]
    exact List.mem_flatMap.mpr ⟨q, hq, hm⟩
  obtain ⟨before, l, after, hlines, hl, hafter⟩ :=
    exists_last (P := fun l : PlacedLine α => name ∈ marksOf l.line.tokens) ⟨m, hdrawn, hmark⟩
  obtain ⟨pre, post, hacts, -, rfl⟩ := exists_line hlines
  obtain ⟨x, hx⟩ := (Act.destination?_line l (perform pre s) name).2 hl
  refine ⟨⟨(perform pre s).finished.length, x, l.top⟩, ?_, pre, l, post, hacts, hl, rfl, rfl⟩
  rw [← hdone, hacts, perform_append, perform_cons, perform_destination? hafter, hx]

theorem replay_append_opened {calls : List (Call α)} (h : (replay calls).phase = .opened)
    (more : List (Call α)) : (replay (calls ++ more)).phase = .opened := by
  unfold replay at h ⊢
  rw [List.foldl_append]
  generalize calls.foldl (fun s call => call.apply s) .initial = s at h
  induction more generalizing s with
  | nil => exact h
  | cons call more ih => exact ih _ (apply_opened call h)

/-- Links of a document to the names of a node that has been added to it, and to other names. Every
name of the node is found, and leads to the node unless a later one marks it again; a name that no
node marks is not found. -/
theorem replay_names {before : List (Call α)} {n : Node α} {t : Layout α}
    (hopen : (replay before).phase = .opened) (hrun : (add n).run (replay before) = (.ok (), t))
    (after : List (Call α)) :
    let done := (replay (before ++ .add n :: after)).conclude
    (∀ first name, linkAction (pageNumbers first done.finished.length) done.destinations
        ("#" ++ name) = (done.destination? name).map (placeEntry first)) ∧
      (∀ name ∈ namesIn n, (done.destination? name).isSome ∧
        ((∀ m, .add m ∈ after → name ∉ namesIn m) →
          ∃ d, done.destination? name = some d ∧ MarkedAt n (replay before) name d)) ∧
      ∀ name, (∀ m, .add m ∈ before ++ .add n :: after → name ∉ namesIn m) →
        done.destination? name = none := by
  intro done
  have happly : (Call.add n).apply (replay before) = t := congrArg Prod.snd hrun
  have hdone : done = (after.foldl (fun s call => call.apply s) t).conclude := by
    simp only [done, replay, List.foldl_append, List.foldl_cons]
    rw [← happly]
    rfl
  have hbound : Bound done :=
    conclude_bound ((replay_sound _).opened (replay_append_opened hopen (.add n :: after)))
  refine ⟨fun first name => ?_, fun name hname => ?_, fun name hnone => ?_⟩
  · exact linkAction_hash hbound first name
  · obtain ⟨d, hd, hplace⟩ := add_markedAt hopen hrun hname
    rw [hdone, conclude_destination?]
    refine ⟨isSome_foldl_apply after (hd ▸ rfl), fun hlater => ⟨d, ?_, hplace⟩⟩
    rw [foldl_apply_destination? after hlater, hd]
  · rw [conclude_destination?]
    exact foldl_apply_destination? _ hnone .initial

end Folio.Flow
