import Folio.Assembly.Stamping
import Folio.Proofs.Pdf.Displayed
import Folio.Proofs.Run

/-!
# Stamped documents

Stamping leaves the pages of a document where they are. A page on which nothing is drawn stays as it
is, and every other page gets one more stream, with all that is drawn on it, behind those it has.
-/
namespace Folio.Pdf

open Document Flow

variable {α : Type}

/-! ## What leaves the pages alone -/

/-- A run that keeps the pages of every document and their contents, whether it succeeds or not. -/
def KeepsPages {β : Type} (act : StampM α β) : Prop :=
  ∀ doc pages, Displays doc pages → Displays (act.run doc).2 pages

theorem keepsPages_pure {β : Type} (b : β) : KeepsPages (pure b : StampM α β) := fun _ _ h => h

theorem keepsPages_bind {β γ : Type} {act : StampM α β} {next : β → StampM α γ}
    (h : KeepsPages act)
    (hnext : ∀ doc b, (act.run doc).1 = .ok b → KeepsPages (next b)) :
    KeepsPages (act >>= next) := by
  intro doc pages hdoc
  have hact := h doc pages hdoc
  rw [run_bind]
  rcases hrun : act.run doc with ⟨r, after⟩
  rw [hrun] at hact
  cases r with
  | error e => exact hact
  | ok b => exact hnext doc b (by rw [hrun]) after pages hact

theorem keepsPages_addObject (o : Obj α) : KeepsPages (addObject o) := fun _ _ h => h.add o

theorem keepsPages_liftExcept {β : Type} (e : Except StructureError β) :
    KeepsPages (liftExcept e : StampM α β) := by
  intro doc pages h
  cases e <;> exact h

theorem find?_of_follow {doc : Document α} {fuel number found : Nat} {o : Obj α}
    (h : doc.follow fuel number = some (found, o)) : doc.find? found = some o := by
  induction fuel generalizing number with
  | zero => simp [follow] at h
  | succ fuel ih =>
    unfold follow at h
    split at h
    · exact ih h
    · next hfind =>
      obtain ⟨rfl, rfl⟩ : number = found ∧ _ = o := by simpa using h
      exact hfind
    · simp at h

theorem find?_of_locate? {doc : Document α} {number found : Nat} {o : Obj α}
    (h : doc.locate? number = some (found, o)) : doc.find? found = some o := find?_of_follow h

theorem keepsPages_changeDict {f : Dict α → Dict α}
    (hf : ∀ d, AgreeOn ("Contents" :: treeKeys) d (f d)) (number : Nat) :
    KeepsPages (changeDict number f) := by
  intro doc pages h
  unfold changeDict
  rw [run_bind, run_get]
  simp only
  split
  · next found d hlocate => exact h.keep (extends_set (find?_of_locate? hlocate) (hf d))
  · exact h
  · exact h

theorem keepsPages_tryChangeDict {f : Dict α → Except StructureError (Dict α)}
    (hf : ∀ d e, f d = .ok e → AgreeOn ("Contents" :: treeKeys) d e) (number : Nat) :
    KeepsPages (tryChangeDict number f) := by
  intro doc pages h
  unfold tryChangeDict
  rw [run_bind, run_get]
  simp only
  split
  · next found d hlocate =>
    rw [run_bind]
    cases hd : f d with
    | error e => exact h
    | ok e => exact h.keep (extends_set (find?_of_locate? hlocate) (hf d e hd))
  · exact h
  · exact h

/-! ## Fonts -/

/-- A resource name of a font begins with an `F`. -/
theorem fontResourceName_ne_of_initial {key : String} (hkey : key.toList.head? ≠ some 'F')
    (baseFont : String) : bytesOf key ≠ bytesOf (fontResourceName baseFont) := by
  intro h
  apply hkey
  rw [bytesOf_inj.mp h]
  simp [fontResourceName]

theorem fontResourceName_ne {baseFont key : String} (hkey : key ∈ "Contents" :: treeKeys) :
    bytesOf key ≠ bytesOf (fontResourceName baseFont) := by
  refine fontResourceName_ne_of_initial ?_ baseFont
  revert key
  decide

/-- Fonts under their resource names. -/
def Named (fonts : Dict α) : Prop :=
  ∀ f ∈ fonts, ∃ baseFont, f.1 = bytesOf (fontResourceName baseFont)

theorem agreeOn_addEntries {fonts : Dict α} (h : Named fonts) (d : Dict α) :
    AgreeOn ("Contents" :: treeKeys) d (addEntries fonts d) := by
  unfold addEntries
  suffices hfold : ∀ e, AgreeOn ("Contents" :: treeKeys) d e → AgreeOn ("Contents" :: treeKeys) d
      (fonts.foldl (fun d f => Dict.set f.1 f.2 d) e) from hfold d fun _ _ => rfl
  induction fonts with
  | nil => exact fun e he => he
  | cons f fonts ih =>
    intro e he
    refine ih (fun f hf => h f (List.mem_cons_of_mem _ hf)) _ (he.set (fun key hkey => ?_) f.2)
    obtain ⟨baseFont, hname⟩ := h f List.mem_cons_self
    rw [hname]
    exact fontResourceName_ne hkey

theorem agreeOn_set_name {name : String} (hname : name ∉ "Contents" :: treeKeys) (value : Obj α)
    (d : Dict α) : AgreeOn ("Contents" :: treeKeys) d (Dict.set (bytesOf name) value d) := by
  have hself : AgreeOn ("Contents" :: treeKeys) d d := fun _ _ => rfl
  refine hself.set (fun key hkey heq => ?_) value
  exact hname (bytesOf_inj.mp heq ▸ hkey)

theorem agreeOn_withFonts {fonts d e : Dict α} (h : withFonts fonts d = .ok e) :
    AgreeOn ("Contents" :: treeKeys) d e := by
  unfold withFonts at h
  simp only at h
  split at h
  · obtain rfl := Except.ok.inj h
    exact agreeOn_set_name (by simp [treeKeys]) _ d
  · cases h

theorem agreeOn_withPageFonts {fonts d e : Dict α} (h : withPageFonts fonts d = .ok e) :
    AgreeOn ("Contents" :: treeKeys) d e := by
  unfold withPageFonts at h
  simp only at h
  split at h
  · next resources _ =>
    cases hfonts : withFonts fonts resources with
    | error fault =>
      rw [hfonts] at h
      cases h
    | ok fonts =>
      rw [hfonts] at h
      obtain rfl := Except.ok.inj h
      exact agreeOn_set_name (by simp [treeKeys]) _ d
  · cases h

theorem keepsPages_registerFonts (page : Nat) {fonts : Dict α} (h : Named fonts) :
    KeepsPages (registerFonts page fonts) := by
  refine keepsPages_bind (fun _ _ h => h) fun _ doc _ => ?_
  refine keepsPages_bind (keepsPages_liftExcept _) fun _ place _ => ?_
  cases place with
  | object n => exact keepsPages_changeDict (agreeOn_addEntries h) n
  | resources n => exact keepsPages_tryChangeDict (fun _ _ => agreeOn_withFonts) n
  | page => exact keepsPages_tryChangeDict (fun _ _ => agreeOn_withPageFonts) page

theorem keepsPages_fontNumber (table : FontTable) (baseFont : String) :
    KeepsPages (fontNumber table baseFont : StampM α (Nat × FontTable)) := by
  unfold fontNumber
  split
  · exact keepsPages_pure _
  · exact keepsPages_bind (keepsPages_addObject _) fun _ _ _ => keepsPages_pure _

theorem keepsPages_registrations (table : FontTable) (names : List String) :
    KeepsPages (registrations table names : StampM α (Dict α × FontTable)) := by
  induction names generalizing table with
  | nil => exact keepsPages_pure _
  | cons baseFont names ih =>
    refine keepsPages_bind (keepsPages_fontNumber table baseFont) fun _ entry _ => ?_
    exact keepsPages_bind (ih entry.2) fun _ _ _ => keepsPages_pure _

theorem named_registrations {table : FontTable} {names : List String} {doc : Document α}
    {fonts : Dict α × FontTable} {next : Document α}
    (h : (registrations table names).run doc = (.ok fonts, next)) : Named fonts.1 := by
  induction names generalizing table doc fonts next with
  | nil =>
    cases h
    exact nofun
  | cons baseFont names ih =>
    obtain ⟨entry, _, _, h⟩ := exists_of_run_bind h
    obtain ⟨rest, _, hrest, h⟩ := exists_of_run_bind h
    cases h
    intro f hf
    rcases List.mem_cons.mp hf with rfl | hf
    · exact ⟨baseFont, rfl⟩
    · exact ih hrest f hf

/-! ## One more stream -/

theorem oneOrMore_withStream (stream : Nat) (page : Dict α) :
    oneOrMore (valueUnder "Contents" (withStream stream page)) =
      oneOrMore (valueUnder "Contents" page) ++ [.reference stream] := by
  unfold withStream valueUnder
  simp only
  split
  · next h => simp [h, oneOrMore]
  · next other hother h =>
    have hmore : oneOrMore (some other) = [other] := by
      cases other with
      | array items => exact absurd rfl (hother items)
      | _ => rfl
    rw [h, hmore]
    simp [oneOrMore]
  · next h => simp [h, oneOrMore]

theorem agreeOn_withStream (stream : Nat) (page : Dict α) :
    AgreeOn treeKeys page (withStream stream page) := by
  have hset (value : Obj α) : AgreeOn treeKeys page (Dict.set (bytesOf "Contents") value page) := by
    have hself : AgreeOn treeKeys page page := fun _ _ => rfl
    refine hself.set (fun key hkey heq => ?_) value
    rw [bytesOf_inj.mp heq] at hkey
    simp [treeKeys] at hkey
  unfold withStream
  simp only
  split <;> exact hset _

/-- The page gets the stream behind those it has. -/
theorem run_overlayContent {doc : Document α} {before after : List (Nat × List Bytes)} {page : Nat}
    {contents : List Bytes} (h : Displays doc (before ++ (page, contents) :: after))
    (content : Bytes) : ∃ next, (overlayContent page content).run doc = (.ok (), next) ∧
      Displays next (before ++ (page, contents ++ [content]) :: after) := by
  have hadded := h.add (.stream [] content)
  have hstream : (doc.add (.stream [] content)).2.find? (doc.maxId + 1) =
      some (.stream [] content) := find?_set_self ..
  obtain ⟨d, hfind, hpage⟩ := hadded.page (page, contents) (by simp)
  have hlocate := locate?_of_find? hfind (by simp)
  refine ⟨(doc.add (.stream [] content)).2.set page (.dictionary (withStream (doc.maxId + 1) d)),
    ?_, ?_⟩
  · unfold overlayContent changeDict
    simp only [run_bind, addObject, run_modifyGet, run_get]
    rw [hlocate]
    rfl
  · have hnext := extends_set hfind (agreeOn_withStream (doc.maxId + 1) d)
    refine hadded.extends hnext (by simp) fun p hp e he => ?_
    have hdistinct := h.distinct
    simp only [List.map_append, List.map_cons, List.nodup_append, List.nodup_cons] at hdistinct
    by_cases hnumber : p.1 = page
    · have hown : p = (page, contents ++ [content]) := by
        rcases List.mem_append.mp hp with hp | hp
        · exact absurd hnumber (hdistinct.2.2 _ (List.mem_map_of_mem hp) page (by simp))
        · rcases List.mem_cons.mp hp with hp | hp
          · exact hp
          · exact absurd (List.mem_map.mpr ⟨p, hp, hnumber⟩) hdistinct.2.1.1
      subst hown
      obtain rfl : withStream (doc.maxId + 1) d = e := by simpa using he
      rw [oneOrMore_withStream]
      have hlead : Leads (doc.add (.stream [] content)).2 (.reference (doc.maxId + 1)) content :=
        ⟨_, _, [], rfl, hstream⟩
      exact (List.rel_append hpage.contents (.cons hlead .nil)).imp
        fun _ _ hlead => hlead.extends hnext
    · have hother : p ∈ before ++ (page, contents) :: after := by
        rcases List.mem_append.mp hp with hp | hp
        · exact List.mem_append_left _ hp
        · rcases List.mem_cons.mp hp with rfl | hp
          · exact absurd rfl hnumber
          · exact List.mem_append_right _ (List.mem_cons_of_mem _ hp)
      obtain ⟨c, hc, hcontents⟩ := hadded.page p hother
      obtain rfl : c = e := by simpa [hc] using (find?_set_of_ne hnumber _ _).symm.trans he
      exact hcontents.contents.imp fun _ _ hlead => hlead.extends hnext

/-! ## Stamped pages -/

/-- The streams of an overlay: none if nothing is drawn on it. -/
def overlayStreams (encode : Overlay α → Bytes) (overlay : Overlay α) : List Bytes :=
  if overlay.isEmpty then [] else [encode overlay]

theorem run_stampPage {encode : Overlay α → Bytes} {stamp : Stamp α} {table table' : FontTable}
    {box : PageBox α} {doc next : Document α} {before after : List (Nat × List Bytes)} {page : Nat}
    {contents : List Bytes} (h : Displays doc (before ++ (page, contents) :: after))
    (hrun : (stampPage encode stamp table box page).run doc = (.ok table', next)) :
    Displays next (before ++ (page, contents ++ overlayStreams encode (stamp box)) :: after) := by
  unfold stampPage at hrun
  unfold overlayStreams
  cases hempty : (stamp box).isEmpty with
  | true =>
    simp only [hempty, ↓reduceIte, run_pure] at hrun
    obtain rfl : doc = next := congrArg Prod.snd hrun
    simpa using h
  | false =>
    simp only [hempty, Bool.false_eq_true, ↓reduceIte] at hrun ⊢
    obtain ⟨fonts, doc₁, hregistrations, hrun⟩ := exists_of_run_bind hrun
    have hfonts := keepsPages_registrations table (stamp box).fonts doc _ h
    rw [hregistrations] at hfonts
    obtain ⟨_, doc₂, hregister, hrun⟩ := exists_of_run_bind hrun
    have hplaced := keepsPages_registerFonts page (named_registrations hregistrations) doc₁ _ hfonts
    rw [hregister] at hplaced
    obtain ⟨doc₃, hcontent, hdoc₃⟩ := run_overlayContent hplaced (encode (stamp box))
    rw [run_bind, hcontent] at hrun
    obtain rfl : doc₃ = next := congrArg Prod.snd hrun
    exact hdoc₃

/-- Pages with their contents, before and after a stamp was put on them, from page `number` on. -/
inductive StampedFrom (encode : Overlay α → Bytes) (stamp : Stamp α) (total : Nat) :
    Nat → List (Nat × List Bytes) → List (Nat × List Bytes) → Prop
  | nil (number : Nat) : StampedFrom encode stamp total number [] []
  | cons {number : Nat} {rest after : List (Nat × List Bytes)} (page : Nat)
      (contents : List Bytes) (width height : α)
      (h : StampedFrom encode stamp total (number + 1) rest after) :
      StampedFrom encode stamp total number ((page, contents) :: rest)
        ((page, contents ++ overlayStreams encode (stamp ⟨number, total, width, height⟩)) :: after)

theorem StampedFrom.length {encode : Overlay α → Bytes} {stamp : Stamp α} {total number : Nat}
    {pages after : List (Nat × List Bytes)}
    (h : StampedFrom encode stamp total number pages after) : after.length = pages.length := by
  induction h with
  | nil => rfl
  | cons page contents width height _ ih => simp [ih]

theorem StampedFrom.getElem {encode : Overlay α → Bytes} {stamp : Stamp α} {total number : Nat}
    {pages after : List (Nat × List Bytes)} (h : StampedFrom encode stamp total number pages after)
    (i : Nat) (hi : i < after.length) (hi' : i < pages.length) : ∃ width height,
      after[i].2 = pages[i].2 ++
        overlayStreams encode (stamp ⟨number + i, total, width, height⟩) := by
  induction h generalizing i with
  | nil => simp at hi'
  | cons page contents width height _ ih =>
    cases i with
    | zero => exact ⟨width, height, rfl⟩
    | succ i =>
      obtain ⟨width, height, heq⟩ := ih i (by simpa using hi) (by simpa using hi')
      refine ⟨width, height, ?_⟩
      simpa [Nat.add_assoc, Nat.add_comm 1] using heq

variable [Scalar α]

omit [Scalar α] in
theorem run_onDocument {β : Type} (act : StampM α β) (s : Stamping α) :
    (onDocument act).run s = ((act.run s.doc).1, { s with doc := (act.run s.doc).2 }) := rfl

theorem run_stampFrom {encode : Overlay α → Bytes} {stamp : Stamp α} {total : Nat}
    (rest : List (Nat × List Bytes)) : ∀ {before : List (Nat × List Bytes)} {table : FontTable}
      {number : Nat} {s t : Stamping α}, Displays s.doc (before ++ rest) →
      (stampFrom encode stamp total table number (rest.map (·.1))).run s = (.ok (), t) →
      ∃ after, Displays t.doc (before ++ after) ∧
        StampedFrom encode stamp total number rest after := by
  induction rest with
  | nil =>
    intro before table number s t h hrun
    obtain rfl : s = t := congrArg Prod.snd hrun
    exact ⟨[], h, .nil number⟩
  | cons entry rest ih =>
    obtain ⟨page, contents⟩ := entry
    intro before table number s t h hrun
    rw [List.map_cons, stampFrom] at hrun
    rcases hbox : mediaBox s.doc page with ⟨width, height⟩
    simp only [run_bind, run_get, run_modify, hbox] at hrun
    split at hrun
    · next table' u hpage =>
      rw [run_onDocument] at hpage
      obtain ⟨hok, rfl⟩ := Prod.mk.inj hpage
      have hdoc : (stampPage encode stamp table ⟨number, total, width, height⟩ page).run s.doc =
          (.ok table', _) := Prod.ext hok rfl
      have hstamped := run_stampPage h hdoc
      rw [List.append_cons] at hstamped
      obtain ⟨after, hafter, hfrom⟩ := ih hstamped hrun
      refine ⟨_, ?_, .cons page contents width height hfrom⟩
      rw [List.append_cons]
      exact hafter
    · cases hrun

theorem run_stampPages {encode : Overlay α → Bytes} {stamp : Stamp α}
    {pages : List (Nat × List Bytes)} {s t : Stamping α} (h : Displays s.doc pages)
    (hrun : (stampPages encode stamp).run s = (.ok (), t)) :
    ∃ after, Displays t.doc after ∧ StampedFrom encode stamp pages.length 1 pages after := by
  unfold stampPages at hrun
  simp only [run_bind, run_get, h.pages, List.length_map] at hrun
  have hpages : Displays s.doc ([] ++ pages) := h
  exact run_stampFrom pages hpages hrun

end Folio.Pdf

namespace Folio.Assembly

open Pdf

/-- A stamped document has the pages it had, each with its stamp behind what was on it. -/
theorem stampDocument_displays {stamp : Stamp Single} {doc stamped : Document Single} {total : Nat}
    {pages : List (Nat × List Bytes)} (h : Displays doc pages)
    (hstamped : stampDocument stamp doc = .ok (total, stamped)) :
    total = pages.length ∧ ∃ after, Displays stamped after ∧
      StampedFrom Overlay.encode stamp pages.length 1 pages after := by
  unfold stampDocument at hstamped
  split at hstamped
  · next s hrun =>
    obtain ⟨rfl, rfl⟩ : doc.pages.length = total ∧ s.doc = stamped := by simpa using hstamped
    exact ⟨by simp [h.pages], run_stampPages h hrun⟩
  · cases hstamped

end Folio.Assembly
