import Folio.Proofs.Flow.PageTree
import Folio.Proofs.Flow.Steps

/-!
# The sequence of pages

While a document is open its pages are numbered without a gap, no page without content is left
behind, and every recorded destination lies on a page that will be written. The last of these holds
only between calls: while a line is drawn its destinations are recorded before its page counts as
used, so what a step of drawing keeps is weaker than what a step of layout keeps.
-/
namespace Folio.Flow

open Style Pdf

variable {α : Type} [Scalar α]

structure Paged (s : Layout α) : Prop where
  number : s.page.number = s.finished.length + 1
  numbered : ∀ i (h : i < s.finished.length), s.finished[i].number = i + 1
  used : ∀ c ∈ s.finished, c.hasContent = true
  placed : ∀ d ∈ s.destinations, d.2.pageIndex < s.finished.length ∨
    (d.2.pageIndex = s.finished.length ∧ s.page.hasContent = true)

/-! ## What drawing keeps -/

/-- A state `t` that has drawn on the open page of `s`. -/
structure Drew (s t : Layout α) : Prop where
  finished : t.finished = s.finished
  number : t.page.number = s.page.number
  placed : ∀ d ∈ t.destinations, d ∈ s.destinations ∨ d.2.pageIndex = s.finished.length

namespace Layout

omit [Scalar α] in
theorem mem_putDestination {name : String} {d : Destination α} {ds : List (String × Destination α)}
    {e : String × Destination α} (h : e ∈ putDestination name d ds) : e = (name, d) ∨ e ∈ ds := by
  induction ds with
  | nil => exact .inl (by simpa [putDestination] using h)
  | cons entry rest ih =>
    obtain ⟨k, v⟩ := entry
    simp only [putDestination] at h
    split at h
    · rcases List.mem_cons.mp h with h | h
      · exact .inl h
      · exact .inr (List.mem_cons_of_mem _ h)
    · rcases List.mem_cons.mp h with h | h
      · exact .inr (by simp [h])
      · exact (ih h).imp_right (List.mem_cons_of_mem _)

theorem drawsOn_drew {s t : Layout α} (h : DrawsOn s t) : Drew s t := by
  induction h with
  | refl => exact ⟨rfl, rfl, fun d hd => .inl hd⟩
  | tail _ hd ih =>
    cases hd with
    | paint hp => exact ⟨ih.finished, hp.number.trans ih.number, ih.placed⟩
    | record name x y =>
      refine ⟨ih.finished, ih.number, fun d hd => ?_⟩
      rcases mem_putDestination hd with rfl | hd
      · exact .inr (congrArg List.length ih.finished)
      · exact ih.placed d hd

/-! ## What a step keeps -/

omit [Scalar α] in
/-- An overlay leaves alone whatever neither operations nor fonts change. -/
theorem apply_cover {β : Type} {f : Canvas α → β} (hdraw : ∀ c ops, f (c.draw ops) = f c)
    (hfont : ∀ c name, f (Canvas.useFont c name) = f c) (c : Canvas α) (o : Overlay α) :
    f (c.cover o) = f c := by
  have hfonts (names : List String) : ∀ c : Canvas α, f (names.foldl Canvas.useFont c) = f c := by
    induction names with
    | nil => exact fun c => rfl
    | cons name names ih => exact fun c => (ih (c.useFont name)).trans (hfont c name)
  unfold Canvas.cover
  split
  · rfl
  · exact (hfonts o.fonts _).trans (hdraw c _)

omit [Scalar α] in
@[simp] theorem cover_number (c : Canvas α) (o : Overlay α) : (c.cover o).number = c.number :=
  apply_cover (fun _ _ => rfl) (fun _ _ => rfl) c o

omit [Scalar α] in
@[simp] theorem cover_hasContent (c : Canvas α) (o : Overlay α) :
    (c.cover o).hasContent = c.hasContent :=
  apply_cover (fun _ _ => rfl) (fun _ _ => rfl) c o

@[simp] theorem startPage_number (s : Layout α) (n : Nat) : (s.startPage n).page.number = n := by
  unfold startPage
  simp only
  split <;> rfl

@[simp] theorem startPage_hasContent (s : Layout α) (n : Nat) :
    (s.startPage n).page.hasContent = false := by
  unfold startPage
  simp only
  split <;> rfl

@[simp] theorem startPage_finished (s : Layout α) (n : Nat) :
    (s.startPage n).finished = s.finished := by
  unfold startPage
  simp only
  split <;> rfl

@[simp] theorem startPage_destinations (s : Layout α) (n : Nat) :
    (s.startPage n).destinations = s.destinations := by
  unfold startPage
  simp only
  split <;> rfl

/-- The page that is finished keeps the number that its place asks for. -/
theorem getElem_finishPage {s : Layout α} (hs : Paged s) (i : Nat)
    (h : i < s.finishPage.finished.length) : s.finishPage.finished[i].number = i + 1 := by
  simp only [finishPage, List.length_append, List.length_singleton] at h
  simp only [finishPage, List.getElem_append]
  split
  · next hi => exact hs.numbered i hi
  · next hi =>
    have he : i = s.finished.length := by omega
    subst he
    simp [hs.number]

theorem breakPage_paged {s : Layout α} (hs : Paged s) (hu : s.page.hasContent = true) :
    Paged s.breakPage where
  number := by simp [breakPage, finishPage, hs.number]
  numbered := by
    have hn := getElem_finishPage hs
    simpa [breakPage] using hn
  used := by
    intro c hc
    simp only [breakPage, startPage_finished, finishPage, List.mem_append,
      List.mem_singleton] at hc
    rcases hc with hc | rfl
    · exact hs.used c hc
    · simpa using hu
  placed := by
    intro d hd
    simp only [breakPage, startPage_destinations] at hd
    have hp := hs.placed d hd
    left
    simp only [breakPage, startPage_finished, finishPage, List.length_append,
      List.length_singleton]
    omega

omit [Scalar α] in
theorem markContent_paged {s t : Layout α} (hs : Paged s) (h : Drew s t) :
    Paged t.markContent where
  number := by
    change t.page.number = t.finished.length + 1
    rw [h.number, h.finished, hs.number]
  numbered := by
    change ∀ i (hi : i < t.finished.length), t.finished[i].number = i + 1
    simpa only [h.finished] using hs.numbered
  used := by
    change ∀ c ∈ t.finished, c.hasContent = true
    simpa only [h.finished] using hs.used
  placed := by
    intro d hd
    change d.2.pageIndex < t.finished.length ∨ (d.2.pageIndex = t.finished.length ∧ true = true)
    rw [h.finished]
    rcases h.placed d hd with hd | hd
    · exact (hs.placed d hd).imp_right fun hp => ⟨hp.1, rfl⟩
    · exact .inr ⟨hd, rfl⟩

theorem step_paged {s t : Layout α} (h : Step s t) (hs : Paged s) : Paged t := by
  cases h with
  | move cursor inset => exact ⟨hs.number, hs.numbered, hs.used, hs.placed⟩
  | paint hp =>
    refine ⟨hp.number.trans hs.number, hs.numbered, hs.used, ?_⟩
    simpa only [hp.hasContent] using hs.placed
  | fill hd => exact markContent_paged hs (drawsOn_drew hd)
  | turn hu => exact breakPage_paged hs hu

theorem steps_paged {s t : Layout α} (h : Steps s t) (hs : Paged s) : Paged t := by
  induction h with
  | refl => exact hs
  | tail _ hstep ih => exact step_paged hstep ih

end Layout

/-! ## What a call keeps -/

open Layout

/-- A call of the engine other than the one that closes it. -/
inductive Call (α : Type) where
  | setGeometry (geometry : Geometry α)
  | setInfo (info : DocumentInfo)
  | setFooter (footer : Option (RunningFooter α))
  | setHeader (header : Option String)
  | addEvent (event : PageEvent α)
  | openDocument
  | add (n : Node α)
  | newPage

/-- The state that a call leaves, whether it succeeds or fails. -/
def Call.apply : Call α → Layout α → Layout α
  | setGeometry geometry, s => s.setGeometry geometry
  | setInfo info, s => s.setInfo info
  | setFooter footer, s => s.setFooter footer
  | setHeader header, s => s.setHeader header
  | addEvent event, s => s.addEvent event
  | openDocument, s => (Flow.openDocument.run s).2
  | add n, s => ((Flow.add n).run s).2
  | newPage, s => (Flow.newPage.run s).2

/-- The state of a new engine after a row of calls. -/
def replay (calls : List (Call α)) : Layout α := calls.foldl (fun s call => call.apply s) .initial

/-- Before it is opened a document has no pages behind it. -/
def Fresh (s : Layout α) : Prop := s.finished = [] ∧ s.destinations = []

/-- What every row of calls keeps. -/
structure Sound (s : Layout α) : Prop where
  configuring : s.phase = .configuring → Fresh s
  opened : s.phase = .opened → Paged s

theorem initial_sound : Sound (.initial : Layout α) := ⟨fun _ => ⟨rfl, rfl⟩, fun h => by cases h⟩

omit [Scalar α] in
/-- A setter touches neither pages nor destinations. -/
theorem Sound.congr {s t : Layout α} (hs : Sound s) (hphase : t.phase = s.phase)
    (hfinished : t.finished = s.finished) (hpage : t.page = s.page)
    (hdestinations : t.destinations = s.destinations) : Sound t := by
  refine ⟨fun h => ?_, fun h => ?_⟩
  · have hf := hs.configuring (hphase.symm.trans h)
    exact ⟨hfinished.trans hf.1, hdestinations.trans hf.2⟩
  · have hp := hs.opened (hphase.symm.trans h)
    refine ⟨?_, ?_, ?_, ?_⟩
    · rw [hpage, hfinished, hp.number]
    · simpa only [hfinished] using hp.numbered
    · rw [hfinished]
      exact hp.used
    · rw [hpage, hfinished, hdestinations]
      exact hp.placed

theorem steps_sound {s t : Layout α} (h : Steps s t) (hs : Sound s) (hopen : s.phase = .opened) :
    Sound t := by
  have hphase : t.phase = .opened := (steps_sameSetting h).phase.trans hopen
  refine ⟨fun hc => ?_, fun _ => steps_paged h (hs.opened hopen)⟩
  rw [hphase] at hc
  cases hc

omit [Scalar α] in
/-- Nothing runs unless the document is open. -/
theorem run_afterOpen {β : Type} (act : FlowM α β) {s : Layout α} :
    (s.phase = .opened ∧ (requireOpen >>= fun _ => act).run s = act.run s) ∨
      (s.phase ≠ .opened ∧ ((requireOpen >>= fun _ => act).run s).2 = s) := by
  rw [run_bind, run_requireOpen]
  cases h : s.phase with
  | configuring => exact .inr ⟨nofun, rfl⟩
  | opened => exact .inl ⟨rfl, rfl⟩
  | closed => exact .inr ⟨nofun, rfl⟩

theorem add_sound (n : Node α) {s : Layout α} (hs : Sound s) : Sound ((add n).run s).2 := by
  unfold add
  rcases run_afterOpen (addBlock n) (s := s) with ⟨hopen, hrun⟩ | ⟨-, hrun⟩
  · rw [hrun]
    exact steps_sound (addBlock_walks n s) hs hopen
  · rw [hrun]
    exact hs

/-- An open document turns its page if the page is used. -/
theorem run_newPage {s : Layout α} (h : s.phase = .opened) :
    newPage.run s = (.ok s.page.hasContent, if s.page.hasContent then s.breakPage else s) := by
  unfold newPage
  rw [run_bind, run_requireOpen, h]
  simp only [run_bind, run_get]
  cases hc : s.page.hasContent with
  | false => rfl
  | true => rfl

theorem newPage_sound {s : Layout α} (hs : Sound s) : Sound (newPage.run s).2 := by
  by_cases hopen : s.phase = .opened
  · rw [run_newPage hopen]
    refine steps_sound ?_ hs hopen
    cases hc : s.page.hasContent with
    | false => exact .refl
    | true => exact s.breakPage_steps hc
  · unfold newPage
    rcases run_afterOpen _ (s := s) with ⟨h, -⟩ | ⟨-, hrun⟩
    · exact absurd h hopen
    · rw [hrun]
      exact hs

theorem openDocument_sound {s : Layout α} (hs : Sound s) :
    Sound ((openDocument.run s : Except EngineError Unit × Layout α)).2 := by
  unfold openDocument
  rw [run_bind, run_get]
  by_cases hc : s.phase = .configuring
  · simp only [hc, ↓reduceIte, run_modify]
    obtain ⟨hfinished, hdestinations⟩ := hs.configuring hc
    have hphase := (startPage_sameSetting { s with phase := .opened } 1).phase
    refine ⟨fun h => ?_, fun _ => ?_⟩
    · rw [hphase] at h
      cases h
    · refine ⟨?_, ?_, ?_, ?_⟩ <;> simp [hfinished, hdestinations]
  · simp only [hc, ↓reduceIte, run_throw]
    exact hs

/-- A document that is open stays open until it is closed. -/
theorem apply_opened (call : Call α) {s : Layout α} (h : s.phase = .opened) :
    (call.apply s).phase = .opened := by
  cases call with
  | setGeometry geometry => simp [Call.apply, setGeometry, h]
  | setInfo info => exact h
  | setFooter footer => exact h
  | setHeader header => exact h
  | addEvent event => exact h
  | openDocument => simp [Call.apply, Flow.openDocument, run_bind, h]
  | add n =>
    simp only [Call.apply, run_add h]
    exact (steps_sameSetting (addBlock_walks n s)).phase.trans h
  | newPage =>
    simp only [Call.apply, run_newPage h]
    split
    · exact (breakPage_sameSetting s).phase.trans h
    · exact h

theorem apply_sound (call : Call α) {s : Layout α} (hs : Sound s) : Sound (call.apply s) := by
  cases call with
  | setGeometry geometry =>
    simp only [Call.apply, setGeometry]
    split
    · exact hs.congr rfl rfl rfl rfl
    · exact hs
  | setInfo info => exact hs.congr rfl rfl rfl rfl
  | setFooter footer => exact hs.congr rfl rfl rfl rfl
  | setHeader header => exact hs.congr rfl rfl rfl rfl
  | addEvent event => exact hs.congr rfl rfl rfl rfl
  | openDocument => exact openDocument_sound hs
  | add n => exact add_sound n hs
  | newPage => exact newPage_sound hs

theorem replay_sound (calls : List (Call α)) : Sound (replay calls) := by
  have hfold : ∀ s : Layout α, Sound s → Sound (calls.foldl (fun s call => call.apply s) s) := by
    induction calls with
    | nil => exact fun s hs => hs
    | cons call calls ih => exact fun s hs => ih _ (apply_sound call hs)
  exact hfold .initial initial_sound

/-! ## Turning and closing -/

/-- What a call for a new page comes to. -/
def Turned (s : Layout α) (turned : Bool) (t : Layout α) : Prop :=
  if turned then t.page.number = s.page.number + 1 ∧ t.page.hasContent = false else t = s

theorem run_newPage_turned {s : Layout α} (h : s.phase = .opened) :
    ∃ turned t, newPage.run s = (.ok turned, t) ∧ Turned s turned t := by
  refine ⟨_, _, run_newPage h, ?_⟩
  cases hc : s.page.hasContent with
  | false => rfl
  | true => exact ⟨startPage_number .., startPage_hasContent ..⟩

/-- A document that can be written: no page for nothing, and a page for every destination. -/
structure Bound (t : Layout α) : Prop where
  nonempty : 1 ≤ t.finished.length
  used : ∀ c ∈ t.finished, c.hasContent = false → t.finished.length = 1
  placed : ∀ d ∈ t.destinations, d.2.pageIndex < t.finished.length

theorem conclude_bound {s : Layout α} (hs : Paged s) : Bound s.conclude := by
  unfold conclude
  by_cases h : (s.page.hasContent || s.finished.isEmpty) = true
  · rw [if_pos h]
    refine ⟨?_, fun c hc hempty => ?_, fun d hd => ?_⟩
    · simp [finishPage]
    · rcases List.mem_append.mp hc with hc | hc
      · simp [hs.used c hc] at hempty
      · rw [List.mem_singleton.mp hc, cover_hasContent] at hempty
        have hfirst : s.finished = [] := by simpa [hempty] using h
        simp [finishPage, hfirst]
    · have hp := hs.placed d hd
      simp only [finishPage, List.length_append, List.length_singleton]
      omega
  · rw [if_neg h]
    have hblank : s.page.hasContent = false ∧ s.finished ≠ [] := by simpa using h
    refine ⟨List.length_pos_iff.mpr hblank.2, fun c hc hempty => ?_, fun d hd => ?_⟩
    · simp [hs.used c hc] at hempty
    · rcases hs.placed d hd with hp | hp
      · exact hp
      · simp [hblank.1] at hp

omit [Scalar α] in
theorem getElem?_pageNumbers {i count : Nat} (h : i < count) (first : Nat) :
    (pageNumbers first count)[i]? = some (first + i) := by
  simp [pageNumbers, h]

omit [Scalar α] in
/-- A link to a recorded name is never left out. -/
theorem isSome_linkAction {t : Layout α} (ht : Bound t) (first : Nat)
    {d : String × Destination α} (hd : d ∈ t.destinations) :
    (linkAction (pageNumbers first t.finished.length) t.destinations ("#" ++ d.1)).isSome := by
  have hname : ("#" ++ d.1).toList = '#' :: d.1.toList := by simp
  have hfind : (t.destinations.find? (·.1 == d.1)).isSome := by
    rw [List.find?_isSome]
    exact ⟨d, hd, by simp⟩
  obtain ⟨e, he⟩ := Option.isSome_iff_exists.mp hfind
  have hplaced := ht.placed e (List.mem_of_find?_eq_some he)
  unfold linkAction
  simp [hname, he, getElem?_pageNumbers hplaced]

theorem run_close (encode : List (Operation α) → Bytes) {s : Layout α} (h : s.phase = .opened) :
    (close encode).run s =
      (.ok (s.conclude.finished.length, .document (s.conclude.document encode)), s.conclude) := by
  unfold close
  rw [run_bind, run_requireOpen, h]
  rfl

/-- While a document is open its pages are in sequence. A call for a new page turns exactly one page
or changes nothing, and closing succeeds, writes every finished page, and finds a page for every
recorded name. -/
theorem replay_pageSequence (encode : List (Operation α) → Bytes) (calls : List (Call α))
    (h : (replay calls).phase = .opened) :
    Paged (replay calls)
      ∧ (∃ turned t, newPage.run (replay calls) = (.ok turned, t) ∧ Turned (replay calls) turned t)
      ∧ ∃ t, (close encode).run (replay calls) =
          (.ok (t.finished.length, .document (t.document encode)), t)
        ∧ Bound t
        ∧ (∃ tree first, (t.document encode).find? (t.document encode).root =
              some (.dictionary (Dict.ofList
                [("Type", Obj.nameOf "Catalog"), ("Pages", .reference tree)]))
            ∧ (t.document encode).find? tree =
              some (.dictionary (pageTree (pageNumbers first t.finished.length))))
        ∧ ∀ first, ∀ d ∈ t.destinations,
          (pageNumbers first t.finished.length)[d.2.pageIndex]? = some (first + d.2.pageIndex)
            ∧ (linkAction (pageNumbers first t.finished.length) t.destinations
                ("#" ++ d.1)).isSome := by
  have hs := (replay_sound calls).opened h
  have hbound := conclude_bound hs
  refine ⟨hs, run_newPage_turned h, _, run_close encode h, hbound, ?_, fun first d hd => ?_⟩
  · exact document_pageTree encode _
  · exact ⟨getElem?_pageNumbers (hbound.placed d hd) first, isSome_linkAction hbound first hd⟩

/-- A named anchor on the first of two pages. -/
def anchorCalls : List (Call α) :=
  [.setHeader (some "Folio"), .openDocument,
    .add (.anchor ⟨some "start", none⟩ .plain (.text ⟨"Start", .standard, none⟩)), .newPage]

theorem replay_pageSequence_anchorCalls :
    (replay (anchorCalls (α := Single))).phase = .opened ∧
      Paged (replay (anchorCalls (α := Single))) := by
  have hopen : (Call.openDocument.apply (Layout.initial.setHeader (some "Folio"))
      : Layout Single).phase = .opened := rfl
  have h : (replay (anchorCalls (α := Single))).phase = .opened :=
    apply_opened .newPage (apply_opened (.add _) hopen)
  exact ⟨h, (replay_pageSequence encodeOperations anchorCalls h).1⟩

end Folio.Flow
