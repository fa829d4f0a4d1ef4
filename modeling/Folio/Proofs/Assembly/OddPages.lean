import Folio.Proofs.Assembly.Layouts
import Folio.Proofs.Compile.Resolution
import Mathlib.Order.Bounds.Defs

/-!
# Double pages

Clearing a double page leaves an unused page with an odd number open, the first one that there can
be, and whatever is added next begins on it. A page is left empty for it by a spacer, and a spacer
without a leading asks the context for a font: the one thing that can go wrong is its colour.
-/
namespace Folio

open Style Markup

namespace Flow

variable {α : Type} [Scalar α]

/-! ## Where content begins -/

/-- A step that neither counts as content nor turns the page. -/
inductive QuietStep : Layout α → Layout α → Prop
  | move (s : Layout α) (cursor inset : α) : QuietStep s { s with cursor, inset }
  | paint (s : Layout α) {c : Canvas α} (h : Paints s.page c) : QuietStep s { s with page := c }

abbrev QuietSteps (s t : Layout α) : Prop := Relation.ReflTransGen QuietStep s t

theorem quietSteps_drew {s t : Layout α} (h : QuietSteps s t) : Drew s t := by
  induction h with
  | refl => exact ⟨rfl, rfl, fun d hd => .inl hd⟩
  | tail _ hstep ih =>
    cases hstep with
    | move cursor inset => exact ⟨ih.finished, ih.number, ih.placed⟩
    | paint hp => exact ⟨ih.finished, hp.number.trans ih.number, ih.placed⟩

theorem quietSteps_hasContent {s t : Layout α} (h : QuietSteps s t) :
    t.page.hasContent = s.page.hasContent := by
  induction h with
  | refl => rfl
  | tail _ hstep ih =>
    cases hstep with
    | move cursor inset => exact ih
    | paint hp => exact hp.hasContent.trans ih

/-- Between `s` and `t` there is no content, or the first of it goes on the page that is open in
`s`; what a spacer keeps free is content. -/
def BeginsOn (s t : Layout α) : Prop :=
  (QuietSteps s t ∧ t.page.number = s.page.number ∧ t.finished = s.finished) ∨
    ∃ u v, QuietSteps s u ∧ DrawsOn u v ∧ v.page.number = s.page.number ∧
      v.finished = s.finished ∧ Steps v.markContent t

/-- An unused page is not turned. -/
theorem steps_beginsOn {s t : Layout α} (h : Steps s t) (hunused : s.page.hasContent = false) :
    BeginsOn s t := by
  induction h with
  | refl => exact .inl ⟨.refl, rfl, rfl⟩
  | @tail u t _ hstep ih =>
    rcases ih with ⟨hquiet, -, -⟩ | ⟨v, w, hquiet, hdraw, hnumber, hfinished, hrest⟩
    · have hdrew := quietSteps_drew hquiet
      cases hstep with
      | move cursor inset => exact .inl ⟨hquiet.tail (.move ..), hdrew.number, hdrew.finished⟩
      | paint hp =>
        exact .inl ⟨hquiet.tail (.paint u hp), hp.number.trans hdrew.number, hdrew.finished⟩
      | fill hdraw =>
        have hv := Layout.drawsOn_drew hdraw
        exact .inr ⟨u, _, hquiet, hdraw, hv.number.trans hdrew.number,
          hv.finished.trans hdrew.finished, .refl⟩
      | turn hused =>
        rw [quietSteps_hasContent hquiet, hunused] at hused
        cases hused
    · exact .inr ⟨v, w, hquiet, hdraw, hnumber, hfinished, hrest.tail hstep⟩

/-! ## Turning pages -/

/-- The page that is open when a new page has been asked for. -/
def openedPage (s : Layout α) : Nat := s.page.number + if s.page.hasContent then 1 else 0

/-- An open document with an unused page. -/
structure Unused (t : Layout α) (number : Nat) : Prop where
  phase : t.phase = .opened
  unused : t.page.hasContent = false
  number : t.page.number = number

theorem run_newPage_unused {s : Layout α} (h : s.phase = .opened) :
    ∃ turned t, newPage.run s = (.ok turned, t) ∧ Unused t (openedPage s) := by
  refine ⟨_, _, run_newPage h, ?_⟩
  unfold openedPage
  cases hused : s.page.hasContent with
  | false => exact ⟨h, hused, rfl⟩
  | true =>
    exact ⟨(breakPage_sameSetting s).phase.trans h, Layout.startPage_hasContent ..,
      Layout.startPage_number ..⟩

/-- A spacer on an unused page stays there and uses it. -/
theorem run_add_spacer {s : Layout α} {number : Nat} (h : Unused s number) (lines : Nat)
    (leading : α) : ∃ t, (add (.spacer lines leading)).run s = (.ok (), t) ∧
      t.phase = .opened ∧ openedPage t = number + 1 := by
  have hblock : (addBlock (.spacer lines leading)).run s = (.ok (), s.addSpacer lines leading) := by
    unfold addBlock
    rfl
  refine ⟨_, (run_add h.phase _).trans hblock, ?_, ?_⟩
  · exact (steps_sameSetting (s.addSpacer_steps lines leading)).phase.trans h.phase
  · have hstay : s.mustBreak ((lines : α) * leading) = false := by
      simp only [Layout.mustBreak, h.unused, Bool.and_false]
    have hspacer : s.addSpacer lines leading =
        (s.lower ((lines : α) * leading)).markContent := by
      unfold Layout.addSpacer
      simp only [hstay]
      rfl
    rw [hspacer, ← h.number]
    rfl

end Flow

namespace Compile

/-- What is wrong with the font of a spacer that needs one. -/
def spacerFault? (context : Context) : Option Color.Fault :=
  match (context.scalar? "leading" : Option Single) with
  | some _ => none
  | none => match (Font.ofContext context : Except Color.Fault (Font Single)) with
    | .ok _ => none
    | .error fault => some fault

/-- A plain spacer is one line of the leading around it, or else of the font around it. -/
theorem run_compile_spacer (env : Env Single) (context : Context) (state : State Single) :
    match spacerFault? context with
    | none => ∃ leading, (compile env (.array [.string "spacer"]) context).run state =
        (.ok (.spacer 1 leading), state)
    | some fault => (compile env (.array [.string "spacer"]) context).run state =
        (.error (.color fault), state) := by
  have hcompile : compile env (.array [.string "spacer"]) context =
      spacerNode ⟨Token.parse "spacer", none, [], .array [.string "spacer"]⟩ context := by
    have hbound : 0 < stepBound env (.array [.string "spacer"]) context := by
      unfold stepBound
      positivity
    obtain ⟨steps, hsteps⟩ := Nat.exists_eq_add_one.mpr hbound
    rw [compile, hsteps]
    rfl
  rw [hcompile]
  unfold spacerFault? spacerNode fontOf
  cases hleading : (context.scalar? "leading" : Option Single) with
  | some leading => exact ⟨leading, rfl⟩
  | none =>
    simp only
    cases hfont : (Font.ofContext context : Except Color.Fault (Font Single)) with
    | error fault => rfl
    | ok font => exact ⟨font.size * spacerLineFactor, rfl⟩

end Compile

namespace Assembly

open Compile Flow

/-! ## Double pages -/

/-- The numbers with which a double page may begin: odd, and not of a page in use. -/
def Beginnings (s : Layout Single) : Set Nat :=
  { m | m % 2 = 1 ∧ if s.page.hasContent then s.page.number < m else s.page.number ≤ m }

theorem isLeast_beginnings (s : Layout Single) :
    IsLeast (Beginnings s) (if openedPage s % 2 = 0 then openedPage s + 1 else openedPage s) := by
  refine ⟨?_, fun m hm => ?_⟩
  · change _ % 2 = 1 ∧ ite _ _ _
    unfold openedPage
    split <;> split <;> omega
  · obtain ⟨hodd, hbehind⟩ : m % 2 = 1 ∧ ite _ _ _ := hm
    have hopened : openedPage s ≤ m := by
      unfold openedPage
      by_cases hused : s.page.hasContent = true
      · rw [if_pos hused] at hbehind ⊢
        exact hbehind
      · rw [if_neg hused] at hbehind ⊢
        exact hbehind
    split <;> omega

variable {s : Setting (Layout Single)} {p : Progress (Layout Single)}

theorem add_standardEngine (n : Node Single) : standardEngine.add n = add n := rfl

theorem newPage_standardEngine : standardEngine.newPage = newPage := rfl

/-- Leaves a page without anything on it. -/
def leaveBlank (s : Setting (Layout Single)) : BuildM (Layout Single) Unit := do
  addItem s (.array [.string "spacer"])
  let _ ← runEngine s.engine.newPage

theorem run_leaveBlank (hengine : s.engine = standardEngine) {number : Nat}
    (hunused : Unused p.engine number) :
    match spacerFault? s.context with
    | none => ∃ q, (leaveBlank s).run p = (.ok (), q) ∧ Unused q.engine (number + 1)
    | some fault => ((leaveBlank s).run p).1 = .error (.compile (.color fault)) := by
  have hspacer := run_compile_spacer s.env s.context p.compiler
  unfold leaveBlank addItem
  rw [bind_assoc]
  cases hfault : spacerFault? s.context with
  | some fault =>
    rw [hfault] at hspacer
    rw [run_bind, run_runCompiler, hspacer]
    rfl
  | none =>
    rw [hfault] at hspacer
    obtain ⟨leading, hspacer⟩ := hspacer
    obtain ⟨t, hadd, hopen, hnumber⟩ := run_add_spacer hunused 1 leading
    obtain ⟨turned, u, hturn, hu⟩ := run_newPage_unused hopen
    rw [run_bind_of_ok (run_runCompiler_of_ok hspacer), hengine, add_standardEngine,
      newPage_standardEngine, run_bind_of_ok (run_runEngine_of_ok hadd),
      run_bind_of_ok (run_runEngine_of_ok hturn)]
    exact ⟨_, rfl, hnumber ▸ hu⟩

theorem run_clearDoublePage (hengine : s.engine = standardEngine)
    (hopen : p.engine.phase = .opened) : ∃ t, Unused t (openedPage p.engine) ∧
      (clearDoublePage s).run p = if openedPage p.engine % 2 = 0
        then (leaveBlank s).run { p with engine := t } else (.ok (), { p with engine := t }) := by
  obtain ⟨turned, t, hturn, ht⟩ := run_newPage_unused hopen
  have hnumber : standardEngine.pageNumber t = openedPage p.engine := ht.number
  refine ⟨t, ht, ?_⟩
  unfold clearDoublePage leaveBlank
  rw [hengine, newPage_standardEngine, run_bind_of_ok (run_runEngine_of_ok hturn), run_bind,
    run_get]
  simp only [hnumber]
  split <;> rfl

/-- Clearing a double page fails only for the colour of the context's font, and only if a page has
to be left empty. Otherwise it leaves an unused page open that has the first number a double page
can begin with, and whatever is added next begins on it. -/
theorem appendSingle_clearDoublePage (hengine : s.engine = standardEngine) {item : Json}
    (hitem : tagOf? item = some .clearDoublePage) (hopen : p.engine.phase = .opened) :
    (∀ fault, openedPage p.engine % 2 = 0 → spacerFault? s.context = some fault →
      ((appendSingle s item).run p).1 = .error (.compile (.color fault))) ∧
    ((openedPage p.engine % 2 = 0 → spacerFault? s.context = none) →
      ∃ q, (appendSingle s item).run p = (.ok (), q) ∧ q.engine.phase = .opened ∧
        q.engine.page.hasContent = false ∧ IsLeast (Beginnings p.engine) q.engine.page.number ∧
        ∀ n, BeginsOn q.engine ((add n).run q.engine).2) := by
  obtain ⟨t, ht, hrun⟩ := run_clearDoublePage hengine hopen
  have hitem : appendSingle s item = clearDoublePage s := by
    unfold appendSingle
    simp only [hitem]
  have hblank := run_leaveBlank (p := { p with engine := t }) hengine ht
  have hleast := isLeast_beginnings p.engine
  rw [hitem, hrun]
  have hends {q : Progress (Layout Single)} {number : Nat} (hq : Unused q.engine number)
      (hnumber : IsLeast (Beginnings p.engine) number) : q.engine.phase = .opened ∧
        q.engine.page.hasContent = false ∧ IsLeast (Beginnings p.engine) q.engine.page.number ∧
        ∀ n, BeginsOn q.engine ((add n).run q.engine).2 := by
    refine ⟨hq.phase, hq.unused, hq.number ▸ hnumber, fun n => ?_⟩
    rw [run_add hq.phase]
    exact steps_beginsOn (addBlock_walks n _) hq.unused
  by_cases heven : openedPage p.engine % 2 = 0
  · rw [if_pos heven] at hleast ⊢
    refine ⟨fun fault _ hfault => ?_, fun hnone => ?_⟩
    · rw [hfault] at hblank
      exact hblank
    · rw [hnone heven] at hblank
      obtain ⟨q, hq, hunused⟩ := hblank
      exact ⟨q, hq, hends hunused hleast⟩
  · rw [if_neg heven] at hleast ⊢
    exact ⟨fun fault h => absurd h heven, fun _ => ⟨_, rfl, hends ht hleast⟩⟩

/-- A first page with a note on it. -/
def notedPage : Layout Single := replay [.openDocument, .add (.note "" "")]

def clearedFrom (context : Context) : Except PipelineError Unit × Progress (Layout Single) :=
  (appendSingle ⟨standardEngine, bareEnv, context⟩ (.array [.string "clear-double-page"])).run
    ⟨notedPage, .initial, .memory⟩

/-- The second page is left empty. -/
theorem appendSingle_clearDoublePage_note : ∃ q, clearedFrom .empty = (.ok (), q) ∧
    q.engine.page.hasContent = false ∧ q.engine.page.number = 3 := by
  have hopen : notedPage.phase = .opened := apply_opened (.add _) rfl
  have hitem : tagOf? (.array [.string "clear-double-page"]) = some .clearDoublePage := by
    decide +kernel
  obtain ⟨-, hcleared⟩ := appendSingle_clearDoublePage
    (s := ⟨standardEngine, bareEnv, .empty⟩) (p := ⟨notedPage, .initial, .memory⟩) rfl hitem hopen
  obtain ⟨q, hrun, -, hunused, hleast, -⟩ := hcleared fun _ => by decide +kernel
  have hnumber := hleast.unique (isLeast_beginnings notedPage)
  have hopened : openedPage notedPage = 2 := by decide +kernel
  rw [hopened] at hnumber
  exact ⟨q, hrun, hunused, hnumber⟩

/-- The context's colour is of three bytes that are two characters. -/
theorem clearDoublePage_cutColor : notedPage.phase = .opened ∧
    (clearedFrom ⟨[("color", .string "#é1")]⟩).1 = .error (.compile (.color .cutCharacter)) := by
  have hopen : notedPage.phase = .opened := apply_opened (.add _) rfl
  have hfault : spacerFault? ⟨[("color", .string "#é1")]⟩ = some .cutCharacter := by
    decide +kernel
  obtain ⟨t, ht, hrun⟩ := run_clearDoublePage
    (s := ⟨standardEngine, bareEnv, ⟨[("color", .string "#é1")]⟩⟩)
    (p := ⟨notedPage, .initial, .memory⟩) rfl hopen
  have hblank := run_leaveBlank (s := ⟨standardEngine, bareEnv, ⟨[("color", .string "#é1")]⟩⟩)
    (p := ⟨t, .initial, .memory⟩) rfl ht
  rw [if_pos (by decide +kernel)] at hrun
  rw [hfault] at hblank
  exact ⟨hopen, (congrArg Prod.fst hrun).trans hblank⟩

end Assembly

end Folio
