import Folio.Proofs.Compile.Guarded
import Folio.Proofs.Compile.HandsOn

/-!
# What a run leaves behind

A run counts chapters, numbers sections of the innermost open frame, adds to the table of content
and asks renderers. Nothing else is left of it, whether it succeeds or fails: what it opens of the
outline and of the references it closes again.
-/
namespace Folio.Compile

open Style Markup

variable {α β γ : Type} {s t u : State α}

/-! ## From state to state -/

/-- The frames with so many more sections counted in the innermost one. -/
def advance (count : Nat) : List Frame → List Frame
  | [] => []
  | frame :: frames => { frame with sections := frame.sections + count } :: frames

@[simp] theorem advance_zero (frames : List Frame) : advance 0 frames = frames := by
  cases frames <;> rfl

@[simp] theorem advance_advance (count more : Nat) (frames : List Frame) :
    advance more (advance count frames) = advance (count + more) frames := by
  cases frames with
  | nil => rfl
  | cons frame frames => simp [advance, Nat.add_assoc]

/-- What is stored under a node is drawn, so it has no chapters and sections. -/
def Flat : Cache.Key → Node α → Prop
  | .structural _ _ _, n => n.outline = []
  | .reference _, _ => True

/-- A run may lead from one state to the other. -/
structure Leaves (s t : State α) : Prop where
  resolving : t.resolving = s.resolving
  outline : ∃ count, t.outline = advance count s.outline
  chapters : s.chapters ≤ t.chapters
  stored : ∃ more, t.cache.entries = s.cache.entries ++ more ∧
    ∀ entry ∈ more, Flat entry.1 entry.2

namespace Leaves

/-- Nothing but the counts of the table of content and of the renderers is changed. -/
theorem of_counts (hresolving : t.resolving = s.resolving) (houtline : t.outline = s.outline)
    (hchapters : s.chapters ≤ t.chapters) (hentries : t.cache.entries = s.cache.entries) :
    Leaves s t where
  resolving := hresolving
  outline := ⟨0, by rw [houtline, advance_zero]⟩
  chapters := hchapters
  stored := ⟨[], by rw [hentries, List.append_nil], nofun⟩

theorem refl (s : State α) : Leaves s s := of_counts rfl rfl (Nat.le_refl _) rfl

theorem trans (h : Leaves s t) (k : Leaves t u) : Leaves s u where
  resolving := k.resolving.trans h.resolving
  outline := by
    obtain ⟨count, hcount⟩ := h.outline
    obtain ⟨more, hmore⟩ := k.outline
    exact ⟨count + more, by rw [hmore, hcount, advance_advance]⟩
  chapters := Nat.le_trans h.chapters k.chapters
  stored := by
    obtain ⟨first, hfirst, hflat⟩ := h.stored
    obtain ⟨second, hsecond, hflat'⟩ := k.stored
    refine ⟨first ++ second, by rw [hsecond, hfirst, List.append_assoc], fun entry hentry => ?_⟩
    exact (List.mem_append.mp hentry).elim (hflat entry) (hflat' entry)

/-- What is found in the table of content is found there ever after. -/
theorem find? (h : Leaves s t) {key : Cache.Key} {n : Node α} (hfind : s.cache.find? key = some n) :
    t.cache.find? key = some n := by
  obtain ⟨more, hmore, -⟩ := h.stored
  obtain ⟨entry, hentry, rfl⟩ := Option.map_eq_some_iff.mp hfind
  rw [Cache.find?, hmore, List.find?_append, hentry]
  rfl

/-- All that the later state has of its own. -/
theorem state_eq (h : Leaves s t) : ∃ count, t = { s with
    cache := t.cache
    chapters := t.chapters
    outline := advance count s.outline
    renders := t.renders } := by
  obtain ⟨count, hcount⟩ := h.outline
  refine ⟨count, ?_⟩
  rw [← hcount, ← h.resolving]

end Leaves

/-! ## Runs -/

/-- From every state the run leads to one that a run may lead to. -/
def Tidy (act : CompileM α β) : Prop := ∀ s, Leaves s (act.run s).2

theorem Tidy.of_run {act : CompileM α β} (h : Tidy act) {r : Except CompileError β}
    (hrun : act.run s = (r, t)) : Leaves s t := by
  simpa [hrun] using h s

theorem tidy_pure (b : β) : Tidy (pure b : CompileM α β) := Leaves.refl

theorem tidy_throw (e : CompileError) : Tidy (throw e : CompileM α β) := Leaves.refl

theorem Tidy.bind {act : CompileM α β} {next : β → CompileM α γ} (h : Tidy act)
    (hnext : ∀ b, Tidy (next b)) : Tidy (act >>= next) := by
  intro s
  rw [run_bind]
  split
  · next b t hrun => exact (h.of_run hrun).trans (hnext b t)
  · next e t hrun => exact h.of_run hrun

theorem tidy_nextChapter : Tidy (nextChapter : CompileM α Nat) :=
  fun s => .of_counts rfl rfl (Nat.le_succ s.chapters) rfl

theorem tidy_nextSection : Tidy (nextSection : CompileM α (List Nat)) := by
  intro s
  rw [nextSection, run_modifyGet]
  cases houtline : s.outline with
  | nil => exact .refl s
  | cons frame frames =>
    refine ⟨rfl, ⟨1, ?_⟩, Nat.le_refl _, ⟨[], (List.append_nil _).symm, nofun⟩⟩
    rw [houtline]
    rfl

theorem exists_of_run_withinFrame {number : List Nat} {act : CompileM α β}
    {r : Except CompileError β} (hrun : (withinFrame number act).run s = (r, t)) :
    ∃ u, act.run { s with outline := ⟨number, 0⟩ :: s.outline } = (r, u) ∧
      t = { u with outline := u.outline.tail } := by
  cases hrun
  exact ⟨_, rfl, rfl⟩

/-- A frame that is opened is closed with whatever has been counted in it. -/
theorem tidy_withinFrame (number : List Nat) {act : CompileM α β} (h : Tidy act) :
    Tidy (withinFrame number act) := by
  intro s
  have hact := h { s with outline := ⟨number, 0⟩ :: s.outline }
  obtain ⟨count, hcount⟩ := hact.outline
  refine ⟨hact.resolving, ⟨0, ?_⟩, hact.chapters, hact.stored⟩
  rw [advance_zero]
  exact congrArg List.tail hcount

/-- An id that is opened is closed. -/
theorem tidy_resolving (id : String) {act : CompileM α β} (h : Tidy act) :
    Tidy (resolving id act) := by
  intro s
  unfold resolving
  rw [run_bind, run_get]
  by_cases hopen : s.resolving.contains id
  · simp only [hopen, ↓reduceIte]
    exact .refl s
  · simp only [hopen, Bool.false_eq_true, ↓reduceIte]
    have hact := h { s with resolving := s.resolving ++ [id] }
    refine ⟨?_, hact.outline, hact.chapters, hact.stored⟩
    exact (congrArg List.dropLast hact.resolving).trans List.dropLast_concat

/-- What is computed may be stored behind everything that is there. -/
theorem tidy_memo {key : Cache.Key} {act : CompileM α (Node α)} (h : Tidy act)
    (hflat : ∀ s n t, act.run s = (.ok n, t) → Flat key n) : Tidy (memo key act) := by
  intro s
  cases hfind : s.cache.find? key with
  | some n =>
    rw [run_memo_of_found hfind]
    exact .of_counts rfl rfl (Nat.le_refl _) rfl
  | none =>
    rcases hrun : act.run { s with cache := s.cache.countMiss } with ⟨r, t⟩
    have hcounted : Leaves s { s with cache := s.cache.countMiss } :=
      .of_counts rfl rfl (Nat.le_refl _) rfl
    have hleaves := hcounted.trans (h.of_run hrun)
    cases r with
    | error e =>
      rw [run_memo_of_failed hfind hrun]
      exact hleaves
    | ok n =>
      rw [run_memo_of_ok hfind hrun, Cache.store]
      cases t.cache.find? key with
      | some m => exact hleaves
      | none =>
        refine hleaves.trans ⟨rfl, ⟨0, (advance_zero _).symm⟩, Nat.le_refl _, [(key, n)], rfl, ?_⟩
        intro entry hentry
        rw [List.mem_singleton.mp hentry]
        exact hflat _ n t hrun

theorem Steady.tidy {act : CompileM α β} (h : Steady act) : Tidy act := by
  obtain ⟨r, k, hrun⟩ := h
  intro s
  rw [hrun]
  exact .of_counts rfl rfl (Nat.le_refl _) rfl

/-! ## What is drawn -/

variable [Scalar α] {env : Env α}

omit [Scalar α] in
theorem outline_of_render {kind : RendererKind} {e : Element} {context : Context} {n : Node α}
    (hrun : (render env kind e context).run s = (.ok n, t)) : n.outline = [] := by
  unfold render at hrun
  split at hrun
  · cases hrun
  · obtain ⟨-, u, -, hdraw⟩ := exists_of_run_bind hrun
    split at hdraw
    · cases hdraw
      cases kind <;> rfl
    · cases hdraw

theorem outline_of_readImage {e : Element} {context : Context} {n : Node α}
    (hrun : (readImage env e context).run s = (.ok n, t)) : n.outline = [] := by
  obtain ⟨⟨data, origin⟩, u, -, hread⟩ := exists_of_run_bind hrun
  simp only at hread
  split at hread
  · cases hread
  · split at hread
    · cases hread
    · cases hread
      rfl

/-! ## Every rule -/

section

variable {compile : Compiling α}

theorem HandsOn.tidy {handed : List (Json × Context)} {Q : List (Node α) → β → Prop}
    {F : Compiling α → CompileM α β} (h : HandsOn handed Q F)
    (hcompile : ∀ node context, Tidy (compile node context)) : Tidy (F compile) :=
  h.stays Leaves.refl (fun _ _ _ => Leaves.trans) fun call _ => hcompile call.1 call.2

variable (hcompile : ∀ node context, Tidy (compile node context))

include hcompile

theorem tidy_compileChapter (e : Element) (context : Context) :
    Tidy (compileChapter compile e context) :=
  tidy_nextChapter.bind fun number =>
    (tidy_withinFrame [number] ((handsOn_compileTitled e context).tidy hcompile)).bind fun _ =>
      tidy_pure _

theorem tidy_compileSection (e : Element) (context : Context) :
    Tidy (compileSection compile e context) := by
  have htitled := (handsOn_compileTitled e context).tidy hcompile
  refine tidy_nextSection.bind fun number => ?_
  split
  · exact htitled.bind fun _ => tidy_pure _
  · exact (tidy_withinFrame number htitled).bind fun _ => tidy_pure _

omit [Scalar α] in
theorem tidy_compileReference (e : Element) (context : Context) :
    Tidy (compileReference env compile e context) := by
  unfold compileReference
  split
  · exact tidy_throw _
  · next id _ =>
    refine Tidy.bind (tidy_memo ?_ fun _ _ _ _ => trivial) fun target => tidy_pure _
    split
    · exact tidy_throw _
    · exact tidy_resolving id (hcompile _ _)

theorem tidy_compileTag (tag : Tag) (e : Element) (context : Context) :
    Tidy (compileTag env compile tag e context) := by
  cases tag with
  | chapter => exact tidy_compileChapter hcompile e context
  | subsection => exact tidy_compileSection hcompile e context
  | reference => exact tidy_compileReference hcompile e context
  | image => exact tidy_memo (steady_readImage env e context).tidy fun _ _ _ => outline_of_readImage
  | chart | svg | graphics =>
    exact tidy_memo (steady_render env _ e context).tidy fun _ _ _ => outline_of_render
  | _ => exact (handsOn_compileTag env (by decide) e context).tidy hcompile

theorem tidy_compileStep (node : Json) (context : Context) :
    Tidy (compileStep env compile node context) := by
  have hstep := dispatched_compileStep env compile node context
  generalize compileStep env compile node context = act at hstep ⊢
  cases hstep with
  | @leaf text _ =>
    intro s
    rw [run_textNode]
    exact .refl s
  | malformed | unknown => exact tidy_throw _
  | element => exact tidy_compileTag hcompile _ _ _

end

theorem tidy_compileWithin (env : Env α) (steps : Nat) :
    ∀ node context, Tidy (compileWithin env steps node context) := by
  induction steps with
  | zero => exact fun _ _ => tidy_throw _
  | succ steps ih => exact tidy_compileStep ih

/-- From every state, with success or without: the references that are being resolved are the same
afterwards, and so are the open frames but for the sections counted in the innermost one; chapters
are counted on, and what is stored stays first in the table of content, so that every key has the
content it had. A node that is compiled next sees nothing else of the run. -/
theorem compile_leaves (env : Env α) (node : Json) (context : Context) (s : State α) :
    ∃ t count, ((compile env node context).run s).2 = t ∧
      t.resolving = s.resolving ∧ t.outline = advance count s.outline ∧
      s.chapters ≤ t.chapters ∧ s.cache.entries <+: t.cache.entries ∧
      (∀ key n, s.cache.find? key = some n → t.cache.find? key = some n) ∧
      ∀ next nextContext, (compile env next nextContext).run t =
        (compile env next nextContext).run { s with
          cache := t.cache
          chapters := t.chapters
          outline := advance count s.outline
          renders := t.renders } := by
  have hleaves := tidy_compileWithin env (stepBound env node context) node context s
  obtain ⟨count, hstate⟩ := hleaves.state_eq
  obtain ⟨more, hmore, -⟩ := hleaves.stored
  refine ⟨_, count, rfl, hleaves.resolving, ?_, hleaves.chapters, ⟨more, hmore.symm⟩, ?_, ?_⟩
  · exact congrArg State.outline hstate
  · exact fun key n hfind => hleaves.find? hfind
  · exact fun next nextContext => congrArg (compile env next nextContext).run hstate

end Folio.Compile
