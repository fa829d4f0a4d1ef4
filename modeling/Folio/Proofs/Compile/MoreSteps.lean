import Folio.Proofs.Compile.Guarded
import Folio.Proofs.Compile.HandsOn

/-!
# More steps

What compiles within some steps compiles within more of them, to the same node and the same state.
No rule goes on behind a failure, so a success has nothing in it that has run out of steps.
-/
namespace Folio.Compile

open Style Markup

variable {α β γ δ : Type}

/-! ## Runs that succeed wherever others do -/

/-- A success of the first is one of the second, with the same result and the same state. -/
def Approximates (act act' : CompileM α β) : Prop :=
  ∀ s b t, act.run s = (.ok b, t) → act'.run s = (.ok b, t)

theorem approximates_refl (act : CompileM α β) : Approximates act act := fun _ _ _ hrun => hrun

theorem approximates_throw (e : CompileError) (act : CompileM α β) :
    Approximates (throw e) act := by
  intro s b t hrun
  cases hrun

theorem Approximates.bind {act act' : CompileM α β} {next next' : β → CompileM α γ}
    (h : Approximates act act') (hnext : ∀ b, Approximates (next b) (next' b)) :
    Approximates (act >>= next) (act' >>= next') := by
  intro s c u hrun
  obtain ⟨b, t, hact, hrest⟩ := exists_of_run_bind hrun
  rw [run_bind_of_ok (h s b t hact)]
  exact hnext b t c u hrest

theorem approximates_mapM {f f' : δ → CompileM α β} (h : ∀ x, Approximates (f x) (f' x))
    (xs : List δ) : Approximates (xs.mapM f) (xs.mapM f') := by
  induction xs with
  | nil => exact approximates_refl _
  | cons x xs ih =>
    rw [List.mapM_cons, List.mapM_cons]
    exact (h x).bind fun y => ih.bind fun ys => approximates_refl _

theorem approximates_within (enter leave : State α → State α) {act act' : CompileM α β}
    (h : Approximates act act') : Approximates (within enter leave act) (within enter leave act') := by
  intro s b t hrun
  rcases hact : act.run (enter s) with ⟨r, u⟩
  have hsame : (within enter leave act).run s = (r, leave u) := by
    change within enter leave act s = _
    rw [within, hact]
  obtain ⟨rfl, rfl⟩ := Prod.mk.inj (hsame.symm.trans hrun)
  change within enter leave act' s = _
  rw [within, h _ _ _ hact]

theorem approximates_resolving (id : String) {act act' : CompileM α β} (h : Approximates act act') :
    Approximates (resolving id act) (resolving id act') := by
  unfold resolving
  refine (approximates_refl get).bind fun s => ?_
  by_cases hopen : s.resolving.contains id
  · simp only [hopen, ↓reduceIte]
    exact approximates_refl _
  · simp only [hopen, Bool.false_eq_true, ↓reduceIte]
    exact approximates_within _ _ h

theorem approximates_memo (key : Cache.Key) {act act' : CompileM α (Node α)}
    (h : Approximates act act') : Approximates (memo key act) (memo key act') := by
  intro s n t hrun
  cases hfind : s.cache.find? key with
  | some found =>
    rw [run_memo_of_found hfind] at hrun ⊢
    exact hrun
  | none =>
    rcases hact : act.run { s with cache := s.cache.countMiss } with ⟨r, u⟩
    cases r with
    | error e =>
      rw [run_memo_of_failed hfind hact] at hrun
      cases hrun
    | ok m =>
      rw [run_memo_of_ok hfind hact] at hrun
      rw [run_memo_of_ok hfind (h _ _ _ hact)]
      exact hrun

/-! ## Rules -/

variable [Scalar α] {env : Env α} {compile compile' : Compiling α}

theorem HandsOn.approximates {handed : List (Json × Context)} {Q : List (Node α) → β → Prop}
    {F : Compiling α → CompileM α β} (h : HandsOn handed Q F)
    (hcompile : ∀ node context, Approximates (compile node context) (compile' node context)) :
    Approximates (F compile) (F compile') := by
  induction h with
  | done h => exact approximates_refl _
  | fail e => exact approximates_refl _
  | call h ih => exact (hcompile _ _).bind ih
  | leaf hleaf h ih => exact (approximates_refl _).bind ih

section

variable (hcompile : ∀ node context, Approximates (compile node context) (compile' node context))

include hcompile

theorem approximates_compileChapter (e : Element) (context : Context) :
    Approximates (compileChapter compile e context) (compileChapter compile' e context) := by
  have htitled := (handsOn_compileTitled e context).approximates hcompile
  exact (approximates_refl nextChapter).bind fun number =>
    (approximates_within _ _ htitled).bind fun _ => approximates_refl _

theorem approximates_compileSection (e : Element) (context : Context) :
    Approximates (compileSection compile e context) (compileSection compile' e context) := by
  have htitled := (handsOn_compileTitled e context).approximates hcompile
  refine (approximates_refl nextSection).bind fun number => ?_
  by_cases hnone : number.isEmpty
  · simp only [hnone, ↓reduceIte]
    exact htitled.bind fun _ => approximates_refl _
  · simp only [hnone, Bool.false_eq_true, ↓reduceIte]
    exact (approximates_within _ _ htitled).bind fun _ => approximates_refl _

omit [Scalar α] in
theorem approximates_compileReference (e : Element) (context : Context) :
    Approximates (compileReference env compile e context)
      (compileReference env compile' e context) := by
  unfold compileReference
  cases referenceId? e context with
  | none => exact approximates_refl _
  | some id =>
    refine (approximates_memo (.reference id) ?_).bind fun _ => approximates_refl _
    cases Fields.get? id env.references with
    | none => exact approximates_refl _
    | some raw => exact approximates_resolving id (hcompile raw context.inheritable)

theorem approximates_compileTag (tag : Tag) (e : Element) (context : Context) :
    Approximates (compileTag env compile tag e context)
      (compileTag env compile' tag e context) := by
  cases tag with
  | chapter => exact approximates_compileChapter hcompile e context
  | subsection => exact approximates_compileSection hcompile e context
  | reference => exact approximates_compileReference hcompile e context
  | image | chart | svg | graphics => exact approximates_refl _
  | _ => exact (handsOn_compileTag env (by decide) e context).approximates hcompile

theorem approximates_compileStep (node : Json) (context : Context) :
    Approximates (compileStep env compile node context)
      (compileStep env compile' node context) := by
  unfold compileStep
  cases leafText? node with
  | some text => exact approximates_refl _
  | none =>
    simp only
    cases Element.parse node with
    | error fault => exact approximates_refl _
    | ok e =>
      simp only
      cases e.tag? with
      | none => exact approximates_refl _
      | some tag => exact approximates_compileTag hcompile tag e _

end

/-! ## Steps -/

theorem approximates_compileWithin_succ (env : Env α) (steps : Nat) : ∀ node context,
    Approximates (compileWithin env steps node context)
      (compileWithin env (steps + 1) node context) := by
  induction steps with
  | zero => exact fun _ _ => approximates_throw _ _
  | succ steps ih => exact approximates_compileStep ih

theorem approximates_compileWithin (env : Env α) {steps more : Nat} (h : steps ≤ more)
    (node : Json) (context : Context) :
    Approximates (compileWithin env steps node context) (compileWithin env more node context) := by
  induction h with
  | refl => exact approximates_refl _
  | step h ih =>
    exact fun s n t hrun => approximates_compileWithin_succ env _ node context s n t (ih s n t hrun)

end Folio.Compile
