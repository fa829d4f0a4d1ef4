import Folio.Compile.State
import Folio.Proofs.Cache.Asking
import Mathlib.Data.List.Forall2

/-!
# What a run of the compiler keeps

A run keeps a property of the state whether it succeeds or fails, its result has a property of its
own, and so has its error. Sequencing, repeating, opening and closing, and looking up the table of
content have one rule each.
-/
namespace Folio.Compile

variable {α β γ : Type} {I : State α → Prop} {E : CompileError → Prop}

/-- From a state with `I` a run leaves one with `I`; its result has `Q` or its error has `E`. -/
def Keeps (I : State α → Prop) (E : CompileError → Prop) (Q : β → Prop) (act : CompileM α β) :
    Prop :=
  ∀ s, I s → I (act.run s).2 ∧ match (act.run s).1 with
    | .ok b => Q b
    | .error e => E e

theorem keeps_pure {Q : β → Prop} {b : β} (h : Q b) : Keeps I E Q (pure b) := fun _ hs => ⟨hs, h⟩

theorem keeps_throw {Q : β → Prop} {e : CompileError} (h : E e) : Keeps I E Q (throw e) :=
  fun _ hs => ⟨hs, h⟩

theorem Keeps.mono {P Q : β → Prop} {F : CompileError → Prop} {act : CompileM α β}
    (h : Keeps I F P act) (herror : ∀ e, F e → E e) (hvalue : ∀ b, P b → Q b) :
    Keeps I E Q act := by
  intro s hs
  obtain ⟨hstate, hresult⟩ := h s hs
  refine ⟨hstate, ?_⟩
  cases hr : (act.run s).1 with
  | ok b =>
    rw [hr] at hresult
    exact hvalue b hresult
  | error e =>
    rw [hr] at hresult
    exact herror e hresult

theorem Keeps.weaken {P Q : β → Prop} {act : CompileM α β} (h : Keeps I E P act)
    (hvalue : ∀ b, P b → Q b) : Keeps I E Q act := h.mono (fun _ he => he) hvalue

theorem Keeps.bind {P : β → Prop} {Q : γ → Prop} {act : CompileM α β} {next : β → CompileM α γ}
    (h : Keeps I E P act) (k : ∀ b, P b → Keeps I E Q (next b)) : Keeps I E Q (act >>= next) := by
  intro s hs
  obtain ⟨hstate, hresult⟩ := h s hs
  rw [run_bind]
  rcases hr : act.run s with ⟨r, t⟩
  rw [hr] at hstate hresult
  cases r with
  | ok b => exact k b hresult t hstate
  | error e => exact ⟨hstate, hresult⟩

/-- A run whose result is put in a form. -/
theorem Keeps.map {P : β → Prop} {Q : γ → Prop} {act : CompileM α β} {f : β → γ}
    (h : Keeps I E P act) (hf : ∀ b, P b → Q (f b)) :
    Keeps I E Q (act >>= fun b => pure (f b)) :=
  h.bind fun b hb => keeps_pure (hf b hb)

theorem keeps_mapM {Q : γ → β → Prop} {f : γ → CompileM α β} {xs : List γ}
    (h : ∀ x ∈ xs, Keeps I E (Q x) (f x)) : Keeps I E (List.Forall₂ Q xs) (xs.mapM f) := by
  induction xs with
  | nil => exact keeps_pure .nil
  | cons x xs ih =>
    rw [List.mapM_cons]
    refine (h x List.mem_cons_self).bind fun y hy => ?_
    have hrest := ih fun z hz => h z (List.mem_cons_of_mem x hz)
    exact hrest.map fun ys hys => .cons hy hys

theorem keeps_modify {f : State α → State α} (h : ∀ s, I s → I (f s)) :
    Keeps I E (fun _ => True) (modify f) := fun s hs => ⟨h s hs, trivial⟩

theorem keeps_modifyGet {Q : β → Prop} {f : State α → β × State α}
    (h : ∀ s, I s → Q (f s).1 ∧ I (f s).2) : Keeps I E Q (modifyGet f : CompileM α β) :=
  fun s hs => ⟨(h s hs).2, (h s hs).1⟩

/-- What is opened is closed whether the run between succeeds or fails. -/
theorem keeps_within {J : State α → Prop} {Q : β → Prop} {enter leave : State α → State α}
    {act : CompileM α β} (h : Keeps J E Q act) (henter : ∀ s, I s → J (enter s))
    (hleave : ∀ s, J s → I (leave s)) : Keeps I E Q (within enter leave act) := by
  intro s hs
  obtain ⟨hstate, hresult⟩ := h (enter s) (henter s hs)
  exact ⟨hleave _ hstate, hresult⟩

/-! ## The table of content -/

/-- The table of content as a part of the state. -/
theorem memo_eq_partOf (key : Cache.Key) (compute : CompileM α (Node α)) :
    memo key compute = @Cache.getOrCompute _ (CompileM α) _
      (Cache.partOf State.cache fun cache s => { s with cache }) key compute := rfl

theorem memo_eq (key : Cache.Key) (compute : CompileM α (Node α)) :
    memo key compute = (do
      match ← modifyGet fun s : State α =>
        ((s.cache.lookup key).1, { s with cache := (s.cache.lookup key).2 }) with
      | some value => pure value
      | none =>
        modify fun s : State α => { s with cache := s.cache.countMiss }
        let value ← compute
        modifyGet fun s : State α =>
          ((s.cache.store key value).1, { s with cache := (s.cache.store key value).2 })) := by
  rw [memo_eq_partOf, Cache.getOrCompute_eq]
  refine congrArg _ (funext fun found => ?_)
  cases found with
  | some value => rfl
  | none => rfl

/-- What is found stands in the table under a key that is taken for the one looked up. -/
theorem mem_of_find? {cache : Cache (Node α)} {key : Cache.Key} {n : Node α}
    (h : cache.find? key = some n) :
    ∃ found, (found, n) ∈ cache.entries ∧ (found == key) = true := by
  obtain ⟨entry, hfind, rfl⟩ := Option.map_eq_some_iff.mp h
  have hkey := List.find?_some hfind
  exact ⟨entry.1, List.mem_of_find?_eq_some hfind, hkey⟩

theorem mem_of_find?_reference {cache : Cache (Node α)} {id : String} {n : Node α}
    (h : cache.find? (.reference id) = some n) : (.reference id, n) ∈ cache.entries := by
  obtain ⟨found, hmem, hkey⟩ := mem_of_find? h
  cases found with
  | structural digest node context => cases hkey
  | reference other =>
    have hid : other = id := by simpa [BEq.beq, Cache.Key.beq] using hkey
    rw [← hid]
    exact hmem

theorem mem_of_find?_structural {cache : Cache (Node α)} {digest : UInt64} {node : Json}
    {context : Style.Context} {n : Node α}
    (h : cache.find? (.structural digest node context) = some n) :
    ∃ d m c, (.structural d m c, n) ∈ cache.entries := by
  obtain ⟨found, hmem, hkey⟩ := mem_of_find? h
  cases found with
  | structural d m c => exact ⟨d, m, c, hmem⟩
  | reference id => cases hkey

/-- Content that is stored has `Q`, and what is computed without being stored yet has it too. -/
theorem keeps_memo {key : Cache.Key} {compute : CompileM α (Node α)} {Q : Node α → Prop}
    (hstored : ∀ s n, I s → s.cache.find? key = some n → Q n)
    (hcount : ∀ s hits misses, I s → I { s with cache := ⟨s.cache.entries, hits, misses⟩ })
    (hstore : ∀ s n, I s → Q n →
      I { s with cache := { s.cache with entries := s.cache.entries ++ [(key, n)] } })
    (h : Keeps I E Q compute) : Keeps I E Q (memo key compute) := by
  rw [memo_eq]
  refine Keeps.bind (P := fun found => ∀ n, found = some n → Q n) (keeps_modifyGet ?_) ?_
  · intro s hs
    unfold Cache.lookup
    cases hfind : s.cache.find? key with
    | some n =>
      refine ⟨fun m hm => ?_, hcount s _ _ hs⟩
      rw [← Option.some.inj hm]
      exact hstored s n hs hfind
    | none => exact ⟨nofun, hs⟩
  · intro found hfound
    cases found with
    | some n => exact keeps_pure (hfound n rfl)
    | none =>
      refine (keeps_modify fun s hs => hcount s _ _ hs).bind fun _ _ => ?_
      refine h.bind fun n hn => keeps_modifyGet fun s hs => ?_
      unfold Cache.store
      cases hfind : s.cache.find? key with
      | some m => exact ⟨hstored s m hs hfind, hs⟩
      | none => exact ⟨hn, hstore s n hs hn⟩

end Folio.Compile
