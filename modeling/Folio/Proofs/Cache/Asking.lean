import Folio.Cache
import Folio.Proofs.Run

/-!
# Asking for a key

Where a table of content is a part of a state, asking for a key comes to one of three things: the
content is found, it cannot be computed, or it is computed and then stored unless there is some by
now.
-/
namespace Folio.Cache

variable {S ε ν : Type}

/-- The table that is a part of a state. -/
@[reducible] def partOf (part : S → Cache ν) (put : Cache ν → S → S) :
    MonadStateOf (Cache ν) (ExceptT ε (StateM S)) where
  get := do return part (← get)
  set cache := modify (put cache)
  modifyGet f := modifyGet fun s => ((f (part s)).1, put (f (part s)).2 s)

variable (part : S → Cache ν) (put : Cache ν → S → S) {key : Key}
  {compute : ExceptT ε (StateM S) ν} {s t : S} {v : ν}

/-- The steps of asking for a key. -/
theorem getOrCompute_eq (key : Key) (compute : ExceptT ε (StateM S) ν) :
    @getOrCompute _ _ _ (partOf part put) key compute = (do
    match ← modifyGet fun s : S => (((part s).lookup key).1, put ((part s).lookup key).2 s) with
    | some value => pure value
    | none =>
      modify fun s : S => put (part s).countMiss s
      let value ← compute
      modifyGet fun s : S =>
        (((part s).store key value).1, put ((part s).store key value).2 s)) := by
  unfold getOrCompute
  refine congrArg _ (funext fun found => ?_)
  cases found with
  | some value => rfl
  | none => rfl

theorem run_getOrCompute_of_found (h : (part s).find? key = some v) :
    (@getOrCompute _ _ _ (partOf part put) key compute).run s =
      (.ok v, put { part s with hits := (part s).hits + 1 } s) := by
  rw [getOrCompute_eq, run_bind, run_modifyGet]
  simp only [lookup, h]
  rfl

/-- A key that is absent is computed before its value is stored. -/
theorem run_getOrCompute_of_absent (hput : put (part s) s = s) (h : (part s).find? key = none) :
    (@getOrCompute _ _ _ (partOf part put) key compute).run s =
      (compute >>= fun value => modifyGet fun s : S =>
        (((part s).store key value).1, put ((part s).store key value).2 s)).run
          (put (part s).countMiss s) := by
  rw [getOrCompute_eq, run_bind, run_modifyGet]
  simp only [lookup, h, hput]
  rw [run_bind, run_modify]

theorem run_getOrCompute_of_failed (hput : put (part s) s = s)
    (h : (part s).find? key = none) {e : ε}
    (hrun : compute.run (put (part s).countMiss s) = (.error e, t)) :
    (@getOrCompute _ _ _ (partOf part put) key compute).run s = (.error e, t) := by
  rw [run_getOrCompute_of_absent part put hput h, run_bind, hrun]

theorem run_getOrCompute_of_ok (hput : put (part s) s = s) (h : (part s).find? key = none)
    (hrun : compute.run (put (part s).countMiss s) = (.ok v, t)) :
    (@getOrCompute _ _ _ (partOf part put) key compute).run s =
      (.ok ((part t).store key v).1, put ((part t).store key v).2 t) := by
  rw [run_getOrCompute_of_absent part put hput h, run_bind, hrun]
  rfl

end Folio.Cache
