import Folio.Proofs.Cache.Asking
import Folio.Proofs.Json.Zeros

/-!
# Clients of a table

A client of a table of content looks keys up and asks for keys with a computation for those that
are absent. What it does next depends on the answers; a computation may fail, and is itself a client
of the table, on any key. What happens may be noted down, which changes nothing of it.
-/
namespace Folio.Cache

/-! ## Keys -/

namespace Key

theorem beq_structural (digest digest' : UInt64) (node node' : Json)
    (context context' : Style.Context) :
    (structural digest node context == structural digest' node' context') =
      (digest == digest' && node == node' && context == context') := rfl

/-- Keys are compared as the table compares them. Numbers in them go by their values, so the sign of
a zero makes no difference. -/
instance : PartialEquivBEq Key where
  symm {k l} h := by
    cases k with
    | structural d n c =>
      cases l with
      | structural e m b =>
        simp only [beq_structural, Bool.and_eq_true] at h ⊢
        exact ⟨⟨BEq.symm h.1.1, Json.beq_symm h.1.2⟩, Json.beqFields_symm h.2⟩
      | reference id => cases h
    | reference id =>
      cases l with
      | structural d n c => cases h
      | reference other => exact BEq.symm (α := String) h
  trans {k l j} h h' := by
    cases k with
    | structural d n c =>
      cases l with
      | structural e m b =>
        cases j with
        | structural f p a =>
          simp only [beq_structural, Bool.and_eq_true] at h h' ⊢
          exact ⟨⟨BEq.trans h.1.1 h'.1.1, Json.beq_trans h.1.2 h'.1.2⟩,
            Json.beqFields_trans h.2 h'.2⟩
        | reference id => cases h'
      | reference id => cases h
    | reference id =>
      cases l with
      | structural d n c => cases h
      | reference other =>
        cases j with
        | structural d n c => cases h'
        | reference third => exact BEq.trans (α := String) h h'

/-- Only a double that is no number keeps a key from being equal to itself. -/
theorem beq_self {key : Key} (h : ∀ digest node context n, key = structural digest node context →
    Inside (.number n) (.array [node, .object context.attrs]) → n == n) : key == key := by
  cases key with
  | reference id => exact beq_self_eq_true id
  | structural digest node context =>
    rw [beq_structural, Bool.and_eq_true, Bool.and_eq_true]
    have hinside {x : Json} (hx : x ∈ [node, .object context.attrs]) : Json.beq x x := by
      refine Json.beq_self x fun n hn => h digest node context n rfl ?_
      rcases hn with rfl | hn
      · exact .item hx
      · exact hn.trans (.item hx)
    refine ⟨⟨beq_self_eq_true digest, hinside List.mem_cons_self⟩, ?_⟩
    exact hinside (x := .object context.attrs) (.tail _ List.mem_cons_self)

end Key

/-- A key that is equal to itself. -/
abbrev ProperKey := { key : Key // key == key }

variable {σ τ ε ν : Type}

/-! ## Notes -/

/-- What happens to a table: a lookup with what it found, a call that asks for a key, the start and
the end of a computation, and the answer to the call. -/
inductive Event (ε ν : Type) where
  | looked (key : Key) (found : Option ν)
  | asked (key : Key)
  | began (key : Key)
  | ended (key : Key) (result : Except ε ν)
  | answered (key : Key) (result : Except ε ν)

/-- The events so far, the latest first. -/
abbrev Log (ε ν : Type) := List (Event ε ν)

/-! ## Clients -/

/-- A client with a state of its own. -/
inductive Client (σ ε ν : Type) where
  | done (result : Except ε ν)
  | see (next : σ → Client σ ε ν)
  | change (f : σ → σ) (next : Client σ ε ν)
  | look (key : ProperKey) (next : Option ν → Client σ ε ν)
  | ask (key : ProperKey) (compute : Client σ ε ν) (next : Except ε ν → Client σ ε ν)

/-- The table, the state of the client and what is noted down. -/
structure Desk (σ τ ν : Type) where
  cache : Cache ν
  own : σ
  notes : τ

def Desk.put (cache : Cache ν) (s : Desk σ τ ν) : Desk σ τ ν := { s with cache }

abbrev DeskM (σ τ ε ν : Type) := ExceptT ε (StateM (Desk σ τ ν))

/-- What a run comes to, for those who go on with it. -/
def outcome (act : DeskM σ τ ε ν ν) : DeskM σ τ ε ν (Except ε ν) := fun s =>
  let (result, t) := act.run s
  (.ok result, t)

namespace Client

/-- Writes an event down. -/
def remark (note : Event ε ν → τ → τ) (event : Event ε ν) : DeskM σ τ ε ν Unit :=
  modify fun s => { s with notes := note event s.notes }

/-- A computation with its start and its end. -/
def computing (note : Event ε ν → τ → τ) (key : Key) (compute : DeskM σ τ ε ν ν) :
    DeskM σ τ ε ν ν := do
  remark note (.began key)
  let result ← outcome compute
  remark note (.ended key result)
  ofExcept result

/-- Asks the table for a key. -/
def call (note : Event ε ν → τ → τ) (key : Key) (compute : DeskM σ τ ε ν ν) : DeskM σ τ ε ν ν :=
  @getOrCompute _ (DeskM σ τ ε ν) _ (partOf Desk.cache Desk.put) key (computing note key compute)

/-- What a client does with the table. -/
def act (note : Event ε ν → τ → τ) : Client σ ε ν → DeskM σ τ ε ν ν
  | done result => ofExcept result
  | see next => do act note (next (← get).own)
  | change f next => do
    modify fun s => { s with own := f s.own }
    act note next
  | look key next => do
    let found ← modifyGet fun s : Desk σ τ ν =>
      ((s.cache.lookup key.1).1, { s with cache := (s.cache.lookup key.1).2 })
    remark note (.looked key.1 found)
    act note (next found)
  | ask key compute next => do
    remark note (.asked key.1)
    let result ← outcome (call note key.1 (act note compute))
    remark note (.answered key.1 result)
    act note (next result)

/-! ## One step -/

section

variable (note : Event ε ν → τ → τ) {s t : Desk σ τ ν} {key : ProperKey} {v : ν} {e : ε}

theorem run_ofExcept (result : Except ε ν) (s : Desk σ τ ν) :
    (ofExcept result : DeskM σ τ ε ν ν).run s = (result, s) := by
  cases result <;> rfl

theorem run_outcome {act : DeskM σ τ ε ν ν} {result : Except ε ν} (h : act.run s = (result, t)) :
    (outcome act).run s = (.ok result, t) := by
  change outcome act s = _
  rw [outcome, h]

theorem run_computing {compute : DeskM σ τ ε ν ν} {result : Except ε ν}
    (h : compute.run { s with notes := note (.began key.1) s.notes } = (result, t)) :
    (computing note key.1 compute).run s =
      (result, { t with notes := note (.ended key.1 result) t.notes }) := by
  unfold computing remark
  rw [run_bind, run_modify]
  simp only
  rw [run_bind_of_ok (run_outcome h), run_bind, run_modify]
  exact run_ofExcept result _

theorem run_look (key : ProperKey) (next : Option ν → Client σ ε ν) (s : Desk σ τ ν) :
    (act note (.look key next)).run s = (act note (next (s.cache.find? key.1))).run
      ⟨(s.cache.lookup key.1).2, s.own, note (.looked key.1 (s.cache.find? key.1)) s.notes⟩ := by
  have hfound : (s.cache.lookup key.1).1 = s.cache.find? key.1 := by
    unfold lookup
    cases s.cache.find? key.1 <;> rfl
  rw [act]
  unfold remark
  rw [run_bind, run_modifyGet]
  simp only [hfound]
  rw [run_bind, run_modify]

theorem run_ask {compute : Client σ ε ν} {next : Except ε ν → Client σ ε ν}
    {result : Except ε ν} (h : (call note key.1 (act note compute)).run
      { s with notes := note (.asked key.1) s.notes } = (result, t)) :
    (act note (.ask key compute next)).run s =
      (act note (next result)).run { t with notes := note (.answered key.1 result) t.notes } := by
  rw [act]
  unfold remark
  rw [run_bind, run_modify]
  simp only
  rw [run_bind_of_ok (run_outcome h), run_bind, run_modify]

/-- A key that is there is answered with what is found. -/
theorem run_ask_of_found {compute : Client σ ε ν} {next : Except ε ν → Client σ ε ν}
    (h : s.cache.find? key.1 = some v) :
    (act note (.ask key compute next)).run s = (act note (next (.ok v))).run
      ⟨{ s.cache with hits := s.cache.hits + 1 }, s.own,
        note (.answered key.1 (.ok v)) (note (.asked key.1) s.notes)⟩ := by
  have hcall : (call note key.1 (act note compute)).run
      { s with notes := note (.asked key.1) s.notes } = (.ok v,
        ⟨{ s.cache with hits := s.cache.hits + 1 }, s.own, note (.asked key.1) s.notes⟩) :=
    run_getOrCompute_of_found Desk.cache Desk.put h
  exact run_ask note hcall

/-- A computation that fails is where the call ends. -/
theorem run_ask_of_failed {compute : Client σ ε ν} {next : Except ε ν → Client σ ε ν}
    (h : s.cache.find? key.1 = none)
    (hrun : (act note compute).run ⟨s.cache.countMiss, s.own,
      note (.began key.1) (note (.asked key.1) s.notes)⟩ = (.error e, t)) :
    (act note (.ask key compute next)).run s = (act note (next (.error e))).run
      ⟨t.cache, t.own,
        note (.answered key.1 (.error e)) (note (.ended key.1 (.error e)) t.notes)⟩ := by
  have hcall : (call note key.1 (act note compute)).run
      { s with notes := note (.asked key.1) s.notes } =
        (.error e, { t with notes := note (.ended key.1 (.error e)) t.notes }) :=
    run_getOrCompute_of_failed Desk.cache Desk.put
      (s := ⟨s.cache, s.own, note (.asked key.1) s.notes⟩) rfl h (run_computing note hrun)
  exact run_ask note hcall

/-- What is computed is stored behind the end of the computation. -/
theorem run_ask_of_ok {compute : Client σ ε ν} {next : Except ε ν → Client σ ε ν}
    (h : s.cache.find? key.1 = none)
    (hrun : (act note compute).run ⟨s.cache.countMiss, s.own,
      note (.began key.1) (note (.asked key.1) s.notes)⟩ = (.ok v, t)) :
    (act note (.ask key compute next)).run s =
      (act note (next (.ok (t.cache.store key.1 v).1))).run
        ⟨(t.cache.store key.1 v).2, t.own, note (.answered key.1 (.ok (t.cache.store key.1 v).1))
          (note (.ended key.1 (.ok v)) t.notes)⟩ := by
  have hcall : (call note key.1 (act note compute)).run
      { s with notes := note (.asked key.1) s.notes } = (.ok (t.cache.store key.1 v).1,
        ⟨(t.cache.store key.1 v).2, t.own, note (.ended key.1 (.ok v)) t.notes⟩) :=
    run_getOrCompute_of_ok Desk.cache Desk.put
      (s := ⟨s.cache, s.own, note (.asked key.1) s.notes⟩) rfl h (run_computing note hrun)
  exact run_ask note hcall

end

/-- Notes change nothing of what happens. -/
theorem act_noteless (note : Event ε ν → τ → τ) (client : Client σ ε ν) (s : Desk σ τ ν) :
    (act (fun _ nothing => nothing) client).run ⟨s.cache, s.own, ()⟩ =
      (((act note client).run s).1,
        ⟨((act note client).run s).2.cache, ((act note client).run s).2.own, ()⟩) := by
  induction client generalizing s with
  | done result =>
    unfold act
    rw [run_ofExcept, run_ofExcept]
  | see next ih => exact ih s.own s
  | change f next ih => exact ih { s with own := f s.own }
  | look key next ih =>
    rw [run_look, run_look]
    exact ih _ ⟨_, _, _⟩
  | ask key compute next ihcompute ihnext =>
    cases hfind : s.cache.find? key.1 with
    | some v =>
      rw [run_ask_of_found note hfind]
      exact (run_ask_of_found _ (s := ⟨s.cache, s.own, ()⟩) hfind).trans (ihnext _ ⟨_, _, _⟩)
    | none =>
      have hcompute := ihcompute ⟨s.cache.countMiss, s.own,
        note (.began key.1) (note (.asked key.1) s.notes)⟩
      rcases hrun : (act note compute).run ⟨s.cache.countMiss, s.own,
        note (.began key.1) (note (.asked key.1) s.notes)⟩ with ⟨result, t⟩
      rw [hrun] at hcompute
      cases result with
      | error e =>
        rw [run_ask_of_failed note hfind hrun]
        exact (run_ask_of_failed _ (s := ⟨s.cache, s.own, ()⟩) hfind hcompute).trans
          (ihnext _ ⟨_, _, _⟩)
      | ok v =>
        rw [run_ask_of_ok note hfind hrun]
        exact (run_ask_of_ok _ (s := ⟨s.cache, s.own, ()⟩) hfind hcompute).trans
          (ihnext _ ⟨_, _, _⟩)

end Client

end Folio.Cache
