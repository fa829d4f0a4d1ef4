import Folio.Proofs.Cache.Clients

/-!
# A table that is written once

The notes on what clients do with a table say by themselves what a table would answer that is
written once, and so the table does answer, in whatever way its uses stand inside each other.
-/
namespace Folio.Cache

variable {σ ε ν : Type}

/-! ## What the notes say -/

/-- The first value that was computed with success for the key. -/
def stored? (key : Key) : Log ε ν → Option ν
  | [] => none
  | .ended other (.ok v) :: log => (stored? key log).or (if other == key then some v else none)
  | _ :: log => stored? key log

/-- Lookups, by themselves or of calls, that found a value. -/
def hitsOf : Log ε ν → Nat
  | [] => 0
  | .looked _ found :: log => hitsOf log + (if found.isSome then 1 else 0)
  | .asked key :: log => hitsOf log + (if (stored? key log).isSome then 1 else 0)
  | _ :: log => hitsOf log

/-- Computations that were started. -/
def startsOf : Log ε ν → Nat
  | [] => 0
  | .began _ :: log => startsOf log + 1
  | _ :: log => startsOf log

/-- Computations that ended with success. -/
def successesOf : Log ε ν → Nat
  | [] => 0
  | .ended _ (.ok _) :: log => successesOf log + 1
  | _ :: log => successesOf log

/-- How the events go on with a table that is written once. A lookup finds what is stored. A call
for a key that is stored is answered with it at once. For any other key the computation runs, with
events of its own; if it fails so does the call, and if it succeeds the answer is the first value
that is stored by then. -/
inductive Course : Log ε ν → Log ε ν → Prop
  | stop (log : Log ε ν) : Course log log
  | looked {log log' : Log ε ν} (key : Key) (h : Course (.looked key (stored? key log) :: log) log') :
      Course log log'
  | found {log log' : Log ε ν} {key : Key} {v : ν} (hstored : stored? key log = some v)
      (h : Course (.answered key (.ok v) :: .asked key :: log) log') : Course log log'
  | failed {log mid log' : Log ε ν} {key : Key} {e : ε} (habsent : stored? key log = none)
      (hinner : Course (.began key :: .asked key :: log) mid)
      (h : Course (.answered key (.error e) :: .ended key (.error e) :: mid) log') : Course log log'
  | computed {log mid log' : Log ε ν} {key : Key} {v first : ν} (habsent : stored? key log = none)
      (hinner : Course (.began key :: .asked key :: log) mid)
      (hfirst : stored? key (.ended key (.ok v) :: mid) = some first)
      (h : Course (.answered key (.ok first) :: .ended key (.ok v) :: mid) log') : Course log log'

variable {log log' earlier : Log ε ν}

theorem stored?_of_suffix (h : earlier <:+ log) {key : Key} {v : ν}
    (hstored : stored? key earlier = some v) : stored? key log = some v := by
  obtain ⟨later, rfl⟩ := h
  induction later with
  | nil => exact hstored
  | cons event later ih =>
    rw [List.cons_append]
    cases event with
    | ended other result =>
      cases result with
      | error e => exact ih
      | ok w => simp only [stored?, ih, Option.some_or]
    | _ => exact ih

theorem exists_of_stored? {key : Key} {v : ν} (h : stored? key log = some v) :
    ∃ other, .ended other (.ok v) ∈ log ∧ other == key := by
  induction log with
  | nil => cases h
  | cons event log ih =>
    have hearlier (hlog : stored? key log = some v) :
        ∃ other, .ended other (.ok v) ∈ event :: log ∧ other == key := by
      obtain ⟨other, hmem, hkey⟩ := ih hlog
      exact ⟨other, .tail _ hmem, hkey⟩
    cases event with
    | ended other result =>
      cases result with
      | error e => exact hearlier h
      | ok w =>
        cases hlog : stored? key log with
        | some first =>
          simp only [stored?, hlog, Option.some_or] at h
          exact hearlier (hlog.trans h)
        | none =>
          by_cases hkey : other == key
          · simp only [stored?, hlog, hkey, Option.none_or, ↓reduceIte, Option.some.injEq] at h
            exact ⟨other, h ▸ List.mem_cons_self, hkey⟩
          · simp [stored?, hlog, hkey] at h
    | _ => exact hearlier h

/-- Every computation that ends has begun. -/
theorem Course.successes_le (h : Course log log') :
    successesOf log' + startsOf log ≤ successesOf log + startsOf log' := by
  induction h with
  | stop log => exact Nat.le_refl _
  | looked _ _ ih => exact ih
  | found _ _ ih => exact ih
  | failed _ _ _ ihinner ih =>
    simp only [successesOf, startsOf] at ihinner ih
    omega
  | computed _ _ _ _ ihinner ih =>
    simp only [successesOf, startsOf] at ihinner ih
    omega

/-- Every answer is stored. -/
def AnswersStored (log : Log ε ν) : Prop :=
  ∀ key v, .answered key (.ok v) ∈ log → stored? key log = some v

theorem AnswersStored.cons (h : AnswersStored log) {event : Event ε ν}
    (hevent : ∀ key v, event = .answered key (.ok v) → stored? key log = some v) :
    AnswersStored (event :: log) := by
  intro key v hmem
  refine stored?_of_suffix (List.suffix_cons event log) ?_
  rcases List.mem_cons.mp hmem with heq | hmem
  · exact hevent key v heq.symm
  · exact h key v hmem

theorem Course.answersStored (h : Course log log') (hlog : AnswersStored log) :
    AnswersStored log' := by
  induction h with
  | stop log => exact hlog
  | looked key _ ih => exact ih (hlog.cons (by simp))
  | found hstored _ ih =>
    refine ih ((hlog.cons (by simp)).cons fun key v heq => ?_)
    cases heq
    exact hstored
  | failed _ _ _ ihinner ih =>
    have hmid := ihinner ((hlog.cons (by simp)).cons (by simp))
    exact ih ((hmid.cons (by simp)).cons (by simp))
  | computed _ _ hfirst _ ihinner ih =>
    have hmid := ihinner ((hlog.cons (by simp)).cons (by simp))
    refine ih ((hmid.cons (by simp)).cons fun key v heq => ?_)
    cases heq
    exact hfirst

/-! ## The table and the notes -/

/-- Keys that are equal are one key. -/
theorem find?_congr {key other : Key} (h : key == other) (cache : Cache ν) :
    cache.find? key = cache.find? other := by
  have hsame : (fun entry : Key × ν => entry.1 == key) = fun entry => entry.1 == other :=
    funext fun entry => BEq.congr_right h
  unfold find?
  rw [hsame]

/-- An entry behind the others is found only where they leave a key absent. -/
theorem find?_append (key other : Key) (v : ν) (cache : Cache ν) :
    find? key { cache with entries := cache.entries ++ [(other, v)] } =
      (cache.find? key).or (if other == key then some v else none) := by
  unfold find?
  rw [List.find?_append]
  cases cache.entries.find? fun entry => entry.1 == key with
  | some entry => rfl
  | none => by_cases hkey : other == key <;> simp [hkey]

/-- The table is as the notes say. -/
structure Kept (cache : Cache ν) (log : Log ε ν) : Prop where
  find : ∀ key, cache.find? key = stored? key log
  hits : cache.hits = hitsOf log
  misses : cache.misses = startsOf log
  proper : ∀ entry ∈ cache.entries, entry.1 == entry.1
  distinct : cache.entries.Pairwise fun entry other => (entry.1 == other.1) = false
  bounded : cache.entries.length ≤ successesOf log

namespace Kept

variable {cache : Cache ν} {log : Log ε ν} {key : Key} {v : ν} {e : ε}

theorem empty : Kept (.empty : Cache ν) ([] : Log ε ν) where
  find _ := rfl
  hits := rfl
  misses := rfl
  proper := nofun
  distinct := .nil
  bounded := Nat.le_refl 0

theorem looked (h : Kept cache log) (key : Key) :
    Kept (cache.lookup key).2 (.looked key (stored? key log) :: log) := by
  have hfind := h.find key
  unfold lookup
  cases hstored : stored? key log with
  | none =>
    rw [hfind, hstored]
    exact ⟨h.find, h.hits, h.misses, h.proper, h.distinct, h.bounded⟩
  | some v =>
    rw [hfind, hstored]
    exact ⟨h.find, congrArg (· + 1) h.hits, h.misses, h.proper, h.distinct, h.bounded⟩

theorem found (h : Kept cache log) (hstored : stored? key log = some v) (result : Except ε ν) :
    Kept { cache with hits := cache.hits + 1 } (.answered key result :: .asked key :: log) where
  find := h.find
  hits := by
    simp only [hitsOf, hstored, Option.isSome_some, ↓reduceIte]
    exact congrArg (· + 1) h.hits
  misses := h.misses
  proper := h.proper
  distinct := h.distinct
  bounded := h.bounded

theorem began (h : Kept cache log) (habsent : stored? key log = none) :
    Kept cache.countMiss (.began key :: .asked key :: log) where
  find := h.find
  hits := by
    simp only [hitsOf, habsent, Option.isSome_none, Bool.false_eq_true, ↓reduceIte]
    exact h.hits
  misses := congrArg (· + 1) h.misses
  proper := h.proper
  distinct := h.distinct
  bounded := h.bounded

theorem failed (h : Kept cache log) (key : Key) (e : ε) :
    Kept cache (.answered key (.error e) :: .ended key (.error e) :: log) :=
  ⟨h.find, h.hits, h.misses, h.proper, h.distinct, h.bounded⟩

/-- What is stored first stays, also when it was stored during the computation. -/
theorem computed (h : Kept cache log) (hproper : key == key) (v : ν) (result : Except ε ν) :
    stored? key (.ended key (.ok v) :: log) = some (cache.store key v).1 ∧
      Kept (cache.store key v).2 (.answered key result :: .ended key (.ok v) :: log) := by
  have hfind := h.find key
  have hended (other : Key) : stored? other (.answered key result :: .ended key (.ok v) :: log) =
      (cache.find? other).or (if key == other then some v else none) := by
    rw [h.find]
    rfl
  unfold store
  cases hstored : cache.find? key with
  | some first =>
    rw [hfind] at hstored
    refine ⟨by simp [stored?, hstored], fun other => ?_, h.hits, h.misses, h.proper, h.distinct,
      Nat.le_succ_of_le h.bounded⟩
    rw [hended]
    by_cases hother : key == other
    · rw [← find?_congr hother, hfind, hstored]
      rfl
    · simp [hother]
  | none =>
    have habsent : ∀ entry ∈ cache.entries, (entry.1 == key) = false := by
      intro entry hentry
      have hnone := List.find?_eq_none.mp (Option.map_eq_none_iff.mp hstored) entry hentry
      simpa using hnone
    rw [hfind] at hstored
    refine ⟨by simp [stored?, hstored, hproper], fun other => ?_, h.hits, h.misses, ?_, ?_, ?_⟩
    · rw [hended]
      exact find?_append other key v cache
    · exact List.forall_mem_append.mpr ⟨h.proper, List.forall_mem_singleton.mpr hproper⟩
    · refine List.pairwise_append.mpr ⟨h.distinct, List.pairwise_singleton _ _, ?_⟩
      intro entry hentry other hother
      rw [List.mem_singleton.mp hother]
      exact habsent entry hentry
    · rw [List.length_append]
      exact Nat.succ_le_succ h.bounded

end Kept

/-- A client leads from a table as the notes say to one as the notes say, on a course of a table
that is written once. -/
theorem Client.act_kept (client : Client σ ε ν) (s : Desk σ (Log ε ν) ν)
    (h : Kept s.cache s.notes) :
    Course s.notes ((client.act List.cons).run s).2.notes ∧
      Kept ((client.act List.cons).run s).2.cache ((client.act List.cons).run s).2.notes := by
  induction client generalizing s with
  | done result =>
    unfold act
    rw [run_ofExcept]
    exact ⟨.stop _, h⟩
  | see next ih => exact ih s.own s h
  | change f next ih => exact ih { s with own := f s.own } h
  | look key next ih =>
    rw [run_look, h.find]
    obtain ⟨hcourse, hkept⟩ := ih _ ⟨_, _, _⟩ (h.looked key.1)
    exact ⟨.looked key.1 hcourse, hkept⟩
  | ask key compute next ihcompute ihnext =>
    cases hfind : s.cache.find? key.1 with
    | some v =>
      have hstored := (h.find key.1).symm.trans hfind
      rw [run_ask_of_found List.cons hfind]
      obtain ⟨hcourse, hkept⟩ := ihnext (.ok v) ⟨_, _, _⟩ (h.found hstored (.ok v))
      exact ⟨.found hstored hcourse, hkept⟩
    | none =>
      have habsent := (h.find key.1).symm.trans hfind
      obtain ⟨hinner, hended⟩ := ihcompute ⟨s.cache.countMiss, s.own, _⟩ (h.began habsent)
      rcases hrun : (act List.cons compute).run ⟨s.cache.countMiss, s.own,
        .began key.1 :: .asked key.1 :: s.notes⟩ with ⟨result, t⟩
      rw [hrun] at hinner hended
      simp only at hinner hended
      cases result with
      | error e =>
        rw [run_ask_of_failed List.cons hfind hrun]
        have hfailed := hended.failed key.1 e
        obtain ⟨hcourse, hkept⟩ := ihnext (.error e) ⟨t.cache, t.own, _ :: _ :: t.notes⟩ hfailed
        exact ⟨.failed habsent hinner hcourse, hkept⟩
      | ok v =>
        obtain ⟨hfirst, hstored⟩ := hended.computed key.2 v (.ok (t.cache.store key.1 v).1)
        rw [run_ask_of_ok List.cons hfind hrun]
        obtain ⟨hcourse, hkept⟩ := ihnext _ ⟨_, t.own, _⟩ hstored
        exact ⟨.computed habsent hinner hfirst hcourse, hkept⟩

/-! ## A table that is written once -/

/-- A key with its value stands in the table only once. -/
theorem Kept.stored {cache : Cache ν} (h : Kept cache log) {key : Key} {v : ν}
    (hmem : (key, v) ∈ cache.entries) : stored? key log = some v := by
  obtain ⟨before, behind, hentries⟩ := List.append_of_mem hmem
  have hdistinct := h.distinct
  rw [hentries] at hdistinct
  have hbefore : ∀ entry ∈ before, ¬(entry.1 == key) := by
    intro entry hentry
    rw [(List.pairwise_append.mp hdistinct).2.2 entry hentry (key, v) List.mem_cons_self]
    exact Bool.false_ne_true
  have hnone := List.find?_eq_none.mpr hbefore
  have hfound : ((key, v) :: behind).find? (fun entry => entry.1 == key) = some (key, v) :=
    List.find?_cons_of_pos (h.proper (key, v) hmem)
  rw [← h.find, find?, hentries, List.find?_append, hnone, hfound]
  rfl

/-- The table behind what has happened to it is a map that is written once. -/
structure WrittenOnce (log : Log ε ν) (cache : Cache ν) : Prop where
  /-- Lookups, computations and answers are those of such a map. -/
  course : Course [] log
  /-- Under a key there is the first value that was computed for it with success. -/
  find : ∀ key, cache.find? key = stored? key log
  /-- What was ever stored is still there. -/
  stays : ∀ earlier, earlier <:+ log → ∀ key v, stored? key earlier = some v →
    cache.find? key = some v
  /-- So is the answer to every call that succeeded. -/
  answered : ∀ key v, .answered key (.ok v) ∈ log → cache.find? key = some v
  /-- What is there under a node and its context was computed for this node in this context,
  whatever the digests are. -/
  apart : ∀ digest node context v, cache.find? (.structural digest node context) = some v →
    ∃ other otherContext, .ended (.structural digest other otherContext) (.ok v) ∈ log ∧
      other == node ∧ otherContext == context
  /-- There are no entries but what is stored. -/
  entries : ∀ key v, (key, v) ∈ cache.entries → stored? key log = some v
  distinct : cache.entries.Pairwise fun entry other => (entry.1 == other.1) = false
  hits : cache.stats.hits = hitsOf log
  misses : cache.stats.misses = startsOf log
  bounded : cache.stats.entries ≤ cache.stats.misses

theorem Kept.writtenOnce {cache : Cache ν} (h : Kept cache log) (hcourse : Course [] log) :
    WrittenOnce log cache where
  course := hcourse
  find := h.find
  stays earlier hearlier key v hstored := (h.find key).trans (stored?_of_suffix hearlier hstored)
  answered key v hmem := (h.find key).trans (hcourse.answersStored nofun key v hmem)
  apart digest node context v hfind := by
    rw [h.find] at hfind
    obtain ⟨other, hmem, hkey⟩ := exists_of_stored? hfind
    cases other with
    | reference id => cases hkey
    | structural otherDigest otherNode otherContext =>
      rw [Key.beq_structural, Bool.and_eq_true, Bool.and_eq_true] at hkey
      rw [eq_of_beq hkey.1.1] at hmem
      exact ⟨otherNode, otherContext, hmem, hkey.1.2, hkey.2⟩
  entries _ _ := h.stored
  distinct := h.distinct
  hits := h.hits
  misses := h.misses
  bounded := by
    have hsuccesses := hcourse.successes_le
    have hentries := h.bounded
    have hmisses := h.misses
    simp only [successesOf, startsOf] at hsuccesses
    simp only [stats]
    omega

/-- Whatever a client does with an empty table, in whatever way it nests its computations and
wherever they fail: noted down or not, what happens is the same, and behind it the table is a map
that is written once. -/
theorem Client.act_writtenOnce (client : Client σ ε ν) (own : σ) :
    ∃ result cache own' log,
      (client.act List.cons).run ⟨.empty, own, []⟩ = (result, ⟨cache, own', log⟩) ∧
      (client.act fun _ nothing => nothing).run ⟨.empty, own, ()⟩ = (result, ⟨cache, own', ()⟩) ∧
      WrittenOnce log cache := by
  obtain ⟨hcourse, hkept⟩ := client.act_kept ⟨.empty, own, []⟩ .empty
  exact ⟨_, _, _, _, rfl, act_noteless List.cons client ⟨.empty, own, []⟩,
    hkept.writtenOnce hcourse⟩

/-- A key with a digest of no meaning. -/
def flagKey (b : Bool) : ProperKey := ⟨.structural 7 (.bool b) .empty, by cases b <;> decide⟩

/-- Two keys with one digest stay apart. -/
example : ((Client.act (fun _ nothing => nothing)
    (.ask (flagKey true) (.done (.ok "yes")) fun _ => .ask (flagKey false) (.done (.ok "no")) fun _ =>
      .look (flagKey true) fun found => .done (.ok (found.getD "")) :
        Client Unit String String)).run ⟨.empty, (), ()⟩).1 = .ok "yes" := rfl

end Folio.Cache
