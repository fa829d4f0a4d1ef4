import Folio.Json.Digest
import Folio.Style.Context

/-!
The table of content that is computed at most once. A key is a node with its context, or the name of
a reference; two structural keys are one key only when digest, node and context agree. A computation
runs only on a key that is absent, may use the table itself, and stores nothing when it fails; what
is stored first under a key stays.
-/
namespace Folio

namespace Cache

inductive Key where
  | structural (digest : UInt64) (node : Json) (context : Style.Context)
  | reference (id : String)

namespace Key

def beq : Key → Key → Bool
  | structural d n c, structural e m k => d == e && n == m && c == k
  | reference a, reference b => a == b
  | _, _ => false

instance : BEq Key := ⟨beq⟩

/-- The key of a node in its context. -/
def ofNode (node : Json) (context : Style.Context) : Key :=
  structural (digest (node.stream ++ Fields.stream context.attrs)) node context

end Key

end Cache

/-- What is stored, in the order it came, and how often the table was asked. -/
structure Cache (ν : Type) where
  entries : List (Cache.Key × ν)
  hits : Nat
  misses : Nat

namespace Cache

structure Stats where
  hits : Nat
  misses : Nat
  entries : Nat
  deriving DecidableEq, Repr

variable {ν : Type}

def empty : Cache ν := ⟨[], 0, 0⟩

def find? (key : Key) (cache : Cache ν) : Option ν :=
  (cache.entries.find? fun entry => entry.1 == key).map (·.2)

def stats (cache : Cache ν) : Stats := ⟨cache.hits, cache.misses, cache.entries.length⟩

/-- Looks a key up and counts the hit if there is one. -/
def lookup (key : Key) (cache : Cache ν) : Option ν × Cache ν :=
  match cache.find? key with
  | some value => (some value, { cache with hits := cache.hits + 1 })
  | none => (none, cache)

def countMiss (cache : Cache ν) : Cache ν := { cache with misses := cache.misses + 1 }

/-- Stores a value unless the key already has one; returns the one that is stored. -/
def store (key : Key) (value : ν) (cache : Cache ν) : ν × Cache ν :=
  match cache.find? key with
  | some stored => (stored, cache)
  | none => (value, { cache with entries := cache.entries ++ [(key, value)] })

/-- The stored value, or the outcome of `compute`, which is run only when there is none. -/
def getOrCompute {m : Type → Type} [Monad m] [MonadStateOf (Cache ν) m] (key : Key)
    (compute : m ν) : m ν := do
  match ← modifyGet (lookup key) with
  | some value => return value
  | none =>
    modify countMiss
    let value ← compute
    modifyGet (store key value)

@[simp] theorem find?_empty (key : Key) : (empty : Cache ν).find? key = none := rfl

@[simp] theorem find?_countMiss (key : Key) (cache : Cache ν) :
    cache.countMiss.find? key = cache.find? key := rfl

theorem store_of_find? {key : Key} {stored : ν} {cache : Cache ν}
    (h : cache.find? key = some stored) (value : ν) : cache.store key value = (stored, cache) := by
  simp [store, h]

end Cache

end Folio
