/-!
Where the bytes of images come from: a provider loads a path or says why it cannot. `Memory` serves
what was put into it, the latest bytes under each path.
-/
namespace Folio.Resource

abbrev Bytes := List UInt8

inductive ResourceError where
  | notFound (path : String)
  | loadFailed (path reason : String)
  | accessDenied (path : String)
  | io (reason : String)
  deriving DecidableEq, Repr

def ResourceError.message : ResourceError → String
  | notFound path => "Resource not found: " ++ path
  | loadFailed path reason => "Failed to load resource '" ++ path ++ "': " ++ reason
  | accessDenied path => "Access denied to resource '" ++ path ++ "'"
  | io reason => "I/O error: " ++ reason

structure Provider where
  name : String
  load : String → Except ResourceError Bytes
  exists? : String → Bool

/-- Paths with their bytes, each path once. -/
structure Memory where
  entries : List (String × Bytes)

namespace Memory

def empty : Memory := ⟨[]⟩

def put (path : String) (data : Bytes) : List (String × Bytes) → List (String × Bytes)
  | [] => [(path, data)]
  | (k, v) :: rest => if k == path then (path, data) :: rest else (k, v) :: put path data rest

def add (m : Memory) (path : String) (data : Bytes) : Memory := ⟨put path data m.entries⟩

def get? (m : Memory) (path : String) : Option Bytes :=
  (m.entries.find? (·.1 == path)).map (·.2)

def size (m : Memory) : Nat := m.entries.length

def load (m : Memory) (path : String) : Except ResourceError Bytes :=
  match m.get? path with
  | some data => .ok data
  | none => .error (.notFound path)

def provider (m : Memory) : Provider where
  name := "InMemoryResourceProvider"
  load := m.load
  exists? path := (m.get? path).isSome

theorem get?_add_self (m : Memory) (path : String) (data : Bytes) :
    (m.add path data).get? path = some data := by
  simp only [add, get?]
  induction m.entries with
  | nil => simp [put]
  | cons entry rest ih =>
    obtain ⟨k, v⟩ := entry
    simp only [put]
    split
    · simp
    · rename_i h
      simp only [List.find?_cons, h]
      exact ih

end Memory

end Folio.Resource
