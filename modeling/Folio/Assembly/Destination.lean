import Folio.Engine.Basic
import Folio.Pdf.File

/-!
Where a finished document goes. A destination answers each of three calls, which open it, write to
it and flush it, and keeps what it was given. A file is opened by making the directories above it
and emptying it.
-/
namespace Folio

/-- The bytes that are handed over. -/
def Payload.encoded : Payload Single → Pdf.Bytes
  | .document doc => doc.fileBytes
  | .bytes data => data

namespace Assembly

open Resource (Entry)

/-- The many writes of a payload fail at the first of them that fails, when so many bytes have been
taken. -/
structure Refusal where
  taken : Nat
  fault : IoFault
  deriving DecidableEq, Repr

structure Destination where
  /-- Why it cannot be opened. -/
  opening : Option IoFault
  /-- Where the writes of a payload fail, if they do. -/
  writing : Payload Single → Option Refusal
  /-- Why what it took cannot be flushed. -/
  flushing : Option IoFault
  opened : Bool
  /-- What it was given, in order. -/
  written : List (Payload Single)
  flushes : Nat

abbrev DestinationM := ExceptT IoFault (StateM Destination)

namespace Destination

/-- Opening, every write and flushing fail with these faults, if there are any. -/
def answering (opening writing flushing : Option IoFault) : Destination :=
  ⟨opening, fun _ => writing.map (⟨0, ·⟩), flushing, false, [], 0⟩

/-- Takes all that it is given. -/
def memory : Destination := answering none none none

/-- The names of a path, each upward step taking the name before it. -/
def namesOf (path : String) : List String :=
  (Resource.stepsOf path).foldl (fun names step =>
    match step with
    | .stay => names
    | .up => names.dropLast
    | .down name => names ++ [name]) []

/-- The file tree with the file of that path made anew, and the directories above it. -/
def createAt (root : Entry) (path : String) : Except Resource.PathError Entry := do
  if path.toList.contains '\x00' then .error .malformed
  else if Resource.maxPathSize < path.utf8ByteSize then .error .nameTooLong
  else
    let steps := Resource.stepsOf path
    let (grown, above) ← Resource.createDirectories root [] (steps.filter (· != .stay)).dropLast
    match steps.getLast? with
    | some (.down name) => Resource.createFile grown above name
    | _ => .error .isDirectory

/-- A file of a tree. -/
def file (root : Entry) (path : String) : Destination :=
  match createAt root path with
  | .ok _ => memory
  | .error error => answering (some (.path error)) none none

/-- Fails with the fault, if there is one. -/
def failOn : Option IoFault → DestinationM Unit
  | some fault => throw fault
  | none => return ()

def start : DestinationM Unit := do
  failOn (← get).opening
  modify fun d => { d with opened := true }

def keep (payload : Payload Single) (d : Destination) : Destination :=
  { d with written := d.written ++ [payload] }

/-- Hands a payload over; of one that is not taken as a whole, the bytes in front stay. -/
def write (payload : Payload Single) : DestinationM Unit := do
  match (← get).writing payload with
  | none => modify (keep payload)
  | some refusal =>
    modify (keep (.bytes (payload.encoded.take refusal.taken)))
    throw refusal.fault

def flush : DestinationM Unit := do
  modify fun d => { d with flushes := d.flushes + 1 }
  failOn (← get).flushing

end Destination

end Assembly

end Folio
