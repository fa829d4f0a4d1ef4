import Folio.Resource.Provider

/-!
What stands at the front of a file, read off piece by piece. A reader gives its value and leaves the
bytes behind it, or finds too few of them. Main statements: a number below 65536 is read back from
its two bytes, and a run of bytes in front of others is read off whole.
-/
namespace Folio.Picture

open Resource (Bytes)

/-- The number whose bytes are written with the highest first. -/
def bigEndian (bytes : Bytes) : Nat := bytes.foldl (fun n b => 256 * n + b.toNat) 0

/-- The number whose bytes are written with the lowest first. -/
def littleEndian (bytes : Bytes) : Nat := bigEndian bytes.reverse

theorem bigEndian_pair (n : Nat) (h : n < 65536) :
    bigEndian [(n / 256).toUInt8, (n % 256).toUInt8] = n := by
  simp [bigEndian]
  omega

abbrev Reader := StateT Bytes Option

namespace Reader

def byte : Reader UInt8
  | [] => none
  | b :: rest => some (b, rest)

def bytes (n : Nat) : Reader Bytes := fun data =>
  if data.length < n then none else some (data.take n, data.drop n)

/-- A number of two bytes. -/
def word : Reader Nat := return bigEndian (← bytes 2)

/-- Passes over bytes; where they are too few, nothing is left. -/
def skip (n : Nat) : Reader Unit := modify (·.drop n)

/-- Goes on only if the condition holds. -/
def check (condition : Bool) : Reader Unit := if condition then return () else failure

theorem bytes_append (front rest : Bytes) :
    bytes front.length (front ++ rest) = some (front, rest) := by
  simp [bytes]

end Reader

end Folio.Picture
