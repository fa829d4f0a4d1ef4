import Folio.Resource.Provider

/-!
The check sum of a run of bytes: the remainder that they leave, as a polynomial over two elements,
by one of degree 32. Bits count from the lowest, and the sum is turned over at both ends.
-/
namespace Folio.Picture

open Resource (Bytes)

/-- The divisor without its leading term, the highest power in the lowest bit. -/
def divisor : UInt32 := 0xEDB88320

def bitStep (sum : UInt32) : UInt32 :=
  if sum % 2 == 1 then (sum >>> 1) ^^^ divisor else sum >>> 1

def byteStep (sum : UInt32) (b : UInt8) : UInt32 :=
  Nat.repeat bitStep 8 (sum ^^^ b.toUInt32)

def checksum (bytes : Bytes) : UInt32 := bytes.foldl byteStep 0xFFFFFFFF ^^^ 0xFFFFFFFF

end Folio.Picture
