import Folio.Json.Value
import Folio.Decimal.Reading
import Folio.Decimal.Shortest

/-!
The numbers that sizes, positions and widths are measured in. Every rule of layout is stated over
this interface: documents are laid out in single precision, and the same definitions over the
rational numbers say what the rules mean in exact arithmetic.
-/
namespace Folio

class Scalar (α : Type) extends Add α, Sub α, Mul α, Div α, Neg α, LT α, LE α, BEq α, NatCast α,
    OfScientific α where
  ltDecidable : ∀ a b : α, Decidable (a < b)
  leDecidable : ∀ a b : α, Decidable (a ≤ b)
  /-- The larger of two numbers; what is not a number gives way. -/
  larger : α → α → α
  /-- The smaller of two numbers; what is not a number gives way. -/
  smaller : α → α → α
  /-- Restricts a number to a range; what is not a number stays as it is. -/
  within : α → α → α → α
  abs : α → α
  /-- The start of a sum, which leaves any first term as it is. -/
  sumStart : α
  ofNumber : Number → α
  /-- The number closest to the one that a text writes. -/
  ofReading : Decimal.Reading → α

namespace Scalar

variable {α : Type} [Scalar α]

instance (a b : α) : Decidable (a < b) := ltDecidable a b
instance (a b : α) : Decidable (a ≤ b) := leDecidable a b
instance (n : Nat) : OfNat α n := ⟨(n : α)⟩

def sum (xs : List α) : α := xs.foldl (· + ·) sumStart

def greatest (start : α) (xs : List α) : α := xs.foldl larger start

end Scalar

/-- Single precision, the unit of every page that is written. -/
abbrev Single := Float32

namespace Single

def ofNat (n : Nat) : Single :=
  Float32.ofBits (Decimal.single.nearest n 1).toUInt32

/-- The exact decimal constant, rounded once. -/
def ofScientific (mantissa : Nat) (negative : Bool) (exponent : Nat) : Single :=
  Float32.ofBits (Decimal.nearestDecimal Decimal.single mantissa
    (if negative then -(exponent : Int) else exponent)).toUInt32

/-- The plain text of a number: the fewest digits that read back, without an exponent. -/
def text (x : Single) : String := Decimal.plainText Decimal.single x.toBits.toNat

def larger (a b : Single) : Single :=
  if a.isNaN then b else if b.isNaN then a else if a < b then b else a

def smaller (a b : Single) : Single :=
  if a.isNaN then b else if b.isNaN then a else if b < a then b else a

def within (low high x : Single) : Single :=
  if x < low then low else if high < x then high else x

instance : Scalar Single where
  natCast := ofNat
  ofScientific := ofScientific
  ltDecidable := fun a b => inferInstanceAs (Decidable (a < b))
  leDecidable := fun a b => inferInstanceAs (Decidable (a ≤ b))
  larger := larger
  smaller := smaller
  within := within
  abs := Float32.abs
  sumStart := Float32.ofBits 0x80000000
  ofNumber := fun n => n.toFloat.toFloat32
  ofReading := fun r => Float32.ofBits (r.bits Decimal.single).toUInt32

end Single

end Folio
