import Folio.Scalar
import Mathlib.Data.Rat.Cast.Order

/-!
# Exact arithmetic

The rational numbers as the numbers that sizes and positions are measured in. Nothing is rounded,
and what is not finite, which only a text or a pattern can write, counts as nought.
-/
namespace Folio.Exact

def signed (negative : Bool) (x : ℚ) : ℚ := if negative then -x else x

def ofPattern (bits : Nat) : ℚ :=
  match Decimal.double.decode bits with
  | .finite negative significand exponent => signed negative (significand * (2 : ℚ) ^ exponent)
  | .nan | .infinite _ => 0

def ofNumber : Number → ℚ
  | .whole n => n.toNat
  | .negative n => n.toInt
  | .real x => ofPattern x.toBits.toNat

def ofReading : Decimal.Reading → ℚ
  | .decimal negative significand exponent => signed negative (significand * (10 : ℚ) ^ exponent)
  | .nan _ | .infinite _ => 0

instance : Scalar ℚ where
  ltDecidable := inferInstance
  leDecidable := inferInstance
  larger := max
  smaller := min
  within low high x := max low (min high x)
  abs := abs
  sumStart := 0
  ofNumber := ofNumber
  ofReading := ofReading

end Folio.Exact
