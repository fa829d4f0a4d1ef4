/-!
Binary floating-point patterns in exact arithmetic. A pattern is a natural number; `decode` says
which number it stands for and `nearest` is the pattern closest to a fraction, ties going to the
even pattern. Nothing here depends on a machine's floating-point unit.
-/
namespace Folio.Decimal

/-- How many bits of a pattern hold the fraction and how many the exponent. -/
structure BinaryFormat where
  fractionBits : Nat
  exponentBits : Nat
  deriving DecidableEq, Repr

def single : BinaryFormat := ⟨23, 8⟩
def double : BinaryFormat := ⟨52, 11⟩

/-- A finite number is `significand * 2 ^ exponent`, up to its sign. -/
inductive Unpacked where
  | nan
  | infinite (negative : Bool)
  | finite (negative : Bool) (significand : Nat) (exponent : Int)
  deriving DecidableEq, Repr

namespace BinaryFormat

def infinity (f : BinaryFormat) : Nat :=
  (Nat.pow 2 f.exponentBits - 1) * Nat.pow 2 f.fractionBits

def signBit (f : BinaryFormat) : Nat :=
  Nat.pow 2 (f.fractionBits + f.exponentBits)

/-- Exponent of the last place of the smallest numbers. -/
def minExponent (f : BinaryFormat) : Int :=
  2 - (Nat.pow 2 (f.exponentBits - 1) : Int) - f.fractionBits

def decode (f : BinaryFormat) (bits : Nat) : Unpacked :=
  let negative := f.signBit ≤ bits
  let magnitude := bits % f.signBit
  if f.infinity < magnitude then .nan
  else if magnitude = f.infinity then .infinite negative
  else
    let fraction := magnitude % Nat.pow 2 f.fractionBits
    let biased := magnitude / Nat.pow 2 f.fractionBits
    if biased = 0 then .finite negative fraction f.minExponent
    else .finite negative (Nat.pow 2 f.fractionBits + fraction) (f.minExponent + biased - 1)

/-- Rounds a quotient to the nearest natural number, a half to the even neighbour. -/
def roundQuotient (num den : Nat) : Nat :=
  let q := num / den
  let r := num % den
  if den < 2 * r || (2 * r == den && q % 2 == 1) then q + 1 else q

/-- Pattern nearest to the fraction `num / den`; what is too large becomes the infinity. -/
def nearest (f : BinaryFormat) (num den : Nat) : Nat :=
  if num = 0 then 0
  else
    let guess : Int := (num.log2 : Int) - den.log2
    let atLeast := if 0 ≤ guess then den <<< guess.toNat ≤ num else den ≤ num <<< (-guess).toNat
    let leading := if atLeast then guess else guess - 1
    let e := max (leading - f.fractionBits) f.minExponent
    let q := if 0 ≤ e then roundQuotient num (den <<< e.toNat)
      else roundQuotient (num <<< (-e).toNat) den
    min f.infinity ((e - f.minExponent).toNat * Nat.pow 2 f.fractionBits + q)

@[simp] theorem nearest_zero (f : BinaryFormat) (den : Nat) : f.nearest 0 den = 0 := rfl

theorem nearest_le_infinity (f : BinaryFormat) (num den : Nat) :
    f.nearest num den ≤ f.infinity := by
  unfold nearest
  split
  · exact Nat.zero_le _
  · exact Nat.min_le_left _ _

end BinaryFormat

end Folio.Decimal
