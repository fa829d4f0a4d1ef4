import Folio.Decimal.Binary

/-!
The fewest decimal digits that read back as a given binary pattern, found on exact fractions: grids
of one, two, … digits are tried in turn, and on the first grid that has a point inside the interval
of numbers rounding to the pattern the point nearest to the exact value is taken.
-/
namespace Folio.Decimal

/-- The number `significand * 10 ^ exponent`. -/
structure Digits where
  significand : Nat
  exponent : Int
  deriving DecidableEq, Repr

/-- Which of two equally near grid points is taken. -/
inductive Tie where
  | even | up
  deriving DecidableEq, Repr

def decimalLength (n : Nat) : Nat :=
  (Nat.toDigits 10 n).length

/-- The exponent of the leading decimal digit of the fraction `num / den`. -/
def leadingExponent (num den : Nat) : Int :=
  if den ≤ num then decimalLength (num / den) - 1
  else -(decimalLength ((den - 1) / num) : Int)

/-- The numbers that round to a pattern, as fractions over one denominator. -/
structure Interval where
  low : Nat
  value : Nat
  high : Nat
  den : Nat
  closed : Bool
  deriving DecidableEq, Repr

namespace Interval

/-- Below a power of two the neighbouring pattern is only half as far away. -/
def ofFinite (f : BinaryFormat) (significand : Nat) (exponent : Int) : Interval :=
  let narrow := significand == Nat.pow 2 f.fractionBits && decide (f.minExponent < exponent)
  let below := if narrow then 1 else 2
  let e := exponent - 2
  let scale := if 0 ≤ e then Nat.pow 2 e.toNat else 1
  let den := if 0 ≤ e then 1 else Nat.pow 2 (-e).toNat
  ⟨(4 * significand - below) * scale, 4 * significand * scale, (4 * significand + 2) * scale, den,
    significand % 2 == 0⟩

/-- Is `num / den` of the interval, for a numerator already over the interval's denominator? -/
def holds (i : Interval) (scale n : Nat) : Bool :=
  if i.closed then i.low * scale ≤ n && n ≤ i.high * scale
  else i.low * scale < n && n < i.high * scale

/-- The point of the grid of multiples of `10 ^ k` that stands for the interval, if it has one. -/
def gridPoint (i : Interval) (tie : Tie) (k : Int) : Option Nat :=
  let scale := if 0 ≤ k then 1 else Nat.pow 10 (-k).toNat
  let unit := if 0 ≤ k then i.den * Nat.pow 10 k.toNat else i.den
  let value := i.value * scale
  let d := value / unit
  let lower := i.holds scale (d * unit)
  let upper := i.holds scale ((d + 1) * unit)
  let down := value - d * unit
  let upward := (d + 1) * unit - value
  let preferUpper := upward < down || (upward == down && (tie == .up || d % 2 == 1))
  if lower && upper then some (if preferUpper then d + 1 else d)
  else if lower then some d
  else if upper then some (d + 1)
  else none

/-- Tries the grid of `digits` digits, then finer ones, at most `tries` in all. -/
def search (i : Interval) (tie : Tie) (leading : Int) : Nat → Nat → Digits
  | 0, _ => ⟨i.value / i.den, 0⟩
  | tries + 1, digits =>
    let k := leading - digits + 1
    match i.gridPoint tie k with
    | some d => ⟨d, k⟩
    | none => i.search tie leading tries (digits + 1)

end Interval

/-- Seventeen digits always suffice for the formats in use. -/
def maxDigits : Nat := 17

/-- Shortest digits of a positive finite number. -/
def shortest (f : BinaryFormat) (tie : Tie) (significand : Nat) (exponent : Int) : Digits :=
  let i := Interval.ofFinite f significand exponent
  i.search tie (leadingExponent i.value i.den) maxDigits 1

/-- Moves the zeros at the end of the significand into the exponent. -/
def Digits.normal (d : Digits) : Digits :=
  let text := Nat.toDigits 10 d.significand
  let zeros := (text.reverse.takeWhile (· == '0')).length
  if d.significand = 0 then ⟨0, 0⟩
  else ⟨d.significand / Nat.pow 10 zeros, d.exponent + zeros⟩

/-- Writes digits without an exponent, with a point only in front of a fraction. -/
def Digits.positional (d : Digits) : List Char :=
  let text := Nat.toDigits 10 d.significand
  if 0 ≤ d.exponent then text ++ List.replicate d.exponent.toNat '0'
  else
    let places := (-d.exponent).toNat
    if places < text.length then
      text.take (text.length - places) ++ '.' :: text.drop (text.length - places)
    else '0' :: '.' :: List.replicate (places - text.length) '0' ++ text

/-- The plain text of a number: positional however large or small it is. -/
def plainText (f : BinaryFormat) (bits : Nat) : String :=
  match f.decode bits with
  | .nan => "NaN"
  | .infinite negative => if negative then "-inf" else "inf"
  | .finite negative significand exponent =>
    let body := if significand = 0 then ['0']
      else (shortest f .up significand exponent).normal.positional
    String.ofList (if negative then '-' :: body else body)

/-- One digit, then the rest behind a point, then the power of ten with its sign. -/
def Digits.scientific (d : Digits) : List Char :=
  let text := Nat.toDigits 10 d.significand
  let power : Int := d.exponent + text.length - 1
  let tail := match text with
    | [] => []
    | [c] => [c]
    | c :: rest => c :: '.' :: rest
  let mark := if power < 0 then ['e', '-'] else ['e', '+']
  tail ++ mark ++ Nat.toDigits 10 power.natAbs

/-- Data text of a finite number: positional with at least one place from `1e-5` up to `1e16`. -/
def dataText (f : BinaryFormat) (bits : Nat) : String :=
  match f.decode bits with
  | .finite negative significand exponent =>
    let body := if significand = 0 then ['0', '.', '0']
      else
        let d := (shortest f .even significand exponent).normal
        let power : Int := d.exponent + decimalLength d.significand - 1
        if -5 ≤ power && power < 16 then
          if 0 ≤ d.exponent then d.positional ++ ['.', '0'] else d.positional
        else d.scientific
    String.ofList (if negative then '-' :: body else body)
  | _ => "null"

end Folio.Decimal
