import Folio.Decimal.Binary

/-!
Reads decimal texts as binary patterns. The grammar takes a sign, then `inf`, `infinity` or `nan` in
any case, or digits with at most one point and an optional exponent; at least one digit must stand
before the exponent. The value is the pattern nearest to the exact decimal.
-/
namespace Folio.Decimal

/-- What a numeric text says, before it is rounded to a format. -/
inductive Reading where
  | nan (negative : Bool)
  | infinite (negative : Bool)
  | decimal (negative : Bool) (significand : Nat) (exponent : Int)
  deriving DecidableEq, Repr

def digitValue (c : Char) : Nat := c.toNat - 48

/-- Value of a row of digits that goes on from `start`. -/
def valueOf (start : Nat) (digits : List Char) : Nat :=
  digits.foldl (fun n c => 10 * n + digitValue c) start

@[simp] theorem valueOf_nil (n : Nat) : valueOf n [] = n := by
  simp only [valueOf, List.foldl_nil]
@[simp] theorem valueOf_cons (n : Nat) (c : Char) (cs : List Char) :
    valueOf n (c :: cs) = valueOf (10 * n + digitValue c) cs := by
  simp only [valueOf, List.foldl_cons]

/-- Splits a leading sign off; no sign means a positive number. -/
def takeSign : List Char → Bool × List Char
  | '-' :: rest => (true, rest)
  | '+' :: rest => (false, rest)
  | cs => (false, cs)

/-- The exponent written in `cs`, which must be all of the text. -/
def readExponent (cs : List Char) : Option Int :=
  match cs with
  | [] => some 0
  | c :: rest =>
    if c == 'e' || c == 'E' then
      let (negative, digits) := takeSign rest
      if digits.isEmpty || !digits.all Char.isDigit then none
      else some (if negative then -(valueOf 0 digits : Int) else valueOf 0 digits)
    else none

/-- An unsigned decimal: digits, a point with more digits, an exponent. -/
def readDecimal (negative : Bool) (cs : List Char) : Option Reading :=
  let whole := cs.takeWhile Char.isDigit
  let rest := cs.dropWhile Char.isDigit
  let (places, tail) := match rest with
    | '.' :: more => (more.takeWhile Char.isDigit, more.dropWhile Char.isDigit)
    | _ => ([], rest)
  if whole.isEmpty && places.isEmpty then none
  else (readExponent tail).map fun e =>
    .decimal negative (valueOf (valueOf 0 whole) places) (e - places.length)

def Reading.parse? (cs : List Char) : Option Reading :=
  let (negative, rest) := takeSign cs
  let name := String.ofList (rest.map Char.toLower)
  if name == "inf" || name == "infinity" then some (.infinite negative)
  else if name == "nan" then some (.nan negative)
  else readDecimal negative rest

/-- Beyond this many places from the point every format in use is infinite or zero. -/
def farAway : Int := 400

/-- Pattern nearest to `significand * 10 ^ exponent`. -/
def nearestDecimal (f : BinaryFormat) (significand : Nat) (exponent : Int) : Nat :=
  let places : Int := (Nat.toDigits 10 significand).length + exponent
  if significand = 0 || places < -farAway then 0
  else if farAway < places then f.infinity
  else if 0 ≤ exponent then f.nearest (significand * Nat.pow 10 exponent.toNat) 1
  else f.nearest significand (Nat.pow 10 (-exponent).toNat)

def Reading.bits (f : BinaryFormat) : Reading → Nat
  | .nan _ => f.infinity + Nat.pow 2 (f.fractionBits - 1)
  | .infinite negative => f.infinity + if negative then f.signBit else 0
  | .decimal negative significand exponent =>
    nearestDecimal f significand exponent + if negative then f.signBit else 0

end Folio.Decimal
