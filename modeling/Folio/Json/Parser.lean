import Folio.Json.Value
import Folio.Decimal.Reading

/-!
Reads data values from text. At most 127 arrays and maps may stand inside each other, half a
surrogate pair is refused, and so is a number that is too large for a double. A number with a point
or an exponent is its first digits, as many as fit in 64 bits, scaled by a power of ten in double
arithmetic.
-/
namespace Folio.Json

/-- How many arrays and maps may be open at once. -/
def maxDepth : Nat := 127

def isSpace (c : Char) : Bool :=
  c == ' ' || c == '\n' || c == '\t' || c == '\r'

def skipSpace (cs : List Char) : List Char := cs.dropWhile isSpace

/-- A number on the way: its leading digits and the power of ten still to be applied. -/
structure Scaled where
  significand : UInt64
  exponent : Int
  deriving Repr

def powerOfTen (k : Nat) : Float :=
  Float.ofBits (Decimal.double.nearest (Nat.pow 10 k) 1).toUInt64

/-- Divides by `10 ^ 308` until the power left over is one that a double holds. -/
def scaleDown (x : Float) (k : Nat) : Float :=
  if k ≤ 308 then x / powerOfTen k
  else if x == 0 then x
  else scaleDown (x / powerOfTen 308) (k - 308)
termination_by k

/-- The value of a scaled number, unless it is too large. -/
def Scaled.toFloat? (s : Scaled) : Option Float :=
  let x := s.significand.toFloat
  if 0 ≤ s.exponent then
    if 308 < s.exponent then if x == 0 then some x else none
    else
      let y := x * powerOfTen s.exponent.toNat
      if y.isInf then none else some y
  else some (scaleDown x (-s.exponent).toNat)

/-- Takes digits while they fit in 64 bits; returns the value, how many were taken, and the rest. -/
def takeDigits (start : Nat) (taken : Nat) : List Char → Nat × Nat × List Char
  | [] => (start, taken, [])
  | c :: rest =>
    if c.isDigit then
      let next := 10 * start + Decimal.digitValue c
      if next < 18446744073709551616 then takeDigits next (taken + 1) rest
      else (start, taken, c :: rest)
    else (start, taken, c :: rest)

def signedReal (negative : Bool) (x : Float) : Number :=
  .real (if negative then -x else x)

/-- The exponent part, from behind its `e`; a whole that overflows 31 bits is out of reach. -/
def readPower (negative : Bool) (significand : Nat) (exponent : Int) (cs : List Char) :
    Option (Number × List Char) :=
  let (down, rest) := Decimal.takeSign cs
  let digits := rest.takeWhile Char.isDigit
  let tail := rest.dropWhile Char.isDigit
  if digits.isEmpty then none
  else
    let power := Decimal.valueOf 0 digits
    if 2147483648 ≤ power then
      if significand ≠ 0 && !down then none else some (signedReal negative 0, tail)
    else
      let e : Int := if down then exponent - power else exponent + power
      (Scaled.toFloat? ⟨significand.toUInt64, e⟩).map fun x => (signedReal negative x, tail)

/-- What follows the digits in front of the point, for a number that is no longer whole. -/
def readTail (negative : Bool) (significand : Nat) (exponent : Int) (cs : List Char) :
    Option (Number × List Char) :=
  let plain := Scaled.toFloat? ⟨significand.toUInt64, exponent⟩
  match cs with
  | c :: rest =>
    if c == 'e' || c == 'E' then readPower negative significand exponent rest
    else plain.map fun x => (signedReal negative x, cs)
  | [] => plain.map fun x => (signedReal negative x, [])

/-- Places behind the point; those that no longer fit are passed over. -/
def readPlaces (negative : Bool) (significand : Nat) (exponent : Int) (cs : List Char) :
    Option (Number × List Char) :=
  match cs with
  | c :: _ =>
    if c.isDigit then
      let (value, taken, rest) := takeDigits significand 0 cs
      readTail negative value (exponent - taken) (rest.dropWhile Char.isDigit)
    else none
  | [] => none

/-- A number from its first digit on. -/
def readNumber (negative : Bool) (cs : List Char) : Option (Number × List Char) :=
  let leadingZero := cs.head? == some '0'
  let (value, taken, rest) := if leadingZero then (0, 1, cs.tail) else takeDigits 0 0 cs
  if taken == 0 then none
  else if leadingZero && (rest.head?.map Char.isDigit).getD false then none
  else
    let excess := rest.takeWhile Char.isDigit
    let tail := rest.dropWhile Char.isDigit
    match tail with
    | '.' :: more => readPlaces negative value excess.length more
    | 'e' :: _ | 'E' :: _ => readTail negative value excess.length tail
    | _ =>
      if !excess.isEmpty then readTail negative value excess.length tail
      else if !negative then some (.whole value.toUInt64, tail)
      else if value = 0 || 9223372036854775808 < value then
        some (signedReal true value.toUInt64.toFloat, tail)
      else some (.negative (Int64.ofInt (-(value : Int))), tail)

def hexValue? (c : Char) : Option Nat :=
  if c.isDigit then some (c.toNat - 48)
  else if 'a' ≤ c && c ≤ 'f' then some (c.toNat - 87)
  else if 'A' ≤ c && c ≤ 'F' then some (c.toNat - 55)
  else none

def readHex4 : List Char → Option (Nat × List Char)
  | a :: b :: c :: d :: rest => do
    let a ← hexValue? a
    let b ← hexValue? b
    let c ← hexValue? c
    let d ← hexValue? d
    return (((a * 16 + b) * 16 + c) * 16 + d, rest)
  | _ => none

/-- A character written by its code; two halves of a pair make one character. -/
def readCode (cs : List Char) : Option (Char × List Char) := do
  let (n, rest) ← readHex4 cs
  if 0xD800 ≤ n && n < 0xDC00 then
    match rest with
    | '\\' :: 'u' :: more =>
      let (m, tail) ← readHex4 more
      if 0xDC00 ≤ m && m < 0xE000 then
        some (Char.ofNat (0x10000 + (n - 0xD800) * 1024 + (m - 0xDC00)), tail)
      else none
    | _ => none
  else if 0xDC00 ≤ n && n < 0xE000 then none
  else some (Char.ofNat n, rest)

def unescape? : Char → Option Char
  | '"' => some '"'
  | '\\' => some '\\'
  | '/' => some '/'
  | 'b' => some (Char.ofNat 8)
  | 'f' => some (Char.ofNat 12)
  | 'n' => some '\n'
  | 'r' => some '\r'
  | 't' => some '\t'
  | _ => none

/-- A string from behind its opening quote; `done` holds what was read, last character first. -/
def readString (fuel : Nat) (done : List Char) (cs : List Char) : Option (String × List Char) :=
  match fuel, cs with
  | 0, _ => none
  | _, [] => none
  | fuel + 1, c :: rest =>
    if c == '"' then some (String.ofList done.reverse, rest)
    else if c == '\\' then
      match rest with
      | 'u' :: more => do
        let (code, tail) ← readCode more
        readString fuel (code :: done) tail
      | e :: more => do
        let plain ← unescape? e
        readString fuel (plain :: done) more
      | [] => none
    else if c.toNat < 32 then none
    else readString fuel (c :: done) rest

def expect (word : List Char) (value : Json) (cs : List Char) : Option (Json × List Char) :=
  if word.isPrefixOf cs then some (value, cs.drop word.length) else none

mutual

/-- One value at the start of `cs`, with `depth` more levels allowed. -/
def readValue (fuel depth : Nat) (cs : List Char) : Option (Json × List Char) :=
  match fuel with
  | 0 => none
  | fuel + 1 =>
    match skipSpace cs with
    | [] => none
    | '"' :: rest => (readString (rest.length + 1) [] rest).map fun r => (.string r.1, r.2)
    | '[' :: rest =>
      match depth with
      | 0 => none
      | depth + 1 =>
        match skipSpace rest with
        | ']' :: tail => some (.array [], tail)
        | start => (readItems fuel depth start).map fun r => (.array r.1, r.2)
    | c :: rest =>
      if c == '\x7b' then
        match depth with
        | 0 => none
        | depth + 1 =>
          match skipSpace rest with
          | d :: tail =>
            if d == '\x7d' then some (.object [], tail)
            else (readFields fuel depth (d :: tail)).map fun r => (.object (Fields.ofList r.1), r.2)
          | [] => none
      else if c == '-' then (readNumber true rest).map fun r => (.number r.1, r.2)
      else if c.isDigit then (readNumber false (c :: rest)).map fun r => (.number r.1, r.2)
      else if c == 'n' then expect "null".toList .null (c :: rest)
      else if c == 't' then expect "true".toList (.bool true) (c :: rest)
      else if c == 'f' then expect "false".toList (.bool false) (c :: rest)
      else none

/-- The items of an array that holds at least one, through its closing bracket. -/
def readItems (fuel depth : Nat) (cs : List Char) : Option (List Json × List Char) :=
  match fuel with
  | 0 => none
  | fuel + 1 => do
    let (item, rest) ← readValue fuel depth cs
    match skipSpace rest with
    | ',' :: more =>
      let (items, tail) ← readItems fuel depth more
      return (item :: items, tail)
    | ']' :: tail => return ([item], tail)
    | _ => none

/-- The entries of a map that holds at least one, through its closing brace. -/
def readFields (fuel depth : Nat) (cs : List Char) : Option (List (String × Json) × List Char) :=
  match fuel with
  | 0 => none
  | fuel + 1 =>
    match skipSpace cs with
    | '"' :: start => do
      let (key, rest) ← readString (start.length + 1) [] start
      match skipSpace rest with
      | ':' :: more =>
        let (value, tail) ← readValue fuel depth more
        match skipSpace tail with
        | ',' :: again =>
          let (entries, last) ← readFields fuel depth again
          return ((key, value) :: entries, last)
        | c :: last => if c == '\x7d' then return ([(key, value)], last) else none
        | [] => none
      | _ => none
    | _ => none

end

/-- Each opened level and each item costs two steps, and every step but one reads a character. -/
def stepsFor (cs : List Char) : Nat := 2 * cs.length + 2

def readFirst (cs : List Char) : Option (Json × List Char) :=
  readValue (stepsFor cs) maxDepth cs

/-- A whole text as one value; only blanks may follow it. -/
def parse? (s : String) : Option Json :=
  match readFirst s.toList with
  | some (value, rest) => if (skipSpace rest).isEmpty then some value else none
  | none => none

end Folio.Json
