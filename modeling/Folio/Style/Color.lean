import Folio.Json.Printer
import Folio.Scalar
import Folio.Text.Blank

/-!
Opaque colours, written as three channels or as `#` with three or six hexadecimal digits. The
digits are cut out by bytes, a `+` may stand for the first digit of a pair, and a cut that would go
through a character is told apart from a text that is merely no colour.
-/
namespace Folio.Style

structure Color where
  red : UInt8
  green : UInt8
  blue : UInt8
  deriving DecidableEq, Repr, Inhabited

namespace Color

def black : Color := ⟨0, 0, 0⟩
def gray (level : UInt8) : Color := ⟨level, level, level⟩

/-- The channels on a scale from nought to one. -/
def unit {α : Type} [Scalar α] (c : Color) : List α :=
  [c.red, c.green, c.blue].map fun channel => (channel.toNat : α) / 255

def byteDigits (b : UInt8) : List Char := [hexDigit (b.toNat / 16), hexDigit (b.toNat % 16)]

/-- Six hexadecimal digits behind a number sign. -/
def text (c : Color) : String :=
  String.ofList ('#' :: byteDigits c.red ++ byteDigits c.green ++ byteDigits c.blue)

/-- Why a value is neither a colour nor none. -/
inductive Fault where
  /-- A channel would begin or end inside a character. -/
  | cutCharacter
  deriving DecidableEq, Repr

def Fault.reason : Fault → String
  | cutCharacter => "a color cuts through a character"

/-- A channel keeps within its range and loses its fraction. -/
def channel (x : Float) : UInt8 :=
  (if x < 0 then 0 else if 255 < x then 255 else x).toUInt8

/-- A piece of a text of UTF-8 bytes: whole characters, or a cut through one. -/
def cutBytes : List Char → Nat → Option (List Char × List Char)
  | cs, 0 => some ([], cs)
  | [], _ + 1 => none
  | c :: cs, n + 1 =>
    if c.utf8Size ≤ n + 1 then
      (cutBytes cs (n + 1 - c.utf8Size)).map fun r => (c :: r.1, r.2)
    else none
termination_by cs => cs.length

def hexDigit? (c : Char) : Option Nat :=
  if c.isDigit then some (c.toNat - 48)
  else if 'a' ≤ c && c ≤ 'f' then some (c.toNat - 87)
  else if 'A' ≤ c && c ≤ 'F' then some (c.toNat - 55)
  else none

/-- Two hexadecimal digits, or a plus sign and one. -/
def pair? : List Char → Option UInt8
  | [a, b] =>
    if a == '+' then (hexDigit? b).map Nat.toUInt8
    else do return ((← hexDigit? a) * 16 + (← hexDigit? b)).toUInt8
  | _ => none

/-- The channels from left to right, each of `width` bytes; the first one that fails decides. -/
def channels (width : Nat) : Nat → List Char → Except Fault (Option (List UInt8))
  | 0, _ => .ok (some [])
  | n + 1, cs =>
    match cutBytes cs width with
    | none => .error .cutCharacter
    | some (piece, rest) =>
      match pair? (if width = 1 then piece ++ piece else piece) with
      | none => .ok none
      | some value => (channels width n rest).map fun values => values.map (value :: ·)

def ofChannels? : List UInt8 → Option Color
  | [red, green, blue] => some ⟨red, green, blue⟩
  | _ => none

def ofHex (s : String) : Except Fault (Option Color) :=
  match (Text.trim s).toList with
  | '#' :: digits =>
    let size := (String.ofList digits).utf8ByteSize
    if size = 3 || size = 6 then (channels (size / 3) 3 digits).map fun values =>
      values.bind ofChannels?
    else .ok none
  | _ => .ok none

/-- The colour that a value writes, if it writes one. -/
def read : Json → Except Fault (Option Color)
  | .array [.number r, .number g, .number b] =>
    .ok (some ⟨channel r.toFloat, channel g.toFloat, channel b.toFloat⟩)
  | .string s => ofHex s
  | _ => .ok none

end Color

end Folio.Style
