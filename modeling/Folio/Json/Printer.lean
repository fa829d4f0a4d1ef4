import Folio.Json.Value
import Folio.Decimal.Shortest

/-!
The compact text of a data value: no blanks, maps in the order of their keys, and in a string only
the quote, the backslash and the characters below the space escaped.
-/
namespace Folio

def hexDigit (n : Nat) : Char :=
  if n < 10 then Char.ofNat (48 + n) else Char.ofNat (87 + n)

namespace Number

def text : Number → String
  | whole n => toString n.toNat
  | negative n => toString n.toInt
  | real x => Decimal.dataText Decimal.double x.toBits.toNat

end Number

namespace Json

def escapeChar (c : Char) : List Char :=
  match c with
  | '"' => ['\\', '"']
  | '\\' => ['\\', '\\']
  | '\n' => ['\\', 'n']
  | '\r' => ['\\', 'r']
  | '\t' => ['\\', 't']
  | c =>
    if c.toNat == 8 then ['\\', 'b']
    else if c.toNat == 12 then ['\\', 'f']
    else if c.toNat < 32 then
      ['\\', 'u', '0', '0', hexDigit (c.toNat / 16), hexDigit (c.toNat % 16)]
    else [c]

def quoted (s : String) : String :=
  String.ofList ('"' :: s.toList.flatMap escapeChar ++ ['"'])

mutual

def text : Json → String
  | null => "null"
  | bool b => if b then "true" else "false"
  | number n => n.text
  | string s => quoted s
  | array items => "[" ++ textItems items ++ "]"
  | object fields => "\x7b" ++ textFields fields ++ "\x7d"

def textItems : List Json → String
  | [] => ""
  | [x] => text x
  | x :: xs => text x ++ "," ++ textItems xs

def textFields : List (String × Json) → String
  | [] => ""
  | [(k, x)] => quoted k ++ ":" ++ text x
  | (k, x) :: fs => quoted k ++ ":" ++ text x ++ "," ++ textFields fs

end

end Json

end Folio
