import Folio.Style.Font

/-!
Labels of list items. Letters count in base twenty-six without a nought, and a Roman numeral takes
the largest symbol that still fits; `readAlphabetic` and `readRoman` are the readings that undo
them.
-/
namespace Folio

/-- Letters of a number: those of what twenty-six leaves, then one more. -/
def alphabeticChars (n : Nat) : List Char :=
  if _h : n = 0 then []
  else alphabeticChars ((n - 1) / 26) ++ [Char.ofNat (65 + (n - 1) % 26)]
termination_by n
decreasing_by omega

/-- `A` for one, `Z` for twenty-six, `AA` for twenty-seven. -/
def alphabetic (n : Nat) : String := String.ofList (alphabeticChars n)

/-- The number that a row of capital letters stands for. -/
def readAlphabetic (cs : List Char) : Nat :=
  cs.foldl (fun n c => 26 * n + (c.toNat - 64)) 0

def romanSymbols : List (Nat × List Char) :=
  [(1000, ['M']), (900, ['C', 'M']), (500, ['D']), (400, ['C', 'D']), (100, ['C']),
    (90, ['X', 'C']), (50, ['L']), (40, ['X', 'L']), (10, ['X']), (9, ['I', 'X']), (5, ['V']),
    (4, ['I', 'V']), (1, ['I'])]

/-- Each symbol as often as it still fits, from the largest down. -/
def romanChars : List (Nat × List Char) → Nat → List Char
  | [], _ => []
  | (value, symbol) :: rest, n =>
    (List.replicate (n / value) symbol).flatten ++ romanChars rest (n % value)

def roman (n : Nat) : String := String.ofList (romanChars romanSymbols n)

def romanValue : Char → Nat
  | 'I' => 1
  | 'V' => 5
  | 'X' => 10
  | 'L' => 50
  | 'C' => 100
  | 'D' => 500
  | 'M' => 1000
  | _ => 0

/-- A symbol smaller than the one behind it is taken off. -/
def readRoman : List Char → Int
  | [] => 0
  | [c] => romanValue c
  | c :: d :: rest =>
    (if romanValue c < romanValue d then -(romanValue c : Int) else romanValue c)
      + readRoman (d :: rest)

/-- How the items of a list are labelled. -/
inductive ListKind where
  | roman
  | greek
  | dingbat (glyph : UInt8)
  | dingbatNumber (first : UInt8)
  | lettered
  | numbered
  | bulleted (symbol : String)
  deriving DecidableEq, Repr

namespace ListKind

def glyphText (code : Nat) : String := String.ofList [Char.ofNat code]

def dotted (text : String) (lowercase : Bool) : String :=
  (if lowercase then text.toLower else text) ++ "."

/-- Label of the `index`-th item, counted from one; circled digits come round after ten. -/
def label (kind : ListKind) (index : Nat) (lowercase : Bool) : String :=
  match kind with
  | roman => dotted (Folio.roman index) lowercase
  | greek | lettered => dotted (alphabetic index) lowercase
  | dingbat glyph => glyphText glyph.toNat
  | dingbatNumber first => glyphText (min 255 (first.toNat + (index - 1) % 10))
  | numbered => toString index ++ "."
  | bulleted symbol => symbol

/-- The family for labels that are glyph codes. -/
def family? : ListKind → Option Style.FontFamily
  | greek => some .symbol
  | dingbat _ | dingbatNumber _ => some .zapfDingbats
  | _ => none

end ListKind

@[simp] theorem alphabetic_zero : alphabetic 0 = "" := by
  unfold alphabetic alphabeticChars
  rfl

@[simp] theorem roman_zero : roman 0 = "" := rfl

end Folio
