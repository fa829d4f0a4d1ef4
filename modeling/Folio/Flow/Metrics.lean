import Folio.Style.Font

/-!
Advance widths of the standard fonts. Courier and the glyph fonts have one width; the others share
one table, widened for bold and narrowed for Times.
-/
namespace Folio.Flow

open Style (Font FontFamily)

/-- Widths of the characters from the space to the tilde, in thousandths of the size. -/
def latinWidths : List Nat :=
  [278, 278, 355, 556, 556, 889, 667, 191, 333, 333, 389, 584, 278, 333, 278, 278,
    556, 556, 556, 556, 556, 556, 556, 556, 556, 556,
    278, 278, 584, 584, 584, 556, 1015,
    667, 667, 722, 722, 667, 611, 778, 722, 278, 500, 667, 556, 833,
    722, 778, 667, 778, 722, 667, 611, 722, 667, 944, 667, 667, 611,
    278, 278, 278, 469, 556, 333,
    556, 556, 500, 556, 556, 278, 556, 556, 222, 222, 500, 222, 833,
    556, 556, 556, 556, 333, 500, 278, 556, 500, 722, 500, 500, 500,
    334, 260, 334, 584]

def fallbackWidth : Nat := 556

def charWidth (family : FontFamily) (c : Char) : Nat :=
  match family with
  | .courier | .symbol | .zapfDingbats => 600
  | .helvetica | .timesRoman =>
    if c.toNat < 32 then fallbackWidth else latinWidths.getD (c.toNat - 32) fallbackWidth

/-- Width of a text in thousandths of the font size. -/
def textUnits (family : FontFamily) (text : List Char) : Nat :=
  text.foldr (fun c units => charWidth family c + units) 0

def textWidth {α : Type} [Scalar α] (text : String) (font : Font α) : α :=
  let plain := (textUnits font.family text.toList : α) / 1000 * font.size
  let narrowed := if font.family = .timesRoman then plain * 0.9 else plain
  if font.style.isBold && font.family != .courier then narrowed * 1.05 else narrowed

@[simp] theorem textUnits_nil (family : FontFamily) : textUnits family [] = 0 := rfl

theorem textUnits_append (family : FontFamily) (s t : List Char) :
    textUnits family (s ++ t) = textUnits family s + textUnits family t := by
  induction s with
  | nil => simp [textUnits]
  | cons c s ih => simp only [textUnits, List.cons_append, List.foldr_cons] at ih ⊢; omega

end Folio.Flow
