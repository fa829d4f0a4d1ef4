import Folio.Style.Context

/-!
Fonts: a standard family, a size, a style and a colour. Attributes are laid over a font one by one,
and a name or value that cannot be read leaves what was there.
-/
namespace Folio.Style

inductive FontFamily where
  | courier | helvetica | timesRoman | symbol | zapfDingbats
  deriving DecidableEq, Repr, Inhabited

inductive FontStyle where
  | normal | bold | italic | boldItalic | underline | strikethru
  deriving DecidableEq, Repr, Inhabited

namespace FontFamily

def name : FontFamily → String
  | courier => "courier"
  | helvetica => "helvetica"
  | timesRoman => "times-roman"
  | symbol => "symbol"
  | zapfDingbats => "zapf-dingbats"

def parse? (s : String) : Option FontFamily :=
  match plainName s with
  | "courier" => some courier
  | "helvetica" => some helvetica
  | "times" | "times-roman" => some timesRoman
  | "symbol" => some symbol
  | "zapfdingbats" | "zapf-dingbats" => some zapfDingbats
  | _ => none

@[simp] theorem parse?_name (f : FontFamily) : parse? f.name = some f := by
  cases f <;> decide +kernel

end FontFamily

namespace FontStyle

def name : FontStyle → String
  | normal => "normal"
  | bold => "bold"
  | italic => "italic"
  | boldItalic => "bold-italic"
  | underline => "underline"
  | strikethru => "strikethru"

def parse? (s : String) : Option FontStyle :=
  match plainName s with
  | "normal" => some normal
  | "bold" => some bold
  | "italic" => some italic
  | "bold-italic" => some boldItalic
  | "underline" => some underline
  | "strikethru" | "line-through" => some strikethru
  | _ => none

@[simp] theorem parse?_name (f : FontStyle) : parse? f.name = some f := by
  cases f <;> decide +kernel

def isBold : FontStyle → Bool
  | bold | boldItalic => true
  | _ => false

def isItalic : FontStyle → Bool
  | italic | boldItalic => true
  | _ => false

end FontStyle

/-- What a run of text is drawn with. -/
structure Font (α : Type) where
  family : FontFamily
  size : α
  style : FontStyle
  color : Color

namespace Font

variable {α : Type} [Scalar α]

instance : BEq (Font α) :=
  ⟨fun a b => a.family == b.family && a.size == b.size && a.style == b.style && a.color == b.color⟩

/-- Ten points of plain black Helvetica. -/
def standard : Font α := ⟨.helvetica, 10, .normal, .black⟩

instance : Inhabited (Font α) := ⟨standard⟩

/-- Lays the font attributes among `attrs` over the font; `style` counts only as a name. -/
def overriddenBy (font : Font α) (attrs : Fields) : Except Color.Fault (Font α) := do
  let family := (Fields.get? "family" attrs).bind fun v => v.asString?.bind FontFamily.parse?
  let size := (Fields.get? "size" attrs).bind scalarOf?
  let style := (Fields.get? "style" attrs).bind fun v => v.asString?.bind FontStyle.parse?
  let color ← Context.color? ⟨attrs⟩ "color"
  return ⟨family.getD font.family, size.getD font.size, style.getD font.style,
    color.getD font.color⟩

def ofContext (c : Context) : Except Color.Fault (Font α) := standard.overriddenBy c.attrs

def withSize (font : Font α) (size : α) : Font α := { font with size }

def withStyle (font : Font α) (style : FontStyle) : Font α := { font with style }

/-- Base name of the standard font that draws it. -/
def baseName (font : Font α) : String :=
  match font.family, font.style.isBold, font.style.isItalic with
  | .courier, false, false => "Courier"
  | .courier, true, false => "Courier-Bold"
  | .courier, false, true => "Courier-Oblique"
  | .courier, true, true => "Courier-BoldOblique"
  | .helvetica, false, false => "Helvetica"
  | .helvetica, true, false => "Helvetica-Bold"
  | .helvetica, false, true => "Helvetica-Oblique"
  | .helvetica, true, true => "Helvetica-BoldOblique"
  | .timesRoman, false, false => "Times-Roman"
  | .timesRoman, true, false => "Times-Bold"
  | .timesRoman, false, true => "Times-Italic"
  | .timesRoman, true, true => "Times-BoldItalic"
  | .symbol, _, _ => "Symbol"
  | .zapfDingbats, _, _ => "ZapfDingbats"

end Font

end Folio.Style
