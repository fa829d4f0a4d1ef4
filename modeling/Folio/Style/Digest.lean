import Folio.Json.Digest
import Folio.Style.Font
import Folio.Style.Page

/-!
The byte streams that stand for fonts, margins and page sizes. Numbers stand as their bits, and a
page size as its width and height, whether it has a name or not.
-/
namespace Folio

/-- The bits of a number as four bytes, the lowest first. -/
def Single.stream (x : Single) : List UInt8 :=
  let bits := x.toBits
  [bits.toUInt8, (bits >>> 8).toUInt8, (bits >>> 16).toUInt8, (bits >>> 24).toUInt8]

@[simp] theorem Single.length_stream (x : Single) : (Single.stream x).length = 4 := rfl

namespace Style

def FontFamily.stream (family : FontFamily) : List UInt8 := lengthBytes family.ctorIdx

def FontStyle.stream (style : FontStyle) : List UInt8 := lengthBytes style.ctorIdx

def Color.stream (c : Color) : List UInt8 := [c.red, c.green, c.blue]

def Font.stream (font : Font Single) : List UInt8 :=
  font.family.stream ++ Single.stream font.size ++ font.style.stream ++ font.color.stream

def Margins.stream (m : Margins Single) : List UInt8 :=
  Single.stream m.top ++ Single.stream m.right ++ Single.stream m.bottom ++ Single.stream m.left

def PageSize.stream (size : PageSize Single) : List UInt8 :=
  Single.stream size.dimensions.1 ++ Single.stream size.dimensions.2

end Style

end Folio
