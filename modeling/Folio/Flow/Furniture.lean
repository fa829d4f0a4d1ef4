import Folio.Engine.Basic
import Folio.Flow.Metrics

/-!
What stands on a page outside its margins: a running header at the top and a running footer at the
bottom, with the page number but not the total.
-/
namespace Folio

open Style Pdf

namespace Flow

variable {α : Type} [Scalar α]

/-- Distance of header and footer baselines from the edge of the page. -/
def furnitureOffset : α := 20

def footerStart (align : TextAlign) (pageWidth width : α) : α :=
  match align with
  | .left | .justified => furnitureOffset
  | .center => (pageWidth - width) / 2
  | .right => pageWidth - furnitureOffset - width

end Flow

namespace RunningFooter

variable {α : Type}

/-- The footer's text, its page number behind it, or the number alone. -/
def label (f : RunningFooter α) (page : Nat) : String :=
  if !f.pageNumbers then f.text
  else if f.text.isEmpty then toString page
  else f.text ++ " " ++ toString page

/-- Draws the footer of a page; pages before its first one have none. -/
def draw [Scalar α] (f : RunningFooter α) (geometry : Geometry α) (page : Nat)
    (overlay : Overlay α) : Overlay α :=
  if page < f.startPage then overlay
  else
    let text := f.label page
    let x := Flow.footerStart f.align geometry.width (Flow.textWidth text f.font)
    overlay.text text f.font.baseName f.font.size x Flow.furnitureOffset f.font.color.unit

end RunningFooter

end Folio
