import Folio.Assembly.Footer
import Folio.Pdf.Content
import Folio.Pdf.Stamp
import Folio.Pdf.Stored

/-!
The second pass over a document. Once the total of pages is known, every page gets its footer and
then the stamps, in one overlay.
-/
namespace Folio.Assembly

open Style Pdf

variable {α : Type} [Scalar α]

/-- Draws the footer of a page whose total is known. -/
def drawFooter (measure : String → Font α → α) (f : FooterLayout α) (box : PageBox α)
    (overlay : Overlay α) : Overlay α :=
  if f.appliesTo box.number then
    let text := f.label box.number (some box.total)
    let x := footerX f.align box.width (measure text f.font)
    overlay.text text f.font.baseName f.font.size x footerMargin f.font.color.unit
  else overlay

/-- All that the second pass draws on a page. -/
def pageStamp (measure : String → Font α → α) (footer : Option (FooterLayout α))
    (stamps : List (PageEvent α)) : Stamp α := fun box =>
  let overlay := match footer with
    | some f => drawFooter measure f box .empty
    | none => .empty
  let info : PageInfo α := ⟨box.number, some box.total, box.width, box.height⟩
  stamps.foldl (fun overlay stamp => stamp info overlay) overlay

/-- The stamped document with its total of pages. -/
def stampDocument (stamp : Stamp Single) (doc : Document Single) :
    Except StructureError (Nat × Document Single) :=
  match (stampPages Overlay.encode stamp).run ⟨doc, []⟩ with
  | (.ok (), stamped) => .ok (doc.pages.length, stamped.doc)
  | (.error fault, _) => .error fault

end Folio.Assembly
