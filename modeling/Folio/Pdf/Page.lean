import Folio.Pdf.Document

/-!
What a reader finds on a page of a document: its content streams in order, and the fonts, images and
links that its resources and entries lead to, whether they stand in the page or behind a reference.
-/
namespace Folio.Pdf.Document

variable {α : Type}

def valueUnder (key : String) (d : Dict α) : Option (Obj α) := Dict.get? (bytesOf key) d

/-- A dictionary, there or behind a reference; empty if it is none. -/
def dictOf (doc : Document α) : Option (Obj α) → Dict α
  | some (.dictionary d) => d
  | some (.reference number _) => (doc.getDict? number).getD []
  | _ => []

/-- The stream that a reference leads to. -/
def streamOf (doc : Document α) : Obj α → Option (Dict α × Bytes)
  | .reference number _ =>
    match doc.get number with
    | .ok (.stream d content) => some (d, content)
    | _ => none
  | _ => none

/-- The objects that an entry gives, one or several. -/
def oneOrMore : Option (Obj α) → List (Obj α)
  | some (.array items) => items
  | some o => [o]
  | none => []

def pageContents (doc : Document α) (page : Dict α) : List Bytes :=
  (oneOrMore (valueUnder "Contents" page)).filterMap fun o => (doc.streamOf o).map (·.2)

def pageResources (doc : Document α) (kind : String) (page : Dict α) : Dict α :=
  doc.dictOf (valueUnder kind (doc.dictOf (valueUnder "Resources" page)))

/-- Base names of the fonts of a page, by resource name. -/
def pageFonts (doc : Document α) (page : Dict α) : List (Bytes × Option Bytes) :=
  (doc.pageResources "Font" page).map fun (name, font) =>
    (name, match valueUnder "BaseFont" (doc.dictOf (some font)) with
      | some (.name base) => some base
      | _ => none)

/-- Images of a page, by resource name. -/
def pageImages (doc : Document α) (page : Dict α) : List (Bytes × Dict α × Bytes) :=
  (doc.pageResources "XObject" page).filterMap fun (name, image) =>
    (doc.streamOf image).map fun stream => (name, stream)

/-- The links and notes of a page, unless one of them is missing. -/
def pageAnnots? (doc : Document α) (page : Dict α) : Option (List (Dict α)) :=
  (oneOrMore (valueUnder "Annots" page)).mapM fun
    | .reference number _ => doc.getDict? number
    | o => o.asDict?

/-- What the document says of itself, unless it is missing. -/
def infoEntries? (doc : Document α) : Option (Dict α) := doc.info.bind doc.getDict?

end Folio.Pdf.Document
