import Folio.Pdf.Overlay

/-!
One page on the way: the operations drawn so far, the fonts and images they use, and the links and
notes that lie over them. Content counts only when it is part of the document's body.
-/
namespace Folio.Flow

open Style Pdf

/-- A hot spot, by the corners of its box. -/
structure Link (α : Type) where
  left : α
  bottom : α
  right : α
  top : α
  /-- An address, or `#` and the name of a destination. -/
  target : String

structure Note (α : Type) where
  x : α
  y : α
  title : String
  text : String

/-- An image that is drawn as it is stored. -/
structure EmbeddedImage where
  data : Bytes
  width : Nat
  height : Nat
  components : Nat
  deriving DecidableEq, Repr

structure Canvas (α : Type) where
  number : Nat
  operations : List (Operation α)
  /-- Base names in rising order. -/
  fonts : List String
  links : List (Link α)
  notes : List (Note α)
  images : List EmbeddedImage
  hasContent : Bool

namespace Canvas

variable {α : Type}

def blank (number : Nat) : Canvas α := ⟨number, [], [], [], [], [], false⟩

def draw (c : Canvas α) (ops : List (Operation α)) : Canvas α :=
  { c with operations := c.operations ++ ops }

def useFont (c : Canvas α) (baseFont : String) : Canvas α :=
  { c with fonts := insertName baseFont c.fonts }

def addLink (c : Canvas α) (link : Link α) : Canvas α := { c with links := c.links ++ [link] }

def addNote (c : Canvas α) (note : Note α) : Canvas α := { c with notes := c.notes ++ [note] }

/-- Resource name of the `index`-th image of a page, counted from one. -/
def imageName (index : Nat) : String := "Im" ++ toString index

/-- Adds an image and gives its resource name. -/
def addImage (c : Canvas α) (image : EmbeddedImage) : String × Canvas α :=
  (imageName (c.images.length + 1), { c with images := c.images ++ [image] })

variable [Scalar α]

def text (c : Canvas α) (text : String) (font : Font α) (x y : α) : Canvas α :=
  (c.useFont font.baseName).draw
    (textOperations text font.baseName font.size x y font.color.unit)

def fillBox (c : Canvas α) (x y width height : α) (color : Color) : Canvas α :=
  c.draw [saveState, operation "rg" (reals color.unit),
    operation "re" (reals [x, y, width, height]), operation "f" [], restoreState]

def strokeBox (c : Canvas α) (x y width height : α) (color : Color) (lineWidth : α) : Canvas α :=
  c.draw [saveState, operation "w" [.real lineWidth], operation "RG" (reals color.unit),
    operation "re" (reals [x, y, width, height]), operation "S" [], restoreState]

def line (c : Canvas α) (start finish : α × α) (width : α) (color : Color)
    (dash : Option (α × α)) : Canvas α :=
  c.draw (lineOperations start finish width color.unit dash)

/-- Puts an overlay on top, between saving and restoring the graphics state. -/
def cover (c : Canvas α) (overlay : Overlay α) : Canvas α :=
  if overlay.isEmpty then c
  else overlay.fonts.foldl useFont (c.draw overlay.wrapped)

end Canvas

end Folio.Flow
