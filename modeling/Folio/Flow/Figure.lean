import Folio.Flow.Page
import Folio.Pdf.ContentParser
import Folio.Picture.Jpeg

/-!
Blocks that are drawn as a whole: images, drawings, rules, rectangles and empty space. Each moves to
the next page when there is too little room for its height, and lowers the cursor by it. An image
that cannot be put into the document as it is stored is drawn as a crossed frame.
-/
namespace Folio.Flow.Layout

open Style Pdf

variable {α : Type} [Scalar α]

/-- Left edge of a block `width` wide. -/
def blockStart (s : Layout α) (width : α) (align : TextAlign) : α :=
  let slack := s.availableWidth - width
  match align with
  | .center => s.left + Scalar.larger (slack / 2) 0
  | .right => s.left + Scalar.larger slack 0
  | .left | .justified => s.left

/-- The place of a block, by its lower left corner. -/
structure Box (α : Type) where
  x : α
  y : α
  width : α
  height : α

def frameColor : Color := .gray 128

/-- A frame with both diagonals. -/
def drawFrame (s : Layout α) (b : Box α) : Layout α :=
  s.onPage fun c =>
    ((c.strokeBox b.x b.y b.width b.height frameColor 0.5).line
      (b.x, b.y) (b.x + b.width, b.y + b.height) 0.5 frameColor none).line
      (b.x, b.y + b.height) (b.x + b.width, b.y) 0.5 frameColor none

/-- Draws an image of the page as large as the box. -/
def imageOperations (name : String) (b : Box α) : List (Operation α) :=
  [saveState,
    operation "cm" [.real b.width, .integer 0, .integer 0, .real b.height, .real b.x, .real b.y],
    operation "Do" [Obj.nameOf name], restoreState]

def isJpegName (format : String) : Bool := format == "jpg" || format == "jpeg"

/-- An image as it is stored, if it is a JPEG whose size is given or can be read. -/
def embedded? (data : Bytes) (format : String) (pixels : Option (Nat × Nat)) :
    Option EmbeddedImage :=
  let frame := Picture.jpegFrame? data
  let components := (frame.map (·.components)).getD 3
  if isJpegName format then
    (pixels.or (frame.map fun f => (f.width, f.height))).map fun (w, h) => ⟨data, w, h, components⟩
  else none

def placeRaster (s : Layout α) (data : Bytes) (format : String) (pixels : Option (Nat × Nat))
    (b : Box α) : Layout α :=
  match embedded? data format pixels with
  | some image =>
    s.onPage fun c =>
      let (name, c) := c.addImage image
      c.draw (imageOperations name b)
  | none => s.drawFrame b

/-- Draws a block from the cursor down; its width does not matter to the page. -/
def placeBlock (s : Layout α) (height : α) (draw : Layout α → Layout α) : Layout α :=
  ((draw s).lower height).markContent

def addImage (s : Layout α) (image : Image α) : Layout α :=
  let s := s.ensureSpace image.height
  let box : Box α :=
    ⟨s.blockStart image.width image.align, s.cursor - image.height, image.width, image.height⟩
  s.placeBlock image.height fun s =>
    s.placeRaster image.data image.format (some (image.pixelWidth, image.pixelHeight)) box

/-- Operators of a drawing, moved so that its lower left corner is at `(x, y)`. -/
def drawingOperations (x y : α) (ops : List (Operation α)) : List (Operation α) :=
  [saveState,
    operation "cm" [.integer 1, .integer 0, .integer 0, .integer 1, .real x, .real y]]
    ++ ops ++ [restoreState]

/-- Adds a drawing; one whose operators cannot be read changes no more than the page. -/
def addDrawable (s : Layout α) (d : Drawable α) : Except EngineError Unit × Layout α :=
  let s := s.ensureSpace d.height
  let y := s.cursor - d.height
  match d.drawing with
  | .vector content =>
    match decodeOperations? content with
    | some ops =>
      (.ok (), s.placeBlock d.height fun s => s.onPage (·.draw (drawingOperations s.left y ops)))
    | none => (.error .invalidDrawing, s)
  | .raster data format =>
    (.ok (), s.placeBlock d.height fun s =>
      s.placeRaster data format none ⟨s.left, y, d.width, d.height⟩)

/-- What a rule keeps clear above and below it, taken together. -/
def ruleClearance : α := 8

def addRule (s : Layout α) (r : Rule α) : Layout α :=
  let height := r.lineWidth + ruleClearance
  let s := s.ensureSpace height
  let y := s.cursor - height / 2
  let dash := if r.dotted then some (Scalar.larger r.lineWidth 1, r.gap) else none
  let right := s.geometry.width - s.geometry.margins.right
  s.placeBlock height fun s =>
    s.onPage fun c => c.line (s.left, y) (right, y) r.lineWidth r.color dash

/-- Empty lines; where they do not fit they end the page instead. -/
def addSpacer (s : Layout α) (lines : Nat) (leading : α) : Layout α :=
  let height := (lines : α) * leading
  (if s.mustBreak height then s.breakPage else s.lower height).markContent

def addRectangle (s : Layout α) (r : Rectangle α) : Layout α :=
  let s := s.ensureSpace r.height
  let y := s.cursor - r.height
  s.placeBlock r.height fun s =>
    let s := match r.color with
      | some color => s.onPage fun c => c.fillBox s.left y r.width r.height color
      | none => s
    s.onPage fun c => c.strokeBox s.left y r.width r.height r.border 1

/-- A note at the cursor, which takes up no room. -/
def addNote (s : Layout α) (title text : String) : Layout α :=
  (s.onPage fun c => c.addNote ⟨s.left, s.cursor, title, text⟩).markContent

end Folio.Flow.Layout
