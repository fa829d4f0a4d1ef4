import Folio.Pdf.Content
import Folio.Style.Font

/-!
Drawing primitives: text, lines and boxes as operations of a content stream, and overlays, which
gather the operations for one page together with the fonts they use.
-/
namespace Folio.Pdf

variable {α : Type} [Scalar α]

/-- Three components from nought to one. -/
abbrev Rgb (α : Type) := List α

def operation (operator : String) (operands : List (Obj α)) : Operation α := ⟨operator, operands⟩

def reals (xs : List α) : List (Obj α) := xs.map .real

def saveState : Operation α := operation "q" []
def restoreState : Operation α := operation "Q" []

/-- One line of text with the start of its baseline at `(x, y)`. -/
def textOperations (text baseFont : String) (size x y : α) (color : Rgb α) : List (Operation α) :=
  [operation "BT" [],
    operation "Tf" [Obj.nameOf (fontResourceName baseFont), .real size],
    operation "rg" (reals color),
    operation "Td" (reals [x, y]),
    operation "Tj" [Obj.textOf text],
    operation "ET" []]

def dashOperations : Option (α × α) → List (Operation α)
  | some (on, off) => [operation "d" [.array (reals [on, off]), .integer 0]]
  | none => []

/-- A straight line, perhaps dashed. -/
def lineOperations (start finish : α × α) (width : α) (color : Rgb α) (dash : Option (α × α)) :
    List (Operation α) :=
  [saveState, operation "w" [.real width], operation "RG" (reals color)] ++ dashOperations dash
    ++ [operation "m" (reals [start.1, start.2]), operation "l" (reals [finish.1, finish.2]),
      operation "S" [], restoreState]

/-- What paints a box: both its inside and its edge, or one of them. -/
def paintOperator (fill stroke : Bool) : String :=
  if fill && stroke then "B" else if fill then "f" else "S"

/-- A box with its lower left corner at `(x, y)`; nothing without a colour. -/
def boxOperations (x y width height : α) (fill stroke : Option (Rgb α)) : List (Operation α) :=
  if fill.isNone && stroke.isNone then []
  else
    [saveState] ++ (fill.map fun c => operation "rg" (reals c)).toList
      ++ (stroke.map fun c => operation "RG" (reals c)).toList
      ++ [operation "re" (reals [x, y, width, height]),
        operation (paintOperator fill.isSome stroke.isSome) [], restoreState]

/-- Puts a name into a list in rising order, unless it is there. -/
def insertName (name : String) : List String → List String
  | [] => [name]
  | k :: rest =>
    if name == k then k :: rest
    else if name < k then name :: k :: rest
    else k :: insertName name rest

/-- Operations for one page, with the base names of their fonts in rising order. -/
structure Overlay (α : Type) where
  operations : List (Operation α)
  fonts : List String

namespace Overlay

def empty : Overlay α := ⟨[], []⟩

def isEmpty (o : Overlay α) : Bool := o.operations.isEmpty

def text (o : Overlay α) (text baseFont : String) (size x y : α) (color : Rgb α) : Overlay α :=
  ⟨o.operations ++ textOperations text baseFont size x y color, insertName baseFont o.fonts⟩

def line (o : Overlay α) (start finish : α × α) (width : α) (color : Rgb α)
    (dash : Option (α × α)) : Overlay α :=
  { o with operations := o.operations ++ lineOperations start finish width color dash }

def box (o : Overlay α) (x y width height : α) (fill stroke : Option (Rgb α)) : Overlay α :=
  { o with operations := o.operations ++ boxOperations x y width height fill stroke }

/-- The operations between saving and restoring the graphics state. -/
def wrapped (o : Overlay α) : List (Operation α) := saveState :: o.operations ++ [restoreState]

def encode (o : Overlay Single) : Bytes := encodeOperations o.wrapped

omit [Scalar α] in
@[simp] theorem isEmpty_empty : (empty : Overlay α).isEmpty = true := rfl

end Overlay

/-- A page that is being drawn on; the number of pages is known only once all are there. -/
structure PageInfo (α : Type) where
  number : Nat
  total : Option Nat
  width : α
  height : α

/-- A hook that draws on every page. -/
abbrev PageEvent (α : Type) := PageInfo α → Overlay α → Overlay α

end Folio.Pdf
