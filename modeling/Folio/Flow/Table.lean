import Folio.Flow.Page

/-!
Tables, row by row. A row walks over the columns and leaves out the cells for which no column is
left; its height is that of its tallest cell. A row that does not fit opens a new page, which begins
with the header again.
-/
namespace Folio.Flow

open Style

variable {α : Type} [Scalar α]

/-- One width for each column, in proportion if the table gives any. -/
def columnWidths (style : TableStyle α) (total : α) : List α :=
  let columns := max 1 style.columns
  let even := List.replicate columns (total / (columns : α))
  match style.widths with
  | some widths =>
    let sum := Scalar.sum widths
    if widths.length = columns && decide ((0 : α) < sum) then
      widths.map fun w => w / sum * total
    else even
  | none => even

/-- A cell as inline content; a block inside it is reduced to its text. -/
def cellRun (cell : Cell α) : InlineRun α :=
  match collectInline none .empty cell.content with
  | some run => run
  | none =>
    InlineRun.empty.pushText cell.content.textContent
      (.plain (cell.content.firstFont?.getD .standard) none)

/-- The columns that a cell takes up. -/
structure Slot (α : Type) where
  cell : Cell α
  first : Nat
  span : Nat

/-- Walks over the columns; a cell spans at least one and at most those that are left. -/
def slots (columns first : Nat) : List (Cell α) → List (Slot α)
  | [] => []
  | cell :: rest =>
    if columns ≤ first then []
    else
      let span := min (max 1 cell.style.colspan) (columns - first)
      ⟨cell, first, span⟩ :: slots columns (first + span) rest

/-- A cell with its lines and its place in a row. -/
structure Placed (α : Type) where
  cell : Cell α
  x : α
  width : α
  run : InlineRun α
  lines : List (LineBox α)
  height : α

def innerWidth (cell : Cell α) (width : α) : α :=
  Scalar.larger (width - 2 * cell.style.padding) 1

def placeSlot (x0 : α) (widths : List α) (slot : Slot α) : Placed α :=
  let width := Scalar.sum ((widths.drop slot.first).take slot.span)
  let x := x0 + Scalar.sum (widths.take slot.first)
  let run := cellRun slot.cell
  let flow : TextFlow α := { TextFlow.plain with align := slot.cell.style.align }
  let lines := breakLines run (innerWidth slot.cell width) flow
  ⟨slot.cell, x, width, run, lines, linesHeight lines⟩

def placeRow (x0 : α) (widths : List α) (cells : List (Cell α)) : List (Placed α) :=
  (slots widths.length 0 cells).map (placeSlot x0 widths)

/-- The tallest cell, or the table's padding if that is more. -/
def rowHeight (style : TableStyle α) (placed : List (Placed α)) : α :=
  Scalar.larger
    (Scalar.greatest 0 (placed.map fun p => p.height + 2 * p.cell.style.padding))
    (style.padding * 2 + 1)

/-- Height of the first line of a cell below the top of its row, its padding apart. -/
def verticalOffset (valign : VerticalAlign) (free : α) : α :=
  match valign with
  | .top => 0
  | .middle => free / 2
  | .bottom => free

namespace Layout

/-- Lines of a cell from `top` down. -/
def drawLines (run : InlineRun α) (x width : α) (align : TextAlign) (s : Layout α) (top : α) :
    List (LineBox α) → Layout α
  | [] => s
  | line :: rest =>
    drawLines run x width align (s.drawLine run line x width top align) (top - line.height) rest

def drawCell (style : TableStyle α) (top height : α) (s : Layout α) (p : Placed α) : Layout α :=
  let look := p.cell.style
  let bottom := top - height
  let s := match look.background with
    | some color => s.onPage fun c => c.fillBox p.x bottom p.width height color
    | none => s
  let s := if look.border && style.border then
      s.onPage fun c => c.strokeBox p.x bottom p.width height .black 0.5
    else s
  let free := height - 2 * look.padding - p.height
  let lineTop := top - look.padding - verticalOffset look.valign free
  drawLines p.run (p.x + look.padding) (innerWidth p.cell p.width) look.align s lineTop p.lines

def addRow (style : TableStyle α) (x0 : α) (widths : List α) (s : Layout α)
    (cells : List (Cell α)) : Layout α :=
  let placed := placeRow x0 widths cells
  let height := rowHeight style placed
  let top := s.cursor
  let s := placed.foldl (drawCell style top height) s
  { s with cursor := top - height }.markContent

/-- What a row is expected to need, its cells taken as they are. -/
def rowEstimate (widths : List α) (cells : List (Cell α)) : α :=
  Scalar.greatest 0 ((slots widths.length 0 cells).map fun slot =>
    let width := Scalar.sum ((widths.drop slot.first).take slot.span)
    linesHeight (breakLines (cellRun slot.cell) (innerWidth slot.cell width) .plain)
      + 2 * slot.cell.style.padding)

/-- A row of the body, on a new page behind the header if it does not fit. -/
def addBodyRow (style : TableStyle α) (header : List (Cell α)) (x0 : α) (widths : List α)
    (s : Layout α) (row : List (Cell α)) : Layout α :=
  let s := if s.mustBreak (rowEstimate widths row) then
      let s := s.breakPage
      if header.isEmpty then s else addRow style x0 widths s header
    else s
  addRow style x0 widths s row

def tableStart (s : Layout α) (align : TextAlign) (available total : α) : α :=
  match align with
  | .left | .justified => s.left
  | .center => s.left + (available - total) / 2
  | .right => s.left + available - total

def addTable (s : Layout α) (style : TableStyle α) (header : List (Cell α))
    (rows : List (List (Cell α))) : Layout α :=
  let available := s.availableWidth
  let total := available * Scalar.within 0.01 1.0 (style.widthPercent / 100)
  let x0 := s.tableStart style.align available total
  let widths := columnWidths style total
  let s := if header.isEmpty then s
    else addRow style x0 widths (s.ensureSpace (rowEstimate widths header)) header
  (rows.foldl (addBodyRow style header x0 widths) s).lower style.spacing

end Layout

end Folio.Flow
