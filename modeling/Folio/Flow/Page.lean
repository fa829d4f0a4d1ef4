import Folio.Flow.Canvas
import Folio.Flow.Furniture
import Folio.Flow.Line

/-!
The state of a document that is being laid out: pages that are finished, the page that is being
filled, and how far down it is filled. A page break finishes a page with its footer and events and
starts the next one with the header; it happens only where something is on the page already.
-/
namespace Folio.Flow

open Style Pdf

inductive Phase where
  | configuring | opened | closed
  deriving DecidableEq, Repr

/-- The place an anchor's name leads to. -/
structure Destination (α : Type) where
  pageIndex : Nat
  x : α
  y : α

structure Layout (α : Type) where
  geometry : Geometry α
  info : DocumentInfo
  footer : Option (RunningFooter α)
  header : Option String
  /-- In the order in which they run. -/
  events : List (PageEvent α)
  phase : Phase
  /-- Pages in order. -/
  finished : List (Canvas α)
  page : Canvas α
  /-- Height of the top of what is left of the page. -/
  cursor : α
  /-- How far nested content is moved to the right. -/
  inset : α
  destinations : List (String × Destination α)

namespace Layout

variable {α : Type} [Scalar α]

def top (geometry : Geometry α) : α := geometry.height - geometry.margins.top

def initial : Layout α where
  geometry := .standard
  info := .empty
  footer := none
  header := none
  events := []
  phase := .configuring
  finished := []
  page := .blank 1
  cursor := top .standard
  inset := 0
  destinations := []

def left (s : Layout α) : α := s.geometry.margins.left + s.inset

/-- Never less than a point. -/
def availableWidth (s : Layout α) : α := Scalar.larger (s.geometry.contentWidth - s.inset) 1

def remaining (s : Layout α) : α := s.cursor - s.geometry.margins.bottom

def onPage (s : Layout α) (f : Canvas α → Canvas α) : Layout α := { s with page := f s.page }

def lower (s : Layout α) (height : α) : Layout α := { s with cursor := s.cursor - height }

def markContent (s : Layout α) : Layout α := s.onPage fun c => { c with hasContent := true }

/-- A fresh page, with the running header if there is one. -/
def startPage (s : Layout α) (number : Nat) : Layout α :=
  let s := { s with page := .blank number, cursor := top s.geometry }
  match s.header with
  | none => s
  | some header =>
    let font : Font α := .standard
    let x := (s.geometry.width - textWidth header font) / 2
    s.onPage fun c => c.text header font x (s.geometry.height - furnitureOffset)

/-- What is drawn over a page when it is finished: its footer, then every event in turn. -/
def furniture (s : Layout α) : Overlay α :=
  let overlay := match s.footer with
    | some footer => footer.draw s.geometry s.page.number .empty
    | none => .empty
  let info : PageInfo α := ⟨s.page.number, none, s.geometry.width, s.geometry.height⟩
  s.events.foldl (fun overlay event => event info overlay) overlay

def finishPage (s : Layout α) : Layout α :=
  { s with
    finished := s.finished ++ [s.page.cover s.furniture]
    page := .blank (s.page.number + 1) }

def breakPage (s : Layout α) : Layout α := s.finishPage.startPage (s.page.number + 1)

/-- Is there too little room for `needed` on a page that is not empty? -/
def mustBreak (s : Layout α) (needed : α) : Bool :=
  decide (s.remaining < needed) && s.page.hasContent

def ensureSpace (s : Layout α) (needed : α) : Layout α :=
  if s.mustBreak needed then s.breakPage else s

def putDestination (name : String) (d : Destination α) :
    List (String × Destination α) → List (String × Destination α)
  | [] => [(name, d)]
  | (k, v) :: rest => if k == name then (name, d) :: rest else (k, v) :: putDestination name d rest

def addDestination (s : Layout α) (name : String) (x y : α) : Layout α :=
  { s with destinations := putDestination name ⟨s.finished.length, x, y⟩ s.destinations }

/-- How far the foot of a line's box lies below its baseline, as a part of the font size. -/
def descent : α := 0.25

/-- Draws a run of text with its background, its lines and its link. -/
def drawRun (s : Layout α) (style : RunStyle α) (text : String) (x baseline width : α) : Layout α :=
  let font := style.font
  let foot := baseline - font.size * descent
  let s := match style.background with
    | some color => s.onPage fun c => c.fillBox x foot width (font.size * lineHeightFactor) color
    | none => s
  let s := s.onPage fun c => c.text text font x (baseline + style.rise)
  let s := match font.style with
    | .underline =>
      s.onPage fun c => c.line (x, baseline - 1.5) (x + width, baseline - 1.5) 0.5 font.color none
    | .strikethru =>
      let y := baseline + font.size * 0.3
      s.onPage fun c => c.line (x, y) (x + width, y) 0.5 font.color none
    | _ => s
  match style.link with
  | some target =>
    s.onPage fun c => c.addLink ⟨x, foot, x + width, baseline + font.size * 0.9, target⟩
  | none => s

def drawPiece (s : Layout α) (run : InlineRun α) (top baseline : α) : Piece α → Layout α
  | .mark name x => s.addDestination name x top
  | .text style text x width => s.drawRun (run.styleAt style) text x baseline width

/-- Draws a line whose box starts at `top`. -/
def drawLine (s : Layout α) (run : InlineRun α) (line : LineBox α) (x0 width top : α)
    (align : TextAlign) : Layout α :=
  let baseline := top - line.height + line.maxSize * descent
  (line.pieces x0 width align).foldl (fun s p => s.drawPiece run top baseline p) s

/-- Draws a line at the cursor, on the next page if it does not fit. -/
def flowLine (run : InlineRun α) (width : α) (flow : TextFlow α) (s : Layout α)
    (line : LineBox α × Nat) : Layout α :=
  let s := s.ensureSpace line.1.height
  let indent := if line.2 = 0 then flow.firstLineIndent else 0
  let s := s.drawLine run line.1 (s.left + indent) (width - indent) s.cursor flow.align
  (s.lower line.1.height).markContent

/-- Draws inline content as lines; pages break between lines. -/
def flowInline (s : Layout α) (run : InlineRun α) (flow : TextFlow α) : Layout α :=
  if run.tokens.isEmpty then s
  else
    let width := s.availableWidth
    (breakLines run width flow).zipIdx.foldl (flowLine run width flow) s

end Layout

end Folio.Flow
