import Folio.Flow.Figure
import Folio.Flow.Table

/-!
Blocks within blocks: paragraphs, lists, chapters and sections. Each block adds what is its own and
hands its parts on in order; content that is indented moves the inset to the right and back again.
The only failure is a drawing that cannot be read, and what was drawn before it stays.
-/
namespace Folio.Flow

open Style

abbrev FlowM (α : Type) := EngineM (Layout α)

variable {α : Type} [Scalar α]

/-- Runs `act` with the inset moved by `width`, and moves it back whatever comes of it. -/
def indented (width : α) (act : FlowM α Unit) : FlowM α Unit := fun s =>
  let (result, after) := act.run { s with inset := s.inset + width }
  (result, { after with inset := after.inset - width })

namespace Layout

/-- Moves to the next page if all lines of a paragraph fit on one page but not on this one. -/
def keepTogether (s : Layout α) (flow : TextFlow α) (children : List (Node α)) : Layout α :=
  match collectAll .empty children with
  | some run =>
    let height := linesHeight (breakLines run s.availableWidth flow)
    if height ≤ s.geometry.contentHeight then s.ensureSpace height else s
  | none => s

def openParagraph (s : Layout α) (style : BlockStyle α) (flow : TextFlow α)
    (children : List (Node α)) : Layout α :=
  let s := if s.page.hasContent then s.lower style.spacingBefore else s
  let s := { s with inset := s.inset + style.indent }
  if style.keepTogether then s.keepTogether flow children else s

def closeParagraph (s : Layout α) (style : BlockStyle α) : Layout α :=
  { s with inset := s.inset - style.indent }.lower style.spacingAfter

end Layout

def flowOf (style : BlockStyle α) : TextFlow α :=
  ⟨style.align, style.leading, style.firstLineIndent⟩

/-- How far the items of a list stand in, unless the list says it. -/
def standardListIndent : α := 20

def listIndent (style : ListStyle α) : α :=
  if (0 : α) < style.indent then style.indent else standardListIndent

/-- Labels have the font of their list, in a glyph font if they are glyphs. -/
def labelFont (style : ListStyle α) : Font α :=
  { style.font with family := style.kind.family?.getD style.font.family }

/-- Where a label was drawn: its page and the foot of its line. -/
structure LabelPlace (α : Type) where
  page : Nat
  foot : α

namespace Layout

/-- Draws the label of an item at the cursor, which stays where it is. -/
def drawLabel (s : Layout α) (style : ListStyle α) (index : Nat) : LabelPlace α × Layout α :=
  let font := labelFont style
  let height := font.size * lineHeightFactor
  let s := s.ensureSpace height
  let baseline := s.cursor - height + font.size * descent
  let label := style.kind.label index style.lowercase
  (⟨s.page.number, baseline - font.size * descent⟩,
    s.onPage fun c => c.text label font s.left baseline)

/-- An item takes up the line of its label at least. -/
def closeItem (s : Layout α) (label : LabelPlace α) : Layout α :=
  let s := if s.page.number = label.page && decide (label.foot < s.cursor) then
      { s with cursor := label.foot }
    else s
  s.markContent

end Layout

/-- The nodes of a title, which is itself one of them unless it is a paragraph. -/
def titleNodes : Node α → List (Node α)
  | .paragraph _ children => children
  | title => [title]

def titleLeading : Node α → Option α
  | .paragraph style _ => style.leading
  | _ => none

/-- A title behind its label; a block in it is reduced to its text. -/
def titleRun (label : String) (title : Node α) (font : Font α) : InlineRun α :=
  let start := if label.isEmpty then .empty
    else InlineRun.empty.pushText (label ++ " ") (.plain font none)
  collectChildren font none start (titleNodes title)

def Layout.addTitle (s : Layout α) (label : String) (title : Node α) (fallback : Font α) :
    Layout α :=
  let font := title.firstFont?.getD fallback
  let flow : TextFlow α := { TextFlow.plain with leading := titleLeading title }
  (s.flowInline (titleRun label title font) flow).lower (font.size * 0.5)

def chapterFont : Font α := (Font.standard.withSize 16).withStyle .bold
def sectionFont : Font α := (Font.standard.withSize 12).withStyle .bold

/-- Opens a chapter on a fresh page. -/
def Layout.openChapter (s : Layout α) (number : Nat) (title : Node α) : Layout α :=
  let s := if s.page.hasContent then s.breakPage else s
  s.addTitle (toString number ++ ".") title chapterFont

/-- An inline node as a block of its own. -/
def Layout.addInline (s : Layout α) (n : Node α) : Layout α :=
  s.flowInline ((collectInline none .empty n).getD .empty) .plain

mutual

def addBlock : Node α → FlowM α Unit
  | .paragraph style children => do
    modify (·.openParagraph style (flowOf style) children)
    addMixed (flowOf style) .empty children
    modify (·.closeParagraph style)
  | .list style items => addItems style 1 items
  | .table style header rows | .gridTable style header rows =>
    modify (·.addTable style header rows)
  | .cell c | .gridCell c => addCell c
  | .image image => modify (·.addImage image)
  | .chart d | .vectorGraphic d => fun s => s.addDrawable d
  | .chapter number title children => do
    modify (·.openChapter number title)
    addBlocks children
  | .subsection number indent title children => do
    modify (·.addTitle (sectionLabel number) title sectionFont)
    indented indent (addBlocks children)
  | .note title text => modify (·.addNote title text)
  | .rule r => modify (·.addRule r)
  | .spacer lines leading => modify (·.addSpacer lines leading)
  | .rectangle r => modify (·.addRectangle r)
  | .reference _ target => addBlock target
  | .text run => modify (·.addInline (.text run))
  | .subscript run => modify (·.addInline (.subscript run))
  | .superscript run => modify (·.addInline (.superscript run))
  | .phrase style children => modify (·.addInline (.phrase style children))
  | .anchor ends shape content => modify (·.addInline (.anchor ends shape content))

def addBlocks : List (Node α) → FlowM α Unit
  | [] => return ()
  | n :: ns => do
    addBlock n
    addBlocks ns

def addCell : Cell α → FlowM α Unit
  | .mk _ content => addBlock content

/-- Inline children run together to lines; each block ends the lines before it. -/
def addMixed (flow : TextFlow α) (run : InlineRun α) : List (Node α) → FlowM α Unit
  | [] => modify (·.flowInline run flow)
  | n :: ns =>
    match collectInline none run n with
    | some run => addMixed flow run ns
    | none => do
      modify (·.flowInline run flow)
      addBlock n
      addMixed flow .empty ns

def addItem : ListItem α → FlowM α Unit
  | .chunk n | .phrase n => addBlock n

/-- Items from the `index`-th on, each behind its label. -/
def addItems (style : ListStyle α) (index : Nat) : List (ListItem α) → FlowM α Unit
  | [] => return ()
  | item :: rest => do
    let label ← modifyGet (·.drawLabel style index)
    indented (listIndent style) (addItem item)
    modify (·.closeItem label)
    addItems style (index + 1) rest

end

end Folio.Flow
