import Folio.Node.Label
import Folio.Style.Align

/-!
The compiled document: a tree of blocks and inline content with every style resolved, ready to be
laid out. Styles stand beside the children they apply to, so that the tree is the children alone.
`Node.textContent` is all text of a node in reading order, a table's header before its rows.
-/
namespace Folio

open Style

/-- A run of text in one font. -/
structure TextRun (α : Type) where
  text : String
  font : Font α
  background : Option Color

structure BlockStyle (α : Type) where
  font : Font α
  align : TextAlign
  /-- Distance of baselines; without one it follows from the font. -/
  leading : Option α
  indent : α
  firstLineIndent : α
  spacingBefore : α
  spacingAfter : α
  keepTogether : Bool

structure PhraseStyle (α : Type) where
  font : Font α
  leading : Option α

structure ListStyle (α : Type) where
  kind : ListKind
  lowercase : Bool
  indent : α
  font : Font α

structure CellStyle (α : Type) where
  colspan : Nat
  rowspan : Nat
  align : TextAlign
  valign : VerticalAlign
  background : Option Color
  border : Bool
  padding : α

structure TableStyle (α : Type) where
  columns : Nat
  /-- Relative widths, one for each column. -/
  widths : Option (List α)
  widthPercent : α
  align : TextAlign
  border : Bool
  padding : α
  spacing : α

/-- Where the bytes of an image come from. -/
inductive ImageOrigin where
  | handle (name : String)
  | base64
  | bytes
  | path (path : String)
  deriving DecidableEq, Repr

structure Image (α : Type) where
  data : List UInt8
  format : String
  pixelWidth : Nat
  pixelHeight : Nat
  width : α
  height : α
  align : TextAlign
  origin : ImageOrigin

/-- A drawing is either the bytes of an image or the operators of a content stream. -/
inductive Drawing where
  | raster (data : List UInt8) (format : String)
  | vector (content : List UInt8)
  deriving DecidableEq, Repr

structure Drawable (α : Type) where
  width : α
  height : α
  drawing : Drawing

/-- A horizontal rule. -/
structure Rule (α : Type) where
  dotted : Bool
  gap : α
  lineWidth : α
  color : Color

structure Rectangle (α : Type) where
  width : α
  height : α
  color : Option Color
  border : Color

/-- What an anchor says about the text inside it. -/
inductive AnchorShape (α : Type) where
  | leadingAndFont (leading : α) (font : Font α)
  | leading (leading : α)
  | font (font : Font α)
  | plain

/-- The name an anchor can be reached by, and where it leads: `#name` or an address. -/
structure AnchorEnds where
  id : Option String
  target : Option String
  deriving DecidableEq, Repr

mutual

inductive Node (α : Type) where
  | text (run : TextRun α)
  | subscript (run : TextRun α)
  | superscript (run : TextRun α)
  | paragraph (style : BlockStyle α) (children : List (Node α))
  | phrase (style : PhraseStyle α) (children : List (Node α))
  | list (style : ListStyle α) (items : List (ListItem α))
  | table (style : TableStyle α) (header : List (Cell α)) (rows : List (List (Cell α)))
  | gridTable (style : TableStyle α) (header : List (Cell α)) (rows : List (List (Cell α)))
  | cell (cell : Cell α)
  | gridCell (cell : Cell α)
  | image (image : Image α)
  | chart (drawable : Drawable α)
  | vectorGraphic (drawable : Drawable α)
  | anchor (ends : AnchorEnds) (shape : AnchorShape α) (content : Node α)
  | note (title text : String)
  | chapter (number : Nat) (title : Node α) (children : List (Node α))
  | subsection (number : List Nat) (indent : α) (title : Node α) (children : List (Node α))
  | rule (rule : Rule α)
  | spacer (lines : Nat) (leading : α)
  | rectangle (rectangle : Rectangle α)
  | reference (id : String) (target : Node α)

inductive Cell (α : Type) where
  | mk (style : CellStyle α) (content : Node α)

/-- A list entry: bare text, or a phrase around anything else. -/
inductive ListItem (α : Type) where
  | chunk (node : Node α)
  | phrase (node : Node α)

end

namespace Cell

variable {α : Type}

def style : Cell α → CellStyle α
  | mk style _ => style

def content : Cell α → Node α
  | mk _ content => content

end Cell

def ListItem.node {α : Type} : ListItem α → Node α
  | chunk node | phrase node => node

/-- `1.2.` for the second section of the first chapter. -/
def sectionLabel (number : List Nat) : String :=
  String.join (number.map fun n => toString n ++ ".")

namespace Node

variable {α : Type}

def kind : Node α → String
  | text _ => "text"
  | subscript _ => "subscript"
  | superscript _ => "superscript"
  | paragraph .. => "paragraph"
  | phrase .. => "phrase"
  | list .. => "list"
  | table .. => "table"
  | gridTable .. => "grid-table"
  | cell _ => "cell"
  | gridCell _ => "grid-cell"
  | image _ => "image"
  | chart _ => "chart"
  | vectorGraphic _ => "vector-graphic"
  | anchor .. => "anchor"
  | note .. => "annotation"
  | chapter .. => "chapter"
  | subsection .. => "section"
  | rule _ => "line"
  | spacer .. => "spacer"
  | rectangle _ => "rectangle"
  | reference .. => "reference"

mutual

def textContent : Node α → String
  | text run | subscript run | superscript run => run.text
  | paragraph _ children | phrase _ children => textOfNodes children
  | list _ items => textOfItems items
  | table _ header rows | gridTable _ header rows => textOfCells header ++ textOfRows rows
  | cell c | gridCell c => textOfCell c
  | anchor _ _ content => textContent content
  | note _ words => words
  | chapter _ title children | subsection _ _ title children =>
    textContent title ++ textOfNodes children
  | reference _ target => textContent target
  | image _ | chart _ | vectorGraphic _ | rule _ | spacer .. | rectangle _ => ""

def textOfNodes : List (Node α) → String
  | [] => ""
  | n :: ns => textContent n ++ textOfNodes ns

def textOfCell : Cell α → String
  | .mk _ content => textContent content

def textOfCells : List (Cell α) → String
  | [] => ""
  | c :: cs => textOfCell c ++ textOfCells cs

def textOfRows : List (List (Cell α)) → String
  | [] => ""
  | r :: rs => textOfCells r ++ textOfRows rs

def textOfItem : ListItem α → String
  | .chunk node | .phrase node => textContent node

def textOfItems : List (ListItem α) → String
  | [] => ""
  | i :: is => textOfItem i ++ textOfItems is

end

mutual

/-- Font of the first run of text inside a node, or of the block around it. -/
def firstFont? : Node α → Option (Font α)
  | text run | subscript run | superscript run => some run.font
  | paragraph style children => (firstFontOf? children).or (some style.font)
  | phrase style children => (firstFontOf? children).or (some style.font)
  | anchor _ _ content => firstFont? content
  | reference _ target => firstFont? target
  | cell c | gridCell c => firstFontOfCell? c
  | _ => none

def firstFontOf? : List (Node α) → Option (Font α)
  | [] => none
  | n :: ns => (firstFont? n).or (firstFontOf? ns)

def firstFontOfCell? : Cell α → Option (Font α)
  | .mk _ content => firstFont? content

end

@[simp] theorem textContent_text (run : TextRun α) : (text run).textContent = run.text := by
  simp only [textContent]

@[simp] theorem textOfNodes_nil : textOfNodes ([] : List (Node α)) = "" := by
  simp [textOfNodes]

@[simp] theorem textOfNodes_cons (n : Node α) (ns : List (Node α)) :
    textOfNodes (n :: ns) = n.textContent ++ textOfNodes ns := by
  simp [textOfNodes]

end Node

end Folio
