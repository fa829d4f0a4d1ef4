import Folio.Compile.Inline

/-!
Tables and cells. A row is an array whose entries are cells or are made into cells; the header comes
from the context, perhaps behind a map of styles of its own. Column widths are optional in a plain
table and required in a grid.
-/
namespace Folio.Compile

open Style Markup

variable {α : Type} [Scalar α]

def defaultCellPadding : α := 2

/-- Numbers only, and at least one. -/
def scalars? : Json → Option (List α)
  | .array (x :: xs) => (x :: xs).mapM scalarOf?
  | _ => none

def borderEnabled (context : Context) : Bool :=
  match context.get? "border" with
  | some (.bool false) => false
  | _ => true

def cellStyle (context : Context) : CompileM α (CellStyle α) := do
  let background ← firstColor? context "background-color" "background"
  return {
    colspan := max 1 ((context.count? "colspan").getD 1)
    rowspan := max 1 ((context.count? "rowspan").getD 1)
    align := .parseOr (context.keyword? "align") .left
    valign := .parseOr (context.keyword? "valign") .top
    background := background
    border := borderEnabled context
    padding := (context.scalar? "padding").getD defaultCellPadding }

/-- A header as written: perhaps styles, then its entries. -/
structure HeaderRow where
  style : Option Fields
  entries : List Json

def HeaderRow.parse? : Option Json → Option HeaderRow
  | some (.array (.object style :: entries)) => some ⟨some style, entries⟩
  | some (.array entries) => some ⟨none, entries⟩
  | _ => none

/-- The content of a cell: one node. In a grid even bare text is a phrase. -/
def cellContent (compile : Compiling α) (grid : Bool) (children : List Json) (context : Context) :
    CompileM α (Node α) := do
  let inherited := context.inheritable
  match children with
  | [] => textNode "" inherited
  | [only] =>
    match leafText? only with
    | some text =>
      let run ← textNode text inherited
      if grid then return .phrase ⟨← fontOf inherited, none⟩ [run] else return run
    | none => compile only inherited
  | many =>
    let children ← compileChildren compile many context
    return .phrase ⟨← fontOf inherited, context.scalar? "leading"⟩ children

def compileCell (compile : Compiling α) (grid : Bool) (e : Element) (context : Context) :
    CompileM α (Cell α) := do
  let content ← cellContent compile grid e.children context
  return .mk (← cellStyle context) content

def isCell (item : Json) : Bool :=
  match tagOf? item with
  | some .cell | some .gridCell => true
  | _ => false

/-- An entry of a row: a cell as it is, anything else made into one. -/
def rowCell (compile : Compiling α) (grid : Bool) (context : Context) (item : Json) :
    CompileM α (Cell α) := do
  if isCell item then
    match ← compile item context with
    | .cell c | .gridCell c => return c
    | other => invalid (.notACell other.kind) item
  else
    let content ← cellContent compile grid [item] context
    return .mk (← cellStyle context.inheritable) content

/-- An entry of a header: a row entry, or content with attributes of its own. -/
def headerCell (compile : Compiling α) (grid : Bool) (context : Context) (entry : Json) :
    CompileM α (Cell α) :=
  match entry, tagOf? entry with
  | .array [content, .object inlined], none => do
    let entryContext := context.merge inlined
    let content ← cellContent compile grid [content] entryContext
    return .mk (← cellStyle entryContext) content
  | .array _, none => invalid .headerEntry entry
  | _, _ => rowCell compile grid context entry

def withColspan (columns : Nat) : Cell α → Cell α
  | .mk style content => .mk { style with colspan := columns } content

/-- A lone header cell spans the whole table. -/
def spanned (columns : Nat) : List (Cell α) → List (Cell α)
  | [only] => [withColspan columns only]
  | cells => cells

def headerCells (compile : Compiling α) (grid : Bool) (row : HeaderRow) (context : Context)
    (columns : Nat) : CompileM α (List (Cell α)) := do
  let inherited := context.inheritable
  let styled := match row.style with
    | some style => inherited.merge style
    | none => inherited
  return spanned columns (← row.entries.mapM (headerCell compile grid styled))

def compileRow (compile : Compiling α) (grid : Bool) (raw : Json) (context : Context) (row : Json) :
    CompileM α (List (Cell α)) :=
  match row with
  | .array items => items.mapM (rowCell compile grid context)
  | _ => invalid .rowNotArray raw

/-- Columns that a row takes up. -/
def rowWidth (cells : List (Cell α)) : Nat :=
  cells.foldl (fun n c => n + c.style.colspan) 0

/-- The columns asked for, or as many as the widest row needs. -/
def columnCount (tag : String) (context : Context) (header : Option HeaderRow)
    (rows : List (List (Cell α))) : CompileM α Nat :=
  let needed := rows.foldl (fun n row => max n (rowWidth row))
    ((header.map fun h => h.entries.length).getD 0)
  match (context.get? "num-cols").bind Json.asCount? with
  | some n =>
    if maxColumns < n then throw (.tooManyColumns tag n)
    else if n = 0 then return needed
    else return n
  | none => return needed

/-- Widths that fit the columns; a plain table does without, a grid does not. -/
def checkedWidths (grid : Bool) (columns : Nat) (widths : Option (List α)) :
    CompileM α (Option (List α)) :=
  match widths with
  | some ws =>
    if ws.length = columns then return some ws
    else if grid then throw (.columnWidthMismatch columns ws.length)
    else return none
  | none => if grid then throw (.columnWidthMismatch columns 0) else return none

structure CompiledTable (α : Type) where
  style : TableStyle α
  header : List (Cell α)
  rows : List (List (Cell α))

def buildTable (compile : Compiling α) (grid : Bool) (e : Element) (context : Context)
    (rows : List Json) (widths : Option (List α)) : CompileM α (CompiledTable α) := do
  if rows.isEmpty then throw .emptyTable
  let cells ← rows.mapM (compileRow compile grid e.raw context.inheritable)
  let headerRow := HeaderRow.parse? (context.get? "header")
  let columns ← columnCount e.token.primary context headerRow cells
  let header ← match headerRow with
    | some row => headerCells compile grid row context columns
    | none => pure []
  let widths ← checkedWidths grid columns widths
  let style : TableStyle α := {
    columns := columns
    widths := widths
    widthPercent := (context.scalar? "width").getD 100
    align := .parseOr (context.keyword? "align") .center
    border := borderEnabled context
    padding := (context.scalar? "padding").getD defaultCellPadding
    spacing := (context.scalar? "spacing").getD 0 }
  return ⟨style, header, cells⟩

def compileTable (compile : Compiling α) (e : Element) (context : Context) :
    CompileM α (Node α) := do
  let t ← buildTable compile false e context e.children ((context.get? "widths").bind scalars?)
  return .table t.style t.header t.rows

/-- A first child of numbers alone gives the widths and is no row. -/
def leadingWidths : List Json → Option (List α) × List Json
  | .array (x :: xs) :: rest =>
    if (x :: xs).all Json.isNumber then (scalars? (.array (x :: xs)), rest)
    else (none, .array (x :: xs) :: rest)
  | children => (none, children)

def compileGridTable (compile : Compiling α) (e : Element) (context : Context) :
    CompileM α (Node α) := do
  let (leading, rows) := leadingWidths e.children
  let widths := ((context.get? "widths").bind scalars?).or leading
  let t ← buildTable compile true e context rows widths
  return .gridTable t.style t.header t.rows

end Folio.Compile
