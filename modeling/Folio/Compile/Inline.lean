import Folio.Compile.State

/-!
Text and what flows with it: chunks, raised and lowered text, phrases, paragraphs, headings, lists
and anchors. Each rule is given how the children compile.
-/
namespace Folio.Compile

open Style Markup

variable {α : Type} [Scalar α]

/-- Lowered and raised text has this part of the size around it. -/
def scriptScale : α := 0.7

def textRun (text : String) (context : Context) : CompileM α (TextRun α) := do
  let font ← fontOf context
  return ⟨text, font, ← colorOf? context "background"⟩

def textNode (text : String) (context : Context) : CompileM α (Node α) := do
  return .text (← textRun text context)

/-- All text of children that are texts and numbers. -/
def leafTexts? (children : List Json) : Option String :=
  (children.mapM leafText?).map String.join

/-- An element that may hold only text. -/
def leafText (e : Element) : CompileM α String :=
  match leafTexts? e.children with
  | some text => pure text
  | none => invalid .notText e.raw

def compileChildren (compile : Compiling α) (children : List Json) (context : Context) :
    CompileM α (List (Node α)) :=
  children.mapM fun child => compile child context.inheritable

def scriptRun (text : String) (context : Context) : CompileM α (TextRun α) := do
  let run ← textRun text context
  return { run with font := run.font.withSize (run.font.size * scriptScale) }

def compileChunk (e : Element) (context : Context) : CompileM α (Node α) := do
  let text ← leafText e
  if context.flag "super" then return .superscript (← scriptRun text context)
  else if context.flag "sub" then return .subscript (← scriptRun text context)
  else textNode text context

def compileSubscript (e : Element) (context : Context) : CompileM α (Node α) := do
  return .subscript (← scriptRun (← leafText e) context)

def compileSuperscript (e : Element) (context : Context) : CompileM α (Node α) := do
  return .superscript (← scriptRun (← leafText e) context)

def compilePhrase (compile : Compiling α) (e : Element) (context : Context) :
    CompileM α (Node α) := do
  let children ← compileChildren compile e.children (context.without ["align"])
  return .phrase ⟨← fontOf context, context.scalar? "leading"⟩ children

def blockStyle (font : Font α) (context : Context) : BlockStyle α where
  font := font
  align := .parseOr (context.keyword? "align") .left
  leading := context.scalar? "leading"
  indent := (context.scalar? "indent").getD 0
  firstLineIndent := (context.scalar? "first-line-indent").getD 0
  spacingBefore := (context.scalar? "spacing-before").getD 0
  spacingAfter := (context.scalar? "spacing-after").getD 0
  keepTogether := context.flag "keep-together"

def compileParagraph (compile : Compiling α) (e : Element) (context : Context) :
    CompileM α (Node α) := do
  let children ← compileChildren compile e.children (context.without ["align"])
  return .paragraph (blockStyle (← fontOf context) context) children

/-- Eighteen points, bold. -/
def headingDefaults : Fields :=
  [("size", Json.ofNat 18), ("style", .string "bold")]

/-- The context of a heading's text: the defaults over the element's own, its style over both. -/
def headingContext (context : Context) : Context :=
  let plain := context.merge headingDefaults
  match context.fields? "style" with
  | some style => plain.merge style
  | none => plain

def compileHeading (compile : Compiling α) (e : Element) (context : Context) :
    CompileM α (Node α) := do
  let styled := headingContext context
  let children ← compileChildren compile e.children (styled.without ["align"])
  return .paragraph (blockStyle (← fontOf styled) context) children

/-- The glyph of a list that asks for dingbats without saying which. -/
def defaultDingbat : UInt8 := 108

/-- First glyph of each series of circled digits. -/
def dingbatSeries : List UInt8 := [172, 182, 192, 202]

/-- The first flag in this order decides. -/
def listKind (context : Context) : ListKind :=
  if context.flag "roman" then .roman
  else if context.flag "greek" then .greek
  else if context.flag "dingbats" then
    match (context.count? "dingbats").filter (· < 256) with
    | some glyph => .dingbat glyph.toUInt8
    | none => .dingbat defaultDingbat
  else if context.flag "dingbat-number" then
    .dingbatNumber (dingbatSeries.getD ((context.count? "type").getD 0) (dingbatSeries.headD 0))
  else if context.flag "lettered" then .lettered
  else if context.flag "numbered" then .numbered
  else .bulleted ((context.keyword? "symbol").getD "-")

def compileItem (compile : Compiling α) (font : Font α) (context : Context) (child : Json) :
    CompileM α (ListItem α) :=
  match leafText? child with
  | some text => return .chunk (← textNode text context)
  | none => do
    match ← compile child context with
    | .phrase style children => return .phrase (.phrase style children)
    | other => return .phrase (.phrase ⟨font, none⟩ [other])

def compileList (compile : Compiling α) (e : Element) (context : Context) :
    CompileM α (Node α) := do
  let font ← fontOf context
  let items ← e.children.mapM (compileItem compile font context.inheritable)
  let style : ListStyle α :=
    ⟨listKind context, context.flag "lowercase", (context.scalar? "indent").getD 0, font⟩
  return .list style items

/-- A lone child stands for itself, several make a phrase. -/
def anchorBody (compile : Compiling α) (e : Element) (context : Context) :
    CompileM α (Node α) := do
  match ← compileChildren compile e.children context with
  | [only] => return only
  | children => return .phrase ⟨← fontOf context, none⟩ children

/-- Which of a style map and a leading are given decides the shape. -/
def anchorShape (context : Context) : CompileM α (AnchorShape α) := do
  match context.fields? "style", context.scalar? "leading" with
  | some style, some leading => return .leadingAndFont leading (← fontOf (context.merge style))
  | none, some leading => return .leading leading
  | some style, none => return .font (← fontOf (context.merge style))
  | none, none => return .plain

def compileAnchor (compile : Compiling α) (e : Element) (context : Context) :
    CompileM α (Node α) := do
  let styled := match context.fields? "style" with
    | some style => context.merge style
    | none => context
  let shape ← anchorShape context
  let body ← anchorBody compile e styled
  return .anchor ⟨context.keyword? "id", context.text? "target"⟩ shape body

end Folio.Compile
