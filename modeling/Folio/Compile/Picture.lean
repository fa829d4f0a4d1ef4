import Folio.Compile.State
import Folio.Picture.Format
import Folio.Text.Base64

/-!
Images, drawings by renderers, rules, spacers and rectangles. Images and drawings are computed once
for each node and context.
-/
namespace Folio.Compile

open Style Markup

variable {α : Type} [Scalar α]

/-- Width and height of the page less its margins, when the context knows them all. -/
def contentArea (context : Context) : Option (α × α) := do
  let width ← context.scalar? "page-width"
  let height ← context.scalar? "page-height"
  let left ← context.scalar? "left-margin"
  let right ← context.scalar? "right-margin"
  let top ← context.scalar? "top-margin"
  let bottom ← context.scalar? "bottom-margin"
  return (width - left - right, height - top - bottom)

/-- A size that overflows the area is scaled by the axis that overflows it more. -/
def fitted (size : α × α) (area : Option (α × α)) : α × α :=
  match area with
  | none => size
  | some (w, h) =>
    if (0 : α) < w && (0 : α) < h && (w < size.1 || h < size.2) then
      let scale := if size.2 / h < size.1 / w then w / size.1 else h / size.2
      (size.1 * scale, size.2 * scale)
    else size

/-- Scaled by a percentage, then each axis by its own factor. -/
def scaled (size : α × α) (context : Context) : α × α :=
  let (width, height) := match context.scalar? "scale" with
    | some percent => (size.1 * (percent / 100), size.2 * (percent / 100))
    | none => size
  (((context.scalar? "xscale").map (width * ·)).getD width,
    ((context.scalar? "yscale").map (height * ·)).getD height)

/-- The size in points: fitted to the page, scaled, and overridden by what is said explicitly. -/
def drawnSize (pixels : Nat × Nat) (context : Context) : α × α :=
  let natural : α × α := ((pixels.1 : α), (pixels.2 : α))
  let (width, height) := scaled (fitted natural (contentArea context)) context
  match context.scalar? "width", context.scalar? "height" with
  | some w, some h => (w, h)
  | some w, none => if (0 : α) < width then (w, w * height / width) else (width, height)
  | none, some h => if (0 : α) < height then (h * width / height, h) else (width, height)
  | none, none => (width, height)

def imageByte? (v : Json) : Option UInt8 :=
  (v.asCount?.filter (· < 256)).map Nat.toUInt8

/-- The bytes of an image from the first source that the element carries. -/
def imageSource (env : Env α) (e : Element) (context : Context) :
    CompileM α (Resource.Bytes × ImageOrigin) :=
  match context.keyword? "handle" with
  | some handle =>
    match env.bitmaps.get? handle with
    | some data => return (data, .handle handle)
    | none => throw (.resource (.notFound ("bitmap handle '" ++ handle ++ "'")))
  | none =>
    match e.children with
    | .string text :: _ =>
      if context.flag "base64" then
        match Text.Base64.decode? (Text.trim text) with
        | some data => return (data, .base64)
        | none => throw .imageData
      else
        match env.resources.load text with
        | .ok data => return (data, .path text)
        | .error error => throw (.resource error)
    | .array (b :: bs) :: _ =>
      match (b :: bs).mapM imageByte? with
      | some data => return (data, .bytes)
      | none => throw (.unsupportedImageSource e.raw)
    | _ => throw (.unsupportedImageSource e.raw)

def readImage (env : Env α) (e : Element) (context : Context) : CompileM α (Node α) := do
  let (data, origin) ← imageSource env e context
  match Picture.PictureFormat.guess data with
  | none => throw .imageData
  | some format =>
    match Picture.pixelSize format data with
    | none => throw .imageData
    | some pixels =>
      let (width, height) := drawnSize pixels context
      return .image {
        data := data
        format := format.extension
        pixelWidth := pixels.1
        pixelHeight := pixels.2
        width := width
        height := height
        align := .parseOr (context.keyword? "align") .left
        origin := origin }

def compileImage (env : Env α) (e : Element) (context : Context) : CompileM α (Node α) :=
  memo (.ofNode e.raw context) (readImage env e context)

def drawnNode (kind : RendererKind) (drawable : Drawable α) : Node α :=
  match kind with
  | .chart => .chart drawable
  | .svg | .graphics => .vectorGraphic drawable

/-- Asks the renderer of a kind. -/
def render (env : Env α) (kind : RendererKind) (e : Element) (context : Context) :
    CompileM α (Node α) := do
  match env.renderers kind with
  | none => throw (.render (.unavailable kind.name))
  | some renderer =>
    modify fun s => { s with renders := s.renders + 1 }
    match renderer e.children context with
    | .ok drawable => return drawnNode kind drawable
    | .error error => throw (.render error)

def compileRendered (env : Env α) (kind : RendererKind) (e : Element) (context : Context) :
    CompileM α (Node α) :=
  memo (.ofNode e.raw context) (render env kind e context)

def ruleNode (context : Context) : CompileM α (Node α) := do
  let color ← colorOf? context "color"
  return .rule {
    dotted := context.flag "dotted"
    gap := (context.scalar? "gap").getD 2
    lineWidth := (context.scalar? "line-width").getD 1
    color := color.getD .black }

/-- Height of a blank line as a multiple of the font size. -/
def spacerLineFactor : α := 1.5

/-- As many blank lines as the first child says, counted in 32 bits; one without a count. The font
is looked at only without a leading. -/
def spacerNode (e : Element) (context : Context) : CompileM α (Node α) := do
  let lines := match e.children.head?.bind Json.asCount? with
    | some n => n % 4294967296
    | none => 1
  match context.scalar? "leading" with
  | some leading => return .spacer lines leading
  | none => return .spacer lines ((← fontOf context).size * spacerLineFactor)

def rectangleNode (context : Context) : CompileM α (Node α) := do
  let color ← firstColor? context "background" "color"
  let border ← colorOf? context "border-color"
  return .rectangle {
    width := (context.scalar? "width").getD 0
    height := (context.scalar? "height").getD 0
    color := color
    border := border.getD .black }

end Folio.Compile
