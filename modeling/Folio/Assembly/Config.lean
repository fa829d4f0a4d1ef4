import Folio.Assembly.Error
import Folio.Assembly.Footer
import Folio.Style.Sheet

/-!
The metadata of a document: the map it may begin with. Keys may be spelt as keywords, unknown keys
do not count, and a missing key stands for its default. A value of the wrong kind is a fault, and
only what may be left out may also be `null`. From the metadata follow the page geometry, the
context that every item starts from, and the way the document is put out.
-/
namespace Folio.Assembly

open Style

structure DocumentConfig where
  size : PageSize Single
  orientation : Orientation
  margins : Margins Single
  info : DocumentInfo
  /-- Stands on every page that is started after the letterhead. -/
  header : Option String
  letterhead : List Json
  footer : Option (FooterLayout Single)
  /-- Is the total of pages to stand in the footer? -/
  totals : Bool
  fontStyle : Fields
  systemFonts : Bool
  sheet : Sheet
  references : Fields
  /-- Names of page events, as they are written. -/
  pageEvents : List String

def DocumentConfig.standard : DocumentConfig where
  size := .named .a4
  orientation := .portrait
  margins := .standard
  info := .empty
  header := none
  letterhead := []
  footer := some .standard
  totals := false
  fontStyle := []
  systemFonts := false
  sheet := .empty
  references := []
  pageEvents := []

/-- The value under a key, read by `read`; a missing key stands for `default`. -/
def readField {β : Type} (fs : Fields) (key : String) (default : β) (read : Json → Option β) :
    Option β :=
  match Fields.get? key fs with
  | some v => read v
  | none => some default

/-- Something that may be `null`. -/
def orNull {β : Type} (read : Json → Option β) : Json → Option (Option β)
  | .null => some none
  | v => (read v).map some

def readFlag : Json → Option Bool
  | .bool b => some b
  | _ => none

/-- A number in single precision, rounded once. -/
def readSingle : Json → Option Single
  | .number (.whole n) => some (n.toNat : Single)
  | .number (.negative n) => some (-(n.toInt.natAbs : Single))
  | .number (.real x) => some x.toFloat32
  | _ => none

def readTexts (v : Json) : Option (List String) := v.asItems?.bind fun items =>
  items.mapM Json.asString?

/-- A name and a value. -/
def readPair : Json → Option (String × String)
  | .array [.string name, .string value] => some (name, value)
  | _ => none

/-- Whatever is not landscape is portrait, but it has to be a text. -/
def readOrientation : Json → Option Orientation
  | .null => some .portrait
  | .string s =>
    some (if stripKeyword s == Orientation.landscape.name then .landscape else .portrait)
  | _ => none

/-- A page number, of 32 bits; pages are counted from one. -/
def readPageNumber (v : Json) : Option Nat :=
  (v.asCount?.filter (· < 4294967296)).map (max 1)

/-- The keys of a footer, in the order in which a list gives their values. -/
def footerKeys : List String :=
  ["text", "align", "start-page", "page-numbers", "footer-separator", "size"]

def readFooterFields (fs : Fields) : Option (FooterLayout Single) := do
  let plain : FooterLayout Single := .standard
  let text ← readField fs "text" plain.text Json.asString?
  let align ← readField fs "align" none (orNull Json.asString?)
  let startPage ← readField fs "start-page" plain.startPage readPageNumber
  let pageNumbers ← readField fs "page-numbers" plain.pageNumbers readFlag
  let separator ← readField fs "footer-separator" plain.separator Json.asString?
  let size ← readField fs "size" none (orNull readSingle)
  let font := plain.font.withSize (size.getD plain.font.size)
  return ⟨text, TextAlign.parseOr align plain.align, startPage, pageNumbers, separator, font⟩

/-- On or off, a text, or a description by keys or by place. -/
def readFooter : Json → Option (Option (FooterLayout Single))
  | .bool on => some (if on then some .standard else none)
  | .string text => some (some { FooterLayout.standard with text })
  | .object fs => (readFooterFields fs).map some
  | .array items =>
    if footerKeys.length < items.length then none
    else (readFooterFields (Fields.ofList (footerKeys.zip items))).map some
  | _ => none

def readMargins (fs : Fields) : Option (Margins Single) := do
  let side (key : String) (default : Single) : Option Single :=
    (readField fs key none (orNull readSingle)).map (·.getD default)
  let plain : Margins Single := .standard
  return ⟨← side "top-margin" plain.top, ← side "right-margin" plain.right,
    ← side "bottom-margin" plain.bottom, ← side "left-margin" plain.left⟩

def readInfo (fs : Fields) : Option DocumentInfo := do
  let entry (key : String) : Option (Option String) :=
    readField fs key none (orNull Json.asString?)
  return ⟨← entry "title", ← entry "subject", ← entry "author", ← entry "creator",
    ← readField fs "doc-header" none (orNull readPair)⟩

namespace DocumentConfig

/-- Reads metadata whose keys have lost their colons. -/
def ofFields? (fs : Fields) : Option DocumentConfig := do
  return {
    size := (← readField fs "size" standard.size PageSize.ofJson?)
    orientation := (← readField fs "orientation" standard.orientation readOrientation)
    margins := (← readMargins fs)
    info := (← readInfo fs)
    header := (← readField fs "header" none (orNull Json.asString?))
    letterhead := (← readField fs "letterhead" [] Json.asItems?)
    footer := (← readField fs "footer" standard.footer readFooter)
    totals := (← readField fs "pages" false readFlag)
    fontStyle := (← readField fs "font-style" [] Json.asFields?)
    systemFonts := (← readField fs "register-system-fonts?" false readFlag)
    sheet := (← readField fs "stylesheet" .empty Sheet.ofJson?)
    references := (← readField fs "references" [] Json.asFields?)
    pageEvents := (← readField fs "page-events" [] readTexts) }

def read (v : Json) : Except PipelineError DocumentConfig :=
  match v with
  | .object fs =>
    match ofFields? (normalizeKeys fs) with
    | some config => .ok config
    | none => .error .malformed
  | v => .error (.config (.metadata v))

def geometry (config : DocumentConfig) : Geometry Single :=
  .ofPage config.size config.orientation config.margins

/-- A number as data, where it is one. -/
def singleJson (x : Single) : Json :=
  if x.toFloat.isFinite then .number (.real x.toFloat) else .null

/-- The measures of a page by the names under which images look for them. -/
def pageFields (g : Geometry Single) : Fields :=
  [("page-width", g.width), ("page-height", g.height), ("left-margin", g.margins.left),
    ("right-margin", g.margins.right), ("top-margin", g.margins.top),
    ("bottom-margin", g.margins.bottom)].map fun entry => (entry.1, singleJson entry.2)

/-- The context that every item of the document is compiled in. -/
def ambient (config : DocumentConfig) : Context :=
  (Context.ofFields config.fontStyle).merge (pageFields config.geometry)

end DocumentConfig

/-- How a finished document reaches its destination. -/
inductive OutputStrategy where
  /-- As the engine hands it over. -/
  | directWrite
  /-- With every page drawn on again once their total is known. -/
  | bufferThenStamp
  deriving DecidableEq, Repr

def OutputStrategy.name : OutputStrategy → String
  | directWrite => "direct-write"
  | bufferThenStamp => "buffer-then-stamp"

def OutputStrategy.resolve (config : DocumentConfig) (stamps : Nat) : OutputStrategy :=
  if (config.totals && config.footer.isSome) || 0 < stamps then .bufferThenStamp else .directWrite

end Folio.Assembly
