import Folio.Pdf.Document
import Folio.Pdf.Overlay

/-!
Stamping draws on the pages of a finished document. Each page with something drawn on it gets one
more content stream behind those it has, and the fonts of the drawing among its resources; a page
that stays blank is left alone. A fault leaves the document with the changes made before it.
-/
namespace Folio.Pdf

/-- A page of a finished document, counted from one. -/
structure PageBox (α : Type) where
  number : Nat
  total : Nat
  width : α
  height : α

abbrev StampM (α : Type) := ExceptT StructureError (StateM (Document α))

variable {α : Type}

def liftExcept {β : Type} : Except StructureError β → StampM α β
  | .ok b => pure b
  | .error e => throw e

def addObject (o : Obj α) : StampM α Nat := modifyGet fun doc => doc.add o

/-- Changes the dictionary that `number` leads to. -/
def changeDict (number : Nat) (f : Dict α → Dict α) : StampM α Unit := do
  match (← get).locate? number with
  | some (found, .dictionary d) => modify fun doc => doc.set found (.dictionary (f d))
  | some _ => throw .wrongKind
  | none => throw .missing

/-- The contents of a page with one more stream. -/
def withStream (stream : Nat) (page : Dict α) : Dict α :=
  let key := bytesOf "Contents"
  match Dict.get? key page with
  | some (.array items) => Dict.set key (.array (items ++ [.reference stream])) page
  | some other => Dict.set key (.array [other, .reference stream]) page
  | none => Dict.set key (.reference stream) page

/-- Adds a content stream behind those of a page. -/
def overlayContent (page : Nat) (content : Bytes) : StampM α Unit := do
  let stream ← addObject (.stream [] content)
  changeDict page (withStream stream)

/-- Where the fonts of a page are kept. -/
inductive FontPlace where
  /-- A dictionary of its own. -/
  | object (number : Nat)
  /-- Inside a resource dictionary of its own. -/
  | resources (number : Nat)
  /-- Inside the resources that stand in the page. -/
  | page

def fontPlace (doc : Document α) (page : Nat) : Except StructureError FontPlace := do
  let fontsOf (resources : Dict α) (otherwise : FontPlace) : FontPlace :=
    match Dict.get? (bytesOf "Font") resources with
    | some (.reference n _) => .object n
    | _ => otherwise
  let d ← doc.getDict page
  match Dict.get? (bytesOf "Resources") d with
  | some (.reference n _) => return fontsOf (← doc.getDict n) (.resources n)
  | some (.dictionary resources) => return fontsOf resources .page
  | _ => return .page

/-- Writes every entry of `fonts` into a dictionary. -/
def addEntries (fonts : Dict α) (d : Dict α) : Dict α :=
  fonts.foldl (fun d f => Dict.set f.1 f.2 d) d

/-- Puts fonts into the dictionary under `Font`, which is made if there is none. -/
def withFonts (fonts : Dict α) (resources : Dict α) : Except StructureError (Dict α) :=
  let key := bytesOf "Font"
  match (Dict.get? key resources).getD (.dictionary []) with
  | .dictionary d => .ok (Dict.set key (.dictionary (addEntries fonts d)) resources)
  | _ => .error .wrongKind

/-- Puts fonts into the resources that stand in a page. -/
def withPageFonts (fonts : Dict α) (page : Dict α) : Except StructureError (Dict α) :=
  let key := bytesOf "Resources"
  match (Dict.get? key page).getD (.dictionary []) with
  | .dictionary resources => do
    return Dict.set key (.dictionary (← withFonts fonts resources)) page
  | _ => .error .wrongKind

/-- Changes a dictionary unless the change fails. -/
def tryChangeDict (number : Nat) (f : Dict α → Except StructureError (Dict α)) :
    StampM α Unit := do
  match (← get).locate? number with
  | some (found, .dictionary d) =>
    let d ← liftExcept (f d)
    modify fun doc => doc.set found (.dictionary d)
  | some _ => throw .wrongKind
  | none => throw .missing

def registerFonts (page : Nat) (fonts : Dict α) : StampM α Unit := do
  match ← liftExcept (fontPlace (← get) page) with
  | .object n => changeDict n (addEntries fonts)
  | .resources n => tryChangeDict n (withFonts fonts)
  | .page => tryChangeDict page (withPageFonts fonts)

/-- A standard font as a dictionary. -/
def fontObject (baseFont : String) : Obj α :=
  .dictionary (Dict.ofList [("Type", Obj.nameOf "Font"), ("Subtype", Obj.nameOf "Type1"),
    ("BaseFont", Obj.nameOf baseFont), ("Encoding", Obj.nameOf "WinAnsiEncoding")])

/-- Fonts that were added, with their object numbers. -/
abbrev FontTable := List (String × Nat)

/-- The object of a font, added when it is used for the first time. -/
def fontNumber (table : FontTable) (baseFont : String) : StampM α (Nat × FontTable) := do
  match table.find? (·.1 == baseFont) with
  | some (_, n) => return (n, table)
  | none =>
    let n ← addObject (fontObject baseFont)
    return (n, table ++ [(baseFont, n)])

def registrations (table : FontTable) : List String → StampM α (Dict α × FontTable)
  | [] => return ([], table)
  | baseFont :: rest => do
    let (n, table) ← fontNumber table baseFont
    let (fonts, table) ← registrations table rest
    return ((bytesOf (fontResourceName baseFont), .reference n) :: fonts, table)

variable [Scalar α]

/-- Width and height when no media box can be read. -/
def fallbackBox : α × α := (612, 792)

def boxSize (d : Dict α) : Option (α × α) :=
  ((Dict.get? (bytesOf "MediaBox") d).bind Obj.asArray?).bind fun items =>
    match items.filterMap Obj.asScalar? with
    | [x0, y0, x1, y1] => some (Scalar.abs (x1 - x0), Scalar.abs (y1 - y0))
    | _ => none

/-- The size of a page, from its own media box or from its parent's. -/
def mediaBox (doc : Document α) (page : Nat) : α × α :=
  match doc.getDict? page with
  | none => fallbackBox
  | some d =>
    let inherited := ((Dict.get? (bytesOf "Parent") d).bind Obj.asReference?).bind fun parent =>
      (doc.getDict? parent).bind boxSize
    ((boxSize d).or inherited).getD fallbackBox

/-- What is drawn on a page. -/
abbrev Stamp (α : Type) := PageBox α → Overlay α

/-- Draws on one page; the content is encoded by `encode`. -/
def stampPage (encode : Overlay α → Bytes) (stamp : Stamp α) (table : FontTable) (box : PageBox α)
    (page : Nat) : StampM α FontTable := do
  let overlay := stamp box
  if overlay.isEmpty then return table
  let (fonts, table) ← registrations table overlay.fonts
  registerFonts page fonts
  overlayContent page (encode overlay)
  return table

/-- A document that is being drawn on, with the pages that were looked at so far. -/
structure Stamping (α : Type) where
  doc : Document α
  visited : List (PageBox α)

abbrev StampingM (α : Type) := ExceptT StructureError (StateM (Stamping α))

omit [Scalar α] in
def onDocument {β : Type} (act : StampM α β) : StampingM α β := fun s =>
  let (result, doc) := act.run s.doc
  (result, { s with doc })

def stampFrom (encode : Overlay α → Bytes) (stamp : Stamp α) (total : Nat) :
    FontTable → Nat → List Nat → StampingM α Unit
  | _, _, [] => return ()
  | table, number, page :: rest => do
    let (width, height) := mediaBox (← get).doc page
    let box : PageBox α := ⟨number, total, width, height⟩
    modify fun s => { s with visited := s.visited ++ [box] }
    let table ← onDocument (stampPage encode stamp table box page)
    stampFrom encode stamp total table (number + 1) rest

/-- Draws on every page in page order. -/
def stampPages (encode : Overlay α → Bytes) (stamp : Stamp α) : StampingM α Unit := do
  let pages := (← get).doc.pages
  stampFrom encode stamp pages.length [] 1 pages

end Folio.Pdf
