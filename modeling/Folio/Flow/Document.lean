import Folio.Flow.Page
import Folio.Pdf.Stamp

/-!
The finished pages as a document: a page tree, one dictionary with the fonts of all pages, and for
each page its content, its images, its links and its notes. A link to a name that no anchor has is
left out.
-/
namespace Folio.Flow

open Pdf

variable {α : Type}

abbrev DocumentM (α : Type) := StateM (Document α)

def addEntry (o : Obj α) : DocumentM α Nat := modifyGet (·.add o)

def emptyDocument : Document α := ⟨[], 0, 0, none⟩

/-- Base names of the fonts of all pages, in rising order. -/
def fontNames (pages : List (Canvas α)) : List String :=
  (pages.flatMap Canvas.fonts).foldl (fun names name => insertName name names) []

/-- Adds the fonts to a dictionary by resource name, each font an object of its own. -/
def addFonts (d : Dict α) : List String → DocumentM α (Dict α)
  | [] => return d
  | baseFont :: rest => do
    let number ← addEntry (fontObject baseFont)
    addFonts (Dict.set (bytesOf (fontResourceName baseFont)) (.reference number) d) rest

def colorSpace (components : Nat) : String :=
  if components = 1 then "DeviceGray" else if components = 4 then "DeviceCMYK" else "DeviceRGB"

def imageObject (image : EmbeddedImage) : Obj α :=
  .stream (Dict.ofList [("Type", Obj.nameOf "XObject"), ("Subtype", Obj.nameOf "Image"),
    ("Width", .integer image.width), ("Height", .integer image.height),
    ("ColorSpace", Obj.nameOf (colorSpace image.components)), ("BitsPerComponent", .integer 8),
    ("Filter", Obj.nameOf "DCTDecode")]) image.data

/-- The images of a page by resource name, the first of them being the `index`-th. -/
def addImages : Nat → List EmbeddedImage → DocumentM α (Dict α)
  | _, [] => return []
  | index, image :: rest => do
    let number ← addEntry (imageObject image)
    return (bytesOf (Canvas.imageName index), .reference number) :: (← addImages (index + 1) rest)

def addAll : List (Dict α) → DocumentM α (List (Obj α))
  | [] => return []
  | d :: rest => do
    let number ← addEntry (.dictionary d)
    return .reference number :: (← addAll rest)

/-- The numbers that the pages have in the document. -/
def pageNumbers (first count : Nat) : List Nat := (List.range count).map (first + ·)

/-- Where a link leads; `none` for a name that is not there. -/
def linkAction (pages : List Nat) (destinations : List (String × Destination α))
    (target : String) : Option (String × Obj α) :=
  match target.toList with
  | '#' :: name => do
    let (_, d) ← destinations.find? (·.1 == String.ofList name)
    let page ← pages[d.pageIndex]?
    return ("Dest", .array [.reference page, Obj.nameOf "XYZ", .real d.x, .real d.y, .null])
  | _ => some ("A", .dictionary (Dict.ofList [("S", Obj.nameOf "URI"), ("URI", Obj.textOf target)]))

def linkEntry (pages : List Nat) (destinations : List (String × Destination α)) (link : Link α) :
    Option (Dict α) :=
  (linkAction pages destinations link.target).map fun action =>
    Dict.ofList [("Type", Obj.nameOf "Annot"), ("Subtype", Obj.nameOf "Link"),
      ("Rect", .array (reals [link.left, link.bottom, link.right, link.top])),
      ("Border", .array [.integer 0, .integer 0, .integer 0]), action]

variable [Scalar α]

/-- Side of the square in which a note is shown. -/
def noteSide : α := 20

def noteEntry (note : Note α) : Dict α :=
  Dict.ofList [("Type", Obj.nameOf "Annot"), ("Subtype", Obj.nameOf "Text"),
    ("Rect", .array (reals [note.x, note.y - noteSide, note.x + noteSide, note.y])),
    ("T", Obj.textOf note.title), ("Contents", Obj.textOf note.text)]

/-- What all pages of a document share. -/
structure PageSetting (α : Type) where
  encode : List (Operation α) → Bytes
  width : α
  height : α
  tree : Nat
  fonts : Nat
  pages : List Nat
  destinations : List (String × Destination α)

def pageResources (fonts : Nat) (images : Dict α) : Dict α :=
  Dict.ofList (("Font", .reference fonts)
    :: if images.isEmpty then [] else [("XObject", .dictionary images)])

/-- Adds what a page needs and gives the dictionary of the page itself. -/
def pageEntry (setting : PageSetting α) (page : Canvas α) : DocumentM α (Dict α) := do
  let content ← addEntry (.stream [] (setting.encode page.operations))
  let images ← addImages 1 page.images
  let links ← addAll (page.links.filterMap (linkEntry setting.pages setting.destinations))
  let notes ← addAll (page.notes.map noteEntry)
  let marks := links ++ notes
  return Dict.ofList ([("Type", Obj.nameOf "Page"), ("Parent", .reference setting.tree),
    ("MediaBox", .array (reals [0, 0, setting.width, setting.height])),
    ("Contents", .reference content),
    ("Resources", .dictionary (pageResources setting.fonts images))]
    ++ if marks.isEmpty then [] else [("Annots", .array marks)])

def addPages (setting : PageSetting α) : List (Nat × Canvas α) → DocumentM α Unit
  | [] => return ()
  | (number, page) :: rest => do
    let entry ← pageEntry setting page
    modify (·.set number (.dictionary entry))
    addPages setting rest

omit [Scalar α] in
/-- The information dictionary; an entry of the document's own may replace a usual one. -/
def infoEntry (info : DocumentInfo) : Dict α :=
  let entry (key : String) (value : Option String) := (value.map fun v => (key, v)).toList
  let entries := [("Producer", "sheaf")] ++ entry "Title" info.title ++ entry "Subject" info.subject
    ++ entry "Author" info.author ++ entry "Creator" info.creator ++ info.custom.toList
  entries.foldl (fun d e => Dict.set (bytesOf e.1) (Obj.textOf e.2) d) []

omit [Scalar α] in
def pageTree (pages : List Nat) : Dict α :=
  Dict.ofList [("Type", Obj.nameOf "Pages"), ("Kids", .array (pages.map .reference)),
    ("Count", .integer pages.length)]

/-- The document made of the finished pages; contents are encoded by `encode`. -/
def Layout.document (encode : List (Operation α) → Bytes) (s : Layout α) : Document α :=
  let build : DocumentM α Unit := do
    let tree ← addEntry .null
    let fonts ← addEntry (.dictionary (← addFonts [] (fontNames s.finished)))
    let pages := pageNumbers (fonts + 1) s.finished.length
    modify fun doc => { doc with maxId := fonts + s.finished.length }
    addPages ⟨encode, s.geometry.width, s.geometry.height, tree, fonts, pages, s.destinations⟩
      (pages.zip s.finished)
    modify (·.set tree (.dictionary (pageTree pages)))
    let root ← addEntry (.dictionary (Dict.ofList [("Type", Obj.nameOf "Catalog"),
      ("Pages", .reference tree)]))
    let info ← addEntry (.dictionary (infoEntry s.info))
    modify fun doc => { doc with root, info := some info }
  (build.run emptyDocument).2

end Folio.Flow
