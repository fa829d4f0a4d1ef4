import Folio.Style.Context

/-!
Page formats in points, orientation, margins and the geometry that a document is laid out in.
-/
namespace Folio.Style

/-- The formats that have a name. -/
inductive PaperFormat where
  | a0 | a1 | a2 | a3 | a4 | a5 | a6 | a7 | a8 | a9 | a10
  | b0 | b1 | b2 | b3 | b4 | b5
  | letter | legal | ledger | tabloid | executive | note | halfLetter | postcard
  deriving DecidableEq, Repr

namespace PaperFormat

def all : List PaperFormat :=
  [a0, a1, a2, a3, a4, a5, a6, a7, a8, a9, a10, b0, b1, b2, b3, b4, b5, letter, legal, ledger,
    tabloid, executive, note, halfLetter, postcard]

def name : PaperFormat → String
  | a0 => "a0"
  | a1 => "a1"
  | a2 => "a2"
  | a3 => "a3"
  | a4 => "a4"
  | a5 => "a5"
  | a6 => "a6"
  | a7 => "a7"
  | a8 => "a8"
  | a9 => "a9"
  | a10 => "a10"
  | b0 => "b0"
  | b1 => "b1"
  | b2 => "b2"
  | b3 => "b3"
  | b4 => "b4"
  | b5 => "b5"
  | letter => "letter"
  | legal => "legal"
  | ledger => "ledger"
  | tabloid => "tabloid"
  | executive => "executive"
  | note => "note"
  | halfLetter => "half-letter"
  | postcard => "postcard"

/-- Width and height of the upright page. -/
def points : PaperFormat → Nat × Nat
  | a0 => (2384, 3370)
  | a1 => (1684, 2384)
  | a2 => (1191, 1684)
  | a3 => (842, 1191)
  | a4 => (595, 842)
  | a5 => (420, 595)
  | a6 => (298, 420)
  | a7 => (210, 298)
  | a8 => (147, 210)
  | a9 => (105, 147)
  | a10 => (74, 105)
  | b0 => (2834, 4008)
  | b1 => (2004, 2834)
  | b2 => (1417, 2004)
  | b3 => (1000, 1417)
  | b4 => (708, 1000)
  | b5 => (498, 708)
  | letter => (612, 792)
  | legal => (612, 1008)
  | ledger => (1224, 792)
  | tabloid => (792, 1224)
  | executive => (522, 756)
  | note => (540, 720)
  | halfLetter => (396, 612)
  | postcard => (283, 416)

def parse? (s : String) : Option PaperFormat :=
  all.find? (·.name == plainName s)

theorem mem_all (f : PaperFormat) : f ∈ all := by
  cases f <;> decide

end PaperFormat

inductive PageSize (α : Type) where
  | named (format : PaperFormat)
  | custom (width height : α)

inductive Orientation where
  | portrait | landscape
  deriving DecidableEq, Repr, Inhabited

def Orientation.name : Orientation → String
  | portrait => "portrait"
  | landscape => "landscape"

structure Margins (α : Type) where
  top : α
  right : α
  bottom : α
  left : α

instance {α : Type} [BEq α] : BEq (Margins α) :=
  ⟨fun a b => a.top == b.top && a.right == b.right && a.bottom == b.bottom && a.left == b.left⟩

/-- Page and margins, fixed for a whole document. -/
structure Geometry (α : Type) where
  width : α
  height : α
  margins : Margins α

namespace PageSize

/-- A name is not equal to a width and a height, even if they are those of the format. -/
def beq {α : Type} [BEq α] : PageSize α → PageSize α → Bool
  | named f, named g => f == g
  | custom w h, custom w' h' => w == w' && h == h'
  | _, _ => false

instance {α : Type} [BEq α] : BEq (PageSize α) := ⟨beq⟩

variable {α : Type} [Scalar α]

def dimensions : PageSize α → α × α
  | named format => ((format.points.1 : α), (format.points.2 : α))
  | custom width height => (width, height)

/-- A name, an unknown one standing for A4, or a pair of numbers. -/
def ofJson? : Json → Option (PageSize α)
  | .string s => some (.named ((PaperFormat.parse? s).getD .a4))
  | .array [.number w, .number h] => some (.custom (Scalar.ofNumber w) (Scalar.ofNumber h))
  | _ => none

end PageSize

def Margins.all {α : Type} (x : α) : Margins α := ⟨x, x, x, x⟩

/-- Half an inch on every side. -/
def Margins.standard {α : Type} [Scalar α] : Margins α := .all 36

namespace Geometry

variable {α : Type} [Scalar α]

/-- A landscape page lies on its longer side, whatever way the format was given. -/
def ofPage (size : PageSize α) (orientation : Orientation) (margins : Margins α) : Geometry α :=
  let (w, h) := size.dimensions
  match orientation with
  | .portrait => ⟨w, h, margins⟩
  | .landscape => ⟨Scalar.larger w h, Scalar.smaller w h, margins⟩

def standard : Geometry α := ofPage (.named .a4) .portrait .standard

def contentWidth (g : Geometry α) : α := g.width - g.margins.left - g.margins.right

def contentHeight (g : Geometry α) : α := g.height - g.margins.top - g.margins.bottom

end Geometry

end Folio.Style
