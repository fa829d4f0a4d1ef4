import Folio.Scalar
import Folio.Text.Latin1

/-!
The objects a PDF is made of. Names and strings are bytes, dictionaries keep the order in which
their keys came, and a reference is the number of an object with its generation. The objects of a
document are all of generation nought; only a content stream that is read may name another.
-/
namespace Folio.Pdf

abbrev Bytes := List UInt8

/-- The bytes of a name or key given as text. -/
def bytesOf (s : String) : Bytes := s.toUTF8.toList

inductive StringForm where
  | literal | hexadecimal
  deriving DecidableEq, Repr

inductive Obj (α : Type) where
  | null
  | bool (b : Bool)
  | integer (n : Int)
  | real (x : α)
  | name (bytes : Bytes)
  | string (form : StringForm) (bytes : Bytes)
  | array (items : List (Obj α))
  | dictionary (entries : List (Bytes × Obj α))
  | stream (entries : List (Bytes × Obj α)) (content : Bytes)
  | reference (number : Nat) (generation : Nat := 0)

/-- The entries of a dictionary. -/
abbrev Dict (α : Type) := List (Bytes × Obj α)

namespace Dict

variable {α : Type}

def get? (key : Bytes) (d : Dict α) : Option (Obj α) :=
  (d.find? (·.1 == key)).map (·.2)

def has (key : Bytes) (d : Dict α) : Bool := d.any (·.1 == key)

/-- Writes `value` under `key`, in the place of an entry that is there. -/
def set (key : Bytes) (value : Obj α) : Dict α → Dict α
  | [] => [(key, value)]
  | (k, v) :: rest => if k == key then (key, value) :: rest else (k, v) :: set key value rest

/-- A dictionary with keys given as text. -/
def ofList (entries : List (String × Obj α)) : Dict α :=
  entries.map fun e => (bytesOf e.1, e.2)

@[simp] theorem get?_set_self (key : Bytes) (value : Obj α) (d : Dict α) :
    get? key (set key value d) = some value := by
  induction d with
  | nil => simp [set, get?]
  | cons e rest ih =>
    obtain ⟨k, v⟩ := e
    by_cases h : k == key
    · simp [set, h, get?]
    · have : get? key ((k, v) :: set key value rest) = get? key (set key value rest) := by
        simp [get?, h]
      simp only [set, h, Bool.false_eq_true, if_false, this, ih]

end Dict

namespace Obj

variable {α : Type}

def nameOf (s : String) : Obj α := .name (bytesOf s)

/-- Text for a font of the standard encoding. -/
def textOf (s : String) : Obj α := .string .literal (Text.encodeLatin1 s)

def asDict? : Obj α → Option (Dict α)
  | .dictionary entries => some entries
  | _ => none

def asArray? : Obj α → Option (List (Obj α))
  | .array items => some items
  | _ => none

def asReference? : Obj α → Option Nat
  | .reference n _ => some n
  | _ => none

/-- A number, whole or not. -/
def asScalar? [Scalar α] : Obj α → Option α
  | .integer n => some (if n < 0 then -((n.natAbs : α)) else (n.natAbs : α))
  | .real x => some x
  | _ => none

end Obj

/-- An operator of a content stream with the operands in front of it. -/
structure Operation (α : Type) where
  operator : String
  operands : List (Obj α)

/-- Resource name of a standard font: an `F` and the base name without hyphens. -/
def fontResourceName (baseFont : String) : String :=
  String.ofList ('F' :: baseFont.toList.filter (· != '-'))

end Folio.Pdf
