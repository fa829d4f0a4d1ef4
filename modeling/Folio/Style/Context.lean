import Folio.Style.Keyword
import Folio.Style.Color

/-!
The attributes in force at a place of the markup. A context is a map that is never changed in
place: laying further attributes over it makes a new one. Attributes that describe one element alone
are named in `localAttributes` and are taken out before its children see the context.
-/
namespace Folio.Style

/-- Attributes of a single element, never of what stands inside it. -/
def localAttributes : List String :=
  ["base64", "colspan", "dingbat-number", "dingbats", "first-line-indent", "greek", "handle",
    "header", "height", "id", "indent", "keep-together", "leading", "lettered", "num-cols",
    "numbered", "roman", "rowspan", "scale", "spacing-after", "spacing-before", "symbol", "target",
    "title", "type", "widths", "width", "xscale", "yscale"]

structure Context where
  attrs : Fields

instance : BEq Context := ⟨fun a b => Json.beqFields a.attrs b.attrs⟩
instance : Inhabited Context := ⟨⟨[]⟩⟩

/-- Takes the colon off every key; of two spellings the later in key order stays. -/
def normalizeKeys (fs : Fields) : Fields :=
  Fields.ofList (fs.map fun entry => (stripKeyword entry.1, entry.2))

/-- A number, or a text that writes one. -/
def scalarOf? {α : Type} [Scalar α] : Json → Option α
  | .number n => some (Scalar.ofNumber n)
  | .string s => (Decimal.Reading.parse? (Text.trim s).toList).map Scalar.ofReading
  | _ => none

namespace Context

def empty : Context := ⟨[]⟩

def ofFields (fs : Fields) : Context := ⟨normalizeKeys fs⟩

def get? (c : Context) (key : String) : Option Json := Fields.get? key c.attrs

def contains (c : Context) (key : String) : Bool := Fields.contains key c.attrs

def isEmpty (c : Context) : Bool := c.attrs.isEmpty

/-- Lays `overlay` over the context. -/
def merge (c : Context) (overlay : Fields) : Context :=
  ⟨overlay.foldl (fun fs entry => Fields.insert (stripKeyword entry.1) entry.2 fs) c.attrs⟩

def set (c : Context) (key : String) (value : Json) : Context :=
  ⟨Fields.insert key value c.attrs⟩

def without (c : Context) (keys : List String) : Context :=
  ⟨c.attrs.filter fun entry => !keys.contains entry.1⟩

/-- What the children of an element inherit. -/
def inheritable (c : Context) : Context := c.without localAttributes

def scalar? {α : Type} [Scalar α] (c : Context) (key : String) : Option α :=
  (c.get? key).bind scalarOf?

/-- A whole number that fits in 32 bits. -/
def count? (c : Context) (key : String) : Option Nat :=
  ((c.get? key).bind Json.asCount?).filter (· < 4294967296)

/-- Is the attribute set to anything but `false` and `null`? -/
def flag (c : Context) (key : String) : Bool :=
  match c.get? key with
  | none | some .null | some (.bool false) => false
  | some _ => true

/-- A text less the colon of its keyword spelling. -/
def keyword? (c : Context) (key : String) : Option String :=
  ((c.get? key).bind Json.asString?).map stripKeyword

/-- A text as it is written. -/
def text? (c : Context) (key : String) : Option String :=
  (c.get? key).bind Json.asString?

def color? (c : Context) (key : String) : Except Color.Fault (Option Color) :=
  match c.get? key with
  | some value => Color.read value
  | none => .ok none

def fields? (c : Context) (key : String) : Option Fields :=
  (c.get? key).bind Json.asFields?

@[simp] theorem merge_nil (c : Context) : c.merge [] = c := rfl

theorem merge_append (c : Context) (a b : Fields) : c.merge (a ++ b) = (c.merge a).merge b := by
  simp [merge]

end Context

end Folio.Style
