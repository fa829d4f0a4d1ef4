import Folio.Json.Printer
import Folio.Markup.Tag

/-!
Elements of the raw markup. A node is a text, a number, or an array of a tag token, perhaps a map of
attributes, and children.
-/
namespace Folio.Markup

/-- Why a value is no element. -/
inductive Malformed where
  | notTagged
  | headNotTag
  | empty
  deriving DecidableEq, Repr

def Malformed.reason : Malformed → String
  | notTagged => "expected a tagged array"
  | headNotTag => "the first element must be a tag name"
  | empty => "empty element"

structure Element where
  token : Token
  attrs : Option Fields
  children : List Json
  /-- The value the element was read from. -/
  raw : Json

namespace Element

def parse (node : Json) : Except Malformed Element :=
  match node with
  | .array (.string token :: .object attrs :: children) =>
    .ok ⟨Token.parse token, some attrs, children, node⟩
  | .array (.string token :: children) => .ok ⟨Token.parse token, none, children, node⟩
  | .array (_ :: _) => .error .headNotTag
  | .array [] => .error .empty
  | _ => .error .notTagged

def tag? (e : Element) : Option Tag := Tag.parse? e.token.primary

/-- The one string that is an element's only child. -/
def textChild? (e : Element) : Option String :=
  match e.children with
  | [.string s] => some s
  | _ => none

end Element

/-- The text of a string or number node. -/
def leafText? : Json → Option String
  | .string s => some s
  | .number n => some n.text
  | _ => none

/-- The tag of a node that has one. -/
def tagOf? : Json → Option Tag
  | .array (.string token :: _) => Tag.parse? (Token.parse token).primary
  | _ => none

theorem tagOf?_eq (node : Json) :
    tagOf? node = (Element.parse node).toOption.bind Element.tag? := by
  unfold tagOf? Element.parse
  split
  · rename_i token rest
    cases rest with
    | nil => rfl
    | cons x xs => cases x <;> rfl
  · split <;> simp_all [Except.toOption]

end Folio.Markup
