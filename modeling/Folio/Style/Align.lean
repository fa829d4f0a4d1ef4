import Folio.Style.Keyword

/-!
Horizontal and vertical alignment by name. A name that is not known counts as one that is not given.
-/
namespace Folio.Style

inductive TextAlign where
  | left | center | right | justified
  deriving DecidableEq, Repr, Inhabited

inductive VerticalAlign where
  | top | middle | bottom
  deriving DecidableEq, Repr, Inhabited

namespace TextAlign

def name : TextAlign → String
  | left => "left"
  | center => "center"
  | right => "right"
  | justified => "justified"

def parse? (s : String) : Option TextAlign :=
  match plainName s with
  | "left" => some left
  | "center" | "centre" => some center
  | "right" => some right
  | "justified" | "justify" => some justified
  | _ => none

def parseOr (s : Option String) (default : TextAlign) : TextAlign :=
  (s.bind parse?).getD default

end TextAlign

namespace VerticalAlign

def name : VerticalAlign → String
  | top => "top"
  | middle => "middle"
  | bottom => "bottom"

def parse? (s : String) : Option VerticalAlign :=
  match plainName s with
  | "top" => some top
  | "middle" | "center" => some middle
  | "bottom" => some bottom
  | _ => none

def parseOr (s : Option String) (default : VerticalAlign) : VerticalAlign :=
  (s.bind parse?).getD default

end VerticalAlign

end Folio.Style
