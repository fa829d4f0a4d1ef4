import Folio.Compile.Renderer
import Folio.Markup.Element
import Folio.Resource.Provider

/-!
Why markup does not compile. Nothing malformed is ever replaced by a default.
-/
namespace Folio.Compile

open Markup (Malformed)

/-- What is wrong with the form of a node. -/
inductive NodeFault where
  | malformed (fault : Malformed)
  | notText
  | untitled (tag : String)
  | unnamedReference
  | headerEntry
  | rowNotArray
  | notACell (kind : String)
  | directive
  deriving DecidableEq, Repr

def NodeFault.reason : NodeFault → String
  | malformed fault => fault.reason
  | notText => "only text is allowed here"
  | untitled tag => tag ++ " needs a title"
  | unnamedReference => "reference needs an id"
  | headerEntry => "header entries are text, markup or [content, attributes]"
  | rowNotArray => "table rows must be arrays"
  | notACell kind => "cell compiled to " ++ kind
  | directive => "page directives are only allowed at the top level"

/-- An explicit number of columns may not be larger. -/
def maxColumns : Nat := 256

inductive CompileError where
  | unknownTag (tag : String) (node : Json)
  | emptyTable
  | columnWidthMismatch (expected actual : Nat)
  | unsupportedImageSource (node : Json)
  | unresolvedReference (id : String)
  /-- `chain` begins and ends with `id`. -/
  | referenceCycle (id : String) (chain : List String)
  | invalidNode (fault : NodeFault) (node : Json)
  | tooManyColumns (tag : String) (columns : Nat)
  | imageData
  | color (fault : Style.Color.Fault)
  | resource (error : Resource.ResourceError)
  | render (error : RenderError)
  /-- The markup stands inside itself without end: a header row holds its own table. -/
  | endless

namespace CompileError

/-- Some faults leave a call without any answer: a colour that is cut through a character, and
markup without end. -/
def isAnswer : CompileError → Bool
  | color _ | endless => false
  | _ => true

def message : CompileError → String
  | unknownTag tag node => "Unknown tag '" ++ tag ++ "' in node " ++ node.text
  | emptyTable => "Table has no rows"
  | columnWidthMismatch expected actual =>
    "Grid table has " ++ toString expected ++ " columns but " ++ toString actual
      ++ " widths were given"
  | unsupportedImageSource node => "Unsupported image source in node " ++ node.text
  | unresolvedReference id => "Unresolved reference '" ++ id ++ "'"
  | referenceCycle id chain =>
    "Reference '" ++ id ++ "' refers back to itself through " ++ String.intercalate " -> " chain
  | invalidNode fault node => "Invalid node (" ++ fault.reason ++ "): " ++ node.text
  | tooManyColumns tag columns =>
    "Invalid value for 'num-cols' on '" ++ tag ++ "': " ++ toString columns
      ++ " columns exceeds the limit of " ++ toString maxColumns
  | imageData => "Image data could not be read"
  | color fault => "Invalid color: " ++ fault.reason
  | resource error => "Resource error: " ++ error.message
  | render error => "Renderer failed: " ++ error.message
  | endless => "The markup contains itself without end"

end CompileError

end Folio.Compile
