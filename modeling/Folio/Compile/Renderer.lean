import Folio.Node.Basic

/-!
Renderers draw what the markup only describes: charts, vector pictures and free graphics. A renderer
gets the children of an element and the context it stands in.
-/
namespace Folio.Compile

inductive RendererKind where
  | chart | svg | graphics
  deriving DecidableEq, Repr

def RendererKind.name : RendererKind → String
  | chart => "chart"
  | svg => "svg"
  | graphics => "graphics"

inductive RenderError where
  | unavailable (kind : String)
  | invalidSpec (kind reason : String)
  | failed (reason : String)
  deriving DecidableEq, Repr

def RenderError.message : RenderError → String
  | unavailable kind => "No renderer registered for '" ++ kind ++ "'"
  | invalidSpec kind reason => "Invalid " ++ kind ++ " description: " ++ reason
  | failed reason => "Rendering failed: " ++ reason

abbrev Renderer (α : Type) := List Json → Style.Context → Except RenderError (Drawable α)

end Folio.Compile
