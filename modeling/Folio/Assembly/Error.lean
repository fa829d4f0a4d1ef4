import Folio.Compile.Error
import Folio.Engine.Error
import Folio.Json.Printer
import Folio.Pdf.Document

/-!
Why a document is not built, by the part that gave up.
-/
namespace Folio.Assembly

/-- What is wrong with a document as a whole. -/
inductive ConfigFault where
  | metadata (v : Json)
  | document (v : Json)
  | pageEvent (name : String)

def ConfigFault.reason : ConfigFault → String
  | metadata v => "document metadata must be a map, got " ++ v.text
  | document v => "a document must be an array, got " ++ v.text
  | pageEvent name => "no page event registered as '" ++ name ++ "'"

inductive PipelineError where
  | compile (error : Compile.CompileError)
  | engine (error : EngineError)
  /-- The pages of the finished document cannot be drawn on. -/
  | stamping (fault : Pdf.StructureError)
  /-- What the engine handed over is no document. -/
  | unreadable
  /-- A value of the wrong kind, or none at all. -/
  | malformed
  | io (fault : IoFault)
  | config (fault : ConfigFault)

def PipelineError.isAnswer : PipelineError → Bool
  | compile error => error.isAnswer
  | _ => true

def PipelineError.message : PipelineError → String
  | compile error => "Compilation failed: " ++ error.message
  | engine error => "Document engine failed: " ++ error.message
  | stamping _ => "Page stamping failed: the document cannot be drawn on"
  | unreadable => "PDF error: not a document"
  | malformed => "JSON error: malformed value"
  | io fault => "I/O error: " ++ fault.reason
  | config fault => "Configuration error: " ++ fault.reason

end Folio.Assembly
