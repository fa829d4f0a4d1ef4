import Folio.Resource.FileTree

/-!
What goes wrong between an engine and the place its document goes to: calls that come out of order,
content that cannot be laid out, and bytes that nobody takes.
-/
namespace Folio

/-- Why a file or a writer does not take what it is given. -/
inductive IoFault where
  | path (error : Resource.PathError)
  | refused (reason : String)
  deriving DecidableEq, Repr

def IoFault.reason : IoFault → String
  | path .missing => "no such file or directory"
  | path .notDirectory => "not a directory"
  | path .isDirectory => "is a directory"
  | path .tooManyLinks => "too many links"
  | path .nameTooLong => "a name is too long"
  | path .malformed => "the path is malformed"
  | refused reason => reason

/-- A call that an engine is not ready for. -/
inductive OrderFault where
  | notOpen | alreadyOpened | alreadyClosed
  deriving DecidableEq, Repr

def OrderFault.reason : OrderFault → String
  | notOpen => "document is not open"
  | alreadyOpened => "document was already opened"
  | alreadyClosed => "document is already closed"

inductive EngineError where
  | outOfOrder (fault : OrderFault)
  | layout (reason : String)
  /-- A drawing whose operators cannot be read. -/
  | invalidDrawing
  | encoding (reason : String)
  | io (fault : IoFault)
  deriving DecidableEq, Repr

def EngineError.message : EngineError → String
  | outOfOrder fault => "Engine used out of order: " ++ fault.reason
  | layout reason => "Layout failed: " ++ reason
  | invalidDrawing => "Layout failed: invalid vector content"
  | encoding reason => "Encoding failed: " ++ reason
  | io fault => "I/O error: " ++ fault.reason

end Folio
