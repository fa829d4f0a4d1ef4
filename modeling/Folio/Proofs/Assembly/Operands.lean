import Folio.Proofs.Assembly.Builds
import Folio.Proofs.Compile.FiniteMarkup
import Folio.Proofs.Flow.FinitePages

/-!
# Operands that a file can express

A content stream can write finite numbers only. In exact arithmetic a document without renderers and
events draws no other ones, as long as its markup, its geometry and its footers hold no other ones:
layout never divides by nought and never leads out of the finite numbers by itself. But markup can
hold others, because a text may write what is not a number or an infinity, and a number may be too
large for single precision; nothing on the way to the page stops those.
-/
namespace Folio.Assembly

open Style Compile Flow Pdf

/-- An environment in which nothing is named. -/
def bareEnv : Env Extended :=
  ⟨.empty, [], Resource.Memory.empty.provider, fun _ => none, .empty⟩

/-- Without a footer, so that nothing is drawn but the items. -/
def unfooted : DocumentConfig := { DocumentConfig.standard with footer := none }

end Folio.Assembly
