import Folio.Engine.Error
import Folio.Node.Basic
import Folio.Pdf.Document
import Folio.Pdf.Overlay
import Folio.Style.Page

/-!
The interface of an engine, which lays nodes out on pages and hands over a finished document. It is
configured first, then opened, then given content and page breaks, and closed once. A call may fail;
the state it leaves is kept.
-/
namespace Folio

open Style

/-- Entries of the information dictionary of a document. -/
structure DocumentInfo where
  title : Option String
  subject : Option String
  author : Option String
  creator : Option String
  /-- One more entry, by its own name. -/
  custom : Option (String × String)
  deriving DecidableEq, Repr

def DocumentInfo.empty : DocumentInfo := ⟨none, none, none, none, none⟩

/-- A footer that an engine draws by itself, without knowing the total of pages. -/
structure RunningFooter (α : Type) where
  text : String
  align : TextAlign
  pageNumbers : Bool
  startPage : Nat
  font : Font α

/-- What an engine hands over: a document, or bytes that need not be one. -/
inductive Payload (α : Type) where
  | document (doc : Pdf.Document α)
  | bytes (data : Pdf.Bytes)

abbrev EngineM (σ : Type) := ExceptT EngineError (StateM σ)

structure Engine (α σ : Type) where
  start : σ
  setGeometry : Geometry α → σ → σ
  setInfo : DocumentInfo → σ → σ
  setFooter : Option (RunningFooter α) → σ → σ
  /-- Events run in the order in which they were added, whenever a page is finished. -/
  addEvent : Pdf.PageEvent α → σ → σ
  openDocument : EngineM σ Unit
  /-- The header of every page that is started from now on. -/
  setHeader : Option String → σ → σ
  add : Node α → EngineM σ Unit
  /-- Starts a new page unless the page is still empty, and says whether it did. -/
  newPage : EngineM σ Bool
  /-- The page that is being filled, counted from one. -/
  pageNumber : σ → Nat
  textWidth : String → Font α → α
  /-- Ends the document, with the number of its pages. -/
  close : EngineM σ (Nat × Payload α)
  /-- What the engine reports when its document is not taken. -/
  unwritten : IoFault → EngineError

end Folio
