import Folio.Flow.Block
import Folio.Flow.Document
import Folio.Pdf.Content

/-!
The engine that flows nodes onto pages. It takes its geometry only before it is opened and content
only while it is open; closing it drops a last page without content, unless it is the only one.
-/
namespace Folio.Flow

open Style

variable {α : Type} [Scalar α]

namespace Layout

def setGeometry (geometry : Geometry α) (s : Layout α) : Layout α :=
  if s.phase = .configuring then { s with geometry, cursor := top geometry } else s

def setInfo (info : DocumentInfo) (s : Layout α) : Layout α := { s with info }

def setFooter (footer : Option (RunningFooter α)) (s : Layout α) : Layout α := { s with footer }

def setHeader (header : Option String) (s : Layout α) : Layout α := { s with header }

def addEvent (event : Pdf.PageEvent α) (s : Layout α) : Layout α :=
  { s with events := s.events ++ [event] }

/-- Finishes the page unless it is left out, and lets nothing more in. -/
def conclude (s : Layout α) : Layout α :=
  let s := if s.page.hasContent || s.finished.isEmpty then s.finishPage else s
  { s with phase := .closed }

end Layout

def openDocument : FlowM α Unit := do
  if (← get).phase = .configuring then modify fun s => { s with phase := .opened }.startPage 1
  else throw (.outOfOrder .alreadyOpened)

def requireOpen : FlowM α Unit := do
  match (← get).phase with
  | .opened => return ()
  | .configuring => throw (.outOfOrder .notOpen)
  | .closed => throw (.outOfOrder .alreadyClosed)

def add (n : Node α) : FlowM α Unit := do
  requireOpen
  addBlock n

def newPage : FlowM α Bool := do
  requireOpen
  if (← get).page.hasContent then
    modify Layout.breakPage
    return true
  else return false

def close (encode : List (Pdf.Operation α) → Pdf.Bytes) : FlowM α (Nat × Payload α) := do
  requireOpen
  modify Layout.conclude
  let s ← get
  return (s.finished.length, .document (s.document encode))

/-- The engine with a way of encoding contents. -/
def engine (encode : List (Pdf.Operation α) → Pdf.Bytes) : Engine α (Layout α) where
  start := .initial
  setGeometry := Layout.setGeometry
  setInfo := Layout.setInfo
  setFooter := Layout.setFooter
  addEvent := Layout.addEvent
  openDocument := openDocument
  setHeader := Layout.setHeader
  add := add
  newPage := newPage
  pageNumber s := s.page.number
  textWidth := textWidth
  close := close encode
  unwritten fault := .encoding fault.reason

/-- The engine that every document is laid out with unless another one is asked for. -/
def standardEngine : Engine Single (Layout Single) := engine Pdf.encodeOperations

end Folio.Flow
