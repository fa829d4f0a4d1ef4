import Folio.Assembly.Config
import Folio.Assembly.Destination
import Folio.Assembly.Source
import Folio.Assembly.Stamping
import Folio.Compile.Compiler

/-!
The assembler builds documents: it sets an engine up from the metadata, feeds it the compiled items
one after the other, and passes what the engine hands over on to a destination, stamped if the total
of pages is wanted. It can run any number of builds, and none sees what another one compiled.
-/
namespace Folio.Assembly

open Style Markup Compile

/-- What the assembler is given once, for all of its builds. -/
structure Assembler (σ : Type) where
  engine : Engine Single σ
  renderers : RendererKind → Option (Renderer Single)
  resources : Resource.Provider
  bitmaps : Resource.Memory
  /-- Page events by the names under which documents ask for them. -/
  pageEvents : List (String × Pdf.PageEvent Single)
  /-- Drawn on every page once the total is known, in this order. -/
  pageStamps : List (Pdf.PageEvent Single)

structure BuildSummary where
  pages : Nat
  strategy : OutputStrategy
  cache : Cache.Stats
  deriving DecidableEq, Repr

/-- A build on the way. -/
structure Progress (σ : Type) where
  engine : σ
  compiler : State Single
  destination : Destination

abbrev BuildM (σ : Type) := ExceptT PipelineError (StateM (Progress σ))

variable {σ : Type}

def runEngine {β : Type} (act : EngineM σ β) : BuildM σ β := fun p =>
  let (result, engine) := act.run p.engine
  (result.mapError .engine, { p with engine })

def runCompiler {β : Type} (act : CompileM Single β) : BuildM σ β := fun p =>
  let (result, compiler) := act.run p.compiler
  (result.mapError .compile, { p with compiler })

/-- Calls the destination; `report` says what a fault of it means. -/
def runDestination (report : IoFault → PipelineError) (act : DestinationM Unit) : BuildM σ Unit :=
  fun p =>
    let (result, destination) := act.run p.destination
    (result.mapError report, { p with destination })

/-- What comes of `act`, of which a failure does not end the build; a build that is left without an
answer ends there. -/
def outcome {β : Type} (act : BuildM σ β) : BuildM σ (Except PipelineError β) := fun p =>
  let (result, p) := act.run p
  match result with
  | .ok b => (.ok (.ok b), p)
  | .error e => (if e.isAnswer then .ok (.error e) else .error e, p)

def setEngine (f : σ → σ) : BuildM σ Unit := modify fun p => { p with engine := f p.engine }

/-- Leading of the paragraph around a table. -/
def tableLeading : Number := .real 20

/-- Bare text becomes a paragraph, and a table is put into one. -/
def preprocess (item : Json) : Json :=
  if (leafText? item).isSome then .array [.string "paragraph", item]
  else
    match tagOf? item with
    | some .table | some .gridTable =>
      .array [.string "paragraph", .object [("leading", .number tableLeading)], item]
    | _ => item

/-- What an item is compiled and added with. -/
structure Setting (σ : Type) where
  engine : Engine Single σ
  env : Env Single
  context : Context

def addItem (s : Setting σ) (item : Json) : BuildM σ Unit := do
  let node ← runCompiler (compile s.env item s.context)
  runEngine (s.engine.add node)

/-- Starts a page with an odd number, behind an empty page if there has to be one. -/
def clearDoublePage (s : Setting σ) : BuildM σ Unit := do
  let _ ← runEngine s.engine.newPage
  if s.engine.pageNumber (← get).engine % 2 = 0 then
    addItem s (.array [.string "spacer"])
    let _ ← runEngine s.engine.newPage

def appendSingle (s : Setting σ) (item : Json) : BuildM σ Unit := do
  match tagOf? item with
  | some .pageBreak =>
    let _ ← runEngine s.engine.newPage
  | some .clearDoublePage => clearDoublePage s
  | _ => addItem s (preprocess item)

def appendEach (s : Setting σ) : List Json → BuildM σ Unit
  | [] => return ()
  | item :: rest => do
    appendSingle s item
    appendEach s rest

/-- The members of a group, which is an array that starts with an array; else the item alone. -/
def membersOf : Json → List Json
  | .array (.array first :: rest) => .array first :: rest
  | item => [item]

def appendAll (s : Setting σ) : List Json → BuildM σ Unit
  | [] => return ()
  | item :: rest => do
    appendEach s (membersOf item)
    appendAll s rest

namespace Assembler

def findEvent (a : Assembler σ) (name : String) : Except PipelineError (Pdf.PageEvent Single) :=
  match a.pageEvents.find? (·.1 == stripKeyword name) with
  | some (_, event) => .ok event
  | none => .error (.config (.pageEvent name))

def addEvents (a : Assembler σ) : List String → BuildM σ Unit
  | [] => return ()
  | name :: rest => do
    match a.findEvent name with
    | .ok event => setEngine (a.engine.addEvent event)
    | .error error => throw error
    addEvents a rest

/-- The footer of the second pass, which has it only if the total is to stand in it. -/
def stampedFooter (config : DocumentConfig) (strategy : OutputStrategy) :
    Option (FooterLayout Single) :=
  if strategy = .bufferThenStamp && config.totals then config.footer else none

/-- The footer that the engine draws, which has none where the second pass draws it. -/
def engineFooter (config : DocumentConfig) (strategy : OutputStrategy) :
    Option (RunningFooter Single) :=
  if strategy = .bufferThenStamp && config.totals then none
  else config.footer.map FooterLayout.running

def configure (a : Assembler σ) (config : DocumentConfig) (strategy : OutputStrategy) :
    BuildM σ Unit := do
  setEngine (a.engine.setGeometry config.geometry)
  setEngine (a.engine.setInfo config.info)
  setEngine (a.engine.setFooter (engineFooter config strategy))
  a.addEvents config.pageEvents

def setting (a : Assembler σ) (config : DocumentConfig) : Setting σ where
  engine := a.engine
  env := .ofParts config.sheet config.references a.resources a.renderers a.bitmaps
  context := config.ambient

/-- Hands the document over as it is. -/
def writeDirectly (a : Assembler σ) : BuildM σ Nat := do
  let (pages, payload) ← runEngine a.engine.close
  runDestination (fun fault => .engine (a.engine.unwritten fault)) (Destination.write payload)
  return pages

/-- Draws on the finished pages before they are handed over. -/
def writeStamped (a : Assembler σ) (footer : Option (FooterLayout Single)) : BuildM σ Nat := do
  match ← runEngine a.engine.close with
  | (_, .bytes _) => throw .unreadable
  | (_, .document doc) =>
    match stampDocument (pageStamp a.engine.textWidth footer a.pageStamps) doc.stored with
    | .error fault => throw (.stamping fault)
    | .ok (pages, stamped) =>
      runDestination .io (Destination.write (.document stamped))
      return pages

/-- From an engine without settings to a written document; the number of its pages. -/
def assemble (a : Assembler σ) (config : DocumentConfig) (strategy : OutputStrategy)
    (source : Source) : BuildM σ Nat := do
  a.configure config strategy
  let setting := a.setting config
  runEngine a.engine.openDocument
  appendAll setting config.letterhead
  setEngine (a.engine.setHeader config.header)
  let (items, faulty) := source.drain
  appendAll setting items
  if faulty then throw .malformed
  match strategy with
  | .directWrite => a.writeDirectly
  | .bufferThenStamp => a.writeStamped (stampedFooter config strategy)

/-- Opens the destination, assembles and flushes; a fault of assembling comes before one of
flushing. -/
def run (a : Assembler σ) (config : DocumentConfig) (source : Source) : BuildM σ BuildSummary := do
  let strategy := OutputStrategy.resolve config a.pageStamps.length
  runDestination .io Destination.start
  let result ← outcome (a.assemble config strategy source)
  let flushed ← outcome (runDestination .io Destination.flush)
  let pages ← ofExcept result
  ofExcept flushed
  return ⟨pages, strategy, (← get).compiler.cache.stats⟩

/-- Builds a document held in memory: an array that may begin with its metadata. -/
def build (a : Assembler σ) (document : Json) : BuildM σ BuildSummary := do
  match document with
  | .array (.object fs :: items) =>
    let config ← ofExcept (DocumentConfig.read (.object fs))
    a.run config (.held items)
  | .array items => a.run .standard (.held items)
  | v => throw (.config (.document v))

def buildItems (a : Assembler σ) (config : DocumentConfig) (items : List Json) :
    BuildM σ BuildSummary :=
  a.run config (.held items)

/-- Builds a document written as forms one behind the other, the first of which may be its
metadata. -/
def buildFromText (a : Assembler σ) (text : String) : BuildM σ BuildSummary := do
  let forms := Json.Forms.ofText text
  match forms.next with
  | (.value (.object fs), rest) =>
    a.run (← ofExcept (DocumentConfig.read (.object fs))) (.forms rest)
  | (.value first, rest) => a.run .standard (.prepended first rest)
  | (.fault, _) => throw .malformed
  | (.finished, rest) => a.run .standard (.forms rest)

/-- Where every build begins. -/
def begin (a : Assembler σ) (destination : Destination) : Progress σ :=
  ⟨a.engine.start, .initial, destination⟩

end Assembler

end Folio.Assembly
