import Folio.Cache
import Folio.Compile.Error
import Folio.Style.Sheet

/-!
What compiling reads and what it changes. The environment is fixed for a document; the state holds
the cache, the numbering of chapters and sections and the references whose targets are being
compiled. A failure keeps the state, so `within` undoes what it opened on failure too.
-/
namespace Folio.Compile

open Style (Context Sheet)

structure Env (α : Type) where
  sheet : Sheet
  /-- Raw targets by reference id. -/
  references : Fields
  resources : Resource.Provider
  renderers : RendererKind → Option (Renderer α)
  bitmaps : Resource.Memory

/-- An environment with targets whose ids may be spelt as keywords. -/
def Env.ofParts {α : Type} (sheet : Sheet) (references : Fields) (resources : Resource.Provider)
    (renderers : RendererKind → Option (Renderer α)) (bitmaps : Resource.Memory) : Env α :=
  ⟨sheet, Style.normalizeKeys references, resources, renderers, bitmaps⟩

/-- A numbered chapter or section that is being compiled, with the sections counted so far. -/
structure Frame where
  number : List Nat
  sections : Nat
  deriving DecidableEq, Repr

structure State (α : Type) where
  cache : Cache (Node α)
  chapters : Nat
  /-- Open chapters and sections, the innermost first. -/
  outline : List Frame
  /-- Ids of the references being resolved, the outermost first. -/
  resolving : List String
  /-- How often a renderer was asked. -/
  renders : Nat

def State.initial {α : Type} : State α := ⟨.empty, 0, [], [], 0⟩

abbrev CompileM (α : Type) := ExceptT CompileError (StateM (State α))

/-- How a node is compiled in a context. -/
abbrev Compiling (α : Type) := Json → Context → CompileM α (Node α)

variable {α β : Type}

/-- Runs `act` between two changes of the state, the second one whether it succeeds or not. -/
def within (enter leave : State α → State α) (act : CompileM α β) : CompileM α β := fun s =>
  let (result, after) := act.run (enter s)
  (result, leave after)

@[reducible] def cacheState : MonadStateOf (Cache (Node α)) (CompileM α) where
  get := do return (← get).cache
  set cache := modify fun s => { s with cache }
  modifyGet f := modifyGet fun s =>
    let (result, cache) := f s.cache
    (result, { s with cache })

/-- The content stored under `key`, computed and stored if there is none. -/
def memo (key : Cache.Key) (compute : CompileM α (Node α)) : CompileM α (Node α) :=
  @Cache.getOrCompute _ (CompileM α) _ cacheState key compute

/-- What comes of reading a colour, or a font with one. -/
def ofColor : Except Style.Color.Fault β → CompileM α β
  | .ok b => return b
  | .error fault => throw (.color fault)

def fontOf [Scalar α] (context : Context) : CompileM α (Style.Font α) :=
  ofColor (Style.Font.ofContext context)

def colorOf? (context : Context) (key : String) : CompileM α (Option Style.Color) :=
  ofColor (context.color? key)

/-- The first of two colours that is there; the second is read only without it. -/
def firstColor? (context : Context) (first second : String) :
    CompileM α (Option Style.Color) := do
  match ← colorOf? context first with
  | some color => return some color
  | none => colorOf? context second

def invalid (fault : NodeFault) (node : Json) : CompileM α β := throw (.invalidNode fault node)

end Folio.Compile
