import Folio.Compile.Inline

/-!
Chapters, sections, annotations and references. Chapters are numbered through the document, sections
within the chapter or section around them; a reference that is met while its own target is being
compiled is a cycle.
-/
namespace Folio.Compile

open Style Markup

variable {α : Type} [Scalar α]

/-- A title, then the children. -/
def compileTitled (compile : Compiling α) (e : Element) (context : Context) :
    CompileM α (Node α × List (Node α)) :=
  match e.children with
  | [] => invalid (.untitled e.token.primary) e.raw
  | title :: rest => do
    let title ← compile title context.inheritable
    let children ← compileChildren compile rest context
    return (title, children)

/-- Compiles with a numbered frame open. -/
def withinFrame {β : Type} (number : List Nat) (act : CompileM α β) : CompileM α β :=
  within (fun s => { s with outline := ⟨number, 0⟩ :: s.outline })
    (fun s => { s with outline := s.outline.tail }) act

def nextChapter : CompileM α Nat :=
  modifyGet fun s => (s.chapters + 1, { s with chapters := s.chapters + 1 })

def compileChapter (compile : Compiling α) (e : Element) (context : Context) :
    CompileM α (Node α) := do
  let number ← nextChapter
  let (title, children) ← withinFrame [number] (compileTitled compile e context)
  return .chapter number title children

/-- The number of the next section of the innermost frame; none without a frame. -/
def nextSection : CompileM α (List Nat) :=
  modifyGet fun s =>
    match s.outline with
    | [] => ([], s)
    | frame :: frames =>
      let sections := frame.sections + 1
      (frame.number ++ [sections], { s with outline := { frame with sections } :: frames })

def compileSection (compile : Compiling α) (e : Element) (context : Context) :
    CompileM α (Node α) := do
  let number ← nextSection
  let (title, children) ←
    if number.isEmpty then compileTitled compile e context
    else withinFrame number (compileTitled compile e context)
  return .subsection number ((context.scalar? "indent").getD 0) title children

def compileNote (e : Element) (context : Context) : CompileM α (Node α) := do
  let text ← leafText e
  return .note ((context.keyword? "title").getD "") text

/-- Runs `act` with `id` marked as being resolved, unless it already is. -/
def resolving {β : Type} (id : String) (act : CompileM α β) : CompileM α β := do
  let open? := (← get).resolving
  if open?.contains id then
    throw (.referenceCycle id (open?.dropWhile (· != id) ++ [id]))
  else
    within (fun s => { s with resolving := s.resolving ++ [id] })
      (fun s => { s with resolving := s.resolving.dropLast }) act

/-- The id a reference names: its only text, or else its attribute. -/
def referenceId? (e : Element) (context : Context) : Option String :=
  (e.textChild?.or (context.keyword? "id")).map stripKeyword

def compileReference (env : Env α) (compile : Compiling α) (e : Element) (context : Context) :
    CompileM α (Node α) := do
  match referenceId? e context with
  | none => invalid .unnamedReference e.raw
  | some id =>
    let target ← memo (.reference id) do
      match Fields.get? id env.references with
      | none => throw (.unresolvedReference id)
      | some raw => resolving id (compile raw context.inheritable)
    return .reference id target

end Folio.Compile
