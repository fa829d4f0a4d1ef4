import Folio.Proofs.Compile.Parts
import Folio.Proofs.Run
import Mathlib.Logic.Relation

/-!
# What compiles alike

An element hands its parts on to be compiled, each in a context of its own. Runs of the compiler
from related states come out alike if they do for what is handed on.
-/
namespace Folio.Compile

open Style Markup Relation

variable {α : Type} {R : State α → State α → Prop} {compile : Compiling α}

/-! ## What is handed on -/

/-- Parts that see what the children of an element inherit. -/
def below (parts : List Json) (context : Context) : List (Json × Context) :=
  parts.map fun part => (part, context.inheritable)

/-- An entry of a row: a cell sees the context of the row itself. -/
def entryCall (context : Context) (entry : Json) : Json × Context :=
  (entry, if isCell entry then context else context.inheritable)

/-- An entry of a header: untagged content sees the attributes behind it. -/
def headerCalls (context : Context) (entry : Json) : List (Json × Context) :=
  match entry, tagOf? entry with
  | .array [content, .object inlined], none => below [content] (context.merge inlined)
  | .array _, none => []
  | _, _ => [entryCall context entry]

theorem headerCalls_of_tagged {context : Context} {entry : Json}
    (h : ∀ items, entry = .array items → tagOf? entry ≠ none) :
    headerCalls context entry = [entryCall context entry] := by
  unfold headerCalls
  split
  · next htag => exact absurd htag (h _ rfl)
  · next htag => exact absurd htag (h _ rfl)
  · rfl

/-- The entries of a header see its styles. -/
def headerRowCalls (row : HeaderRow) (context : Context) : List (Json × Context) :=
  let styled := match row.style with
    | some style => context.inheritable.merge style
    | none => context.inheritable
  row.entries.flatMap (headerCalls styled)

def tableCalls (rows : List Json) (context : Context) : List (Json × Context) :=
  ((HeaderRow.parse? (context.get? "header")).map (headerRowCalls · context)).getD [] ++
    (rowParts rows).map (entryCall context.inheritable)

/-- The context that an anchor's content is compiled in. -/
def anchorContext (context : Context) : Context :=
  match context.fields? "style" with
  | some style => context.merge style
  | none => context

/-- All that an element hands on, in its own context. Texts and numbers are among it, though some
rules deal with them by themselves. -/
def calls (env : Env α) (tag : Tag) (e : Element) (context : Context) : List (Json × Context) :=
  match tag with
  | .heading => below e.children ((headingContext context).without ["align"])
  | .paragraph | .phrase => below e.children (context.without ["align"])
  | .anchor => below e.children (anchorContext context)
  | .list | .cell | .gridCell | .chapter | .subsection => below e.children context
  | .table => tableCalls e.children context
  | .gridTable => tableCalls (gridRows e.children) context
  | .reference => below ((elementParts? env .reference e context).getD []) context
  | _ => []

/-- What a node hands on below a context. -/
def nodeCalls (env : Env α) (call : Json × Context) : List (Json × Context) :=
  (resolved env (fun tag e c => some (calls env tag e c)) call.2 call.1).getD []

/-- What is compiled for a node in its context, at any depth. -/
abbrev Calls (env : Env α) : Json × Context → Json × Context → Prop :=
  ReflTransGen fun call other => other ∈ nodeCalls env call

theorem nodeCalls_of_parse {env : Env α} {node : Json} {e : Element} {tag : Tag}
    (hparse : Element.parse node = .ok e) (htag : e.tag? = some tag) (context : Context) :
    nodeCalls env (node, context) =
      calls env tag e (resolve context env.sheet e.token.classes e.attrs) := by
  unfold nodeCalls
  rw [resolved_of_parse hparse htag]
  rfl

/-- What hands nothing on is all that is compiled. -/
theorem eq_of_calls {env : Env α} {call other : Json × Context} (h : Calls env call other)
    (hnone : nodeCalls env call = []) : other = call := by
  obtain rfl | ⟨next, hnext, -⟩ := h.cases_head
  · rfl
  · rw [hnone] at hnext
    cases hnext

/-- All of it compiles alike from related states. -/
def Alike (R : State α → State α → Prop) (compile : Compiling α) (handed : List (Json × Context)) :
    Prop :=
  ∀ call ∈ handed, Related R (compile call.1 call.2)

theorem Alike.of_subset {handed more : List (Json × Context)} (h : Alike R compile more)
    (hsub : handed ⊆ more) : Alike R compile handed := fun call hcall => h call (hsub hcall)

/-! ## Text -/

theorem related_ofColor {β : Type} (r : Except Color.Fault β) :
    Related R (ofColor r : CompileM α β) := by
  cases r with
  | ok b => exact related_pure b
  | error fault => exact related_throw _

variable [Scalar α]

theorem related_textRun (text : String) (context : Context) :
    Related R (textRun text context : CompileM α (TextRun α)) :=
  related_bind (related_ofColor _) fun _ => related_bind (related_ofColor _) fun _ => related_pure _

theorem related_textNode (text : String) (context : Context) :
    Related R (textNode text context : CompileM α (Node α)) :=
  related_bind (related_textRun text context) fun _ => related_pure _

end Folio.Compile
