import Folio.Compile.Outline
import Folio.Compile.Table
import Folio.Compile.Picture

/-!
The compiler: a raw node and a context in, a node of the document out. One step deals with one
element and hands its children on; `compile` iterates the step as deep as the markup can go, which
is bounded because a descent passes at most once through every reference and, between two of them,
at most once through the header of every class.
-/
namespace Folio.Compile

open Style Markup

variable {α : Type} [Scalar α]

/-- Compiles an element of a known tag in its own context. -/
def compileTag (env : Env α) (compile : Compiling α) (tag : Tag) (e : Element)
    (context : Context) : CompileM α (Node α) :=
  match tag with
  | .chunk => compileChunk e context
  | .heading => compileHeading compile e context
  | .paragraph => compileParagraph compile e context
  | .phrase => compilePhrase compile e context
  | .subscript => compileSubscript e context
  | .superscript => compileSuperscript e context
  | .list => compileList compile e context
  | .table => compileTable compile e context
  | .gridTable => compileGridTable compile e context
  | .cell => return .cell (← compileCell compile false e context)
  | .gridCell => return .gridCell (← compileCell compile true e context)
  | .image => compileImage env e context
  | .chart => compileRendered env .chart e context
  | .svg => compileRendered env .svg e context
  | .graphics => compileRendered env .graphics e context
  | .anchor => compileAnchor compile e context
  | .note => compileNote e context
  | .chapter => compileChapter compile e context
  | .subsection => compileSection compile e context
  | .line => ruleNode context
  | .spacer => spacerNode e context
  | .rectangle => rectangleNode context
  | .reference => compileReference env compile e context
  | .pageBreak | .clearDoublePage => invalid .directive e.raw

/-- One step: a leaf, or an element whose children `compile` deals with. -/
def compileStep (env : Env α) (compile : Compiling α) : Compiling α := fun node context =>
  match leafText? node with
  | some text => textNode text context
  | none =>
    match Element.parse node with
    | .error fault => invalid (.malformed fault) node
    | .ok e =>
      match e.tag? with
      | none => throw (.unknownTag e.token.primary node)
      | some tag => compileTag env compile tag e (resolve context env.sheet e.token.classes e.attrs)

def compileWithin (env : Env α) : Nat → Compiling α
  | 0 => fun _ _ => throw .endless
  | steps + 1 => compileStep env (compileWithin env steps)

/-- Depth of the deepest raw value that compiling a node can reach. -/
def reachableDepth (env : Env α) (node : Json) (context : Context) : Nat :=
  max (max node.depth (Json.depthFields context.attrs))
    (max (Json.depthFields env.references)
      (env.sheet.classes.foldl (fun d c => max d (Json.depthFields c.2)) 0))

/-- More steps than any descent can take that comes to an end. -/
def stepBound (env : Env α) (node : Json) (context : Context) : Nat :=
  (env.references.length + 1) * (env.sheet.size + 2) * (reachableDepth env node context + 2)

/-- Compiles a node in the state that earlier nodes of the document left. -/
def compile (env : Env α) : Compiling α := fun node context =>
  compileWithin env (stepBound env node context) node context

end Folio.Compile
