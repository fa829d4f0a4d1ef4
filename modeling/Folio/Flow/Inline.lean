import Folio.Flow.Metrics
import Folio.Node.Basic
import Folio.Text.Blank

/-!
Inline content as a row of measured tokens. Text is cut into words, spaces and line ends, an
anchor's name becomes a mark without width, and every token carries the index of its style. A block
has no inline form; inside inline content its text stands for it.
-/
namespace Folio.Flow

open Style

structure RunStyle (α : Type) where
  font : Font α
  rise : α
  background : Option Color
  link : Option String

inductive TokenKind where
  | word | space | lineEnd | mark
  deriving DecidableEq, Repr

structure Token (α : Type) where
  text : String
  style : Nat
  width : α
  kind : TokenKind

structure InlineRun (α : Type) where
  styles : List (RunStyle α)
  tokens : List (Token α)

variable {α : Type} [Scalar α]

instance : BEq (RunStyle α) :=
  ⟨fun a b => a.font == b.font && a.rise == b.rise && a.background == b.background
    && a.link == b.link⟩

def RunStyle.plain (font : Font α) (link : Option String) : RunStyle α := ⟨font, 0, none, link⟩

instance : Inhabited (RunStyle α) := ⟨.plain .standard none⟩

namespace InlineRun

def empty : InlineRun α := ⟨[], []⟩

/-- The style with an index; every token of a run has one. -/
def styleAt (run : InlineRun α) (index : Nat) : RunStyle α := run.styles.getD index default

/-- The index of a style, which is added if no equal one is there. -/
def styleIndex (run : InlineRun α) (style : RunStyle α) : Nat × InlineRun α :=
  match run.styles.findIdx? (· == style) with
  | some index => (index, run)
  | none => (run.styles.length, { run with styles := run.styles ++ [style] })

end InlineRun

/-- A word read backwards, unless it is empty. -/
def wordToken (style : Nat) (font : Font α) (reversed : List Char) : List (Token α) :=
  if reversed.isEmpty then []
  else
    let text := String.ofList reversed.reverse
    [⟨text, style, textWidth text font, .word⟩]

/-- Cuts a text into tokens; `word` is what has been read of a word, backwards. -/
def tokenize (style : Nat) (font : Font α) (word : List Char) : List Char → List (Token α)
  | [] => wordToken style font word
  | c :: cs =>
    if c == '\n' then
      wordToken style font word ++ ⟨"", style, 0, .lineEnd⟩ :: tokenize style font [] cs
    else if Text.isBlank c then
      wordToken style font word
        ++ ⟨" ", style, textWidth " " font, .space⟩ :: tokenize style font [] cs
    else tokenize style font (c :: word) cs

def InlineRun.pushText (run : InlineRun α) (text : String) (style : RunStyle α) : InlineRun α :=
  let (index, run) := run.styleIndex style
  { run with tokens := run.tokens ++ tokenize index style.font [] text.toList }

/-- Marks the place that an anchor's name stands for. -/
def InlineRun.pushMark (run : InlineRun α) (name : String) (style : RunStyle α) : InlineRun α :=
  let (index, run) := run.styleIndex style
  { run with tokens := run.tokens ++ [⟨name, index, 0, .mark⟩] }

mutual

/-- Appends the tokens of an inline node; a block has none. -/
def collectInline (link : Option String) (run : InlineRun α) : Node α → Option (InlineRun α)
  | .text t => some (run.pushText t.text ⟨t.font, 0, t.background, link⟩)
  | .subscript t => some (run.pushText t.text ⟨t.font, -t.font.size * 0.3, t.background, link⟩)
  | .superscript t => some (run.pushText t.text ⟨t.font, t.font.size * 0.4, t.background, link⟩)
  | .phrase style children => some (collectChildren style.font link run children)
  | .anchor ends _ content =>
    let plain : RunStyle α := .plain .standard link
    let marked := match ends.id with
      | some id => run.pushMark id plain
      | none => run
    match collectInline (ends.target.or link) marked content with
    | some collected => some collected
    | none => some (marked.pushText content.textContent plain)
  | .reference _ target => collectInline link run target
  | _ => none

/-- Appends children in order; the text of a block stands for it, in the font around it. -/
def collectChildren (font : Font α) (link : Option String) (run : InlineRun α) :
    List (Node α) → InlineRun α
  | [] => run
  | child :: rest =>
    match collectInline link run child with
    | some collected => collectChildren font link collected rest
    | none =>
      collectChildren font link (run.pushText child.textContent (.plain font link)) rest

end

/-- All of the nodes if none is a block. -/
def collectAll (run : InlineRun α) : List (Node α) → Option (InlineRun α)
  | [] => some run
  | child :: rest => (collectInline none run child).bind fun run => collectAll run rest

end Folio.Flow
