import Folio.Flow.Inline

/-!
Lines. Breaking is greedy: a word opens a new line when it would not fit on the one that already has
a word, and spaces at the end of a line are dropped. Placing puts the tokens of a line from left to
right and joins neighbours of one style into one run of text.
-/
namespace Folio.Flow

open Style

variable {α : Type} [Scalar α]

/-- How the lines of a block are laid out. -/
structure TextFlow (α : Type) where
  align : TextAlign
  leading : Option α
  firstLineIndent : α

def TextFlow.plain : TextFlow α := ⟨.left, none, 0⟩

structure LineBox (α : Type) where
  tokens : List (Token α)
  width : α
  height : α
  maxSize : α
  /-- Is it the last line of a paragraph, or one that was ended on purpose? -/
  last : Bool

/-- Height of a line as a multiple of its largest font size. -/
def lineHeightFactor : α := 1.2

def isSpaceToken (t : Token α) : Bool := t.kind == .space

/-- Breaking on the way: finished lines, then the open line, last token first. -/
structure Breaking (α : Type) where
  lines : List (LineBox α)
  current : List (Token α)
  width : α

namespace Breaking

def start : Breaking α := ⟨[], [], 0⟩

/-- The largest font size on a line; the first style's size if there is none. -/
def lineSize (run : InlineRun α) (tokens : List (Token α)) : α :=
  let size := Scalar.greatest 0 (tokens.map fun t => (run.styleAt t.style).font.size)
  if (0 : α) < size then size else ((run.styles.head?.map fun s => s.font.size).getD 10)

/-- Ends the open line. -/
def close (run : InlineRun α) (flow : TextFlow α) (b : Breaking α) : Breaking α :=
  let dropped := b.current.takeWhile isSpaceToken
  let tokens := (b.current.dropWhile isSpaceToken).reverse
  let width := dropped.foldl (fun w t => w - t.width) b.width
  let size := lineSize run tokens
  let height := flow.leading.getD (size * lineHeightFactor)
  ⟨b.lines ++ [⟨tokens, width, height, size, false⟩], [], 0⟩

def markLast (b : Breaking α) : Breaking α :=
  match b.lines.getLast? with
  | some line => { b with lines := b.lines.dropLast ++ [{ line with last := true }] }
  | none => b

def push (b : Breaking α) (t : Token α) : Breaking α :=
  { b with current := t :: b.current, width := b.width + t.width }

/-- What the first line has less room by. -/
def indent (flow : TextFlow α) (b : Breaking α) : α :=
  if b.lines.isEmpty then flow.firstLineIndent else 0

def step (run : InlineRun α) (limit : α) (flow : TextFlow α) (b : Breaking α) (t : Token α) :
    Breaking α :=
  match t.kind with
  | .lineEnd => (b.close run flow).markLast
  | .space => if b.current.isEmpty then b else b.push t
  | .mark => { b with current := t :: b.current }
  | .word =>
    if b.current.any (·.kind == .word) && decide (limit - b.indent flow < b.width + t.width) then
      (b.close run flow).push t
    else b.push t

end Breaking

/-- The lines of a run in a column `width` wide. -/
def breakLines (run : InlineRun α) (width : α) (flow : TextFlow α) : List (LineBox α) :=
  let b := run.tokens.foldl (Breaking.step run width flow) .start
  let b := if b.current.isEmpty then b else b.close run flow
  b.markLast.lines

/-- Something placed on a line. -/
inductive Piece (α : Type) where
  | text (style : Nat) (text : String) (x width : α)
  | mark (name : String) (x : α)

/-- Where a line starts and how much wider than its width each space is. -/
def lineStart (line : LineBox α) (x0 width : α) (align : TextAlign) : α × α :=
  let slack := Scalar.larger (width - line.width) 0
  let spaces := (line.tokens.filter isSpaceToken).length
  match align with
  | .left => (x0, 0)
  | .center => (x0 + slack / 2, 0)
  | .right => (x0 + slack, 0)
  | .justified =>
    if !line.last && 0 < spaces then (x0, slack / (spaces : α)) else (x0, 0)

/-- A run of text that may still grow. -/
structure Pending (α : Type) where
  style : Nat
  text : String
  x : α
  width : α

def Pending.piece (p : Pending α) : Piece α := .text p.style p.text p.x p.width

def flush (pending : Option (Pending α)) : List (Piece α) := (pending.map Pending.piece).toList

/-- The pieces of a line from `x` on; a stretched space ends the run in front of it. -/
def placeTokens (stretch : α) (pending : Option (Pending α)) (x : α) :
    List (Token α) → List (Piece α)
  | [] => flush pending
  | t :: rest =>
    match t.kind with
    | .mark => .mark t.text x :: placeTokens stretch pending x rest
    | .lineEnd => placeTokens stretch pending x rest
    | _ =>
      if t.kind == .space && decide ((0 : α) < stretch) then
        flush pending ++ placeTokens stretch none (x + (t.width + stretch)) rest
      else
        match pending with
        | some p =>
          if p.style = t.style then
            let joined := { p with text := p.text ++ t.text, width := p.width + t.width }
            placeTokens stretch (some joined) (x + t.width) rest
          else
            p.piece :: placeTokens stretch (some ⟨t.style, t.text, x, t.width⟩) (x + t.width) rest
        | none => placeTokens stretch (some ⟨t.style, t.text, x, t.width⟩) (x + t.width) rest

/-- The pieces of a line in a column that starts at `x0`. -/
def LineBox.pieces (line : LineBox α) (x0 width : α) (align : TextAlign) : List (Piece α) :=
  let (x, stretch) := lineStart line x0 width align
  placeTokens stretch none x line.tokens

def linesHeight (lines : List (LineBox α)) : α := Scalar.sum (lines.map LineBox.height)

end Folio.Flow
