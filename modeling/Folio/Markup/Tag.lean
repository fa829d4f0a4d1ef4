import Folio.Style.Keyword

/-!
Tags and the tokens that name them. A token is a tag with classes behind points, each part possibly
in keyword spelling; a token with an empty part is malformed and stands for itself, without classes.
-/
namespace Folio.Markup

open Style (stripKeyword)

inductive Tag where
  | chunk | heading | paragraph | phrase | list | table | gridTable | cell | gridCell | image
  | chart | svg | graphics | anchor | note | chapter | subsection | line | spacer | subscript
  | superscript | rectangle | reference | pageBreak | clearDoublePage
  deriving DecidableEq, Repr

namespace Tag

def parse? : String → Option Tag
  | "chunk" => some chunk
  | "heading" => some heading
  | "paragraph" => some paragraph
  | "phrase" => some phrase
  | "list" => some list
  | "table" => some table
  | "pdf-table" | "grid-table" => some gridTable
  | "cell" => some cell
  | "pdf-cell" | "grid-cell" => some gridCell
  | "image" => some image
  | "chart" => some chart
  | "svg" => some svg
  | "graphics" => some graphics
  | "anchor" => some anchor
  | "annotation" => some note
  | "chapter" => some chapter
  | "section" => some subsection
  | "line" => some line
  | "spacer" => some spacer
  | "subscript" => some subscript
  | "superscript" => some superscript
  | "rectangle" => some rectangle
  | "reference" => some reference
  | "pagebreak" => some pageBreak
  | "clear-double-page" => some clearDoublePage
  | _ => none

/-- The tag's own name, which is not always the one it is written with. -/
def name : Tag → String
  | chunk => "chunk"
  | heading => "heading"
  | paragraph => "paragraph"
  | phrase => "phrase"
  | list => "list"
  | table => "table"
  | gridTable => "grid-table"
  | cell => "cell"
  | gridCell => "grid-cell"
  | image => "image"
  | chart => "chart"
  | svg => "svg"
  | graphics => "graphics"
  | anchor => "anchor"
  | note => "annotation"
  | chapter => "chapter"
  | subsection => "section"
  | line => "line"
  | spacer => "spacer"
  | subscript => "subscript"
  | superscript => "superscript"
  | rectangle => "rectangle"
  | reference => "reference"
  | pageBreak => "page-break"
  | clearDoublePage => "clear-double-page"

/-- Directives steer the assembly and never become part of a document. -/
def isDirective : Tag → Bool
  | pageBreak | clearDoublePage => true
  | _ => false

end Tag

/-- Cuts a text at every point. -/
def splitPoints : List Char → List (List Char)
  | [] => [[]]
  | c :: cs =>
    match splitPoints cs with
    | [] => [[c]]
    | part :: parts => if c == '.' then [] :: part :: parts else (c :: part) :: parts

theorem splitPoints_ne_nil (cs : List Char) : splitPoints cs ≠ [] := by
  induction cs with
  | nil => simp [splitPoints]
  | cons c cs ih =>
    unfold splitPoints
    split
    · simp
    · split <;> simp

/-- A token in two parts. -/
structure Token where
  primary : String
  classes : List String
  deriving DecidableEq, Repr

def Token.parse (token : String) : Token :=
  let plain := stripKeyword token
  match splitPoints plain.toList with
  | [] => ⟨plain, []⟩
  | primary :: rest =>
    let classes := rest.map fun part => stripKeyword (String.ofList part)
    if primary.isEmpty || classes.any (·.isEmpty) then ⟨plain, []⟩
    else ⟨String.ofList primary, classes⟩

end Folio.Markup
