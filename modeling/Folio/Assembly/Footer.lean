import Folio.Flow.Furniture

/-!
Footers: what a document says about them, with every default filled in, the text on a page and its
place. The engine draws footers itself unless the total of pages is to stand in them.
-/
namespace Folio.Assembly

open Style

structure FooterLayout (α : Type) where
  text : String
  align : TextAlign
  startPage : Nat
  pageNumbers : Bool
  separator : String
  font : Font α

/-- The text and a page number behind a blank; the number alone when there is no text. -/
def numbered (text number : String) : String :=
  if text.isEmpty then number else text ++ " " ++ number

namespace FooterLayout

variable {α : Type}

/-- A number at the right, with the total behind a stroke if it is known. -/
def standard [Scalar α] : FooterLayout α := ⟨"", .right, 1, true, " / ", .standard⟩

def label (f : FooterLayout α) (page : Nat) (total : Option Nat) : String :=
  if !f.pageNumbers then f.text
  else
    match total with
    | some total => numbered f.text (toString page ++ f.separator ++ toString total)
    | none => numbered f.text (toString page)

def appliesTo (f : FooterLayout α) (page : Nat) : Bool := f.startPage ≤ page

def running (f : FooterLayout α) : RunningFooter α :=
  ⟨f.text, f.align, f.pageNumbers, f.startPage, f.font⟩

end FooterLayout

/-- Distance of a footer from the bottom and from the sides of the page. -/
def footerMargin {α : Type} [Scalar α] : α := 20

/-- Left end of a footer `width` points wide. -/
def footerX {α : Type} [Scalar α] (align : TextAlign) (pageWidth width : α) : α :=
  match align with
  | .right => pageWidth - footerMargin - width
  | .center => (pageWidth - width) / 2
  | .left | .justified => footerMargin

theorem running_label {α : Type} (f : FooterLayout α) (page : Nat) :
    f.running.label page = f.label page none := by
  cases h : f.pageNumbers <;>
    simp [RunningFooter.label, FooterLayout.label, FooterLayout.running, numbered, h,
      String.append_assoc]

end Folio.Assembly
