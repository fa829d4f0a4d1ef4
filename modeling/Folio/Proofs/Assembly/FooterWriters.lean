import Folio.Assembly.Stamping
import Folio.Flow.Page

/-!
# The two writers of footers

A footer is drawn by the engine when it finishes a page, or by the second pass once the total of
pages is known. Either has its own text for the footer, its own distance from the edges, its own
rule for the alignment and its own test for the first page that has one. Given the same label, they
draw the same operations in the same font, in every arithmetic and on pages of every size.
-/
namespace Folio.Assembly

open Style Flow Pdf

variable {α : Type} [Scalar α]

/-- The footer with a label of its own, on the pages that it applies to. -/
def FooterLayout.inscribe (f : FooterLayout α) (measure : String → Font α → α) (label : String)
    (box : PageBox α) (overlay : Overlay α) : Overlay α :=
  if f.appliesTo box.number then
    overlay.text label f.font.baseName f.font.size
      (footerX f.align box.width (measure label f.font)) footerMargin f.font.color.unit
  else overlay

section Inscribe

variable (f : FooterLayout α) (measure : String → Font α → α) (label : String) {box : PageBox α}
  (overlay : Overlay α)

theorem FooterLayout.inscribe_before (h : box.number < f.startPage) :
    f.inscribe measure label box overlay = overlay := by
  simp [inscribe, appliesTo, Nat.not_le.mpr h]

theorem FooterLayout.inscribe_from (h : f.startPage ≤ box.number) :
    f.inscribe measure label box overlay = overlay.text label f.font.baseName f.font.size
      (footerX f.align box.width (measure label f.font)) footerMargin f.font.color.unit := by
  simp [inscribe, appliesTo, h]

end Inscribe

/-- The second pass writes the label with the total. -/
theorem drawFooter_eq_inscribe (measure : String → Font α → α) (f : FooterLayout α)
    (box : PageBox α) (overlay : Overlay α) :
    drawFooter measure f box overlay =
      f.inscribe measure (f.label box.number (some box.total)) box overlay := rfl

theorem footerStart_eq_footerX (align : TextAlign) (pageWidth width : α) :
    footerStart align pageWidth width = footerX align pageWidth width := by
  cases align <;> rfl

/-- The engine writes the label without a total, at the distance from the edges that the second pass
keeps. -/
theorem draw_running_eq_inscribe (f : FooterLayout α) (geometry : Geometry α) (box : PageBox α)
    (hwidth : box.width = geometry.width) (overlay : Overlay α) :
    f.running.draw geometry box.number overlay =
      f.inscribe textWidth (f.label box.number none) box overlay := by
  have hstart : f.running.startPage = f.startPage := rfl
  unfold RunningFooter.draw
  by_cases h : box.number < f.startPage
  · rw [if_pos (hstart ▸ h), f.inscribe_before textWidth _ overlay h]
  · rw [if_neg (hstart ▸ h), f.inscribe_from textWidth _ overlay (Nat.not_lt.mp h), hwidth]
    simp only [running_label, footerStart_eq_footerX]
    rfl

/-- The page that is being filled, as the second pass will find it. -/
def pageBox (s : Layout α) (total : Nat) : PageBox α :=
  ⟨s.page.number, total, s.geometry.width, s.geometry.height⟩

/-- The two writers draw one footer, each with its own label: nothing on pages before the first one
that has a footer, and from there on one line of text, at one place and in one font, size and
colour. Without page numbers the label is the same for both. -/
theorem furniture_eq_inscribe (f : FooterLayout α) (s : Layout α) (total : Nat) :
    let box := pageBox s total
    let running := { s with footer := some f.running, events := [] }.furniture
    let stamped := pageStamp textWidth (some f) [] box
    running = f.inscribe textWidth (f.label box.number none) box .empty ∧
      stamped = f.inscribe textWidth (f.label box.number (some total)) box .empty ∧
      (box.number < f.startPage → running = .empty ∧ stamped = .empty) ∧
      (f.startPage ≤ box.number → ∀ label, f.inscribe textWidth label box .empty =
        ⟨textOperations label f.font.baseName f.font.size
          (footerX f.align box.width (textWidth label f.font)) footerMargin f.font.color.unit,
          [f.font.baseName]⟩) ∧
      (f.pageNumbers = false → running = stamped) := by
  intro box running stamped
  have hrunning : running = f.inscribe textWidth (f.label box.number none) box .empty :=
    draw_running_eq_inscribe f s.geometry box rfl .empty
  have hstamped : stamped = f.inscribe textWidth (f.label box.number (some total)) box .empty :=
    drawFooter_eq_inscribe textWidth f box .empty
  refine ⟨hrunning, hstamped, fun hbefore => ?_, fun hfrom label => ?_, fun hplain => ?_⟩
  · rw [hrunning, hstamped]
    exact ⟨f.inscribe_before textWidth _ .empty hbefore,
      f.inscribe_before textWidth _ .empty hbefore⟩
  · exact f.inscribe_from textWidth label .empty hfrom
  · have hlabel (known : Option Nat) : f.label box.number known = f.text := by
      simp [FooterLayout.label, hplain]
    rw [hrunning, hstamped, hlabel, hlabel]

/-- A footer in the middle of the pages from the second one on. -/
theorem furniture_eq_inscribe_secondPage :
    let f : FooterLayout Single := ⟨"Page", .center, 2, true, " / ", .standard⟩
    let first : Layout Single := .initial
    let second := first.breakPage
    let running (s : Layout Single) := { s with footer := some f.running, events := [] }.furniture
    first.page.number < f.startPage ∧ running first = .empty ∧ f.startPage ≤ second.page.number ∧
      running second = ⟨textOperations "Page 2" f.font.baseName f.font.size
        (footerX .center second.geometry.width (textWidth "Page 2" f.font)) footerMargin
        f.font.color.unit, [f.font.baseName]⟩ := by
  intro f first second running
  have hfirst : first.page.number < f.startPage := by decide
  have hsecond : f.startPage ≤ second.page.number := by decide
  have hlabel : f.label second.page.number none = "Page 2" := by decide
  have hdrawn := furniture_eq_inscribe f second 3
  refine ⟨hfirst, ((furniture_eq_inscribe f first 3).2.2.1 hfirst).1, hsecond, ?_⟩
  rw [← hlabel]
  exact hdrawn.1.trans (hdrawn.2.2.2.1 hsecond _)

end Folio.Assembly
