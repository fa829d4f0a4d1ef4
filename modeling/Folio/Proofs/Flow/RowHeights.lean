import Folio.Proofs.Flow.PageBreaks

/-!
# The height of rows

Before a row is drawn its height is estimated, to see whether there is room for it. The row takes up
what has been estimated, but no less than the padding of its table above and below a line of one
point. A row whose cells are all lower than that is higher than estimated, and may end below the
bottom margin.
-/
namespace Folio.Flow

open Style Layout

section

variable {α : Type} [Scalar α]

/-- Height of a cell with its padding, in the columns that it takes up. -/
def slotHeight (widths : List α) (slot : Slot α) : α :=
  linesHeight (breakLines (cellRun slot.cell)
      (innerWidth slot.cell (Scalar.sum ((widths.drop slot.first).take slot.span))) .plain) +
    2 * slot.cell.style.padding

theorem rowEstimate_eq (widths : List α) (cells : List (Cell α)) : rowEstimate widths cells =
    Scalar.greatest 0 ((slots widths.length 0 cells).map (slotHeight widths)) := rfl

/-- Lines are broken alike however they are aligned, so a cell is as high as estimated. -/
theorem height_placeSlot (x0 : α) (widths : List α) (slot : Slot α) :
    (placeSlot x0 widths slot).height + 2 * (placeSlot x0 widths slot).cell.style.padding =
      slotHeight widths slot := rfl

theorem rowHeight_placeRow (style : TableStyle α) (x0 : α) (widths : List α)
    (cells : List (Cell α)) : rowHeight style (placeRow x0 widths cells) =
      Scalar.larger (rowEstimate widths cells) (style.padding * 2 + 1) := by
  have hheights : (placeRow x0 widths cells).map
      (fun p => p.height + 2 * p.cell.style.padding) =
        (slots widths.length 0 cells).map (slotHeight widths) := by
    unfold placeRow
    rw [List.map_map]
    exact List.map_congr_left fun slot _ => height_placeSlot x0 widths slot
  unfold rowHeight
  rw [hheights, ← rowEstimate_eq]

/-- Numbers that are compared and subtracted as they are, without rounding. -/
structure Unrounded (α : Type) [Scalar α] : Prop where
  larger_eq_left : ∀ a b : α, Scalar.larger a b = a ↔ b ≤ a
  le_larger : ∀ x a b : α, x ≤ Scalar.larger a b ↔ x ≤ a ∨ x ≤ b
  larger_le : ∀ x a b : α, Scalar.larger a b ≤ x ↔ a ≤ x ∧ b ≤ x
  sub_inj : ∀ a b c : α, a - b = a - c ↔ b = c
  le_sub_comm : ∀ a b c : α, a ≤ b - c ↔ c ≤ b - a

theorem unrounded_rat : Unrounded ℚ where
  larger_eq_left _ _ := max_eq_left_iff
  le_larger _ _ _ := le_max_iff
  larger_le _ _ _ := max_le_iff
  sub_inj _ _ _ := sub_right_inj
  le_sub_comm _ _ _ := le_sub_comm

theorem Unrounded.le_greatest (h : Unrounded α) {x : α} (xs : List α) : ∀ start : α,
    x ≤ Scalar.greatest start xs ↔ x ≤ start ∨ ∃ y ∈ xs, x ≤ y := by
  induction xs with
  | nil => exact fun start => by simp [Scalar.greatest]
  | cons y ys ih =>
    intro start
    have hstep : Scalar.greatest start (y :: ys) = Scalar.greatest (Scalar.larger start y) ys := rfl
    rw [hstep, ih, h.le_larger, or_assoc, List.exists_mem_cons_iff]

/-- A cell of the row is as high as the row has to be, if that is more than nothing. -/
def Filled (style : TableStyle α) (widths : List α) (cells : List (Cell α)) : Prop :=
  style.padding * 2 + 1 ≤ 0 ∨
    ∃ slot ∈ slots widths.length 0 cells, style.padding * 2 + 1 ≤ slotHeight widths slot

theorem Unrounded.filled_iff (h : Unrounded α) (style : TableStyle α) (widths : List α)
    (cells : List (Cell α)) :
    Filled style widths cells ↔ style.padding * 2 + 1 ≤ rowEstimate widths cells := by
  rw [rowEstimate_eq, h.le_greatest]
  simp only [Filled, List.mem_map, exists_exists_and_eq_and]

theorem Unrounded.lowered_iff (h : Unrounded α) {s t : Layout α} {drawn : α}
    (hdrawn : Lowered s t drawn) (height : α) : Lowered s t height ↔ drawn = height := by
  constructor
  · intro hheight
    exact (h.sub_inj s.cursor drawn height).mp (hdrawn.cursor.symm.trans hheight.cursor)
  · rintro rfl
    exact hdrawn

/-- A row is as high as estimated, or as high as a row of its table has to be if that is more. So,
rounding apart, the estimate is right for the rows that have a cell of that height and only for
them, and a row ends at or above the bottom margin if and only if there is room for both heights. -/
theorem addRow_estimate (style : TableStyle α) (x0 : α) (widths : List α) (s : Layout α)
    (cells : List (Cell α)) :
    Lowered s (addRow style x0 widths s cells)
        (Scalar.larger (rowEstimate widths cells) (style.padding * 2 + 1)) ∧
      (Unrounded α →
        (Lowered s (addRow style x0 widths s cells) (rowEstimate widths cells) ↔
          Filled style widths cells) ∧
        (s.geometry.margins.bottom ≤ (addRow style x0 widths s cells).cursor ↔
          rowEstimate widths cells ≤ s.remaining ∧ style.padding * 2 + 1 ≤ s.remaining)) := by
  have hlowered : Lowered s (addRow style x0 widths s cells)
      (Scalar.larger (rowEstimate widths cells) (style.padding * 2 + 1)) :=
    rowHeight_placeRow style x0 widths cells ▸ addRow_lowered style x0 widths s cells
  refine ⟨hlowered, fun h => ⟨?_, ?_⟩⟩
  · rw [h.lowered_iff hlowered, h.filled_iff]
    exact h.larger_eq_left ..
  · rw [hlowered.cursor, h.le_sub_comm]
    exact h.larger_le ..

end

/-- A row of one line of text is as high as estimated, and so does not fit on a crowded page. -/
theorem addRow_estimate_line : let style : TableStyle ℚ := ⟨1, none, 100, .left, false, 2, 0⟩
    let t := addRow style 36 [523] crowdedPage [sizedCell 10 "Head"]
    Lowered crowdedPage t (rowEstimate [523] [sizedCell 10 "Head"]) ∧
      ¬ crowdedPage.geometry.margins.bottom ≤ t.cursor := by
  intro style t
  obtain ⟨-, hexact⟩ := addRow_estimate style 36 [523] crowdedPage [sizedCell 10 "Head"]
  obtain ⟨hestimate, hroom⟩ := hexact unrounded_rat
  refine ⟨hestimate.mpr (.inr ⟨⟨sizedCell 10 "Head", 0, 1⟩, List.mem_cons_self, ?_⟩), ?_⟩
  · decide +kernel
  · rw [hroom]
    decide +kernel

/-- A cell without any text. -/
def bareCell : Cell ℚ := sizedCell 10 ""

/-- There is room for the padding of a row of empty cells, but not for the row. -/
theorem addRow_crosses : let style : TableStyle ℚ := ⟨1, none, 100, .left, false, 2, 0⟩
    crowdedPage.mustBreak (rowEstimate [523] [bareCell]) = false ∧
      rowEstimate [523] [bareCell] = 4 ∧
      (addRow style 36 [523] crowdedPage [bareCell]).cursor = crowdedPage.cursor - 5 ∧
      (addRow style 36 [523] crowdedPage [bareCell]).cursor <
        crowdedPage.geometry.margins.bottom := by
  decide +kernel

end Folio.Flow
