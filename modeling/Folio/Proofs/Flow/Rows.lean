import Folio.Proofs.Flow.ShownText
import Mathlib.Algebra.GroupWithZero.Nat

/-!
# The rows of a table

A row walks over the columns of its table and leaves out the cells for which none is left. A row
whose cells take up no more columns than there are is placed cell by cell, each as wide as it asks
to be. A table shows the text of the cells that are placed, row by row, with its header in front,
and once more in front of a row that opens a page.
-/
namespace Folio.Flow

open Style Pdf Text

variable {α : Type} [Scalar α]

/-! ## Columns -/

/-- As many columns as a table has, and one if it has none. -/
theorem length_columnWidths (style : TableStyle α) (total : α) :
    (columnWidths style total).length = max 1 style.columns := by
  unfold columnWidths
  simp only
  split
  · split
    · next hfits =>
      simp only [Bool.and_eq_true, decide_eq_true_eq] at hfits
      rw [List.length_map, hfits.1]
    · exact List.length_replicate
  · exact List.length_replicate

/-- Columns that a row would take up if there were enough. -/
def spanSum (cells : List (Cell α)) : Nat := (cells.map fun c => max 1 c.style.colspan).sum

omit [Scalar α] in
theorem slots_of_le {columns first : Nat} (h : columns ≤ first) (cells : List (Cell α)) :
    slots columns first cells = [] := by
  cases cells with
  | nil => rfl
  | cons cell rest => exact if_pos h

omit [Scalar α] in
theorem cell_mem_of_mem_slots {columns : Nat} {cells : List (Cell α)} {first : Nat} {slot : Slot α}
    (h : slot ∈ slots columns first cells) : slot.cell ∈ cells := by
  induction cells generalizing first with
  | nil => cases h
  | cons c cells ih =>
    unfold slots at h
    split at h
    · cases h
    · rcases List.mem_cons.mp h with rfl | h
      · exact List.mem_cons_self
      · exact List.mem_cons_of_mem c (ih h)

omit [Scalar α] in
/-- A cell has a place as long as the cells in front of it leave a column. -/
theorem getElem?_slots (columns : Nat) (cells : List (Cell α)) (first i : Nat) :
    (slots columns first cells)[i]?.map (·.cell) =
      if first + spanSum (cells.take i) < columns then cells[i]? else none := by
  induction cells generalizing first i with
  | nil => simp [slots]
  | cons cell rest ih =>
    by_cases hfull : columns ≤ first
    · rw [slots_of_le hfull, if_neg (by omega)]
      rfl
    rw [slots, if_neg hfull]
    cases i with
    | zero => rw [if_pos (by simpa [spanSum] using hfull)]; rfl
    | succ i =>
      simp only [List.getElem?_cons_succ, ih, List.take_succ_cons, spanSum, List.map_cons,
        List.sum_cons]
      -- a span that is cut off leaves no column, and neither does the whole span
      congr 1
      apply propext
      omega

omit [Scalar α] in
theorem spanSum_eq {cells : List (Cell α)} (h : ∀ c ∈ cells, 1 ≤ c.style.colspan) :
    spanSum cells = (cells.map (·.style.colspan)).sum :=
  congrArg List.sum (List.map_congr_left fun c hc => Nat.max_eq_right (h c hc))

/-- A row that finds all of its columns, and so a place for every cell. -/
structure InPlace (columns : Nat) (cells : List (Cell α)) : Prop where
  width : (cells.map (·.style.colspan)).sum ≤ columns
  placed : (slots columns 0 cells).map (fun slot => (slot.cell, slot.span)) =
    cells.map fun c => (c, c.style.colspan)

omit [Scalar α] in
theorem slots_of_fits {columns : Nat} {cells : List (Cell α)} (h : ∀ c ∈ cells, 1 ≤ c.style.colspan)
    {first : Nat} (hfits : first + (cells.map (·.style.colspan)).sum ≤ columns) :
    (slots columns first cells).map (fun slot => (slot.cell, slot.span)) =
      cells.map fun c => (c, c.style.colspan) := by
  induction cells generalizing first with
  | nil => rfl
  | cons cell rest ih =>
    have hcell := h cell List.mem_cons_self
    rw [List.map_cons, List.sum_cons] at hfits
    have hspan : min (max 1 cell.style.colspan) (columns - first) = cell.style.colspan := by omega
    rw [slots, if_neg (by omega), hspan, List.map_cons, List.map_cons,
      ih (fun c hc => h c (List.mem_cons_of_mem cell hc)) (by omega)]

omit [Scalar α] in
theorem inPlace_of_le {columns : Nat} {cells : List (Cell α)} (h : ∀ c ∈ cells, 1 ≤ c.style.colspan)
    (hle : (cells.map (·.style.colspan)).sum ≤ columns) : InPlace columns cells :=
  ⟨hle, slots_of_fits h (by omega)⟩

/-! ## Ink -/

def cellInk (c : Cell α) : Bytes := ink c.content.textContent

/-- The ink of the cells of a row that have a place. -/
def rowInk (columns : Nat) (cells : List (Cell α)) : Bytes :=
  (slots columns 0 cells).flatMap fun slot => cellInk slot.cell

omit [Scalar α] in
/-- A row in place shows all of its cells. -/
theorem InPlace.rowInk_eq {columns : Nat} {cells : List (Cell α)} (h : InPlace columns cells) :
    rowInk columns cells = cells.flatMap cellInk := by
  have hcells : (slots columns 0 cells).map (·.cell) = cells := by
    simpa [Function.comp_def] using congrArg (List.map Prod.fst) h.placed
  calc rowInk columns cells = ((slots columns 0 cells).map (·.cell)).flatMap cellInk :=
        (List.flatMap_map ..).symm
    _ = cells.flatMap cellInk := by rw [hcells]

theorem cellRun_gains (c : Cell α) : Gains .empty (cellRun c) c.content.textContent := by
  unfold cellRun
  split
  · next run hrun => exact collectInline_gains c.content hrun
  · exact pushText_gains ..

namespace Shows

variable {s t : Layout α} {bytes : Bytes}

theorem drawLines (run : InlineRun α) (x width : α) (align : TextAlign) (lines : List (LineBox α)) :
    ∀ {bytes : Bytes} {t : Layout α} (top : α), Shows s bytes t →
      (∀ line ∈ lines, ∀ t ∈ line.tokens, t.Clean) →
      Shows s (bytes ++ inkOf (lines.flatMap LineBox.tokens))
        (Layout.drawLines run x width align t top lines) := by
  induction lines with
  | nil =>
    intro bytes t top h _
    simpa [Layout.drawLines] using h
  | cons line lines ih =>
    intro bytes t top h hclean
    have hline := h.drawLine run line x width top align (hclean line List.mem_cons_self)
    have hrest := ih (top - line.height) hline fun l hl => hclean l (List.mem_cons_of_mem line hl)
    simpa [Layout.drawLines, List.append_assoc] using hrest

theorem drawCell (h : Shows s bytes t) (style : TableStyle α) (top height x0 : α) (widths : List α)
    (slot : Slot α) : Shows s (bytes ++ cellInk slot.cell)
      (Layout.drawCell style top height t (placeSlot x0 widths slot)) := by
  have hgains := cellRun_gains slot.cell
  obtain ⟨hink, hclean⟩ := breakLines_kept (cellRun slot.cell)
    (innerWidth slot.cell (Scalar.sum ((widths.drop slot.first).take slot.span)))
    { TextFlow.plain with align := slot.cell.style.align } (hgains.clean (List.forall_mem_nil _))
  have hcell : inkOf (cellRun slot.cell).tokens = cellInk slot.cell := hgains.ink
  rw [← hcell, ← hink]
  refine drawLines _ _ _ _ _ _ ?_ hclean
  split
  · refine silent ?_ (silent_strokeBox _ _ _ _ _ _)
    split
    · exact h.silent (silent_fillBox _ _ _ _ _)
    · exact h
  · split
    · exact h.silent (silent_fillBox _ _ _ _ _)
    · exact h

theorem foldl_drawCell (style : TableStyle α) (top height x0 : α) (widths : List α)
    (placed : List (Slot α)) : ∀ {bytes : Bytes} {t : Layout α}, Shows s bytes t →
      Shows s (bytes ++ placed.flatMap fun slot => cellInk slot.cell)
        ((placed.map (placeSlot x0 widths)).foldl (Layout.drawCell style top height) t) := by
  induction placed with
  | nil =>
    intro bytes t h
    simpa using h
  | cons slot placed ih =>
    intro bytes t h
    have hrest := ih (h.drawCell style top height x0 widths slot)
    simpa [List.append_assoc] using hrest

theorem addRow (h : Shows s bytes t) (style : TableStyle α) (x0 : α) (widths : List α)
    (cells : List (Cell α)) : Shows s (bytes ++ rowInk widths.length cells)
      (Layout.addRow style x0 widths t cells) := by
  refine markContent (move ?_ _ _)
  exact foldl_drawCell style _ _ x0 widths _ h

/-- What a row of the body shows, with the header in front of it or without. -/
theorem addBodyRow (h : Shows s bytes t) (style : TableStyle α) (header : List (Cell α)) (x0 : α)
    (widths : List α) (row : List (Cell α)) : ∃ headed : Bool,
      Shows s (bytes ++ ((if headed then rowInk widths.length header else []) ++
        rowInk widths.length row)) (Layout.addBodyRow style header x0 widths t row) := by
  unfold Layout.addBodyRow
  simp only [← List.append_assoc]
  split
  · split
    · exact ⟨false, by simpa using h.turn.addRow style x0 widths row⟩
    · exact ⟨true, (h.turn.addRow style x0 widths header).addRow style x0 widths row⟩
  · exact ⟨false, by simpa using h.addRow style x0 widths row⟩

end Shows

/-- The ink of the rows of a body, each with a mark if the header stands in front of it. -/
def bodyInk (columns : Nat) (header : List (Cell α)) (rows : List (List (Cell α) × Bool)) : Bytes :=
  rows.flatMap fun row => (if row.2 then rowInk columns header else []) ++ rowInk columns row.1

theorem Shows.foldl_addBodyRow {s : Layout α} (style : TableStyle α) (header : List (Cell α))
    (x0 : α) (widths : List α) (rows : List (List (Cell α))) :
    ∀ {bytes : Bytes} {t : Layout α}, Shows s bytes t → ∃ marked : List (List (Cell α) × Bool),
      marked.map Prod.fst = rows ∧ Shows s (bytes ++ bodyInk widths.length header marked)
        (rows.foldl (Layout.addBodyRow style header x0 widths) t) := by
  induction rows with
  | nil =>
    intro bytes t h
    exact ⟨[], rfl, by simpa [bodyInk] using h⟩
  | cons row rows ih =>
    intro bytes t h
    obtain ⟨headed, hrow⟩ := h.addBodyRow style header x0 widths row
    obtain ⟨marked, hmarked, hrest⟩ := ih hrow
    refine ⟨(row, headed) :: marked, by rw [List.map_cons, hmarked], ?_⟩
    simpa [bodyInk, List.append_assoc] using hrest

/-- A table shows its header and then its rows, each of them once and in order; the header may come
again in front of a row. -/
theorem addTable_shows (s : Layout α) (style : TableStyle α) (header : List (Cell α))
    (rows : List (List (Cell α))) : ∃ marked : List (List (Cell α) × Bool),
      marked.map Prod.fst = rows ∧
        Shows s (rowInk (max 1 style.columns) header ++ bodyInk (max 1 style.columns) header marked)
          (s.addTable style header rows) := by
  unfold Layout.addTable
  simp only
  rw [← length_columnWidths style (s.availableWidth *
    Scalar.within 0.01 1.0 (style.widthPercent / 100))]
  generalize columnWidths style _ = widths
  generalize s.tableStart style.align _ _ = x0
  have hheader : Shows s (rowInk widths.length header) (if header.isEmpty then s
      else Layout.addRow style x0 widths
        (s.ensureSpace (Layout.rowEstimate widths header)) header) := by
    split
    · next hempty =>
      obtain rfl := List.isEmpty_iff.mp hempty
      exact .refl
    · exact (Shows.refl.ensureSpace _).addRow style x0 widths header
  obtain ⟨marked, hmarked, hbody⟩ := Shows.foldl_addBodyRow style header x0 widths rows hheader
  exact ⟨marked, hmarked, hbody.lower style.spacing⟩

end Folio.Flow
