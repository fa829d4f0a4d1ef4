import Folio.Proofs.Flow.RowHeights

/-!
# Walking over the columns

A row is walked over twice, once to estimate its height and once to place its cells, with a column
that is counted up and slices of the widths that are summed. Both walks are written out here with
numbers that are no larger than `largest` and with slices that must lie inside of the list: where a
number or a slice does not exist, the walk has no outcome. Both have one, whatever the cells span,
and pass over the same cells, whose columns stand one behind the other from the first column on.
-/
namespace Folio.Flow

open Style Layout

/-! ## Numbers and slices that may not exist -/

/-- A sum, if it is a number up to `largest`. -/
def plus? (largest a b : Nat) : Option Nat := if a + b ≤ largest then some (a + b) else none

/-- A difference, if it is not below zero. -/
def minus? (a b : Nat) : Option Nat := if b ≤ a then some (a - b) else none

/-- What stands in a list from `start` to in front of `stop`, if these are places in that order. -/
def slice? {β : Type} (xs : List β) (start stop : Nat) : Option (List β) :=
  if start ≤ stop ∧ stop ≤ xs.length then some ((xs.drop start).take (stop - start)) else none

theorem plus?_of_le {largest a b : Nat} (h : a + b ≤ largest) : plus? largest a b = some (a + b) :=
  if_pos h

theorem minus?_of_le {a b : Nat} (h : b ≤ a) : minus? a b = some (a - b) := if_pos h

theorem slice?_add {β : Type} {xs : List β} {start count : Nat} (h : start + count ≤ xs.length) :
    slice? xs start (start + count) = some ((xs.drop start).take count) := by
  rw [slice?, if_pos ⟨Nat.le_add_right .., h⟩, Nat.add_sub_cancel_left]

theorem slice?_zero {β : Type} {xs : List β} {stop : Nat} (h : stop ≤ xs.length) :
    slice? xs 0 stop = some (xs.take stop) := by
  rw [slice?, if_pos ⟨Nat.zero_le _, h⟩, List.drop_zero, Nat.sub_zero]

/-! ## The two walks -/

variable {α : Type} [Scalar α]

/-- The walk that places the cells from `column` on, with the columns of each. -/
def walkRow? (largest : Nat) (x0 : α) (widths : List α) (column : Nat) :
    List (Cell α) → Option (List (Slot α × Placed α))
  | [] => return []
  | cell :: rest =>
    if widths.length ≤ column then return []
    else do
      let span := min (max 1 cell.style.colspan) (← minus? widths.length column)
      let width := Scalar.sum (← slice? widths column (← plus? largest column span))
      let x := x0 + Scalar.sum (← slice? widths 0 column)
      let run := cellRun cell
      let flow : TextFlow α := { TextFlow.plain with align := cell.style.align }
      let lines := breakLines run (innerWidth cell width) flow
      let next ← plus? largest column span
      let behind ← walkRow? largest x0 widths next rest
      return (⟨cell, column, span⟩, ⟨cell, x, width, run, lines, linesHeight lines⟩) :: behind

/-- The walk that estimates the height of a row, with the columns of the cells it passes over. -/
def walkEstimate? (largest : Nat) (widths : List α) (column : Nat) (height : α) :
    List (Cell α) → Option (List (Slot α) × α)
  | [] => return ([], height)
  | cell :: rest =>
    if widths.length ≤ column then return ([], height)
    else do
      let span := min (max 1 cell.style.colspan) (← minus? widths.length column)
      let width := Scalar.sum (← slice? widths column (← plus? largest column span))
      let lines := breakLines (cellRun cell) (innerWidth cell width) .plain
      let needed := Scalar.larger height (linesHeight lines + 2 * cell.style.padding)
      let next ← plus? largest column span
      let (behind, estimate) ← walkEstimate? largest widths next needed rest
      return (⟨cell, column, span⟩ :: behind, estimate)

/-- A cell takes no more columns than there are from `column` on. -/
theorem add_span_le {columns column : Nat} (h : ¬ columns ≤ column) (colspan : Nat) :
    column + min (max 1 colspan) (columns - column) ≤ columns := by
  omega

theorem walkRow?_eq {largest : Nat} (x0 : α) {widths : List α} (hheld : widths.length ≤ largest)
    (cells : List (Cell α)) (column : Nat) : walkRow? largest x0 widths column cells =
      some ((slots widths.length column cells).map fun slot =>
        (slot, placeSlot x0 widths slot)) := by
  induction cells generalizing column with
  | nil => rfl
  | cons cell rest ih =>
    unfold walkRow? slots
    split
    · rfl
    · next hleft =>
      have hspan := add_span_le hleft cell.style.colspan
      rw [minus?_of_le (by omega)]
      simp only [Option.bind_eq_bind, Option.bind_some, plus?_of_le (hspan.trans hheld),
        slice?_add hspan, slice?_zero (show column ≤ widths.length by omega), ih]
      rfl

theorem walkEstimate?_eq {largest : Nat} {widths : List α} (hheld : widths.length ≤ largest)
    (cells : List (Cell α)) (column : Nat) (height : α) :
    walkEstimate? largest widths column height cells = some (slots widths.length column cells,
      Scalar.greatest height ((slots widths.length column cells).map (slotHeight widths))) := by
  induction cells generalizing column height with
  | nil => rfl
  | cons cell rest ih =>
    unfold walkEstimate? slots
    split
    · rfl
    · next hleft =>
      have hspan := add_span_le hleft cell.style.colspan
      rw [minus?_of_le (by omega)]
      simp only [Option.bind_eq_bind, Option.bind_some, plus?_of_le (hspan.trans hheld),
        slice?_add hspan, ih]
      rfl

/-! ## What the walks pass over -/

/-- The columns stand one behind the other from `first` to in front of `stop`, at least one for each
slot. -/
def Tiles (first : Nat) : List (Slot α) → Nat → Prop
  | [], stop => first = stop
  | slot :: rest, stop =>
    slot.first = first ∧ 0 < slot.span ∧ Tiles (first + slot.span) rest stop

/-- The slots hold the first cells of a row, over columns without a gap: all of the cells, or as
many as fill the columns. -/
structure Tiling (columns : Nat) (cells : List (Cell α)) (walked : List (Slot α)) : Prop where
  isPrefix : walked.map (·.cell) <+: cells
  tiles : ∃ stop ≤ columns, Tiles 0 walked stop ∧ (walked.map (·.cell) = cells ∨ stop = columns)

omit [Scalar α] in
theorem slots_tiles {columns : Nat} (cells : List (Cell α)) {first : Nat} (h : first ≤ columns) :
    ∃ stop ≤ columns, Tiles first (slots columns first cells) stop ∧
      ((slots columns first cells).map (·.cell) = cells ∨ stop = columns) := by
  induction cells generalizing first with
  | nil => exact ⟨first, h, rfl, .inl rfl⟩
  | cons cell rest ih =>
    unfold slots
    split
    · next hfull => exact ⟨first, h, rfl, .inr (Nat.le_antisymm h hfull)⟩
    · next hleft =>
      obtain ⟨stop, hstop, htiles, hall⟩ := ih (add_span_le hleft cell.style.colspan)
      refine ⟨stop, hstop, ⟨rfl, by simp only; omega, htiles⟩, ?_⟩
      exact hall.imp_left fun hcells => by rw [List.map_cons, hcells]

omit [Scalar α] in
theorem slots_isPrefix (columns : Nat) (cells : List (Cell α)) (first : Nat) :
    (slots columns first cells).map (·.cell) <+: cells := by
  induction cells generalizing first with
  | nil => exact List.prefix_rfl
  | cons cell rest ih =>
    unfold slots
    split
    · exact List.nil_prefix
    · exact (List.prefix_cons_inj cell).mpr (ih _)

/-- Whatever the cells of a row span, both walks come to an end with every number up to the number
of widths and every slice inside of them. They pass over the same first cells, over columns without
a gap, until no cell or no column is left, and come to the row that is drawn and to the height that
is estimated. -/
theorem columnWalk_tiles (largest : Nat) (x0 : α) (widths : List α) (cells : List (Cell α))
    (hheld : widths.length ≤ largest) :
    ∃ (walked : List (Slot α)) (placed : List (Slot α × Placed α)),
      Tiling widths.length cells walked ∧
      walkEstimate? largest widths 0 0 cells = some (walked, rowEstimate widths cells) ∧
      walkRow? largest x0 widths 0 cells = some placed ∧ placed.map Prod.fst = walked ∧
      placed.map Prod.snd = placeRow x0 widths cells ∧ ∀ p ∈ placed, p.2.cell = p.1.cell := by
  refine ⟨_, _, ⟨slots_isPrefix .., slots_tiles cells (Nat.zero_le _)⟩,
    walkEstimate?_eq hheld cells 0 0, walkRow?_eq x0 hheld cells 0, ?_, ?_, ?_⟩
  · rw [List.map_map]
    exact List.map_id _
  · rw [List.map_map]
    rfl
  · rw [List.forall_mem_map]
    exact fun slot _ => rfl

/-- A cell of the given number of columns. -/
def spanningCell (colspan : Nat) : Cell ℚ :=
  .mk ⟨colspan, 1, .left, .top, none, true, 2⟩ (.text ⟨"x", .standard, none⟩)

/-- A cell that spans no column takes one, one that spans more than there are takes what is left,
and behind it there is no place. -/
theorem columnWalk_tiles_rest :
    let largest := 2 ^ 64 - 1
    let widths : List ℚ := [100, 200, 223]
    let cells := [spanningCell 0, spanningCell largest, spanningCell 1]
    widths.length ≤ largest ∧ ∃ walked placed, Tiling 3 cells walked ∧
      walkEstimate? largest widths 0 0 cells = some (walked, rowEstimate widths cells) ∧
      walkRow? largest 36 widths 0 cells = some placed ∧ placed.map Prod.fst = walked ∧
      walked.map (fun slot => (slot.first, slot.span)) = [(0, 1), (1, 2)] := by
  intro largest widths cells
  have hheld : widths.length ≤ largest := by decide
  obtain ⟨walked, placed, htiling, hestimate, hrow, hwalked, -⟩ :=
    columnWalk_tiles largest 36 widths cells hheld
  have hcolumns : (walkEstimate? largest widths 0 0 cells).map
      (fun r => r.1.map fun slot => (slot.first, slot.span)) = some [(0, 1), (1, 2)] := by
    decide +kernel
  rw [hestimate] at hcolumns
  exact ⟨hheld, walked, placed, htiling, hestimate, hrow, hwalked, Option.some.inj hcolumns⟩

end Folio.Flow
