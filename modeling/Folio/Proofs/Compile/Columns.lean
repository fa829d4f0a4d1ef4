import Folio.Proofs.Compile.TableRules
import Folio.Proofs.Flow.Rows

/-!
# The columns of a table

A table that does not ask for a number of columns has as many as its widest row needs, so that every
cell of its body has a place. One that asks for a number has that many, and a row ends where they
do. A header of one cell spans the table whatever its columns are.
-/
namespace Folio.Compile

open Style Markup Flow

variable {α : Type} [Scalar α]

/-! ## Rows -/

/-- Cells each of which spans a column at least. -/
def AllSpan (cells : List (Cell α)) : Prop := ∀ c ∈ cells, 1 ≤ c.style.colspan

/-- The number of columns is the one asked for, or else no row and no header is wider. -/
structure Counts (asked : Option Nat) (entries : Nat) (rows : List (List (Cell α)))
    (columns : Nat) : Prop where
  fixed : ∀ n, asked = some n → 0 < n → columns = n
  wide : asked.getD 0 = 0 → ∀ row ∈ rows, rowWidth row ≤ columns
  headed : asked.getD 0 = 0 → entries ≤ columns

omit [Scalar α] in
theorem Counts.pos {asked : Option Nat} {entries columns : Nat} {rows : List (List (Cell α))}
    (h : Counts asked entries rows columns) (hpos : 0 < entries ∨ asked.getD 0 ≠ 0) :
    1 ≤ columns := by
  by_cases hasked : asked.getD 0 = 0
  · have hentries := h.headed hasked
    omega
  · cases asked with
    | none => exact absurd rfl hasked
    | some n =>
      have hn : 0 < n := Nat.pos_of_ne_zero hasked
      exact (h.fixed n rfl hn).symm ▸ hn

omit [Scalar α] in
theorem ColumnsFor.counts {asked : Option Nat} {entries columns : Nat}
    {rows : List (List (Cell α))} (h : ColumnsFor asked entries rows columns) :
    Counts asked entries rows columns := by
  refine ⟨fun n hn hpos => (h.fixed n hn hpos).1, fun hasked row hrow => ?_, fun hasked => ?_⟩
  · rw [h.needed hasked, rowWidth_eq_sum]
    exact (le_widest hrow).trans (Nat.le_max_right ..)
  · rw [h.needed hasked]
    exact Nat.le_max_left ..

/-! ## Tables -/

/-- Where a table has its cells: in place for all of the body unless it asks for columns, and then
for as many as it asks for. -/
structure Seats (asked : Option Nat) (columns : Nat) (header : List (Cell α))
    (rows : List (List (Cell α))) : Prop where
  body : asked.getD 0 = 0 → ∀ row ∈ rows, InPlace columns row
  head : asked.getD 0 = 0 → (∀ c ∈ header, c.style.colspan = 1) → InPlace columns header
  lone : ∀ c, header = [c] → InPlace columns header ∧ c.style.colspan = columns
  fixed : ∀ n, asked = some n → 0 < n → columns = n ∧ ∀ row ∈ header :: rows, ∀ i,
    (slots columns 0 row)[i]?.map (·.cell) =
      if ((row.take i).map (·.style.colspan)).sum < n then row[i]? else none

omit [Scalar α] in
theorem spanned_eq_singleton {columns : Nat} {cells : List (Cell α)} {c : Cell α}
    (h : spanned columns cells = [c]) : cells.length = 1 ∧ c.style.colspan = columns := by
  unfold spanned at h
  split at h
  · next only =>
    cases only
    obtain rfl := List.singleton_inj.mp h
    exact ⟨rfl, rfl⟩
  · next hmany => exact absurd h (hmany c)

omit [Scalar α] in
theorem allSpan_spanned {columns : Nat} (hcolumns : 1 ≤ columns) {cells : List (Cell α)}
    (h : AllSpan cells) : AllSpan (spanned columns cells) := by
  unfold spanned
  split
  · next only =>
    cases only
    exact List.forall_mem_singleton.mpr hcolumns
  · exact h

omit [Scalar α] in
theorem length_spanned (columns : Nat) (cells : List (Cell α)) :
    (spanned columns cells).length = cells.length := by
  unfold spanned
  split <;> rfl

omit [Scalar α] in
theorem AllSpan.take {cells : List (Cell α)} (h : AllSpan cells) (i : Nat) :
    AllSpan (cells.take i) := fun c hc => h c (List.mem_of_mem_take hc)

omit [Scalar α] in
theorem Counts.seats {asked : Option Nat} {columns : Nat} {rows : List (List (Cell α))}
    {cells : List (Cell α)} (h : Counts asked cells.length rows columns)
    (hrows : ∀ row ∈ rows, AllSpan row) (hcells : AllSpan cells) :
    Seats asked (max 1 columns) (spanned columns cells) rows := by
  refine ⟨fun hasked row hrow => ?_, fun hasked hones => ?_, fun c hlone => ?_, fun n hn hpos => ?_⟩
  · have hwide := h.wide hasked row hrow
    rw [rowWidth_eq_sum] at hwide
    exact inPlace_of_le (hrows row hrow) (by omega)
  · have hsum : ((spanned columns cells).map (·.style.colspan)).sum = cells.length := by
      rw [List.map_congr_left hones]
      simp [length_spanned]
    have hheaded := h.headed hasked
    exact inPlace_of_le (fun c hc => (hones c hc).ge) (by omega)
  · obtain ⟨hlength, hspan⟩ := spanned_eq_singleton hlone
    have hcolumns := h.pos (.inl (by omega))
    have hall : AllSpan [c] := List.forall_mem_singleton.mpr (by omega)
    rw [hlone, hspan]
    exact ⟨inPlace_of_le hall (by simp [hspan]), by omega⟩
  · obtain rfl := h.fixed n hn hpos
    have hall : ∀ row ∈ spanned columns cells :: rows, AllSpan row :=
      List.forall_mem_cons.mpr ⟨allSpan_spanned hpos hcells, hrows⟩
    refine ⟨by omega, fun row hrow i => ?_⟩
    rw [getElem?_slots, spanSum_eq ((hall row hrow).take i), Nat.zero_add, Nat.max_eq_right hpos]

theorem Assembled.seats {compile : Compiling α} {grid : Bool} {context : Context}
    {rows : List Json} {widths : Option (List α)} {t : CompiledTable α}
    (h : Assembled (fun style => 1 ≤ style.colspan) compile grid context rows widths t) :
    Seats (askedColumns? context) (max 1 t.style.columns) t.header t.rows := by
  obtain ⟨cells, hlength, hspan, hheader⟩ := h.header
  have hcounts := h.columns.counts
  rw [← hlength] at hcounts
  rw [hheader]
  exact hcounts.seats h.cells hspan

theorem gives_colspan (context : Context) :
    Gives (fun style => 1 ≤ style.colspan) (cellStyle context : CompileM α (CellStyle α)) :=
  (gives_any _).map fun _ _ => Nat.le_max_left ..

/-- Every cell of a table that compiles is placed and drawn: those of the body exactly once and in
order, unless the table asks for fewer columns than a row has; the only cell of a header over all
columns, and several cells of one column each. Asked for columns, the table has that many, and its
cells are placed up to where they end. The header may be drawn again in front of a row. -/
theorem compileWithin_seats (env : Env α) (steps : Nat) {node : Json} {e : Element}
    (hparse : Element.parse node = .ok e) (htag : e.tag? = some .table ∨ e.tag? = some .gridTable)
    {context : Context} {state after : State α} {n : Node α}
    (hrun : (compileWithin env steps node context).run state = (.ok n, after)) :
    ∃ style header rows, (n = .table style header rows ∨ n = .gridTable style header rows) ∧
      Seats (askedColumns? (resolve context env.sheet e.token.classes e.attrs))
        (max 1 style.columns) header rows ∧
      (∀ total, (columnWidths style total).length = max 1 style.columns) ∧
      ∀ s : Layout α, s.phase = .opened → ∃ t marked, (add n).run s = (.ok (), t) ∧
        marked.map Prod.fst = rows ∧ Shows s (rowInk (max 1 style.columns) header ++
          bodyInk (max 1 style.columns) header marked) t := by
  obtain ⟨grid, hgrid⟩ := exists_tableTag htag
  obtain ⟨fewer, t, rfl, ht⟩ := exists_assembled gives_colspan hparse hgrid hrun
  have htable := tableNode_eq grid t
  refine ⟨t.style, t.header, t.rows, htable, ht.seats, length_columnWidths t.style,
    fun s hopen => ?_⟩
  obtain ⟨marked, hmarked, hshows⟩ := addTable_shows s t.style t.header t.rows
  refine ⟨s.addTable t.style t.header t.rows, marked, ?_, hmarked, hshows⟩
  rw [run_add hopen]
  rcases htable with htable | htable
  · rw [htable]
    unfold addBlock
    rfl
  · rw [htable]
    unfold addBlock
    rfl

/-- A table with a header over a cell of two columns. -/
def headedTable : Json :=
  .array [.string "table", .object [("header", .array [.string "A"])],
    .array [.string "B", .array [.string "cell", .object [("colspan", Json.ofNat 2)], .string "C"]]]

theorem compileWithin_seats_headed : ∃ n after,
    (compileWithin bareEnv 3 headedTable .empty).run .initial = (.ok n, after) ∧
      ∃ style header rows, (n = .table style header rows ∨ n = .gridTable style header rows) ∧
        ∀ row ∈ rows, InPlace (max 1 style.columns) row := by
  obtain ⟨n, after, hrun⟩ : ∃ n after,
      (compileWithin bareEnv 3 headedTable .empty).run .initial = (.ok n, after) := ⟨_, _, rfl⟩
  obtain ⟨style, header, rows, htable, hseats, -⟩ := compileWithin_seats bareEnv 3
    (e := ⟨Token.parse "table", _, _, headedTable⟩) rfl (.inl (by decide +kernel)) hrun
  exact ⟨n, after, hrun, style, header, rows, htable, hseats.body rfl⟩

/-- A table that asks for one column and has a row of two cells. -/
def narrowTable : Json :=
  .array [.string "table", .object [("num-cols", Json.ofNat 1)], .array [.string "A", .string "B"]]

/-- The second cell is left out. -/
theorem compile_narrowTable : ∃ style first second after,
    (compile bareEnv narrowTable .empty).run .initial =
        (.ok (.table style [] [[first, second]]), after) ∧
      (∀ total, (columnWidths style total).length = 1) ∧
      (slots 1 0 [first, second]).map (·.cell) = [first] ∧
      second.content.textContent = "B" ∧
      ∀ s, Shows s (ink "A") (s.addTable style [] [[first, second]]) := by
  obtain ⟨style, first, second, after, hrun, hcolumns, hfirst, hsecond⟩ :
      ∃ style first second after, (compile bareEnv narrowTable .empty).run .initial =
          (.ok (.table style [] [[first, second]]), after) ∧ style.columns = 1 ∧
        first.content.textContent = "A" ∧ second.content.textContent = "B" :=
    ⟨_, _, _, _, rfl, rfl, rfl, rfl⟩
  have hwidths (total : Single) : (columnWidths style total).length = 1 := by
    rw [length_columnWidths, hcolumns]
    rfl
  have hslots : (slots 1 0 [first, second]).map (·.cell) = [first] := by simp [slots]
  have hrow : rowInk 1 [first, second] = ink "A" := by
    have hcells : rowInk 1 [first, second] =
        ((slots 1 0 [first, second]).map (·.cell)).flatMap cellInk := (List.flatMap_map ..).symm
    rw [hcells, hslots, List.flatMap_singleton, cellInk, hfirst]
  refine ⟨style, first, second, after, hrun, hwidths, hslots, hsecond, fun s => ?_⟩
  obtain ⟨marked, hmarked, hshows⟩ := addTable_shows s style [] [[first, second]]
  obtain ⟨⟨row, headed⟩, rfl⟩ : ∃ entry, marked = [entry] :=
    List.length_eq_one_iff.mp (by simpa using congrArg List.length hmarked)
  obtain rfl : row = [first, second] := List.singleton_inj.mp hmarked
  rw [hcolumns] at hshows
  simpa [bodyInk, rowInk, slots, ← hrow] using hshows

end Folio.Compile
