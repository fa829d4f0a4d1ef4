import Folio.Proofs.Compile.Columns
import Mathlib.Algebra.Order.BigOperators.Group.List

/-!
# Tables that have compiled

A table that has compiled is of one piece: it has a row, its cells take up a column and a row at
least, its widths are one for each column, and its columns are those that it asks for or, if it asks
for none, those that it needs. Only what is asked for is limited. A grid keeps all of its rows, but
for a first child of numbers alone, which is left out even if the widths stand in an attribute.
-/
namespace Folio.Compile

open Style Markup Flow

variable {α : Type} [Scalar α]

/-! ## Cells -/

/-- A cell takes up a column and a row at least, and no more columns than 32 bits can count. -/
structure Spans (style : CellStyle α) : Prop where
  column : 1 ≤ style.colspan
  row : 1 ≤ style.rowspan
  bounded : style.colspan ≤ 4294967295

theorem count?_le {context : Context} {key : String} {n : Nat} (h : context.count? key = some n) :
    n ≤ 4294967295 := by
  have hlt := (Option.filter_eq_some_iff.mp h).2
  simp only [decide_eq_true_eq] at hlt
  omega

theorem gives_spans (context : Context) :
    Gives Spans (cellStyle context : CompileM α (CellStyle α)) := by
  refine (gives_any _).map fun background _ => ⟨Nat.le_max_left .., Nat.le_max_left .., ?_⟩
  cases hcount : context.count? "colspan" with
  | none => simp
  | some n => exact Nat.max_le.mpr ⟨by omega, count?_le hcount⟩

omit [Scalar α] in
/-- The cells of a header span what cells do, the only one of them as many columns as there are. -/
theorem HeadOf.spans {entries columns : Nat} {header : List (Cell α)}
    (h : HeadOf Spans entries columns header) (hcolumns : 1 ≤ entries → 1 ≤ columns) :
    ∀ c ∈ header, 1 ≤ c.style.colspan ∧ 1 ≤ c.style.rowspan := by
  obtain ⟨cells, hlength, hspans, rfl⟩ := h
  unfold spanned
  split
  · next only =>
    cases only with
    | mk style content =>
      have hrow := (hspans _ List.mem_cons_self).row
      exact List.forall_mem_singleton.mpr ⟨hcolumns hlength.le, hrow⟩
  · exact fun c hc => ⟨(hspans c hc).column, (hspans c hc).row⟩

/-! ## The parts of a table fit each other -/

/-- A table of one piece, compiled in its own context. -/
structure Regular (context : Context) (style : TableStyle α) (header : List (Cell α))
    (rows : List (List (Cell α))) : Prop where
  nonempty : rows ≠ []
  spans : ∀ row ∈ header :: rows, ∀ c ∈ row, 1 ≤ c.style.colspan ∧ 1 ≤ c.style.rowspan
  widths : ∀ ws, style.widths = some ws → ws.length = style.columns
  entries : header.length = headerEntries context
  lone : ∀ c, header = [c] → c.style.colspan = style.columns
  fixed : ∀ n, askedColumns? context = some n → 0 < n → style.columns = n
  /-- A table that asks for no columns has those that it needs, and room for all of its body. -/
  needed : (askedColumns? context).getD 0 = 0 →
    style.columns = max (headerEntries context) (widest rows) ∧
      ∀ row ∈ rows, (row.map (·.style.colspan)).sum ≤ style.columns

theorem Assembled.regular {compile : Compiling α} {grid : Bool} {context : Context}
    {rows : List Json} {widths : Option (List α)} {t : CompiledTable α}
    (h : Assembled Spans compile grid context rows widths t) :
    Regular context t.style t.header t.rows where
  nonempty hnil := h.nonempty (List.forall₂_nil_right_iff.mp (hnil ▸ h.body))
  spans := by
    have hpos (hentries : 1 ≤ headerEntries context) : 1 ≤ t.style.columns :=
      h.columns.counts.pos (.inl hentries)
    refine List.forall_mem_cons.mpr ⟨h.header.spans hpos, fun row hrow c hc => ?_⟩
    exact ⟨(h.cells row hrow c hc).column, (h.cells row hrow c hc).row⟩
  widths ws hws := by
    rw [h.widths] at hws
    simpa using (Option.filter_eq_some_iff.mp hws).2
  entries := by
    obtain ⟨cells, hlength, -, hheader⟩ := h.header
    rw [hheader, length_spanned, hlength]
  lone c hc := by
    obtain ⟨cells, -, -, hheader⟩ := h.header
    exact (spanned_eq_singleton (hheader.symm.trans hc)).2
  fixed n hn hpos := (h.columns.fixed n hn hpos).1
  needed hasked := by
    have hcolumns := h.columns.needed hasked
    refine ⟨hcolumns, fun row hrow => ?_⟩
    rw [hcolumns]
    exact (le_widest hrow).trans (Nat.le_max_right ..)

/-- A table of either kind that compiles is of one piece, and a grid has widths. -/
theorem compileWithin_regular (env : Env α) (steps : Nat) {node : Json} {e : Element}
    (hparse : Element.parse node = .ok e) (htag : e.tag? = some .table ∨ e.tag? = some .gridTable)
    {context : Context} {state after : State α} {n : Node α}
    (hrun : (compileWithin env steps node context).run state = (.ok n, after)) :
    ∃ style header rows,
      (e.tag? = some .table ∧ n = .table style header rows ∨
        e.tag? = some .gridTable ∧ n = .gridTable style header rows ∧ style.widths.isSome) ∧
      Regular (resolve context env.sheet e.token.classes e.attrs) style header rows := by
  obtain ⟨grid, hgrid⟩ := exists_tableTag htag
  obtain ⟨fewer, t, rfl, ht⟩ := exists_assembled gives_spans hparse hgrid hrun
  refine ⟨t.style, t.header, t.rows, ?_, ht.regular⟩
  cases grid with
  | false => exact .inl ⟨hgrid, rfl⟩
  | true => exact .inr ⟨hgrid, rfl, ht.grid rfl⟩

/-- A grid of a header of one entry over a cell of two columns, with widths of its own. -/
def headedGrid : Json :=
  .array [.string "grid-table", .object [("header", .array [.string "A"])],
    .array [Json.ofNat 1, Json.ofNat 2],
    .array [.array [.string "cell", .object [("colspan", Json.ofNat 2)], .string "B"]]]

theorem compileWithin_regular_headedGrid : ∃ e n after,
    Element.parse headedGrid = .ok e ∧ e.tag? = some .gridTable ∧
      (compileWithin bareEnv 3 headedGrid .empty).run .initial = (.ok n, after) ∧
      ∃ style header rows, n = .gridTable style header rows ∧ style.widths.isSome ∧
        Regular (resolve .empty bareEnv.sheet e.token.classes e.attrs) style header rows := by
  obtain ⟨n, after, hrun⟩ : ∃ n after,
      (compileWithin bareEnv 3 headedGrid .empty).run .initial = (.ok n, after) := ⟨_, _, rfl⟩
  obtain ⟨e, hparse, htag⟩ : ∃ e, Element.parse headedGrid = .ok e ∧ e.tag? = some .gridTable :=
    ⟨_, rfl, by decide +kernel⟩
  obtain ⟨style, header, rows, ⟨hplain, -⟩ | ⟨-, rfl, hwidths⟩, hregular⟩ :=
    compileWithin_regular bareEnv 3 hparse (.inr htag) hrun
  · cases htag.symm.trans hplain
  · exact ⟨e, _, after, hparse, htag, hrun, style, header, rows, rfl, hwidths, hregular⟩

/-! ## The rows of a grid -/

/-- The first of some children is a list of numbers alone. -/
def LeadsWithNumbers (children : List Json) : Prop :=
  ∃ x xs rest, children = .array (x :: xs) :: rest ∧ ∀ y ∈ x :: xs, y.isNumber

theorem gridRows_of_leads {children : List Json} (h : LeadsWithNumbers children) :
    gridRows children = children.tail := by
  obtain ⟨x, xs, rest, rfl, hnumbers⟩ := h
  exact if_pos (List.all_eq_true.mpr hnumbers)

theorem gridRows_of_not_leads {children : List Json} (h : ¬ LeadsWithNumbers children) :
    gridRows children = children := by
  unfold gridRows
  split
  · next x xs rest =>
    refine if_neg fun hall => h ⟨x, xs, rest, rfl, List.all_eq_true.mp hall⟩
  · rfl

/-- A grid whose widths stand in an attribute keeps all of its children as rows, in their order,
unless the first of them is a list of numbers alone, which is left out for all that. It fails for
want of rows if nothing is left, and else only if a table inside it does. -/
theorem compileWithin_gridRows (env : Env α) (steps : Nat) {node : Json} {e : Element}
    (hparse : Element.parse node = .ok e) (htag : e.tag? = some .gridTable) {context : Context}
    {ws : List α} (hwidths : ((resolve context env.sheet e.token.classes e.attrs).get?
      "widths").bind scalars? = some ws) (state : State α) :
    ∃ kept, (¬ LeadsWithNumbers e.children → kept = e.children) ∧
      (LeadsWithNumbers e.children → kept = e.children.tail) ∧
      (∀ n after, (compileWithin env (steps + 1) node context).run state = (.ok n, after) →
        ∃ style header rows, n = .gridTable style header rows ∧ style.widths = some ws ∧
          List.Forall₂ (RowOf (compileWithin env steps) true
            (resolve context env.sheet e.token.classes e.attrs).inheritable) kept rows) ∧
      (kept = [] →
        (compileWithin env (steps + 1) node context).run state = (.error .emptyTable, state)) ∧
      ∀ after,
        (compileWithin env (steps + 1) node context).run state = (.error .emptyTable, after) →
          kept = [] ∨ ∃ part ∈ innerParts env context node, ∃ c,
            HasFailure (compileWithin env steps part c) .emptyTable := by
  have hgrid : e.tag? = some (tableTag true) := htag
  have hanswers := answers_compileWithin_table gives_spans env steps hparse hgrid context
  refine ⟨gridRows e.children, gridRows_of_not_leads, gridRows_of_leads, fun n after hrun => ?_,
    fun hnone => ?_, fun after hrun => hanswers.of_failure hrun rfl⟩
  · obtain ⟨t, rfl, ht⟩ := hanswers.of_result hrun
    refine ⟨t.style, t.header, t.rows, rfl, ?_, ht.body⟩
    have hfit := ht.widths
    obtain ⟨found, hfound⟩ := Option.isSome_iff_exists.mp (ht.grid rfl)
    have hgiven := (Option.filter_eq_some_iff.mp (hfit.symm.trans hfound)).1
    have hattr : givenWidths? true (resolve context env.sheet e.token.classes e.attrs)
        e.children = some ws := by
      simp [givenWidths?, gridWidths?, hwidths]
    rw [hfound, ← hgiven, hattr]
  · have hrows : bodyRows true e.children = [] := hnone
    rw [compileWithin_table env steps hparse hgrid, hrows]
    rfl

/-- A grid with widths of its own over a row of text and a row of numbers. -/
def widthsGrid : Json :=
  .array [.string "grid-table", .object [("widths", .array [Json.ofNat 1, Json.ofNat 1])],
    .array [.string "A", .string "B"], .array [Json.ofNat 1, Json.ofNat 2]]

theorem compileWithin_gridRows_widths : ∃ e ws n after,
    Element.parse widthsGrid = .ok e ∧ e.tag? = some .gridTable ∧
      ((resolve .empty bareEnv.sheet e.token.classes e.attrs).get? "widths").bind scalars? =
        some ws ∧
      (compileWithin bareEnv 3 widthsGrid .empty).run .initial = (.ok n, after) ∧
      ∃ style header rows, n = .gridTable style header rows ∧ style.widths = some ws ∧
        List.Forall₂ (RowOf (compileWithin bareEnv 2) true
          (resolve .empty bareEnv.sheet e.token.classes e.attrs).inheritable) e.children rows := by
  obtain ⟨n, after, hrun⟩ : ∃ n after,
      (compileWithin bareEnv 3 widthsGrid .empty).run .initial = (.ok n, after) := ⟨_, _, rfl⟩
  obtain ⟨e, hparse, htag, hgiven, htext⟩ : ∃ e, Element.parse widthsGrid = .ok e ∧
      e.tag? = some .gridTable ∧ (((resolve .empty bareEnv.sheet e.token.classes e.attrs).get?
        "widths").bind scalars? : Option (List Single)).isSome ∧
      ∃ rest, e.children = .array [.string "A", .string "B"] :: rest :=
    ⟨_, rfl, by decide +kernel, by decide +kernel, _, rfl⟩
  obtain ⟨ws, hwidths⟩ := Option.isSome_iff_exists.mp hgiven
  obtain ⟨kept, hkept, -, hrows, -⟩ := compileWithin_gridRows bareEnv 2 hparse htag hwidths .initial
  obtain ⟨style, header, rows, rfl, hfound, hbody⟩ := hrows n after hrun
  have hleads : ¬ LeadsWithNumbers e.children := by
    rintro ⟨x, xs, others, hchildren, hnumbers⟩
    obtain ⟨rest, hrest⟩ := htext
    cases hrest.symm.trans hchildren
    exact absurd (hnumbers (.string "A") List.mem_cons_self) (by decide)
  exact ⟨e, ws, _, after, hparse, htag, hwidths, hrun, style, header, rows, rfl, hfound,
    hkept hleads ▸ hbody⟩

/-- A grid of two columns whose rows are of numbers alone. -/
def numbersGrid (rows : List (List Nat)) : Json :=
  .array (.string "grid-table" ::
    .object [("widths", .array [Json.ofNat 1, Json.ofNat 1])] ::
      rows.map fun row => .array (row.map Json.ofNat))

/-- The first row is lost, and with it the table if it is the only one. -/
theorem compile_numbersGrid :
    (∃ style row after, (compile bareEnv (numbersGrid [[1, 2], [3, 4]]) .empty).run .initial =
        (.ok (.gridTable style [] [row]), after) ∧
      row.map (·.content.textContent) = ["3", "4"]) ∧
    (compile bareEnv (numbersGrid [[1, 2]]) .empty).run .initial =
      (.error .emptyTable, .initial) := by
  refine ⟨⟨_, _, _, rfl, ?_⟩, rfl⟩
  decide +kernel

/-! ## The limit on columns -/

/-- Entries of the longest of some rows. -/
def longest (rows : List (List (Cell α))) : Nat := (rows.map List.length).foldr max 0

omit [Scalar α] in
theorem widest_le {bound : Nat} {rows : List (List (Cell α))}
    (h : ∀ row ∈ rows, ∀ c ∈ row, c.style.colspan ≤ bound) :
    widest rows ≤ bound * longest rows := by
  induction rows with
  | nil => exact Nat.zero_le _
  | cons row rows ih =>
    obtain ⟨hrow, hrows⟩ := List.forall_mem_cons.mp h
    have hwidth : (row.map (·.style.colspan)).sum ≤ bound * row.length := by
      have hsum := List.sum_le_card_nsmul (row.map (·.style.colspan)) bound
        (List.forall_mem_map.mpr hrow)
      simpa [Nat.mul_comm] using hsum
    have hlongest : longest (row :: rows) = max row.length (longest rows) := rfl
    have hwidest : widest (row :: rows) = max (row.map (·.style.colspan)).sum (widest rows) := rfl
    rw [hlongest, hwidest, ← Nat.mul_max_mul_left]
    exact max_le_max hwidth (ih hrows)

/-- The number of columns that is asked for is limited, and a table has as many as it asks for. The
number that it needs is not: only the entries of its rows and the columns that a cell may ask for
bound it. The widths that a table is set with are one for each of its columns. -/
theorem compileWithin_columns (env : Env α) (steps : Nat) {node : Json} {e : Element}
    (hparse : Element.parse node = .ok e) (htag : e.tag? = some .table ∨ e.tag? = some .gridTable)
    {context : Context} {state after : State α} {n : Node α}
    (hrun : (compileWithin env steps node context).run state = (.ok n, after)) :
    ∃ style header rows, (n = .table style header rows ∨ n = .gridTable style header rows) ∧
      (∀ total, (columnWidths style total).length = max 1 style.columns) ∧
      (∀ k, askedColumns? (resolve context env.sheet e.token.classes e.attrs) = some k → 0 < k →
        style.columns = k ∧ k ≤ maxColumns) ∧
      ((askedColumns? (resolve context env.sheet e.token.classes e.attrs)).getD 0 = 0 →
        style.columns = max (headerEntries (resolve context env.sheet e.token.classes e.attrs))
          (widest rows) ∧
        style.columns ≤ max (headerEntries (resolve context env.sheet e.token.classes e.attrs))
          (4294967295 * longest rows)) := by
  obtain ⟨grid, hgrid⟩ := exists_tableTag htag
  obtain ⟨fewer, t, rfl, ht⟩ := exists_assembled gives_spans hparse hgrid hrun
  refine ⟨t.style, t.header, t.rows, tableNode_eq grid t, length_columnWidths t.style,
    ht.columns.fixed, fun hasked => ?_⟩
  have hneeded := ht.columns.needed hasked
  refine ⟨hneeded, hneeded ▸ max_le_max le_rfl ?_⟩
  exact widest_le fun row hrow c hc => (ht.cells row hrow c hc).bounded

theorem compileWithin_columns_headedGrid : ∃ e n after,
    Element.parse headedGrid = .ok e ∧ e.tag? = some .gridTable ∧
      (compileWithin bareEnv 3 headedGrid .empty).run .initial = (.ok n, after) ∧
      ∃ style header rows, (n = .table style header rows ∨ n = .gridTable style header rows) ∧
        style.columns = max (headerEntries (resolve .empty bareEnv.sheet e.token.classes e.attrs))
          (widest rows) := by
  obtain ⟨n, after, hrun⟩ : ∃ n after,
      (compileWithin bareEnv 3 headedGrid .empty).run .initial = (.ok n, after) := ⟨_, _, rfl⟩
  obtain ⟨e, hparse, htag, hasked⟩ : ∃ e, Element.parse headedGrid = .ok e ∧
      e.tag? = some .gridTable ∧
      (askedColumns? (resolve .empty bareEnv.sheet e.token.classes e.attrs)).getD 0 = 0 :=
    ⟨_, rfl, by decide +kernel, by decide +kernel⟩
  obtain ⟨style, header, rows, htable, -, -, hneeded⟩ :=
    compileWithin_columns bareEnv 3 hparse (.inr htag) hrun
  exact ⟨e, n, after, hparse, htag, hrun, style, header, rows, htable, (hneeded hasked).1⟩

/-- A table of one cell, which asks for a number of columns. -/
def broadTable (colspan : Nat) : Json :=
  .array [.string "table", .array [.array [.string "cell",
    .object [("colspan", Json.ofNat colspan)], .string "A"]]]

/-- A table of more columns than may be asked for. -/
theorem compile_broadTable : ∃ style rows after,
    (compile bareEnv (broadTable 300) .empty).run .initial = (.ok (.table style [] rows), after) ∧
      maxColumns < style.columns ∧ ∀ total, (columnWidths style total).length = style.columns := by
  obtain ⟨style, rows, after, hrun, hcolumns⟩ : ∃ style rows after,
      (compile bareEnv (broadTable 300) .empty).run .initial =
        (.ok (.table style [] rows), after) ∧ style.columns = 300 := ⟨_, _, _, rfl, rfl⟩
  refine ⟨style, rows, after, hrun, by rw [hcolumns]; decide, fun total => ?_⟩
  rw [length_columnWidths, hcolumns]
  rfl

end Folio.Compile
