import Folio.Proofs.Compile.JudgedBlocks
import Folio.Proofs.Compile.Tables

/-!
# What a table is put together from

A table that compiles has a row of cells for each of its raw rows and a cell for each of their
entries. The number of its columns is asked for or counted, and its widths fit the columns. What
holds of the style that any context gives to a cell holds of every cell, but for the only cell of a
header, which is as wide as the table. A table fails for want of rows only if it has none itself, or
if some table inside it does.
-/
namespace Folio.Compile

open Style Markup

variable {α β γ : Type}

/-! ## Results and failures -/

/-- `b` is what the run comes to in some state. -/
def HasResult (act : CompileM α β) (b : β) : Prop := ∃ s t, act.run s = (.ok b, t)

/-- The run fails with `e` in some state. -/
def HasFailure (act : CompileM α β) (e : CompileError) : Prop := ∃ s t, act.run s = (.error e, t)

/-- If a run succeeds its result has `Q`, and else its error has `E`. -/
abbrev Answers (E : CompileError → Prop) (Q : β → Prop) (act : CompileM α β) : Prop :=
  Keeps (fun _ => True) E Q act

/-- If a run succeeds its result has `Q`. -/
abbrev Gives (Q : β → Prop) (act : CompileM α β) : Prop := Answers (fun _ => True) Q act

theorem gives_any (act : CompileM α β) : Gives (fun _ => True) act := by
  intro s _
  cases (act.run s).1 <;> exact ⟨trivial, trivial⟩

theorem Answers.of_result {E : CompileError → Prop} {Q : β → Prop} {act : CompileM α β}
    (h : Answers E Q act) {s t : State α} {b : β} (hrun : act.run s = (.ok b, t)) : Q b := by
  obtain ⟨-, hresult⟩ := h s trivial
  rw [hrun] at hresult
  exact hresult

theorem Answers.of_failure {E : CompileError → Prop} {Q : β → Prop} {act : CompileM α β}
    (h : Answers E Q act) {s t : State α} {e : CompileError} (hrun : act.run s = (.error e, t)) :
    E e := by
  obtain ⟨-, hresult⟩ := h s trivial
  rw [hrun] at hresult
  exact hresult

/-- What is known of a run holds of the results that it has and of the errors it fails with. -/
theorem Answers.observed {E : CompileError → Prop} {Q : β → Prop} {act : CompileM α β}
    (h : Answers E Q act) :
    Answers (fun e => E e ∧ HasFailure act e) (fun b => Q b ∧ HasResult act b) act := by
  intro s _
  obtain ⟨-, hresult⟩ := h s trivial
  rcases hrun : act.run s with ⟨r, t⟩
  rw [hrun] at hresult
  cases r with
  | ok b => exact ⟨trivial, hresult, s, t, hrun⟩
  | error e => exact ⟨trivial, hresult, s, t, hrun⟩

theorem Judges.answers {E : CompileError → Prop} {Q : β → Prop} {act : CompileM α β}
    (h : Judges E True Q act) : Answers E Q act :=
  Keeps.mono h (fun _ he => he trivial) fun _ hb => hb.2

theorem forall_mem_of_forall₂ {Q : β → Prop} {xs : List γ} {ys : List β}
    (h : List.Forall₂ (fun _ y => Q y) xs ys) : ∀ y ∈ ys, Q y := by
  induction h with
  | nil => exact nofun
  | cons hy _ ih => exact List.forall_mem_cons.mpr ⟨hy, ih⟩

variable [Scalar α]

/-! ## Cells -/

/-- The style of the cell, if the node is one, has `P`. -/
def CellHas (P : CellStyle α → Prop) (n : Node α) : Prop :=
  ∀ c, n = .cell c ∨ n = .gridCell c → P c.style

/-- What is to be shown of tables: `P` of the styles of their cells, and `E` of all errors, which is
taken for granted but for the want of rows. -/
structure Governs (E : CompileError → Prop) (P : CellStyle α → Prop) : Prop where
  error : ∀ e, e ≠ .emptyTable → E e
  style : ∀ context, Gives P (cellStyle context)

/-- The parts do as they should wherever they are compiled. -/
def Supplies (E : CompileError → Prop) (P : CellStyle α → Prop) (compile : Compiling α)
    (parts : List Json) : Prop :=
  ∀ part ∈ parts, ∀ context,
    Answers E (fun n => isCell part → CellHas P n) (compile part context)

section

variable {E : CompileError → Prop} {P : CellStyle α → Prop} {compile : Compiling α}

omit [Scalar α] in
theorem Supplies.of_subset {parts more : List Json} (h : Supplies E P compile more)
    (hsub : ∀ part ∈ parts, part ∈ more) : Supplies E P compile parts :=
  fun part hpart => h part (hsub part hpart)

omit [Scalar α] in
theorem Supplies.singleton {parts : List Json} (h : Supplies E P compile parts) {part : Json}
    (hpart : part ∈ parts) : Supplies E P compile [part] :=
  h.of_subset fun _ hother => List.mem_singleton.mp hother ▸ hpart

theorem Governs.textNode (h : Governs E P) (text : String) (context : Context) :
    Answers E (fun _ => True) (textNode text context : CompileM α (Node α)) :=
  (judges_textNode (fun fault _ => h.error (.color fault) nofun)
    (fun _ => trivial : Blames True context) text).answers.weaken fun _ _ => trivial

theorem Governs.fontOf (h : Governs E P) (context : Context) :
    Answers E (fun _ => True) (fontOf context : CompileM α (Font α)) :=
  (judges_fontOf (fun fault _ => h.error (.color fault) nofun)
    (fun _ => trivial : Blames True context)).answers

theorem Governs.styled (h : Governs E P) (context : Context) :
    Answers E P (cellStyle context) := by
  have hcolors : Answers E (fun _ => True) (cellStyle context : CompileM α (CellStyle α)) :=
    (judges_firstColor? (fun fault _ => h.error (.color fault) nofun)
      (fun _ => trivial : Blames True context) _ _).answers.map fun _ _ => trivial
  intro s hs
  obtain ⟨-, herror⟩ := hcolors s hs
  obtain ⟨-, hstyle⟩ := h.style context s hs
  cases hr : ((cellStyle context : CompileM α (CellStyle α)).run s).1 with
  | ok style =>
    rw [hr] at hstyle
    exact ⟨trivial, hstyle⟩
  | error e =>
    rw [hr] at herror
    exact ⟨trivial, herror⟩

theorem Governs.invalid (h : Governs E P) (fault : NodeFault) (node : Json) {Q : β → Prop} :
    Answers E Q (invalid fault node : CompileM α β) := keeps_throw (h.error _ nofun)

theorem answers_cellContent (h : Governs E P) (grid : Bool) {children : List Json}
    (hparts : Supplies E P compile children) (context : Context) :
    Answers E (fun _ => True) (cellContent compile grid children context) := by
  unfold cellContent
  simp only
  split
  · exact h.textNode "" _
  · next only =>
    split
    · next text _ =>
      refine (h.textNode text _).bind fun run _ => ?_
      split
      · exact (h.fontOf _).map fun _ _ => trivial
      · exact keeps_pure trivial
    · exact (hparts only List.mem_cons_self _).weaken fun _ _ => trivial
  · have hchildren := keeps_mapM fun child hchild => hparts child hchild context.inheritable
    exact hchildren.bind fun _ _ => (h.fontOf _).map fun _ _ => trivial

theorem answers_rowCell (h : Governs E P) (grid : Bool) {item : Json}
    (hparts : Supplies E P compile [item]) (context : Context) :
    Answers E (fun c => P c.style) (rowCell compile grid context item) := by
  unfold rowCell
  split
  · next hcell =>
    refine (hparts item List.mem_cons_self context).bind fun n hn => ?_
    split
    · next c => exact keeps_pure (hn hcell c (.inl rfl))
    · next c => exact keeps_pure (hn hcell c (.inr rfl))
    · exact h.invalid _ _
  · exact (answers_cellContent h grid hparts context).bind fun _ _ =>
      (h.styled _).map fun _ hp => hp

theorem answers_headerCell (h : Governs E P) (grid : Bool) {entry : Json}
    (hparts : Supplies E P compile [headerContent entry]) (context : Context) :
    Answers E (fun c => P c.style) (headerCell compile grid context entry) := by
  have hentry := headerEntry_headerCell compile grid context entry
  generalize headerCell compile grid context entry = act at hentry ⊢
  cases hentry with
  | styled htag =>
    rw [headerContent_of_styled htag] at hparts
    exact (answers_cellContent h grid hparts _).bind fun _ _ => (h.styled _).map fun _ hp => hp
  | untagged => exact h.invalid _ _
  | row htagged =>
    rw [headerContent_of_tagged htagged] at hparts
    exact answers_rowCell h grid hparts context

/-! ## Rows and headers -/

/-- The cells of a row are what its entries come to, one cell for each entry. -/
def RowOf (compile : Compiling α) (grid : Bool) (context : Context) (row : Json)
    (cells : List (Cell α)) : Prop :=
  ∃ items, row = .array items ∧
    List.Forall₂ (fun item c => HasResult (rowCell compile grid context item) c) items cells

theorem answers_compileRow (h : Governs E P) (grid : Bool) (raw : Json) {row : Json}
    (hparts : Supplies E P compile (row.asItems?.getD [])) (context : Context) :
    Answers E (fun cells => RowOf compile grid context row cells ∧ ∀ c ∈ cells, P c.style)
      (compileRow compile grid raw context row) := by
  unfold compileRow
  split
  · next items =>
    have hcell (item : Json) (hitem : item ∈ items) :
        Answers E (fun c => P c.style ∧ HasResult (rowCell compile grid context item) c)
          (rowCell compile grid context item) :=
      (answers_rowCell h grid (hparts.singleton hitem) context).observed.mono (fun _ he => he.1)
        fun _ hc => hc
    refine (keeps_mapM hcell).weaken fun cells hall => ⟨⟨items, rfl, ?_⟩, ?_⟩
    · exact hall.imp fun _ _ hc => hc.2
    · exact forall_mem_of_forall₂ (hall.imp fun _ _ hc => hc.1)
  · exact h.invalid _ _

/-- Number of entries of the header that a context has. -/
def headerEntries (context : Context) : Nat :=
  ((HeaderRow.parse? (context.get? "header")).map fun row => row.entries.length).getD 0

/-- A cell for each entry of the header; one by itself is as wide as the table. -/
def HeadOf (P : CellStyle α → Prop) (entries columns : Nat) (header : List (Cell α)) : Prop :=
  ∃ cells, cells.length = entries ∧ (∀ c ∈ cells, P c.style) ∧ header = spanned columns cells

theorem answers_headerCells (h : Governs E P) (grid : Bool) {context : Context}
    (hparts : Supplies E P compile (headerParts (context.get? "header"))) (columns : Nat) :
    Answers E (HeadOf P (headerEntries context) columns)
      (match HeaderRow.parse? (context.get? "header") with
        | some row => headerCells compile grid row context columns
        | none => pure []) := by
  unfold headerEntries
  cases hparse : HeaderRow.parse? (context.get? "header") with
  | none => exact keeps_pure ⟨[], rfl, nofun, rfl⟩
  | some row =>
    rw [headerParts_of_some hparse] at hparts
    have hcells (styled : Context) := keeps_mapM fun entry (hentry : entry ∈ row.entries) =>
      answers_headerCell h grid (hparts.singleton (List.mem_map_of_mem hentry)) styled
    exact (hcells _).map fun cells hall =>
      ⟨cells, hall.length_eq.symm, forall_mem_of_forall₂ hall, rfl⟩

/-! ## Columns and widths -/

/-- Columns that the widest of some rows takes up. -/
def widest (rows : List (List (Cell α))) : Nat :=
  (rows.map fun row => (row.map (·.style.colspan)).sum).foldr max 0

omit [Scalar α] in
theorem rowWidth_eq_sum (cells : List (Cell α)) :
    rowWidth cells = (cells.map (·.style.colspan)).sum := by
  have hfrom : ∀ n, cells.foldl (fun n c => n + c.style.colspan) n =
      n + (cells.map (·.style.colspan)).sum := by
    induction cells with
    | nil => exact fun n => rfl
    | cons c cells ih =>
      intro n
      rw [List.foldl_cons, ih, List.map_cons, List.sum_cons, Nat.add_assoc]
  exact (hfrom 0).trans (Nat.zero_add _)

omit [Scalar α] in
theorem foldl_rowWidth (rows : List (List (Cell α))) (n : Nat) :
    rows.foldl (fun n row => max n (rowWidth row)) n = max n (widest rows) := by
  induction rows generalizing n with
  | nil => exact (Nat.max_zero n).symm
  | cons row rows ih =>
    rw [List.foldl_cons, ih, Nat.max_assoc, rowWidth_eq_sum]
    rfl

omit [Scalar α] in
theorem le_widest {rows : List (List (Cell α))} {row : List (Cell α)} (h : row ∈ rows) :
    (row.map (·.style.colspan)).sum ≤ widest rows := by
  induction rows with
  | nil => cases h
  | cons first rows ih =>
    rcases List.mem_cons.mp h with rfl | hrow
    · exact Nat.le_max_left ..
    · exact (ih hrow).trans (Nat.le_max_right ..)

/-- A table has the columns that it asks for, within the limit, or else as many as its header has
entries or its widest row takes up, whichever is more. -/
structure ColumnsFor (asked : Option Nat) (entries : Nat) (rows : List (List (Cell α)))
    (columns : Nat) : Prop where
  fixed : ∀ n, asked = some n → 0 < n → columns = n ∧ n ≤ maxColumns
  needed : asked.getD 0 = 0 → columns = max entries (widest rows)

theorem answers_columnCount (h : Governs E P) (tag : String) (context : Context)
    (rows : List (List (Cell α))) :
    Answers E (ColumnsFor (askedColumns? context) (headerEntries context) rows)
      (columnCount tag context (HeaderRow.parse? (context.get? "header")) rows :
        CompileM α Nat) := by
  unfold columnCount askedColumns?
  simp only [foldl_rowWidth]
  cases (context.get? "num-cols").bind Json.asCount? with
  | none => exact keeps_pure ⟨nofun, fun _ => rfl⟩
  | some n =>
    simp only
    split
    · exact keeps_throw (h.error _ nofun)
    · next hmany =>
      have hle := Nat.le_of_not_lt hmany
      split
      · next hzero =>
        refine keeps_pure ⟨fun m hm hpos => ?_, fun _ => rfl⟩
        obtain rfl := Option.some.inj hm
        omega
      · next hpos =>
        refine keeps_pure ⟨fun m hm _ => ?_, fun hzero => absurd hzero hpos⟩
        obtain rfl := Option.some.inj hm
        exact ⟨rfl, hle⟩

/-- Widths that do not fit the columns are left out; a grid does not compile without any. -/
theorem answers_checkedWidths (h : Governs E P) (grid : Bool) (columns : Nat)
    (widths : Option (List α)) :
    Answers E (fun found => found = widths.filter (·.length = columns) ∧
      (grid = true → found.isSome)) (checkedWidths grid columns widths) := by
  unfold checkedWidths
  split
  · next ws =>
    split
    · next hfit => exact keeps_pure ⟨by simp [Option.filter, hfit], fun _ => rfl⟩
    · next hfit =>
      split
      · exact keeps_throw (h.error _ nofun)
      · next hgrid =>
        exact keeps_pure ⟨by simp [Option.filter, hfit], fun h => absurd h hgrid⟩
  · split
    · exact keeps_throw (h.error _ nofun)
    · next hgrid => exact keeps_pure ⟨rfl, fun h => absurd h hgrid⟩

/-! ## Tables -/

/-- A table is put together from raw rows, from the header of its context and from widths. -/
structure Assembled (P : CellStyle α → Prop) (compile : Compiling α) (grid : Bool)
    (context : Context) (rows : List Json) (widths : Option (List α)) (t : CompiledTable α) :
    Prop where
  nonempty : rows ≠ []
  body : List.Forall₂ (RowOf compile grid context.inheritable) rows t.rows
  cells : ∀ row ∈ t.rows, ∀ c ∈ row, P c.style
  header : HeadOf P (headerEntries context) t.style.columns t.header
  columns : ColumnsFor (askedColumns? context) (headerEntries context) t.rows t.style.columns
  widths : t.style.widths = widths.filter (·.length = t.style.columns)
  grid : grid = true → t.style.widths.isSome

theorem answers_buildTable (h : Governs E P) (grid : Bool) {e : Element} {context : Context}
    {rows : List Json} (hrows : rows = [] → E .emptyTable)
    (hparts : Supplies E P compile (headerParts (context.get? "header") ++ rowParts rows))
    (widths : Option (List α)) :
    Answers E (Assembled P compile grid context rows widths)
      (buildTable compile grid e context rows widths) := by
  have hhead := hparts.of_subset fun part hpart => List.mem_append_left (rowParts rows) hpart
  have hrow {row : Json} (hmem : row ∈ rows) : Supplies E P compile (row.asItems?.getD []) :=
    hparts.of_subset fun part hpart =>
      List.mem_append_right _ (List.mem_flatMap.mpr ⟨row, hmem, hpart⟩)
  have hbody := keeps_mapM fun row hmem =>
    answers_compileRow h grid e.raw (hrow hmem) context.inheritable
  unfold buildTable
  split
  · next hempty => exact keeps_throw (hrows (List.isEmpty_iff.mp hempty))
  · next hfull =>
    have hne : rows ≠ [] := fun hnil => hfull (List.isEmpty_iff.mpr hnil)
    refine hbody.bind fun cells hcells => ?_
    refine (answers_columnCount h _ context cells).bind fun columns hcolumns => ?_
    have hheaders := answers_headerCells h grid hhead columns
    -- what follows is the same whether there is a header or not
    cases hparse : HeaderRow.parse? (context.get? "header")
    all_goals
      rw [hparse] at hheaders
      refine hheaders.bind fun header hheader => ?_
      refine (answers_checkedWidths h grid columns widths).map fun found hfound => ?_
      have hrows := hcells.imp fun _ _ hc => hc.1
      have hstyles := forall_mem_of_forall₂ (hcells.imp fun _ _ hc => hc.2)
      exact ⟨hne, hrows, hstyles, hheader, hcolumns, hfound.1, hfound.2⟩

end

/-! ## Tables in a document -/

/-- A cell has the style of its context, within however many steps it compiles. -/
theorem supplies_compileWithin {P : CellStyle α → Prop}
    (hstyle : ∀ context, Gives P (cellStyle context)) (env : Env α) (steps : Nat)
    (parts : List Json) : Supplies (fun _ => True) P (compileWithin env steps) parts := by
  intro part _ context
  by_cases hcell : isCell part
  · cases steps with
    | zero => exact keeps_throw trivial
    | succ steps =>
      have hcompiled (grid : Bool) (e : Element) (c : Context) :
          Gives (fun d => P d.style) (compileCell (compileWithin env steps) grid e c) :=
        (gives_any _).bind fun _ _ => (hstyle c).map fun _ hp => hp
      have hstep := dispatched_compileStep env (compileWithin env steps) part context
      unfold compileWithin
      generalize compileStep env (compileWithin env steps) part context = act at hstep ⊢
      cases hstep with
      | leaf hleaf => cases part <;> simp_all [isCell, tagOf?, leafText?]
      | malformed => exact keeps_throw trivial
      | unknown => exact keeps_throw trivial
      | element _ hparse htag =>
        rcases tag_of_isCell hcell hparse htag with rfl | rfl
        · exact (hcompiled false _ _).map fun c hp _ d hd => by
            rcases hd with hd | hd <;> cases hd
            exact hp
        · exact (hcompiled true _ _).map fun c hp _ d hd => by
            rcases hd with hd | hd <;> cases hd
            exact hp
  · exact (gives_any _).weaken fun _ _ hyes => absurd hyes hcell

omit [Scalar α] in
/-- No part fails for want of rows unless one of them does. -/
theorem Supplies.blamed {P : CellStyle α → Prop} {compile : Compiling α} {parts : List Json}
    (h : Supplies (fun _ => True) P compile parts) {Q : Prop} :
    Supplies (fun e => e = .emptyTable →
      Q ∨ ∃ part ∈ parts, ∃ context, HasFailure (compile part context) .emptyTable)
      P compile parts := by
  intro part hpart context
  refine (h part hpart context).observed.mono (fun e he hempty => .inr ?_) fun _ hb => hb.1
  exact ⟨part, hpart, context, hempty ▸ he.2⟩

theorem compileGridTable_eq (compile : Compiling α) (e : Element) (context : Context) :
    compileGridTable compile e context = (do
      let t ← buildTable compile true e context (gridRows e.children)
        (gridWidths? context e.children)
      return .gridTable t.style t.header t.rows) := by
  rw [← leadingWidths_snd (α := α) e.children]
  rfl

/-! ## Both kinds of tables -/

def tableTag (grid : Bool) : Tag := if grid then .gridTable else .table

def tableNode (grid : Bool) (t : CompiledTable α) : Node α :=
  if grid then .gridTable t.style t.header t.rows else .table t.style t.header t.rows

omit [Scalar α] in
theorem tableNode_eq (grid : Bool) (t : CompiledTable α) :
    tableNode grid t = .table t.style t.header t.rows ∨
      tableNode grid t = .gridTable t.style t.header t.rows := by
  cases grid with
  | false => exact .inl rfl
  | true => exact .inr rfl

/-- The rows of a table of either kind among its children. -/
def bodyRows (grid : Bool) (children : List Json) : List Json :=
  if grid then gridRows children else children

/-- The widths that are given to a table of either kind. -/
def givenWidths? (grid : Bool) (context : Context) (children : List Json) : Option (List α) :=
  if grid then gridWidths? context children else (context.get? "widths").bind scalars?

theorem compileTag_table (env : Env α) (compile : Compiling α) (grid : Bool) (e : Element)
    (context : Context) : compileTag env compile (tableTag grid) e context =
      tableNode grid <$> buildTable compile grid e context (bodyRows grid e.children)
        (givenWidths? grid context e.children) := by
  rw [← bind_pure_comp]
  cases grid with
  | false => rfl
  | true => exact compileGridTable_eq compile e context

omit [Scalar α] in
theorem tagParts_table (env : Env α) (grid : Bool) (e : Element) (context : Context) :
    tagParts env (tableTag grid) e context =
      headerParts (context.get? "header") ++ rowParts (bodyRows grid e.children) := by
  cases grid <;> rfl

theorem exists_tableTag {e : Element} (h : e.tag? = some .table ∨ e.tag? = some .gridTable) :
    ∃ grid, e.tag? = some (tableTag grid) := by
  rcases h with h | h
  · exact ⟨false, h⟩
  · exact ⟨true, h⟩

section

variable {P : CellStyle α → Prop} {env : Env α} {node : Json} {e : Element} {grid : Bool}
  {context : Context}

/-- A table is put together from what its children and its own context give it. -/
theorem compileWithin_table (env : Env α) (steps : Nat) (hparse : Element.parse node = .ok e)
    (htag : e.tag? = some (tableTag grid)) (context : Context) :
    compileWithin env (steps + 1) node context =
      tableNode grid <$> buildTable (compileWithin env steps) grid e
        (resolve context env.sheet e.token.classes e.attrs) (bodyRows grid e.children)
        (givenWidths? grid (resolve context env.sheet e.token.classes e.attrs) e.children) :=
  (compileStep_of_parse env _ hparse htag context).trans (compileTag_table env _ grid e _)

/-- What a table comes to, and when it fails for want of rows. -/
theorem answers_compileWithin_table (hstyle : ∀ context, Gives P (cellStyle context)) (env : Env α)
    (steps : Nat) (hparse : Element.parse node = .ok e) (htag : e.tag? = some (tableTag grid))
    (context : Context) :
    Answers
      (fun err => err = .emptyTable → bodyRows grid e.children = [] ∨
        ∃ part ∈ innerParts env context node, ∃ c,
          HasFailure (compileWithin env steps part c) .emptyTable)
      (fun n => ∃ t, n = tableNode grid t ∧
        Assembled P (compileWithin env steps) grid
          (resolve context env.sheet e.token.classes e.attrs) (bodyRows grid e.children)
          (givenWidths? grid (resolve context env.sheet e.token.classes e.attrs) e.children) t)
      (compileWithin env (steps + 1) node context) := by
  have hinner : innerParts env context node = headerParts
      ((resolve context env.sheet e.token.classes e.attrs).get? "header") ++
        rowParts (bodyRows grid e.children) := by
    rw [innerParts_of_parse hparse htag (by cases grid <;> decide), tagParts_table]
  have hgoverns : Governs (fun err => err = .emptyTable → bodyRows grid e.children = [] ∨
      ∃ part ∈ innerParts env context node, ∃ c,
        HasFailure (compileWithin env steps part c) .emptyTable) P :=
    ⟨fun _ hne hempty => absurd hempty hne, hstyle⟩
  have hparts := (supplies_compileWithin hstyle env steps (innerParts env context node)).blamed
    (Q := bodyRows grid e.children = [])
  rw [compileWithin_table env steps hparse htag]
  exact (answers_buildTable hgoverns grid (fun hrows _ => .inl hrows) (hinner ▸ hparts) _).map
    fun t ht => ⟨t, rfl, ht⟩

/-- A table that has compiled has been put together. -/
theorem exists_assembled (hstyle : ∀ context, Gives P (cellStyle context)) {steps : Nat}
    (hparse : Element.parse node = .ok e) (htag : e.tag? = some (tableTag grid))
    {state after : State α} {n : Node α}
    (hrun : (compileWithin env steps node context).run state = (.ok n, after)) :
    ∃ fewer t, n = tableNode grid t ∧ Assembled P (compileWithin env fewer) grid
      (resolve context env.sheet e.token.classes e.attrs) (bodyRows grid e.children)
      (givenWidths? grid (resolve context env.sheet e.token.classes e.attrs) e.children) t := by
  cases steps with
  | zero => cases hrun
  | succ steps =>
    exact ⟨steps, (answers_compileWithin_table hstyle env steps hparse htag context).of_result hrun⟩

end

end Folio.Compile
