import Folio.Proofs.Compile.JudgedBlocks

/-!
# What tables accept

The widths of a grid have to fit its columns, and how many columns a table has may depend on the
cells of its rows. So it is followed which cells the entries of a row become, as far as the columns
go that they take up.
-/
namespace Folio.Compile

open Style Markup

variable {α : Type} [Scalar α] {F : CompileError → Prop} {blame : Prop} {env : Env α}
  {compile : Compiling α}

/-! ## Cells -/

/-- Nothing that is inherited makes a cell wider. -/
theorem spanOf_inheritable (context : Context) : spanOf context.inheritable = 1 := by
  have hnone : context.inheritable.get? "colspan" = none :=
    Context.get?_without_of_mem (by decide) context
  simp [spanOf, Context.count?, hnone]

omit [Scalar α] in
theorem entrySpan_inheritable (context : Context) (item : Json) :
    entrySpan env context.inheritable item = entrySpan env .empty item := by
  have hkey : context.inheritable.get? "colspan" = Context.empty.get? "colspan" :=
    Context.get?_without_of_mem (by decide) context
  unfold entrySpan
  split
  · next e _ =>
    have hresolved := get?_resolve_congr hkey env.sheet e.token.classes e.attrs
    simp only [spanOf, Context.count?, hresolved]
  · rfl

theorem judges_cellStyle (hF : Forgives F blame) {context : Context} (hc : Blames blame context) :
    Judges F True (fun style => style.colspan = spanOf context)
      (cellStyle context : CompileM α (CellStyle α)) :=
  (judges_firstColor? hF hc _ _).map fun _ _ => rfl

theorem judges_cellContent (hF : Forgives F blame) (grid : Bool) {children : List Json}
    (h : Judged env blame F compile children) {context : Context} (hc : Blames blame context) :
    Judges F (∀ child ∈ children, WellFormed env .empty child) (fun _ => True)
      (cellContent compile grid children context) := by
  unfold cellContent
  simp only
  split
  · exact (judges_textNode hF hc.inheritable "").iff (by simp)
  · next only =>
    split
    · next text hleaf =>
      have hrun : Judges F True (fun _ => True) (do
          let run : Node α ← textNode text context.inheritable
          if grid then return .phrase ⟨← fontOf context.inheritable, none⟩ [run]
          else return run) := by
        refine (judges_textNode hF hc.inheritable text).before fun n _ => ?_
        split
        · exact (judges_fontOf hF hc.inheritable).map fun _ _ => trivial
        · exact judges_pure trivial trivial
      exact hrun.iff (by simp [← wellFormed_of_leaf hleaf])
    · exact (h.inheritable List.mem_cons_self hc).iff (by simp)
  · exact (judges_compileChildren h hc).andThen fun _ _ =>
      (judges_fontOf hF hc.inheritable).map fun _ _ => trivial

theorem judges_compileCell (hF : Forgives F blame) (grid : Bool) {e : Element}
    (h : Judged env blame F compile e.children) {context : Context} (hc : Blames blame context) :
    Judges F (∀ child ∈ e.children, WellFormed env .empty child)
      (fun c => c.style.colspan = spanOf context) (compileCell compile grid e context) :=
  (judges_cellContent hF grid h hc).andThen fun _ _ =>
    (judges_cellStyle hF hc).map fun _ hspan => hspan

theorem judges_rowCell (hF : Forgives F blame) (grid : Bool) {item : Json}
    (h : Judged env blame F compile [item]) {context : Context} (hc : Blames blame context) :
    Judges F (WellFormed env .empty item)
      (fun c => c.style.colspan = entrySpan env context item)
      (rowCell compile grid context item) := by
  unfold rowCell
  split
  · next hcell =>
    refine (h item List.mem_cons_self context hc (.inr hcell)).andThen fun n hn => ?_
    obtain ⟨c, rfl | rfl, hspan⟩ := hn hcell
    · exact judges_pure trivial hspan
    · exact judges_pure trivial hspan
  · next hcell =>
    have hone : entrySpan env context item = 1 := by
      unfold entrySpan
      split
      · exact if_neg hcell
      · rfl
    refine Judges.iff ((judges_cellContent hF grid h hc).andThen fun n _ => ?_) (by simp)
    refine (judges_cellStyle hF hc.inheritable).map fun style hspan => ?_
    rw [hone, ← spanOf_inheritable context]
    exact hspan

/-! ## Headers -/

/-- An untagged array is no element. -/
theorem not_wellFormed_untagged {context : Context} {items : List Json}
    (h : tagOf? (.array items) = none) : ¬WellFormed env context (.array items) := by
  intro hwell
  cases hwell with
  | leaf hleaf => cases hleaf
  | element parsed known shape inside =>
    rw [tagOf?_eq, parsed] at h
    exact absurd (known.symm.trans h) nofun

theorem judges_headerCell (hF : Forgives F blame) (grid : Bool) {entry : Json}
    (h : Judged env blame F compile [headerContent entry]) {context : Context}
    (hc : Blames blame context) (hentry : cutsColor entry → blame) :
    Judges F (WellFormed env .empty (headerContent entry)) (fun _ => True)
      (headerCell compile grid context entry) := by
  have hentries := headerEntry_headerCell compile grid context entry
  generalize headerCell compile grid context entry = act at hentries ⊢
  cases hentries with
  | @styled content inlined htag =>
    rw [headerContent_of_styled htag] at h ⊢
    have hmerged : Blames blame (context.merge inlined) := hc.mergeEntry hentry
    refine Judges.iff ((judges_cellContent hF grid h hmerged).andThen fun n _ => ?_) (by simp)
    exact (judges_cellStyle hF hmerged).map fun _ _ => trivial
  | untagged htag hcontent =>
    rw [hcontent]
    exact judges_invalid (not_wellFormed_untagged htag)
  | row htagged =>
    rw [headerContent_of_tagged htagged] at h ⊢
    exact (judges_rowCell hF grid h hc).weaken fun _ _ => trivial

theorem judges_headerCells (hF : Forgives F blame) (grid : Bool) {context : Context}
    {row : HeaderRow} (hrow : HeaderRow.parse? (context.get? "header") = some row)
    (h : Judged env blame F compile (headerParts (context.get? "header")))
    (hc : Blames blame context) (columns : Nat) :
    Judges F (∀ part ∈ headerParts (context.get? "header"), WellFormed env .empty part)
      (fun _ => True) (headerCells compile grid row context columns) := by
  rw [headerParts_of_some hrow] at h ⊢
  obtain ⟨value, hvalue⟩ := exists_header_of_parse hrow
  have hcut : cutsColor value → blame := fun hcut => hc (cutsColorFields_of_get? hvalue hcut)
  rw [hvalue] at hrow
  have hcells {styled : Context} (hstyled : Blames blame styled) :=
    judges_mapM fun entry hentry =>
      judges_headerCell hF grid
        (h.of_subset fun part hpart => List.mem_singleton.mp hpart ▸ List.mem_map_of_mem hentry)
        hstyled fun hentryCut =>
          hcut (cutsColor_of_inside (inside_of_mem_entries hrow hentry) hentryCut)
  refine Judges.iff ((hcells ?_).map fun _ _ => trivial) List.forall_mem_map.symm
  split
  · next style hstyle =>
    exact hc.inheritable.merge fun hstyleCut =>
      hcut (cutsColor_of_inside (inside_of_style hrow hstyle) hstyleCut)
  · exact hc.inheritable

/-! ## Rows and columns -/

omit [Scalar α] in
theorem rowWidth_eq {items : List Json} {cells : List (Cell α)}
    (h : List.Forall₂ (fun item c => c.style.colspan = entrySpan env .empty item) items cells) :
    rowWidth cells = rowSpan env items := by
  have hfrom : ∀ n, cells.foldl (fun n c => n + c.style.colspan) n =
      items.foldl (fun n item => n + entrySpan env .empty item) n := by
    induction h with
    | nil => exact fun n => rfl
    | cons h _ ih =>
      intro n
      rw [List.foldl_cons, List.foldl_cons, h, ih]
  exact hfrom 0

theorem judges_compileRow (hF : Forgives F blame) (grid : Bool) (raw row : Json)
    (h : Judged env blame F compile (row.asItems?.getD [])) {context : Context}
    (hc : Blames blame context) :
    Judges F ((∃ items, row = .array items) ∧
        ∀ item ∈ row.asItems?.getD [], WellFormed env .empty item)
      (fun cells => rowWidth cells = rowSpan env (row.asItems?.getD []))
      (compileRow compile grid raw context.inheritable row) := by
  unfold compileRow
  split
  · next items =>
    have hcells := judges_mapM fun item hitem => (judges_rowCell hF grid
      (h.of_subset fun part hpart => List.mem_singleton.mp hpart ▸ hitem) hc.inheritable)
    refine (hcells.weaken fun cells hspans => rowWidth_eq ?_).iff (by simp [Json.asItems?])
    simpa only [entrySpan_inheritable] using hspans
  · next hshape => exact judges_invalid fun hrow => hrow.1.elim hshape

omit [Scalar α] in
theorem judges_columnCount (tag : String) (context : Context) {rows : List Json}
    {cells : List (List (Cell α))}
    (h : List.Forall₂ (fun row cs => rowWidth cs = rowSpan env (row.asItems?.getD [])) rows cells) :
    Judges F (∀ n, askedColumns? context = some n → n ≤ maxColumns)
      (fun columns => columns = columnsOf env context rows)
      (columnCount tag context (HeaderRow.parse? (context.get? "header")) cells) := by
  have hneeded : ∀ n, cells.foldl (fun n cs => max n (rowWidth cs)) n =
      rows.foldl (fun n row => max n (rowSpan env (row.asItems?.getD []))) n := by
    induction h with
    | nil => exact fun n => rfl
    | cons h _ ih =>
      intro n
      rw [List.foldl_cons, List.foldl_cons, h, ih]
  unfold columnCount columnsOf askedColumns?
  simp only [hneeded]
  cases (context.get? "num-cols").bind Json.asCount? with
  | none => exact judges_pure nofun rfl
  | some n =>
    simp only [Option.some.injEq, forall_eq']
    by_cases hmany : maxColumns < n
    · rw [if_pos hmany]
      exact judges_throw (Nat.not_le_of_lt hmany)
    · rw [if_neg hmany]
      have hle := Nat.le_of_not_lt hmany
      cases n with
      | zero => exact judges_pure hle rfl
      | succ n => exact judges_pure hle rfl

omit [Scalar α] in
theorem judges_checkedWidths (grid : Bool) (columns : Nat) (widths : Option (List α)) :
    Judges F (grid = true → ∃ ws, widths = some ws ∧ ws.length = columns) (fun _ => True)
      (checkedWidths grid columns widths) := by
  unfold checkedWidths
  split
  · next ws =>
    split
    · next hfit => exact judges_pure (fun _ => ⟨ws, rfl, hfit⟩) trivial
    · next hfit =>
      split
      · next hgrid =>
        refine judges_throw fun hwidths => ?_
        obtain ⟨other, hother, hlength⟩ := hwidths hgrid
        exact hfit (Option.some.inj hother ▸ hlength)
      · next hgrid => exact judges_pure (fun h => absurd h hgrid) trivial
  · split
    · next hgrid => exact judges_throw fun hwidths => (hwidths hgrid).elim nofun
    · next hgrid => exact judges_pure (fun h => absurd h hgrid) trivial

/-! ## Tables -/

/-- What a table asks of its rows, its columns, its widths and everything in it. -/
def TableForm (env : Env α) (grid : Bool) (context : Context) (rows : List Json)
    (widths : Option (List α)) : Prop :=
  (TableShape context rows ∧
    (grid = true → ∃ ws, widths = some ws ∧ ws.length = columnsOf env context rows)) ∧
  ∀ part ∈ headerParts (context.get? "header") ++ rowParts rows, WellFormed env .empty part

theorem tableForm_iff {grid : Bool} {context : Context} {rows : List Json}
    {widths : Option (List α)} (h : rows ≠ []) :
    ((∀ row ∈ rows, (∃ items, row = .array items) ∧
        ∀ item ∈ row.asItems?.getD [], WellFormed env .empty item) ∧
      (∀ n, askedColumns? context = some n → n ≤ maxColumns) ∧
      (∀ part ∈ headerParts (context.get? "header"), WellFormed env .empty part) ∧
      (grid = true → ∃ ws, widths = some ws ∧ ws.length = columnsOf env context rows)) ↔
    TableForm env grid context rows widths := by
  constructor
  · rintro ⟨hrows, hcolumns, hheader, hwidths⟩
    refine ⟨⟨⟨h, fun row hrow => (hrows row hrow).1, hcolumns⟩, hwidths⟩, fun part hpart => ?_⟩
    rcases List.mem_append.mp hpart with hpart | hpart
    · exact hheader part hpart
    · obtain ⟨row, hrow, hitem⟩ := List.mem_flatMap.mp hpart
      exact (hrows row hrow).2 part hitem
  · rintro ⟨⟨hshape, hwidths⟩, hparts⟩
    refine ⟨fun row hrow => ⟨hshape.arrays row hrow, fun item hitem => hparts item ?_⟩,
      hshape.columns, fun part hpart => hparts part (List.mem_append_left _ hpart), hwidths⟩
    exact List.mem_append_right _ (List.mem_flatMap.mpr ⟨row, hrow, hitem⟩)

theorem judges_buildTable (hF : Forgives F blame) (grid : Bool) {e : Element} {rows : List Json}
    {context : Context}
    (h : Judged env blame F compile (headerParts (context.get? "header") ++ rowParts rows))
    (hc : Blames blame context) (widths : Option (List α)) :
    Judges F (TableForm env grid context rows widths) (fun _ => True)
      (buildTable compile grid e context rows widths) := by
  have hheader := h.of_subset fun part hpart => List.mem_append_left (rowParts rows) hpart
  have hrow {row : Json} (hmem : row ∈ rows) :
      Judged env blame F compile (row.asItems?.getD []) :=
    h.of_subset fun part hpart =>
      List.mem_append_right _ (List.mem_flatMap.mpr ⟨row, hmem, hpart⟩)
  have hcells := judges_mapM fun row hmem =>
    judges_compileRow hF grid e.raw row (hrow hmem) hc
  unfold buildTable
  split
  · next hempty =>
    exact judges_throw fun hform => hform.1.1.nonempty (List.isEmpty_iff.mp hempty)
  · next hnonempty =>
    have hrows : rows ≠ [] := fun hnil => hnonempty (List.isEmpty_iff.mpr hnil)
    refine Judges.iff (hcells.bind fun cells hspans =>
      (judges_columnCount e.token.primary context hspans).bind fun columns hcolumns => ?_)
      (tableForm_iff hrows)
    subst hcolumns
    cases hparse : HeaderRow.parse? (context.get? "header") with
    | none =>
      have hempty : Judges F (∀ part ∈ ([] : List Json), WellFormed env .empty part)
          (fun _ => True) (pure [] : CompileM α (List (Cell α))) :=
        judges_pure (List.forall_mem_nil _) trivial
      rw [headerParts_of_none hparse]
      exact hempty.bind fun _ _ => (judges_checkedWidths grid _ widths).map fun _ _ => trivial
    | some row =>
      refine (judges_headerCells hF grid hparse hheader hc _).bind fun _ _ => ?_
      exact (judges_checkedWidths grid _ widths).map fun _ _ => trivial

theorem judges_compileTable (hF : Forgives F blame) {e : Element} {context : Context}
    (h : Judged env blame F compile (headerParts (context.get? "header") ++ rowParts e.children))
    (hc : Blames blame context) :
    Judges F (TableShape context e.children ∧
        ∀ part ∈ headerParts (context.get? "header") ++ rowParts e.children,
          WellFormed env .empty part) (fun _ => True)
      (compileTable compile e context) :=
  Judges.iff ((judges_buildTable hF false h hc _).map fun _ _ => trivial) (by simp [TableForm])

theorem judges_compileGridTable (hF : Forgives F blame) {e : Element} {context : Context}
    (h : Judged env blame F compile
      (headerParts (context.get? "header") ++ rowParts (gridRows e.children)))
    (hc : Blames blame context) :
    Judges F (Shape env .gridTable e context ∧
        ∀ part ∈ headerParts (context.get? "header") ++ rowParts (gridRows e.children),
          WellFormed env .empty part) (fun _ => True)
      (compileGridTable compile e context) := by
  have hrows := leadingWidths_snd (α := α) e.children
  rw [← hrows] at h
  refine Judges.iff ((judges_buildTable hF true h hc _).map fun _ _ => trivial) ?_
  change TableForm env true context (leadingWidths e.children).2
    (gridWidths? context e.children) ↔ _
  rw [hrows]
  simp [TableForm, Shape]

end Folio.Compile
