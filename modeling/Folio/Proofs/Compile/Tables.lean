import Folio.Proofs.Compile.Keepable

/-!
# Tables

The text of a table is that of its header and then that of its rows, entry by entry. An entry that
is a cell is compiled in the context of its row, header styles and all; whatever else it is, it is
the content of a cell that is made for it.
-/
namespace Folio.Compile

open Style Markup

variable {α : Type} [Scalar α] {G : Json → String → Prop} {blame : Prop} {I : State α → Prop}
  {E : CompileError → Prop} {env : Env α} {compile : Compiling α}

theorem keeps_cellStyle (keeps : Keepable blame I E G) {context : Context}
    (hc : Blames blame context) :
    Keeps I E (fun _ => True) (cellStyle context : CompileM α (CellStyle α)) :=
  (keeps_firstColor? keeps hc _ _).map fun _ _ => trivial

theorem keeps_cellContent (keeps : Keepable blame I E G) (grid : Bool) {children : List Json}
    (h : Handles env blame I E G compile children) {context : Context} (hc : Blames blame context) :
    Keeps I E (fun n => Built G children n.textContent)
      (cellContent compile grid children context) := by
  unfold cellContent
  simp only
  split
  · refine (keeps_textNode keeps hc.inheritable "").weaken fun n hn => ?_
    rw [hn]
    exact .nil
  · next only =>
    split
    · next text hleaf =>
      refine (keeps_textNode keeps hc.inheritable text).bind fun n hn => ?_
      have hbuilt : Built G [only] n.textContent := by
        rw [hn]
        exact built_singleton.mpr (keeps.leaf hleaf)
      split
      · refine (keeps_fontOf keeps hc.inheritable).map fun font _ => ?_
        simpa [Node.textContent] using hbuilt
      · exact keeps_pure hbuilt
    · exact (h.inheritable List.mem_cons_self hc).weaken fun n hn => built_singleton.mpr hn
  · have hchildren := keeps_mapM (I := I) (E := E) fun child hchild => h.inheritable hchild hc
    refine hchildren.bind fun ns hns => ?_
    refine (keeps_fontOf keeps hc.inheritable).map fun font _ => ?_
    simpa only [Node.textContent] using built_nodes hns

theorem keeps_compileCell (keeps : Keepable blame I E G) (grid : Bool) {e : Element}
    (h : Handles env blame I E G compile e.children) {context : Context}
    (hc : Blames blame context) :
    Keeps I E (fun c => Built G e.children (Node.textOfCell c))
      (compileCell compile grid e context) := by
  refine (keeps_cellContent keeps grid h hc).bind fun n hn => ?_
  refine (keeps_cellStyle keeps hc).map fun style _ => ?_
  simpa only [Node.textOfCell] using hn

theorem keeps_rowCell (keeps : Keepable blame I E G) (grid : Bool) {item : Json}
    (h : Handles env blame I E G compile [item]) {context : Context} (hc : Blames blame context) :
    Keeps I E (fun c => G item (Node.textOfCell c)) (rowCell compile grid context item) := by
  unfold rowCell
  split
  · next hcell =>
    have hitem := h item List.mem_cons_self context hc (hides_cell env context hcell)
    refine hitem.bind fun n hn => ?_
    split
    · exact keeps_pure (by simpa only [Node.textContent] using hn)
    · exact keeps_pure (by simpa only [Node.textContent] using hn)
    · exact keeps_invalid keeps
  · refine (keeps_cellContent keeps grid h hc).bind fun n hn => ?_
    refine (keeps_cellStyle keeps hc.inheritable).map fun style _ => ?_
    simpa only [Node.textOfCell] using built_singleton.mp hn

theorem keeps_headerCell (keeps : Keepable blame I E G) (grid : Bool) {entry : Json}
    (h : Handles env blame I E G compile [headerContent entry]) {context : Context}
    (hc : Blames blame context) (hentry : cutsColor entry → blame) :
    Keeps I E (fun c => G (headerContent entry) (Node.textOfCell c))
      (headerCell compile grid context entry) := by
  have hentries := headerEntry_headerCell compile grid context entry
  generalize headerCell compile grid context entry = act at hentries ⊢
  cases hentries with
  | @styled content inlined htag =>
    rw [headerContent_of_styled htag] at h ⊢
    have hmerged : Blames blame (context.merge inlined) := hc.mergeEntry hentry
    refine (keeps_cellContent keeps grid h hmerged).bind fun n hn => ?_
    refine (keeps_cellStyle keeps hmerged).map fun style _ => ?_
    simpa only [Node.textOfCell] using built_singleton.mp hn
  | untagged => exact keeps_invalid keeps
  | row htagged =>
    rw [headerContent_of_tagged htagged] at h ⊢
    exact keeps_rowCell keeps grid h hc

omit [Scalar α] in
theorem textOfCells_spanned (columns : Nat) (cells : List (Cell α)) :
    Node.textOfCells (spanned columns cells) = Node.textOfCells cells := by
  unfold spanned
  split
  · next only =>
    cases only
    simp [Node.textOfCells, Node.textOfCell, withColspan]
  · rfl

theorem keeps_headerCells (keeps : Keepable blame I E G) (grid : Bool) {context : Context}
    {row : HeaderRow} (hrow : HeaderRow.parse? (context.get? "header") = some row)
    (h : Handles env blame I E G compile (headerParts (context.get? "header")))
    (hc : Blames blame context) (columns : Nat) :
    Keeps I E (fun cs => Built G (headerParts (context.get? "header")) (Node.textOfCells cs))
      (headerCells compile grid row context columns) := by
  rw [headerParts_of_some hrow] at h ⊢
  obtain ⟨value, hvalue⟩ := exists_header_of_parse hrow
  have hcut : cutsColor value → blame := fun hcut => hc (cutsColorFields_of_get? hvalue hcut)
  rw [hvalue] at hrow
  have hcells {styled : Context} (hstyled : Blames blame styled) :=
    keeps_mapM (I := I) (E := E) fun entry hentry =>
      keeps_headerCell keeps grid (h.singleton (List.mem_map_of_mem hentry)) hstyled
        fun hentryCut =>
          hcut (cutsColor_of_inside (inside_of_mem_entries hrow hentry) hentryCut)
  refine Keeps.map (hcells ?_) fun cells hbuilt => ?_
  · split
    · next style hstyle =>
      exact hc.inheritable.merge fun hstyleCut =>
        hcut (cutsColor_of_inside (inside_of_style hrow hstyle) hstyleCut)
    · exact hc.inheritable
  · rw [textOfCells_spanned]
    exact built_cells hbuilt

theorem keeps_compileRow (keeps : Keepable blame I E G) (grid : Bool) (raw row : Json)
    (h : Handles env blame I E G compile (row.asItems?.getD [])) {context : Context}
    (hc : Blames blame context) :
    Keeps I E (fun cs => Built G (row.asItems?.getD []) (Node.textOfCells cs))
      (compileRow compile grid raw context row) := by
  unfold compileRow
  split
  · next items =>
    have hcells := keeps_mapM (I := I) (E := E) fun item hitem =>
      keeps_rowCell keeps grid (h.singleton hitem) hc
    refine hcells.weaken fun cells hbuilt => ?_
    have hall := built_cells (f := id) hbuilt
    rwa [List.map_id] at hall
  · exact keeps_invalid keeps

omit [Scalar α] in
theorem keeps_columnCount (keeps : Keepable blame I E G) (tag : String) (context : Context)
    (header : Option HeaderRow) (rows : List (List (Cell α))) :
    Keeps I E (fun _ => True) (columnCount tag context header rows) := by
  unfold columnCount
  simp only
  split
  · split
    · exact keeps_throw (keeps.own trivial)
    · split
      · exact keeps_pure trivial
      · exact keeps_pure trivial
  · exact keeps_pure trivial

omit [Scalar α] in
theorem keeps_checkedWidths (keeps : Keepable blame I E G) (grid : Bool) (columns : Nat)
    (widths : Option (List α)) :
    Keeps I E (fun _ => True) (checkedWidths grid columns widths) := by
  unfold checkedWidths
  split
  · split
    · exact keeps_pure trivial
    · split
      · exact keeps_throw (keeps.own trivial)
      · exact keeps_pure trivial
  · split
    · exact keeps_throw (keeps.own trivial)
    · exact keeps_pure trivial

/-- Rows are compiled first, but the header is read before them. -/
theorem keeps_buildTable (keeps : Keepable blame I E G) (grid : Bool) {e : Element}
    {rows : List Json} {context : Context}
    (h : Handles env blame I E G compile (headerParts (context.get? "header") ++ rowParts rows))
    (hc : Blames blame context) (widths : Option (List α)) :
    Keeps I E (fun t => Built G (headerParts (context.get? "header") ++ rowParts rows)
        (Node.textOfCells t.header ++ Node.textOfRows t.rows))
      (buildTable compile grid e context rows widths) := by
  have hheader := h.of_subset fun part hpart => List.mem_append_left (rowParts rows) hpart
  have hrow {row : Json} (hmem : row ∈ rows) :
      Handles env blame I E G compile (row.asItems?.getD []) := by
    refine h.of_subset fun part hpart => List.mem_append_right _ ?_
    exact List.mem_flatMap.mpr ⟨row, hmem, hpart⟩
  have hcells := keeps_mapM (I := I) (E := E) fun row hmem =>
    keeps_compileRow keeps grid e.raw row (hrow hmem) hc.inheritable
  unfold buildTable
  split
  · exact keeps_throw (keeps.own trivial)
  · refine hcells.bind fun cells hbuilt => ?_
    refine (keeps_columnCount keeps _ context _ cells).bind fun columns _ => ?_
    have hrows := built_rows hbuilt
    cases hparse : HeaderRow.parse? (context.get? "header") with
    | none =>
      have hempty : Keeps I E (fun cs => Built G [] (Node.textOfCells cs))
          (pure [] : CompileM α (List (Cell α))) := keeps_pure .nil
      rw [headerParts_of_none hparse]
      refine hempty.bind fun cs hcs => ?_
      exact (keeps_checkedWidths keeps grid columns widths).map fun _ _ => hcs.append hrows
    | some row =>
      refine (keeps_headerCells keeps grid hparse hheader hc columns).bind fun cs hcs => ?_
      exact (keeps_checkedWidths keeps grid columns widths).map fun _ _ => hcs.append hrows

theorem keeps_compileTable (keeps : Keepable blame I E G) {e : Element} {context : Context}
    (h : Handles env blame I E G compile
      (headerParts (context.get? "header") ++ rowParts e.children)) (hc : Blames blame context) :
    Keeps I E (fun n => Built G (headerParts (context.get? "header") ++ rowParts e.children)
      n.textContent) (compileTable compile e context) := by
  refine (keeps_buildTable keeps false h hc _).map fun t ht => ?_
  simpa only [Node.textContent] using ht

theorem leadingWidths_snd (children : List Json) :
    (leadingWidths children : Option (List α) × List Json).2 = gridRows children := by
  unfold leadingWidths
  split
  · simp only [gridRows]
    split
    · rfl
    · rfl
  · next hshape =>
    unfold gridRows
    split
    · next x xs rest => exact (hshape x xs rest rfl).elim
    · rfl

theorem keeps_compileGridTable (keeps : Keepable blame I E G) {e : Element} {context : Context}
    (h : Handles env blame I E G compile
      (headerParts (context.get? "header") ++ rowParts (gridRows e.children)))
    (hc : Blames blame context) :
    Keeps I E (fun n => Built G
        (headerParts (context.get? "header") ++ rowParts (gridRows e.children)) n.textContent)
      (compileGridTable compile e context) := by
  rw [← leadingWidths_snd (α := α)] at h ⊢
  refine (keeps_buildTable keeps true h hc _).map fun t ht => ?_
  simpa only [Node.textContent] using ht

end Folio.Compile
