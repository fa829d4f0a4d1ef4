import Folio.Proofs.Compile.HandsOn
import Folio.Proofs.Compile.RespeltRules

/-!
# Tables and the spelling of markup

Rows, header entries and cells compile the same way in every spelling. Whether an entry of a header
is content with attributes of its own does not depend on the spelling, and neither does a first row
of widths.
-/
namespace Folio.Compile

open Style Markup

variable {α β : Type} [Scalar α] {R : State α → State α → Prop} {env : Env α}
  {compile : Compiling α} {reference : Bool} {c d : Context} {e f : Element}

/-! ## Cells -/

theorem cellStyle_eq (hc : ContextRespelt reference c d) :
    (cellStyle c : CompileM α (CellStyle α)) = cellStyle d := by
  unfold cellStyle firstColor? borderEnabled
  simp (disch := decide) only [colorOf?_eq hc, hc.get?_eq, hc.scalar?_eq, hc.keyword?_eq,
    hc.count?_eq]

omit [Scalar α] in
theorem related_firstColor? (context : Context) (first second : String) :
    Related R (firstColor? context first second : CompileM α _) := by
  refine related_bind (related_ofColor _) fun color => ?_
  split
  · exact related_pure _
  · exact related_ofColor _

theorem matches_cellStyle (hc : ContextRespelt reference c d) :
    Matches R (cellStyle c : CompileM α (CellStyle α)) (cellStyle d) := by
  rw [cellStyle_eq hc]
  exact matches_of_related (related_bind (related_firstColor? _ _ _) fun _ => related_pure _)

theorem matches_cellContent (grid : Bool) {xs ys : List Json}
    (hitems : List.Forall₂ (Respelt .node) xs ys) (hc : ContextRespelt reference c d)
    (h : Paired R compile (below xs c) (below ys d)) :
    Matches R (cellContent compile grid xs c) (cellContent compile grid ys d) := by
  have hmany : Matches R
      (do
        let children ← compileChildren compile xs c
        return Node.phrase ⟨← fontOf c.inheritable, c.scalar? "leading"⟩ children)
      (do
        let children ← compileChildren compile ys d
        return Node.phrase ⟨← fontOf d.inheritable, d.scalar? "leading"⟩ children) := by
    rw [hc.scalar?_eq (by decide)]
    refine (matches_compileChildren hitems hc h).bind fun children => ?_
    exact (matches_fontOf hc.inheritable).map _
  cases hitems with
  | nil => exact matches_textNode hc.inheritable ""
  | @cons x y xs ys hxy hrest =>
    cases hrest with
    | nil =>
      have hchild := matches_child h hc List.mem_cons_self List.mem_cons_self hxy
      unfold cellContent
      simp only [← hxy.leafText?_eq]
      cases leafText? x with
      | none => exact hchild
      | some text =>
        refine (matches_textNode hc.inheritable text).bind fun run => ?_
        cases grid with
        | false => exact matches_pure run
        | true => exact (matches_fontOf hc.inheritable).map _
    | cons => exact hmany

theorem matches_compileCell (grid : Bool)
    (hitems : List.Forall₂ (Respelt .node) e.children f.children)
    (hc : ContextRespelt reference c d)
    (h : Paired R compile (below e.children c) (below f.children d)) :
    Matches R (compileCell compile grid e c) (compileCell compile grid f d) :=
  (matches_cellContent grid hitems hc h).bind fun _ => (matches_cellStyle hc).map _

/-! ## Entries of rows -/

omit [Scalar α] in
theorem Paired.of_mem {xs ys : List Json} {k l : Json → Json × Context}
    (h : Paired R compile (xs.map k) (ys.map l)) {x y : Json} (hx : x ∈ xs) (hy : y ∈ ys) :
    Paired R compile [k x] [l y] := by
  intro call hcall call' hcall'
  rw [List.mem_singleton.mp hcall, List.mem_singleton.mp hcall']
  exact h _ (List.mem_map_of_mem hx) _ (List.mem_map_of_mem hy)

theorem Respelt.isCell_eq {x y : Json} (h : Respelt .node x y) : isCell x = isCell y := by
  unfold isCell
  rw [h.tagOf?_eq]

theorem matches_rowCell (grid : Bool) {x y : Json} (hxy : Respelt .node x y)
    (hc : ContextRespelt false c d) (h : Paired R compile [entryCall c x] [entryCall d y]) :
    Matches R (rowCell compile grid c x) (rowCell compile grid d y) := by
  unfold entryCall at h
  unfold rowCell
  rw [← hxy.isCell_eq] at h ⊢
  by_cases hcell : isCell x
  · simp only [hcell, ↓reduceIte] at h ⊢
    refine (h _ List.mem_cons_self _ List.mem_cons_self hxy hc).bind fun n => ?_
    split
    · exact matches_pure _
    · exact matches_pure _
    · exact matches_invalid _ _ _
  · simp only [hcell, Bool.false_eq_true, ↓reduceIte] at h ⊢
    refine (matches_cellContent grid (.cons hxy .nil) hc h).bind fun content => ?_
    exact (matches_cellStyle hc.inheritable).map _

theorem matches_compileRow (grid : Bool) {raw raw' row row' : Json}
    (hrow : Respelt .row row row') (hc : ContextRespelt false c d)
    (h : Paired R compile ((row.asItems?.getD []).map (entryCall c))
      ((row'.asItems?.getD []).map (entryCall d))) :
    Matches R (compileRow compile grid raw c row) (compileRow compile grid raw' d row') := by
  have hcells {xs ys : List Json} (hitems : List.Forall₂ (Respelt .node) xs ys)
      (h : Paired R compile (xs.map (entryCall c)) (ys.map (entryCall d))) :
      Matches R (xs.mapM (rowCell compile grid c)) (ys.mapM (rowCell compile grid d)) :=
    matches_mapM hitems fun x hx y hy hxy => matches_rowCell grid hxy hc (h.of_mem hx hy)
  cases hrow with
  | same =>
    unfold compileRow
    split
    · exact hcells (List.forall₂_same.mpr fun _ _ => .same _ _) h
    · exact matches_invalid _ _ _
  | row length items => exact hcells (Respelt.forall₂ length items) h

/-! ## Entries of headers -/

/-- The tag that a value names if it stands at the head of an array. -/
def headTag? : Json → Option Tag
  | .string token => tokenTag? token
  | _ => none

theorem tagOf?_cons (x : Json) (xs : List Json) : tagOf? (.array (x :: xs)) = headTag? x := by
  cases x <;> rfl

theorem Respelt.headTag?_eq {x y : Json} (h : Respelt .node x y) : headTag? x = headTag? y := by
  cases h <;> rfl

theorem exists_of_isStyledEntry {entry : Json} (h : isStyledEntry entry) :
    ∃ x fs, entry = .array [x, .object fs] ∧ headTag? x = none := by
  unfold isStyledEntry at h
  split at h
  · next htag =>
    rw [tagOf?_cons] at htag
    exact ⟨_, _, rfl, htag⟩
  · cases h

/-- Are there two values, the second a map? -/
def endsInMap : List Json → Bool
  | [_, second] => second.isObject
  | _ => false

theorem isStyledEntry_array (items : List Json) :
    isStyledEntry (.array items) = (endsInMap items && (tagOf? (.array items)).isNone) := by
  unfold isStyledEntry endsInMap
  split
  · next heq htag =>
    obtain rfl := Json.array.inj heq
    simp [htag, Json.isObject]
  · next hshape =>
    split
    · next first second =>
      cases second with
      | object fs =>
        cases htag : tagOf? (.array [first, .object fs]) with
        | none => exact (hshape _ _ rfl htag).elim
        | some tag => simp
      | _ => rfl
    · rfl

theorem endsInMap_congr {xs ys : List Json} {place : Place}
    (hplace : ∀ reference, place ≠ .attrs reference) (h : List.Forall₂ (Respelt place) xs ys)
    (x y : Json) : endsInMap (x :: xs) = endsInMap (y :: ys) := by
  cases h with
  | nil => rfl
  | @cons v w xs ys hvw hrest =>
    cases hrest with
    | cons => rfl
    | nil =>
      by_cases hmap : v.isObject ∨ w.isObject
      · rw [hvw.eq_of_object hplace hmap]
        rfl
      · obtain ⟨hv, hw⟩ := not_or.mp hmap
        exact (Bool.eq_false_of_not_eq_true hv).trans (Bool.eq_false_of_not_eq_true hw).symm

/-- Content with attributes of its own is so in every spelling. -/
theorem Respelt.isStyledEntry_eq {x y : Json} (h : Respelt .node x y) :
    isStyledEntry x = isStyledEntry y := by
  have htag := h.tagOf?_eq
  cases h with
  | same => rfl
  | element token length children =>
    rw [isStyledEntry_array, isStyledEntry_array, htag,
      endsInMap_congr (childPlace_ne_attrs _) (forall₂ length children)]
  | @elementWith s t fs gs xs ys token attrs length children =>
    rw [isStyledEntry_array, isStyledEntry_array, htag]
    cases forall₂ length children with
    | nil => rfl
    | cons => rfl

/-- The entries of a header in two spellings: both are content with attributes of its own, or
neither. -/
theorem Respelt.entry_cases {entry entry' : Json} (h : Respelt .entry entry entry') :
    (∃ x y fs gs, entry = .array [x, .object fs] ∧ entry' = .array [y, .object gs] ∧
        headTag? x = none ∧ headTag? y = none ∧ Respelt .node x y ∧ AttrsRespelt false fs gs) ∨
      isStyledEntry entry = false ∧ isStyledEntry entry' = false ∧ Respelt .node entry entry' := by
  cases h with
  | same =>
    cases hstyled : isStyledEntry entry with
    | false => exact .inr ⟨rfl, rfl, .same _ _⟩
    | true =>
      obtain ⟨x, fs, rfl, htag⟩ := exists_of_isStyledEntry hstyled
      exact .inl ⟨x, x, fs, fs, rfl, rfl, htag, htag, .same _ _, .same _ _⟩
  | entry plain content => exact .inr ⟨plain, content.isStyledEntry_eq ▸ plain, content⟩
  | @styledEntry x y fs gs styled content attrs =>
    obtain ⟨_, _, heq, htag⟩ := exists_of_isStyledEntry styled
    obtain ⟨rfl, -⟩ := List.cons.inj (Json.array.inj heq)
    exact .inl ⟨x, y, fs, gs, rfl, rfl, htag, content.headTag?_eq ▸ htag, content, attrs⟩

theorem headerCell_styled (grid : Bool) (context : Context) {x : Json} (htag : headTag? x = none)
    (fs : Fields) : headerCell compile grid context (.array [x, .object fs]) = (do
      let content ← cellContent compile grid [x] (context.merge fs)
      return .mk (← cellStyle (context.merge fs)) content) := by
  rw [← tagOf?_cons x [.object fs]] at htag
  simp only [headerCell, htag]

theorem headerCalls_styled (context : Context) {x : Json} (htag : headTag? x = none)
    (fs : Fields) :
    headerCalls context (.array [x, .object fs]) = below [x] (context.merge fs) := by
  rw [← tagOf?_cons x [.object fs]] at htag
  simp only [headerCalls, htag]

/-- Is it an array that names no tag? -/
def isUntagged (entry : Json) : Bool := entry.isArray && (tagOf? entry).isNone

theorem headerCell_plain (grid : Bool) (context : Context) {entry : Json}
    (h : isStyledEntry entry = false) : headerCell compile grid context entry =
      if isUntagged entry then invalid .headerEntry entry
      else rowCell compile grid context entry := by
  have hentry := headerEntry_headerCell compile grid context entry
  generalize headerCell compile grid context entry = act at hentry ⊢
  cases hentry with
  | styled htag => simp [isStyledEntry, htag] at h
  | untagged htag => simp [isUntagged, Json.isArray, htag]
  | row htagged =>
    have huntagged : isUntagged entry = false := by
      cases entry with
      | array items =>
        have htag := Option.isSome_iff_ne_none.mpr (htagged items rfl)
        simp [isUntagged, htag]
      | _ => rfl
    rw [huntagged]
    rfl

theorem Respelt.isUntagged_eq {x y : Json} (h : Respelt .node x y) :
    isUntagged x = isUntagged y := by
  have harray : x.isArray = y.isArray := by
    cases h <;> rfl
  unfold isUntagged
  rw [harray, h.tagOf?_eq]

theorem headerCalls_plain (context : Context) {entry : Json} (h : isUntagged entry = false) :
    headerCalls context entry = [entryCall context entry] := by
  refine headerCalls_of_tagged fun items hitems htag => ?_
  simp [isUntagged, hitems ▸ htag, hitems, Json.isArray] at h

theorem matches_headerCell (grid : Bool) {entry entry' : Json}
    (hentry : Respelt .entry entry entry') (hc : ContextRespelt false c d)
    (h : Paired R compile (headerCalls c entry) (headerCalls d entry')) :
    Matches R (headerCell compile grid c entry) (headerCell compile grid d entry') := by
  rcases hentry.entry_cases with
    ⟨x, y, fs, gs, rfl, rfl, htag, htag', hxy, hattrs⟩ | ⟨hplain, hplain', hxy⟩
  · rw [headerCalls_styled c htag, headerCalls_styled d htag'] at h
    rw [headerCell_styled grid c htag, headerCell_styled grid d htag']
    refine (matches_cellContent grid (.cons hxy .nil) (hc.merge hattrs) h).bind fun content => ?_
    exact (matches_cellStyle (hc.merge hattrs)).map _
  · rw [headerCell_plain grid c hplain, headerCell_plain grid d hplain', ← hxy.isUntagged_eq]
    cases huntagged : isUntagged entry with
    | true => exact matches_invalid _ _ _
    | false =>
      rw [headerCalls_plain c huntagged, headerCalls_plain d (hxy.isUntagged_eq ▸ huntagged)] at h
      exact matches_rowCell grid hxy hc h

theorem ContextRespelt.headed (hc : ContextRespelt reference c d) {row row' : HeaderRow}
    (hrow : HeaderRespelt row row') :
    ContextRespelt false
      (match row.style with
        | some style => c.inheritable.merge style
        | none => c.inheritable)
      (match row'.style with
        | some style => d.inheritable.merge style
        | none => d.inheritable) := by
  have hstyle := hrow.style
  generalize row.style = a at hstyle ⊢
  generalize row'.style = b at hstyle ⊢
  cases hstyle with
  | none => exact hc.inheritable
  | some hattrs => exact hc.inheritable.merge hattrs

theorem matches_headerCells (grid : Bool) {row row' : HeaderRow} (hrow : HeaderRespelt row row')
    (hc : ContextRespelt reference c d) (columns : Nat)
    (h : Paired R compile (headerRowCalls row c) (headerRowCalls row' d)) :
    Matches R (headerCells compile grid row c columns)
      (headerCells compile grid row' d columns) := by
  refine (matches_mapM hrow.entries fun entry hentry entry' hentry' hsame => ?_).map _
  refine matches_headerCell grid hsame (hc.headed hrow) (h.of_subset ?_ ?_)
  · exact fun call hcall => List.mem_flatMap.mpr ⟨entry, hentry, hcall⟩
  · exact fun call hcall => List.mem_flatMap.mpr ⟨entry', hentry', hcall⟩

/-! ## Tables -/

omit [Scalar α] in
theorem columnCount_eq (tag : String) (hc : ContextRespelt reference c d)
    {header header' : Option HeaderRow} (hheader : Option.Rel HeaderRespelt header header')
    (rows : List (List (Cell α))) :
    (columnCount tag c header rows : CompileM α Nat) = columnCount tag d header' rows := by
  have hentries : header.map (fun h => h.entries.length) =
      header'.map fun h => h.entries.length := by
    cases hheader with
    | none => rfl
    | some hrow => exact congrArg some hrow.entries.length_eq
  unfold columnCount
  rw [hentries, hc.get?_eq (by decide)]

/-- A run that compiles nothing comes out alike from related states. -/
theorem matches_of_handsOn {Q : List (Node α) → β → Prop} {act : CompileM α β}
    (h : HandsOn [] Q fun _ => act) : Matches R act act :=
  matches_of_related (h.related (show Alike R (fun _ _ => throw .endless) [] from nofun))

omit [Scalar α] in
/-- What is compiled for the entries of a row is among what is compiled for the table. -/
theorem Paired.row {rows rows' : List Json}
    (h : Paired R compile (tableCalls rows c) (tableCalls rows' d)) {row row' : Json}
    (hrow : row ∈ rows) (hrow' : row' ∈ rows') :
    Paired R compile ((row.asItems?.getD []).map (entryCall c.inheritable))
      ((row'.asItems?.getD []).map (entryCall d.inheritable)) := by
  have hsub {context : Context} {rows : List Json} {row : Json} (hrow : row ∈ rows) :
      (row.asItems?.getD []).map (entryCall context.inheritable) ⊆ tableCalls rows context := by
    refine fun call hcall => List.mem_append_right _ (List.map_subset _ ?_ hcall)
    exact fun item hitem => List.mem_flatMap.mpr ⟨row, hrow, hitem⟩
  exact h.of_subset (hsub hrow) (hsub hrow')

theorem matches_buildTable (grid : Bool) (htoken : e.token = f.token)
    (hc : ContextRespelt reference c d) {rows rows' : List Json}
    (hrows : List.Forall₂ (Respelt .row) rows rows') (widths : Option (List α))
    (h : Paired R compile (tableCalls rows c) (tableCalls rows' d)) :
    Matches R (buildTable compile grid e c rows widths)
      (buildTable compile grid f d rows' widths) := by
  have hempty : rows.isEmpty = rows'.isEmpty := by
    cases hrows <;> rfl
  have hheader := hc.header_rel
  have hhandsOn := h.of_subset (List.subset_append_left _ _) (List.subset_append_left _ _)
  unfold buildTable
  rw [hempty, htoken]
  simp (disch := decide) only [columnCount_eq f.token.primary hc hheader, hc.scalar?_eq,
    hc.keyword?_eq, borderEnabled, hc.get?_eq]
  generalize HeaderRow.parse? (c.get? "header") = header at hheader hhandsOn ⊢
  generalize HeaderRow.parse? (d.get? "header") = header' at hheader hhandsOn ⊢
  split
  · exact matches_throw rfl
  · refine (matches_mapM hrows fun row hrow row' hrow' hsame => ?_).bind fun cells => ?_
    · exact matches_compileRow grid hsame hc.inheritable (h.row hrow hrow')
    · refine (matches_of_handsOn (handsOn_columnCount _ d header' cells)).bind fun columns => ?_
      cases hheader with
      | none =>
        exact (matches_pure []).bind fun header =>
          (matches_of_handsOn (handsOn_checkedWidths grid columns widths)).map _
      | some hrow =>
        exact (matches_headerCells grid hrow hc columns hhandsOn).bind fun header =>
          (matches_of_handsOn (handsOn_checkedWidths grid columns widths)).map _

theorem matches_compileTable (htoken : e.token = f.token)
    (hrows : List.Forall₂ (Respelt .row) e.children f.children) (hc : ContextRespelt reference c d)
    (h : Paired R compile (tableCalls e.children c) (tableCalls f.children d)) :
    Matches R (compileTable compile e c) (compileTable compile f d) := by
  unfold compileTable
  rw [hc.get?_eq (by decide)]
  exact (matches_buildTable false htoken hc hrows _ h).map _

/-! ## Grids -/

theorem Respelt.isNumber_eq {x y : Json} (h : Respelt .node x y) : x.isNumber = y.isNumber := by
  cases h <;> rfl

theorem eq_of_numbers {xs ys : List Json} (h : List.Forall₂ (Respelt .node) xs ys)
    (hnumbers : xs.all Json.isNumber) : xs = ys := by
  induction h with
  | nil => rfl
  | cons hxy _ ih =>
    obtain ⟨hx, hrest⟩ := Bool.and_eq_true_iff.mp hnumbers
    rw [ih hrest]
    cases hxy with
    | same => rfl
    | element | elementWith => cases hx

theorem all_isNumber_eq {xs ys : List Json} (h : List.Forall₂ (Respelt .node) xs ys) :
    xs.all Json.isNumber = ys.all Json.isNumber := by
  induction h with
  | nil => rfl
  | cons hxy _ ih => rw [List.all_cons, List.all_cons, hxy.isNumber_eq, ih]

theorem leadingWidths_cons (items : List Json) (rest : List Json) :
    (leadingWidths (.array items :: rest) : Option (List α) × List Json) =
      if !items.isEmpty && items.all Json.isNumber then (scalars? (.array items), rest)
      else (none, .array items :: rest) := by
  cases items with
  | nil => rfl
  | cons x xs => rfl

/-- A first row of widths is the same in every spelling. -/
theorem leadingWidths_respelt {xs ys : List Json} (h : List.Forall₂ (Respelt .row) xs ys) :
    (leadingWidths xs : Option (List α) × List Json).1 = (leadingWidths ys).1 ∧
      List.Forall₂ (Respelt .row) (leadingWidths xs : Option (List α) × List Json).2
        (leadingWidths ys : Option (List α) × List Json).2 := by
  cases h with
  | nil => exact ⟨rfl, .nil⟩
  | @cons x y xs ys hxy hrest =>
    cases hxy with
    | same =>
      cases x with
      | array items =>
        rw [leadingWidths_cons, leadingWidths_cons]
        split
        · exact ⟨rfl, hrest⟩
        · exact ⟨rfl, .cons (.same _ _) hrest⟩
      | _ => exact ⟨rfl, .cons (.same _ _) hrest⟩
    | @row vs ws length items =>
      have hitems := Respelt.forall₂ length items
      have hempty : vs.isEmpty = ws.isEmpty := by
        cases hitems <;> rfl
      rw [leadingWidths_cons, leadingWidths_cons, ← hempty, ← all_isNumber_eq hitems]
      split
      · next hwidths =>
        rw [eq_of_numbers hitems (Bool.and_eq_true_iff.mp hwidths).2]
        exact ⟨rfl, hrest⟩
      · exact ⟨rfl, .cons (.row length items) hrest⟩

theorem matches_compileGridTable (htoken : e.token = f.token)
    (hrows : List.Forall₂ (Respelt .row) e.children f.children) (hc : ContextRespelt reference c d)
    (h : Paired R compile (tableCalls (gridRows e.children) c)
      (tableCalls (gridRows f.children) d)) :
    Matches R (compileGridTable compile e c) (compileGridTable compile f d) := by
  obtain ⟨hwidths, hrest⟩ := leadingWidths_respelt (α := α) hrows
  rw [← leadingWidths_snd (α := α), ← leadingWidths_snd (α := α)] at h
  unfold compileGridTable
  simp only [hwidths]
  rw [hc.get?_eq (by decide)]
  exact (matches_buildTable true htoken hc hrest _ h).map _

end Folio.Compile
