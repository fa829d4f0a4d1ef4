import Folio.Proofs.Exact
import Folio.Proofs.Flow.Flown
import Folio.Proofs.Flow.Laid
import Mathlib.Tactic.Linarith

/-!
# Where pages break

A table breaks between its rows: each page of it begins with the header, and every row is drawn on
one page, behind the row before it. A paragraph that is kept together and fits on a page moves to
the next one as a whole, if it moves at all.
-/
namespace Folio.Flow

open Style Layout

section

variable {α : Type} [Scalar α]

/-! ## Content on the open page -/

/-- Drawing touches only the page and the destinations. -/
theorem drawsOn_keeps {β : Type} {f : Layout α → β} (hpage : ∀ s page, f { s with page } = f s)
    (hnames : ∀ s destinations, f { s with destinations } = f s) {s t : Layout α}
    (h : DrawsOn s t) : f t = f s := by
  induction h with
  | refl => rfl
  | tail _ hd ih =>
    cases hd with
    | paint => exact (hpage _ _).trans ih
    | record => exact (hnames _ _).trans ih

/-- On the page that was open, and is still, something has been drawn that takes up `height`. -/
structure Lowered (s t : Layout α) (height : α) : Prop where
  finished : t.finished = s.finished
  number : t.page.number = s.page.number
  geometry : t.geometry = s.geometry
  cursor : t.cursor = s.cursor - height

theorem lowered_of_drawsOn {s t : Layout α} (h : DrawsOn s t) (height : α) :
    Lowered s (t.lower height).markContent height where
  finished := (drawsOn_drew h).finished
  number := (drawsOn_drew h).number
  geometry := by
    have hgeometry := drawsOn_keeps (f := Layout.geometry) (fun _ _ => rfl) (fun _ _ => rfl) h
    exact hgeometry
  cursor := by
    have hcursor := drawsOn_keeps (f := Layout.cursor) (fun _ _ => rfl) (fun _ _ => rfl) h
    exact congrArg (· - height) hcursor

/-! ## Tables -/

theorem addRow_lowered (style : TableStyle α) (x0 : α) (widths : List α) (s : Layout α)
    (cells : List (Cell α)) : Lowered s (addRow style x0 widths s cells)
      (rowHeight style (placeRow x0 widths cells)) := by
  have hdrawn : DrawsOn s ((placeRow x0 widths cells).foldl (drawCell style s.cursor
      (rowHeight style (placeRow x0 widths cells))) s) :=
    foldl_drawsOn (fun s p => drawCell_drawsOn style _ _ s p) _ s
  have hlowered := lowered_of_drawsOn hdrawn (rowHeight style (placeRow x0 widths cells))
  exact ⟨hlowered.finished, hlowered.number, hlowered.geometry, rfl⟩

/-- Rows one below the other on the page that is open. -/
def drawRows (style : TableStyle α) (x0 : α) (widths : List α) (s : Layout α)
    (rows : List (List (Cell α))) : Layout α := rows.foldl (addRow style x0 widths) s

/-- The header as rows of its table, of which there is none without a cell. -/
def headerRows (header : List (Cell α)) : List (List (Cell α)) :=
  if header.isEmpty then [] else [header]

/-- A new page of a table: the header, and below it the rows that go on from the page before. -/
def drawPage (style : TableStyle α) (header : List (Cell α)) (x0 : α) (widths : List α)
    (s : Layout α) (rows : List (List (Cell α))) : Layout α :=
  drawRows style x0 widths s.breakPage (headerRows header ++ rows)

/-- A table from `s` to `t`: its header and the rows `first` on the page that is open, or on the
next one, and then the rows of each part in `rest` on a page of their own. -/
structure TablePages (style : TableStyle α) (header : List (Cell α)) (x0 : α) (widths : List α)
    (s : Layout α) (rows first : List (List (Cell α))) (rest : List (List (List (Cell α))))
    (t : Layout α) : Prop where
  /-- Every row stands on one of the pages, in order. -/
  rows : rows = first ++ rest.flatten
  /-- Every page but the first has a row, so there is no more than one break between two rows. -/
  filled : ∀ part ∈ rest, part ≠ []
  drawn : ∃ turned : Bool, (turned = true → header ≠ [] ∧ s.page.hasContent = true) ∧
    t = rest.foldl (drawPage style header x0 widths)
      (drawRows style x0 widths (if turned then s.breakPage else s) (headerRows header ++ first))
  /-- No page is turned within a row, and what comes next starts where the row ends. -/
  whole : ∀ u row, Lowered u (addRow style x0 widths u row)
    (rowHeight style (placeRow x0 widths row))

theorem drawRows_append (style : TableStyle α) (x0 : α) (widths : List α) (s : Layout α)
    (rows more : List (List (Cell α))) : drawRows style x0 widths s (rows ++ more) =
      drawRows style x0 widths (drawRows style x0 widths s rows) more :=
  List.foldl_append

theorem drawRows_headerRows (style : TableStyle α) (header : List (Cell α)) (x0 : α)
    (widths : List α) (s : Layout α) : drawRows style x0 widths s (headerRows header) =
      if header.isEmpty then s else addRow style x0 widths s header := by
  unfold headerRows
  split <;> rfl

/-- A row of the body goes on with its page or begins a new one. -/
theorem addBodyRow_eq (style : TableStyle α) (header : List (Cell α)) (x0 : α) (widths : List α)
    (s : Layout α) (row : List (Cell α)) : addBodyRow style header x0 widths s row =
      if s.mustBreak (rowEstimate widths row) then drawPage style header x0 widths s [row]
      else drawRows style x0 widths s [row] := by
  unfold addBodyRow drawPage
  split
  · rw [drawRows_append, drawRows_headerRows]
    rfl
  · rfl

/-- The body is cut where its rows break the page. -/
theorem foldl_addBodyRow (style : TableStyle α) (header : List (Cell α)) (x0 : α) (widths : List α)
    (rows : List (List (Cell α))) : ∀ s : Layout α, ∃ (first : List (List (Cell α)))
      (rest : List (List (List (Cell α)))), rows = first ++ rest.flatten ∧
      (∀ part ∈ rest, part ≠ []) ∧
      rows.foldl (addBodyRow style header x0 widths) s =
        rest.foldl (drawPage style header x0 widths) (drawRows style x0 widths s first) := by
  induction rows with
  | nil => exact fun s => ⟨[], [], rfl, List.forall_mem_nil _, rfl⟩
  | cons row rows ih =>
    intro s
    rw [List.foldl_cons, addBodyRow_eq]
    split
    · obtain ⟨first, rest, hrows, hfilled, hdrawn⟩ := ih (drawPage style header x0 widths s [row])
      refine ⟨[], (row :: first) :: rest, by simp [hrows], by simpa using hfilled, ?_⟩
      rw [hdrawn, List.foldl_cons, drawPage, ← drawRows_append, List.append_assoc]
      rfl
    · obtain ⟨first, rest, hrows, hfilled, hdrawn⟩ := ih (drawRows style x0 widths s [row])
      refine ⟨row :: first, rest, by simp [hrows], hfilled, ?_⟩
      rw [hdrawn, ← drawRows_append]
      rfl

/-- The header breaks the page at most once. -/
theorem exists_drawRows_header (style : TableStyle α) (header : List (Cell α)) (x0 : α)
    (widths : List α) (s : Layout α) :
    ∃ turned : Bool, (turned = true → header ≠ [] ∧ s.page.hasContent = true) ∧
      (if header.isEmpty then s else addRow style x0 widths
        (s.ensureSpace (rowEstimate widths header)) header) =
        drawRows style x0 widths (if turned then s.breakPage else s) (headerRows header) := by
  cases header with
  | nil => exact ⟨false, nofun, rfl⟩
  | cons cell cells =>
    refine ⟨s.mustBreak (rowEstimate widths (cell :: cells)), ?_, ?_⟩
    · exact fun hbreak => ⟨List.cons_ne_nil _ _, used_of_mustBreak hbreak⟩
    · rw [drawRows_headerRows]
      rfl

/-- A table draws all rows of its body once and in order, each on one page and behind the header of
that page. Between two rows there is one page break at most, and before the first of them there are
two at most: one before the header and one behind it. -/
theorem addTable_pages (s : Layout α) (style : TableStyle α) (header : List (Cell α))
    (rows : List (List (Cell α))) :
    let total := s.availableWidth * Scalar.within 0.01 1.0 (style.widthPercent / 100)
    let x0 := s.tableStart style.align s.availableWidth total
    ∃ first rest t, TablePages style header x0 (columnWidths style total) s rows first rest t ∧
      s.addTable style header rows = t.lower style.spacing := by
  intro total x0
  obtain ⟨turned, hturned, hheader⟩ :=
    exists_drawRows_header style header x0 (columnWidths style total) s
  obtain ⟨first, rest, hrows, hfilled, hbody⟩ := foldl_addBodyRow style header x0
    (columnWidths style total) rows (drawRows style x0 (columnWidths style total)
      (if turned then s.breakPage else s) (headerRows header))
  rw [← drawRows_append] at hbody
  refine ⟨first, rest, _, ⟨hrows, hfilled, ⟨turned, hturned, rfl⟩, addRow_lowered style x0 _⟩, ?_⟩
  rw [← hbody, ← hheader]
  rfl

end

/-- No row is less high than nothing, so that the rows below it are. -/
theorem rowHeight_nonneg (style : TableStyle ℚ) (placed : List (Placed ℚ)) :
    0 ≤ rowHeight style placed := by
  have hgreatest (xs : List ℚ) : ∀ start, start ≤ Scalar.greatest start xs := by
    induction xs with
    | nil => exact fun start => le_refl start
    | cons x xs ih => exact fun start => (le_max_left start x).trans (ih _)
  exact (hgreatest _ 0).trans (le_max_left _ _)

/-- A page of a document that is filled almost to its bottom margin. -/
def crowdedPage : Layout ℚ :=
  { Layout.initial with
    phase := .opened
    page := { Canvas.blank 1 with hasContent := true }
    cursor := 40 }

def sizedCell (size : ℚ) (text : String) : Cell ℚ :=
  .mk ⟨1, 1, .left, .top, none, false, 2⟩ (.text ⟨text, Font.standard.withSize size, none⟩)

/-- Both the header and the row behind it break the page: the header stands alone on a page. -/
theorem addTable_turnsTwice :
    (crowdedPage.addTable ⟨1, none, 100, .left, false, 2, 0⟩ [sizedCell 10 "Head"]
      [[sizedCell 630 "x"]]).finished.length = crowdedPage.finished.length + 2 := by
  decide +kernel

/-! ## Paragraphs that are kept together -/

theorem Lowered.trans {s t u : Layout ℚ} {a b : ℚ} (h : Lowered s t a) (k : Lowered t u b) :
    Lowered s u (a + b) where
  finished := k.finished.trans h.finished
  number := k.number.trans h.number
  geometry := k.geometry.trans h.geometry
  cursor := by rw [k.cursor, h.cursor, sub_sub]

theorem linesHeight_cons (line : LineBox ℚ) (lines : List (LineBox ℚ)) :
    linesHeight (line :: lines) = line.height + linesHeight lines := by
  have hsum (lines : List (LineBox ℚ)) : linesHeight lines = (lines.map LineBox.height).sum :=
    List.sum_eq_foldl.symm
  rw [hsum, hsum, List.map_cons, List.sum_cons]

theorem linesHeight_nonneg {lines : List (LineBox ℚ)} (h : ∀ line ∈ lines, 0 ≤ line.height) :
    0 ≤ linesHeight lines := by
  induction lines with
  | nil => exact le_refl 0
  | cons line lines ih =>
    obtain ⟨hline, hlines⟩ := List.forall_mem_cons.mp h
    rw [linesHeight_cons]
    exact add_nonneg hline (ih hlines)

theorem ensureSpace_of_le {s : Layout ℚ} {needed : ℚ} (h : needed ≤ s.remaining) :
    s.ensureSpace needed = s := by
  simp [ensureSpace, mustBreak, not_lt.mpr h]

theorem flowLine_lowered (run : InlineRun ℚ) (width : ℚ) (flow : TextFlow ℚ) {s : Layout ℚ}
    {line : LineBox ℚ × Nat} (h : line.1.height ≤ s.remaining) :
    Lowered s (flowLine run width flow s line) line.1.height := by
  unfold flowLine
  rw [ensureSpace_of_le h]
  exact lowered_of_drawsOn (drawLine_drawsOn ..) line.1.height

/-- A line has been drawn on the page that is open in `t`, above the bottom margin. -/
structure Flown.StandsOn (t : Layout ℚ) (f : Flown ℚ) : Prop where
  finished : f.on.finished = t.finished
  number : f.on.page.number = t.page.number
  bottom : t.geometry.margins.bottom ≤ f.bottom

/-- Lines for which there is room do not break the page. -/
theorem flowLines_stand (run : InlineRun ℚ) (width : ℚ) (flow : TextFlow ℚ)
    {lines : List (LineBox ℚ × Nat)} : ∀ {s : Layout ℚ},
      (∀ line ∈ lines.map Prod.fst, 0 ≤ line.height) →
      linesHeight (lines.map Prod.fst) ≤ s.remaining →
      Lowered s (lines.foldl (flowLine run width flow) s) (linesHeight (lines.map Prod.fst)) ∧
        ∀ f ∈ flownFrom run width flow s lines,
          f.StandsOn (lines.foldl (flowLine run width flow) s) := by
  induction lines with
  | nil =>
    intro s _ _
    exact ⟨⟨rfl, rfl, rfl, (sub_zero s.cursor).symm⟩, List.forall_mem_nil _⟩
  | cons line lines ih =>
    intro s hheights hroom
    obtain ⟨hheight, hheights⟩ := List.forall_mem_cons.mp hheights
    rw [List.map_cons, linesHeight_cons] at hroom ⊢
    have hrest := linesHeight_nonneg hheights
    have hfits : line.1.height ≤ s.remaining := by linarith
    have hline := flowLine_lowered run width flow hfits
    have hremaining : (flowLine run width flow s line).remaining = s.remaining - line.1.height := by
      simp only [remaining, hline.cursor, hline.geometry]
      exact sub_right_comm ..
    obtain ⟨hlines, hstand⟩ := ih (s := flowLine run width flow s line) hheights (by linarith)
    have hall := hline.trans hlines
    refine ⟨hall, List.forall_mem_cons.mpr ⟨?_, hstand⟩⟩
    have hon : (⟨s, run, line.1⟩ : Flown ℚ).on = s := ensureSpace_of_le hfits
    refine ⟨?_, ?_, ?_⟩
    · rw [hon]
      exact hall.finished.symm
    · rw [hon]
      exact hall.number.symm
    · rw [Flown.bottom, hon, List.foldl_cons, hall.geometry]
      simp only [remaining] at hfits
      linarith

theorem flown_stand {s : Layout ℚ} {run : InlineRun ℚ} {flow : TextFlow ℚ}
    (hheights : ∀ line ∈ breakLines run s.availableWidth flow, 0 ≤ line.height)
    (hroom : linesHeight (breakLines run s.availableWidth flow) ≤ s.remaining) :
    (s.flown run flow).map Flown.line = breakLines run s.availableWidth flow ∧
      (s.flowInline run flow).finished = s.finished ∧
      ∀ f ∈ s.flown run flow, f.StandsOn (s.flowInline run flow) := by
  have hlines (lines : List (LineBox ℚ × Nat)) : ∀ t : Layout ℚ,
      (flownFrom run s.availableWidth flow t lines).map Flown.line = lines.map Prod.fst := by
    induction lines with
    | nil => exact fun _ => rfl
    | cons line lines ih => exact fun t => congrArg (line.1 :: ·) (ih _)
  unfold flown flowInline
  split
  · next hempty =>
    exact ⟨(breakLines_empty (List.isEmpty_iff.mp hempty) _ _).symm, rfl, List.forall_mem_nil _⟩
  · rw [← List.zipIdx_map_fst 0 (breakLines run s.availableWidth flow)] at hheights hroom
    obtain ⟨hlowered, hstand⟩ := flowLines_stand run s.availableWidth flow hheights hroom
    exact ⟨(hlines _ s).trans (List.zipIdx_map_fst ..), hlowered.finished, hstand⟩

/-- Children that are all inline are one run of inline content. -/
theorem addMixed_inline (flow : TextFlow ℚ) {children : List (Node ℚ)} :
    ∀ {run grown : InlineRun ℚ}, collectAll run children = some grown →
      addMixed flow run children = modify (·.flowInline grown flow) ∧
        linesOfMixed flow run children = (·.flown grown flow) := by
  induction children with
  | nil =>
    intro run grown h
    obtain rfl : run = grown := by simpa [collectAll] using h
    simp [addMixed, linesOfMixed]
  | cons n ns ih =>
    intro run grown h
    obtain ⟨next, hnext, hrest⟩ := Option.bind_eq_some_iff.mp h
    simp only [addMixed, linesOfMixed, hnext]
    exact ih hrest

/-- A page is turned, or none is. -/
def TurnsAtMostOnce (s t : Layout ℚ) : Prop :=
  t.finished = s.finished ∨ ∃ page, t.finished = s.finished ++ [page]

theorem breakPage_fresh (s : Layout ℚ) :
    s.breakPage.finished = s.finished ++ [s.page.cover s.furniture] ∧
      s.breakPage.remaining = s.geometry.contentHeight ∧
      s.breakPage.availableWidth = s.availableWidth := by
  unfold breakPage startPage
  simp only
  split <;> exact ⟨rfl, rfl, rfl⟩

/-- Room for what fits on a page is made by turning one page, if the page in use is too full. -/
theorem ensureSpace_fits {s : Layout ℚ} {needed : ℚ}
    (htop : s.page.hasContent = true ∨ s.cursor = top s.geometry)
    (h : needed ≤ s.geometry.contentHeight) :
    TurnsAtMostOnce s (s.ensureSpace needed) ∧ needed ≤ (s.ensureSpace needed).remaining ∧
      (s.ensureSpace needed).availableWidth = s.availableWidth := by
  unfold ensureSpace
  split
  · obtain ⟨hfinished, hremaining, hwidth⟩ := breakPage_fresh s
    exact ⟨.inr ⟨_, hfinished⟩, hremaining ▸ h, hwidth⟩
  · next hstay =>
    refine ⟨.inl rfl, ?_, rfl⟩
    rcases htop with hused | hcursor
    · simpa [mustBreak, hused] using hstay
    · rw [remaining, hcursor]
      exact h

/-- The lines of a paragraph of inline content. -/
def paragraphLines (s : Layout ℚ) (style : BlockStyle ℚ) (run : InlineRun ℚ) : List (LineBox ℚ) :=
  let indented : Layout ℚ := { s with inset := s.inset + style.indent }
  breakLines run indented.availableWidth (flowOf style)

theorem openParagraph_kept {s : Layout ℚ} {style : BlockStyle ℚ} {children : List (Node ℚ)}
    {run : InlineRun ℚ} (htop : s.page.hasContent = true ∨ s.cursor = top s.geometry)
    (hkeep : style.keepTogether = true) (hinline : collectAll .empty children = some run)
    (hfits : linesHeight (paragraphLines s style run) ≤ s.geometry.contentHeight) :
    TurnsAtMostOnce s (s.openParagraph style (flowOf style) children) ∧
      linesHeight (paragraphLines s style run) ≤
        (s.openParagraph style (flowOf style) children).remaining ∧
      breakLines run (s.openParagraph style (flowOf style) children).availableWidth
        (flowOf style) = paragraphLines s style run := by
  obtain ⟨cursor, hspace, hcursor⟩ : ∃ cursor,
      (if s.page.hasContent then s.lower style.spacingBefore else s) = { s with cursor } ∧
        (s.page.hasContent = true ∨ cursor = top s.geometry) := by
    split
    · next hused => exact ⟨s.cursor - style.spacingBefore, rfl, .inl hused⟩
    · exact ⟨s.cursor, rfl, htop⟩
  have hopen : s.openParagraph style (flowOf style) children =
      ({ s with cursor, inset := s.inset + style.indent } : Layout ℚ).ensureSpace
        (linesHeight (paragraphLines s style run)) := by
    simp only [openParagraph, hspace, if_pos hkeep, keepTogether, hinline]
    exact if_pos hfits
  rw [hopen]
  obtain ⟨hturns, hroom, hwidth⟩ := ensureSpace_fits
    (s := { s with cursor, inset := s.inset + style.indent }) hcursor hfits
  exact ⟨hturns, hroom, congrArg (breakLines run · (flowOf style)) hwidth⟩

/-- A paragraph of inline content that is kept together, and fits on a page, is drawn on one page,
above the bottom margin, and at most one page is turned for it. -/
theorem add_keptTogether {s : Layout ℚ} (style : BlockStyle ℚ) (children : List (Node ℚ))
    {run : InlineRun ℚ} (hopen : s.phase = .opened)
    (htop : s.page.hasContent = true ∨ s.cursor = top s.geometry)
    (hkeep : style.keepTogether = true) (hinline : collectAll .empty children = some run)
    (hheights : ∀ line ∈ paragraphLines s style run, 0 ≤ line.height)
    (hfits : linesHeight (paragraphLines s style run) ≤ s.geometry.contentHeight) :
    let n : Node ℚ := .paragraph style children
    ∃ t, (add n).run s = (.ok (), t) ∧ TurnsAtMostOnce s t ∧ Passes s (linesOf n s) t ∧
      (linesOf n s).map Flown.line = paragraphLines s style run ∧
      ∀ f ∈ linesOf n s, f.StandsOn t := by
  intro n
  obtain ⟨hturns, hroom, hbroken⟩ := openParagraph_kept htop hkeep hinline hfits
  obtain ⟨hmixed, hflown⟩ := addMixed_inline (flowOf style) hinline
  rw [← hbroken] at hheights hroom
  obtain ⟨hlines, hfinished, hstand⟩ := flown_stand hheights hroom
  have hrun : (add n).run s = (.ok (), ((s.openParagraph style (flowOf style) children).flowInline
      run (flowOf style)).closeParagraph style) := by
    rcases run_afterOpen (addBlock n) (s := s) with ⟨-, hrun⟩ | ⟨hclosed, -⟩
    · unfold add
      rw [hrun, run_addBlock_paragraph, hmixed]
      rfl
    · exact absurd hopen hclosed
  have hlinesOf : linesOf n s =
      (s.openParagraph style (flowOf style) children).flown run (flowOf style) := by
    rw [linesOf, hflown]
  have hpasses : Passes s (linesOf n s) ((add n).run s).2 := by
    simpa only [Call.lines, Call.apply, if_pos hopen] using add_flows n s
  rw [hrun] at hpasses
  refine ⟨_, hrun, ?_, hpasses, ?_, ?_⟩
  · rcases hturns with hsame | ⟨page, hpage⟩
    · exact .inl (hfinished.trans hsame)
    · exact .inr ⟨page, hfinished.trans hpage⟩
  · rw [hlinesOf, hlines, hbroken]
  · rw [hlinesOf]
    exact fun f hf => ⟨(hstand f hf).finished, (hstand f hf).number, (hstand f hf).bottom⟩

/-- A paragraph of one text that is kept together. -/
def keptParagraph (text : String) : Node ℚ :=
  .paragraph ⟨.standard, .left, none, 0, 0, 10, 0, true⟩ [.text ⟨text, .standard, none⟩]

theorem add_keptTogether_twoLines :
    let n := keptParagraph "Two lines\nof text"
    ((linesOf n crowdedPage).map fun f => f.line.tokens.map Token.text) =
        [["Two", " ", "lines"], ["of", " ", "text"]] ∧
      ∃ t, (add n).run crowdedPage = (.ok (), t) ∧ TurnsAtMostOnce crowdedPage t ∧
        ∀ f ∈ linesOf n crowdedPage, f.StandsOn t := by
  intro n
  obtain ⟨t, hrun, hturns, -, -, hstand⟩ := add_keptTogether (s := crowdedPage)
    ⟨.standard, .left, none, 0, 0, 10, 0, true⟩ [.text ⟨"Two lines\nof text", .standard, none⟩] rfl
    (.inl rfl) rfl rfl (by decide +kernel) (by decide +kernel)
  exact ⟨by decide +kernel, t, hrun, hturns, hstand⟩

end Folio.Flow
