import Folio.Proofs.Flow.Breaks
import Folio.Proofs.Flow.Links
import Folio.Proofs.Flow.RowHeights

/-!
# Lines inside their cells

A row is as high as its highest cell with the padding above and below it. So what is left over in a
cell is never less than nothing, and its lines, which may be moved down by no more than that, stay
between the paddings. The lines follow each other without overlap, because none is less high than
nothing as long as no font is.
-/
namespace Folio.Flow

open Style Layout

section

variable {α : Type} [Scalar α]

/-! ## Fonts -/

mutual

/-- The fonts that inline content is set in. A block is set in its first font, if it has one. -/
def fontsOf : Node α → List (Font α)
  | .text run | .subscript run | .superscript run => [run.font]
  | .phrase style children => style.font :: fontsOfNodes children
  | .anchor _ _ content => fontsOf content
  | .reference _ target => fontsOf target
  | n => n.firstFont?.toList

def fontsOfNodes : List (Node α) → List (Font α)
  | [] => []
  | n :: ns => fontsOf n ++ fontsOfNodes ns

end

omit [Scalar α] in
mutual

theorem firstFont_mem_fontsOf : (n : Node α) → ∀ font ∈ n.firstFont?, font ∈ fontsOf n
  | .text run, font, h | .subscript run, font, h | .superscript run, font, h => by
    unfold Node.firstFont? at h
    unfold fontsOf
    exact List.mem_singleton.mpr (Option.some.inj h).symm
  | .phrase style children, font, h => by
    unfold Node.firstFont? at h
    unfold fontsOf
    rcases Option.or_eq_some_iff.mp h with hchild | ⟨-, hown⟩
    · exact List.mem_cons_of_mem _ (firstFont_mem_fontsOfNodes children font hchild)
    · exact Option.some.inj hown ▸ List.mem_cons_self
  | .anchor _ _ content, font, h => by
    unfold Node.firstFont? at h
    unfold fontsOf
    exact firstFont_mem_fontsOf content font h
  | .reference _ target, font, h => by
    unfold Node.firstFont? at h
    unfold fontsOf
    exact firstFont_mem_fontsOf target font h
  | .paragraph .., font, h | .list .., font, h | .table .., font, h | .gridTable .., font, h
  | .cell _, font, h | .gridCell _, font, h | .image _, font, h | .chart _, font, h
  | .vectorGraphic _, font, h | .note .., font, h | .chapter .., font, h | .subsection .., font, h
  | .rule _, font, h | .spacer .., font, h | .rectangle _, font, h => by
    unfold fontsOf
    exact Option.mem_toList.mpr h

theorem firstFont_mem_fontsOfNodes : (ns : List (Node α)) →
    ∀ font ∈ Node.firstFontOf? ns, font ∈ fontsOfNodes ns
  | [], font, h => by
    unfold Node.firstFontOf? at h
    cases h
  | n :: ns, font, h => by
    unfold Node.firstFontOf? at h
    unfold fontsOfNodes
    rcases Option.or_eq_some_iff.mp h with hfirst | ⟨-, hrest⟩
    · exact List.mem_append_left _ (firstFont_mem_fontsOf n font hfirst)
    · exact List.mem_append_right _ (firstFont_mem_fontsOfNodes ns font hrest)

end

/-- All styles of the run have fonts of a kind. -/
def InlineRun.SetIn (P : Font α → Prop) (run : InlineRun α) : Prop :=
  ∀ style ∈ run.styles, P style.font

namespace InlineRun.SetIn

variable {P : Font α → Prop} {run : InlineRun α}

theorem styleIndex (h : run.SetIn P) {style : RunStyle α} (hstyle : P style.font) :
    (run.styleIndex style).2.SetIn P := by
  unfold InlineRun.styleIndex
  split
  · exact h
  · exact List.forall_mem_append.mpr ⟨h, List.forall_mem_singleton.mpr hstyle⟩

theorem pushText (h : run.SetIn P) (text : String) {style : RunStyle α} (hstyle : P style.font) :
    (run.pushText text style).SetIn P := h.styleIndex hstyle

theorem pushMark (h : run.SetIn P) (name : String) {style : RunStyle α} (hstyle : P style.font) :
    (run.pushMark name style).SetIn P := h.styleIndex hstyle

end InlineRun.SetIn

section

variable {P : Font α → Prop}

mutual

theorem collectInline_setIn (hstandard : P .standard) : (n : Node α) →
    (∀ font ∈ fontsOf n, P font) → ∀ (link : Option String) {run : InlineRun α}, run.SetIn P →
      ∀ collected ∈ collectInline link run n, collected.SetIn P
  | .text t, hfonts, link, run, h, collected, hcollected
  | .subscript t, hfonts, link, run, h, collected, hcollected
  | .superscript t, hfonts, link, run, h, collected, hcollected => by
    unfold fontsOf at hfonts
    unfold collectInline at hcollected
    exact Option.some.inj hcollected ▸ h.pushText _ (hfonts _ List.mem_cons_self)
  | .phrase style children, hfonts, link, run, h, collected, hcollected => by
    unfold fontsOf at hfonts
    unfold collectInline at hcollected
    obtain ⟨hfont, hfonts⟩ := List.forall_mem_cons.mp hfonts
    exact Option.some.inj hcollected ▸ collectChildren_setIn hstandard children hfonts hfont link h
  | .anchor ends shape content, hfonts, link, run, h, collected, hcollected => by
    unfold fontsOf at hfonts
    have hmarked : (match ends.id with
        | some id => run.pushMark id (.plain .standard link)
        | none => run).SetIn P := by
      split
      · exact h.pushMark _ hstandard
      · exact h
    have hinside := collectInline_setIn hstandard content hfonts (ends.target.or link) hmarked
    unfold collectInline at hcollected
    simp only at hcollected
    split at hcollected
    · next inside hsome => exact Option.some.inj hcollected ▸ hinside inside hsome
    · exact Option.some.inj hcollected ▸ hmarked.pushText _ hstandard
  | .reference _ target, hfonts, link, run, h, collected, hcollected => by
    unfold fontsOf at hfonts
    unfold collectInline at hcollected
    exact collectInline_setIn hstandard target hfonts link h collected hcollected
  | .paragraph .., _, _, _, _, _, hcollected | .list .., _, _, _, _, _, hcollected
  | .table .., _, _, _, _, _, hcollected | .gridTable .., _, _, _, _, _, hcollected
  | .cell _, _, _, _, _, _, hcollected | .gridCell _, _, _, _, _, _, hcollected
  | .image _, _, _, _, _, _, hcollected | .chart _, _, _, _, _, _, hcollected
  | .vectorGraphic _, _, _, _, _, _, hcollected | .note .., _, _, _, _, _, hcollected
  | .chapter .., _, _, _, _, _, hcollected | .subsection .., _, _, _, _, _, hcollected
  | .rule _, _, _, _, _, _, hcollected | .spacer .., _, _, _, _, _, hcollected
  | .rectangle _, _, _, _, _, _, hcollected => by
    unfold collectInline at hcollected
    cases hcollected

theorem collectChildren_setIn (hstandard : P .standard) : (ns : List (Node α)) →
    (∀ font ∈ fontsOfNodes ns, P font) → ∀ {font : Font α}, P font → ∀ (link : Option String)
      {run : InlineRun α}, run.SetIn P → (collectChildren font link run ns).SetIn P
  | [], _, font, hfont, link, run, h => by
    unfold collectChildren
    exact h
  | n :: ns, hfonts, font, hfont, link, run, h => by
    unfold fontsOfNodes at hfonts
    obtain ⟨hfirst, hrest⟩ := List.forall_mem_append.mp hfonts
    unfold collectChildren
    split
    · next collected hcollected =>
      exact collectChildren_setIn hstandard ns hrest hfont link
        (collectInline_setIn hstandard n hfirst link h collected hcollected)
    · exact collectChildren_setIn hstandard ns hrest hfont link (h.pushText _ hfont)

end

/-- A cell is set in the fonts of its content, or in the standard font. -/
theorem cellRun_setIn (hstandard : P .standard) {c : Cell α}
    (hfonts : ∀ font ∈ fontsOf c.content, P font) : (cellRun c).SetIn P := by
  have hempty : (.empty : InlineRun α).SetIn P := List.forall_mem_nil _
  unfold cellRun
  split
  · next run hrun => exact collectInline_setIn hstandard c.content hfonts none hempty run hrun
  · refine hempty.pushText _ ?_
    change P (c.content.firstFont?.getD .standard)
    cases hfirst : c.content.firstFont? with
    | none => exact hstandard
    | some font => exact hfonts font (firstFont_mem_fontsOf c.content font hfirst)

end

/-! ## Boxes -/

/-- Bottom of the box of a line. -/
def PlacedLine.foot (l : PlacedLine α) : α := l.top - l.line.height

/-- The box that is filled or framed. -/
def Act.box? : Act α → Option (Box α)
  | .paint (.fillBox b _) | .paint (.strokeBox b _ _) => some b
  | _ => none

def boxesIn (acts : List (Act α)) : List (Box α) := acts.filterMap Act.box?

omit [Scalar α] in
theorem boxesIn_append (acts more : List (Act α)) :
    boxesIn (acts ++ more) = boxesIn acts ++ boxesIn more := List.filterMap_append

theorem boxesIn_cellLines (run : InlineRun α) (x width : α) (align : TextAlign) (top : α)
    (lines : List (LineBox α)) : boxesIn (cellLines run x width align top lines) = [] := by
  induction lines generalizing top with
  | nil => rfl
  | cons line lines ih => exact ih (top - line.height)

/-- The background and the border of a cell fill its columns for the height of the row. -/
theorem boxesIn_cellActs (style : TableStyle α) (top height : α) (p : Placed α) :
    ∀ b ∈ boxesIn (cellActs style top height p), b = ⟨p.x, top - height, p.width, height⟩ := by
  intro b hb
  unfold cellActs at hb
  simp only [boxesIn_append, boxesIn_cellLines, List.append_nil] at hb
  unfold cellBox at hb
  simp only [boxesIn_append, List.mem_append] at hb
  rcases hb with hb | hb
  · cases hcolor : p.cell.style.background with
    | none => simp [hcolor, boxesIn] at hb
    | some color => simpa [hcolor, boxesIn, Act.box?] using hb
  · split at hb
    · simpa [boxesIn, Act.box?] using hb
    · simp [boxesIn] at hb

end

/-! ## Heights of lines -/

/-- A line without leading, which is as high as its largest font size asks for. -/
structure LineBox.Unled (line : LineBox ℚ) : Prop where
  maxSize : 0 ≤ line.maxSize
  height : line.height = line.maxSize * lineHeightFactor

theorem LineBox.Unled.height_nonneg {line : LineBox ℚ} (h : line.Unled) : 0 ≤ line.height := by
  have hsize := h.maxSize
  rw [h.height]
  unfold lineHeightFactor
  positivity

namespace Breaking

variable {run : InlineRun ℚ} {flow : TextFlow ℚ} {b : Breaking ℚ}

theorem lineSize_nonneg (h : run.SetIn fun font => 0 ≤ font.size) (tokens : List (Token ℚ)) :
    0 ≤ lineSize run tokens := by
  unfold lineSize
  simp only
  split
  · next hpositive => exact hpositive.le
  · cases hfirst : run.styles.head? with
    | none => norm_num
    | some style => exact h style (List.mem_of_head? hfirst)

/-- All lines that are finished have the height that their fonts ask for. -/
def Unled (b : Breaking ℚ) : Prop := ∀ line ∈ b.lines, line.Unled

theorem Unled.close (h : b.Unled) (hrun : run.SetIn fun font => 0 ≤ font.size)
    (hflow : flow.leading = none) : (b.close run flow).Unled := by
  refine List.forall_mem_append.mpr ⟨h, List.forall_mem_singleton.mpr ⟨?_, ?_⟩⟩
  · exact lineSize_nonneg hrun _
  · simp [hflow]

theorem Unled.markLast (h : b.Unled) : b.markLast.Unled := by
  unfold Breaking.markLast
  split
  · next last hlast =>
    have hends := h last (List.mem_of_getLast? hlast)
    refine List.forall_mem_append.mpr ⟨fun line hline => h line (List.dropLast_subset _ hline), ?_⟩
    exact List.forall_mem_singleton.mpr ⟨hends.maxSize, hends.height⟩
  · exact h

theorem Unled.step (h : b.Unled) (hrun : run.SetIn fun font => 0 ≤ font.size)
    (hflow : flow.leading = none) (limit : ℚ) (t : Token ℚ) : (b.step run limit flow t).Unled := by
  have hclosed := h.close hrun hflow
  unfold Breaking.step
  split
  · exact hclosed.markLast
  · split
    · exact h
    · exact h
  · exact h
  · split
    · exact hclosed
    · exact h

end Breaking

theorem breakLines_unled {run : InlineRun ℚ} (hrun : run.SetIn fun font => 0 ≤ font.size)
    {flow : TextFlow ℚ} (hflow : flow.leading = none) (width : ℚ) :
    ∀ line ∈ breakLines run width flow, line.Unled := by
  have hstart : (.start : Breaking ℚ).Unled := List.forall_mem_nil _
  obtain ⟨b, hb, -, hlines⟩ := breakLines_rule (P := fun _ => Breaking.Unled)
    (List.nil_append run.tokens).symm hstart (fun _ _ t h => h.step hrun hflow width t)
    (fun _ _ h => h.close hrun hflow) fun _ _ h => h.markLast
  exact hlines ▸ hb

/-! ## Lines one below the other -/

/-- Lines from `top` down to `bottom`, none of which reaches into the next. -/
structure Stacked (bottom top : ℚ) (ls : List (PlacedLine ℚ)) : Prop where
  inside : ∀ l ∈ ls, bottom ≤ l.foot ∧ l.foot ≤ l.top ∧ l.top ≤ top
  below : ls.Pairwise fun l m => m.top ≤ l.foot

theorem Stacked.mono {bottom top : ℚ} {ls : List (PlacedLine ℚ)} (h : Stacked bottom top ls)
    {lower upper : ℚ} (hlower : lower ≤ bottom) (hupper : top ≤ upper) :
    Stacked lower upper ls where
  inside l hl := by
    obtain ⟨hfoot, hbox, htop⟩ := h.inside l hl
    exact ⟨hlower.trans hfoot, hbox, htop.trans hupper⟩
  below := h.below

theorem cellLines_stacked (run : InlineRun ℚ) (x width : ℚ) (align : TextAlign)
    {lines : List (LineBox ℚ)} (h : ∀ line ∈ lines, 0 ≤ line.height) (top : ℚ) :
    Stacked (top - linesHeight lines) top (linesIn (cellLines run x width align top lines)) := by
  induction lines generalizing top with
  | nil => exact ⟨List.forall_mem_nil _, .nil⟩
  | cons line lines ih =>
    obtain ⟨hline, hlines⟩ := List.forall_mem_cons.mp h
    have hrest := ih hlines (top - line.height)
    rw [sub_sub, ← linesHeight_cons] at hrest
    have hheight := linesHeight_nonneg hlines
    have hfoot : top - linesHeight (line :: lines) ≤ top - line.height := by
      rw [linesHeight_cons]
      linarith
    have hbox : top - line.height ≤ top := sub_le_self top hline
    refine ⟨List.forall_mem_cons.mpr ⟨⟨hfoot, hbox, le_rfl⟩, ?_⟩, List.pairwise_cons.mpr ⟨?_, ?_⟩⟩
    · exact (hrest.mono le_rfl hbox).inside
    · exact fun m hm => (hrest.inside m hm).2.2
    · exact hrest.below

/-! ## Rows -/

/-- Room is left over in each cell, if not for nothing. -/
theorem height_le_rowHeight (style : TableStyle ℚ) {placed : List (Placed ℚ)} {p : Placed ℚ}
    (hp : p ∈ placed) : p.height + 2 * p.cell.style.padding ≤ rowHeight style placed := by
  refine le_trans ?_ (le_max_left _ _)
  exact (unrounded_rat.le_greatest _ 0).mpr (.inr ⟨_, List.mem_map_of_mem hp, le_rfl⟩)

theorem verticalOffset_mem {free : ℚ} (h : 0 ≤ free) (valign : VerticalAlign) :
    0 ≤ verticalOffset valign free ∧ verticalOffset valign free ≤ free := by
  cases valign with
  | top => exact ⟨le_rfl, h⟩
  | middle =>
    simp only [verticalOffset]
    constructor <;> linarith
  | bottom => exact ⟨h, le_rfl⟩

theorem unled_of_mem_placeRow {x0 : ℚ} {widths : List ℚ} {cells : List (Cell ℚ)}
    (hfonts : ∀ c ∈ cells, ∀ font ∈ fontsOf c.content, 0 ≤ font.size) {p : Placed ℚ}
    (hp : p ∈ placeRow x0 widths cells) :
    p.height = linesHeight p.lines ∧ ∀ line ∈ p.lines, line.Unled := by
  obtain ⟨slot, hslot, rfl⟩ := List.mem_map.mp hp
  have hrun : (cellRun slot.cell).SetIn fun font => 0 ≤ font.size :=
    cellRun_setIn (by norm_num [Font.standard]) (hfonts slot.cell (cell_mem_of_mem_slots hslot))
  exact ⟨rfl, breakLines_unled hrun rfl _⟩

/-- What is drawn for a cell in a row from `top` down to `bottom`. -/
structure CellInside (bottom top : ℚ) (p : Placed ℚ) (acts : List (Act ℚ)) : Prop where
  /-- The lines of the cell are drawn, all and in order. -/
  lines : (linesIn acts).map (·.line) = p.lines
  stacked : Stacked (bottom + p.cell.style.padding) (top - p.cell.style.padding) (linesIn acts)
  /-- The words of a line stand inside its box. -/
  baseline : ∀ l ∈ linesIn acts, l.foot ≤ l.baseline ∧ l.baseline ≤ l.top
  boxes : ∀ b ∈ boxesIn acts, b.y = bottom ∧ b.y + b.height = top

theorem cellActs_inside (style : TableStyle ℚ) (top : ℚ) {placed : List (Placed ℚ)} {p : Placed ℚ}
    (hp : p ∈ placed) (hheight : p.height = linesHeight p.lines)
    (hlines : ∀ line ∈ p.lines, line.Unled) :
    CellInside (top - rowHeight style placed) top p
      (cellActs style top (rowHeight style placed) p) := by
  have hroom := height_le_rowHeight style hp
  have hleft : 0 ≤ rowHeight style placed - 2 * p.cell.style.padding - p.height := by linarith
  obtain ⟨hoffset, hfree⟩ := verticalOffset_mem hleft p.cell.style.valign
  have hdrawn := linesIn_cellActs style top (rowHeight style placed) p
  have hline : (linesIn (cellActs style top (rowHeight style placed) p)).map (·.line) = p.lines :=
    hdrawn ▸ (linesIn_cellLines ..).2
  refine ⟨hline, ?_, fun l hl => ?_, fun b hb => ?_⟩
  · rw [hdrawn]
    refine (cellLines_stacked _ _ _ _ (fun line hline => (hlines line hline).height_nonneg) _).mono
      ?_ (by linarith)
    linarith
  · have hunled := hlines l.line (hline ▸ List.mem_map_of_mem hl)
    have hsize := hunled.maxSize
    simp only [PlacedLine.baseline, PlacedLine.foot, hunled.height, lineHeightFactor, descent]
    constructor <;> linarith
  · rw [boxesIn_cellActs style top _ p b hb]
    exact ⟨rfl, sub_add_cancel ..⟩

/-- What is drawn for a cell of a row stays inside the cell: its lines between the paddings, one
below the other, wherever it aligns them, and its background and border as high as the row. The
cursor is left at the bottom of the row. -/
theorem addRow_cellsInside (style : TableStyle ℚ) (x0 : ℚ) (widths : List ℚ) (s : Layout ℚ)
    (cells : List (Cell ℚ))
    (hfonts : ∀ c ∈ cells, ∀ font ∈ fontsOf c.content, 0 ≤ font.size) :
    let placed := placeRow x0 widths cells
    let acts := cellActs style s.cursor (rowHeight style placed)
    let t := addRow style x0 widths s cells
    t = perform (placed.flatMap acts ++ [.toCursor t.cursor, .use]) s ∧
      t.cursor = s.cursor - rowHeight style placed ∧
      ∀ p ∈ placed, CellInside t.cursor s.cursor p (acts p) := by
  intro placed acts t
  have hcursor : t.cursor = s.cursor - rowHeight style placed :=
    (addRow_lowered style x0 widths s cells).cursor
  refine ⟨?_, hcursor, fun p hp => ?_⟩
  · rw [hcursor]
    exact (does_rowScript style x0 widths cells s).symm
  · obtain ⟨hheight, hlines⟩ := unled_of_mem_placeRow hfonts hp
    rw [hcursor]
    exact cellActs_inside style s.cursor hp hheight hlines

/-- Two lines over two columns, in the middle of their row and with a frame. -/
def middleCell : Cell ℚ :=
  .mk ⟨2, 1, .center, .middle, none, true, 3⟩ (.text ⟨"Two\nlines", .standard, none⟩)

/-- Beside a line of 48 points, two lines of 12 points have 22 points left over, half of them above
the two. -/
theorem addRow_cellsInside_middle :
    let style : TableStyle ℚ := ⟨3, none, 100, .left, true, 2, 0⟩
    let s : Layout ℚ := { crowdedPage with cursor := 700 }
    let placed := placeRow 36 [100, 100, 100] [sizedCell 40 "High", middleCell]
    let acts := cellActs style s.cursor (rowHeight style placed)
    placed.map (fun p => (linesIn (acts p)).map fun l => (l.top, l.foot)) =
        [[(698, 650)], [(686, 674), (674, 662)]] ∧
      placed.map (fun p => (boxesIn (acts p)).map fun b => (b.y, b.height)) = [[], [(648, 52)]] ∧
      (addRow style 36 [100, 100, 100] s [sizedCell 40 "High", middleCell]).cursor = 648 ∧
      ∀ p ∈ placed, CellInside 648 700 p (acts p) := by
  intro style s placed acts
  have hcursor : (addRow style 36 [100, 100, 100] s [sizedCell 40 "High", middleCell]).cursor =
      648 := by decide +kernel
  obtain ⟨-, -, hinside⟩ := addRow_cellsInside style 36 [100, 100, 100] s
    [sizedCell 40 "High", middleCell] (by decide +kernel)
  rw [hcursor] at hinside
  exact ⟨by decide +kernel, by decide +kernel, hcursor, hinside⟩

end Folio.Flow
