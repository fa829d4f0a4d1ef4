import Folio.Proofs.Flow.Insets

/-!
# Labels and their items

A list makes room for the label of an item, as high as the line of the label, draws it, and then
lays out the item like any other block. What the item draws first asks for room of its own: where it
asks for more than is left, and the page is in use, the page is turned behind the label, which stays
without its item.
-/
namespace Folio.Flow

open Style Layout Script

section

variable {α : Type} [Scalar α]

/-! ## The page of what is drawn first -/

/-- Lines, boxes and whatever else leaves a trace on the page. -/
def Act.draws : Act α → Bool
  | .line _ | .paint _ => true
  | _ => false

/-- The page on which the first of the acts that draw anything draws. -/
def firstPage : List (Act α) → Layout α → Option Nat
  | [], _ => none
  | a :: acts, s => if a.draws then some s.page.number else firstPage acts (a.apply s)

theorem firstPage_append (acts more : List (Act α)) (s : Layout α) :
    firstPage (acts ++ more) s = (firstPage acts s).or (firstPage more (perform acts s)) := by
  induction acts generalizing s with
  | nil => rfl
  | cons a acts ih =>
    rw [List.cons_append, firstPage, firstPage]
    split
    · rfl
    · exact ih _

theorem firstPage_eq_none {acts : List (Act α)} (h : ∀ a ∈ acts, a.draws = false) (s : Layout α) :
    firstPage acts s = none := by
  induction acts generalizing s with
  | nil => rfl
  | cons a acts ih =>
    obtain ⟨ha, hacts⟩ := List.forall_mem_cons.mp h
    rw [firstPage, ha]
    exact ih hacts _

namespace Script

variable {first next script : Script α}

def page? (script : Script α) (s : Layout α) : Option Nat := firstPage (script s) s

theorem page?_andThen (first next : Script α) (s : Layout α) : (first.andThen next).page? s =
    (first.page? s).or (next.page? (perform (first s) s)) :=
  firstPage_append ..

/-- The script draws nothing by itself. -/
def Blank (script : Script α) : Prop := ∀ s, ∀ a ∈ script s, a.draws = false

theorem Blank.page? (h : script.Blank) (s : Layout α) : script.page? s = none :=
  firstPage_eq_none (h s) s

theorem Blank.page?_andThen (h : first.Blank) {f : Layout α → Layout α} (hf : first.Does f)
    (next : Script α) (s : Layout α) : (first.andThen next).page? s = next.page? (f s) := by
  rw [Script.page?_andThen, h.page?, hf]
  rfl

theorem page?_andThen_of_some {s : Layout α} {page : Nat} (h : first.page? s = some page)
    (next : Script α) : (first.andThen next).page? s = some page := by
  rw [page?_andThen, h]
  rfl

theorem page?_unlessFailed_of_some {s : Layout α} {page : Nat} (h : first.page? s = some page)
    (act : FlowM α Unit) (next : Script α) : (unlessFailed act first next).page? s = some page := by
  unfold page? unlessFailed
  rw [firstPage_append]
  change (first.page? s).or _ = _
  rw [h]
  rfl

omit [Scalar α] in
theorem blank_act {act : Layout α → Act α} (h : ∀ s, (act s).draws = false) :
    Blank fun s => [act s] :=
  fun s => List.forall_mem_singleton.mpr (h s)

omit [Scalar α] in
theorem blank_nothing : (nothing : Script α).Blank := fun _ => List.forall_mem_nil _

theorem Blank.andThen (h : first.Blank) (k : next.Blank) : (first.andThen next).Blank :=
  fun s => List.forall_mem_append.mpr ⟨h s, k _⟩

omit [Scalar α] in
theorem Blank.byCase {test : Layout α → Bool} (h : first.Blank) (k : next.Blank) :
    (Script.byCase test first next).Blank := by
  intro s
  unfold Script.byCase
  cases test s with
  | true => exact h s
  | false => exact k s

end Script

theorem blank_roomScript (needed : α) : (roomScript needed).Blank :=
  .byCase (blank_act fun _ => rfl) blank_nothing

theorem blank_openScript (style : BlockStyle α) (flow : TextFlow α) (children : List (Node α)) :
    (openScript style flow children).Blank := by
  have hkeep : (keepScript flow children).Blank := by
    intro s
    unfold keepScript
    split
    · simp only
      split
      · exact blank_roomScript _ s
      · exact List.forall_mem_nil _
    · exact List.forall_mem_nil _
  exact .andThen (.byCase (blank_act fun _ => rfl) blank_nothing)
    ((blank_act fun _ => rfl).andThen (hkeep.byCase blank_nothing))

end

/-! ## What is asked for first -/

theorem mustBreak_iff {s : Layout ℚ} {needed : ℚ} :
    s.mustBreak needed = true ↔ s.remaining < needed ∧ s.page.hasContent = true := by
  simp [mustBreak]

/-- What happens to the page before the first thing is drawn for a node. -/
inductive Opening where
  /-- It is drawn where it is. -/
  | atOnce
  /-- Room is made for it. -/
  | room (needed : ℚ)
  /-- It begins a page. -/
  | page

namespace Opening

def turns (s : Layout ℚ) : Opening → Bool
  | atOnce => false
  | room needed => s.mustBreak needed
  | page => s.page.hasContent

/-- The page that the first thing is drawn on. -/
def pageIn (o : Opening) (s : Layout ℚ) : Nat :=
  if o.turns s then s.page.number + 1 else s.page.number

/-- The opening behind some empty space. -/
def below (height : ℚ) : Opening → Opening
  | room needed => room (height + needed)
  | o => o

/-- The opening if room is made for something else before. -/
def atLeast (height : ℚ) : Opening → Opening
  | atOnce => room height
  | room needed => room (max height needed)
  | page => page

theorem turns_fresh {s : Layout ℚ} (h : s.page.hasContent = false) (o : Opening) :
    o.turns s = false := by
  cases o with
  | atOnce => rfl
  | room needed => simp [turns, mustBreak, h]
  | page => exact h

/-- Space is left only below something on the page. -/
theorem pageIn_below {s t : Layout ℚ} (height : ℚ) (hpage : t.page = s.page)
    (hgeometry : t.geometry = s.geometry)
    (hcursor : s.page.hasContent = true → t.cursor = s.cursor - height) (o : Opening) :
    (o.below height).pageIn s = o.pageIn t := by
  have hturns : (o.below height).turns s = o.turns t := by
    cases hused : s.page.hasContent with
    | false => rw [turns_fresh hused, turns_fresh (hpage ▸ hused)]
    | true =>
      cases o with
      | atOnce => rfl
      | page => simp [below, turns, hpage]
      | room needed =>
        have hremaining : t.remaining = s.remaining - height := by
          simp only [remaining, hgeometry, hcursor hused]
          exact sub_right_comm ..
        refine Bool.eq_iff_iff.mpr ?_
        simp only [below, turns, mustBreak_iff, hremaining, hpage, sub_lt_iff_lt_add']
  rw [pageIn, pageIn, hturns, hpage]

theorem pageIn_ensureSpace (s : Layout ℚ) (height : ℚ) (o : Opening) :
    o.pageIn (s.ensureSpace height) = (o.atLeast height).pageIn s := by
  unfold ensureSpace
  split
  · next hbreak =>
    have hused := used_of_mustBreak hbreak
    have hturns : (o.atLeast height).turns s = true := by
      cases o with
      | atOnce => exact hbreak
      | page => exact hused
      | room needed =>
        obtain ⟨hroom, -⟩ := mustBreak_iff.mp hbreak
        exact mustBreak_iff.mpr ⟨hroom.trans_le (le_max_left _ _), hused⟩
    have hfresh : s.breakPage.page.hasContent = false := by simp [breakPage]
    rw [pageIn, pageIn, turns_fresh hfresh, hturns]
    simp [breakPage]
  · next hstay =>
    have hturns : (o.atLeast height).turns s = o.turns s := by
      cases o with
      | atOnce => simpa [atLeast, turns] using hstay
      | page => rfl
      | room needed =>
        rw [mustBreak_iff] at hstay
        refine Bool.eq_iff_iff.mpr ?_
        simp only [atLeast, turns, mustBreak_iff, lt_max_iff, or_and_right, hstay, false_or]
    rw [pageIn, pageIn, hturns]

end Opening

/-- The width of a column that stands in by `inset`. -/
def columnWidth (g : Geometry ℚ) (inset : ℚ) : ℚ := max (g.contentWidth - inset) 1

/-- Inline content asks for room for its first line. -/
def openingOfRun (run : InlineRun ℚ) (flow : TextFlow ℚ) (width : ℚ) : Option Opening :=
  (breakLines run width flow).head?.map fun line => .room line.height

/-- A cell leaves a trace by its box or by a line. -/
def cellShows (style : TableStyle ℚ) (p : Placed ℚ) : Bool :=
  p.cell.style.background.isSome || (p.cell.style.border && style.border) || !p.lines.isEmpty

def rowShows (style : TableStyle ℚ) (widths : List ℚ) (cells : List (Cell ℚ)) : Bool :=
  (placeRow 0 widths cells).any (cellShows style)

/-- The header of a table, or the first row if it has none, asks for the room that it is expected to
take up. -/
def openingOfTable (style : TableStyle ℚ) (header : List (Cell ℚ)) (rows : List (List (Cell ℚ)))
    (width : ℚ) : Option Opening :=
  let widths := columnWidths style (width * Scalar.within 0.01 1.0 (style.widthPercent / 100))
  (headerRows header ++ rows).head?.bind fun row =>
    if rowShows style widths row then some (.room (rowEstimate widths row)) else none

/-- The height of a paragraph that is kept together, if it fits on a page. -/
def keptHeight (g : Geometry ℚ) (style : BlockStyle ℚ) (children : List (Node ℚ)) (width : ℚ) :
    Option ℚ :=
  if style.keepTogether then
    ((collectAll .empty children).map fun run => linesHeight (breakLines run width (flowOf style)))
      |>.filter (· ≤ g.contentHeight)
  else none

def Opening.kept (height : Option ℚ) (o : Opening) : Opening := (height.map o.atLeast).getD o

def openingOfInline (n : Node ℚ) (width : ℚ) : Option Opening :=
  openingOfRun ((collectInline none .empty n).getD .empty) .plain width

def openingOfTitle (label : String) (title : Node ℚ) (fallback : Font ℚ) (width : ℚ) :
    Option Opening :=
  openingOfRun (titleRun label title (title.firstFont?.getD fallback))
    { TextFlow.plain with leading := titleLeading title } width

mutual

/-- How a node begins in a column that stands in by `inset`; there is nothing to be said of one
whose first part draws nothing. -/
def openingOf (g : Geometry ℚ) : Node ℚ → ℚ → Option Opening
  | .paragraph style children, inset =>
    let indented := inset + style.indent
    (openingOfMixed g (flowOf style) .empty children indented).map fun o =>
      (o.kept (keptHeight g style children (columnWidth g indented))).below style.spacingBefore
  | .list style items, _ =>
    if items.isEmpty then none else some (.room ((labelFont style).size * lineHeightFactor))
  | .table style header rows, inset | .gridTable style header rows, inset =>
    openingOfTable style header rows (columnWidth g inset)
  | .cell c, inset | .gridCell c, inset => openingOfCell g c inset
  | .image image, _ => some (.room image.height)
  | .chart d, _ | .vectorGraphic d, _ => if unreadable d then none else some (.room d.height)
  | .chapter number title _, inset =>
    (openingOfTitle (toString number ++ ".") title chapterFont (columnWidth g inset)).map
      fun _ => .page
  | .subsection number indent title children, inset =>
    (openingOfTitle (sectionLabel number) title sectionFont (columnWidth g inset)).or
      ((openingOfNodes g children (inset + indent)).map
        (·.below ((title.firstFont?.getD sectionFont).size * 0.5)))
  | .note .., _ => some .atOnce
  | .rule r, _ => some (.room (r.lineWidth + ruleClearance))
  | .rectangle r, _ => some (.room r.height)
  | .spacer .., _ => none
  | .reference _ target, inset => openingOf g target inset
  | .text run, inset => openingOfInline (.text run) (columnWidth g inset)
  | .subscript run, inset => openingOfInline (.subscript run) (columnWidth g inset)
  | .superscript run, inset => openingOfInline (.superscript run) (columnWidth g inset)
  | .phrase style children, inset => openingOfInline (.phrase style children) (columnWidth g inset)
  | .anchor ends shape content, inset =>
    openingOfInline (.anchor ends shape content) (columnWidth g inset)

def openingOfNodes (g : Geometry ℚ) : List (Node ℚ) → ℚ → Option Opening
  | [], _ => none
  | n :: _, inset => openingOf g n inset

def openingOfCell (g : Geometry ℚ) : Cell ℚ → ℚ → Option Opening
  | .mk _ content, inset => openingOf g content inset

/-- Children that have no line are passed over. -/
def openingOfMixed (g : Geometry ℚ) (flow : TextFlow ℚ) (run : InlineRun ℚ) :
    List (Node ℚ) → ℚ → Option Opening
  | [], inset => openingOfRun run flow (columnWidth g inset)
  | n :: ns, inset =>
    match collectInline none run n with
    | some run => openingOfMixed g flow run ns inset
    | none => (openingOfRun run flow (columnWidth g inset)).or (openingOf g n inset)

end

/-! ## Blocks begin as they are said to -/

/-- The script begins with something that it draws. -/
def Script.Prompt (script : Script ℚ) : Prop := ∀ s, script.page? s = some s.page.number

theorem Script.Prompt.andThen {first : Script ℚ} (h : first.Prompt) (next : Script ℚ) :
    (first.andThen next).Prompt :=
  fun s => page?_andThen_of_some (h s) next

theorem prompt_of_cons {acts : Layout ℚ → List (Act ℚ)}
    (h : ∀ s, ∃ a rest, acts s = a :: rest ∧ a.draws = true) : Script.Prompt acts := by
  intro s
  obtain ⟨a, rest, hacts, ha⟩ := h s
  rw [Script.page?, hacts, firstPage, if_pos ha]

theorem page?_room {next : Script ℚ} (h : next.Prompt) (needed : ℚ) (s : Layout ℚ) :
    ((roomScript needed).andThen next).page? s = some ((Opening.room needed).pageIn s) := by
  rw [(blank_roomScript needed).page?_andThen (does_roomScript needed), h]
  exact congrArg some (Opening.atOnce.pageIn_ensureSpace s needed)

theorem page?_flowScript {run : InlineRun ℚ} {flow : TextFlow ℚ} {s : Layout ℚ} {o : Opening}
    (h : openingOfRun run flow s.availableWidth = some o) :
    (flowScript run flow).page? s = some (o.pageIn s) := by
  obtain ⟨line, hline, rfl⟩ := Option.map_eq_some_iff.mp h
  obtain ⟨lines, hlines⟩ := List.head?_eq_some_iff.mp hline
  have htokens : run.tokens.isEmpty = false := by
    cases hempty : run.tokens.isEmpty with
    | false => rfl
    | true =>
      rw [breakLines_empty (List.isEmpty_iff.mp hempty)] at hlines
      cases hlines
  have hfirst : (flowLineScript run s.availableWidth flow (line, 0)).page? s =
      some ((Opening.room line.height).pageIn s) :=
    page?_room (Script.Prompt.andThen (prompt_of_cons fun _ => ⟨_, _, rfl, rfl⟩) _) line.height s
  rw [Script.page?, flowScript, htokens, hlines, List.zipIdx_cons]
  exact page?_andThen_of_some hfirst _

theorem flowScript_nil {run : InlineRun ℚ} {flow : TextFlow ℚ} {s : Layout ℚ}
    (h : openingOfRun run flow s.availableWidth = none) : flowScript run flow s = [] := by
  have hlines : breakLines run s.availableWidth flow = [] := by
    simpa [openingOfRun] using h
  rw [flowScript, hlines]
  split <;> rfl

theorem prompt_placeScript {height : ℚ} {acts : Layout ℚ → List (Act ℚ)}
    (h : ∀ s, ∃ a rest, acts s = a :: rest ∧ a.draws = true) : (placeScript height acts).Prompt :=
  (prompt_of_cons h).andThen _

theorem rasterActs_cons (data : Pdf.Bytes) (format : String) (pixels : Option (Nat × Nat))
    (b : Box ℚ) : ∃ a rest, rasterActs data format pixels b = a :: rest ∧ a.draws = true := by
  unfold rasterActs
  split
  · exact ⟨_, _, rfl, rfl⟩
  · exact ⟨_, _, rfl, rfl⟩

theorem page?_imageScript (image : Image ℚ) (s : Layout ℚ) :
    (imageScript image).page? s = some ((Opening.room image.height).pageIn s) :=
  page?_room (prompt_placeScript fun _ => rasterActs_cons ..) _ s

theorem page?_drawableScript {d : Drawable ℚ} (h : unreadable d = false) (s : Layout ℚ) :
    (drawableScript d).page? s = some ((Opening.room d.height).pageIn s) := by
  refine page?_room ?_ _ s
  unfold unreadable at h
  cases hdrawing : d.drawing with
  | raster data format => exact prompt_placeScript fun _ => rasterActs_cons ..
  | vector content =>
    cases hops : (Pdf.decodeOperations? content : Option (List (Pdf.Operation ℚ))) with
    | none => simp [hdrawing, hops] at h
    | some ops =>
      simp only [hops]
      exact prompt_placeScript fun _ => ⟨_, _, rfl, rfl⟩

theorem page?_ruleScript (r : Rule ℚ) (s : Layout ℚ) :
    (ruleScript r).page? s = some ((Opening.room (r.lineWidth + ruleClearance)).pageIn s) :=
  page?_room (prompt_placeScript fun _ => ⟨_, _, rfl, rfl⟩) _ s

theorem page?_rectangleScript (r : Rectangle ℚ) (s : Layout ℚ) :
    (rectangleScript r).page? s = some ((Opening.room r.height).pageIn s) := by
  refine page?_room (prompt_placeScript fun _ => ?_) _ s
  cases r.color with
  | none => exact ⟨_, _, rfl, rfl⟩
  | some color => exact ⟨_, _, rfl, rfl⟩

theorem page?_labelScript (style : ListStyle ℚ) (index : Nat) (s : Layout ℚ) :
    (labelScript style index).page? s =
      some ((Opening.room ((labelFont style).size * lineHeightFactor)).pageIn s) :=
  page?_room (prompt_of_cons fun _ => ⟨_, _, rfl, rfl⟩) _ s

theorem cellActs_draw (style : TableStyle ℚ) (top height : ℚ) (p : Placed ℚ) :
    ∀ a ∈ cellActs style top height p, a.draws = true := by
  have hlines (run : InlineRun ℚ) (x width : ℚ) (align : TextAlign) (lines : List (LineBox ℚ)) :
      ∀ top, ∀ a ∈ cellLines run x width align top lines, a.draws = true := by
    induction lines with
    | nil => exact fun _ => List.forall_mem_nil _
    | cons line lines ih => exact fun _ => List.forall_mem_cons.mpr ⟨rfl, ih _⟩
  refine List.forall_mem_append.mpr
    ⟨List.forall_mem_append.mpr ⟨fun a ha => ?_, ?_⟩, hlines _ _ _ _ _ _⟩
  · obtain ⟨color, -, rfl⟩ := Option.map_eq_some_iff.mp (Option.mem_toList.mp ha)
    rfl
  · split
    · exact List.forall_mem_singleton.mpr rfl
    · exact List.forall_mem_nil _

theorem cellActs_ne_nil {style : TableStyle ℚ} {p : Placed ℚ} (h : cellShows style p = true)
    (top height : ℚ) : cellActs style top height p ≠ [] := by
  intro hnone
  obtain ⟨hbox, hlines⟩ := List.append_eq_nil_iff.mp hnone
  obtain ⟨hfill, hborder⟩ := List.append_eq_nil_iff.mp hbox
  have hblank : p.lines = [] := by
    cases hcases : p.lines with
    | nil => rfl
    | cons line lines => simp [hcases, cellLines] at hlines
  cases hback : p.cell.style.background <;> cases hedge : p.cell.style.border && style.border <;>
    simp_all [cellShows]

theorem prompt_rowScript {style : TableStyle ℚ} {widths : List ℚ} {cells : List (Cell ℚ)}
    (h : rowShows style widths cells = true) (x0 : ℚ) :
    (rowScript style x0 widths cells).Prompt := by
  obtain ⟨p, hp, hshows⟩ := List.any_eq_true.mp h
  obtain ⟨slot, hslot, rfl⟩ := List.mem_map.mp hp
  intro s
  have hdraw : ∀ a ∈ (placeRow x0 widths cells).flatMap
      (cellActs style s.cursor (rowHeight style (placeRow x0 widths cells))), a.draws = true := by
    intro a ha
    obtain ⟨q, -, ha⟩ := List.mem_flatMap.mp ha
    exact cellActs_draw style _ _ q a ha
  have hsome : (placeRow x0 widths cells).flatMap
      (cellActs style s.cursor (rowHeight style (placeRow x0 widths cells))) ≠ [] := by
    intro hnone
    exact cellActs_ne_nil (p := placeSlot x0 widths slot) hshows _ _
      (List.flatMap_eq_nil_iff.mp hnone _ (List.mem_map_of_mem hslot))
  obtain ⟨a, rest, hacts⟩ := List.exists_cons_of_ne_nil hsome
  rw [hacts] at hdraw
  rw [Script.page?, rowScript, hacts]
  exact if_pos (hdraw a List.mem_cons_self)

/-- Without a header to repeat a row asks for room like any block. -/
theorem bodyRowScript_nil (style : TableStyle ℚ) (x0 : ℚ) (widths : List ℚ) (row : List (Cell ℚ)) :
    bodyRowScript style [] x0 widths row =
      (roomScript (rowEstimate widths row)).andThen (rowScript style x0 widths row) := by
  funext s
  unfold bodyRowScript roomScript Script.andThen byCase
  simp only
  split <;> rfl

theorem page?_tableScript {style : TableStyle ℚ} {header : List (Cell ℚ)}
    {rows : List (List (Cell ℚ))} {s : Layout ℚ} {o : Opening}
    (h : openingOfTable style header rows s.availableWidth = some o) :
    (tableScript style header rows).page? s = some (o.pageIn s) := by
  obtain ⟨row, hrow, hshows⟩ := Option.bind_eq_some_iff.mp h
  obtain ⟨hdraws, rfl⟩ : rowShows style (columnWidths style (s.availableWidth *
      Scalar.within 0.01 1.0 (style.widthPercent / 100))) row = true ∧ Opening.room (rowEstimate
        (columnWidths style (s.availableWidth * Scalar.within 0.01 1.0 (style.widthPercent / 100)))
          row) = o := by
    simpa using hshows
  unfold Script.page? tableScript
  simp only
  generalize columnWidths style _ = widths at hdraws ⊢
  generalize s.tableStart style.align _ _ = x0
  have hroom := page?_room (prompt_rowScript hdraws x0) (rowEstimate widths row) s
  cases header with
  | cons cell cells =>
    obtain rfl : cell :: cells = row := by simpa [headerRows] using hrow
    exact page?_andThen_of_some hroom _
  | nil =>
    obtain ⟨rest, rfl⟩ : ∃ rest, rows = row :: rest := List.head?_eq_some_iff.mp hrow
    rw [← bodyRowScript_nil] at hroom
    exact page?_andThen_of_some (page?_andThen_of_some hroom _) _

theorem page?_titleScript {label : String} {title : Node ℚ} {fallback : Font ℚ} {s : Layout ℚ}
    {o : Opening} (h : openingOfTitle label title fallback s.availableWidth = some o) :
    (titleScript label title fallback).page? s = some (o.pageIn s) :=
  page?_andThen_of_some (page?_flowScript h) _

theorem page?_chapterScript {number : Nat} {title : Node ℚ} {s : Layout ℚ} {o : Opening}
    (h : openingOfTitle (toString number ++ ".") title chapterFont s.availableWidth = some o) :
    (chapterScript number title).page? s = some (Opening.page.pageIn s) := by
  have hturn : (byCase (·.page.hasContent) turnScript nothing : Script ℚ).Blank :=
    .byCase (blank_act fun _ => rfl) blank_nothing
  rw [chapterScript, hturn.page?_andThen (does_turnScript.byCase _ does_nothing)]
  cases hused : s.page.hasContent with
  | false =>
    simp only [Bool.false_eq_true, if_false, id, page?_titleScript h, Opening.pageIn,
      Opening.turns_fresh hused]
  | true =>
    have hfresh : s.breakPage.page.hasContent = false := by simp [breakPage]
    rw [← (breakPage_fresh s).2.2] at h
    simp only [if_true, page?_titleScript h, Opening.pageIn, Opening.turns_fresh hfresh]
    simp [Opening.turns, hused, breakPage]

/-- Space before a paragraph and keeping it together take part in how it begins. -/
theorem pageIn_openParagraph (s : Layout ℚ) (style : BlockStyle ℚ) (children : List (Node ℚ))
    (o : Opening) :
    let height := keptHeight s.geometry style children
      (columnWidth s.geometry (s.inset + style.indent))
    o.pageIn (s.openParagraph style (flowOf style) children) =
      ((o.kept height).below style.spacingBefore).pageIn s := by
  intro height
  obtain ⟨cursor, hspace, hcursor⟩ : ∃ cursor,
      (if s.page.hasContent then s.lower style.spacingBefore else s) = { s with cursor } ∧
        (s.page.hasContent = true → cursor = s.cursor - style.spacingBefore) := by
    split
    · exact ⟨s.cursor - style.spacingBefore, rfl, fun _ => rfl⟩
    · next hunused => exact ⟨s.cursor, rfl, fun hused => absurd hused hunused⟩
  let inner : Layout ℚ := { s with cursor, inset := s.inset + style.indent }
  have hopen : s.openParagraph style (flowOf style) children =
      if style.keepTogether then inner.keepTogether (flowOf style) children else inner := by
    simp only [openParagraph, hspace, inner]
  rw [Opening.pageIn_below (s := s) (t := inner) style.spacingBefore rfl rfl hcursor, hopen]
  unfold height keptHeight
  cases style.keepTogether with
  | false => rfl
  | true =>
    simp only [if_true, keepTogether]
    cases collectAll .empty children with
    | none => rfl
    | some run =>
      have hgeometry : inner.geometry = s.geometry := rfl
      have hwidth : inner.availableWidth = columnWidth s.geometry (s.inset + style.indent) := rfl
      simp only [hgeometry, hwidth, Option.map_some, Option.filter_some]
      by_cases hfits : linesHeight (breakLines run (columnWidth s.geometry (s.inset + style.indent))
          (flowOf style)) ≤ s.geometry.contentHeight
      · simp only [hfits, if_true, decide_true, Opening.pageIn_ensureSpace]
        rfl
      · simp only [hfits, if_false, decide_false, Bool.false_eq_true]
        rfl

/-- A title without a line leaves room below itself. -/
theorem page?_untitled {label : String} {title : Node ℚ} {fallback : Font ℚ} {s : Layout ℚ}
    (h : openingOfTitle label title fallback s.availableWidth = none) (next : Script ℚ) :
    ((titleScript label title fallback).andThen next).page? s =
      next.page? (s.lower ((title.firstFont?.getD fallback).size * 0.5)) := by
  have hnil := flowScript_nil h
  have hacts : titleScript label title fallback s =
      [.toCursor (s.cursor - (title.firstFont?.getD fallback).size * 0.5)] := by
    simp only [titleScript, Script.andThen, hnil, perform_nil, List.nil_append]
    rfl
  rw [page?_andThen, Script.page?, hacts]
  rfl

mutual

theorem page?_scriptOf : (n : Node ℚ) → (s : Layout ℚ) → ∀ o ∈ openingOf s.geometry n s.inset,
    (scriptOf n).page? s = some (o.pageIn s)
  | .paragraph style children, s => by
    intro o ho
    unfold openingOf at ho
    obtain ⟨first, hfirst, rfl⟩ := Option.map_eq_some_iff.mp ho
    have hgeometry := (steps_sameSetting
      (s.openParagraph_steps style (flowOf style) children)).geometry
    have hinset := s.openParagraph_inset style (flowOf style) children
    rw [← hgeometry, ← hinset] at hfirst
    have hmixed := page?_scriptOfMixed (flowOf style) .empty children _ first hfirst
    unfold scriptOf
    rw [(blank_openScript style (flowOf style) children).page?_andThen
      (does_openScript style (flowOf style) children), page?_unlessFailed_of_some hmixed,
      pageIn_openParagraph]
  | .list style items, s => by
    intro o ho
    unfold openingOf at ho
    cases items with
    | nil => cases ho
    | cons item rest =>
      obtain rfl := Option.some.inj ho
      unfold scriptOf scriptOfItems
      exact page?_andThen_of_some (page?_labelScript style 1 s) _
  | .table style header rows, s | .gridTable style header rows, s => by
    intro o ho
    unfold openingOf at ho
    unfold scriptOf
    exact page?_tableScript ho
  | .cell c, s | .gridCell c, s => by
    intro o ho
    unfold openingOf at ho
    unfold scriptOf
    exact page?_scriptOfCell c s o ho
  | .image image, s => by
    intro o ho
    unfold openingOf at ho
    obtain rfl := Option.some.inj ho
    unfold scriptOf
    exact page?_imageScript image s
  | .chart d, s | .vectorGraphic d, s => by
    intro o ho
    unfold openingOf at ho
    unfold scriptOf
    cases hread : unreadable d with
    | true => simp [hread] at ho
    | false =>
      obtain rfl : Opening.room d.height = o := by simpa [hread] using ho
      exact page?_drawableScript hread s
  | .chapter number title children, s => by
    intro o ho
    unfold openingOf at ho
    obtain ⟨first, hfirst, rfl⟩ := Option.map_eq_some_iff.mp ho
    unfold scriptOf
    exact page?_andThen_of_some (page?_chapterScript hfirst) _
  | .subsection number indent title children, s => by
    intro o ho
    unfold openingOf at ho
    unfold scriptOf
    cases hopening : openingOfTitle (sectionLabel number) title sectionFont
        (columnWidth s.geometry s.inset) with
    | some first =>
      obtain rfl : first = o := by simpa [hopening] using ho
      exact page?_andThen_of_some (page?_titleScript hopening) _
    | none =>
      obtain ⟨first, hfirst, rfl⟩ : ∃ first ∈ openingOfNodes s.geometry children (s.inset + indent),
          first.below ((title.firstFont?.getD sectionFont).size * 0.5) = o := by
        simpa [hopening] using ho
      let inner : Layout ℚ := { s with
        cursor := s.cursor - (title.firstFont?.getD sectionFont).size * 0.5
        inset := s.inset + indent }
      have hinner := page?_scriptOfNodes children inner first hfirst
      rw [page?_untitled hopening,
        Opening.pageIn_below (s := s) (t := inner) _ rfl rfl fun _ => rfl]
      exact page?_andThen_of_some hinner _
  | .note title text, s => by
    intro o ho
    unfold openingOf at ho
    obtain rfl := Option.some.inj ho
    unfold scriptOf
    rfl
  | .rule r, s => by
    intro o ho
    unfold openingOf at ho
    obtain rfl := Option.some.inj ho
    unfold scriptOf
    exact page?_ruleScript r s
  | .spacer .., _ => by
    intro o ho
    unfold openingOf at ho
    cases ho
  | .rectangle r, s => by
    intro o ho
    unfold openingOf at ho
    obtain rfl := Option.some.inj ho
    unfold scriptOf
    exact page?_rectangleScript r s
  | .reference _ target, s => by
    intro o ho
    unfold openingOf at ho
    unfold scriptOf
    exact page?_scriptOf target s o ho
  | .text _, s | .subscript _, s | .superscript _, s | .phrase .., s | .anchor .., s => by
    intro o ho
    unfold openingOf at ho
    unfold scriptOf
    exact page?_flowScript ho

theorem page?_scriptOfNodes : (ns : List (Node ℚ)) → (s : Layout ℚ) →
    ∀ o ∈ openingOfNodes s.geometry ns s.inset, (scriptOfNodes ns).page? s = some (o.pageIn s)
  | [], _ => by
    intro o ho
    unfold openingOfNodes at ho
    cases ho
  | n :: ns, s => by
    intro o ho
    unfold openingOfNodes at ho
    unfold scriptOfNodes
    exact page?_unlessFailed_of_some (page?_scriptOf n s o ho) _ _

theorem page?_scriptOfCell : (c : Cell ℚ) → (s : Layout ℚ) →
    ∀ o ∈ openingOfCell s.geometry c s.inset, (scriptOfCell c).page? s = some (o.pageIn s)
  | .mk _ content, s => by
    intro o ho
    unfold openingOfCell at ho
    unfold scriptOfCell
    exact page?_scriptOf content s o ho

theorem page?_scriptOfMixed (flow : TextFlow ℚ) (run : InlineRun ℚ) : (ns : List (Node ℚ)) →
    (s : Layout ℚ) → ∀ o ∈ openingOfMixed s.geometry flow run ns s.inset,
      (scriptOfMixed flow run ns).page? s = some (o.pageIn s)
  | [], s => by
    intro o ho
    unfold openingOfMixed at ho
    unfold scriptOfMixed
    exact page?_flowScript ho
  | n :: ns, s => by
    intro o ho
    unfold openingOfMixed at ho
    unfold scriptOfMixed
    cases hrun : collectInline none run n with
    | some grown =>
      simp only [hrun] at ho ⊢
      exact page?_scriptOfMixed flow grown ns s o ho
    | none =>
      simp only [hrun] at ho ⊢
      cases hopening : openingOfRun run flow (columnWidth s.geometry s.inset) with
      | some first =>
        obtain rfl : first = o := by simpa [hopening] using ho
        exact page?_andThen_of_some (page?_flowScript hopening) _
      | none =>
        have hblock : o ∈ openingOf s.geometry n s.inset := by simpa [hopening] using ho
        have hnil := flowScript_nil (s := s) hopening
        rw [page?_andThen, Script.page?, hnil]
        exact page?_unlessFailed_of_some (page?_scriptOf n s o hblock) _ _

end

/-! ## Items behind their labels -/

section

variable {α : Type} [Scalar α]

/-- An item of a list with its number and the layout that it finds. -/
structure Entry (α : Type) where
  index : Nat
  item : ListItem α
  start : Layout α

namespace Entry

def label (style : ListStyle α) (e : Entry α) : LabelPlace α :=
  (e.start.drawLabel style e.index).1

/-- The layout behind the label. -/
def behind (style : ListStyle α) (e : Entry α) : Layout α := (e.start.drawLabel style e.index).2

def add (style : ListStyle α) (e : Entry α) : FlowM α Unit :=
  indented (listIndent style) (addItem e.item)

/-- What is done for the item behind its label. -/
def script (style : ListStyle α) (e : Entry α) : Script α :=
  indentedScript (listIndent style) (scriptOfItem e.item)

def acts (style : ListStyle α) (e : Entry α) : List (Act α) :=
  (labelScript style e.index).andThen
    (unlessFailed (e.add style) (e.script style) (closeItemScript (e.label style))) e.start

/-- The page of what is drawn first for the item, its label apart. -/
def page? (style : ListStyle α) (e : Entry α) : Option Nat :=
  (e.script style).page? (e.behind style)

end Entry

end

namespace Entry

/-- How the item begins behind its label. -/
def opening (style : ListStyle ℚ) (e : Entry ℚ) : Option Opening :=
  openingOf e.start.geometry e.item.node (e.start.inset + listIndent style)

end Entry

end Folio.Flow
