import Folio.Proofs.Flow.PageSequence

/-!
# Pages and what surrounds them

A running header, a footer and page events are drawn around the content of a page and never move it.
A layout that has them is at every moment the layout without them, dressed: a page that was started
after the header was set has it in front of everything else, and a finished page is covered by its
footer and the events. This holds through every call, so what surrounds a document's pages can be
read off the bare document.
-/
namespace Folio.Flow

open Style Pdf

variable {α : Type} [Scalar α]

/-! ## Pages under a header -/

/-- The strokes of a running header on a page. -/
def headerOperations (g : Geometry α) : Option String → List (Operation α)
  | none => []
  | some header =>
    let font : Font α := .standard
    textOperations header font.baseName font.size ((g.width - textWidth header font) / 2)
      (g.height - furnitureOffset) font.color.unit

/-- The page as it is when a header was drawn on it before anything else. -/
def Canvas.under (c : Canvas α) (g : Geometry α) : Option String → Canvas α
  | none => c
  | some header =>
    { c with
      operations := headerOperations g (some header) ++ c.operations
      fonts := insertName (Font.standard : Font α).baseName c.fonts }

omit [Scalar α] in
theorem insertName_comm (a b : String) (names : List String) :
    insertName a (insertName b names) = insertName b (insertName a names) := by
  induction names with
  | nil => grind [insertName]
  | cons k rest ih => grind [insertName]

namespace Canvas

@[simp] theorem under_none (c : Canvas α) (g : Geometry α) : c.under g none = c := rfl

@[simp] theorem under_number (c : Canvas α) (g : Geometry α) (header : Option String) :
    (c.under g header).number = c.number := by cases header <;> rfl

@[simp] theorem under_hasContent (c : Canvas α) (g : Geometry α) (header : Option String) :
    (c.under g header).hasContent = c.hasContent := by cases header <;> rfl

@[simp] theorem under_operations (c : Canvas α) (g : Geometry α) (header : Option String) :
    (c.under g header).operations = headerOperations g header ++ c.operations := by
  cases header <;> rfl

/-- Drawing by `f` goes on top and keeps the number of the page. -/
structure OnTop (f : Canvas α → Canvas α) : Prop where
  under : ∀ c g header, f (c.under g header) = (f c).under g header
  number : ∀ c, (f c).number = c.number

theorem onTop_draw (ops : List (Operation α)) : OnTop fun c => c.draw ops where
  under c g header := by cases header <;> simp [under, draw]
  number _ := rfl

theorem onTop_useFont (name : String) : OnTop fun c : Canvas α => c.useFont name where
  under c g header := by
    cases header
    · rfl
    · simp [under, useFont, insertName_comm name]
  number _ := rfl

theorem OnTop.comp {f f' : Canvas α → Canvas α} (hf : OnTop f) (hf' : OnTop f') :
    OnTop fun c => f' (f c) where
  under c g header := by rw [hf.under, hf'.under]
  number c := (hf'.number _).trans (hf.number c)

theorem onTop_text (text : String) (font : Font α) (x y : α) :
    OnTop fun c => c.text text font x y := (onTop_useFont _).comp (onTop_draw _)

theorem onTop_addLink (link : Link α) : OnTop fun c => c.addLink link where
  under c g header := by cases header <;> rfl
  number _ := rfl

theorem onTop_addNote (note : Note α) : OnTop fun c => c.addNote note where
  under c g header := by cases header <;> rfl
  number _ := rfl

theorem onTop_image (image : EmbeddedImage) (b : Layout.Box α) :
    OnTop fun c => (c.addImage image).2.draw (Layout.imageOperations (c.addImage image).1 b) where
  under c g header := by cases header <;> simp [under, draw, addImage]
  number _ := rfl

theorem onTop_markContent : OnTop fun c : Canvas α => { c with hasContent := true } where
  under c g header := by cases header <;> rfl
  number _ := rfl

end Canvas

/-! ## Dress -/

/-- What is drawn around the pages of a document. -/
structure Dress (α : Type) where
  header : Option String
  /-- The last page without the header: the one that was open when the header was set. -/
  headless : Nat
  footer : Option (RunningFooter α)
  events : List (PageEvent α)

namespace Dress

/-- The header of a page. -/
def headerOn (d : Dress α) (number : Nat) : Option String :=
  if number ≤ d.headless then none else d.header

/-- The overlay that the events of a page find. -/
def footerOn (d : Dress α) (g : Geometry α) (number : Nat) : Overlay α :=
  match d.footer with
  | some footer => footer.draw g number .empty
  | none => .empty

/-- All that covers a page when it is finished. -/
def overlayOn (d : Dress α) (g : Geometry α) (number : Nat) : Overlay α :=
  d.events.foldl (fun overlay event => event ⟨number, none, g.width, g.height⟩ overlay)
    (d.footerOn g number)

/-- A finished page of the bare document, dressed. -/
def finish (d : Dress α) (g : Geometry α) (c : Canvas α) : Canvas α :=
  (c.under g (d.headerOn c.number)).cover (d.overlayOn g c.number)

end Dress

namespace Layout

/-- The state of a bare document with all its pages dressed. -/
def dressed (d : Dress α) (s : Layout α) : Layout α :=
  { s with
    header := d.header
    footer := d.footer
    events := d.events
    finished := s.finished.map (d.finish s.geometry)
    page := s.page.under s.geometry (d.headerOn s.page.number) }

/-- Nothing is drawn around the pages of `s`, and the header of `d` has been set already. -/
structure Bare (d : Dress α) (s : Layout α) : Prop where
  header : s.header = none
  footer : s.footer = none
  events : s.events = []
  headless : d.headless ≤ s.page.number

/-- `t` is the bare state `s`, dressed. -/
structure Dressed (d : Dress α) (s t : Layout α) : Prop where
  bare : Bare d s
  eq : t = s.dressed d

variable {d : Dress α} {s t : Layout α}

omit [Scalar α] in
@[simp] theorem cover_empty (c : Canvas α) : c.cover .empty = c := rfl

theorem Bare.furniture (h : Bare d s) : s.furniture = .empty := by
  simp [Layout.furniture, h.footer, h.events]

/-- What covers a page that is finished with dress. -/
theorem furniture_dressed (d : Dress α) (s : Layout α) :
    (s.dressed d).furniture = d.overlayOn s.geometry s.page.number := by
  simp only [Layout.furniture, dressed, Canvas.under_number]
  rfl

theorem Bare.dressed (h : Bare d s) : Dressed d s (s.dressed d) := ⟨h, rfl⟩

namespace Dressed

/-! What a layout reads of its state is the same with dress and without. -/

theorem geometry (h : Dressed d s t) : t.geometry = s.geometry := by rw [h.eq]; rfl

theorem phase (h : Dressed d s t) : t.phase = s.phase := by rw [h.eq]; rfl

theorem cursor (h : Dressed d s t) : t.cursor = s.cursor := by rw [h.eq]; rfl

theorem inset (h : Dressed d s t) : t.inset = s.inset := by rw [h.eq]; rfl

theorem left (h : Dressed d s t) : t.left = s.left := by rw [h.eq]; rfl

theorem availableWidth (h : Dressed d s t) : t.availableWidth = s.availableWidth := by
  rw [h.eq]
  rfl

theorem number (h : Dressed d s t) : t.page.number = s.page.number := by
  rw [h.eq]
  exact Canvas.under_number ..

theorem hasContent (h : Dressed d s t) : t.page.hasContent = s.page.hasContent := by
  rw [h.eq]
  exact Canvas.under_hasContent ..

theorem mustBreak (h : Dressed d s t) (needed : α) : t.mustBreak needed = s.mustBreak needed := by
  obtain ⟨hbare, rfl⟩ := h
  simp only [Layout.mustBreak, hbare.dressed.hasContent]
  rfl

/-! ## Drawing -/

theorem move (h : Dressed d s t) (cursor inset : α) :
    Dressed d { s with cursor, inset } { t with cursor, inset } := by
  obtain ⟨hbare, rfl⟩ := h
  exact ⟨⟨hbare.header, hbare.footer, hbare.events, hbare.headless⟩, rfl⟩

theorem moveTo (h : Dressed d s t) (cursor : α) :
    Dressed d { s with cursor } { t with cursor } := by
  obtain ⟨hbare, rfl⟩ := h
  exact hbare.dressed.move cursor s.inset

theorem indent (h : Dressed d s t) (f : α → α) :
    Dressed d { s with inset := f s.inset } { t with inset := f t.inset } := by
  obtain ⟨hbare, rfl⟩ := h
  exact hbare.dressed.move s.cursor (f s.inset)

theorem lower (h : Dressed d s t) (height : α) : Dressed d (s.lower height) (t.lower height) := by
  unfold Layout.lower
  rw [h.cursor]
  exact h.moveTo _

theorem onPage (h : Dressed d s t) {f : Canvas α → Canvas α} (hf : Canvas.OnTop f) :
    Dressed d (s.onPage f) (t.onPage f) := by
  obtain ⟨hbare, rfl⟩ := h
  refine ⟨⟨hbare.header, hbare.footer, hbare.events, ?_⟩, ?_⟩
  · simpa [Layout.onPage, hf.number] using hbare.headless
  · simp [Layout.onPage, dressed, hf.under, hf.number]

theorem markContent (h : Dressed d s t) : Dressed d s.markContent t.markContent :=
  h.onPage Canvas.onTop_markContent

theorem addDestination (h : Dressed d s t) (name : String) (x y : α) :
    Dressed d (s.addDestination name x y) (t.addDestination name x y) := by
  obtain ⟨hbare, rfl⟩ := h
  refine ⟨⟨hbare.header, hbare.footer, hbare.events, hbare.headless⟩, ?_⟩
  simp [Layout.addDestination, dressed]

/-- A box is filled if there is a colour for it. -/
theorem fillIf (h : Dressed d s t) (color : Option Color) (x y width height : α) :
    Dressed d
      (match color with
        | some color => s.onPage fun c => c.fillBox x y width height color
        | none => s)
      (match color with
        | some color => t.onPage fun c => c.fillBox x y width height color
        | none => t) := by
  cases color with
  | none => exact h
  | some color => exact h.onPage (Canvas.onTop_draw _)

theorem drawRun (h : Dressed d s t) (style : RunStyle α) (text : String) (x baseline width : α) :
    Dressed d (s.drawRun style text x baseline width) (t.drawRun style text x baseline width) := by
  have hbackground := h.fillIf style.background x (baseline - style.font.size * descent) width
    (style.font.size * lineHeightFactor)
  have htext := hbackground.onPage (Canvas.onTop_text text style.font x (baseline + style.rise))
  unfold Layout.drawRun
  simp only
  cases style.link with
  | none =>
    cases style.font.style <;> first | exact htext | exact htext.onPage (Canvas.onTop_draw _)
  | some target =>
    refine onPage ?_ (Canvas.onTop_addLink _)
    cases style.font.style <;> first | exact htext | exact htext.onPage (Canvas.onTop_draw _)

theorem drawPiece (h : Dressed d s t) (run : InlineRun α) (top baseline : α) (p : Piece α) :
    Dressed d (s.drawPiece run top baseline p) (t.drawPiece run top baseline p) := by
  cases p with
  | mark name x => exact h.addDestination name x top
  | text style text x width => exact h.drawRun ..

theorem foldl {β : Type} {f : Layout α → β → Layout α}
    (hf : ∀ s t, Dressed d s t → ∀ b, Dressed d (f s b) (f t b)) (h : Dressed d s t) (bs : List β) :
    Dressed d (bs.foldl f s) (bs.foldl f t) := by
  induction bs generalizing s t with
  | nil => exact h
  | cons b bs ih => exact ih (hf s t h b)

theorem drawLine (h : Dressed d s t) (run : InlineRun α) (line : LineBox α) (x0 width top : α)
    (align : TextAlign) :
    Dressed d (s.drawLine run line x0 width top align) (t.drawLine run line x0 width top align) :=
  foldl (fun _ _ h p => h.drawPiece run _ _ p) h _

theorem drawLines (h : Dressed d s t) (run : InlineRun α) (x width : α) (align : TextAlign)
    (top : α) (lines : List (LineBox α)) :
    Dressed d (Layout.drawLines run x width align s top lines)
      (Layout.drawLines run x width align t top lines) := by
  induction lines generalizing s t top with
  | nil => exact h
  | cons line lines ih => exact ih (h.drawLine run line x width top align) _

theorem drawCell (h : Dressed d s t) (style : TableStyle α) (top height : α) (p : Placed α) :
    Dressed d (Layout.drawCell style top height s p) (Layout.drawCell style top height t p) := by
  have hbackground := h.fillIf p.cell.style.background p.x (top - height) p.width height
  unfold Layout.drawCell
  refine drawLines ?_ ..
  split
  · exact hbackground.onPage (Canvas.onTop_draw _)
  · exact hbackground

theorem placeRaster (h : Dressed d s t) (data : Bytes) (format : String)
    (pixels : Option (Nat × Nat)) (b : Box α) :
    Dressed d (s.placeRaster data format pixels b) (t.placeRaster data format pixels b) := by
  unfold Layout.placeRaster
  split
  · exact h.onPage (Canvas.onTop_image _ b)
  · exact h.onPage (((Canvas.onTop_draw _).comp (Canvas.onTop_draw _)).comp (Canvas.onTop_draw _))

/-! ## Pages -/

/-- A page is started with the header once the header is set. -/
theorem startPage (h : Dressed d s t) {number : Nat} (hnumber : d.headless < number) :
    Dressed d (s.startPage number) (t.startPage number) := by
  obtain ⟨hbare, rfl⟩ := h
  have hsetting := startPage_sameSetting s number
  refine ⟨⟨hsetting.header.trans hbare.header, hsetting.footer.trans hbare.footer,
    hsetting.events.trans hbare.events, ?_⟩, ?_⟩
  · simpa using Nat.le_of_lt hnumber
  · have hon : d.headerOn number = d.header := if_neg (Nat.not_le.mpr hnumber)
    cases hheader : d.header with
    | none => simp [Layout.startPage, dressed, hbare.header, hheader, hon, Canvas.blank]
    | some header =>
      simp [Layout.startPage, dressed, hbare.header, hheader, hon, Canvas.blank, Layout.onPage,
        Canvas.text, Canvas.useFont, Canvas.draw, Canvas.under, headerOperations]

/-- The page that is turned gets its dress, and the next one starts with the header. -/
theorem breakPage (h : Dressed d s t) : Dressed d s.breakPage t.breakPage := by
  obtain ⟨hbare, rfl⟩ := h
  have hfinish : Bare d s.finishPage :=
    ⟨hbare.header, hbare.footer, hbare.events, Nat.le_succ_of_le hbare.headless⟩
  have hfinished : (s.dressed d).finishPage.finished = (s.finishPage.dressed d).finished := by
    change s.finished.map (d.finish s.geometry) ++
        [(s.dressed d).page.cover (s.dressed d).furniture]
      = (s.finished ++ [s.page.cover s.furniture]).map (d.finish s.geometry)
    rw [furniture_dressed, hbare.furniture, List.map_append]
    rfl
  have hstart : (s.dressed d).finishPage.startPage (s.page.number + 1) =
      (s.finishPage.dressed d).startPage (s.page.number + 1) :=
    calc (s.dressed d).finishPage.startPage (s.page.number + 1)
      _ = { s.finishPage.dressed d with
            finished := (s.dressed d).finishPage.finished }.startPage (s.page.number + 1) := rfl
      _ = (s.finishPage.dressed d).startPage (s.page.number + 1) := by rw [hfinished]
  unfold Layout.breakPage
  rw [hbare.dressed.number, hstart]
  exact hfinish.dressed.startPage (Nat.lt_succ_of_le hbare.headless)

theorem ensureSpace (h : Dressed d s t) (needed : α) :
    Dressed d (s.ensureSpace needed) (t.ensureSpace needed) := by
  unfold Layout.ensureSpace
  rw [h.mustBreak]
  split
  · exact h.breakPage
  · exact h

/-! ## Blocks -/

theorem flowLine (h : Dressed d s t) (run : InlineRun α) (width : α) (flow : TextFlow α)
    (line : LineBox α × Nat) :
    Dressed d (Layout.flowLine run width flow s line) (Layout.flowLine run width flow t line) := by
  have hspace := h.ensureSpace line.1.height
  unfold Layout.flowLine
  simp only [hspace.left, hspace.cursor]
  exact ((hspace.drawLine ..).lower _).markContent

theorem flowInline (h : Dressed d s t) (run : InlineRun α) (flow : TextFlow α) :
    Dressed d (s.flowInline run flow) (t.flowInline run flow) := by
  unfold Layout.flowInline
  rw [h.availableWidth]
  split
  · exact h
  · exact foldl (fun _ _ h line => h.flowLine run s.availableWidth flow line) h _

theorem placeBlock (h : Dressed d s t) (height : α) {f : Layout α → Layout α}
    (hf : ∀ s t, Dressed d s t → Dressed d (f s) (f t)) :
    Dressed d (s.placeBlock height f) (t.placeBlock height f) :=
  ((hf s t h).lower height).markContent

theorem addImage (h : Dressed d s t) (image : Image α) :
    Dressed d (s.addImage image) (t.addImage image) := by
  have hspace := h.ensureSpace image.height
  unfold Layout.addImage
  simp only [blockStart, hspace.left, hspace.cursor, hspace.availableWidth]
  exact hspace.placeBlock _ fun _ _ h => h.placeRaster ..

theorem addDrawable (h : Dressed d s t) (drawable : Drawable α) :
    (t.addDrawable drawable).1 = (s.addDrawable drawable).1 ∧
      Dressed d (s.addDrawable drawable).2 (t.addDrawable drawable).2 := by
  have hspace := h.ensureSpace drawable.height
  unfold Layout.addDrawable
  simp only [hspace.cursor]
  split
  · split
    · refine ⟨rfl, ?_⟩
      dsimp only
      refine hspace.placeBlock _ fun s t h => ?_
      rw [h.left]
      exact h.onPage (Canvas.onTop_draw _)
    · exact ⟨rfl, hspace⟩
  · refine ⟨rfl, ?_⟩
    dsimp only
    refine hspace.placeBlock _ fun s t h => ?_
    rw [h.left]
    exact h.placeRaster ..

theorem addRule (h : Dressed d s t) (r : Rule α) : Dressed d (s.addRule r) (t.addRule r) := by
  have hspace := h.ensureSpace (r.lineWidth + ruleClearance)
  unfold Layout.addRule
  simp only [hspace.geometry, hspace.cursor]
  refine hspace.placeBlock _ fun s t h => ?_
  rw [h.left]
  exact h.onPage (Canvas.onTop_draw _)

theorem addSpacer (h : Dressed d s t) (lines : Nat) (leading : α) :
    Dressed d (s.addSpacer lines leading) (t.addSpacer lines leading) := by
  unfold Layout.addSpacer
  simp only [h.mustBreak]
  refine markContent ?_
  split
  · exact h.breakPage
  · exact h.lower _

theorem addRectangle (h : Dressed d s t) (r : Rectangle α) :
    Dressed d (s.addRectangle r) (t.addRectangle r) := by
  have hspace := h.ensureSpace r.height
  unfold Layout.addRectangle
  simp only [hspace.cursor]
  refine hspace.placeBlock _ fun s t h => ?_
  simp only [h.left]
  have hstroke {s t : Layout α} (h : Dressed d s t) (y : α) : Dressed d
      (s.onPage fun c => c.strokeBox s.left y r.width r.height r.border 1)
      (t.onPage fun c => c.strokeBox t.left y r.width r.height r.border 1) := by
    rw [h.left]
    exact h.onPage (Canvas.onTop_draw _)
  exact hstroke (h.fillIf r.color ..) _

theorem addNote (h : Dressed d s t) (title text : String) :
    Dressed d (s.addNote title text) (t.addNote title text) := by
  unfold Layout.addNote
  rw [h.left, h.cursor]
  exact (h.onPage (Canvas.onTop_addNote _)).markContent

/-! ## Tables -/

theorem addRow (h : Dressed d s t) (style : TableStyle α) (x0 : α) (widths : List α)
    (cells : List (Cell α)) :
    Dressed d (Layout.addRow style x0 widths s cells) (Layout.addRow style x0 widths t cells) := by
  unfold Layout.addRow
  simp only [h.cursor]
  refine markContent (moveTo (foldl (fun _ _ h p => ?_) h _) _)
  exact h.drawCell ..

theorem addBodyRow (h : Dressed d s t) (style : TableStyle α) (header : List (Cell α)) (x0 : α)
    (widths : List α) (row : List (Cell α)) :
    Dressed d (Layout.addBodyRow style header x0 widths s row)
      (Layout.addBodyRow style header x0 widths t row) := by
  unfold Layout.addBodyRow
  rw [h.mustBreak]
  refine addRow ?_ ..
  split
  · split
    · exact h.breakPage
    · exact h.breakPage.addRow ..
  · exact h

theorem addTable (h : Dressed d s t) (style : TableStyle α) (header : List (Cell α))
    (rows : List (List (Cell α))) :
    Dressed d (s.addTable style header rows) (t.addTable style header rows) := by
  unfold Layout.addTable
  simp only [tableStart, h.availableWidth, h.left]
  refine lower ?_ style.spacing
  refine foldl (f := Layout.addBodyRow style header _ _) (fun _ _ h row => h.addBodyRow ..) ?_ rows
  split
  · exact h
  · exact (h.ensureSpace _).addRow ..

/-! ## Paragraphs, lists and titles -/

theorem keepTogether (h : Dressed d s t) (flow : TextFlow α) (children : List (Node α)) :
    Dressed d (s.keepTogether flow children) (t.keepTogether flow children) := by
  unfold Layout.keepTogether
  split
  · simp only [h.availableWidth, h.geometry]
    split
    · exact h.ensureSpace _
    · exact h
  · exact h

theorem openParagraph (h : Dressed d s t) (style : BlockStyle α) (flow : TextFlow α)
    (children : List (Node α)) :
    Dressed d (s.openParagraph style flow children) (t.openParagraph style flow children) := by
  have hspace : Dressed d (if s.page.hasContent then s.lower style.spacingBefore else s)
      (if t.page.hasContent then t.lower style.spacingBefore else t) := by
    rw [h.hasContent]
    split
    · exact h.lower _
    · exact h
  have hindent := hspace.indent (· + style.indent)
  unfold Layout.openParagraph
  simp only
  split
  · exact hindent.keepTogether flow children
  · exact hindent

theorem closeParagraph (h : Dressed d s t) (style : BlockStyle α) :
    Dressed d (s.closeParagraph style) (t.closeParagraph style) :=
  (h.indent (· - style.indent)).lower style.spacingAfter

theorem drawLabel (h : Dressed d s t) (style : ListStyle α) (index : Nat) :
    (t.drawLabel style index).1 = (s.drawLabel style index).1 ∧
      Dressed d (s.drawLabel style index).2 (t.drawLabel style index).2 := by
  have hspace := h.ensureSpace ((labelFont style).size * lineHeightFactor)
  unfold Layout.drawLabel
  simp only [hspace.cursor, hspace.left, hspace.number]
  exact ⟨trivial, hspace.onPage (Canvas.onTop_text ..)⟩

theorem closeItem (h : Dressed d s t) (label : LabelPlace α) :
    Dressed d (s.closeItem label) (t.closeItem label) := by
  unfold Layout.closeItem
  rw [h.number, h.cursor]
  refine markContent ?_
  split
  · exact h.moveTo _
  · exact h

theorem addTitle (h : Dressed d s t) (label : String) (title : Node α) (fallback : Font α) :
    Dressed d (s.addTitle label title fallback) (t.addTitle label title fallback) :=
  (h.flowInline _ _).lower _

theorem openChapter (h : Dressed d s t) (number : Nat) (title : Node α) :
    Dressed d (s.openChapter number title) (t.openChapter number title) := by
  unfold Layout.openChapter
  rw [h.hasContent]
  refine addTitle ?_ ..
  split
  · exact h.breakPage
  · exact h

end Dressed

end Layout

/-! ## Blocks within blocks -/

open Layout

variable {d : Dress α}

theorem related_indented (width : α) {act : FlowM α Unit} (h : Related (Dressed d) act) :
    Related (Dressed d) (indented width act) := by
  intro s t hst
  obtain ⟨hresult, hafter⟩ := h _ _ (hst.indent (· + width))
  exact ⟨hresult, hafter.indent (· - width)⟩

mutual

theorem addBlock_related : (n : Node α) → Related (Dressed d) (addBlock n)
  | .paragraph style children => by
    unfold addBlock
    refine related_bind (related_modify fun s t h => h.openParagraph ..) fun _ => ?_
    refine related_bind (addMixed_related _ _ children) fun _ => ?_
    exact related_modify fun s t h => h.closeParagraph style
  | .list style items => by
    unfold addBlock
    exact addItems_related style 1 items
  | .table style header rows | .gridTable style header rows => by
    unfold addBlock
    exact related_modify fun s t h => h.addTable style header rows
  | .cell c | .gridCell c => by
    unfold addBlock
    exact addCell_related c
  | .image image => by
    unfold addBlock
    exact related_modify fun s t h => h.addImage image
  | .chart drawable | .vectorGraphic drawable => by
    unfold addBlock
    exact fun s t h => h.addDrawable drawable
  | .chapter number title children => by
    unfold addBlock
    exact related_bind (related_modify fun s t h => h.openChapter number title) fun _ =>
      addBlocks_related children
  | .subsection number indent title children => by
    unfold addBlock
    exact related_bind (related_modify fun s t h => h.addTitle _ title _) fun _ =>
      related_indented indent (addBlocks_related children)
  | .note title text => by
    unfold addBlock
    exact related_modify fun s t h => h.addNote title text
  | .rule r => by
    unfold addBlock
    exact related_modify fun s t h => h.addRule r
  | .spacer lines leading => by
    unfold addBlock
    exact related_modify fun s t h => h.addSpacer lines leading
  | .rectangle r => by
    unfold addBlock
    exact related_modify fun s t h => h.addRectangle r
  | .reference _ target => by
    unfold addBlock
    exact addBlock_related target
  | .text run => by
    unfold addBlock
    exact related_modify fun s t h => h.flowInline _ _
  | .subscript run => by
    unfold addBlock
    exact related_modify fun s t h => h.flowInline _ _
  | .superscript run => by
    unfold addBlock
    exact related_modify fun s t h => h.flowInline _ _
  | .phrase style children => by
    unfold addBlock
    exact related_modify fun s t h => h.flowInline _ _
  | .anchor ends shape content => by
    unfold addBlock
    exact related_modify fun s t h => h.flowInline _ _

theorem addBlocks_related : (ns : List (Node α)) → Related (Dressed d) (addBlocks ns)
  | [] => by
    unfold addBlocks
    exact related_pure ()
  | n :: ns => by
    unfold addBlocks
    exact related_bind (addBlock_related n) fun _ => addBlocks_related ns

theorem addCell_related : (c : Cell α) → Related (Dressed d) (addCell c)
  | .mk _ content => by
    unfold addCell
    exact addBlock_related content

theorem addMixed_related (flow : TextFlow α) (run : InlineRun α) :
    (ns : List (Node α)) → Related (Dressed d) (addMixed flow run ns)
  | [] => by
    unfold addMixed
    exact related_modify fun s t h => h.flowInline run flow
  | n :: ns => by
    unfold addMixed
    split
    · exact addMixed_related flow _ ns
    · exact related_bind (related_modify fun s t h => h.flowInline run flow) fun _ =>
        related_bind (addBlock_related n) fun _ => addMixed_related flow .empty ns

theorem addItem_related : (item : ListItem α) → Related (Dressed d) (addItem item)
  | .chunk n | .phrase n => by
    unfold addItem
    exact addBlock_related n

theorem addItems_related (style : ListStyle α) (index : Nat) :
    (items : List (ListItem α)) → Related (Dressed d) (addItems style index items)
  | [] => by
    unfold addItems
    exact related_pure ()
  | item :: rest => by
    unfold addItems
    refine related_bind (related_modifyGet fun s t h => h.drawLabel style index) fun label => ?_
    refine related_bind (related_indented _ (addItem_related item)) fun _ => ?_
    exact related_bind (related_modify fun s t h => h.closeItem label) fun _ =>
      addItems_related style (index + 1) rest

end

/-! ## Calls -/

theorem requireOpen_related : Related (Dressed d) (requireOpen : FlowM α Unit) := by
  intro s t h
  rw [run_requireOpen, run_requireOpen, h.phase]
  exact ⟨rfl, h⟩

/-- Adding a node comes to the same with dress and without. -/
theorem add_related (n : Node α) : Related (Dressed d) (add n) :=
  related_bind requireOpen_related fun _ => addBlock_related n

theorem newPage_related : Related (Dressed d) (newPage : FlowM α Bool) := by
  refine related_bind requireOpen_related fun _ => related_get_bind fun s t h => ?_
  rw [h.hasContent]
  split
  · exact ⟨rfl, h.breakPage⟩
  · exact ⟨rfl, h⟩

end Folio.Flow
