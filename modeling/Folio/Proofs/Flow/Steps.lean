import Folio.Flow.Engine
import Folio.Proofs.Run
import Mathlib.Logic.Relation

/-!
# What adding a node does to the pages

Adding a node is a row of small steps, whatever the node is and whether it succeeds or fails: the
cursor and the inset move, something is painted on the page, content is drawn and the page counts as
used from then on, or the page is turned. A page is turned only when it is used. Destinations are
recorded while content is drawn, before the page counts as used.
-/
namespace Folio.Flow

open Style Pdf

variable {α : Type} [Scalar α]

/-- One stroke on a page; none of them touches the page's number or its mark of use. -/
inductive Paints : Canvas α → Canvas α → Prop
  | text (c : Canvas α) (text : String) (font : Font α) (x y : α) : Paints c (c.text text font x y)
  | fillBox (c : Canvas α) (x y width height : α) (color : Color) :
      Paints c (c.fillBox x y width height color)
  | strokeBox (c : Canvas α) (x y width height : α) (color : Color) (lineWidth : α) :
      Paints c (c.strokeBox x y width height color lineWidth)
  | line (c : Canvas α) (start finish : α × α) (width : α) (color : Color)
      (dash : Option (α × α)) : Paints c (c.line start finish width color dash)
  | link (c : Canvas α) (link : Link α) : Paints c (c.addLink link)
  | note (c : Canvas α) (note : Note α) : Paints c (c.addNote note)
  | image (c : Canvas α) (image : EmbeddedImage) (b : Layout.Box α) :
      Paints c ((c.addImage image).2.draw (Layout.imageOperations (c.addImage image).1 b))
  | drawing (c : Canvas α) (x y : α) (content : Bytes) (ops : List (Operation α))
      (h : decodeOperations? content = some ops) :
      Paints c (c.draw (Layout.drawingOperations x y ops))

theorem Paints.number {c d : Canvas α} (h : Paints c d) : d.number = c.number := by
  cases h <;> rfl

theorem Paints.hasContent {c d : Canvas α} (h : Paints c d) : d.hasContent = c.hasContent := by
  cases h <;> rfl

/-- Content on its way to the page that is open. -/
inductive Draws : Layout α → Layout α → Prop
  | paint (s : Layout α) {c : Canvas α} (h : Paints s.page c) : Draws s { s with page := c }
  | record (s : Layout α) (name : String) (x y : α) : Draws s (s.addDestination name x y)

abbrev DrawsOn (s t : Layout α) : Prop := Relation.ReflTransGen Draws s t

inductive Step : Layout α → Layout α → Prop
  | move (s : Layout α) (cursor inset : α) : Step s { s with cursor, inset }
  | paint (s : Layout α) {c : Canvas α} (h : Paints s.page c) : Step s { s with page := c }
  | fill {s t : Layout α} (h : DrawsOn s t) : Step s t.markContent
  | turn (s : Layout α) (h : s.page.hasContent = true) : Step s s.breakPage

abbrev Steps (s t : Layout α) : Prop := Relation.ReflTransGen Step s t

/-- Every run of `act` is a row of steps. -/
def Walks {β : Type} (act : FlowM α β) : Prop := ∀ s, Steps s (act.run s).2

namespace Layout

/-! ## Drawing on the open page -/

theorem onPage_drawsOn {s t : Layout α} (h : DrawsOn s t) {f : Canvas α → Canvas α}
    (hf : Paints t.page (f t.page)) : DrawsOn s (t.onPage f) := h.tail (.paint t hf)

/-- A run on a background is the run without it on a page where the box is filled. -/
theorem drawRun_of_background {style : RunStyle α} {color : Color}
    (h : style.background = some color) (s : Layout α) (text : String) (x baseline width : α) :
    s.drawRun style text x baseline width =
      (s.onPage fun c => c.fillBox x (baseline - style.font.size * descent) width
        (style.font.size * lineHeightFactor) color).drawRun { style with background := none } text x
          baseline width := by
  unfold drawRun
  rw [h]

theorem drawRun_drawsOn_of_none {style : RunStyle α} (h : style.background = none) {s t : Layout α}
    (ht : DrawsOn s t) (text : String) (x baseline width : α) :
    DrawsOn s (t.drawRun style text x baseline width) := by
  have htext := onPage_drawsOn ht
    (f := fun c => c.text text style.font x (baseline + style.rise)) (.text ..)
  unfold drawRun
  simp only [h]
  split
  · refine onPage_drawsOn ?_ (.link ..)
    split
    · exact onPage_drawsOn htext (.line ..)
    · exact onPage_drawsOn htext (.line ..)
    · exact htext
  · split
    · exact onPage_drawsOn htext (.line ..)
    · exact onPage_drawsOn htext (.line ..)
    · exact htext

theorem drawRun_drawsOn (s : Layout α) (style : RunStyle α) (text : String) (x baseline width : α) :
    DrawsOn s (s.drawRun style text x baseline width) := by
  cases hbackground : style.background with
  | none => exact drawRun_drawsOn_of_none hbackground .refl text x baseline width
  | some color =>
    rw [drawRun_of_background hbackground]
    exact drawRun_drawsOn_of_none rfl (onPage_drawsOn .refl (.fillBox ..)) text x baseline width

theorem drawPiece_drawsOn (s : Layout α) (run : InlineRun α) (top baseline : α) (p : Piece α) :
    DrawsOn s (s.drawPiece run top baseline p) := by
  cases p with
  | mark name x => exact .single (.record s name x top)
  | text style text x width => exact s.drawRun_drawsOn ..

/-- A fold of drawings is a drawing. -/
theorem foldl_drawsOn {β : Type} {f : Layout α → β → Layout α} (h : ∀ s b, DrawsOn s (f s b))
    (bs : List β) (s : Layout α) : DrawsOn s (bs.foldl f s) := by
  induction bs generalizing s with
  | nil => exact .refl
  | cons b bs ih => exact (h s b).trans (ih (f s b))

theorem drawLine_drawsOn (s : Layout α) (run : InlineRun α) (line : LineBox α) (x0 width top : α)
    (align : TextAlign) : DrawsOn s (s.drawLine run line x0 width top align) :=
  foldl_drawsOn (fun s p => s.drawPiece_drawsOn run _ _ p) _ s

theorem drawLines_drawsOn (run : InlineRun α) (x width : α) (align : TextAlign) (s : Layout α)
    (top : α) (lines : List (LineBox α)) : DrawsOn s (drawLines run x width align s top lines) := by
  induction lines generalizing s top with
  | nil => exact .refl
  | cons line lines ih => exact (s.drawLine_drawsOn run line x width top align).trans (ih _ _)

theorem drawCell_drawsOn (style : TableStyle α) (top height : α) (s : Layout α) (p : Placed α) :
    DrawsOn s (drawCell style top height s p) := by
  unfold drawCell
  refine .trans ?_ (drawLines_drawsOn ..)
  split
  · refine onPage_drawsOn ?_ (.strokeBox ..)
    split
    · exact onPage_drawsOn .refl (.fillBox ..)
    · exact .refl
  · split
    · exact onPage_drawsOn .refl (.fillBox ..)
    · exact .refl

theorem placeRaster_drawsOn (s : Layout α) (data : Bytes) (format : String)
    (pixels : Option (Nat × Nat)) (b : Box α) : DrawsOn s (s.placeRaster data format pixels b) := by
  unfold placeRaster
  split
  · exact onPage_drawsOn .refl (.image ..)
  · have hframe := onPage_drawsOn (.refl : DrawsOn s s)
      (f := fun c => c.strokeBox b.x b.y b.width b.height frameColor 0.5) (.strokeBox ..)
    have hrising := onPage_drawsOn hframe
      (f := fun c => c.line (b.x, b.y) (b.x + b.width, b.y + b.height) 0.5 frameColor none)
      (.line ..)
    exact onPage_drawsOn hrising
      (f := fun c => c.line (b.x, b.y + b.height) (b.x + b.width, b.y) 0.5 frameColor none)
      (.line ..)

/-! ## Steps -/

theorem move_steps (s : Layout α) (cursor inset : α) : Steps s { s with cursor, inset } :=
  .single (.move s cursor inset)

theorem lower_steps (s : Layout α) (height : α) : Steps s (s.lower height) :=
  s.move_steps (s.cursor - height) s.inset

theorem markContent_steps (s : Layout α) : Steps s s.markContent := .single (.fill .refl)

/-- Content is drawn, the page counts as used, and the cursor goes below it. -/
theorem fill_steps {s t : Layout α} (h : DrawsOn s t) (cursor : α) :
    Steps s { t with cursor }.markContent :=
  .head (.fill h) (t.markContent.move_steps cursor t.inset)

theorem breakPage_steps (s : Layout α) (h : s.page.hasContent = true) : Steps s s.breakPage :=
  .single (.turn s h)

theorem used_of_mustBreak {s : Layout α} {needed : α} (h : s.mustBreak needed = true) :
    s.page.hasContent = true := by
  simp only [mustBreak, Bool.and_eq_true] at h
  exact h.2

theorem ensureSpace_steps (s : Layout α) (needed : α) : Steps s (s.ensureSpace needed) := by
  unfold ensureSpace
  split
  · next h => exact s.breakPage_steps (used_of_mustBreak h)
  · exact .refl

/-- A fold of rows of steps is one. -/
theorem foldl_steps {β : Type} {f : Layout α → β → Layout α} (h : ∀ s b, Steps s (f s b))
    (bs : List β) (s : Layout α) : Steps s (bs.foldl f s) := by
  induction bs generalizing s with
  | nil => exact .refl
  | cons b bs ih => exact (h s b).trans (ih (f s b))

theorem flowLine_steps (run : InlineRun α) (width : α) (flow : TextFlow α) (s : Layout α)
    (line : LineBox α × Nat) : Steps s (flowLine run width flow s line) :=
  (s.ensureSpace_steps line.1.height).trans (fill_steps (drawLine_drawsOn ..) _)

theorem flowInline_steps (s : Layout α) (run : InlineRun α) (flow : TextFlow α) :
    Steps s (s.flowInline run flow) := by
  unfold flowInline
  split
  · exact .refl
  · exact foldl_steps (flowLine_steps run s.availableWidth flow) _ s

theorem placeBlock_steps {s t : Layout α} (h : Steps s t) (height : α)
    {f : Layout α → Layout α} (hdraw : DrawsOn t (f t)) :
    Steps s (t.placeBlock height f) :=
  h.trans (fill_steps hdraw _)

theorem addImage_steps (s : Layout α) (image : Image α) : Steps s (s.addImage image) := by
  unfold addImage
  refine placeBlock_steps (s.ensureSpace_steps image.height) _ ?_
  exact placeRaster_drawsOn ..

theorem addDrawable_steps (s : Layout α) (d : Drawable α) : Steps s (s.addDrawable d).2 := by
  have hspace := s.ensureSpace_steps d.height
  unfold addDrawable
  simp only
  split
  · split
    · next h =>
      refine placeBlock_steps (f := fun s => s.onPage _) hspace d.height ?_
      exact onPage_drawsOn (f := fun c => c.draw _) .refl (.drawing _ _ _ _ _ h)
    · exact hspace
  · refine placeBlock_steps (f := fun s => s.placeRaster _ _ none _) hspace d.height ?_
    exact placeRaster_drawsOn ..

theorem addRule_steps (s : Layout α) (r : Rule α) : Steps s (s.addRule r) := by
  unfold addRule
  refine placeBlock_steps (s.ensureSpace_steps _) _ ?_
  exact onPage_drawsOn .refl (.line ..)

theorem addSpacer_steps (s : Layout α) (lines : Nat) (leading : α) :
    Steps s (s.addSpacer lines leading) := by
  refine .trans (b := if s.mustBreak ((lines : α) * leading) then s.breakPage
    else s.lower ((lines : α) * leading)) ?_ (markContent_steps _)
  split
  · next h => exact s.breakPage_steps (used_of_mustBreak h)
  · exact s.lower_steps _

theorem addRectangle_steps (s : Layout α) (r : Rectangle α) : Steps s (s.addRectangle r) := by
  unfold addRectangle
  refine placeBlock_steps (s.ensureSpace_steps _) _ ?_
  refine onPage_drawsOn ?_ (.strokeBox ..)
  split
  · exact onPage_drawsOn .refl (.fillBox ..)
  · exact .refl

theorem addNote_steps (s : Layout α) (title text : String) : Steps s (s.addNote title text) :=
  .single (.fill (onPage_drawsOn .refl (.note ..)))

theorem addRow_steps (style : TableStyle α) (x0 : α) (widths : List α) (s : Layout α)
    (cells : List (Cell α)) : Steps s (addRow style x0 widths s cells) :=
  fill_steps (foldl_drawsOn (fun s p => drawCell_drawsOn style _ _ s p) _ s) _

theorem addBodyRow_steps (style : TableStyle α) (header : List (Cell α)) (x0 : α) (widths : List α)
    (s : Layout α) (row : List (Cell α)) : Steps s (addBodyRow style header x0 widths s row) := by
  refine .trans ?_ (addRow_steps style x0 widths _ row)
  split
  · next h =>
    refine (s.breakPage_steps (used_of_mustBreak h)).trans ?_
    split
    · exact .refl
    · exact addRow_steps ..
  · exact .refl

theorem addTable_steps (s : Layout α) (style : TableStyle α) (header : List (Cell α))
    (rows : List (List (Cell α))) : Steps s (s.addTable style header rows) := by
  refine .trans ?_ (lower_steps _ style.spacing)
  refine .trans ?_ (foldl_steps (addBodyRow_steps style header _ _) rows _)
  split
  · exact .refl
  · exact (s.ensureSpace_steps _).trans (addRow_steps ..)

theorem keepTogether_steps (s : Layout α) (flow : TextFlow α) (children : List (Node α)) :
    Steps s (s.keepTogether flow children) := by
  unfold keepTogether
  split
  · simp only
    split
    · exact s.ensureSpace_steps _
    · exact .refl
  · exact .refl

theorem openParagraph_steps (s : Layout α) (style : BlockStyle α) (flow : TextFlow α)
    (children : List (Node α)) : Steps s (s.openParagraph style flow children) := by
  have hspace : Steps s (if s.page.hasContent then s.lower style.spacingBefore else s) := by
    split
    · exact s.lower_steps _
    · exact .refl
  have hindent (s : Layout α) : Steps s { s with inset := s.inset + style.indent } :=
    s.move_steps s.cursor (s.inset + style.indent)
  unfold openParagraph
  simp only
  split
  · exact (hspace.trans (hindent _)).trans (keepTogether_steps ..)
  · exact hspace.trans (hindent _)

theorem closeParagraph_steps (s : Layout α) (style : BlockStyle α) :
    Steps s (s.closeParagraph style) :=
  s.move_steps (s.cursor - style.spacingAfter) (s.inset - style.indent)

theorem drawLabel_steps (s : Layout α) (style : ListStyle α) (index : Nat) :
    Steps s (s.drawLabel style index).2 :=
  (s.ensureSpace_steps _).tail (.paint _ (.text ..))

theorem closeItem_steps (s : Layout α) (label : LabelPlace α) : Steps s (s.closeItem label) := by
  refine .trans ?_ (markContent_steps _)
  split
  · exact s.move_steps label.foot s.inset
  · exact .refl

theorem addTitle_steps (s : Layout α) (label : String) (title : Node α) (fallback : Font α) :
    Steps s (s.addTitle label title fallback) :=
  (s.flowInline_steps _ _).trans (lower_steps _ _)

theorem openChapter_steps (s : Layout α) (number : Nat) (title : Node α) :
    Steps s (s.openChapter number title) := by
  refine .trans ?_ (addTitle_steps _ _ title chapterFont)
  split
  · next h => exact s.breakPage_steps h
  · exact .refl

end Layout

/-! ## Blocks within blocks -/

open Layout

theorem walks_pure {β : Type} (b : β) : Walks (pure b : FlowM α β) := fun _ => .refl

theorem walks_modify {f : Layout α → Layout α} (h : ∀ s, Steps s (f s)) :
    Walks (modify f : FlowM α PUnit) := h

theorem walks_modifyGet {β : Type} {f : Layout α → β × Layout α} (h : ∀ s, Steps s (f s).2) :
    Walks (modifyGet f : FlowM α β) := h

theorem walks_bind {β γ : Type} {act : FlowM α β} {next : β → FlowM α γ} (h : Walks act)
    (hnext : ∀ b, Walks (next b)) : Walks (act >>= next) := by
  intro s
  have hs := h s
  rw [run_bind]
  rcases hr : act.run s with ⟨r, t⟩
  rw [hr] at hs
  cases r with
  | error e => exact hs
  | ok b => exact hs.trans (hnext b t)

theorem walks_indented (width : α) {act : FlowM α Unit} (h : Walks act) :
    Walks (indented width act) := by
  intro s
  refine (s.move_steps s.cursor (s.inset + width)).trans ?_
  exact (h _).trans (move_steps _ _ (_ - width))

mutual

theorem addBlock_walks : (n : Node α) → Walks (addBlock n)
  | .paragraph style children => by
    unfold addBlock
    refine walks_bind (walks_modify fun s => s.openParagraph_steps ..) fun _ => ?_
    refine walks_bind (addMixed_walks _ _ children) fun _ => ?_
    exact walks_modify fun s => s.closeParagraph_steps style
  | .list style items => by
    unfold addBlock
    exact addItems_walks style 1 items
  | .table style header rows | .gridTable style header rows => by
    unfold addBlock
    exact walks_modify fun s => s.addTable_steps style header rows
  | .cell c | .gridCell c => by
    unfold addBlock
    exact addCell_walks c
  | .image image => by
    unfold addBlock
    exact walks_modify fun s => s.addImage_steps image
  | .chart d | .vectorGraphic d => by
    unfold addBlock
    exact fun s => s.addDrawable_steps d
  | .chapter number title children => by
    unfold addBlock
    exact walks_bind (walks_modify fun s => s.openChapter_steps number title) fun _ =>
      addBlocks_walks children
  | .subsection number indent title children => by
    unfold addBlock
    exact walks_bind (walks_modify fun s => s.addTitle_steps _ title _) fun _ =>
      walks_indented indent (addBlocks_walks children)
  | .note title text => by
    unfold addBlock
    exact walks_modify fun s => s.addNote_steps title text
  | .rule r => by
    unfold addBlock
    exact walks_modify fun s => s.addRule_steps r
  | .spacer lines leading => by
    unfold addBlock
    exact walks_modify fun s => s.addSpacer_steps lines leading
  | .rectangle r => by
    unfold addBlock
    exact walks_modify fun s => s.addRectangle_steps r
  | .reference _ target => by
    unfold addBlock
    exact addBlock_walks target
  | .text run => by
    unfold addBlock
    exact walks_modify fun s => s.flowInline_steps _ _
  | .subscript run => by
    unfold addBlock
    exact walks_modify fun s => s.flowInline_steps _ _
  | .superscript run => by
    unfold addBlock
    exact walks_modify fun s => s.flowInline_steps _ _
  | .phrase style children => by
    unfold addBlock
    exact walks_modify fun s => s.flowInline_steps _ _
  | .anchor ends shape content => by
    unfold addBlock
    exact walks_modify fun s => s.flowInline_steps _ _

theorem addBlocks_walks : (ns : List (Node α)) → Walks (addBlocks ns)
  | [] => by
    unfold addBlocks
    exact walks_pure ()
  | n :: ns => by
    unfold addBlocks
    exact walks_bind (addBlock_walks n) fun _ => addBlocks_walks ns

theorem addCell_walks : (c : Cell α) → Walks (addCell c)
  | .mk _ content => by
    unfold addCell
    exact addBlock_walks content

theorem addMixed_walks (flow : TextFlow α) (run : InlineRun α) :
    (ns : List (Node α)) → Walks (addMixed flow run ns)
  | [] => by
    unfold addMixed
    exact walks_modify fun s => s.flowInline_steps run flow
  | n :: ns => by
    unfold addMixed
    split
    · exact addMixed_walks flow _ ns
    · exact walks_bind (walks_modify fun s => s.flowInline_steps run flow) fun _ =>
        walks_bind (addBlock_walks n) fun _ => addMixed_walks flow .empty ns

theorem addItem_walks : (item : ListItem α) → Walks (addItem item)
  | .chunk n | .phrase n => by
    unfold addItem
    exact addBlock_walks n

theorem addItems_walks (style : ListStyle α) (index : Nat) :
    (items : List (ListItem α)) → Walks (addItems style index items)
  | [] => by
    unfold addItems
    exact walks_pure ()
  | item :: rest => by
    unfold addItems
    refine walks_bind (walks_modifyGet fun s => s.drawLabel_steps style index) fun label => ?_
    refine walks_bind (walks_indented _ (addItem_walks item)) fun _ => ?_
    exact walks_bind (walks_modify fun s => s.closeItem_steps label) fun _ =>
      addItems_walks style (index + 1) rest

end

/-! ## Calls -/

omit [Scalar α] in
theorem run_requireOpen (s : Layout α) :
    (requireOpen.run s : Except EngineError Unit × Layout α) = (match s.phase with
      | .opened => .ok ()
      | .configuring => .error (.outOfOrder .notOpen)
      | .closed => .error (.outOfOrder .alreadyClosed), s) := by
  unfold requireOpen
  rw [run_bind]
  cases h : s.phase <;> simp [h]

theorem run_add {s : Layout α} (h : s.phase = .opened) (n : Node α) :
    (add n).run s = (addBlock n).run s := by
  unfold add
  rw [run_bind, run_requireOpen, h]

/-! ## What the steps leave alone -/

/-- The settings of a document, which only the calls that set them change. -/
structure SameSetting (s t : Layout α) : Prop where
  geometry : t.geometry = s.geometry
  info : t.info = s.info
  footer : t.footer = s.footer
  header : t.header = s.header
  events : t.events = s.events
  phase : t.phase = s.phase

omit [Scalar α] in
theorem SameSetting.refl (s : Layout α) : SameSetting s s := ⟨rfl, rfl, rfl, rfl, rfl, rfl⟩

omit [Scalar α] in
theorem SameSetting.trans {s t u : Layout α} (h : SameSetting s t) (k : SameSetting t u) :
    SameSetting s u :=
  ⟨k.geometry.trans h.geometry, k.info.trans h.info, k.footer.trans h.footer,
    k.header.trans h.header, k.events.trans h.events, k.phase.trans h.phase⟩

theorem startPage_sameSetting (s : Layout α) (number : Nat) :
    SameSetting s (s.startPage number) := by
  unfold startPage
  simp only
  split <;> exact ⟨rfl, rfl, rfl, rfl, rfl, rfl⟩

theorem breakPage_sameSetting (s : Layout α) : SameSetting s s.breakPage :=
  .trans (t := s.finishPage) ⟨rfl, rfl, rfl, rfl, rfl, rfl⟩ (startPage_sameSetting ..)

theorem drawsOn_sameSetting {s t : Layout α} (h : DrawsOn s t) : SameSetting s t := by
  induction h with
  | refl => exact .refl s
  | tail _ hd ih =>
    refine ih.trans ?_
    cases hd <;> exact ⟨rfl, rfl, rfl, rfl, rfl, rfl⟩

theorem steps_sameSetting {s t : Layout α} (h : Steps s t) : SameSetting s t := by
  induction h with
  | refl => exact .refl s
  | tail _ hstep ih =>
    refine ih.trans ?_
    cases hstep with
    | move cursor inset => exact ⟨rfl, rfl, rfl, rfl, rfl, rfl⟩
    | paint hp => exact ⟨rfl, rfl, rfl, rfl, rfl, rfl⟩
    | fill hd => exact (drawsOn_sameSetting hd).trans ⟨rfl, rfl, rfl, rfl, rfl, rfl⟩
    | turn hu => exact breakPage_sameSetting _

end Folio.Flow
