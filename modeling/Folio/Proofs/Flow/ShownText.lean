import Folio.Proofs.Flow.Ink
import Folio.Proofs.Flow.Steps

/-!
# The text that is shown

Layout shows the text of what it is given, blanks aside, once and in order, over as many pages as it
takes. What it draws itself is kept apart from what a page gets when it is finished: a layout is
followed stroke by stroke, and every stroke either draws on the open page or turns it.
-/
namespace Folio.Flow

open Style Pdf Text

variable {α : Type}

/-! ## Shown bytes -/

def stringBytes : Obj α → Bytes
  | .string _ bytes => bytes
  | _ => []

/-- The bytes of all strings that operations show, in order. -/
def shown (ops : List (Operation α)) : Bytes :=
  (ops.filter (·.operator == "Tj")).flatMap fun op => op.operands.flatMap stringBytes

@[simp] theorem shown_nil : shown ([] : List (Operation α)) = [] := rfl

@[simp] theorem shown_append (ops more : List (Operation α)) :
    shown (ops ++ more) = shown ops ++ shown more := by
  simp [shown]

@[simp] theorem shown_cons (op : Operation α) (ops : List (Operation α)) :
    shown (op :: ops) =
      (if op.operator = "Tj" then op.operands.flatMap stringBytes else []) ++ shown ops := by
  by_cases h : op.operator = "Tj" <;> simp [shown, h]

variable [Scalar α]

/-- Is drawing by `f` without text? -/
def Silent (f : Canvas α → Canvas α) : Prop :=
  ∀ c, (f c).number = c.number ∧
    ∃ ops, (f c).operations = c.operations ++ ops ∧ shown ops = []

omit [Scalar α] in
theorem silent_draw {ops : List (Operation α)} (h : shown ops = []) :
    Silent fun c => c.draw ops := fun _ => ⟨rfl, ops, rfl, h⟩

omit [Scalar α] in
theorem silent_addLink (link : Link α) : Silent fun c => c.addLink link :=
  fun c => ⟨rfl, [], (List.append_nil c.operations).symm, rfl⟩

theorem silent_fillBox (x y width height : α) (color : Color) :
    Silent fun c => c.fillBox x y width height color :=
  silent_draw (by simp [saveState, restoreState, operation])

theorem silent_strokeBox (x y width height : α) (color : Color) (lineWidth : α) :
    Silent fun c => c.strokeBox x y width height color lineWidth :=
  silent_draw (by simp [saveState, restoreState, operation])

theorem silent_line (start finish : α × α) (width : α) (color : Color) (dash : Option (α × α)) :
    Silent fun c => c.line start finish width color dash :=
  silent_draw (by cases dash <;>
    simp [lineOperations, dashOperations, saveState, restoreState, operation])

omit [Scalar α] in
theorem silent_image (image : EmbeddedImage) (b : Layout.Box α) :
    Silent fun c => (c.addImage image).2.draw (Layout.imageOperations (c.addImage image).1 b) :=
  fun _ => ⟨rfl, _, rfl, by simp [Layout.imageOperations, saveState, restoreState, operation]⟩

omit [Scalar α] in
theorem shown_textOperations (text baseFont : String) (size x y : α) (color : Rgb α) :
    shown (textOperations text baseFont size x y color) = encodeLatin1 text := by
  simp [textOperations, operation, Obj.textOf, stringBytes]

/-! ## Pages -/

/-- What is drawn over page `number` when it is finished. -/
def furnitureOn (s : Layout α) (number : Nat) : List (Operation α) :=
  let overlay := { s with page := .blank number }.furniture
  if overlay.isEmpty then [] else overlay.wrapped

theorem SameSetting.furnitureOn_eq {s t : Layout α} (h : SameSetting s t) :
    furnitureOn t = furnitureOn s := by
  funext number
  have hoverlay : { t with page := .blank number }.furniture =
      { s with page := .blank number }.furniture := by
    unfold Layout.furniture
    simp only [h.footer, h.events, h.geometry]
  simp only [furnitureOn, hoverlay]

/-- Pages that have been drawn on and finished, from the page with a number and operations on it. -/
def finishedPages (furniture : Nat → List (Operation α)) :
    Nat → List (Operation α) → List (List (Operation α)) → List (List (Operation α))
  | _, _, [] => []
  | number, base, part :: parts =>
    (base ++ part ++ furniture number) :: finishedPages furniture (number + 1) [] parts

/-- The page that is open behind them. -/
def openPage (base : List (Operation α)) (parts : List (List (Operation α)))
    (last : List (Operation α)) : List (Operation α) :=
  if parts.isEmpty then base ++ last else last

omit [Scalar α] in
theorem finishedPages_concat (furniture : Nat → List (Operation α))
    (parts : List (List (Operation α))) (last : List (Operation α)) :
    ∀ (number : Nat) (base : List (Operation α)),
      finishedPages furniture number base (parts ++ [last]) =
        finishedPages furniture number base parts ++
          [openPage base parts last ++ furniture (number + parts.length)] := by
  induction parts with
  | nil =>
    intro number base
    simp [finishedPages, openPage]
  | cons part parts ih =>
    intro number base
    have hnumber : number + 1 + parts.length = number + (parts.length + 1) := by omega
    have hopen : openPage base (part :: parts) last = openPage [] parts last := by
      cases parts <;> simp [openPage]
    simp only [List.cons_append, finishedPages, ih, hopen, hnumber, List.length_cons]

omit [Scalar α] in
theorem operations_cover (c : Canvas α) (o : Overlay α) :
    (c.cover o).operations = c.operations ++ if o.isEmpty then [] else o.wrapped := by
  have hfonts (names : List String) : ∀ c : Canvas α,
      (names.foldl Canvas.useFont c).operations = c.operations := by
    induction names with
    | nil => exact fun c => rfl
    | cons name names ih => exact fun c => ih (c.useFont name)
  unfold Canvas.cover
  split
  · simp
  · rw [hfonts]
    rfl

/-! ## Strokes -/

/-- One stroke of a layout with the ink that it leaves. -/
inductive Stroke : Layout α → Bytes → Layout α → Prop
  | draw {s t : Layout α} {ops : List (Operation α)} (setting : SameSetting s t)
      (finished : t.finished = s.finished) (number : t.page.number = s.page.number)
      (operations : t.page.operations = s.page.operations ++ ops) : Stroke s (dark (shown ops)) t
  | turn (s : Layout α) : Stroke s [] s.breakPage

/-- A row of strokes with all ink that it leaves. -/
inductive Shows (s : Layout α) : Bytes → Layout α → Prop
  | refl : Shows s [] s
  | tail {bytes more : Bytes} {t u : Layout α} (h : Shows s bytes t) (k : Stroke t more u) :
      Shows s (bytes ++ more) u

theorem Shows.trans {s t u : Layout α} {bytes more : Bytes} (h : Shows s bytes t)
    (k : Shows t more u) : Shows s (bytes ++ more) u := by
  induction k with
  | refl => simpa using h
  | tail _ hstroke ih =>
    rw [← List.append_assoc]
    exact ih.tail hstroke

/-- Where a row of strokes has drawn what. -/
structure Spread (s t : Layout α) (parts : List (List (Operation α)))
    (last : List (Operation α)) : Prop where
  setting : SameSetting s t
  number : t.page.number = s.page.number + parts.length
  finished : t.finished.map (·.operations) = s.finished.map (·.operations) ++
    finishedPages (furnitureOn s) s.page.number s.page.operations parts
  opened : t.page.operations = openPage s.page.operations parts last

theorem operations_breakPage {s : Layout α} (h : s.header = none) :
    s.breakPage.page.operations = [] := by
  have hheader : s.finishPage.header = none := h
  simp [Layout.breakPage, Layout.startPage, hheader, Canvas.blank]

theorem finished_breakPage (s : Layout α) : s.breakPage.finished.map (·.operations) =
    s.finished.map (·.operations) ++ [s.page.operations ++ furnitureOn s s.page.number] := by
  have hstart : s.breakPage.finished = s.finishPage.finished := by
    unfold Layout.breakPage Layout.startPage
    simp only
    split <;> rfl
  have hcover : (s.page.cover s.furniture).operations =
      s.page.operations ++ furnitureOn s s.page.number := operations_cover ..
  rw [hstart]
  simp [Layout.finishPage, hcover]

theorem number_breakPage (s : Layout α) : s.breakPage.page.number = s.page.number + 1 := by
  unfold Layout.breakPage Layout.startPage
  simp only
  split <;> rfl

theorem spread_of_shows {s t : Layout α} {bytes : Bytes} (h : Shows s bytes t)
    (hheader : s.header = none) :
    ∃ parts last, Spread s t parts last ∧ dark (shown (parts.flatten ++ last)) = bytes := by
  induction h with
  | refl =>
    refine ⟨[], [], ⟨.refl s, rfl, ?_, ?_⟩, rfl⟩
    · simp [finishedPages]
    · simp [openPage]
  | @tail bytes more t u _ hstroke ih =>
    obtain ⟨parts, last, hspread, hbytes⟩ := ih
    cases hstroke with
    | @draw _ ops setting finished number operations =>
      refine ⟨parts, last ++ ops, ⟨?_, ?_, ?_, ?_⟩, ?_⟩
      · exact hspread.setting.trans setting
      · rw [number, hspread.number]
      · rw [finished, hspread.finished]
      · rw [operations, hspread.opened]
        unfold openPage
        split <;> simp
      · rw [← hbytes, ← dark_append, ← shown_append, List.append_assoc]
    | turn =>
      refine ⟨parts ++ [last], [], ⟨?_, ?_, ?_, ?_⟩, ?_⟩
      · exact hspread.setting.trans (breakPage_sameSetting t)
      · rw [number_breakPage, hspread.number, List.length_append]
        rfl
      · rw [finished_breakPage, hspread.finished, hspread.opened, hspread.number,
          hspread.setting.furnitureOn_eq, finishedPages_concat, List.append_assoc]
      · rw [operations_breakPage (hspread.setting.header.trans hheader)]
        simp [openPage]
      · simpa using hbytes

/-! ## What drawing shows -/

namespace Shows

variable {s t : Layout α} {bytes : Bytes}

/-- Drawing that leaves the open page as it is. -/
theorem keep {u : Layout α} (h : Shows s bytes t) (setting : SameSetting t u)
    (finished : u.finished = t.finished) (page : u.page.number = t.page.number)
    (operations : u.page.operations = t.page.operations) : Shows s bytes u := by
  have hnone : u.page.operations = t.page.operations ++ [] := by simpa using operations
  simpa using h.tail (.draw setting finished page hnone)

theorem silent (h : Shows s bytes t) {f : Canvas α → Canvas α} (hf : Silent f) :
    Shows s bytes (t.onPage f) := by
  obtain ⟨hnumber, ops, hops, hshown⟩ := hf t.page
  have hstroke := h.tail (u := t.onPage f) (.draw ⟨rfl, rfl, rfl, rfl, rfl, rfl⟩ rfl hnumber hops)
  simpa [hshown] using hstroke

theorem text (h : Shows s bytes t) (text : String) (font : Font α) (x y : α) :
    Shows s (bytes ++ dark (encodeLatin1 text)) (t.onPage fun c => c.text text font x y) := by
  rw [← shown_textOperations text font.baseName font.size x y font.color.unit]
  exact h.tail (.draw ⟨rfl, rfl, rfl, rfl, rfl, rfl⟩ rfl rfl rfl)

theorem turn (h : Shows s bytes t) : Shows s bytes t.breakPage := by
  simpa using h.tail (.turn t)

theorem move (h : Shows s bytes t) (cursor inset : α) :
    Shows s bytes { t with cursor, inset } :=
  h.keep ⟨rfl, rfl, rfl, rfl, rfl, rfl⟩ rfl rfl rfl

theorem lower (h : Shows s bytes t) (height : α) : Shows s bytes (t.lower height) :=
  h.move (t.cursor - height) t.inset

theorem markContent (h : Shows s bytes t) : Shows s bytes t.markContent :=
  h.keep ⟨rfl, rfl, rfl, rfl, rfl, rfl⟩ rfl rfl rfl

theorem ensureSpace (h : Shows s bytes t) (needed : α) : Shows s bytes (t.ensureSpace needed) := by
  unfold Layout.ensureSpace
  split
  · exact h.turn
  · exact h

theorem placeBlock {f : Layout α → Layout α} (h : Shows s bytes (f t)) (height : α) :
    Shows s bytes (t.placeBlock height f) :=
  (h.lower height).markContent

theorem drawRun_of_none (h : Shows s bytes t) {style : RunStyle α}
    (hstyle : style.background = none) (text : String) (x baseline width : α) :
    Shows s (bytes ++ dark (encodeLatin1 text)) (t.drawRun style text x baseline width) := by
  have htext := h.text text style.font x (baseline + style.rise)
  unfold Layout.drawRun
  simp only [hstyle]
  split
  · refine silent ?_ (silent_addLink _)
    split
    · exact htext.silent (silent_line _ _ _ _ _)
    · exact htext.silent (silent_line _ _ _ _ _)
    · exact htext
  · split
    · exact htext.silent (silent_line _ _ _ _ _)
    · exact htext.silent (silent_line _ _ _ _ _)
    · exact htext

theorem drawRun (h : Shows s bytes t) (style : RunStyle α) (text : String) (x baseline width : α) :
    Shows s (bytes ++ dark (encodeLatin1 text)) (t.drawRun style text x baseline width) := by
  cases hbackground : style.background with
  | none => exact h.drawRun_of_none hbackground text x baseline width
  | some color =>
    rw [Layout.drawRun_of_background hbackground]
    exact (h.silent (silent_fillBox _ _ _ _ _)).drawRun_of_none rfl text x baseline width

theorem drawPiece (h : Shows s bytes t) (run : InlineRun α) (top baseline : α) (p : Piece α) :
    Shows s (bytes ++ p.ink) (t.drawPiece run top baseline p) := by
  cases p with
  | mark name x =>
    have hmark : Shows s bytes (t.addDestination name x top) :=
      h.keep ⟨rfl, rfl, rfl, rfl, rfl, rfl⟩ rfl rfl rfl
    rw [Piece.ink, List.append_nil]
    exact hmark
  | text style text x width => exact h.drawRun ..

theorem foldl_drawPiece (run : InlineRun α) (top baseline : α) (ps : List (Piece α)) :
    ∀ {bytes : Bytes} {t : Layout α}, Shows s bytes t →
      Shows s (bytes ++ ps.flatMap Piece.ink)
        (ps.foldl (fun t p => t.drawPiece run top baseline p) t) := by
  induction ps with
  | nil =>
    intro bytes t h
    simpa using h
  | cons p ps ih =>
    intro bytes t h
    have hrest := ih (h.drawPiece run top baseline p)
    simpa [List.append_assoc] using hrest

theorem drawLine (h : Shows s bytes t) (run : InlineRun α) (line : LineBox α) (x0 width top : α)
    (align : TextAlign) (hclean : ∀ t ∈ line.tokens, t.Clean) :
    Shows s (bytes ++ inkOf line.tokens) (t.drawLine run line x0 width top align) := by
  rw [← ink_pieces line x0 width align hclean]
  exact foldl_drawPiece run top _ _ h

theorem flowLine (h : Shows s bytes t) (run : InlineRun α) (width : α) (flow : TextFlow α)
    (line : LineBox α × Nat) (hclean : ∀ t ∈ line.1.tokens, t.Clean) :
    Shows s (bytes ++ inkOf line.1.tokens) (Layout.flowLine run width flow t line) := by
  refine markContent (lower ?_ _)
  exact (h.ensureSpace _).drawLine run line.1 _ _ _ _ hclean

theorem foldl_flowLine (run : InlineRun α) (width : α) (flow : TextFlow α)
    (lines : List (LineBox α × Nat)) :
    ∀ {bytes : Bytes} {t : Layout α}, Shows s bytes t →
      (∀ line ∈ lines, ∀ t ∈ line.1.tokens, t.Clean) →
      Shows s (bytes ++ inkOf (lines.flatMap fun line => line.1.tokens))
        (lines.foldl (Layout.flowLine run width flow) t) := by
  induction lines with
  | nil =>
    intro bytes t h hclean
    simpa using h
  | cons line lines ih =>
    intro bytes t h hclean
    have hline := h.flowLine run width flow line (hclean line List.mem_cons_self)
    have hrest := ih hline fun l hl => hclean l (List.mem_cons_of_mem line hl)
    simpa [List.append_assoc] using hrest

theorem flowInline (h : Shows s bytes t) (run : InlineRun α) (flow : TextFlow α)
    (hclean : ∀ t ∈ run.tokens, t.Clean) :
    Shows s (bytes ++ inkOf run.tokens) (t.flowInline run flow) := by
  unfold Layout.flowInline
  split
  · next hempty =>
    have hnone : run.tokens = [] := by simpa using hempty
    simpa [hnone] using h
  · obtain ⟨hink, hlines⟩ := breakLines_kept run t.availableWidth flow hclean
    have hzip : (breakLines run t.availableWidth flow).zipIdx.flatMap (fun line => line.1.tokens) =
        (breakLines run t.availableWidth flow).flatMap LineBox.tokens := by
      rw [← List.flatMap_map Prod.fst LineBox.tokens, List.zipIdx_map_fst]
    have hfold := foldl_flowLine run t.availableWidth flow
      (breakLines run t.availableWidth flow).zipIdx h fun line hline =>
        hlines line.1 (List.fst_mem_of_mem_zipIdx hline)
    rw [hzip, hink] at hfold
    exact hfold

theorem placeRaster (h : Shows s bytes t) (data : Bytes) (format : String)
    (pixels : Option (Nat × Nat)) (b : Layout.Box α) :
    Shows s bytes (t.placeRaster data format pixels b) := by
  unfold Layout.placeRaster
  split
  · exact h.silent (silent_image _ b)
  · have hframe := h.silent (silent_strokeBox b.x b.y b.width b.height Layout.frameColor 0.5)
    have hrising := hframe.silent
      (silent_line (b.x, b.y) (b.x + b.width, b.y + b.height) 0.5 Layout.frameColor none)
    exact hrising.silent
      (silent_line (b.x, b.y + b.height) (b.x + b.width, b.y) 0.5 Layout.frameColor none)

theorem addImage (h : Shows s bytes t) (image : Image α) : Shows s bytes (t.addImage image) := by
  unfold Layout.addImage
  refine placeBlock ?_ _
  exact (h.ensureSpace image.height).placeRaster ..

theorem addRule (h : Shows s bytes t) (r : Rule α) : Shows s bytes (t.addRule r) := by
  unfold Layout.addRule
  refine placeBlock ?_ _
  exact (h.ensureSpace _).silent (silent_line _ _ _ _ _)

theorem addSpacer (h : Shows s bytes t) (lines : Nat) (leading : α) :
    Shows s bytes (t.addSpacer lines leading) := by
  refine markContent (t := if t.mustBreak ((lines : α) * leading) then t.breakPage
    else t.lower ((lines : α) * leading)) ?_
  split
  · exact h.turn
  · exact h.lower _

theorem addRectangle (h : Shows s bytes t) (r : Rectangle α) :
    Shows s bytes (t.addRectangle r) := by
  unfold Layout.addRectangle
  refine placeBlock (silent ?_ (silent_strokeBox _ _ _ _ _ _)) _
  split
  · exact (h.ensureSpace _).silent (silent_fillBox _ _ _ _ _)
  · exact h.ensureSpace _

theorem keepTogether (h : Shows s bytes t) (flow : TextFlow α) (children : List (Node α)) :
    Shows s bytes (t.keepTogether flow children) := by
  unfold Layout.keepTogether
  split
  · simp only
    split
    · exact h.ensureSpace _
    · exact h
  · exact h

theorem openParagraph (h : Shows s bytes t) (style : BlockStyle α) (flow : TextFlow α)
    (children : List (Node α)) : Shows s bytes (t.openParagraph style flow children) := by
  have hspace : Shows s bytes (if t.page.hasContent then t.lower style.spacingBefore else t) := by
    split
    · exact h.lower _
    · exact h
  have hindent {u : Layout α} (k : Shows s bytes u) :
      Shows s bytes { u with inset := u.inset + style.indent } :=
    k.move u.cursor (u.inset + style.indent)
  unfold Layout.openParagraph
  simp only
  split
  · exact (hindent hspace).keepTogether flow children
  · exact hindent hspace

theorem closeParagraph (h : Shows s bytes t) (style : BlockStyle α) :
    Shows s bytes (t.closeParagraph style) :=
  h.move (t.cursor - style.spacingAfter) (t.inset - style.indent)

theorem addInline (h : Shows s bytes t) {n : Node α} {run : InlineRun α}
    (hn : collectInline none .empty n = some run) :
    Shows s (bytes ++ ink n.textContent) (t.addInline n) := by
  have hgains := collectInline_gains n hn
  have hink : inkOf run.tokens = ink n.textContent := hgains.ink
  unfold Layout.addInline
  rw [hn, ← hink]
  exact h.flowInline run .plain (hgains.clean nofun)

end Shows

/-! ## Text in blocks -/

mutual

/-- Is a node text, or a paragraph of text with empty space, rules and pictures in it? -/
def IsFlowing : Node α → Prop
  | .text _ | .subscript _ | .superscript _ | .phrase .. | .anchor .. => True
  | .rule _ | .spacer .. | .rectangle _ | .image _ => True
  | .paragraph _ children => AllFlowing children
  | .reference _ target => IsFlowing target
  | _ => False

def AllFlowing : List (Node α) → Prop
  | [] => True
  | n :: ns => IsFlowing n ∧ AllFlowing ns

end

/-- A run that succeeds and shows the bytes. -/
def RunsShowing (act : FlowM α Unit) (bytes : Bytes) : Prop :=
  ∀ s, ∃ t, act.run s = (.ok (), t) ∧ Shows s bytes t

theorem runsShowing_modify {f : Layout α → Layout α} {bytes : Bytes}
    (h : ∀ s, Shows s bytes (f s)) : RunsShowing (modify f) bytes := fun s => ⟨f s, rfl, h s⟩

theorem RunsShowing.bind {act next : FlowM α Unit} {bytes more : Bytes}
    (h : RunsShowing act bytes) (k : RunsShowing next more) :
    RunsShowing (act >>= fun _ => next) (bytes ++ more) := by
  intro s
  obtain ⟨t, hrun, hshows⟩ := h s
  obtain ⟨u, hnext, hmore⟩ := k t
  refine ⟨u, ?_, hshows.trans hmore⟩
  rw [run_bind, hrun]
  exact hnext

theorem runsShowing_addInline {n : Node α} {run : InlineRun α}
    (hn : collectInline none .empty n = some run) :
    RunsShowing (modify (·.addInline n)) (ink n.textContent) :=
  runsShowing_modify fun s => by simpa using (Shows.refl (s := s)).addInline hn

mutual

theorem addBlock_shows : (n : Node α) → IsFlowing n →
    RunsShowing (addBlock n) (ink n.textContent)
  | .text run, _ => by
    unfold addBlock
    exact runsShowing_addInline rfl
  | .subscript run, _ => by
    unfold addBlock
    exact runsShowing_addInline rfl
  | .superscript run, _ => by
    unfold addBlock
    exact runsShowing_addInline rfl
  | .phrase style children, _ => by
    unfold addBlock
    exact runsShowing_addInline rfl
  | .anchor ends shape content, _ => by
    have hsome : ∃ run, collectInline none .empty (.anchor ends shape content) = some run := by
      simp only [collectInline]
      split
      · exact ⟨_, rfl⟩
      · exact ⟨_, rfl⟩
    obtain ⟨run, hrun⟩ := hsome
    unfold addBlock
    exact runsShowing_addInline hrun
  | .rule r, _ => by
    unfold addBlock
    exact runsShowing_modify fun s => Shows.refl.addRule r
  | .spacer lines leading, _ => by
    unfold addBlock
    exact runsShowing_modify fun s => Shows.refl.addSpacer lines leading
  | .rectangle r, _ => by
    unfold addBlock
    exact runsShowing_modify fun s => Shows.refl.addRectangle r
  | .image image, _ => by
    unfold addBlock
    exact runsShowing_modify fun s => Shows.refl.addImage image
  | .reference id target, h => by
    unfold addBlock
    simpa only [Node.textContent] using addBlock_shows target h
  | .paragraph style children, h => by
    unfold addBlock
    have hopen : RunsShowing (modify (·.openParagraph style (flowOf style) children)) [] :=
      runsShowing_modify fun s => Shows.refl.openParagraph style (flowOf style) children
    have hclose : RunsShowing (modify (·.closeParagraph style) : FlowM α Unit) [] :=
      runsShowing_modify fun s => Shows.refl.closeParagraph style
    have hmixed := addMixed_shows (flowOf style) .empty children nofun h
    have hall := hopen.bind (hmixed.bind hclose)
    have hempty : inkOf (InlineRun.empty : InlineRun α).tokens = [] := rfl
    simpa [Node.textContent, hempty] using hall

theorem addMixed_shows (flow : TextFlow α) (run : InlineRun α) : (ns : List (Node α)) →
    (∀ t ∈ run.tokens, t.Clean) → AllFlowing ns →
    RunsShowing (addMixed flow run ns) (inkOf run.tokens ++ ink (Node.textOfNodes ns))
  | [], hclean, _ => by
    unfold addMixed
    refine runsShowing_modify fun s => ?_
    simpa using (Shows.refl (s := s)).flowInline run flow hclean
  | n :: ns, hclean, h => by
    unfold addMixed
    simp only [AllFlowing] at h
    rw [Node.textOfNodes_cons, ink_append]
    split
    · next grown hn =>
      have hgains := collectInline_gains n hn
      have hrest := addMixed_shows flow grown ns (hgains.clean hclean) h.2
      rwa [hgains.ink, List.append_assoc] at hrest
    · have hrun : RunsShowing (modify (·.flowInline run flow)) (inkOf run.tokens) :=
        runsShowing_modify fun s => by simpa using (Shows.refl (s := s)).flowInline run flow hclean
      have hblock := addBlock_shows n h.1
      have hrest := addMixed_shows flow .empty ns nofun h.2
      exact hrun.bind (hblock.bind hrest)

end

/-- Adding text to an open document without a running header shows every character of it that is not
blank once, in order, over as many pages as it takes. -/
theorem add_shownText {s : Layout α} (hopen : s.phase = .opened) (hheader : s.header = none)
    {n : Node α} (hn : IsFlowing n) :
    ∃ t parts last, (add n).run s = (.ok (), t) ∧ Spread s t parts last ∧
      dark (shown (parts.flatten ++ last)) =
        encodeLatin1 (String.ofList (withoutBlanks n.textContent)) := by
  obtain ⟨t, hrun, hshows⟩ := addBlock_shows n hn s
  obtain ⟨parts, last, hspread, hbytes⟩ := spread_of_shows hshows hheader
  refine ⟨t, parts, last, ?_, hspread, ?_⟩
  · rw [run_add hopen]
    exact hrun
  · rw [hbytes]
    simp [ink, encodeLatin1]

/-- Text above and below a rule, the second time behind a name. -/
def letter : Node Single :=
  .paragraph ⟨.standard, .justified, none, 0, 0, 0, 0, true⟩
    [.text ⟨"Dear\treader,", .standard, none⟩, .rule ⟨false, 0, 1, .gray 0⟩,
      .reference "end" (.anchor ⟨some "end", none⟩ .plain (.spacer 1 12)),
      .phrase ⟨.standard, none⟩ [.superscript ⟨"* ", .standard, none⟩]]

theorem add_shownText_letter :
    ∃ t parts last, (add letter).run (openDocument.run .initial).2 = (.ok (), t) ∧
      Spread (openDocument.run .initial).2 t parts last ∧
      dark (shown (parts.flatten ++ last)) =
        encodeLatin1 (String.ofList (withoutBlanks letter.textContent)) :=
  add_shownText rfl rfl ⟨trivial, trivial, trivial, trivial, trivial⟩

end Folio.Flow
