import Folio.Proofs.Flow.Flown

/-!
# What is done while a node is added

Adding a node comes to a row of acts: a line is drawn, something else is painted, the page counts as
used from now on, the page is turned, or the cursor or the inset is moved. The script of a node says
which acts these are, by the layout that the node is added to, and performing the script is adding
the node. A script follows the rules of layout clause for clause; what comes behind a part of it
depends on the layout that the part leaves, and nothing comes behind a failure.
-/
namespace Folio.Flow

open Style Pdf

variable {α : Type} [Scalar α]

/-- A line with its place: its column, by the left edge and the width, and the top of its box. -/
structure PlacedLine (α : Type) where
  run : InlineRun α
  line : LineBox α
  x : α
  width : α
  top : α
  align : TextAlign

/-- What is painted on a page besides its lines. -/
inductive Paint (α : Type) where
  | text (text : String) (font : Font α) (x y : α)
  | fillBox (b : Layout.Box α) (color : Color)
  | strokeBox (b : Layout.Box α) (color : Color) (lineWidth : α)
  | line (start finish : α × α) (width : α) (color : Color) (dash : Option (α × α))
  | image (picture : EmbeddedImage) (b : Layout.Box α)
  | drawing (x y : α) (ops : List (Operation α))
  | note (remark : Note α)

def Paint.on : Paint α → Canvas α → Canvas α
  | .text words font x y, c => c.text words font x y
  | .fillBox b color, c => c.fillBox b.x b.y b.width b.height color
  | .strokeBox b color lineWidth, c => c.strokeBox b.x b.y b.width b.height color lineWidth
  | .line start finish width color dash, c => c.line start finish width color dash
  | .image picture b, c =>
    (c.addImage picture).2.draw (Layout.imageOperations (c.addImage picture).1 b)
  | .drawing x y ops, c => c.draw (Layout.drawingOperations x y ops)
  | .note remark, c => c.addNote remark

/-- A run of text with its background and its lines. -/
def runPaints (style : RunStyle α) (words : String) (x baseline width : α) : List (Paint α) :=
  let font := style.font
  let stroke (y : α) : Paint α := .line (x, y) (x + width, y) 0.5 font.color none
  (style.background.map fun color => .fillBox
    ⟨x, baseline - font.size * Layout.descent, width, font.size * lineHeightFactor⟩ color).toList ++
    .text words font x (baseline + style.rise) :: match font.style with
      | .underline => [stroke (baseline - 1.5)]
      | .strikethru => [stroke (baseline + font.size * 0.3)]
      | _ => []

/-- The hot spot of a run, if it leads anywhere. -/
def runLink (style : RunStyle α) (x baseline width : α) : Option (Link α) :=
  style.link.map fun target => ⟨x, baseline - style.font.size * Layout.descent, x + width,
    baseline + style.font.size * 0.9, target⟩

def Canvas.drawRun (c : Canvas α) (style : RunStyle α) (words : String) (x baseline width : α) :
    Canvas α :=
  (runLink style x baseline width).toList.foldl addLink
    ((runPaints style words x baseline width).foldl (fun c p => p.on c) c)

theorem drawRun_eq_onPage (s : Layout α) (style : RunStyle α) (words : String)
    (x baseline width : α) : s.drawRun style words x baseline width =
      s.onPage fun c => c.drawRun style words x baseline width := by
  simp only [Layout.drawRun, Canvas.drawRun, runPaints, runLink]
  cases style.background <;> cases style.font.style <;> cases style.link <;> rfl

inductive Act (α : Type) where
  | line (l : PlacedLine α)
  | paint (p : Paint α)
  /-- The page counts as used. -/
  | use
  | turn
  | toCursor (cursor : α)
  | toInset (inset : α)

def Act.apply : Act α → Layout α → Layout α
  | .line l, s => s.drawLine l.run l.line l.x l.width l.top l.align
  | .paint p, s => s.onPage p.on
  | .use, s => s.markContent
  | .turn, s => s.breakPage
  | .toCursor cursor, s => { s with cursor }
  | .toInset inset, s => { s with inset }

def perform (acts : List (Act α)) (s : Layout α) : Layout α := acts.foldl (fun s a => a.apply s) s

@[simp] theorem perform_nil (s : Layout α) : perform [] s = s := rfl

@[simp] theorem perform_cons (a : Act α) (acts : List (Act α)) (s : Layout α) :
    perform (a :: acts) s = perform acts (a.apply s) := rfl

@[simp] theorem perform_append (acts more : List (Act α)) (s : Layout α) :
    perform (acts ++ more) s = perform more (perform acts s) := by
  simp [perform]

/-! ## Scripts -/

/-- The acts to be done, by the layout that is there before. -/
abbrev Script (α : Type) := Layout α → List (Act α)

namespace Script

def nothing : Script α := fun _ => []

def andThen (first next : Script α) : Script α := fun s => first s ++ next (perform (first s) s)

/-- One script for each member of a list, in order. -/
def each {β : Type} (script : β → Script α) : List β → Script α
  | [] => nothing
  | b :: bs => (script b).andThen (each script bs)

/-- One of two scripts, by a test of the layout. -/
def byCase (test : Layout α → Bool) (first next : Script α) : Script α := fun s =>
  if test s then first s else next s

/-- What comes behind `act`, which has the script `first`, if it succeeds. -/
def unlessFailed (act : FlowM α Unit) (first next : Script α) : Script α := fun s =>
  first s ++ match (act.run s).1 with
    | .ok _ => next (perform (first s) s)
    | .error _ => []

/-- The script does what `f` does. -/
def Does (script : Script α) (f : Layout α → Layout α) : Prop := ∀ s, perform (script s) s = f s

/-- The script does what `act` does, whether it succeeds or fails. -/
def Runs (script : Script α) (act : FlowM α Unit) : Prop :=
  ∀ s, perform (script s) s = (act.run s).2

theorem does_nothing : (nothing : Script α).Does id := fun _ => rfl

theorem does_act (act : Layout α → Act α) : Does (fun s => [act s]) fun s => (act s).apply s :=
  fun _ => rfl

theorem Does.andThen {first next : Script α} {f g : Layout α → Layout α} (h : first.Does f)
    (k : next.Does g) : (first.andThen next).Does fun s => g (f s) := by
  intro s
  unfold Script.andThen
  rw [perform_append, k, h]

theorem Does.byCase {first next : Script α} {f g : Layout α → Layout α} (test : Layout α → Bool)
    (h : first.Does f) (k : next.Does g) :
    (Script.byCase test first next).Does fun s => if test s then f s else g s := by
  intro s
  change perform (if test s then first s else next s) s = if test s then f s else g s
  cases test s with
  | true => exact h s
  | false => exact k s

theorem does_each {β : Type} {script : β → Script α} {f : Layout α → β → Layout α}
    (h : ∀ b, (script b).Does fun s => f s b) (bs : List β) :
    (each script bs).Does fun s => bs.foldl f s := by
  induction bs with
  | nil => exact does_nothing
  | cons b bs ih => exact (h b).andThen ih

theorem Does.runs {script : Script α} {f : Layout α → Layout α} (h : script.Does f) :
    script.Runs (modify f) := h

theorem Runs.unlessFailed {act next : FlowM α Unit} {first rest : Script α} (h : first.Runs act)
    (k : rest.Runs next) : (unlessFailed act first rest).Runs (act >>= fun _ => next) := by
  intro s
  have hs := h s
  unfold Script.unlessFailed
  rw [perform_append, run_bind]
  rcases hr : act.run s with ⟨r, t⟩
  rw [hr] at hs
  cases r with
  | error e => exact hs
  | ok _ =>
    change perform (rest (perform (first s) s)) (perform (first s) s) = _
    rw [hs]
    exact k t

theorem Does.andThen_runs {first next : Script α} {f : Layout α → Layout α} {act : FlowM α Unit}
    (h : first.Does f) (k : next.Runs act) :
    (first.andThen next).Runs (modify f >>= fun _ => act) := by
  intro s
  unfold Script.andThen
  rw [perform_append, k, h]
  rfl

end Script

namespace Layout

open Script

/-! ## Lines and rows -/

def turnScript : Script α := fun _ => [.turn]

def roomScript (needed : α) : Script α := byCase (·.mustBreak needed) turnScript nothing

def lowerScript (height : α) : Script α := fun s => [.toCursor (s.cursor - height)]

def useScript : Script α := fun _ => [.use]

theorem does_turnScript : (turnScript : Script α).Does (·.breakPage) := fun _ => rfl

theorem does_roomScript (needed : α) : (roomScript needed).Does (·.ensureSpace needed) :=
  does_turnScript.byCase _ does_nothing

theorem does_lowerScript (height : α) : (lowerScript height).Does (·.lower height) := fun _ => rfl

theorem does_useScript : (useScript : Script α).Does (·.markContent) := fun _ => rfl

/-- A line of a column that begins at the inset. -/
def flowingLine (run : InlineRun α) (width : α) (flow : TextFlow α)
    (line : LineBox α × Nat) (s : Layout α) : PlacedLine α :=
  let indent := if line.2 = 0 then flow.firstLineIndent else 0
  ⟨run, line.1, s.left + indent, width - indent, s.cursor, flow.align⟩

def flowLineScript (run : InlineRun α) (width : α) (flow : TextFlow α) (line : LineBox α × Nat) :
    Script α :=
  (roomScript line.1.height).andThen <|
    .andThen (fun s => [.line (flowingLine run width flow line s)]) <|
    (lowerScript line.1.height).andThen useScript

def flowScript (run : InlineRun α) (flow : TextFlow α) : Script α := fun s =>
  if run.tokens.isEmpty then []
  else each (flowLineScript run s.availableWidth flow)
    (breakLines run s.availableWidth flow).zipIdx s

theorem does_flowScript (run : InlineRun α) (flow : TextFlow α) :
    (flowScript run flow).Does (·.flowInline run flow) := by
  have hline (width : α) (line : LineBox α × Nat) : (flowLineScript run width flow line).Does
      fun s => flowLine run width flow s line :=
    (does_roomScript _).andThen
      ((does_act _).andThen ((does_lowerScript _).andThen does_useScript))
  intro s
  unfold flowScript flowInline
  split
  · rfl
  · exact does_each (hline s.availableWidth) _ s

/-- The lines of a cell from `top` down. -/
def cellLines (run : InlineRun α) (x width : α) (align : TextAlign) (top : α) :
    List (LineBox α) → List (Act α)
  | [] => []
  | line :: rest =>
    .line ⟨run, line, x, width, top, align⟩ :: cellLines run x width align (top - line.height) rest

theorem perform_cellLines (run : InlineRun α) (x width : α) (align : TextAlign) (top : α)
    (lines : List (LineBox α)) (s : Layout α) :
    perform (cellLines run x width align top lines) s =
      drawLines run x width align s top lines := by
  induction lines generalizing s top with
  | nil => rfl
  | cons line lines ih => exact ih _ _

/-- The box of a cell, under its lines. -/
def cellBox (style : TableStyle α) (top height : α) (p : Placed α) : List (Act α) :=
  let box : Box α := ⟨p.x, top - height, p.width, height⟩
  (p.cell.style.background.map fun color => Act.paint (.fillBox box color)).toList ++
    if p.cell.style.border && style.border then [.paint (.strokeBox box .black 0.5)] else []

def cellActs (style : TableStyle α) (top height : α) (p : Placed α) : List (Act α) :=
  let look := p.cell.style
  let free := height - 2 * look.padding - p.height
  cellBox style top height p ++ cellLines p.run (p.x + look.padding) (innerWidth p.cell p.width)
    look.align (top - look.padding - verticalOffset look.valign free) p.lines

theorem perform_cellActs (style : TableStyle α) (top height : α) (p : Placed α) (s : Layout α) :
    perform (cellActs style top height p) s = drawCell style top height s p := by
  simp only [cellActs, cellBox, drawCell, perform_append, perform_cellLines]
  cases p.cell.style.background with
  | none => cases p.cell.style.border && style.border <;> rfl
  | some color => cases p.cell.style.border && style.border <;> rfl

def rowScript (style : TableStyle α) (x0 : α) (widths : List α) (cells : List (Cell α)) :
    Script α := fun s =>
  let placed := placeRow x0 widths cells
  let height := rowHeight style placed
  placed.flatMap (cellActs style s.cursor height) ++ [.toCursor (s.cursor - height), .use]

theorem does_rowScript (style : TableStyle α) (x0 : α) (widths : List α) (cells : List (Cell α)) :
    (rowScript style x0 widths cells).Does (addRow style x0 widths · cells) := by
  have hcells (top height : α) (placed : List (Placed α)) : ∀ s : Layout α,
      perform (placed.flatMap (cellActs style top height)) s =
        placed.foldl (drawCell style top height) s := by
    induction placed with
    | nil => exact fun _ => rfl
    | cons p placed ih =>
      intro s
      rw [List.flatMap_cons, perform_append, perform_cellActs]
      exact ih _
  intro s
  unfold rowScript addRow
  simp only [perform_append, hcells]
  rfl

def bodyRowScript (style : TableStyle α) (header : List (Cell α)) (x0 : α) (widths : List α)
    (row : List (Cell α)) : Script α :=
  .andThen (byCase (·.mustBreak (rowEstimate widths row))
      (turnScript.andThen (byCase (fun _ => header.isEmpty) nothing
        (rowScript style x0 widths header))) nothing)
    (rowScript style x0 widths row)

theorem does_bodyRowScript (style : TableStyle α) (header : List (Cell α)) (x0 : α)
    (widths : List α) (row : List (Cell α)) :
    (bodyRowScript style header x0 widths row).Does (addBodyRow style header x0 widths · row) :=
  .andThen (.byCase _ (does_turnScript.andThen
    (does_nothing.byCase _ (does_rowScript style x0 widths header))) does_nothing)
    (does_rowScript style x0 widths row)

def tableScript (style : TableStyle α) (header : List (Cell α)) (rows : List (List (Cell α))) :
    Script α := fun s =>
  let available := s.availableWidth
  let total := available * Scalar.within 0.01 1.0 (style.widthPercent / 100)
  let x0 := s.tableStart style.align available total
  let widths := columnWidths style total
  Script.andThen (if header.isEmpty then nothing
      else (roomScript (rowEstimate widths header)).andThen (rowScript style x0 widths header))
    ((each (bodyRowScript style header x0 widths) rows).andThen (lowerScript style.spacing)) s

theorem does_tableScript (style : TableStyle α) (header : List (Cell α))
    (rows : List (List (Cell α))) :
    (tableScript style header rows).Does (·.addTable style header rows) := by
  intro s
  unfold tableScript addTable
  simp only
  generalize columnWidths style _ = widths
  generalize s.tableStart style.align _ _ = x0
  refine .trans (Does.andThen (f := fun s => if header.isEmpty then s
      else addRow style x0 widths (s.ensureSpace (rowEstimate widths header)) header)
    (g := fun s => (rows.foldl (addBodyRow style header x0 widths) s).lower style.spacing)
    ?_ ?_ s) rfl
  · split
    · exact does_nothing
    · exact (does_roomScript _).andThen (does_rowScript style x0 widths header)
  · exact (does_each (does_bodyRowScript style header x0 widths) rows).andThen
      (does_lowerScript style.spacing)

/-! ## Blocks that are drawn as a whole -/

def placeScript (height : α) (acts : Layout α → List (Act α)) : Script α :=
  .andThen acts ((lowerScript height).andThen useScript)

def rasterActs (data : Bytes) (format : String) (pixels : Option (Nat × Nat)) (b : Box α) :
    List (Act α) :=
  match embedded? data format pixels with
  | some image => [.paint (.image image b)]
  | none =>
    [.paint (.strokeBox b frameColor 0.5),
      .paint (.line (b.x, b.y) (b.x + b.width, b.y + b.height) 0.5 frameColor none),
      .paint (.line (b.x, b.y + b.height) (b.x + b.width, b.y) 0.5 frameColor none)]

theorem perform_rasterActs (data : Bytes) (format : String) (pixels : Option (Nat × Nat))
    (b : Box α) (s : Layout α) :
    perform (rasterActs data format pixels b) s = s.placeRaster data format pixels b := by
  unfold rasterActs placeRaster
  cases embedded? data format pixels <;> rfl

/-- A block is drawn, and the cursor goes below it. -/
theorem does_placeScript {acts : Script α} {f : Layout α → Layout α → Layout α} (height : α)
    (h : ∀ s, perform (acts s) s = f s s) :
    (placeScript height acts).Does fun s => s.placeBlock height (f s) :=
  Does.andThen (f := fun s => f s s) h ((does_lowerScript height).andThen does_useScript)

def imageScript (image : Image α) : Script α :=
  (roomScript image.height).andThen <| placeScript image.height fun s : Layout α =>
    rasterActs image.data image.format (some (image.pixelWidth, image.pixelHeight))
      ⟨s.blockStart image.width image.align, s.cursor - image.height, image.width, image.height⟩

theorem does_imageScript (image : Image α) : (imageScript image).Does (·.addImage image) :=
  (does_roomScript _).andThen (does_placeScript
    (f := fun s t => t.placeRaster image.data image.format
      (some (image.pixelWidth, image.pixelHeight))
      ⟨s.blockStart image.width image.align, s.cursor - image.height, image.width, image.height⟩)
    image.height fun _ => perform_rasterActs ..)

def drawableScript (d : Drawable α) : Script α :=
  (roomScript d.height).andThen <|
    match d.drawing with
    | .vector content =>
      match decodeOperations? content with
      | some ops => placeScript d.height fun s =>
          [.paint (.drawing s.left (s.cursor - d.height) ops)]
      | none => nothing
    | .raster data format => placeScript d.height fun s =>
        rasterActs data format none ⟨s.left, s.cursor - d.height, d.width, d.height⟩

theorem runs_drawableScript (d : Drawable α) :
    (drawableScript d).Runs fun s => s.addDrawable d := by
  intro s
  change perform (drawableScript d s) s = (s.addDrawable d).2
  simp only [drawableScript, Script.andThen, addDrawable]
  rw [perform_append, does_roomScript]
  cases d.drawing with
  | raster data format =>
    exact does_placeScript (f := fun s t => t.placeRaster data format none
      ⟨t.left, s.cursor - d.height, d.width, d.height⟩) d.height
      (fun _ => perform_rasterActs ..) (s.ensureSpace d.height)
  | vector content =>
    cases hops : (decodeOperations? content : Option (List (Operation α))) with
    | none => simp only [hops]; rfl
    | some ops =>
      simp only [hops]
      exact does_placeScript (f := fun s t => t.onPage
        (·.draw (drawingOperations t.left (s.cursor - d.height) ops))) d.height (fun _ => rfl)
        (s.ensureSpace d.height)

def ruleScript (r : Rule α) : Script α :=
  let height := r.lineWidth + ruleClearance
  (roomScript height).andThen <| placeScript height fun s =>
    let y := s.cursor - height / 2
    let dash := if r.dotted then some (Scalar.larger r.lineWidth 1, r.gap) else none
    [.paint (.line (s.left, y) (s.geometry.width - s.geometry.margins.right, y) r.lineWidth r.color
      dash)]

theorem does_ruleScript (r : Rule α) : (ruleScript r).Does (·.addRule r) :=
  (does_roomScript _).andThen (does_placeScript (f := fun s t => t.onPage fun c =>
    c.line (t.left, s.cursor - (r.lineWidth + ruleClearance) / 2)
      (s.geometry.width - s.geometry.margins.right, s.cursor - (r.lineWidth + ruleClearance) / 2)
      r.lineWidth r.color (if r.dotted then some (Scalar.larger r.lineWidth 1, r.gap) else none))
    _ fun _ => rfl)

def spacerScript (lines : Nat) (leading : α) : Script α :=
  let height := (lines : α) * leading
  .andThen (byCase (·.mustBreak height) turnScript (lowerScript height)) useScript

theorem does_spacerScript (lines : Nat) (leading : α) :
    (spacerScript lines leading).Does (·.addSpacer lines leading) :=
  (does_turnScript.byCase _ (does_lowerScript _)).andThen does_useScript

def rectangleScript (r : Rectangle α) : Script α :=
  (roomScript r.height).andThen <| placeScript r.height fun s =>
    let box : Box α := ⟨s.left, s.cursor - r.height, r.width, r.height⟩
    (r.color.map fun color => Act.paint (.fillBox box color)).toList ++
      [.paint (.strokeBox box r.border 1)]

theorem does_rectangleScript (r : Rectangle α) :
    (rectangleScript r).Does (·.addRectangle r) := by
  obtain ⟨width, height, color, border⟩ := r
  cases color with
  | none =>
    exact (does_roomScript height).andThen (does_placeScript (f := fun s t =>
      t.onPage fun c => c.strokeBox t.left (s.cursor - height) width height border 1) _ fun _ => rfl)
  | some color =>
    exact (does_roomScript height).andThen (does_placeScript (f := fun s t =>
      let filled := t.onPage fun c => c.fillBox t.left (s.cursor - height) width height color
      filled.onPage fun c => c.strokeBox filled.left (s.cursor - height) width height border 1)
      _ fun _ => rfl)

def noteScript (title text : String) : Script α := fun s =>
  [.paint (.note ⟨s.left, s.cursor, title, text⟩), .use]

theorem does_noteScript (title text : String) :
    (noteScript title text : Script α).Does (·.addNote title text) := fun _ => rfl

/-! ## Parts of paragraphs, lists and titles -/

def keepScript (flow : TextFlow α) (children : List (Node α)) : Script α := fun s =>
  match collectAll .empty children with
  | some run =>
    let height := linesHeight (breakLines run s.availableWidth flow)
    if height ≤ s.geometry.contentHeight then roomScript height s else []
  | none => []

theorem does_keepScript (flow : TextFlow α) (children : List (Node α)) :
    (keepScript flow children).Does (·.keepTogether flow children) := by
  intro s
  simp only [keepScript, keepTogether]
  cases collectAll .empty children with
  | none => rfl
  | some run =>
    by_cases h : linesHeight (breakLines run s.availableWidth flow) ≤ s.geometry.contentHeight
    · simp only [h, if_true]
      exact does_roomScript _ s
    · simp only [h, if_false]
      rfl

def openScript (style : BlockStyle α) (flow : TextFlow α) (children : List (Node α)) : Script α :=
  (byCase (·.page.hasContent) (lowerScript style.spacingBefore) nothing).andThen <|
    .andThen (fun s => [.toInset (s.inset + style.indent)]) <|
      byCase (fun _ => style.keepTogether) (keepScript flow children) nothing

theorem does_openScript (style : BlockStyle α) (flow : TextFlow α) (children : List (Node α)) :
    (openScript style flow children).Does (·.openParagraph style flow children) :=
  ((does_lowerScript _).byCase _ does_nothing).andThen
    ((does_act _).andThen ((does_keepScript flow children).byCase _ does_nothing))

def closeScript (style : BlockStyle α) : Script α := fun s =>
  [.toInset (s.inset - style.indent), .toCursor (s.cursor - style.spacingAfter)]

theorem does_closeScript (style : BlockStyle α) :
    (closeScript style).Does (·.closeParagraph style) := fun _ => rfl

def labelScript (style : ListStyle α) (index : Nat) : Script α :=
  let font := labelFont style
  let height := font.size * lineHeightFactor
  (roomScript height).andThen fun s =>
    [.paint (.text (style.kind.label index style.lowercase) font s.left
      (s.cursor - height + font.size * descent))]

theorem does_labelScript (style : ListStyle α) (index : Nat) :
    (labelScript style index).Does fun s => (s.drawLabel style index).2 := by
  intro s
  simp only [labelScript, Script.andThen]
  rw [perform_append, does_roomScript]
  rfl

def closeItemScript (label : LabelPlace α) : Script α :=
  .andThen (byCase (fun s => s.page.number = label.page && decide (label.foot < s.cursor))
    (fun _ => [.toCursor label.foot]) nothing) useScript

theorem does_closeItemScript (label : LabelPlace α) :
    (closeItemScript label).Does (·.closeItem label) :=
  ((does_act _).byCase _ does_nothing).andThen does_useScript

def titleScript (label : String) (title : Node α) (fallback : Font α) : Script α :=
  let font := title.firstFont?.getD fallback
  (flowScript (titleRun label title font)
    { TextFlow.plain with leading := titleLeading title }).andThen (lowerScript (font.size * 0.5))

theorem does_titleScript (label : String) (title : Node α) (fallback : Font α) :
    (titleScript label title fallback).Does (·.addTitle label title fallback) :=
  (does_flowScript _ _).andThen (does_lowerScript _)

def chapterScript (number : Nat) (title : Node α) : Script α :=
  (byCase (·.page.hasContent) turnScript nothing).andThen
    (titleScript (toString number ++ ".") title chapterFont)

theorem does_chapterScript (number : Nat) (title : Node α) :
    (chapterScript number title).Does (·.openChapter number title) :=
  (does_turnScript.byCase _ does_nothing).andThen (does_titleScript _ title chapterFont)

def indentedScript (width : α) (script : Script α) : Script α :=
  .andThen (fun s => [.toInset (s.inset + width)])
    (script.andThen fun s => [.toInset (s.inset - width)])

theorem runs_indentedScript (width : α) {script : Script α} {act : FlowM α Unit}
    (h : script.Runs act) : (indentedScript width script).Runs (indented width act) := by
  intro s
  refine (Does.andThen (f := fun s => { s with inset := s.inset + width }) (fun _ => rfl)
    (Does.andThen (f := fun s => (act.run s).2) h
      (g := fun s => { s with inset := s.inset - width }) fun _ => rfl) s).trans rfl

end Layout

/-! ## Nodes -/

open Layout Script

def inlineScript (n : Node α) : Script α :=
  flowScript ((collectInline none .empty n).getD .empty) .plain

mutual

/-- What is done while a node is added. -/
def scriptOf : Node α → Script α
  | .paragraph style children =>
    (openScript style (flowOf style) children).andThen <|
      unlessFailed (addMixed (flowOf style) .empty children)
        (scriptOfMixed (flowOf style) .empty children) (closeScript style)
  | .list style items => scriptOfItems style 1 items
  | .table style header rows | .gridTable style header rows => tableScript style header rows
  | .cell c | .gridCell c => scriptOfCell c
  | .image image => imageScript image
  | .chart d | .vectorGraphic d => drawableScript d
  | .chapter number title children => (chapterScript number title).andThen (scriptOfNodes children)
  | .subsection number indent title children =>
    (titleScript (sectionLabel number) title sectionFont).andThen
      (indentedScript indent (scriptOfNodes children))
  | .note title text => noteScript title text
  | .rule r => ruleScript r
  | .spacer lines leading => spacerScript lines leading
  | .rectangle r => rectangleScript r
  | .reference _ target => scriptOf target
  | .text run => inlineScript (.text run)
  | .subscript run => inlineScript (.subscript run)
  | .superscript run => inlineScript (.superscript run)
  | .phrase style children => inlineScript (.phrase style children)
  | .anchor ends shape content => inlineScript (.anchor ends shape content)

def scriptOfNodes : List (Node α) → Script α
  | [] => nothing
  | n :: ns => unlessFailed (addBlock n) (scriptOf n) (scriptOfNodes ns)

def scriptOfCell : Cell α → Script α
  | .mk _ content => scriptOf content

def scriptOfMixed (flow : TextFlow α) (run : InlineRun α) : List (Node α) → Script α
  | [] => flowScript run flow
  | n :: ns =>
    match collectInline none run n with
    | some run => scriptOfMixed flow run ns
    | none => (flowScript run flow).andThen
        (unlessFailed (addBlock n) (scriptOf n) (scriptOfMixed flow .empty ns))

def scriptOfItem : ListItem α → Script α
  | .chunk n | .phrase n => scriptOf n

def scriptOfItems (style : ListStyle α) (index : Nat) : List (ListItem α) → Script α
  | [] => nothing
  | item :: rest => fun s =>
    Script.andThen (labelScript style index)
      (unlessFailed (indented (listIndent style) (addItem item))
        (indentedScript (listIndent style) (scriptOfItem item))
        ((closeItemScript (s.drawLabel style index).1).andThen
          (scriptOfItems style (index + 1) rest))) s

end

mutual

theorem runs_scriptOf : (n : Node α) → (scriptOf n).Runs (addBlock n)
  | .paragraph style children => by
    have hmixed := runs_scriptOfMixed (flowOf style) .empty children
    unfold addBlock scriptOf
    exact (does_openScript style (flowOf style) children).andThen_runs
      (hmixed.unlessFailed (does_closeScript style).runs)
  | .list style items => by
    unfold addBlock scriptOf
    exact runs_scriptOfItems style 1 items
  | .table style header rows | .gridTable style header rows => by
    unfold addBlock scriptOf
    exact (does_tableScript style header rows).runs
  | .cell c | .gridCell c => by
    unfold addBlock scriptOf
    exact runs_scriptOfCell c
  | .image image => by
    unfold addBlock scriptOf
    exact (does_imageScript image).runs
  | .chart d | .vectorGraphic d => by
    unfold addBlock scriptOf
    exact runs_drawableScript d
  | .chapter number title children => by
    unfold addBlock scriptOf
    exact (does_chapterScript number title).andThen_runs (runs_scriptOfNodes children)
  | .subsection number indent title children => by
    unfold addBlock scriptOf
    exact (does_titleScript _ title sectionFont).andThen_runs
      (runs_indentedScript indent (runs_scriptOfNodes children))
  | .note title text => by
    unfold addBlock scriptOf
    exact (does_noteScript title text).runs
  | .rule r => by
    unfold addBlock scriptOf
    exact (does_ruleScript r).runs
  | .spacer lines leading => by
    unfold addBlock scriptOf
    exact (does_spacerScript lines leading).runs
  | .rectangle r => by
    unfold addBlock scriptOf
    exact (does_rectangleScript r).runs
  | .reference _ target => by
    unfold addBlock scriptOf
    exact runs_scriptOf target
  | .text _ | .subscript _ | .superscript _ | .phrase .. | .anchor .. => by
    unfold addBlock scriptOf
    exact (does_flowScript _ _).runs

theorem runs_scriptOfNodes : (ns : List (Node α)) → (scriptOfNodes ns).Runs (addBlocks ns)
  | [] => by
    unfold addBlocks scriptOfNodes
    exact fun _ => rfl
  | n :: ns => by
    unfold addBlocks scriptOfNodes
    exact (runs_scriptOf n).unlessFailed (runs_scriptOfNodes ns)

theorem runs_scriptOfCell : (c : Cell α) → (scriptOfCell c).Runs (addCell c)
  | .mk _ content => by
    unfold addCell scriptOfCell
    exact runs_scriptOf content

theorem runs_scriptOfMixed (flow : TextFlow α) (run : InlineRun α) :
    (ns : List (Node α)) → (scriptOfMixed flow run ns).Runs (addMixed flow run ns)
  | [] => by
    unfold addMixed scriptOfMixed
    exact (does_flowScript run flow).runs
  | n :: ns => by
    unfold addMixed scriptOfMixed
    cases collectInline none run n with
    | some grown => exact runs_scriptOfMixed flow grown ns
    | none =>
      exact (does_flowScript run flow).andThen_runs
        ((runs_scriptOf n).unlessFailed (runs_scriptOfMixed flow .empty ns))

theorem runs_scriptOfItem : (item : ListItem α) → (scriptOfItem item).Runs (addItem item)
  | .chunk n | .phrase n => by
    unfold addItem scriptOfItem
    exact runs_scriptOf n

theorem runs_scriptOfItems (style : ListStyle α) (index : Nat) : (items : List (ListItem α)) →
    (scriptOfItems style index items).Runs (addItems style index items)
  | [] => by
    unfold addItems scriptOfItems
    exact fun _ => rfl
  | item :: rest => by
    intro s
    have hrest := (does_closeItemScript (s.drawLabel style index).1).andThen_runs
      (runs_scriptOfItems style (index + 1) rest)
    have hitem := (runs_indentedScript (listIndent style) (runs_scriptOfItem item)).unlessFailed
      hrest
    rw [run_addItems_cons]
    unfold scriptOfItems Script.andThen
    rw [perform_append, does_labelScript]
    exact hitem _

end

end Folio.Flow
