import Folio.Proofs.Exact
import Folio.Proofs.Flow.Painting

/-!
# What drawings find in force

A drawing is painted with the colours, the line width and the dashes that are in force where it
begins. The engine saves and restores them around all that it paints itself, except around text,
which sets the colour of fills for good. So what a drawing finds is what every page begins with,
but for the colour of fills, which is that of the last text on the page.
-/
namespace Folio.Flow

open Style Pdf

variable {α : Type}

/-! ## The graphics state -/

/-- What is in force, by the operands that set it. -/
structure Brush (α : Type) where
  fill : List (Obj α)
  stroke : List (Obj α)
  width : List (Obj α)
  dash : List (Obj α)

structure GraphicsState (α : Type) where
  brush : Brush α
  /-- Saved brushes, the last one first. -/
  saved : List (Brush α)

/-- Restoring changes nothing where nothing is saved. -/
def GraphicsState.step (g : GraphicsState α) (op : Operation α) : GraphicsState α :=
  if op.operator == "q" then ⟨g.brush, g.brush :: g.saved⟩
  else if op.operator == "Q" then
    match g.saved with
    | brush :: saved => ⟨brush, saved⟩
    | [] => g
  else if op.operator == "rg" then { g with brush := { g.brush with fill := op.operands } }
  else if op.operator == "RG" then { g with brush := { g.brush with stroke := op.operands } }
  else if op.operator == "w" then { g with brush := { g.brush with width := op.operands } }
  else if op.operator == "d" then { g with brush := { g.brush with dash := op.operands } }
  else g

def GraphicsState.follow (g : GraphicsState α) (ops : List (Operation α)) : GraphicsState α :=
  ops.foldl step g

@[simp] theorem GraphicsState.follow_append (g : GraphicsState α) (ops more : List (Operation α)) :
    g.follow (ops ++ more) = (g.follow ops).follow more := by
  simp [follow]

/-- The operations leave everything as they find it. -/
def Neutral (ops : List (Operation α)) : Prop := ∀ g : GraphicsState α, g.follow ops = g

/-- A drawing that does not undo more than it has saved: what it changes is restored behind it. -/
def Contained (ops : List (Operation α)) : Prop := Neutral (saveState :: ops ++ [restoreState])

/-- What stands in front of the operations of a drawing. -/
def openDrawing (x y : α) : List (Operation α) :=
  [saveState, operation "cm" [.integer 1, .integer 0, .integer 0, .integer 1, .real x, .real y]]

theorem brush_follow_openDrawing (g : GraphicsState α) (x y : α) :
    (g.follow (openDrawing x y)).brush = g.brush := rfl

theorem neutral_lineOperations (start finish : α × α) (width : α) (color : Rgb α)
    (dash : Option (α × α)) : Neutral (lineOperations start finish width color dash) := by
  cases dash with
  | none => exact fun _ => rfl
  | some dash => exact fun _ => rfl

/-! ## Layers of a page -/

/-- A stretch of the operations of a page: a text, a drawing, or anything that is closed in
itself. -/
inductive Layer (α : Type) where
  | text (words baseFont : String) (size x y : α) (color : Rgb α)
  | drawing (x y : α) (ops : List (Operation α))
  | closed (ops : List (Operation α))

namespace Layer

def operations : Layer α → List (Operation α)
  | text words baseFont size x y color => textOperations words baseFont size x y color
  | drawing x y ops => Layout.drawingOperations x y ops
  | closed ops => ops

/-- The drawing is one that was drawn, and what should be closed is so. -/
def Fits (drawn : List (Operation α) → Prop) : Layer α → Prop
  | text .. => True
  | drawing _ _ ops => drawn ops
  | closed ops => Neutral ops

theorem Fits.imp {drawn more : List (Operation α) → Prop} {l : Layer α} (h : l.Fits drawn)
    (himp : ∀ x y ops, l = .drawing x y ops → drawn ops → more ops) : l.Fits more := by
  cases l with
  | text words baseFont size x y color => trivial
  | drawing x y ops => exact himp x y ops rfl h
  | closed ops => exact h

def color? : Layer α → Option (Rgb α)
  | text _ _ _ _ _ color => some color
  | _ => none

end Layer

/-- The colour of the last text. -/
def lastColor : List (Layer α) → Option (Rgb α)
  | [] => none
  | l :: layers => (lastColor layers).or l.color?

/-- The brush with another colour of fills, if there is one. -/
def Brush.tinted (b : Brush α) (color : Option (Rgb α)) : Brush α :=
  { b with fill := (color.map reals).getD b.fill }

theorem Brush.tinted_tinted (b : Brush α) (color last : Option (Rgb α)) :
    (b.tinted color).tinted last = b.tinted (last.or color) := by
  cases last <;> rfl

/-- A text leaves its colour, and everything else that does not leak leaves nothing. -/
theorem Layer.Fits.follow {l : Layer α} (h : l.Fits Contained) (g : GraphicsState α) :
    g.follow l.operations = { g with brush := g.brush.tinted l.color? } := by
  cases l with
  | text words baseFont size x y color => rfl
  | drawing x y ops => exact h g
  | closed ops => exact h g

/-- Behind layers whose drawings do not leak, the colour of the last text is in force. -/
theorem follow_layers {layers : List (Layer α)} (h : ∀ l ∈ layers, l.Fits Contained)
    (g : GraphicsState α) : g.follow (layers.flatMap Layer.operations) =
      { g with brush := g.brush.tinted (lastColor layers) } := by
  induction layers generalizing g with
  | nil => rfl
  | cons l layers ih =>
    obtain ⟨hl, hlayers⟩ := List.forall_mem_cons.mp h
    rw [List.flatMap_cons, GraphicsState.follow_append, hl.follow, ih hlayers, lastColor,
      Brush.tinted_tinted]

/-- The page is a row of layers. -/
def Layered (drawn : List (Operation α) → Prop) (c : Canvas α) : Prop :=
  ∃ layers : List (Layer α), c.operations = layers.flatMap Layer.operations ∧
    ∀ l ∈ layers, l.Fits drawn

namespace Layered

variable {drawn : List (Operation α) → Prop} {c : Canvas α}

theorem blank (number : Nat) : Layered drawn (.blank number : Canvas α) := ⟨[], rfl, nofun⟩

theorem congr (h : Layered drawn c) {d : Canvas α} (hoperations : d.operations = c.operations) :
    Layered drawn d := by
  obtain ⟨layers, hlayers, hfits⟩ := h
  exact ⟨layers, hoperations.trans hlayers, hfits⟩

theorem draw (h : Layered drawn c) {l : Layer α} (hl : l.Fits drawn) :
    Layered drawn (c.draw l.operations) := by
  obtain ⟨layers, hlayers, hfits⟩ := h
  refine ⟨layers ++ [l], by simp [Canvas.draw, hlayers], fun other hother => ?_⟩
  rcases List.mem_append.mp hother with hother | hother
  · exact hfits other hother
  · rw [List.mem_singleton.mp hother]
    exact hl

theorem on [Scalar α] (h : Layered drawn c) {p : Paint α}
    (hp : ∀ x y ops, p = .drawing x y ops → drawn ops) : Layered drawn (p.on c) := by
  cases p with
  | text words font x y =>
    exact (h.congr (d := c.useFont font.baseName) rfl).draw
      (l := .text words font.baseName font.size x y font.color.unit) trivial
  | fillBox b color => exact h.draw (l := .closed _) fun _ => rfl
  | strokeBox b color lineWidth => exact h.draw (l := .closed _) fun _ => rfl
  | line start finish width color dash =>
    exact h.draw (l := .closed _) (neutral_lineOperations start finish width _ dash)
  | image picture b =>
    exact (h.congr (d := (c.addImage picture).2) rfl).draw (l := .closed _) fun _ => rfl
  | drawing x y ops => exact h.draw (l := .drawing x y ops) (hp x y ops rfl)
  | note remark => exact h.congr rfl

theorem mono (h : Layered drawn c) {more : List (Operation α) → Prop}
    (hmore : ∀ ops, drawn ops → more ops) : Layered more c := by
  obtain ⟨layers, hlayers, hfits⟩ := h
  exact ⟨layers, hlayers, fun l hl => (hfits l hl).imp fun _ _ ops _ => hmore ops⟩

theorem drawRun [Scalar α] (h : Layered drawn c) (style : RunStyle α) (words : String)
    (x baseline width : α) : Layered drawn (c.drawRun style words x baseline width) := by
  have hpainted : Layered drawn
      ((runPaints style words x baseline width).foldl (fun c p => p.on c) c) :=
    List.foldlRecOn _ _ h fun c hc p hp => hc.on fun x y ops hdrawing =>
      absurd hdrawing (runPaints_not_drawing hp x y ops)
  refine hpainted.congr ?_
  unfold Canvas.drawRun
  cases runLink style x baseline width <;> rfl

end Layered

/-! ## What is kept -/

variable [Scalar α]

namespace Layout

/-- The page that is being filled is a row of layers. -/
def OnLayers (drawn : List (Operation α) → Prop) (s : Layout α) : Prop := Layered drawn s.page

variable {drawn : List (Operation α) → Prop} {s : Layout α}

theorem OnLayers.startPage (number : Nat) : OnLayers drawn (s.startPage number) := by
  unfold Layout.startPage OnLayers
  simp only
  split
  · exact .blank number
  · exact (Layered.blank number).on (p := .text _ _ _ _) nofun

theorem OnLayers.drawLine (h : s.OnLayers drawn) (run : InlineRun α) (line : LineBox α)
    (x width top : α) (align : TextAlign) :
    OnLayers drawn (s.drawLine run line x width top align) := by
  refine List.foldlRecOn (motive := OnLayers drawn) _ _ h fun s hs p _ => ?_
  cases p with
  | mark name x => exact hs
  | text style words x width =>
    simp only [Layout.drawPiece, drawRun_eq_onPage]
    exact Layered.drawRun hs ..

theorem OnLayers.act (h : s.OnLayers drawn) {a : Act α}
    (ha : ∀ ops, a.drawing? = some ops → drawn ops) : OnLayers drawn (a.apply s) := by
  cases a with
  | line l => exact h.drawLine ..
  | paint p => exact Layered.on h fun x y ops hp => ha ops (by rw [hp]; rfl)
  | use => exact Layered.congr h rfl
  | turn => exact .startPage _
  | toCursor cursor => exact h
  | toInset inset => exact h

theorem OnLayers.perform (h : s.OnLayers drawn) {acts : List (Act α)}
    (hacts : ∀ ops ∈ drawingsIn acts, drawn ops) : OnLayers drawn (Flow.perform acts s) := by
  refine List.foldlRecOn (motive := OnLayers drawn) acts _ h fun s hs a ha => ?_
  exact hs.act fun ops hops => hacts ops (List.mem_filterMap.mpr ⟨a, ha, hops⟩)

theorem OnLayers.call (h : s.OnLayers drawn) (call : Call α)
    (hnode : ∀ n, call = .add n → ∀ ops, ReadFrom (vectorsOf n) ops → drawn ops) :
    OnLayers drawn (call.apply s) := by
  cases call with
  | setGeometry geometry =>
    simp only [Call.apply, Layout.setGeometry]
    split <;> exact h
  | setInfo info => exact h
  | setFooter footer => exact h
  | setHeader header => exact h
  | addEvent event => exact h
  | openDocument =>
    simp only [Call.apply, Flow.openDocument]
    rw [run_bind, run_get]
    by_cases hphase : s.phase = .configuring
    · simp only [hphase, ↓reduceIte, run_modify]
      exact .startPage 1
    · simp only [hphase, ↓reduceIte, run_throw]
      exact h
  | add n =>
    simp only [Call.apply, Flow.add]
    rcases run_afterOpen (addBlock n) (s := s) with ⟨-, hrun⟩ | ⟨-, hrun⟩
    · rw [hrun, ← runs_scriptOf n s]
      exact h.perform fun ops hops => hnode n rfl ops ((scriptOf_draws n).read s ops hops)
    · rw [hrun]
      exact h
  | newPage =>
    by_cases hopen : s.phase = .opened
    · simp only [Call.apply]
      rw [run_newPage hopen]
      split
      · exact .startPage _
      · exact h
    · simp only [Call.apply, Flow.newPage]
      rcases run_afterOpen _ (s := s) with ⟨hphase, -⟩ | ⟨-, hrun⟩
      · exact absurd hphase hopen
      · rw [hrun]
        exact h

end Layout

theorem replay_onLayers (calls : List (Call α)) : (replay calls).OnLayers (DrawnBy calls) := by
  refine List.foldlRecOn (motive := Layout.OnLayers (DrawnBy calls)) calls _ (.blank 1)
    fun s h call hcall => h.call call fun n heq ops hops => ?_
  exact ⟨n, heq ▸ hcall, hops⟩

/-! ## Where a drawing begins -/

/-- Black fills and lines, a point wide and without gaps. -/
def Brush.initial : Brush α :=
  ⟨reals [0, 0, 0], reals [0, 0, 0], [.real 1], [.array [], .integer 0]⟩

/-- Where every page begins. -/
def GraphicsState.initial : GraphicsState α := ⟨.initial, []⟩

/-- What the first operation of a drawing finds in force if it is drawn on the page now. -/
def Canvas.brushFor (c : Canvas α) (x y : α) : Brush α :=
  (GraphicsState.initial.follow (c.operations ++ openDrawing x y)).brush

/-- Wherever a node draws, in whatever state, what is there on the page is a row of texts, of
earlier drawings and of stretches that leave everything as they find it. If the earlier drawings
restore what they change, then the drawing finds lines as every page begins with, and fills of the
colour of the last text. -/
theorem add_drawing_brush {calls : List (Call α)} (hopen : (replay calls).phase = .opened)
    {n : Node α} {before after : List (Act α)} {x y : α} {ops : List (Operation α)}
    (hscript : scriptOf n (replay calls) = before ++ .paint (.drawing x y ops) :: after) :
    let s := perform before (replay calls)
    ((add n).run (replay calls)).2 =
        perform after (s.onPage (·.draw (openDrawing x y ++ ops ++ [restoreState]))) ∧
      ∃ layers : List (Layer α), s.page.operations = layers.flatMap Layer.operations ∧
        (∀ l ∈ layers, l.Fits fun more => DrawnBy calls more ∨ more ∈ drawingsIn before) ∧
        ((∀ u v more, .drawing u v more ∈ layers → Contained more) →
          s.page.brushFor x y = Brush.initial.tinted (lastColor layers)) := by
  intro s
  have hadd : ((add n).run (replay calls)).2 =
      perform (scriptOf n (replay calls)) (replay calls) := by
    unfold add
    rcases run_afterOpen (addBlock n) (s := replay calls) with ⟨-, hrun⟩ | ⟨hclosed, -⟩
    · rw [hrun, runs_scriptOf]
    · exact absurd hopen hclosed
  have hcalls : (replay calls).OnLayers fun more => DrawnBy calls more ∨ more ∈ drawingsIn before :=
    Layered.mono (replay_onLayers calls) fun more hmore => .inl hmore
  have hbefore : s.OnLayers fun more => DrawnBy calls more ∨ more ∈ drawingsIn before :=
    hcalls.perform fun more hmore => .inr hmore
  obtain ⟨layers, hlayers, hfits⟩ := hbefore
  refine ⟨?_, layers, hlayers, hfits, fun hcontained => ?_⟩
  · rw [hadd, hscript, perform_append]
    rfl
  · have hkept : ∀ l ∈ layers, l.Fits Contained := fun l hl =>
      (hfits l hl).imp fun u v more heq _ => hcontained u v more (heq ▸ hl)
    unfold Canvas.brushFor
    rw [GraphicsState.follow_append, brush_follow_openDrawing]
    rw [hlayers, follow_layers hkept]
    rfl

theorem scriptOf_vectorGraphic {d : Drawable α} {content : Bytes} {ops : List (Operation α)}
    (hdrawing : d.drawing = .vector content) (hops : decodeOperations? content = some ops)
    (s : Layout α) : ∃ x y after, scriptOf (.vectorGraphic d) s =
      Layout.roomScript d.height s ++ .paint (.drawing x y ops) :: after := by
  unfold scriptOf Layout.drawableScript
  simp only [hdrawing, hops]
  exact ⟨_, _, _, rfl⟩

/-- A page with a red word on it. -/
def redWord : List (Call α) :=
  [.openDocument, .add (.text ⟨"Stop", { Font.standard with color := ⟨255, 0, 0⟩ }, none⟩)]

/-- A square, in whatever colour is in force. -/
def square : Drawable α := ⟨50, 50, .vector (asciiBytes "0 0 50 50 re f")⟩

theorem exists_scriptOf_square : ∃ x y ops after,
    scriptOf (.vectorGraphic square) (replay redWord) =
      Layout.roomScript (50 : ℚ) (replay redWord) ++ .paint (.drawing x y ops) :: after ∧
    ops.map (·.operator) = ["re", "f"] := by
  have hread : (decodeOperations? (asciiBytes "0 0 50 50 re f") : Option (List (Operation ℚ))).map
      (·.map (·.operator)) = some ["re", "f"] := by decide +kernel
  obtain ⟨ops, hops, hoperators⟩ := Option.map_eq_some_iff.mp hread
  obtain ⟨x, y, after, hscript⟩ := scriptOf_vectorGraphic (d := square) rfl hops (replay redWord)
  exact ⟨x, y, ops, after, hscript, hoperators⟩

/-- No drawing stands on the page with the red word. -/
theorem redWord_undrawn (more : List (Operation ℚ)) : ¬ (DrawnBy redWord more ∨
    more ∈ drawingsIn (Layout.roomScript (50 : ℚ) (replay redWord))) := by
  rintro (⟨n, hn, content, hcontent, -⟩ | hmore)
  · obtain rfl : n = .text ⟨"Stop", { Font.standard with color := ⟨255, 0, 0⟩ }, none⟩ := by
      simpa [redWord] using hn
    simp [vectorsOf] at hcontent
  · have hroom : (Layout.roomScript (50 : ℚ)).Draws [] := Layout.roomScript_draws 50
    obtain ⟨content, hcontent, -⟩ := hroom.read _ _ hmore
    cases hcontent

theorem add_drawing_brush_redWord : (replay (redWord : List (Call ℚ))).phase = .opened ∧
    ∃ before after x y ops, scriptOf (.vectorGraphic square) (replay (redWord : List (Call ℚ))) =
        before ++ .paint (.drawing x y ops) :: after ∧ ops.map (·.operator) = ["re", "f"] ∧
      ∃ color, (perform before (replay redWord)).page.brushFor x y =
        Brush.initial.tinted color := by
  obtain ⟨x, y, ops, after, hscript, hoperators⟩ := exists_scriptOf_square
  obtain ⟨-, layers, -, hfits, hbrush⟩ := add_drawing_brush (by decide +kernel) hscript
  refine ⟨by decide +kernel, _, after, x, y, ops, hscript, hoperators, _, hbrush ?_⟩
  exact fun u v more hmore => absurd (hfits _ hmore) (redWord_undrawn more)

/-- Behind a red word drawings are filled in red. -/
theorem add_drawing_brush_leaks :
    ¬ ∀ (calls : List (Call ℚ)) (n : Node ℚ) (before after : List (Act ℚ)) (x y : ℚ)
      (ops : List (Operation ℚ)), (replay calls).phase = .opened →
      scriptOf n (replay calls) = before ++ .paint (.drawing x y ops) :: after →
      (∀ more, DrawnBy calls more ∨ more ∈ drawingsIn before → Contained more) →
      (perform before (replay calls)).page.brushFor x y = Brush.initial := by
  intro h
  obtain ⟨x, y, ops, after, hscript, -⟩ := exists_scriptOf_square
  have hinitial := h redWord _ _ after x y ops (by decide +kernel) hscript
    fun more hmore => absurd hmore (redWord_undrawn more)
  have hred : (GraphicsState.initial.follow (perform (Layout.roomScript (50 : ℚ) (replay redWord))
      (replay redWord)).page.operations).brush.fill.map Obj.asScalar? =
        [some (1 : ℚ), some 0, some 0] := by decide +kernel
  rw [Canvas.brushFor, GraphicsState.follow_append, brush_follow_openDrawing] at hinitial
  rw [hinitial] at hred
  exact absurd hred (by decide +kernel)

end Folio.Flow
