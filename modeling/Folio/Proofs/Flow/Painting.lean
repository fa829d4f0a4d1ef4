import Folio.Proofs.Flow.Contents
import Folio.Proofs.Flow.PageSequence

/-!
# How pages are painted

Whatever calls are made, every page is painted by a row of paints, in which only drawings of nodes
that have been added bring operations of their own, and is covered by an overlay when it is
finished.
So every page is consistent, and so is every state that the calls lead to.
-/
namespace Folio.Flow

open Style Pdf

variable {α : Type} [Scalar α]

/-! ## Drawings -/

mutual

/-- The contents of the drawings of a node, as far as blocks hold them. -/
def vectorsOf : Node α → List Bytes
  | .paragraph _ children => vectorsOfNodes children
  | .list _ items => vectorsOfItems items
  | .cell c | .gridCell c => vectorsOfCell c
  | .chart d | .vectorGraphic d =>
    match d.drawing with
    | .vector content => [content]
    | .raster .. => []
  | .chapter _ _ children | .subsection _ _ _ children => vectorsOfNodes children
  | .reference _ target => vectorsOf target
  | .table .. | .gridTable .. | .image _ | .note .. | .rule _ | .spacer .. | .rectangle _ => []
  | .text _ | .subscript _ | .superscript _ | .phrase .. | .anchor .. => []

def vectorsOfNodes : List (Node α) → List Bytes
  | [] => []
  | n :: ns => vectorsOf n ++ vectorsOfNodes ns

def vectorsOfCell : Cell α → List Bytes
  | .mk _ content => vectorsOf content

def vectorsOfItem : ListItem α → List Bytes
  | .chunk n | .phrase n => vectorsOf n

def vectorsOfItems : List (ListItem α) → List Bytes
  | [] => []
  | item :: rest => vectorsOfItem item ++ vectorsOfItems rest

end

def Act.drawing? : Act α → Option (List (Operation α))
  | .paint (.drawing _ _ ops) => some ops
  | _ => none

/-- The operations that acts take from drawings. -/
def drawingsIn (acts : List (Act α)) : List (List (Operation α)) := acts.filterMap Act.drawing?

omit [Scalar α] in
@[simp] theorem drawingsIn_append (acts more : List (Act α)) :
    drawingsIn (acts ++ more) = drawingsIn acts ++ drawingsIn more := by
  simp [drawingsIn]

/-- The operations can be read from one of the contents. -/
def ReadFrom (contents : List Bytes) (ops : List (Operation α)) : Prop :=
  ∃ content ∈ contents, decodeOperations? content = some ops

/-- All drawings of the script are read from the contents. -/
structure Script.Draws (script : Script α) (contents : List Bytes) : Prop where
  read : ∀ s, ∀ ops ∈ drawingsIn (script s), ReadFrom contents ops

namespace Script

variable {first next script : Script α} {contents more : List Bytes}

theorem draws_none (h : ∀ s, drawingsIn (script s) = []) : script.Draws contents := by
  refine ⟨fun s ops hops => ?_⟩
  rw [h s] at hops
  cases hops

theorem Draws.mono (h : script.Draws contents) (hmore : contents ⊆ more) : script.Draws more := by
  refine ⟨fun s ops hops => ?_⟩
  obtain ⟨content, hcontent, hread⟩ := h.read s ops hops
  exact ⟨content, hmore hcontent, hread⟩

theorem Draws.andThen (h : first.Draws contents) (k : next.Draws contents) :
    (first.andThen next).Draws contents := by
  refine ⟨fun s ops hops => ?_⟩
  rw [Script.andThen, drawingsIn_append] at hops
  rcases List.mem_append.mp hops with hops | hops
  · exact h.read s ops hops
  · exact k.read _ ops hops

theorem Draws.byCase {test : Layout α → Bool} (h : first.Draws contents)
    (k : next.Draws contents) : (Script.byCase test first next).Draws contents := by
  refine ⟨fun s => ?_⟩
  unfold Script.byCase
  cases test s with
  | true => exact h.read s
  | false => exact k.read s

theorem draws_each {β : Type} {script : β → Script α} (h : ∀ b, (script b).Draws contents)
    (bs : List β) : (each script bs).Draws contents := by
  induction bs with
  | nil => exact draws_none fun _ => rfl
  | cons b bs ih => exact (h b).andThen ih

theorem Draws.unlessFailed {act : FlowM α Unit} (h : first.Draws contents)
    (k : next.Draws contents) : (Script.unlessFailed act first next).Draws contents := by
  refine ⟨fun s ops hops => ?_⟩
  rw [Script.unlessFailed, drawingsIn_append] at hops
  rcases List.mem_append.mp hops with hops | hops
  · exact h.read s ops hops
  · split at hops
    · exact k.read _ ops hops
    · cases hops

end Script

namespace Layout

open Script

variable {contents : List Bytes}

theorem roomScript_draws (needed : α) : (roomScript needed).Draws contents :=
  Draws.byCase (draws_none fun _ => rfl) (draws_none fun _ => rfl)

theorem flowScript_draws (run : InlineRun α) (flow : TextFlow α) :
    (flowScript run flow).Draws contents := by
  have hline (width : α) (line : LineBox α × Nat) :
      (flowLineScript run width flow line).Draws contents :=
    (roomScript_draws _).andThen (draws_none fun _ => rfl)
  refine ⟨fun s => ?_⟩
  unfold flowScript
  split
  · exact List.forall_mem_nil _
  · exact (draws_each (hline s.availableWidth) _).read s

theorem drawingsIn_cellLines (run : InlineRun α) (x width : α) (align : TextAlign) (top : α)
    (lines : List (LineBox α)) : drawingsIn (cellLines run x width align top lines) = [] := by
  induction lines generalizing top with
  | nil => rfl
  | cons line lines ih => exact ih (top - line.height)

theorem rowScript_draws (style : TableStyle α) (x0 : α) (widths : List α) (cells : List (Cell α)) :
    (rowScript style x0 widths cells).Draws contents := by
  have hcell (top height : α) (p : Placed α) : drawingsIn (cellActs style top height p) = [] := by
    simp only [cellActs, cellBox, drawingsIn_append, drawingsIn_cellLines, List.append_nil]
    cases p.cell.style.background <;> cases p.cell.style.border && style.border <;> rfl
  have hcells (top height : α) (placed : List (Placed α)) :
      drawingsIn (placed.flatMap (cellActs style top height)) = [] := by
    simp only [drawingsIn, List.filterMap_flatMap]
    exact List.flatMap_eq_nil_iff.mpr fun p _ => hcell top height p
  refine draws_none fun s => ?_
  simp only [rowScript, drawingsIn_append, hcells]
  rfl

theorem tableScript_draws (style : TableStyle α) (header : List (Cell α))
    (rows : List (List (Cell α))) : (tableScript style header rows).Draws contents := by
  have hrow (x0 : α) (widths : List α) (row : List (Cell α)) :
      (bodyRowScript style header x0 widths row).Draws contents :=
    .andThen (.byCase (.andThen (draws_none fun _ => rfl)
      (.byCase (draws_none fun _ => rfl) (rowScript_draws ..))) (draws_none fun _ => rfl))
      (rowScript_draws ..)
  refine ⟨fun s => ?_⟩
  unfold tableScript
  refine (Draws.andThen ?_ ((draws_each (hrow _ _) rows).andThen (draws_none fun _ => rfl))).read s
  split
  · exact draws_none fun _ => rfl
  · exact (roomScript_draws _).andThen (rowScript_draws ..)

theorem drawingsIn_rasterActs (data : Bytes) (format : String) (pixels : Option (Nat × Nat))
    (b : Box α) : drawingsIn (rasterActs data format pixels b) = [] := by
  unfold rasterActs
  split <;> rfl

theorem placeScript_draws {height : α} {acts : Script α} (h : acts.Draws contents) :
    (placeScript height acts).Draws contents :=
  h.andThen (draws_none fun _ => rfl)

theorem drawableScript_draws (d : Drawable α) : (drawableScript d).Draws (match d.drawing with
    | .vector content => [content]
    | .raster .. => []) := by
  refine (roomScript_draws _).andThen ?_
  cases d.drawing with
  | raster data format => exact placeScript_draws (draws_none fun _ => drawingsIn_rasterActs ..)
  | vector content =>
    cases hops : (decodeOperations? content : Option (List (Operation α))) with
    | none =>
      simp only [hops]
      exact draws_none fun _ => rfl
    | some ops =>
      simp only [hops]
      refine placeScript_draws ⟨fun s more hmore => ?_⟩
      obtain rfl : more = ops := List.mem_singleton.mp hmore
      exact ⟨content, List.mem_singleton_self content, hops⟩

theorem openScript_draws (style : BlockStyle α) (flow : TextFlow α) (children : List (Node α)) :
    (openScript style flow children).Draws contents := by
  have hkeep : (keepScript flow children).Draws contents := by
    refine ⟨fun s => ?_⟩
    unfold keepScript
    split
    · simp only
      split
      · exact (roomScript_draws _).read s
      · exact List.forall_mem_nil _
    · exact List.forall_mem_nil _
  exact .andThen (.byCase (draws_none fun _ => rfl) (draws_none fun _ => rfl))
    (.andThen (draws_none fun _ => rfl) (.byCase hkeep (draws_none fun _ => rfl)))

theorem titleScript_draws (label : String) (title : Node α) (fallback : Font α) :
    (titleScript label title fallback).Draws contents :=
  (flowScript_draws ..).andThen (draws_none fun _ => rfl)

theorem chapterScript_draws (number : Nat) (title : Node α) :
    (chapterScript number title).Draws contents :=
  .andThen (.byCase (draws_none fun _ => rfl) (draws_none fun _ => rfl)) (titleScript_draws ..)

theorem indentedScript_draws (width : α) {script : Script α} (h : script.Draws contents) :
    (indentedScript width script).Draws contents :=
  .andThen (draws_none fun _ => rfl) (h.andThen (draws_none fun _ => rfl))

end Layout

open Layout Script

mutual

theorem scriptOf_draws : (n : Node α) → (scriptOf n).Draws (vectorsOf n)
  | .paragraph style children => by
    unfold scriptOf vectorsOf
    exact (openScript_draws ..).andThen
      ((scriptOfMixed_draws _ .empty children).unlessFailed (draws_none fun _ => rfl))
  | .list style items => by
    unfold scriptOf vectorsOf
    exact scriptOfItems_draws style 1 items
  | .table style header rows | .gridTable style header rows => by
    unfold scriptOf
    exact tableScript_draws style header rows
  | .cell c | .gridCell c => by
    unfold scriptOf vectorsOf
    exact scriptOfCell_draws c
  | .image image => by
    unfold scriptOf
    exact (roomScript_draws _).andThen
      (placeScript_draws (draws_none fun _ => drawingsIn_rasterActs ..))
  | .chart d | .vectorGraphic d => by
    unfold scriptOf vectorsOf
    exact drawableScript_draws d
  | .chapter number title children => by
    unfold scriptOf vectorsOf
    exact (chapterScript_draws number title).andThen (scriptOfNodes_draws children)
  | .subsection number indent title children => by
    unfold scriptOf vectorsOf
    exact (titleScript_draws _ title sectionFont).andThen
      (indentedScript_draws _ (scriptOfNodes_draws children))
  | .note title text => by
    unfold scriptOf
    exact draws_none fun _ => rfl
  | .rule r => by
    unfold scriptOf
    exact (roomScript_draws _).andThen (placeScript_draws (draws_none fun _ => rfl))
  | .spacer lines leading => by
    unfold scriptOf
    exact .andThen (.byCase (draws_none fun _ => rfl) (draws_none fun _ => rfl))
      (draws_none fun _ => rfl)
  | .rectangle r => by
    unfold scriptOf
    refine (roomScript_draws _).andThen (placeScript_draws (draws_none fun s => ?_))
    cases r.color <;> rfl
  | .reference _ target => by
    unfold scriptOf vectorsOf
    exact scriptOf_draws target
  | .text _ | .subscript _ | .superscript _ | .phrase .. | .anchor .. => by
    unfold scriptOf
    exact flowScript_draws ..

theorem scriptOfNodes_draws : (ns : List (Node α)) → (scriptOfNodes ns).Draws (vectorsOfNodes ns)
  | [] => by
    unfold scriptOfNodes
    exact draws_none fun _ => rfl
  | n :: ns => by
    unfold scriptOfNodes vectorsOfNodes
    exact ((scriptOf_draws n).mono (List.subset_append_left ..)).unlessFailed
      ((scriptOfNodes_draws ns).mono (List.subset_append_right ..))

theorem scriptOfCell_draws : (c : Cell α) → (scriptOfCell c).Draws (vectorsOfCell c)
  | .mk _ content => by
    unfold scriptOfCell vectorsOfCell
    exact scriptOf_draws content

theorem scriptOfMixed_draws (flow : TextFlow α) (run : InlineRun α) : (ns : List (Node α)) →
    (scriptOfMixed flow run ns).Draws (vectorsOfNodes ns)
  | [] => by
    unfold scriptOfMixed
    exact flowScript_draws ..
  | n :: ns => by
    unfold scriptOfMixed vectorsOfNodes
    split
    · exact (scriptOfMixed_draws flow _ ns).mono (List.subset_append_right ..)
    · exact (flowScript_draws ..).andThen
        (((scriptOf_draws n).mono (List.subset_append_left ..)).unlessFailed
          ((scriptOfMixed_draws flow .empty ns).mono (List.subset_append_right ..)))

theorem scriptOfItem_draws : (item : ListItem α) → (scriptOfItem item).Draws (vectorsOfItem item)
  | .chunk n | .phrase n => by
    unfold scriptOfItem vectorsOfItem
    exact scriptOf_draws n

theorem scriptOfItems_draws (style : ListStyle α) (index : Nat) : (items : List (ListItem α)) →
    (scriptOfItems style index items).Draws (vectorsOfItems items)
  | [] => by
    unfold scriptOfItems
    exact draws_none fun _ => rfl
  | item :: rest => by
    have hlabel : (labelScript style index).Draws (vectorsOfItem item ++ vectorsOfItems rest) := by
      unfold labelScript
      exact (roomScript_draws _).andThen (draws_none fun _ => rfl)
    have hclose (label : LabelPlace α) :
        (closeItemScript label).Draws (vectorsOfItem item ++ vectorsOfItems rest) :=
      .andThen (.byCase (draws_none fun _ => rfl) (draws_none fun _ => rfl))
        (draws_none fun _ => rfl)
    have hitem := indentedScript_draws (listIndent style)
      ((scriptOfItem_draws item).mono (List.subset_append_left _ (vectorsOfItems rest)))
    have hrest := (scriptOfItems_draws style (index + 1) rest).mono
      (List.subset_append_right (vectorsOfItem item) _)
    unfold scriptOfItems vectorsOfItems
    exact ⟨fun s => (hlabel.andThen (hitem.unlessFailed ((hclose _).andThen hrest))).read s⟩

end

/-! ## What acts keep -/

/-- An event that draws only through the interface of overlays. -/
def DrawsThrough (event : PageEvent α) : Prop := ∀ info o, Overlaid o (event info o)

/-- All pages are consistent, and nothing else can come of the events. -/
structure Tidy (drawn : List (Operation α) → Prop) (s : Layout α) : Prop where
  page : Consistent drawn s.page
  finished : ∀ c ∈ s.finished, Consistent drawn c
  events : ∀ event ∈ s.events, DrawsThrough event

namespace Tidy

variable {drawn : List (Operation α) → Prop} {s t : Layout α}

omit [Scalar α] in
/-- Neither the cursor nor the inset, nor the settings but for the events, say what pages look
like. -/
theorem congr (h : Tidy drawn s) (hpage : t.page = s.page) (hfinished : t.finished = s.finished)
    (hevents : t.events = s.events) : Tidy drawn t :=
  ⟨hpage ▸ h.page, hfinished ▸ h.finished, hevents ▸ h.events⟩

omit [Scalar α] in
theorem onPage (h : Tidy drawn s) {f : Canvas α → Canvas α}
    (hf : ∀ c, Consistent drawn c → Consistent drawn (f c)) : Tidy drawn (s.onPage f) :=
  ⟨hf s.page h.page, h.finished, h.events⟩

theorem startPage (h : Tidy drawn s) (number : Nat) : Tidy drawn (s.startPage number) := by
  have hblank : Tidy drawn { s with page := .blank number, cursor := Layout.top s.geometry } :=
    ⟨.blank number, h.finished, h.events⟩
  unfold Layout.startPage
  simp only
  split
  · exact hblank
  · exact hblank.onPage fun c hc => hc.on (p := .text _ _ _ _) nofun

theorem overlaid_furniture (h : Tidy drawn s) : Overlaid .empty s.furniture := by
  refine List.foldlRecOn (motive := Overlaid .empty) s.events _ ?_ fun o ho event hevent =>
    ho.trans (h.events event hevent _ o)
  cases s.footer with
  | none => exact .refl _
  | some footer =>
    simp only [RunningFooter.draw]
    split
    · exact .refl _
    · exact (Overlaid.refl _).text ..

theorem finishPage (h : Tidy drawn s) : Tidy drawn s.finishPage := by
  refine ⟨.blank _, fun c hc => ?_, h.events⟩
  rcases List.mem_append.mp hc with hc | hc
  · exact h.finished c hc
  · rw [List.mem_singleton.mp hc]
    exact h.page.cover h.overlaid_furniture

theorem drawLine (h : Tidy drawn s) (run : InlineRun α) (line : LineBox α) (x width top : α)
    (align : TextAlign) : Tidy drawn (s.drawLine run line x width top align) := by
  refine List.foldlRecOn (motive := Tidy drawn) _ _ h fun s hs p _ => ?_
  cases p with
  | mark name x => exact hs.congr rfl rfl rfl
  | text style words x width =>
    simp only [Layout.drawPiece, drawRun_eq_onPage]
    exact hs.onPage fun c hc => hc.drawRun ..

theorem act (h : Tidy drawn s) {a : Act α} (ha : ∀ ops, a.drawing? = some ops → drawn ops) :
    Tidy drawn (a.apply s) := by
  cases a with
  | line l => exact h.drawLine ..
  | paint p =>
    refine h.onPage fun c hc => hc.on (p := p) fun x y ops hp => ?_
    exact ha ops (by rw [hp]; rfl)
  | use =>
    exact h.onPage (f := fun c => { c with hasContent := true }) fun c hc => hc.congr rfl rfl rfl
  | turn => exact h.finishPage.startPage _
  | toCursor cursor => exact h.congr rfl rfl rfl
  | toInset inset => exact h.congr rfl rfl rfl

theorem perform (h : Tidy drawn s) {acts : List (Act α)}
    (hacts : ∀ ops ∈ drawingsIn acts, drawn ops) : Tidy drawn (Flow.perform acts s) := by
  induction acts generalizing s with
  | nil => exact h
  | cons a acts ih =>
    rw [perform_cons]
    refine ih (h.act fun ops hops => hacts ops ?_) fun ops hops => hacts ops ?_
    · exact List.mem_filterMap.mpr ⟨a, List.mem_cons_self, hops⟩
    · obtain ⟨b, hb, hread⟩ := List.mem_filterMap.mp hops
      exact List.mem_filterMap.mpr ⟨b, List.mem_cons_of_mem a hb, hread⟩

/-! ## What calls keep -/

theorem add (h : Tidy drawn s) {n : Node α} (hn : ∀ ops, ReadFrom (vectorsOf n) ops → drawn ops) :
    Tidy drawn ((Flow.add n).run s).2 := by
  unfold Flow.add
  rcases run_afterOpen (addBlock n) (s := s) with ⟨-, hrun⟩ | ⟨-, hrun⟩
  · rw [hrun, ← runs_scriptOf n s]
    exact h.perform fun ops hops => hn ops ((scriptOf_draws n).read s ops hops)
  · rw [hrun]
    exact h

theorem newPage (h : Tidy drawn s) : Tidy drawn (Flow.newPage.run s).2 := by
  by_cases hopen : s.phase = .opened
  · rw [run_newPage hopen]
    split
    · exact h.finishPage.startPage _
    · exact h
  · unfold Flow.newPage
    rcases run_afterOpen _ (s := s) with ⟨hphase, -⟩ | ⟨-, hrun⟩
    · exact absurd hphase hopen
    · rw [hrun]
      exact h

theorem openDocument (h : Tidy drawn s) :
    Tidy drawn ((Flow.openDocument.run s : Except EngineError Unit × Layout α)).2 := by
  unfold Flow.openDocument
  rw [run_bind, run_get]
  by_cases hphase : s.phase = .configuring
  · simp only [hphase, ↓reduceIte, run_modify]
    exact (h.congr rfl rfl rfl : Tidy drawn { s with phase := .opened }).startPage 1
  · simp only [hphase, ↓reduceIte, run_throw]
    exact h

theorem call (h : Tidy drawn s) (call : Call α)
    (hevent : ∀ event, call = .addEvent event → DrawsThrough event)
    (hnode : ∀ n, call = .add n → ∀ ops, ReadFrom (vectorsOf n) ops → drawn ops) :
    Tidy drawn (call.apply s) := by
  cases call with
  | setGeometry geometry =>
    simp only [Call.apply, Layout.setGeometry]
    split
    · exact h.congr rfl rfl rfl
    · exact h
  | setInfo info => exact h.congr rfl rfl rfl
  | setFooter footer => exact h.congr rfl rfl rfl
  | setHeader header => exact h.congr rfl rfl rfl
  | addEvent event =>
    refine ⟨h.page, h.finished, fun other hother => ?_⟩
    rcases List.mem_append.mp hother with hother | hother
    · exact h.events other hother
    · rw [List.mem_singleton.mp hother]
      exact hevent event rfl
  | openDocument => exact h.openDocument
  | add n => exact h.add (hnode n rfl)
  | newPage => exact h.newPage

theorem conclude (h : Tidy drawn s) : Tidy drawn s.conclude := by
  unfold Layout.conclude
  split
  · exact h.finishPage.congr rfl rfl rfl
  · exact h.congr rfl rfl rfl

end Tidy

/-- Operations that can be read from a drawing of a node that one of the calls adds. -/
def DrawnBy (calls : List (Call α)) (ops : List (Operation α)) : Prop :=
  ∃ n, .add n ∈ calls ∧ ReadFrom (vectorsOf n) ops

theorem replay_tidy (calls : List (Call α))
    (hevents : ∀ event, .addEvent event ∈ calls → DrawsThrough event) :
    Tidy (DrawnBy calls) (replay calls) := by
  refine List.foldlRecOn (motive := Tidy (DrawnBy calls)) calls _ ⟨.blank 1, nofun, nofun⟩
    fun s h call hcall => h.call call (fun event heq => ?_) fun n heq ops hops => ?_
  · exact hevents event (heq ▸ hcall)
  · exact ⟨n, heq ▸ hcall, hops⟩

end Folio.Flow
