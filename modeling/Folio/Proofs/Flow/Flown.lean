import Folio.Flow.Engine
import Folio.Proofs.Flow.PageSequence

/-!
# The lines that flow onto pages

Every line of inline content that is drawn while a node is added, with the layout that it was drawn
in. The walk through a node is the one by which it is added: what follows a part starts from the
layout that the part leaves, and nothing follows a failure. The run that adds the node passes
through these lines in their order.
-/
namespace Folio.Flow

open Style

variable {α : Type} [Scalar α]

/-- A line that flows onto the page, with the layout before room is made for it. -/
structure Flown (α : Type) where
  before : Layout α
  run : InlineRun α
  line : LineBox α

namespace Flown

/-- The layout that a line is drawn in, at the cursor. -/
def on (f : Flown α) : Layout α := f.before.ensureSpace f.line.height

def bottom (f : Flown α) : α := f.on.cursor - f.line.height

end Flown

namespace Layout

def flownFrom (run : InlineRun α) (width : α) (flow : TextFlow α) (s : Layout α) :
    List (LineBox α × Nat) → List (Flown α)
  | [] => []
  | line :: rest =>
    ⟨s, run, line.1⟩ :: flownFrom run width flow (flowLine run width flow s line) rest

/-- The lines of inline content. -/
def flown (s : Layout α) (run : InlineRun α) (flow : TextFlow α) : List (Flown α) :=
  if run.tokens.isEmpty then []
  else flownFrom run s.availableWidth flow s (breakLines run s.availableWidth flow).zipIdx

def flownInline (s : Layout α) (n : Node α) : List (Flown α) :=
  s.flown ((collectInline none .empty n).getD .empty) .plain

/-- The lines of a title. -/
def flownTitle (s : Layout α) (label : String) (title : Node α) (fallback : Font α) :
    List (Flown α) :=
  s.flown (titleRun label title (title.firstFont?.getD fallback))
    { TextFlow.plain with leading := titleLeading title }

end Layout

/-- The lines that are drawn, by the layout that is there before. -/
abbrev Lines (α : Type) := Layout α → List (Flown α)

/-- The lines of `act`, and of what follows it if it succeeds. -/
def linesThen (act : FlowM α Unit) (first next : Lines α) : Lines α := fun s =>
  first s ++ match act.run s with
    | (.ok _, t) => next t
    | (.error _, _) => []

mutual

/-- The lines that are drawn while a node is added. -/
def linesOf : Node α → Lines α
  | .paragraph style children => fun s =>
    linesOfMixed (flowOf style) .empty children (s.openParagraph style (flowOf style) children)
  | .list style items => linesOfItems style 1 items
  | .cell c | .gridCell c => linesOfCell c
  | .chapter number title children =>
    linesThen (modify (·.openChapter number title))
      (fun s => (if s.page.hasContent then s.breakPage else s).flownTitle (toString number ++ ".")
        title chapterFont)
      (linesOfNodes children)
  | .subsection number indent title children =>
    linesThen (modify (·.addTitle (sectionLabel number) title sectionFont))
      (·.flownTitle (sectionLabel number) title sectionFont)
      fun s => linesOfNodes children { s with inset := s.inset + indent }
  | .reference _ target => linesOf target
  | .text run => (·.flownInline (.text run))
  | .subscript run => (·.flownInline (.subscript run))
  | .superscript run => (·.flownInline (.superscript run))
  | .phrase style children => (·.flownInline (.phrase style children))
  | .anchor ends shape content => (·.flownInline (.anchor ends shape content))
  | .table .. | .gridTable .. | .image _ | .chart _ | .vectorGraphic _ => fun _ => []
  | .note .. | .rule _ | .spacer .. | .rectangle _ => fun _ => []

def linesOfNodes : List (Node α) → Lines α
  | [] => fun _ => []
  | n :: ns => linesThen (addBlock n) (linesOf n) (linesOfNodes ns)

def linesOfCell : Cell α → Lines α
  | .mk _ content => linesOf content

def linesOfMixed (flow : TextFlow α) (run : InlineRun α) : List (Node α) → Lines α
  | [] => (·.flown run flow)
  | n :: ns =>
    match collectInline none run n with
    | some run => linesOfMixed flow run ns
    | none => linesThen (modify (·.flowInline run flow)) (·.flown run flow)
        (linesThen (addBlock n) (linesOf n) (linesOfMixed flow .empty ns))

def linesOfItem : ListItem α → Lines α
  | .chunk n | .phrase n => linesOf n

def linesOfItems (style : ListStyle α) (index : Nat) : List (ListItem α) → Lines α
  | [] => fun _ => []
  | item :: rest => fun s =>
    linesThen (indented (listIndent style) (addItem item))
      (fun s => linesOfItem item { s with inset := s.inset + listIndent style })
      (fun t => linesOfItems style (index + 1) rest (t.closeItem (s.drawLabel style index).1))
      (s.drawLabel style index).2

end

/-- The lines that are drawn by a call. -/
def Call.lines : Call α → Lines α
  | .add n => fun s => if s.phase = .opened then linesOf n s else []
  | _ => fun _ => []

/-- The lines that are drawn by a row of calls. -/
def linesOfCalls : List (Call α) → Lines α
  | [] => fun _ => []
  | call :: calls => fun s => call.lines s ++ linesOfCalls calls (call.apply s)

/-! ## Lines that are drawn -/

open Layout

/-- Steps from `s` to `t` on which the lines are drawn, one after the other. -/
inductive Passes : Layout α → List (Flown α) → Layout α → Prop
  | none {s t : Layout α} (h : Steps s t) : Passes s [] t
  | line {s t : Layout α} {f : Flown α} {fs : List (Flown α)} (h : Steps s f.before) (width : α)
      (flow : TextFlow α) (index : Nat)
      (k : Passes (flowLine f.run width flow f.before (f.line, index)) fs t) : Passes s (f :: fs) t

namespace Passes

variable {s t u : Layout α} {fs gs : List (Flown α)}

theorem append (h : Passes s fs t) (k : Passes t gs u) : Passes s (fs ++ gs) u := by
  induction h with
  | none h =>
    cases k with
    | none hsteps => exact .none (h.trans hsteps)
    | line hsteps width flow index k => exact .line (h.trans hsteps) width flow index k
  | line h width flow index _ ih => exact .line h width flow index (ih k)

theorem after (h : Steps s t) (k : Passes t fs u) : Passes s fs u := append (.none h) k

theorem before (k : Passes s fs t) (h : Steps t u) : Passes s fs u := by
  simpa using append k (.none h)

end Passes

theorem flowInline_passes (s : Layout α) (run : InlineRun α) (flow : TextFlow α) :
    Passes s (s.flown run flow) (s.flowInline run flow) := by
  have hfrom (width : α) (lines : List (LineBox α × Nat)) : ∀ t : Layout α,
      Passes t (flownFrom run width flow t lines) (lines.foldl (flowLine run width flow) t) := by
    induction lines with
    | nil => exact fun _ => .none .refl
    | cons line lines ih => exact fun t => .line .refl width flow line.2 (ih _)
  unfold flown flowInline
  split
  · exact .none .refl
  · exact hfrom _ _ s

theorem addTitle_passes (s : Layout α) (label : String) (title : Node α) (fallback : Font α) :
    Passes s (s.flownTitle label title fallback) (s.addTitle label title fallback) :=
  (flowInline_passes s _ _).before (lower_steps _ _)

theorem openChapter_passes (s : Layout α) (number : Nat) (title : Node α) :
    Passes s ((if s.page.hasContent then s.breakPage else s).flownTitle (toString number ++ ".")
      title chapterFont) (s.openChapter number title) := by
  refine .after ?_ (addTitle_passes _ _ title chapterFont)
  split
  · next h => exact s.breakPage_steps h
  · exact .refl

/-- Every run of `act` draws the lines on its way. -/
def Flows (act : FlowM α Unit) (lines : Lines α) : Prop := ∀ s, Passes s (lines s) (act.run s).2

theorem Walks.flows {act : FlowM α Unit} (h : Walks act) : Flows act fun _ => [] :=
  fun s => .none (h s)

theorem Flows.then {act next : FlowM α Unit} {first rest : Lines α} (h : Flows act first)
    (k : Flows next rest) : Flows (act >>= fun _ => next) (linesThen act first rest) := by
  intro s
  have hs := h s
  unfold linesThen
  rw [run_bind]
  rcases hr : act.run s with ⟨r, t⟩
  rw [hr] at hs
  cases r with
  | error e => exact hs.append (.none .refl)
  | ok _ => exact hs.append (k t)

theorem Flows.indented {act : FlowM α Unit} {lines : Lines α} (h : Flows act lines) (width : α) :
    Flows (indented width act) fun s => lines { s with inset := s.inset + width } := by
  intro s
  refine .after (s.move_steps s.cursor (s.inset + width)) ?_
  exact (h _).before (move_steps _ _ (_ - width))

omit [Scalar α] in
theorem linesThen_nil (act : FlowM α Unit) (lines : Lines α) :
    linesThen act lines (fun _ => []) = lines := by
  funext s
  unfold linesThen
  split <;> exact List.append_nil _

theorem Flows.before {act next : FlowM α Unit} {lines : Lines α} (h : Flows act lines)
    (k : Walks next) : Flows (act >>= fun _ => next) lines :=
  linesThen_nil act lines ▸ h.then k.flows

theorem Flows.after {f : Layout α → Layout α} (hf : ∀ s, Steps s (f s)) {act : FlowM α Unit}
    {lines : Lines α} (h : Flows act lines) :
    Flows (modify f >>= fun _ => act) fun s => lines (f s) :=
  fun s => .after (hf s) (h (f s))

theorem run_addBlock_paragraph (style : BlockStyle α) (children : List (Node α)) (s : Layout α) :
    (addBlock (.paragraph style children)).run s =
      match (addMixed (flowOf style) .empty children).run
        (s.openParagraph style (flowOf style) children) with
      | (.ok _, t) => (.ok (), t.closeParagraph style)
      | (.error e, t) => (.error e, t) := by
  have hrun := run_bind (addMixed (flowOf style) .empty children)
    (fun _ => modify (·.closeParagraph style)) (s.openParagraph style (flowOf style) children)
  rw [addBlock]
  refine hrun.trans ?_
  rcases (addMixed (flowOf style) .empty children).run
    (s.openParagraph style (flowOf style) children) with ⟨_ | _, t⟩ <;> rfl

/-- An item goes on from where its label was drawn. -/
theorem run_addItems_cons (style : ListStyle α) (index : Nat) (item : ListItem α)
    (rest : List (ListItem α)) (s : Layout α) : (addItems style index (item :: rest)).run s =
      (indented (listIndent style) (addItem item) >>= fun _ =>
        modify (·.closeItem (s.drawLabel style index).1) >>= fun _ =>
          addItems style (index + 1) rest).run (s.drawLabel style index).2 := by
  rw [addItems]
  rfl

mutual

theorem addBlock_flows : (n : Node α) → Flows (addBlock n) (linesOf n)
  | .paragraph style children => by
    have hmixed := addMixed_flows (flowOf style) .empty children
    have hclose : Walks (modify (·.closeParagraph style) : FlowM α PUnit) :=
      walks_modify fun s => s.closeParagraph_steps style
    unfold addBlock linesOf
    exact (hmixed.before hclose).after fun s => s.openParagraph_steps ..
  | .list style items => by
    unfold addBlock linesOf
    exact addItems_flows style 1 items
  | .cell c | .gridCell c => by
    unfold addBlock linesOf
    exact addCell_flows c
  | .chapter number title children => by
    have hopen : Flows (modify (·.openChapter number title)) _ :=
      fun s => openChapter_passes s number title
    unfold addBlock linesOf
    exact hopen.then (addBlocks_flows children)
  | .subsection number indent title children => by
    have htitle : Flows (modify (·.addTitle (sectionLabel number) title sectionFont)) _ :=
      fun s => addTitle_passes s _ title sectionFont
    unfold addBlock linesOf
    exact htitle.then ((addBlocks_flows children).indented indent)
  | .reference _ target => by
    unfold addBlock linesOf
    exact addBlock_flows target
  | .table .. | .gridTable .. | .image _ | .chart _ | .vectorGraphic _ | .note .. | .rule _
  | .spacer .. | .rectangle _ => by
    unfold linesOf
    exact (addBlock_walks _).flows
  | .text _ | .subscript _ | .superscript _ | .phrase .. | .anchor .. => by
    unfold addBlock linesOf
    exact fun s => flowInline_passes s _ _

theorem addBlocks_flows : (ns : List (Node α)) → Flows (addBlocks ns) (linesOfNodes ns)
  | [] => by
    unfold addBlocks linesOfNodes
    exact (walks_pure ()).flows
  | n :: ns => by
    unfold addBlocks linesOfNodes
    exact (addBlock_flows n).then (addBlocks_flows ns)

theorem addCell_flows : (c : Cell α) → Flows (addCell c) (linesOfCell c)
  | .mk _ content => by
    unfold addCell linesOfCell
    exact addBlock_flows content

theorem addMixed_flows (flow : TextFlow α) (run : InlineRun α) :
    (ns : List (Node α)) → Flows (addMixed flow run ns) (linesOfMixed flow run ns)
  | [] => by
    unfold addMixed linesOfMixed
    exact fun s => flowInline_passes s run flow
  | n :: ns => by
    have hinline : Flows (modify (·.flowInline run flow)) _ := fun s => flowInline_passes s run flow
    unfold addMixed linesOfMixed
    cases collectInline none run n with
    | some grown => exact addMixed_flows flow grown ns
    | none => exact hinline.then ((addBlock_flows n).then (addMixed_flows flow .empty ns))

theorem addItem_flows : (item : ListItem α) → Flows (addItem item) (linesOfItem item)
  | .chunk n | .phrase n => by
    unfold addItem linesOfItem
    exact addBlock_flows n

theorem addItems_flows (style : ListStyle α) (index : Nat) : (items : List (ListItem α)) →
    Flows (addItems style index items) (linesOfItems style index items)
  | [] => by
    unfold addItems linesOfItems
    exact (walks_pure ()).flows
  | item :: rest => by
    intro s
    have hrest := (addItems_flows style (index + 1) rest).after
      fun t => t.closeItem_steps (s.drawLabel style index).1
    rw [run_addItems_cons]
    unfold linesOfItems
    exact .after (s.drawLabel_steps style index)
      (((addItem_flows item).indented (listIndent style)).then hrest _)

end

/-- Every line that a call is said to draw is drawn on its way, in this order. -/
theorem add_flows (n : Node α) (s : Layout α) :
    Passes s ((Call.add n).lines s) ((Call.add n).apply s) := by
  change Passes s (if s.phase = .opened then linesOf n s else []) ((add n).run s).2
  unfold add
  rcases run_afterOpen (addBlock n) (s := s) with ⟨hopen, hrun⟩ | ⟨hclosed, hrun⟩
  · rw [hrun, if_pos hopen]
    exact addBlock_flows n s
  · rw [hrun, if_neg hclosed]
    exact .none .refl

end Folio.Flow
