import Folio.Proofs.Flow.Insets
import Folio.Proofs.Flow.Wrapping

/-!
# First lines of a paragraph

The blocks of a paragraph cut its inline content into runs, which are broken into lines and placed
one by one, all in the same column and all with the first-line indent of the paragraph. So each run
has a first line that stands in, and the paragraph has one only where no second run has a line.
-/
namespace Folio.Flow

open Style Layout Script

section

variable {α : Type} [Scalar α]

/-! ## Parts of a paragraph -/

/-- What a paragraph lays out as a whole: the inline content between two blocks, or a block. -/
inductive Part (α : Type) where
  | content (run : InlineRun α)
  | block (n : Node α)

/-- The parts of a paragraph; `run` is what has been gathered since the last block. -/
def partsOf (run : InlineRun α) : List (Node α) → List (Part α)
  | [] => [.content run]
  | n :: ns =>
    match collectInline none run n with
    | some run => partsOf run ns
    | none => .content run :: .block n :: partsOf .empty ns

namespace Part

def act (flow : TextFlow α) : Part α → FlowM α Unit
  | .content run => modify (·.flowInline run flow)
  | .block n => addBlock n

def script (flow : TextFlow α) : Part α → Script α
  | .content run => flowScript run flow
  | .block n => scriptOf n

theorem runs_script (flow : TextFlow α) (p : Part α) : (p.script flow).Runs (p.act flow) := by
  cases p with
  | content run => exact (does_flowScript run flow).runs
  | block n => exact runs_scriptOf n

theorem walks_act (flow : TextFlow α) (p : Part α) : Walks (p.act flow) := by
  cases p with
  | content run => exact walks_modify fun s => s.flowInline_steps run flow
  | block n => exact addBlock_walks n

end Part

/-- The parts that are laid out from `s` on, each with the layout that it finds; none comes behind
one that fails. -/
def laidParts (flow : TextFlow α) : List (Part α) → Layout α → List (Part α × Layout α)
  | [], _ => []
  | p :: ps, s => (p, s) :: match (p.act flow).run s with
    | (.ok _, t) => laidParts flow ps t
    | (.error _, _) => []

def actsOfParts (flow : TextFlow α) (laid : List (Part α × Layout α)) : List (Act α) :=
  laid.flatMap fun q => q.1.script flow q.2

/-- Behind a part come the others, unless it fails. -/
theorem actsOfParts_cons (flow : TextFlow α) (p : Part α) (ps : List (Part α)) :
    (fun s => actsOfParts flow (laidParts flow (p :: ps) s)) =
      unlessFailed (p.act flow) (p.script flow)
        fun s => actsOfParts flow (laidParts flow ps s) := by
  funext s
  have hruns := p.runs_script flow s
  simp only [laidParts, actsOfParts, List.flatMap_cons, unlessFailed]
  rw [hruns]
  rcases hr : (p.act flow).run s with ⟨r, t⟩
  cases r <;> rfl

/-- What is done for the children of a paragraph is what is done for its parts. -/
theorem scriptOfMixed_eq (flow : TextFlow α) (run : InlineRun α) (ns : List (Node α)) :
    scriptOfMixed flow run ns = fun s => actsOfParts flow (laidParts flow (partsOf run ns) s) := by
  induction ns generalizing run with
  | nil =>
    funext s
    unfold scriptOfMixed partsOf
    exact (List.append_nil _).symm
  | cons n ns ih =>
    unfold scriptOfMixed partsOf
    cases collectInline none run n with
    | some grown => exact ih grown
    | none =>
      rw [actsOfParts_cons, actsOfParts_cons, ih]
      rfl

/-! ## Lines of a run in its column -/

theorem ensureSpace_left (s : Layout α) (needed : α) : (s.ensureSpace needed).left = s.left := by
  unfold left
  rw [(steps_sameSetting (s.ensureSpace_steps needed)).geometry, ensureSpace_inset]

theorem flowLine_left (run : InlineRun α) (width : α) (flow : TextFlow α) (s : Layout α)
    (line : LineBox α × Nat) : (flowLine run width flow s line).left = s.left := by
  unfold left
  rw [(steps_sameSetting (flowLine_steps run width flow s line)).geometry, flowLine_inset]

theorem does_flowLineScript (run : InlineRun α) (width : α) (flow : TextFlow α)
    (line : LineBox α × Nat) :
    (flowLineScript run width flow line).Does fun s => flowLine run width flow s line :=
  (does_roomScript _).andThen
    ((does_act _).andThen ((does_lowerScript _).andThen does_useScript))

theorem linesIn_flowLineScript_eq (run : InlineRun α) (width : α) (flow : TextFlow α)
    (line : LineBox α × Nat) (s : Layout α) : linesIn (flowLineScript run width flow line s) =
      [flowingLine run width flow line (s.ensureSpace line.1.height)] := by
  simp only [flowLineScript, Script.andThen, linesIn_append, roomScript_quiet, List.nil_append,
    does_roomScript line.1.height s]
  rfl

end

/-- Behind the first line of a run none stands in. -/
theorem later_lines_placed (run : InlineRun ℚ) (width : ℚ) (flow : TextFlow ℚ)
    (lines : List (LineBox ℚ)) : ∀ (k : Nat) (s : Layout ℚ),
      ∀ l ∈ linesIn (each (flowLineScript run width flow) (lines.zipIdx (k + 1)) s),
        l.x = s.left ∧ l.width = width := by
  induction lines with
  | nil => exact fun _ _ => List.forall_mem_nil _
  | cons line lines ih =>
    intro k s l hl
    rw [List.zipIdx_cons] at hl
    simp only [each, Script.andThen, linesIn_append, linesIn_flowLineScript_eq,
      does_flowLineScript run width flow (line, k + 1) s, List.singleton_append] at hl
    rcases List.mem_cons.mp hl with rfl | hl
    · simp [flowingLine, ensureSpace_left]
    · have hplaced := ih (k + 1) _ l hl
      rwa [flowLine_left] at hplaced

/-- The lines of `run`, placed in a column from `x` on that is `width` wide: the first stands in and
has been broken for want of the room that it has less, and none of the others does. -/
structure SetIn (flow : TextFlow ℚ) (x width : ℚ) (run : InlineRun ℚ)
    (ls : List (PlacedLine ℚ)) : Prop where
  of_run : ∀ l ∈ ls, l.run = run
  lines : ls.map (·.line) = breakLines run width flow
  wrapped : Wraps (Breaking.room width flow) 0 run.tokens (ls.map (·.line.wrapped))
  first : ∀ l ∈ ls.head?, l.x = x + flow.firstLineIndent ∧ l.width = width - flow.firstLineIndent
  others : ∀ l ∈ ls.tail, l.x = x ∧ l.width = width

theorem flowScript_setIn (run : InlineRun ℚ) (flow : TextFlow ℚ) (s : Layout ℚ) :
    SetIn flow s.left s.availableWidth run (linesIn (flowScript run flow s)) := by
  obtain ⟨hrun, hlines⟩ : (∀ l ∈ linesIn (flowScript run flow s), l.run = run) ∧
      (linesIn (flowScript run flow s)).map (·.line) = breakLines run s.availableWidth flow := by
    unfold flowScript
    split
    · next hempty =>
      exact ⟨List.forall_mem_nil _, (breakLines_empty (List.isEmpty_iff.mp hempty) _ flow).symm⟩
    · have hall := linesIn_each_flowLineScript run s.availableWidth flow
        (breakLines run s.availableWidth flow).zipIdx s
      rwa [List.zipIdx_map_fst] at hall
  have hwrapped := breakLines_wraps run s.availableWidth flow
  rw [← hlines, List.map_map] at hwrapped
  have hplaced : (∀ l ∈ (linesIn (flowScript run flow s)).head?,
      l.x = s.left + flow.firstLineIndent ∧ l.width = s.availableWidth - flow.firstLineIndent) ∧
        ∀ l ∈ (linesIn (flowScript run flow s)).tail,
          l.x = s.left ∧ l.width = s.availableWidth := by
    unfold flowScript
    split
    · simp
    · cases breakLines run s.availableWidth flow with
      | nil => simp [each, nothing]
      | cons line lines =>
        have hlater := later_lines_placed run s.availableWidth flow lines 0
          (flowLine run s.availableWidth flow s (line, 0))
        rw [flowLine_left] at hlater
        rw [List.zipIdx_cons]
        simp only [each, Script.andThen, linesIn_append, linesIn_flowLineScript_eq,
          does_flowLineScript run s.availableWidth flow (line, 0) s, List.singleton_append]
        refine ⟨fun l hl => ?_, hlater⟩
        obtain rfl : _ = l := by simpa using hl
        simp [flowingLine, ensureSpace_left]
  exact ⟨hrun, hlines, hwrapped, hplaced.1, hplaced.2⟩

/-! ## The column of a paragraph -/

def Part.broken : Part ℚ → Option (List ℚ)
  | .content _ => none
  | .block n => brokenOff n

theorem Part.act_leaves (flow : TextFlow ℚ) (p : Part ℚ) : Leaves (p.act flow) p.broken := by
  cases p with
  | content run => exact leaves_modify fun s => s.flowInline_inset run flow
  | block n => exact addBlock_leaves n

/-- What succeeds leaves the inset where it was. -/
theorem Leaves.inset_of_ok {act : FlowM ℚ Unit} {broken : Option (List ℚ)} (h : Leaves act broken)
    {s t : Layout ℚ} (hok : act.run s = (.ok (), t)) : t.inset = s.inset := by
  obtain ⟨hresult, hinset⟩ := h s
  rw [hok] at hresult hinset
  cases broken with
  | none => simpa using hinset
  | some indents => simp at hresult

/-- All parts of a paragraph are laid out in the same column. -/
theorem laidParts_column (flow : TextFlow ℚ) (ps : List (Part ℚ)) : ∀ s : Layout ℚ,
    ∀ q ∈ laidParts flow ps s, q.2.geometry = s.geometry ∧ q.2.inset = s.inset := by
  induction ps with
  | nil => exact fun _ => List.forall_mem_nil _
  | cons p ps ih =>
    intro s q hq
    rcases List.mem_cons.mp hq with rfl | hq
    · exact ⟨rfl, rfl⟩
    · rcases hr : (p.act flow).run s with ⟨r, t⟩
      rw [hr] at hq
      cases r with
      | error e => cases hq
      | ok _ =>
        have hwalks := p.walks_act flow s
        rw [hr] at hwalks
        obtain ⟨hgeometry, hinset⟩ := ih t q hq
        exact ⟨hgeometry.trans (steps_sameSetting hwalks).geometry,
          hinset.trans ((p.act_leaves flow).inset_of_ok hr)⟩

/-! ## Lines that stand in -/

/-- The lines of its own that a paragraph has in a part. -/
def ownLines (flow : TextFlow ℚ) (q : Part ℚ × Layout ℚ) : List (PlacedLine ℚ) :=
  match q.1 with
  | .content run => linesIn (flowScript run flow q.2)
  | .block _ => []

/-- Where the others in a row are plain, and its first is plain if `plain` holds, all of them are
plain if there is none or `plain` holds. -/
theorem flatten_plain_iff {β : Type} {Plain : β → Prop} {plain : Prop} {rows : List (List β)}
    (hfirst : ∀ row ∈ rows, ∀ b ∈ row.head?, Plain b ↔ plain)
    (hothers : ∀ row ∈ rows, ∀ b ∈ row.tail, Plain b) :
    (∀ b ∈ rows.flatten, Plain b) ↔ plain ∨ rows.countP (!·.isEmpty) = 0 := by
  constructor
  · intro hall
    by_cases hplain : plain
    · exact .inl hplain
    · refine .inr (List.countP_eq_zero.mpr fun row hrow => ?_)
      cases row with
      | nil => simp
      | cons b bs =>
        have hb := hall b (List.mem_flatten.mpr ⟨_, hrow, List.mem_cons_self⟩)
        exact absurd ((hfirst _ hrow b rfl).mp hb) hplain
  · intro h b hb
    obtain ⟨row, hrow, hb⟩ := List.mem_flatten.mp hb
    cases row with
    | nil => cases hb
    | cons c cs =>
      rcases List.mem_cons.mp hb with rfl | hb
      · rcases h with hplain | hnone
        · exact (hfirst _ hrow b rfl).mpr hplain
        · simpa using List.countP_eq_zero.mp hnone _ hrow
      · exact hothers _ hrow b hb

theorem tail_plain_iff {β : Type} {Plain : β → Prop} {plain : Prop} {rows : List (List β)}
    (hfirst : ∀ row ∈ rows, ∀ b ∈ row.head?, Plain b ↔ plain)
    (hothers : ∀ row ∈ rows, ∀ b ∈ row.tail, Plain b) :
    (∀ b ∈ rows.flatten.tail, Plain b) ↔ plain ∨ rows.countP (!·.isEmpty) ≤ 1 := by
  induction rows with
  | nil => simp
  | cons row rows ih =>
    obtain ⟨hrow, hrows⟩ := List.forall_mem_cons.mp hothers
    have hfirsts := (List.forall_mem_cons.mp hfirst).2
    cases row with
    | nil => simpa using ih hfirsts hrows
    | cons b bs =>
      have hrest := flatten_plain_iff hfirsts hrows
      have htail : (∀ c ∈ ((b :: bs) :: rows).flatten.tail, Plain c) ↔
          ∀ c ∈ rows.flatten, Plain c := by
        simp only [List.flatten_cons, List.cons_append, List.tail_cons, List.forall_mem_append]
        exact and_iff_right hrow
      rw [htail, hrest]
      simp

/-- Neither opening nor closing a paragraph draws a line. -/
theorem linesIn_scriptOf_paragraph (s : Layout ℚ) (style : BlockStyle ℚ)
    (children : List (Node ℚ)) :
    linesIn (scriptOf (.paragraph style children) s) =
      linesIn (actsOfParts (flowOf style) (laidParts (flowOf style) (partsOf .empty children)
        (s.openParagraph style (flowOf style) children))) := by
  unfold scriptOf
  rw [Script.andThen, linesIn_append, openScript_quiet, List.nil_append,
    does_openScript style (flowOf style) children s, scriptOfMixed_eq, unlessFailed, linesIn_append]
  split
  · exact List.append_nil _
  · exact List.append_nil _

/-- A paragraph lays out its parts one after the other in one column. Every run of its inline
content has a first line, which stands in and has been broken for less room, and lines behind it
that do not. So the first line that the paragraph draws is the only one of its own that stands in
exactly if the indent is nought or no second run has a line. -/
theorem addParagraph_firstLines (s : Layout ℚ) (style : BlockStyle ℚ) (children : List (Node ℚ)) :
    let n : Node ℚ := .paragraph style children
    let flow := flowOf style
    let laid := laidParts flow (partsOf .empty children) (s.openParagraph style flow children)
    let own := laid.flatMap (ownLines flow)
    let x := s.left + style.indent
    let width := max (s.geometry.contentWidth - (s.inset + style.indent)) 1
    perform (scriptOf n s) s = ((addBlock n).run s).2 ∧
      linesIn (scriptOf n s) = laid.flatMap (fun q => linesIn (q.1.script flow q.2)) ∧
      (∀ run t, (.content run, t) ∈ laid →
        SetIn flow x width run (linesIn (flowScript run flow t))) ∧
      ((∀ l ∈ own.tail, l.x = x ∧ l.width = width) ↔
        style.firstLineIndent = 0 ∨ laid.countP (fun q => !(ownLines flow q).isEmpty) ≤ 1) := by
  intro n flow laid own x width
  have hset : ∀ run t, (.content run, t) ∈ laid →
      SetIn flow x width run (linesIn (flowScript run flow t)) := by
    intro run t ht
    obtain ⟨hgeometry, hinset⟩ := laidParts_column flow _ _ _ ht
    have hopened := s.openParagraph_inset style flow children
    have hsame := (steps_sameSetting (s.openParagraph_steps style flow children)).geometry
    have hleft : t.left = x := by
      rw [left, hgeometry, hinset, hopened, hsame, ← add_assoc]
      rfl
    have hwidth : t.availableWidth = width := by
      rw [availableWidth, hgeometry, hinset, hopened, hsame]
      rfl
    have hrun := flowScript_setIn run flow t
    rwa [hleft, hwidth] at hrun
  refine ⟨runs_scriptOf n s, ?_, hset, ?_⟩
  · rw [linesIn_scriptOf_paragraph, actsOfParts, linesIn, List.filterMap_flatMap]
    rfl
  · have hrows : ∀ row ∈ laid.map (ownLines flow),
        (∀ l ∈ row.head?, (l.x = x ∧ l.width = width) ↔ style.firstLineIndent = 0) ∧
          ∀ l ∈ row.tail, l.x = x ∧ l.width = width := by
      intro row hrow
      obtain ⟨⟨p, t⟩, hq, rfl⟩ := List.mem_map.mp hrow
      cases p with
      | block n => exact ⟨by simp [ownLines], by simp [ownLines]⟩
      | content run =>
        have hrun := hset run t hq
        refine ⟨fun l hl => ?_, hrun.others⟩
        obtain ⟨hx, hwidth⟩ := hrun.first l hl
        rw [hx, hwidth]
        simp [flow, flowOf]
    have hiff := tail_plain_iff (fun row hrow => (hrows row hrow).1)
      (fun row hrow => (hrows row hrow).2)
    rwa [List.countP_map] at hiff

/-- A paragraph of two words with a rule between them. -/
def ruledParagraph : Node ℚ :=
  let word (text : String) : Node ℚ := .text ⟨text, .standard, none⟩
  .paragraph ⟨.standard, .left, none, 0, 30, 0, 0, false⟩
    [word "one", .rule ⟨false, 2, 1, .black⟩, word "two"]

/-- The second line stands in like the first. -/
theorem addParagraph_secondFirstLine :
    (opened : Layout ℚ).left = 36 ∧ (opened : Layout ℚ).availableWidth = 523 ∧
      (linesIn (scriptOf ruledParagraph opened)).map
        (fun l => (l.line.tokens.map Token.text, l.x, l.width)) =
          [(["one"], 66, 493), (["two"], 66, 493)] := by
  decide +kernel

end Folio.Flow
