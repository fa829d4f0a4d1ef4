import Folio.Proofs.Flow.Links

/-!
# Collecting into a run

Inline content is collected into a run that is changed in place, and the answer says whether a node
has an inline form at all: the caller goes on with the run as it is left and puts the node into it
as plain text, or draws it as a block. Written out that way, with the run handed on whatever the
answer is, collecting leaves the run alone where it says no. Where it says yes, the tokens and
styles of the run stay where they are, and every token behind them has its style in the run.
-/
namespace Folio.Flow

open Style

variable {α : Type} [Scalar α]

/-! ## In place -/

mutual

/-- Collects a node: does it have an inline form, and what has become of the run? -/
def collectInto (link : Option String) (run : InlineRun α) : Node α → Bool × InlineRun α
  | .text t => (true, run.pushText t.text ⟨t.font, 0, t.background, link⟩)
  | .subscript t => (true, run.pushText t.text ⟨t.font, -t.font.size * 0.3, t.background, link⟩)
  | .superscript t => (true, run.pushText t.text ⟨t.font, t.font.size * 0.4, t.background, link⟩)
  | .phrase style children => (true, collectEach style.font link run children)
  | .anchor ends _ content =>
    let plain : RunStyle α := .plain .standard link
    let marked := match ends.id with
      | some id => run.pushMark id plain
      | none => run
    match collectInto (ends.target.or link) marked content with
    | (true, run) => (true, run)
    | (false, run) => (true, run.pushText content.textContent plain)
  | .reference _ target => collectInto link run target
  | _ => (false, run)

/-- Collects children in order, each into what the one before has left; the text of a block stands
for it. -/
def collectEach (font : Font α) (link : Option String) (run : InlineRun α) :
    List (Node α) → InlineRun α
  | [] => run
  | child :: rest =>
    match collectInto link run child with
    | (true, run) => collectEach font link run rest
    | (false, run) =>
      collectEach font link (run.pushText child.textContent (.plain font link)) rest

end

mutual

/-- A node that is refused leaves the run as it was, and one that is taken leaves what it has been
collected into. -/
theorem collectInto_eq : (n : Node α) → ∀ (link : Option String) (run : InlineRun α),
    collectInto link run n =
      ((collectInline link run n).isSome, (collectInline link run n).getD run)
  | .text t, link, run | .subscript t, link, run | .superscript t, link, run => rfl
  | .phrase style children, link, run => by
    simp only [collectInto, collectInline, collectEach_eq children]
    rfl
  | .anchor ends shape content, link, run => by
    have hcontent := collectInto_eq content (ends.target.or link)
    unfold collectInto collectInline
    cases ends.id with
    | none =>
      simp only [hcontent run]
      cases collectInline (ends.target.or link) run content <;> rfl
    | some id =>
      simp only [hcontent (run.pushMark id _)]
      cases collectInline (ends.target.or link) (run.pushMark id _) content <;> rfl
  | .reference id target, link, run => by
    simp only [collectInto, collectInline, collectInto_eq target]
  | .paragraph .., _, _ | .list .., _, _ | .table .., _, _
  | .gridTable .., _, _ | .cell _, _, _ | .gridCell _, _, _
  | .image _, _, _ | .chart _, _, _ | .vectorGraphic _, _, _
  | .note .., _, _ | .chapter .., _, _ | .subsection .., _, _
  | .rule _, _, _ | .spacer .., _, _ | .rectangle _, _, _ => by
    simp [collectInto, collectInline]

theorem collectEach_eq : (ns : List (Node α)) → ∀ (font : Font α) (link : Option String)
    (run : InlineRun α), collectEach font link run ns = collectChildren font link run ns
  | [], font, link, run => rfl
  | n :: ns, font, link, run => by
    simp only [collectEach, collectChildren, collectInto_eq n]
    cases collectInline link run n with
    | some grown => exact collectEach_eq ns font link grown
    | none => exact collectEach_eq ns font link _

end

/-! ## Only appending -/

/-- A run that has been added to: its tokens and styles stand where they stood, and every token
behind them has its style in the run. -/
structure Appended (run grown : InlineRun α) : Prop where
  styles : run.styles <+: grown.styles
  tokens : ∃ added, grown.tokens = run.tokens ++ added ∧ ∀ t ∈ added, t.style < grown.styles.length

namespace Appended

variable {run grown more : InlineRun α}

omit [Scalar α] in
theorem refl (run : InlineRun α) : Appended run run :=
  ⟨List.prefix_rfl, [], (List.append_nil _).symm, List.forall_mem_nil _⟩

omit [Scalar α] in
theorem trans (h : Appended run grown) (k : Appended grown more) : Appended run more := by
  obtain ⟨added, htokens, hadded⟩ := h.tokens
  obtain ⟨behind, hmore, hbehind⟩ := k.tokens
  refine ⟨h.styles.trans k.styles, added ++ behind, ?_, ?_⟩
  · rw [hmore, htokens, List.append_assoc]
  · intro t ht
    rcases List.mem_append.mp ht with ht | ht
    · exact (hadded t ht).trans_le k.styles.length_le
    · exact hbehind t ht

theorem pushText (run : InlineRun α) (text : String) (style : RunStyle α) :
    Appended run (run.pushText text style) := by
  obtain ⟨hstyles, hindex, -⟩ := styleIndex_spec run style
  refine ⟨hstyles, tokenize (run.styleIndex style).1 style.font [] text.toList, ?_, ?_⟩
  · simp [InlineRun.pushText, tokens_styleIndex]
  · intro t ht
    rw [style_tokenize _ _ _ _ t ht]
    exact hindex

theorem pushMark (run : InlineRun α) (name : String) (style : RunStyle α) :
    Appended run (run.pushMark name style) := by
  obtain ⟨hstyles, hindex, -⟩ := styleIndex_spec run style
  refine ⟨hstyles, [⟨name, (run.styleIndex style).1, 0, .mark⟩], ?_, ?_⟩
  · simp [InlineRun.pushMark, tokens_styleIndex]
  · intro t ht
    rw [List.mem_singleton.mp ht]
    exact hindex

end Appended

mutual

theorem collectInto_appended : (n : Node α) → ∀ (link : Option String) (run : InlineRun α),
    Appended run (collectInto link run n).2
  | .text t, link, run | .subscript t, link, run | .superscript t, link, run =>
    .pushText ..
  | .phrase style children, link, run => collectEach_appended children style.font link run
  | .anchor ends shape content, link, run => by
    have hmarked : Appended run (match ends.id with
        | some id => run.pushMark id (.plain .standard link)
        | none => run) := by
      split
      · exact .pushMark ..
      · exact .refl run
    have hcontent := hmarked.trans (collectInto_appended content (ends.target.or link) _)
    -- content that is refused has left the mark, and its text goes behind that
    simp only [collectInto]
    split
    · next heq =>
      rw [heq] at hcontent
      exact hcontent
    · next heq =>
      rw [heq] at hcontent
      exact hcontent.trans (.pushText ..)
  | .reference id target, link, run => collectInto_appended target link run
  | .paragraph .., _, run | .list .., _, run | .table .., _, run
  | .gridTable .., _, run | .cell _, _, run | .gridCell _, _, run
  | .image _, _, run | .chart _, _, run | .vectorGraphic _, _, run
  | .note .., _, run | .chapter .., _, run | .subsection .., _, run
  | .rule _, _, run | .spacer .., _, run | .rectangle _, _, run => .refl run

theorem collectEach_appended : (ns : List (Node α)) → ∀ (font : Font α) (link : Option String)
    (run : InlineRun α), Appended run (collectEach font link run ns)
  | [], _, _, run => .refl run
  | n :: ns, font, link, run => by
    have hn := collectInto_appended n link run
    unfold collectEach
    split
    · next heq =>
      rw [heq] at hn
      exact hn.trans (collectEach_appended ns font link _)
    · next heq =>
      rw [heq] at hn
      exact (hn.trans (.pushText ..)).trans (collectEach_appended ns font link _)

end

/-- Every token has its style in the run. -/
def InlineRun.Indexed (run : InlineRun α) : Prop := ∀ t ∈ run.tokens, t.style < run.styles.length

omit [Scalar α] in
theorem Appended.indexed {run grown : InlineRun α} (h : Appended run grown) (k : run.Indexed) :
    grown.Indexed := by
  obtain ⟨added, htokens, hadded⟩ := h.tokens
  intro t ht
  rcases List.mem_append.mp (htokens ▸ ht) with ht | ht
  · exact (k t ht).trans_le h.styles.length_le
  · exact hadded t ht

/-- A run that nodes were collected into and texts were added to, in any order. -/
inductive InlineRun.Collects : InlineRun α → Prop
  | empty : Collects .empty
  | collect {run : InlineRun α} (h : Collects run) (link : Option String) (n : Node α) :
      Collects (collectInto link run n).2
  | pushText {run : InlineRun α} (h : Collects run) (text : String) (style : RunStyle α) :
      Collects (run.pushText text style)

theorem InlineRun.Collects.indexed {run : InlineRun α} (h : run.Collects) : run.Indexed := by
  induction h with
  | empty => exact List.forall_mem_nil _
  | collect _ link n ih => exact (collectInto_appended n link _).indexed ih
  | pushText _ text style ih => exact (Appended.pushText _ text style).indexed ih

end Folio.Flow
