import Folio.Proofs.Flow.PageBreaks

/-!
# Where the inset is left

Paragraphs, list items and sections move the inset while their content is laid out, and nothing else
touches it. An item and a section move it back whatever comes of their content. A paragraph moves it
back only behind content that has been laid out to its end: where a drawing breaks it off, the
indent stays, and so do the indents of the paragraphs around it.
-/
namespace Folio.Flow

open Style Pdf Layout

section

variable {α : Type} [Scalar α]

/-! ## What leaves the inset alone -/

theorem drawsOn_inset {s t : Layout α} (h : DrawsOn s t) : t.inset = s.inset :=
  drawsOn_keeps (f := Layout.inset) (fun _ _ => rfl) (fun _ _ => rfl) h

namespace Layout

theorem breakPage_inset (s : Layout α) : s.breakPage.inset = s.inset := by
  unfold breakPage startPage
  simp only
  split <;> rfl

theorem ensureSpace_inset (s : Layout α) (needed : α) :
    (s.ensureSpace needed).inset = s.inset := by
  unfold ensureSpace
  split
  · exact s.breakPage_inset
  · rfl

theorem flowLine_inset (run : InlineRun α) (width : α) (flow : TextFlow α) (s : Layout α)
    (line : LineBox α × Nat) : (flowLine run width flow s line).inset = s.inset := by
  have hline := drawsOn_inset (drawLine_drawsOn (s.ensureSpace line.1.height) run line.1
    ((s.ensureSpace line.1.height).left + if line.2 = 0 then flow.firstLineIndent else 0)
    (width - if line.2 = 0 then flow.firstLineIndent else 0) (s.ensureSpace line.1.height).cursor
    flow.align)
  exact hline.trans (s.ensureSpace_inset _)

omit [Scalar α] in
theorem foldl_inset {β : Type} {f : Layout α → β → Layout α} (h : ∀ s b, (f s b).inset = s.inset)
    (bs : List β) (s : Layout α) : (bs.foldl f s).inset = s.inset := by
  induction bs generalizing s with
  | nil => rfl
  | cons b bs ih => exact (ih _).trans (h s b)

theorem flowInline_inset (s : Layout α) (run : InlineRun α) (flow : TextFlow α) :
    (s.flowInline run flow).inset = s.inset := by
  unfold flowInline
  split
  · rfl
  · exact foldl_inset (flowLine_inset run s.availableWidth flow) _ s

theorem addRow_inset (style : TableStyle α) (x0 : α) (widths : List α) (s : Layout α)
    (cells : List (Cell α)) : (addRow style x0 widths s cells).inset = s.inset := by
  have hcells : DrawsOn s ((placeRow x0 widths cells).foldl (drawCell style s.cursor
      (rowHeight style (placeRow x0 widths cells))) s) :=
    foldl_drawsOn (fun s p => drawCell_drawsOn style _ _ s p) _ s
  have hinset := drawsOn_inset hcells
  exact hinset

theorem addBodyRow_inset (style : TableStyle α) (header : List (Cell α)) (x0 : α)
    (widths : List α) (s : Layout α) (row : List (Cell α)) :
    (addBodyRow style header x0 widths s row).inset = s.inset := by
  unfold addBodyRow
  rw [addRow_inset]
  split
  · simp only
    split
    · exact s.breakPage_inset
    · rw [addRow_inset, breakPage_inset]
  · rfl

theorem addTable_inset (s : Layout α) (style : TableStyle α) (header : List (Cell α))
    (rows : List (List (Cell α))) : (s.addTable style header rows).inset = s.inset := by
  refine (foldl_inset (addBodyRow_inset style header _ _) rows _).trans ?_
  split
  · rfl
  · rw [addRow_inset, ensureSpace_inset]

theorem placeBlock_inset {s : Layout α} {f : Layout α → Layout α} (h : DrawsOn s (f s))
    (height : α) : (s.placeBlock height f).inset = s.inset := by
  have hdrawn := drawsOn_inset h
  exact hdrawn

theorem addImage_inset (s : Layout α) (image : Image α) : (s.addImage image).inset = s.inset := by
  unfold addImage
  exact (placeBlock_inset (placeRaster_drawsOn ..) _).trans (s.ensureSpace_inset _)

theorem addRule_inset (s : Layout α) (r : Rule α) : (s.addRule r).inset = s.inset := by
  unfold addRule
  exact (placeBlock_inset (onPage_drawsOn .refl (.line ..)) _).trans (s.ensureSpace_inset _)

theorem addSpacer_inset (s : Layout α) (lines : Nat) (leading : α) :
    (s.addSpacer lines leading).inset = s.inset := by
  change (if s.mustBreak ((lines : α) * leading) then s.breakPage
    else s.lower ((lines : α) * leading)).inset = s.inset
  split
  · exact s.breakPage_inset
  · rfl

theorem addRectangle_inset (s : Layout α) (r : Rectangle α) :
    (s.addRectangle r).inset = s.inset := by
  unfold addRectangle
  refine (placeBlock_inset (onPage_drawsOn ?_ (.strokeBox ..)) _).trans (s.ensureSpace_inset _)
  split
  · exact onPage_drawsOn .refl (.fillBox ..)
  · exact .refl

theorem addTitle_inset (s : Layout α) (label : String) (title : Node α) (fallback : Font α) :
    (s.addTitle label title fallback).inset = s.inset :=
  s.flowInline_inset _ _

theorem openChapter_inset (s : Layout α) (number : Nat) (title : Node α) :
    (s.openChapter number title).inset = s.inset := by
  refine (addTitle_inset _ _ title _).trans ?_
  split
  · exact s.breakPage_inset
  · rfl

theorem drawLabel_inset (s : Layout α) (style : ListStyle α) (index : Nat) :
    (s.drawLabel style index).2.inset = s.inset :=
  s.ensureSpace_inset _

theorem closeItem_inset (s : Layout α) (label : LabelPlace α) :
    (s.closeItem label).inset = s.inset := by
  change (if s.page.number = label.page && decide (label.foot < s.cursor) then
    { s with cursor := label.foot } else s).inset = s.inset
  split <;> rfl

theorem openParagraph_inset (s : Layout α) (style : BlockStyle α) (flow : TextFlow α)
    (children : List (Node α)) :
    (s.openParagraph style flow children).inset = s.inset + style.indent := by
  have hkeep (s : Layout α) : (s.keepTogether flow children).inset = s.inset := by
    unfold keepTogether
    split
    · simp only
      split
      · exact s.ensureSpace_inset _
      · rfl
    · rfl
  have hspace : (if s.page.hasContent then s.lower style.spacingBefore else s).inset =
      s.inset := by
    split <;> rfl
  unfold openParagraph
  simp only
  split
  · rw [hkeep, hspace]
  · rw [hspace]

theorem addDrawable_inset (s : Layout α) (d : Drawable α) :
    (s.addDrawable d).2.inset = s.inset := by
  have hspace := s.ensureSpace_inset d.height
  unfold addDrawable
  simp only
  split
  · split
    · exact hspace
    · exact hspace
  · exact (placeBlock_inset (placeRaster_drawsOn ..) _).trans hspace

end Layout

/-! ## Where a node breaks off -/

/-- Nothing is drawn of a drawing whose operators cannot be read. -/
def unreadable (d : Drawable α) : Bool :=
  match d.drawing with
  | .vector content => (decodeOperations? content : Option (List (Operation α))).isNone
  | .raster .. => false

theorem addDrawable_result (s : Layout α) (d : Drawable α) :
    (s.addDrawable d).1 = if unreadable d then .error .invalidDrawing else .ok () := by
  unfold addDrawable unreadable
  cases d.drawing with
  | raster data format => rfl
  | vector content =>
    cases hops : (decodeOperations? content : Option (List (Operation α))) with
    | none => simp [hops]
    | some ops => simp [hops]

mutual

/-- The indents of the paragraphs around the first drawing of a node that cannot be read, from the
outermost in. -/
def brokenOff : Node α → Option (List α)
  | .paragraph style children => (brokenOffIn children).map (style.indent :: ·)
  | .list _ items => brokenOffInItems items
  | .cell c | .gridCell c => brokenOffInCell c
  | .chart d | .vectorGraphic d => if unreadable d then some [] else none
  | .chapter _ _ children | .subsection _ _ _ children => brokenOffIn children
  | .reference _ target => brokenOff target
  | .table .. | .gridTable .. | .image _ | .note .. | .rule _ | .spacer .. | .rectangle _ => none
  | .text _ | .subscript _ | .superscript _ | .phrase .. | .anchor .. => none

def brokenOffIn : List (Node α) → Option (List α)
  | [] => none
  | n :: ns => (brokenOff n).or (brokenOffIn ns)

def brokenOffInCell : Cell α → Option (List α)
  | .mk _ content => brokenOff content

def brokenOffInItem : ListItem α → Option (List α)
  | .chunk n | .phrase n => brokenOff n

def brokenOffInItems : List (ListItem α) → Option (List α)
  | [] => none
  | item :: rest => (brokenOffInItem item).or (brokenOffInItems rest)

end

end

/-! ## What a run leaves of the inset -/

/-- Every run of `act` ends as `broken` says: it breaks off and leaves the inset moved by the
indents there, or it succeeds and leaves the inset as it was. -/
def Leaves (act : FlowM ℚ Unit) (broken : Option (List ℚ)) : Prop :=
  ∀ s, (act.run s).1 = (if broken.isSome then .error .invalidDrawing else .ok ()) ∧
    (act.run s).2.inset = s.inset + (broken.getD []).sum

theorem leaves_modify {f : Layout ℚ → Layout ℚ} (h : ∀ s, (f s).inset = s.inset) :
    Leaves (modify f) none :=
  fun s => ⟨rfl, (h s).trans (add_zero s.inset).symm⟩

/-- What breaks off leaves nothing for what comes behind it. -/
theorem Leaves.bind {act next : FlowM ℚ Unit} {first rest : Option (List ℚ)} (h : Leaves act first)
    (k : Leaves next rest) : Leaves (act >>= fun _ => next) (first.or rest) := by
  intro s
  obtain ⟨hresult, hinset⟩ := h s
  rw [run_bind]
  rcases hr : act.run s with ⟨r, t⟩
  rw [hr] at hresult hinset
  subst hresult
  cases first with
  | some indents => exact ⟨rfl, hinset⟩
  | none =>
    obtain ⟨hnext, hafter⟩ := k t
    refine ⟨hnext, hafter.trans ?_⟩
    rw [hinset]
    simp

theorem Leaves.after {act : FlowM ℚ Unit} {broken : Option (List ℚ)} (h : Leaves act broken)
    {f : Layout ℚ → Layout ℚ} (hf : ∀ s, (f s).inset = s.inset) :
    Leaves (modify f >>= fun _ => act) broken := by
  intro s
  have hs := h (f s)
  rw [hf] at hs
  exact hs

/-- An inset that is moved back in every case. -/
theorem Leaves.indented {act : FlowM ℚ Unit} {broken : Option (List ℚ)} (h : Leaves act broken)
    (width : ℚ) : Leaves (indented width act) broken := by
  intro s
  obtain ⟨hresult, hinset⟩ := h { s with inset := s.inset + width }
  refine ⟨hresult, ?_⟩
  change (act.run { s with inset := s.inset + width }).2.inset - width = _
  rw [hinset, add_right_comm, add_sub_cancel_right]

/-- An inset that is moved back only behind what succeeds. -/
theorem Leaves.paragraph {act : FlowM ℚ Unit} {broken : Option (List ℚ)} (h : Leaves act broken)
    (style : BlockStyle ℚ) (flow : TextFlow ℚ) (children : List (Node ℚ)) :
    Leaves (do modify (·.openParagraph style flow children); act; modify (·.closeParagraph style))
      (broken.map (style.indent :: ·)) := by
  intro s
  have hopened := s.openParagraph_inset style flow children
  obtain ⟨hresult, hinset⟩ := h (s.openParagraph style flow children)
  rw [hopened] at hinset
  rw [run_bind, run_modify]
  simp only
  rw [run_bind]
  rcases hr : act.run (s.openParagraph style flow children) with ⟨r, t⟩
  rw [hr] at hresult hinset
  subst hresult
  cases broken with
  | some indents =>
    refine ⟨rfl, hinset.trans ?_⟩
    simp [add_assoc]
  | none =>
    refine ⟨rfl, ?_⟩
    change t.inset - style.indent = _
    rw [hinset]
    simp

theorem leaves_addDrawable (d : Drawable ℚ) :
    Leaves (fun s => s.addDrawable d) (if unreadable d then some [] else none) := by
  intro s
  have hinset := s.addDrawable_inset d
  have hresult := addDrawable_result s d
  cases hd : unreadable d with
  | true =>
    rw [hd] at hresult
    exact ⟨hresult, hinset.trans (add_zero _).symm⟩
  | false =>
    rw [hd] at hresult
    exact ⟨hresult, hinset.trans (add_zero _).symm⟩

/-- No drawing is read for an inline node. -/
theorem brokenOff_inline (link : Option String) (run : InlineRun ℚ) : (n : Node ℚ) →
    (collectInline link run n).isSome → brokenOff n = none
  | .reference _ target, h => by
    unfold collectInline at h
    unfold brokenOff
    exact brokenOff_inline link run target h
  | .text _, _ | .subscript _, _ | .superscript _, _ | .phrase .., _ | .anchor .., _ => by
    unfold brokenOff
    rfl
  | .table .., _ | .gridTable .., _ | .image _, _ | .note .., _ | .rule _, _ | .spacer .., _
  | .rectangle _, _ => by
    unfold brokenOff
    rfl
  | .paragraph .., h | .list .., h | .cell _, h | .gridCell _, h | .chart _, h
  | .vectorGraphic _, h | .chapter .., h | .subsection .., h => by
    unfold collectInline at h
    cases h

mutual

theorem addBlock_leaves : (n : Node ℚ) → Leaves (addBlock n) (brokenOff n)
  | .paragraph style children => by
    unfold addBlock brokenOff
    exact (addMixed_leaves (flowOf style) .empty children).paragraph style (flowOf style) children
  | .list style items => by
    unfold addBlock brokenOff
    exact addItems_leaves style 1 items
  | .table style header rows | .gridTable style header rows => by
    unfold addBlock brokenOff
    exact leaves_modify fun s => s.addTable_inset style header rows
  | .cell c | .gridCell c => by
    unfold addBlock brokenOff
    exact addCell_leaves c
  | .image image => by
    unfold addBlock brokenOff
    exact leaves_modify fun s => s.addImage_inset image
  | .chart d | .vectorGraphic d => by
    unfold addBlock brokenOff
    exact leaves_addDrawable d
  | .chapter number title children => by
    unfold addBlock brokenOff
    exact (addBlocks_leaves children).after fun s => s.openChapter_inset number title
  | .subsection number indent title children => by
    unfold addBlock brokenOff
    exact ((addBlocks_leaves children).indented indent).after fun s => s.addTitle_inset _ title _
  | .note title text => by
    unfold addBlock brokenOff
    exact leaves_modify fun _ => rfl
  | .rule r => by
    unfold addBlock brokenOff
    exact leaves_modify fun s => s.addRule_inset r
  | .spacer lines leading => by
    unfold addBlock brokenOff
    exact leaves_modify fun s => s.addSpacer_inset lines leading
  | .rectangle r => by
    unfold addBlock brokenOff
    exact leaves_modify fun s => s.addRectangle_inset r
  | .reference _ target => by
    unfold addBlock brokenOff
    exact addBlock_leaves target
  | .text _ | .subscript _ | .superscript _ | .phrase .. | .anchor .. => by
    unfold addBlock brokenOff
    exact leaves_modify fun s => s.flowInline_inset _ _

theorem addBlocks_leaves : (ns : List (Node ℚ)) → Leaves (addBlocks ns) (brokenOffIn ns)
  | [] => by
    unfold addBlocks brokenOffIn
    exact leaves_modify fun _ => rfl
  | n :: ns => by
    unfold addBlocks brokenOffIn
    exact (addBlock_leaves n).bind (addBlocks_leaves ns)

theorem addCell_leaves : (c : Cell ℚ) → Leaves (addCell c) (brokenOffInCell c)
  | .mk _ content => by
    unfold addCell brokenOffInCell
    exact addBlock_leaves content

theorem addMixed_leaves (flow : TextFlow ℚ) (run : InlineRun ℚ) :
    (ns : List (Node ℚ)) → Leaves (addMixed flow run ns) (brokenOffIn ns)
  | [] => by
    unfold addMixed brokenOffIn
    exact leaves_modify fun s => s.flowInline_inset run flow
  | n :: ns => by
    unfold addMixed brokenOffIn
    cases hinline : collectInline none run n with
    | some grown =>
      rw [brokenOff_inline none run n (hinline ▸ rfl)]
      exact addMixed_leaves flow grown ns
    | none =>
      exact ((addBlock_leaves n).bind (addMixed_leaves flow .empty ns)).after
        fun s => s.flowInline_inset run flow

theorem addItem_leaves : (item : ListItem ℚ) → Leaves (addItem item) (brokenOffInItem item)
  | .chunk n | .phrase n => by
    unfold addItem brokenOffInItem
    exact addBlock_leaves n

theorem addItems_leaves (style : ListStyle ℚ) (index : Nat) :
    (items : List (ListItem ℚ)) → Leaves (addItems style index items) (brokenOffInItems items)
  | [] => by
    unfold addItems brokenOffInItems
    exact leaves_modify fun _ => rfl
  | item :: rest => by
    intro s
    have hrest := (addItems_leaves style (index + 1) rest).after fun t =>
      t.closeItem_inset (s.drawLabel style index).1
    have hitem := ((addItem_leaves item).indented (listIndent style)).bind hrest
    have hlabel := s.drawLabel_inset style index
    rw [run_addItems_cons, ← hlabel]
    unfold brokenOffInItems
    exact hitem _

end

/-- How far adding a node leaves the inset moved: by all indents around the drawing that breaks it
off. -/
def strayIndent (n : Node ℚ) : ℚ := ((brokenOff n).getD []).sum

/-- Adding a node leaves the column of what comes next moved by the stray indent of the node. A node
is added with success if all of its drawings can be read, and then the column is where it was, as
narrow as it was; it is moved exactly if the indents do not cancel out. -/
theorem add_inset {s : Layout ℚ} (hopen : s.phase = .opened) (n : Node ℚ) :
    let result := ((add n).run s).1
    let t := ((add n).run s).2
    result = (if (brokenOff n).isSome then .error .invalidDrawing else .ok ()) ∧
      t.inset = s.inset + strayIndent n ∧ t.left = s.left + strayIndent n ∧
      t.availableWidth = max (s.geometry.contentWidth - s.inset - strayIndent n) 1 ∧
      (result = .ok () → t.left = s.left ∧ t.availableWidth = s.availableWidth) ∧
      (t.inset = s.inset ↔ strayIndent n = 0) := by
  intro result t
  obtain ⟨hresult, hinset⟩ : result = (if (brokenOff n).isSome then .error .invalidDrawing
      else .ok ()) ∧ t.inset = s.inset + strayIndent n := by
    have hleaves := addBlock_leaves n s
    rwa [← run_add hopen] at hleaves
  have hgeometry : t.geometry = s.geometry := by
    have hwalks := addBlock_walks n s
    rw [← run_add hopen] at hwalks
    exact (steps_sameSetting hwalks).geometry
  have hleft : t.left = s.left + strayIndent n := by
    rw [left, left, hgeometry, hinset, add_assoc]
  have hwidth : t.availableWidth =
      max (s.geometry.contentWidth - s.inset - strayIndent n) 1 := by
    rw [availableWidth, hgeometry, hinset, ← sub_sub]
    rfl
  refine ⟨hresult, hinset, hleft, hwidth, fun hok => ?_, ?_⟩
  · have hnone : brokenOff n = none := by
      rw [hresult] at hok
      cases hbroken : brokenOff n with
      | none => rfl
      | some indents => simp [hbroken] at hok
    have hstray : strayIndent n = 0 := by simp [strayIndent, hnone]
    rw [hleft, hwidth, hstray, add_zero, sub_zero]
    exact ⟨rfl, rfl⟩
  · rw [hinset, add_eq_left]

/-- A drawing that begins an inline image and ends there. -/
def cutDrawing : Node ℚ := .chart ⟨100, 50, .vector "BI".toUTF8.toList⟩

def indentedBy (indent : ℚ) (children : List (Node ℚ)) : Node ℚ :=
  .paragraph ⟨.standard, .left, none, indent, 0, 0, 0, false⟩ children

/-- The section and the item move the inset back, the paragraphs around the drawing do not. -/
theorem add_inset_nested :
    let n : Node ℚ := .subsection [1] 30 (indentedBy 0 []) [indentedBy 50
      [.list ⟨.bulleted "-", false, 0, .standard⟩ [.phrase (indentedBy 7 [cutDrawing])]]]
    ((add n).run opened).1 = .error .invalidDrawing ∧
      ((add n).run opened).2.inset = (opened : Layout ℚ).inset + 57 := by
  intro n
  have hbroken : brokenOff n = some [50, 7] := by decide +kernel
  have hstray : strayIndent n = 57 := by
    rw [strayIndent, hbroken]
    decide +kernel
  obtain ⟨hresult, hinset, -⟩ := add_inset (s := opened) rfl n
  rw [hbroken] at hresult
  rw [hstray] at hinset
  exact ⟨hresult, hinset⟩

/-- The inset does not come back from a paragraph that breaks off, and what is added next begins and
wraps as if it were indented. -/
theorem add_inset_moved :
    let t := ((add (indentedBy 50 [cutDrawing])).run opened).2
    (opened : Layout ℚ).phase = .opened ∧ (opened : Layout ℚ).inset = 0 ∧ t.inset = 50 ∧
      t.left = (opened : Layout ℚ).left + 50 ∧
      t.availableWidth = (opened : Layout ℚ).availableWidth - 50 := by
  decide +kernel

end Folio.Flow
