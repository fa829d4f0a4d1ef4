import Folio.Proofs.Flow.Measured
import Folio.Proofs.Flow.Rows

/-!
# Lines and rows with finite measures

Breaking finite content into lines, placing the tokens of a line and the cells of a row leads to
finite measures only.
-/
namespace Folio.Flow

open Style

/-! ## Breaking -/

structure TextFlow.Finite (flow : TextFlow Extended) : Prop where
  leading : ∀ x ∈ flow.leading, x.Finite
  firstLineIndent : flow.firstLineIndent.Finite

/-- Plain lines, perhaps with a leading of their own. -/
theorem TextFlow.finite_plain {leading : Option Extended} (h : ∀ x ∈ leading, x.Finite)
    (align : TextAlign) : TextFlow.Finite ⟨align, leading, 0⟩ := ⟨h, Extended.finite_ofNat 0⟩

theorem TextFlow.finite_unled (align : TextAlign) :
    TextFlow.Finite (⟨align, none, 0⟩ : TextFlow Extended) :=
  ⟨nofun, Extended.finite_ofNat 0⟩

structure LineBox.Finite (line : LineBox Extended) : Prop where
  tokens : ∀ t ∈ line.tokens, t.width.Finite
  width : line.width.Finite
  height : line.height.Finite
  maxSize : line.maxSize.Finite

structure Breaking.Finite (b : Breaking Extended) : Prop where
  lines : ∀ line ∈ b.lines, line.Finite
  current : ∀ t ∈ b.current, t.width.Finite
  width : b.width.Finite

namespace Breaking

variable {run : InlineRun Extended} {flow : TextFlow Extended} {b : Breaking Extended}

theorem finite_lineSize (h : run.Finite) (tokens : List (Token Extended)) :
    (lineSize run tokens).Finite := by
  have hgreatest :
      (Scalar.greatest 0 (tokens.map fun t => (run.styleAt t.style).font.size)).Finite := by
    refine Extended.finite_greatest (Extended.finite_ofNat 0) fun x hx => ?_
    obtain ⟨t, -, rfl⟩ := List.mem_map.mp hx
    exact (h.styleAt t.style).size
  unfold lineSize
  simp only
  split
  · exact hgreatest
  · cases hfirst : run.styles.head? with
    | none => exact Extended.finite_ofNat 10
    | some style => exact (h.styles style (List.mem_of_head? hfirst)).size

theorem Finite.push (h : b.Finite) {t : Token Extended} (ht : t.width.Finite) :
    (b.push t).Finite := by
  refine ⟨h.lines, fun other hother => ?_, Extended.finite_add.mpr ⟨h.width, ht⟩⟩
  rcases List.mem_cons.mp hother with rfl | hother
  · exact ht
  · exact h.current other hother

/-- Spaces at the end of the line are taken off its width again. -/
theorem Finite.close (h : b.Finite) (hrun : run.Finite) (hflow : flow.Finite) :
    (b.close run flow).Finite := by
  have hdropped (dropped : List (Token Extended)) (hdropped : dropped ⊆ b.current) :
      ∀ {width : Extended}, width.Finite →
        (dropped.foldl (fun w t => w - t.width) width).Finite := by
    induction dropped with
    | nil => exact fun hwidth => hwidth
    | cons t dropped ih =>
      intro width hwidth
      have ht := h.current t (hdropped List.mem_cons_self)
      exact ih (fun other hother => hdropped (List.mem_cons_of_mem t hother))
        (Extended.finite_sub.mpr ⟨hwidth, ht⟩)
  refine ⟨fun line hline => ?_, fun t ht => absurd ht List.not_mem_nil, Extended.finite_ofNat 0⟩
  rcases List.mem_append.mp hline with hline | hline
  · exact h.lines line hline
  · obtain rfl := List.mem_singleton.mp hline
    have hsize := finite_lineSize hrun (b.current.dropWhile isSpaceToken).reverse
    refine ⟨fun t ht => ?_, hdropped _ (List.takeWhile_sublist _).subset h.width, ?_, hsize⟩
    · exact h.current t ((List.dropWhile_sublist _).subset (List.mem_reverse.mp ht))
    · exact Extended.finite_getD hflow.leading (by simp [lineHeightFactor, hsize])

theorem Finite.markLast (h : b.Finite) : b.markLast.Finite := by
  unfold Breaking.markLast
  split
  · next last hlast =>
    refine ⟨fun line hline => ?_, h.current, h.width⟩
    have hends := h.lines last (List.mem_of_getLast? hlast)
    rcases List.mem_append.mp hline with hline | hline
    · exact h.lines line (List.dropLast_subset _ hline)
    · obtain rfl := List.mem_singleton.mp hline
      exact ⟨hends.tokens, hends.width, hends.height, hends.maxSize⟩
  · exact h

theorem Finite.step (h : b.Finite) (hrun : run.Finite) (hflow : flow.Finite) (limit : Extended)
    {t : Token Extended} (ht : t.width.Finite) : (b.step run limit flow t).Finite := by
  unfold Breaking.step
  split
  · exact (h.close hrun hflow).markLast
  · split
    · exact h
    · exact h.push ht
  · refine ⟨h.lines, fun other hother => ?_, h.width⟩
    rcases List.mem_cons.mp hother with rfl | hother
    · exact ht
    · exact h.current other hother
  · split
    · exact (h.close hrun hflow).push ht
    · exact h.push ht

theorem Finite.foldl (hrun : run.Finite) (hflow : flow.Finite) (limit : Extended)
    {ts : List (Token Extended)} (hts : ∀ t ∈ ts, t.width.Finite) (h : b.Finite) :
    (ts.foldl (Breaking.step run limit flow) b).Finite := by
  induction ts generalizing b with
  | nil => exact h
  | cons t ts ih =>
    exact ih (fun other hother => hts other (List.mem_cons_of_mem t hother))
      (h.step hrun hflow limit (hts t List.mem_cons_self))

end Breaking

theorem finite_breakLines {run : InlineRun Extended} {flow : TextFlow Extended} (hrun : run.Finite)
    (hflow : flow.Finite) (width : Extended) :
    ∀ line ∈ breakLines run width flow, line.Finite := by
  have hstart : (.start : Breaking Extended).Finite :=
    ⟨fun _ h => absurd h List.not_mem_nil, fun _ h => absurd h List.not_mem_nil,
      Extended.finite_ofNat 0⟩
  have hfold := hstart.foldl hrun hflow width hrun.tokens
  unfold breakLines
  simp only
  split
  · exact hfold.markLast.lines
  · exact (hfold.close hrun hflow).markLast.lines

theorem finite_linesHeight {lines : List (LineBox Extended)} (h : ∀ line ∈ lines, line.Finite) :
    (linesHeight lines).Finite := by
  refine Extended.finite_sum fun x hx => ?_
  obtain ⟨line, hline, rfl⟩ := List.mem_map.mp hx
  exact (h line hline).height

/-! ## Placing -/

/-- Where a mark stands only its destination says, which is no part of the page's content. -/
def Piece.Finite : Piece Extended → Prop
  | .text _ _ x width => x.Finite ∧ width.Finite
  | .mark .. => True

structure Pending.Finite (p : Pending Extended) : Prop where
  x : p.x.Finite
  width : p.width.Finite

theorem finite_flush {pending : Option (Pending Extended)} (h : ∀ p ∈ pending, p.Finite) :
    ∀ piece ∈ flush pending, piece.Finite := by
  intro piece hpiece
  obtain ⟨p, hp, rfl⟩ := Option.map_eq_some_iff.mp (Option.mem_toList.mp hpiece)
  exact ⟨(h p hp).x, (h p hp).width⟩

theorem finite_lineStart {line : LineBox Extended} (h : line.Finite) {x0 width : Extended}
    (hx : x0.Finite) (hwidth : width.Finite) (align : TextAlign) :
    (lineStart line x0 width align).1.Finite ∧ (lineStart line x0 width align).2.Finite := by
  have hslack : (Scalar.larger (width - line.width) 0).Finite :=
    (Extended.finite_sub.mpr ⟨hwidth, h.width⟩).larger (Extended.finite_ofNat 0)
  unfold lineStart
  simp only
  split
  · exact ⟨hx, Extended.finite_ofNat 0⟩
  · exact ⟨by simp [hx, hslack], Extended.finite_ofNat 0⟩
  · exact ⟨by simp [hx, hslack], Extended.finite_ofNat 0⟩
  · split
    · next hspaces =>
      simp only [Bool.and_eq_true, decide_eq_true_eq] at hspaces
      exact ⟨hx, hslack.div_natCast hspaces.2⟩
    · exact ⟨hx, Extended.finite_ofNat 0⟩

theorem finite_placeTokens {stretch : Extended} (hstretch : stretch.Finite)
    {ts : List (Token Extended)} (hts : ∀ t ∈ ts, t.width.Finite) :
    ∀ {pending : Option (Pending Extended)} {x : Extended}, (∀ p ∈ pending, p.Finite) → x.Finite →
      ∀ piece ∈ placeTokens stretch pending x ts, piece.Finite := by
  induction ts with
  | nil => exact fun hpending _ => finite_flush hpending
  | cons t ts ih =>
    intro pending x hpending hx
    have ht := hts t List.mem_cons_self
    have hrest {pending : Option (Pending Extended)} {x : Extended} (hp : ∀ p ∈ pending, p.Finite)
        (hx : x.Finite) : ∀ piece ∈ placeTokens stretch pending x ts, piece.Finite :=
      ih (fun other hother => hts other (List.mem_cons_of_mem t hother)) hp hx
    have hnext : (x + t.width).Finite := Extended.finite_add.mpr ⟨hx, ht⟩
    have hfresh : ∀ p ∈ some (⟨t.style, t.text, x, t.width⟩ : Pending Extended), p.Finite := by
      intro p hp
      exact Option.some.inj hp ▸ ⟨hx, ht⟩
    unfold placeTokens
    split
    · exact List.forall_mem_cons.mpr ⟨trivial, hrest hpending hx⟩
    · exact hrest hpending hx
    · split
      · refine List.forall_mem_append.mpr ⟨finite_flush hpending, hrest nofun ?_⟩
        simp [hx, ht, hstretch]
      · split
        · next p =>
          have hp := hpending p rfl
          split
          · refine hrest (fun joined hjoined => ?_) hnext
            exact Option.some.inj hjoined ▸ ⟨hp.x, Extended.finite_add.mpr ⟨hp.width, ht⟩⟩
          · exact List.forall_mem_cons.mpr ⟨⟨hp.x, hp.width⟩, hrest hfresh hnext⟩
        · exact hrest hfresh hnext

theorem LineBox.Finite.pieces {line : LineBox Extended} (h : line.Finite) {x0 width : Extended}
    (hx : x0.Finite) (hwidth : width.Finite) (align : TextAlign) :
    ∀ piece ∈ line.pieces x0 width align, piece.Finite := by
  have hstart := finite_lineStart h hx hwidth align
  exact finite_placeTokens hstart.2 h.tokens nofun hstart.1

/-! ## Rows -/

theorem finite_columnWidths {style : TableStyle Extended} (h : style.Finite) {total : Extended}
    (htotal : total.Finite) : ∀ w ∈ columnWidths style total, w.Finite := by
  have heven : ∀ w ∈ List.replicate (max 1 style.columns)
      (total / ((max 1 style.columns : ℕ) : Extended)), w.Finite := by
    intro w hw
    obtain rfl := List.eq_of_mem_replicate hw
    exact htotal.div_natCast (by omega)
  unfold columnWidths
  simp only
  split
  · next widths hwidths =>
    split
    · next hsum =>
      simp only [Bool.and_eq_true, decide_eq_true_eq] at hsum
      have hall := h.widths widths hwidths
      intro w hw
      obtain ⟨part, hpart, rfl⟩ := List.mem_map.mp hw
      have hratio := (hall part hpart).div (Extended.finite_sum hall) hsum.2
      exact Extended.finite_mul.mpr ⟨hratio, htotal⟩
    · exact heven
  · exact heven

theorem finite_cellRun {c : Cell Extended} (h : c.Finite) : (cellRun c).Finite := by
  unfold cellRun
  split
  · next run hrun => exact finite_collectInline c.content h.content none .empty run hrun
  · refine InlineRun.Finite.empty.pushPlain _ ?_ none
    cases hfirst : c.content.firstFont? with
    | none => exact Font.finite_standard
    | some font => exact c.content.finite_firstFont h.content font hfirst

structure Placed.Finite (p : Placed Extended) : Prop where
  padding : p.cell.style.padding.Finite
  x : p.x.Finite
  width : p.width.Finite
  run : p.run.Finite
  lines : ∀ line ∈ p.lines, line.Finite
  height : p.height.Finite

theorem finite_innerWidth {c : Cell Extended} (h : c.style.padding.Finite) {width : Extended}
    (hwidth : width.Finite) : (innerWidth c width).Finite :=
  Extended.Finite.larger (by simp [h, hwidth]) (Extended.finite_ofNat 1)

variable {widths : List Extended} {cells : List (Cell Extended)}

theorem finite_placeRow (hwidths : ∀ w ∈ widths, w.Finite) (hcells : ∀ c ∈ cells, c.Finite)
    {x0 : Extended} (hx : x0.Finite) : ∀ p ∈ placeRow x0 widths cells, p.Finite := by
  intro p hp
  obtain ⟨slot, hslot, rfl⟩ := List.mem_map.mp hp
  have hcell := hcells slot.cell (cell_mem_of_mem_slots hslot)
  have hspan : (Scalar.sum ((widths.drop slot.first).take slot.span)).Finite :=
    Extended.finite_sum fun w hw => hwidths w (List.mem_of_mem_drop (List.mem_of_mem_take hw))
  have hfirst : (Scalar.sum (widths.take slot.first)).Finite :=
    Extended.finite_sum fun w hw => hwidths w (List.mem_of_mem_take hw)
  have hlines := finite_breakLines (finite_cellRun hcell)
    (TextFlow.finite_unled slot.cell.style.align)
    (innerWidth slot.cell (Scalar.sum ((widths.drop slot.first).take slot.span)))
  exact ⟨hcell.padding, Extended.finite_add.mpr ⟨hx, hfirst⟩, hspan, finite_cellRun hcell, hlines,
    finite_linesHeight hlines⟩

theorem finite_rowHeight {style : TableStyle Extended} (h : style.Finite)
    {placed : List (Placed Extended)} (hplaced : ∀ p ∈ placed, p.Finite) :
    (rowHeight style placed).Finite := by
  refine Extended.Finite.larger (Extended.finite_greatest (Extended.finite_ofNat 0) ?_)
    (by simp [h.padding])
  intro x hx
  obtain ⟨p, hp, rfl⟩ := List.mem_map.mp hx
  simp [(hplaced p hp).height, (hplaced p hp).padding]

theorem finite_verticalOffset (valign : VerticalAlign) {free : Extended} (h : free.Finite) :
    (verticalOffset valign free).Finite := by
  cases valign <;> simp [verticalOffset, h]

end Folio.Flow
