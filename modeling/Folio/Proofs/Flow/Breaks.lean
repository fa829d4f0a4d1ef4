import Folio.Proofs.Flow.Ink

/-!
# Where lines break

The lines of a run hold its words and marks in order; only spaces and line ends are left out. A mark
joins the open line whether or not the word behind it fits there, so it stays in front of its word
or is left at the end of the line above.
-/
namespace Folio.Flow

open Style

variable {α : Type} [Scalar α]

/-- Is it a word or a mark? Neither is ever left out. -/
def Token.solid (t : Token α) : Bool := t.kind == .word || t.kind == .mark

namespace Breaking

omit [Scalar α] in
theorem current_markLast (b : Breaking α) : b.markLast.current = b.current := by
  unfold markLast
  split <;> rfl

omit [Scalar α] in
theorem width_markLast (b : Breaking α) : b.markLast.width = b.width := by
  unfold markLast
  split <;> rfl

omit [Scalar α] in
/-- The tokens of the lines are not touched. -/
theorem lines_markLast (b : Breaking α) :
    b.markLast.lines.map LineBox.tokens = b.lines.map LineBox.tokens := by
  unfold markLast
  split
  · next line h =>
    obtain ⟨lines, hlines⟩ := List.getLast?_eq_some_iff.mp h
    simp [hlines]
  · rfl

end Breaking

/-- What holds of breaking behind the first tokens of a run, and is kept from there on, holds of the
lines of the run. -/
theorem breakLines_rule {run : InlineRun α} {width : α} {flow : TextFlow α}
    {P : List (Token α) → Breaking α → Prop} {front rest : List (Token α)}
    (htokens : run.tokens = front ++ rest)
    (hstart : P front (front.foldl (Breaking.step run width flow) .start))
    (hstep : ∀ read b t, P read b → P (read ++ [t]) (b.step run width flow t))
    (hclose : ∀ read b, P read b → P read (b.close run flow))
    (hmark : ∀ read b, P read b → P read b.markLast) :
    ∃ b, P run.tokens b ∧ b.current = [] ∧ b.lines = breakLines run width flow := by
  have hfold (ts : List (Token α)) : ∀ {read : List (Token α)} {b : Breaking α}, P read b →
      P (read ++ ts) (ts.foldl (Breaking.step run width flow) b) := by
    induction ts with
    | nil =>
      intro read b h
      simpa using h
    | cons t ts ih =>
      intro read b h
      simpa using ih (hstep read b t h)
  have hread := hfold rest hstart
  rw [← List.foldl_append, ← htokens] at hread
  unfold breakLines
  simp only
  split
  · next hempty =>
    exact ⟨_, hmark _ _ hread, by simpa [Breaking.current_markLast] using hempty, rfl⟩
  · exact ⟨_, hmark _ _ (hclose _ _ hread),
      by simp [Breaking.current_markLast, Breaking.close], rfl⟩

/-! ## What is kept -/

/-- Breaking that holds all words and marks it has read. -/
structure Holds (read : List (Token α)) (b : Breaking α) : Prop where
  sublist : b.tokens.Sublist read
  solid : b.tokens.filter Token.solid = read.filter Token.solid

namespace Holds

variable {read : List (Token α)} {b : Breaking α}

omit [Scalar α] in
theorem markLast (h : Holds read b) : Holds read b.markLast := by
  have htokens := Breaking.tokens_markLast b
  exact ⟨htokens ▸ h.sublist, htokens ▸ h.solid⟩

omit [Scalar α] in
theorem push (h : Holds read b) {c : Breaking α} {t : Token α} (hc : c.tokens = b.tokens ++ [t]) :
    Holds (read ++ [t]) c :=
  ⟨hc ▸ h.sublist.append (List.Sublist.refl _), by simp [hc, h.solid]⟩

omit [Scalar α] in
theorem skip (h : Holds read b) {t : Token α} (ht : t.solid = false) : Holds (read ++ [t]) b :=
  ⟨h.sublist.trans (List.sublist_append_left _ _), by simp [h.solid, ht]⟩

theorem close (run : InlineRun α) (flow : TextFlow α) (h : Holds read b) :
    Holds read (b.close run flow) := by
  have htokens : (b.close run flow).tokens =
      b.lines.flatMap LineBox.tokens ++ (b.current.dropWhile isSpaceToken).reverse := by
    simp [Breaking.tokens, Breaking.close]
  have hsolid : ((b.current.dropWhile isSpaceToken).reverse).filter Token.solid =
      b.current.reverse.filter Token.solid := by
    have hdropped : (b.current.takeWhile isSpaceToken).filter Token.solid = [] := by
      refine List.filter_eq_nil_iff.mpr fun t ht => ?_
      have hspace : isSpaceToken t = true := List.all_eq_true.mp List.all_takeWhile t ht
      have hkind : t.kind = .space := by simpa [isSpaceToken] using hspace
      simp [Token.solid, hkind]
    rw [List.filter_reverse, List.filter_reverse]
    congr 1
    calc (b.current.dropWhile isSpaceToken).filter Token.solid
        = (b.current.takeWhile isSpaceToken ++ b.current.dropWhile isSpaceToken).filter
            Token.solid := by rw [List.filter_append, hdropped, List.nil_append]
      _ = b.current.filter Token.solid := by rw [List.takeWhile_append_dropWhile]
  refine ⟨?_, ?_⟩
  · rw [htokens]
    refine .trans ((List.Sublist.refl _).append ?_) h.sublist
    exact (List.dropWhile_sublist _).reverse
  · rw [htokens, List.filter_append, hsolid, ← List.filter_append]
    exact h.solid

theorem step (run : InlineRun α) (limit : α) (flow : TextFlow α) (h : Holds read b)
    (t : Token α) : Holds (read ++ [t]) (b.step run limit flow t) := by
  unfold Breaking.step
  cases hkind : t.kind with
  | lineEnd => exact ((h.close run flow).markLast).skip (by simp [Token.solid, hkind])
  | space =>
    simp only
    split
    · exact h.skip (by simp [Token.solid, hkind])
    · exact h.push (Breaking.tokens_push b t)
  | mark => exact h.push (by simp [Breaking.tokens])
  | word =>
    simp only
    split
    · exact (h.close run flow).push (Breaking.tokens_push _ t)
    · exact h.push (Breaking.tokens_push b t)

end Holds

/-- The lines of a run hold its words and marks in order, and nothing that is not in the run. -/
theorem breakLines_holds (run : InlineRun α) (width : α) (flow : TextFlow α) :
    ((breakLines run width flow).flatMap LineBox.tokens).Sublist run.tokens ∧
      ((breakLines run width flow).flatMap LineBox.tokens).filter Token.solid =
        run.tokens.filter Token.solid := by
  have hstart : Holds ([] : List (Token α)) .start := ⟨List.Sublist.refl _, rfl⟩
  obtain ⟨b, hb, hcurrent, hlines⟩ := breakLines_rule (List.nil_append run.tokens).symm hstart
    (fun _ _ t h => h.step run width flow t) (fun _ _ h => h.close run flow) fun _ _ h => h.markLast
  have htokens : b.tokens = (breakLines run width flow).flatMap LineBox.tokens := by
    simp [Breaking.tokens, hcurrent, hlines]
  rw [← htokens]
  exact ⟨hb.sublist, hb.solid⟩

/-! ## A mark and the word behind it -/

/-- How wide tokens are together; marks take up no room. -/
def widthOf (ts : List (Token α)) : α :=
  ts.foldl (fun w t => if t.kind = .mark then w else w + t.width) 0

/-- Does a word behind `front` go on with the line, the first one of its run or another? A line
without a word takes any. -/
def GoesOn (width : α) (flow : TextFlow α) (first : Bool) (front : List (Token α)) (w : Token α) :
    Prop :=
  (∃ t ∈ front, t.kind = .word) →
    ¬ width - (if first then flow.firstLineIndent else 0) < widthOf front + w.width

/-- Behind the lines `before` comes one that begins with `opening`. -/
def OpensWith (before : List (List (Token α))) (opening : List (Token α))
    (lines : List (List (Token α))) : Prop :=
  ∃ rest after, lines = before ++ (opening ++ rest) :: after

/-- The open line begins with `opening`, or one that has been closed since. -/
def Keeps (before : List (List (Token α))) (opening : List (Token α)) (b : Breaking α) : Prop :=
  (b.lines.map LineBox.tokens = before ∧ opening <+: b.current.reverse) ∨
    OpensWith before opening (b.lines.map LineBox.tokens)

namespace Keeps

variable {before : List (List (Token α))} {opening : List (Token α)} {b : Breaking α}

omit [Scalar α] in
theorem markLast (h : Keeps before opening b) : Keeps before opening b.markLast := by
  unfold Keeps
  rwa [Breaking.lines_markLast, Breaking.current_markLast]

omit [Scalar α] in
/-- One more token on the open line. -/
theorem push (h : Keeps before opening b) {c : Breaking α} {t : Token α}
    (hlines : c.lines = b.lines) (hcurrent : c.current = t :: b.current) : Keeps before opening c := by
  unfold Keeps
  rw [hlines, hcurrent, List.reverse_cons]
  exact h.imp_left fun hopen => ⟨hopen.1, hopen.2.trans (List.prefix_append _ _)⟩

/-- Spaces at the end of a line do not reach back behind a token that is none. -/
theorem close (run : InlineRun α) (flow : TextFlow α) {last : Token α}
    (hlast : opening.getLast? = some last) (hsolid : isSpaceToken last = false)
    (h : Keeps before opening b) : Keeps before opening (b.close run flow) := by
  right
  have hlines : (b.close run flow).lines.map LineBox.tokens =
      b.lines.map LineBox.tokens ++ [(b.current.dropWhile isSpaceToken).reverse] := by
    simp [Breaking.close]
  rw [hlines]
  obtain ⟨initial, hopening⟩ := List.getLast?_eq_some_iff.mp hlast
  rcases h with ⟨hbefore, rest, hrest⟩ | ⟨rest, after, hsplit⟩
  · have hcurrent : b.current = rest.reverse ++ last :: initial.reverse := by
      rw [← List.reverse_reverse b.current, ← hrest, hopening]
      simp
    have hdrop : (last :: initial.reverse).dropWhile isSpaceToken = last :: initial.reverse := by
      simp [hsolid]
    rw [hbefore, hcurrent, List.dropWhile_append, hdrop]
    split
    · exact ⟨[], [], by simp [hopening]⟩
    · exact ⟨(rest.reverse.dropWhile isSpaceToken).reverse, [], by simp [hopening]⟩
  · rw [hsplit]
    exact ⟨rest, after ++ [(b.current.dropWhile isSpaceToken).reverse], by simp⟩

theorem step (run : InlineRun α) (limit : α) (flow : TextFlow α) {last : Token α}
    (hlast : opening.getLast? = some last) (hsolid : isSpaceToken last = false)
    (h : Keeps before opening b) (t : Token α) :
    Keeps before opening (b.step run limit flow t) := by
  have hclosed := h.close run flow hlast hsolid
  unfold Breaking.step
  cases t.kind with
  | lineEnd => exact hclosed.markLast
  | mark => exact h.push rfl rfl
  | space =>
    simp only
    split
    · exact h
    · exact h.push rfl rfl
  | word =>
    simp only
    split
    · exact hclosed.push rfl rfl
    · exact h.push rfl rfl

/-- What breaking keeps from the first tokens of a run on, the lines keep. -/
theorem breakLines {run : InlineRun α} {width : α} {flow : TextFlow α} {last : Token α}
    (hlast : opening.getLast? = some last) (hsolid : isSpaceToken last = false)
    {front rest : List (Token α)} (htokens : run.tokens = front ++ rest)
    (h : Keeps before opening (front.foldl (Breaking.step run width flow) .start)) :
    OpensWith before opening ((Flow.breakLines run width flow).map LineBox.tokens) := by
  obtain ⟨b, hb, hcurrent, hlines⟩ := breakLines_rule (P := fun _ => Keeps before opening) htokens h
    (fun _ _ t h => h.step run width flow hlast hsolid t)
    (fun _ _ h => h.close run flow hlast hsolid) fun _ _ h => h.markLast
  rw [← hlines]
  rcases hb with ⟨-, hopening⟩ | hb
  · -- a line that is still open would hold the last token
    rw [hcurrent] at hopening
    rw [List.prefix_nil.mp hopening] at hlast
    simp at hlast
  · exact hb

end Keeps

namespace Breaking

/-- The width of the open line is that of its tokens. -/
def Measured (b : Breaking α) : Prop := b.width = widthOf b.current.reverse

theorem widthOf_concat (ts : List (Token α)) (t : Token α) :
    widthOf (ts ++ [t]) = if t.kind = .mark then widthOf ts else widthOf ts + t.width := by
  simp [widthOf]

theorem push_measured {b : Breaking α} (h : b.Measured) {t : Token α} (ht : t.kind ≠ .mark) :
    (b.push t).Measured := by
  simp only [Measured, push, List.reverse_cons, widthOf_concat, if_neg ht]
  rw [h]

theorem step_measured (run : InlineRun α) (limit : α) (flow : TextFlow α) {b : Breaking α}
    (h : b.Measured) (t : Token α) : (b.step run limit flow t).Measured := by
  have hclosed : (b.close run flow).Measured := rfl
  unfold step
  cases hkind : t.kind with
  | lineEnd =>
    simp only [Measured, width_markLast, current_markLast]
    exact hclosed
  | mark =>
    simp only [Measured, List.reverse_cons, widthOf_concat, hkind]
    exact h
  | space =>
    simp only
    split
    · exact h
    · exact push_measured h (by simp [hkind])
  | word =>
    simp only
    split
    · exact push_measured hclosed (by simp [hkind])
    · exact push_measured h (by simp [hkind])

theorem foldl_measured (run : InlineRun α) (limit : α) (flow : TextFlow α) (ts : List (Token α)) :
    ∀ {b : Breaking α}, b.Measured → (ts.foldl (step run limit flow) b).Measured := by
  induction ts with
  | nil => exact fun h => h
  | cons t ts ih => exact fun h => ih (step_measured run limit flow h t)

/-- Marks stay on the open line. -/
theorem foldl_marks (run : InlineRun α) (limit : α) (flow : TextFlow α) {ms : List (Token α)}
    (h : ∀ m ∈ ms, m.kind = .mark) (b : Breaking α) :
    ms.foldl (step run limit flow) b = { b with current := ms.reverse ++ b.current } := by
  induction ms generalizing b with
  | nil => rfl
  | cons m ms ih =>
    have hm : b.step run limit flow m = { b with current := m :: b.current } := by
      simp [step, h m List.mem_cons_self]
    rw [List.foldl_cons, hm, ih fun m hm => h m (List.mem_cons_of_mem _ hm)]
    simp

end Breaking

/-- A line that ends in marks loses nothing when it is closed. -/
theorem tokens_close_marks (run : InlineRun α) (flow : TextFlow α) (b : Breaking α)
    {m : Token α} {ms : List (Token α)} (h : ∀ t ∈ m :: ms, t.kind = .mark) :
    (({ b with current := (m :: ms).reverse ++ b.current } : Breaking α).close run flow).lines.map
      LineBox.tokens = b.lines.map LineBox.tokens ++ [b.current.reverse ++ m :: ms] := by
  have hdrop : ((m :: ms).reverse ++ b.current).dropWhile isSpaceToken =
      (m :: ms).reverse ++ b.current := by
    cases hlast : (m :: ms).reverse with
    | nil => simp at hlast
    | cons last others =>
      have hmem : last ∈ m :: ms := List.mem_reverse.mp (hlast ▸ List.mem_cons_self)
      have hkind : isSpaceToken last = false := by simp [isSpaceToken, h last hmem]
      simp [hkind]
  simp only [Breaking.close, hdrop]
  simp

/-- Marks at the end of the open line do not matter to whether a word goes on with it. -/
theorem goesOn_iff (width : α) (flow : TextFlow α) {b c : Breaking α} {ms : List (Token α)}
    (hmarks : ∀ t ∈ ms, t.kind = .mark) (hlines : c.lines = b.lines)
    (hcurrent : c.current = ms.reverse ++ b.current)
    (hwidth : c.width = widthOf b.current.reverse) (w : Token α) :
    GoesOn width flow (b.lines.map LineBox.tokens).isEmpty b.current.reverse w ↔
      ¬ ((c.current.any (·.kind == .word) &&
        decide (width - c.indent flow < c.width + w.width)) = true) := by
  have hword : c.current.any (·.kind == .word) = true ↔
      ∃ t ∈ b.current.reverse, t.kind = .word := by
    have hnone : ms.reverse.any (·.kind == .word) = false := by
      refine List.any_eq_false.mpr fun t ht => ?_
      simp [hmarks t (List.mem_reverse.mp ht)]
    rw [hcurrent, List.any_append, hnone]
    simp
  have hindent : c.indent flow =
      if (b.lines.map LineBox.tokens).isEmpty then flow.firstLineIndent else 0 := by
    simp [Breaking.indent, hlines]
  rw [Bool.and_eq_true, hword, decide_eq_true_eq, not_and, hindent, hwidth]
  rfl

/-- Marks in front of a word stand in one line with it if the word goes on with the line that is
open there; if it does not, it begins the next line and the marks end the line above. -/
theorem breakLines_marks {run : InlineRun α} (width : α) (flow : TextFlow α)
    {front ms rest : List (Token α)} {m w : Token α}
    (htokens : run.tokens = front ++ m :: ms ++ w :: rest)
    (hmarks : ∀ t ∈ m :: ms, t.kind = .mark) (hword : w.kind = .word) :
    ∃ before opened,
      (GoesOn width flow before.isEmpty opened w → OpensWith before (opened ++ m :: ms ++ [w])
        ((breakLines run width flow).map LineBox.tokens)) ∧
      (¬ GoesOn width flow before.isEmpty opened w → OpensWith (before ++ [opened ++ m :: ms]) [w]
        ((breakLines run width flow).map LineBox.tokens)) := by
  let b := front.foldl (Breaking.step run width flow) .start
  let marked : Breaking α := { b with current := (m :: ms).reverse ++ b.current }
  have hmeasured : b.width = widthOf b.current.reverse :=
    Breaking.foldl_measured run width flow front (b := .start) rfl
  -- the marks have joined the open line when the word comes
  have hread : (front ++ m :: ms ++ [w]).foldl (Breaking.step run width flow) .start =
      marked.step run width flow w := by
    rw [List.foldl_append, List.foldl_append, Breaking.foldl_marks run width flow hmarks]
    rfl
  have hrun : run.tokens = (front ++ m :: ms ++ [w]) ++ rest := by simp [htokens]
  have hspace : isSpaceToken w = false := by simp [isSpaceToken, hword]
  have hgoesOn := goesOn_iff (b := b) (c := marked) width flow hmarks rfl rfl hmeasured w
  refine ⟨b.lines.map LineBox.tokens, b.current.reverse, fun hgoes => ?_, fun hbreaks => ?_⟩
  · have hstep : marked.step run width flow w = marked.push w := by
      simp only [Breaking.step, hword, if_neg (hgoesOn.mp hgoes)]
    refine Keeps.breakLines List.getLast?_concat hspace hrun ?_
    rw [hread, hstep]
    exact .inl ⟨rfl, by simp [marked, Breaking.push]⟩
  · rw [hgoesOn, Decidable.not_not] at hbreaks
    have hstep : marked.step run width flow w = (marked.close run flow).push w := by
      simp only [Breaking.step, hword, if_pos hbreaks]
    have hlast : [w].getLast? = some w := rfl
    refine Keeps.breakLines hlast hspace hrun ?_
    rw [hread, hstep]
    exact .inl ⟨tokens_close_marks run flow b hmarks, List.prefix_rfl⟩

end Folio.Flow
