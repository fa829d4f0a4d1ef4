import Folio.Proofs.Exact
import Folio.Proofs.Flow.Breaks
import Folio.Proofs.Flow.Destinations
import Mathlib.Tactic.Linarith

/-!
# Greedy lines

Breaking a run wraps it greedily: from left to right, spaces in front of a line are passed over,
then comes the line, the spaces behind it are dropped, and the line is closed by a line end, by the
end of the run, or by a word for which there is no room behind the ones that are there. In exact
arithmetic a line is as wide as its tokens together.
-/
namespace Folio.Flow

open Style

/-! ## Widths of tokens side by side -/

/-- How far a token moves what follows it; a mark takes up no room. -/
def Token.advance (t : Token ℚ) : ℚ := if t.kind = .mark then 0 else t.width

theorem Token.advance_eq {t : Token ℚ} (h : t.kind ≠ .mark) : t.advance = t.width := by
  simp [advance, h]

theorem widthOf_eq_sum (ts : List (Token ℚ)) : widthOf ts = (ts.map Token.advance).sum := by
  have hfrom (w : ℚ) : ts.foldl (fun w t => if t.kind = .mark then w else w + t.width) w =
      w + (ts.map Token.advance).sum := by
    induction ts generalizing w with
    | nil => simp
    | cons t ts ih =>
      rw [List.foldl_cons, ih, List.map_cons, List.sum_cons]
      by_cases h : t.kind = .mark
      · simp [Token.advance, h]
      · simp [Token.advance, h, add_assoc]
  have hzero := hfrom 0
  rw [zero_add] at hzero
  exact hzero

@[simp] theorem widthOf_nil : widthOf ([] : List (Token ℚ)) = 0 := rfl

@[simp] theorem widthOf_cons (t : Token ℚ) (ts : List (Token ℚ)) :
    widthOf (t :: ts) = t.advance + widthOf ts := by simp [widthOf_eq_sum]

@[simp] theorem widthOf_append (ts us : List (Token ℚ)) :
    widthOf (ts ++ us) = widthOf ts + widthOf us := by simp [widthOf_eq_sum]

theorem widthOf_reverse (ts : List (Token ℚ)) : widthOf ts.reverse = widthOf ts := by
  simp [widthOf_eq_sum]

/-- What is taken off for spaces at the end of a line. -/
theorem foldl_sub_width {ts : List (Token ℚ)} (h : ∀ t ∈ ts, t.kind = .space) (w : ℚ) :
    ts.foldl (fun w t => w - t.width) w = w - widthOf ts := by
  induction ts generalizing w with
  | nil => simp
  | cons t ts ih =>
    have ht : t.advance = t.width := Token.advance_eq (by simp [h t])
    rw [List.foldl_cons, ih fun u hu => h u (List.mem_cons_of_mem t hu), widthOf_cons, ht]
    linarith

/-! ## Greedy wrapping -/

/-- Through every word but the first, the tokens are not wider than `limit`. -/
def Fits (limit : ℚ) (ts : List (Token ℚ)) : Prop :=
  ∀ front w, front ++ [w] <+: ts → w.kind = .word → (∃ t ∈ front, t.kind = .word) →
    widthOf (front ++ [w]) ≤ limit

theorem Fits.of_prefix {limit : ℚ} {ts us : List (Token ℚ)} (h : Fits limit ts) (hus : us <+: ts) :
    Fits limit us := fun front w hfront => h front w (hfront.trans hus)

/-- One more token, which does not reach beyond the limit if it is a word behind another. -/
theorem Fits.concat {limit : ℚ} {ts : List (Token ℚ)} (h : Fits limit ts) {t : Token ℚ}
    (ht : t.kind = .word → (∃ u ∈ ts, u.kind = .word) → widthOf ts + t.advance ≤ limit) :
    Fits limit (ts ++ [t]) := by
  intro front w hinitial hword hbehind
  rcases List.prefix_concat_iff.mp hinitial with heq | hshort
  · obtain ⟨rfl, hw⟩ := List.append_inj' heq rfl
    obtain rfl : w = t := by simpa using hw
    simpa using ht hword hbehind
  · exact h front w hshort hword hbehind

/-- What a line is made of, as far as wrapping goes: its tokens and its width. -/
abbrev Wrapped := List (Token ℚ) × ℚ

def LineBox.wrapped (line : LineBox ℚ) : Wrapped := (line.tokens, line.width)

/-- A line between the spaces that are passed over in front of it and dropped behind it. -/
structure Stretch (limit : ℚ) (passed : List (Token ℚ)) (line : Wrapped)
    (dropped : List (Token ℚ)) : Prop where
  passed : ∀ t ∈ passed, t.kind = .space
  dropped : ∀ t ∈ dropped, t.kind = .space
  unended : ∀ t ∈ line.1, t.kind ≠ .lineEnd
  trimmed : ∀ t, line.1.getLast? = some t → t.kind ≠ .space
  width : line.2 = widthOf line.1
  fits : Fits limit line.1

/-- The tokens wrapped into lines, the first of which is the `k`-th of its run; `limit` is how much
room a line has. -/
inductive Wraps (limit : Nat → ℚ) : Nat → List (Token ℚ) → List Wrapped → Prop
  | none {k : Nat} {ts : List (Token ℚ)} (h : ∀ t ∈ ts, t.kind = .space) : Wraps limit k ts []
  | last {k : Nat} {passed dropped : List (Token ℚ)} {line : Wrapped}
      (h : Stretch (limit k) passed line dropped) :
      Wraps limit k (passed ++ line.1 ++ dropped) [line]
  | ended {k : Nat} {passed dropped ts : List (Token ℚ)} {line : Wrapped} {e : Token ℚ}
      {lines : List Wrapped} (h : Stretch (limit k) passed line dropped) (he : e.kind = .lineEnd)
      (rest : Wraps limit (k + 1) ts lines) :
      Wraps limit k (passed ++ line.1 ++ dropped ++ e :: ts) (line :: lines)
  | full {k : Nat} {passed dropped ts : List (Token ℚ)} {line next : Wrapped} {w : Token ℚ}
      {lines : List Wrapped} (h : Stretch (limit k) passed line dropped) (hw : w.kind = .word)
      (hfull : limit k < widthOf (line.1 ++ dropped) + w.width) (hnext : next.1.head? = some w)
      (rest : Wraps limit (k + 1) (w :: ts) (next :: lines)) :
      Wraps limit k (passed ++ line.1 ++ dropped ++ w :: ts) (line :: next :: lines)

/-- A space in front of the first line is passed over. -/
theorem Wraps.pass {limit : Nat → ℚ} {k : Nat} {ts : List (Token ℚ)} {lines : List Wrapped}
    {t : Token ℚ} (ht : t.kind = .space) (h : Wraps limit k ts lines) :
    Wraps limit k (t :: ts) lines := by
  have hpass {passed : List (Token ℚ)} {line : Wrapped} {dropped : List (Token ℚ)}
      (h : Stretch (limit k) passed line dropped) :
      Stretch (limit k) (t :: passed) line dropped :=
    { h with passed := List.forall_mem_cons.mpr ⟨ht, h.passed⟩ }
  cases h with
  | none h => exact .none (List.forall_mem_cons.mpr ⟨ht, h⟩)
  | last h => exact .last (hpass h)
  | ended h he rest => exact .ended (hpass h) he rest
  | full h hw hfull hnext rest => exact .full (hpass h) hw hfull hnext rest

/-- Every line is a stretch. -/
theorem Wraps.forall_line {limit : Nat → ℚ} {k : Nat} {ts : List (Token ℚ)} {lines : List Wrapped}
    (h : Wraps limit k ts lines) {line : Wrapped} (hline : line ∈ lines) :
    ∃ room passed dropped, Stretch room passed line dropped := by
  induction h with
  | none => cases hline
  | last h =>
    obtain rfl := List.mem_singleton.mp hline
    exact ⟨_, _, _, h⟩
  | ended h _ _ ih | full h _ _ _ _ ih =>
    rcases List.mem_cons.mp hline with rfl | hline
    · exact ⟨_, _, _, h⟩
    · exact ih hline

/-! ## Breaking wraps -/

namespace Breaking

/-- The room that the `k`-th line of a run has. -/
def room (width : ℚ) (flow : TextFlow ℚ) (k : Nat) : ℚ :=
  width - if k = 0 then flow.firstLineIndent else 0

/-- Breaking with an open line that is not too wide. -/
structure Sound (limit : ℚ) (b : Breaking ℚ) : Prop where
  measured : b.width = widthOf b.current.reverse
  unended : ∀ t ∈ b.current, t.kind ≠ .lineEnd
  fits : Fits limit b.current.reverse

/-- The lines of a run from the state behind its last token on. -/
def finish (run : InlineRun ℚ) (flow : TextFlow ℚ) (b : Breaking ℚ) : List (LineBox ℚ) :=
  (if b.current.isEmpty then b else b.close run flow).markLast.lines

theorem wrapped_markLast (b : Breaking ℚ) :
    b.markLast.lines.map LineBox.wrapped = b.lines.map LineBox.wrapped := by
  unfold markLast
  split
  · next line h =>
    obtain ⟨lines, hlines⟩ := List.getLast?_eq_some_iff.mp h
    simp [hlines, LineBox.wrapped]
  · rfl

/-- The open line as closing it leaves it. -/
def closed (b : Breaking ℚ) : Wrapped :=
  ((b.current.dropWhile isSpaceToken).reverse, widthOf (b.current.dropWhile isSpaceToken).reverse)

theorem reverse_current (b : Breaking ℚ) :
    b.current.reverse = b.closed.1 ++ (b.current.takeWhile isSpaceToken).reverse := by
  simp [closed, ← List.reverse_append]

theorem spaces_takeWhile (b : Breaking ℚ) :
    ∀ t ∈ (b.current.takeWhile isSpaceToken), t.kind = .space := by
  intro t ht
  have hspace := List.all_eq_true.mp List.all_takeWhile t ht
  simpa [isSpaceToken] using hspace

theorem Sound.wrapped_close {limit : ℚ} {b : Breaking ℚ} (h : Sound limit b) (run : InlineRun ℚ)
    (flow : TextFlow ℚ) :
    (b.close run flow).lines.map LineBox.wrapped = b.lines.map LineBox.wrapped ++ [b.closed] := by
  have hsplit := congrArg widthOf b.reverse_current
  rw [widthOf_append, ← h.measured, widthOf_reverse] at hsplit
  have hwidth : (b.current.takeWhile isSpaceToken).foldl (fun w t => w - t.width) b.width =
      widthOf b.closed.1 := by
    rw [foldl_sub_width b.spaces_takeWhile]
    linarith
  simp only [close, List.map_append, List.map_cons, List.map_nil, LineBox.wrapped]
  rw [hwidth]
  rfl

theorem Sound.stretch {limit : ℚ} {b : Breaking ℚ} (h : Sound limit b) :
    Stretch limit [] b.closed (b.current.takeWhile isSpaceToken).reverse where
  passed := List.forall_mem_nil _
  dropped t ht := b.spaces_takeWhile t (List.mem_reverse.mp ht)
  unended t ht := h.unended t ((List.dropWhile_suffix _).mem (List.mem_reverse.mp ht))
  trimmed t ht := by
    have hhead : (b.current.dropWhile isSpaceToken).head? = some t := by
      simpa [closed, List.getLast?_reverse] using ht
    have hnot := List.head?_dropWhile_not isSpaceToken b.current
    rw [hhead] at hnot
    simpa [isSpaceToken] using hnot
  width := rfl
  fits := h.fits.of_prefix (b.reverse_current ▸ List.prefix_append _ _)

/-- A token joins the open line. If it is a word behind another one, there is room for it. -/
theorem Sound.join {limit : ℚ} {b c : Breaking ℚ} (h : Sound limit b) {t : Token ℚ}
    (hcurrent : c.current = t :: b.current) (hwidth : c.width = b.width + t.advance)
    (hend : t.kind ≠ .lineEnd)
    (ht : t.kind = .word → (∃ u ∈ b.current, u.kind = .word) → b.width + t.width ≤ limit) :
    Sound limit c where
  measured := by simp [hcurrent, hwidth, h.measured]
  unended := hcurrent ▸ List.forall_mem_cons.mpr ⟨hend, h.unended⟩
  fits := by
    have hfits := h.fits.concat (t := t) fun hword hbehind => by
      rw [Token.advance_eq (by simp [hword]), ← h.measured]
      exact ht hword (by simpa using hbehind)
    simpa [hcurrent] using hfits

theorem sound_empty {limit : ℚ} {b : Breaking ℚ} (hcurrent : b.current = [])
    (hwidth : b.width = 0) : Sound limit b where
  measured := by simp [hcurrent, hwidth]
  unended := by simp [hcurrent]
  fits := by simp [hcurrent, Fits]

theorem width_push (b : Breaking ℚ) {t : Token ℚ} (ht : t.kind ≠ .mark) :
    (b.push t).width = b.width + t.advance := by
  rw [Token.advance_eq ht]
  rfl

theorem room_of_indent (width : ℚ) (flow : TextFlow ℚ) (b : Breaking ℚ) :
    width - b.indent flow = room width flow b.lines.length := by
  unfold indent room
  cases b.lines <;> rfl

/-- Closing a line keeps the word that it begins with. -/
theorem head?_closed {b : Breaking ℚ} {w : Token ℚ} (h : b.current.getLast? = some w)
    (hw : w.kind = .word) : b.closed.1.head? = some w := by
  obtain ⟨initial, hcurrent⟩ := List.getLast?_eq_some_iff.mp h
  have hspace : isSpaceToken w = false := by simp [isSpaceToken, hw]
  have hkept : [w] <:+ b.current.dropWhile isSpaceToken := by
    rw [hcurrent, List.dropWhile_append]
    by_cases hnone : (initial.dropWhile isSpaceToken).isEmpty = true
    · simp [hnone, hspace]
    · simp [hnone]
  obtain ⟨rest, hrest⟩ := hkept
  simp [closed, ← hrest]

/-- From `b` on, reading `ts` adds lines that wrap the open line and `ts`; the first of them begins
with the word that the open line begins with. -/
def WrapsOn (run : InlineRun ℚ) (width : ℚ) (flow : TextFlow ℚ) (ts : List (Token ℚ))
    (b : Breaking ℚ) : Prop :=
  ∃ lines,
    (finish run flow (ts.foldl (step run width flow) b)).map LineBox.wrapped =
        b.lines.map LineBox.wrapped ++ lines ∧
      Wraps (room width flow) b.lines.length (b.current.reverse ++ ts) lines ∧
      ∀ w, b.current.getLast? = some w → w.kind = .word →
        ∃ next rest, lines = next :: rest ∧ next.1.head? = some w

section

variable {run : InlineRun ℚ} {width : ℚ} {flow : TextFlow ℚ} {ts : List (Token ℚ)}
  {b c : Breaking ℚ} {t : Token ℚ}

theorem wrapsOn_nil (h : b.Sound (room width flow b.lines.length)) :
    WrapsOn run width flow [] b := by
  by_cases hempty : b.current = []
  · refine ⟨[], ?_, ?_, by simp [hempty]⟩
    · simp [finish, hempty, wrapped_markLast]
    · rw [hempty]
      exact .none (List.forall_mem_nil _)
  · refine ⟨[b.closed], ?_, ?_, fun w hlast hw => ⟨_, _, rfl, head?_closed hlast hw⟩⟩
    · simp [finish, hempty, wrapped_markLast, h.wrapped_close]
    · rw [List.append_nil, reverse_current]
      exact .last h.stretch

/-- A token joins the open line. -/
theorem WrapsOn.join (h : WrapsOn run width flow ts c) (hstep : b.step run width flow t = c)
    (hlines : c.lines = b.lines) (hcurrent : c.current = t :: b.current) :
    WrapsOn run width flow (t :: ts) b := by
  obtain ⟨lines, hrun, hwraps, hhead⟩ := h
  rw [hlines] at hrun hwraps
  refine ⟨lines, by simpa [hstep] using hrun, by simpa [hcurrent] using hwraps, ?_⟩
  intro w hlast
  exact hhead w (by simp [hcurrent, List.getLast?_cons, hlast])

/-- A space is passed over where no line is open. -/
theorem WrapsOn.pass (h : WrapsOn run width flow ts b) (hempty : b.current = [])
    (ht : t.kind = .space) : WrapsOn run width flow (t :: ts) b := by
  obtain ⟨lines, hrun, hwraps, hhead⟩ := h
  have hstep : b.step run width flow t = b := by simp [step, ht, hempty]
  rw [hempty] at hwraps
  refine ⟨lines, by simpa [hstep] using hrun, ?_, hhead⟩
  rw [hempty]
  exact hwraps.pass ht

/-- A line end closes the open line. -/
theorem WrapsOn.ended (h : WrapsOn run width flow ts c)
    (hb : b.Sound (room width flow b.lines.length)) (hstep : b.step run width flow t = c)
    (hlines : c.lines.map LineBox.wrapped = b.lines.map LineBox.wrapped ++ [b.closed])
    (hcurrent : c.current = []) (ht : t.kind = .lineEnd) : WrapsOn run width flow (t :: ts) b := by
  obtain ⟨lines, hrun, hwraps, -⟩ := h
  have hlength : c.lines.length = b.lines.length + 1 := by simpa using congrArg List.length hlines
  rw [hlength, hcurrent] at hwraps
  refine ⟨b.closed :: lines, ?_, ?_, fun w hlast hw => ⟨_, _, rfl, head?_closed hlast hw⟩⟩
  · simpa [hstep, hlines] using hrun
  · rw [reverse_current]
    exact .ended hb.stretch ht hwraps

/-- A word without room closes the open line and begins the next one. -/
theorem WrapsOn.full (h : WrapsOn run width flow ts c)
    (hb : b.Sound (room width flow b.lines.length)) (hstep : b.step run width flow t = c)
    (hlines : c.lines.map LineBox.wrapped = b.lines.map LineBox.wrapped ++ [b.closed])
    (hcurrent : c.current = [t]) (ht : t.kind = .word)
    (hfull : room width flow b.lines.length < b.width + t.width) :
    WrapsOn run width flow (t :: ts) b := by
  obtain ⟨lines, hrun, hwraps, hhead⟩ := h
  obtain ⟨next, rest, rfl, hnext⟩ := hhead t (by simp [hcurrent]) ht
  have hlength : c.lines.length = b.lines.length + 1 := by simpa using congrArg List.length hlines
  rw [hlength, hcurrent] at hwraps
  rw [hb.measured, reverse_current] at hfull
  refine ⟨b.closed :: next :: rest, ?_, ?_,
    fun w hlast hw => ⟨_, _, rfl, head?_closed hlast hw⟩⟩
  · simpa [hstep, hlines] using hrun
  · rw [reverse_current]
    exact .full hb.stretch ht hfull hnext hwraps

theorem wrapsOn (run : InlineRun ℚ) (width : ℚ) (flow : TextFlow ℚ) (ts : List (Token ℚ)) :
    ∀ {b : Breaking ℚ}, b.Sound (room width flow b.lines.length) → WrapsOn run width flow ts b := by
  induction ts with
  | nil => exact wrapsOn_nil
  | cons t ts ih =>
    intro b hb
    cases hkind : t.kind with
    | lineEnd =>
      have hclosed := hb.wrapped_close run flow
      rw [← wrapped_markLast] at hclosed
      refine (ih (sound_empty ?_ ?_)).ended hb (by simp [step, hkind]) hclosed ?_ hkind
      · rw [current_markLast]
        rfl
      · rw [width_markLast]
        rfl
      · rw [current_markLast]
        rfl
    | space =>
      by_cases hempty : b.current = []
      · exact (ih hb).pass hempty hkind
      · have hpush : Sound (room width flow (b.push t).lines.length) (b.push t) :=
          hb.join rfl (b.width_push (by simp [hkind])) (by simp [hkind]) (by simp [hkind])
        exact (ih hpush).join (by simp [step, hkind, hempty]) rfl rfl
    | mark =>
      have hmark : Sound (room width flow b.lines.length) { b with current := t :: b.current } :=
        hb.join rfl (by simp [Token.advance, hkind]) (by simp [hkind]) (by simp [hkind])
      exact (ih (b := { b with current := t :: b.current }) hmark).join
        (by simp [step, hkind]) rfl rfl
    | word =>
      by_cases hfull : (∃ u ∈ b.current, u.kind = .word) ∧
          room width flow b.lines.length < b.width + t.width
      · have hstep : b.step run width flow t = (b.close run flow).push t := by
          simp [step, hkind, room_of_indent, hfull]
        have hopen : Sound (room width flow ((b.close run flow).push t).lines.length)
            ((b.close run flow).push t) :=
          (sound_empty rfl rfl).join rfl (width_push _ (by simp [hkind])) (by simp [hkind])
            fun _ hbehind => by simp [close] at hbehind
        exact (ih hopen).full hb hstep (hb.wrapped_close run flow) rfl hkind hfull.2
      · have hstep : b.step run width flow t = b.push t := by
          simp only [step, hkind, room_of_indent]
          rw [if_neg]
          simpa using hfull
        have hpush : Sound (room width flow (b.push t).lines.length) (b.push t) :=
          hb.join rfl (b.width_push (by simp [hkind])) (by simp [hkind]) fun _ hbehind =>
            not_lt.mp fun hlt => hfull ⟨hbehind, hlt⟩
        exact (ih hpush).join hstep rfl rfl

end

end Breaking

/-- The lines of a run wrap its tokens. -/
theorem breakLines_wraps (run : InlineRun ℚ) (width : ℚ) (flow : TextFlow ℚ) :
    Wraps (Breaking.room width flow) 0 run.tokens
      ((breakLines run width flow).map LineBox.wrapped) := by
  obtain ⟨lines, hrun, hwraps, -⟩ := Breaking.wrapsOn run width flow run.tokens
    (b := .start) (Breaking.sound_empty rfl rfl)
  change (breakLines run width flow).map LineBox.wrapped = _ at hrun
  rw [hrun]
  exact hwraps

end Folio.Flow
