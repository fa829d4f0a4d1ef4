import Folio.Proofs.Flow.Passages
import Folio.Proofs.Flow.Wrapping

/-!
# Where each line is cut

Every line of a run is a stretch of its tokens, known by the places of its first and last token in
the run. The stretches follow each other from left to right and leave out spaces and line ends only,
each ends where there is no room for the next word, and none is longer than the room it has.
-/
namespace Folio.Flow

open Style

/-! ## Runs that the engine builds -/

/-- A run that texts and inline nodes were added to, in any order. -/
inductive InlineRun.Built : InlineRun ℚ → Prop
  | empty : Built .empty
  | pushText {run : InlineRun ℚ} (h : Built run) (text : String) (style : RunStyle ℚ) :
      Built (run.pushText text style)
  | collectInline {run grown : InlineRun ℚ} (h : Built run) (link : Option String) (n : Node ℚ)
      (hn : collectInline link run n = some grown) : Built grown

/-- A link as it holds inside an anchor that leads there. -/
theorem targetOf_single (link : Option String) : targetOf [⟨none, link⟩] = link := by
  cases link <;> rfl

theorem InlineRun.Built.gathered {run : InlineRun ℚ} (h : run.Built) : ∃ os, Gathered run os := by
  induction h with
  | empty => exact ⟨[], gathered_empty⟩
  | pushText _ text style ih =>
    obtain ⟨os, hos⟩ := ih
    have hlink : style.link = linkOf [⟨none, style.link⟩] false := (targetOf_single _).symm
    exact ⟨_, hos.pushText text hlink⟩
  | collectInline _ link n hn ih =>
    obtain ⟨os, hos⟩ := ih
    have hcollected := collectInline_gathered n [⟨none, link⟩] hos
    rw [targetOf_single, hn] at hcollected
    cases hmore : originsOf [⟨none, link⟩] n with
    | none => simp [hmore, Collected] at hcollected
    | some more => exact ⟨os ++ more, by simpa [hmore, Collected] using hcollected⟩

/-- A mark has no width of its own. -/
theorem Gathered.advance_eq_width {run : InlineRun ℚ} {os : List Origin} (h : Gathered run os) :
    ∀ t ∈ run.tokens, t.advance = t.width := by
  intro t ht
  by_cases hmark : t.kind = .mark
  · obtain ⟨parts, htokens, hyields⟩ := h
    obtain ⟨part, hpart, ht⟩ := List.mem_flatten.mp (htokens ▸ ht)
    obtain ⟨o, -, ho⟩ := exists_left_of_forall₂ hyields hpart
    cases o with
    | text words within reduced =>
      obtain ⟨index, font, -, rfl, -⟩ := ho
      have hname := mem_marksOf ht hmark
      rw [marksOf_tokenize] at hname
      cases hname
    | name id content =>
      obtain ⟨index, rfl⟩ := ho
      obtain rfl := List.mem_singleton.mp ht
      rfl
  · exact Token.advance_eq hmark

/-! ## Cuts -/

/-- Where a line stands in its run: from `first` up to `stop`, and what is dropped behind it up to
`closed`. -/
structure Cut where
  first : Nat
  stop : Nat
  closed : Nat

/-- The places of the tokens of a line, all in a row. -/
def Cut.places (c : Cut) : List Nat := List.range' c.first (c.stop - c.first)

/-- A line as it was before the spaces at its end were dropped. -/
def Cut.untrimmed (c : Cut) (ts : List (Token ℚ)) : List (Token ℚ) :=
  (ts.take c.closed).drop c.first

/-- How wide tokens are by their own widths. -/
def sumOfWidths (ts : List (Token ℚ)) : ℚ := (ts.map Token.width).sum

/-- A line of the tokens `ts` that has room for `limit`. -/
structure Cut.IsLine (limit : ℚ) (ts : List (Token ℚ)) (c : Cut) (line : Wrapped) : Prop where
  tokens : line.1.map some = c.places.map (ts[·]?)
  /-- What stands between two tokens of the line is on it, the spaces between its words too. -/
  between : ∀ i ∈ c.places, ∀ j ∈ c.places, ∀ k, i ≤ k → k ≤ j → k ∈ c.places
  unended : ∀ t ∈ line.1, t.kind ≠ .lineEnd
  trimmed : ∀ t, line.1.getLast? = some t → t.kind ≠ .space
  width : line.2 = sumOfWidths line.1
  /-- Up to any word that is not its first, the line is within its limit. -/
  fits : ∀ front w, front ++ [w] <+: line.1 → w.kind = .word → (∃ t ∈ front, t.kind = .word) →
    sumOfWidths (front ++ [w]) ≤ limit
  ordered : c.first ≤ c.stop ∧ c.stop ≤ c.closed
  /-- Only spaces are dropped behind the line. -/
  dropped : ∀ i t, c.stop ≤ i → i < c.closed → ts[i]? = some t → t.kind = .space

/-- The tokens `ts` from the place `start` on are cut into lines, the first of which is the `k`-th
of its run. -/
structure CutFrom (limit : Nat → ℚ) (ts : List (Token ℚ)) (k start : Nat) (cuts : List Cut)
    (lines : List Wrapped) : Prop where
  length : lines.length = cuts.length
  isLine : ∀ (j : Nat) (c : Cut) (line : Wrapped), cuts[j]? = some c → lines[j]? = some line →
    c.IsLine (limit (k + j)) ts line
  begun : ∀ i ∈ cuts.flatMap Cut.places, start ≤ i
  /-- The lines hold no place twice, and every place behind those before it. -/
  rising : (cuts.flatMap Cut.places).Pairwise (· < ·)
  /-- No word and no mark is left out. -/
  solid : ∀ (i : Nat) (t : Token ℚ), start ≤ i → ts[i]? = some t → t.solid = true →
    i ∈ cuts.flatMap Cut.places
  /-- A line that is closed by neither a line end nor the end of the run has no room for the first
  word of the next line. -/
  full : ∀ (j : Nat) (c : Cut) (e : Token ℚ), cuts[j]? = some c → ts[c.closed]? = some e →
    e.kind ≠ .lineEnd →
    e.kind = .word ∧ (∃ next, cuts[j + 1]? = some next ∧ next.places.head? = some c.closed) ∧
      limit (k + j) < sumOfWidths (c.untrimmed ts) + e.width

section

variable {limit : Nat → ℚ} {ts : List (Token ℚ)} {k start : Nat} {cuts : List Cut}
  {lines : List Wrapped}

theorem Cut.mem_places {c : Cut} {i : Nat} : i ∈ c.places ↔ c.first ≤ i ∧ i < c.stop := by
  rw [Cut.places, List.mem_range'_1]
  omega

theorem cutFrom_nil (h : ∀ i t, start ≤ i → ts[i]? = some t → t.solid = false) :
    CutFrom limit ts k start [] [] where
  length := rfl
  isLine := by simp
  begun := by simp
  rising := .nil
  solid i t hi ht hsolid := by simp [h i t hi ht] at hsolid
  full := by simp

/-- A line in front of others, from which neither a word nor a mark separates it. -/
theorem CutFrom.cons {c : Cut} {line : Wrapped} {next : Nat}
    (hc : c.IsLine (limit k) ts line) (hrest : CutFrom limit ts (k + 1) next cuts lines)
    (hfirst : start ≤ c.first) (hnext : c.closed ≤ next)
    (hpassed : ∀ i t, start ≤ i → i < c.first → ts[i]? = some t → t.solid = false)
    (hbehind : ∀ i t, c.closed ≤ i → i < next → ts[i]? = some t → t.solid = false)
    (hfull : ∀ e, ts[c.closed]? = some e → e.kind ≠ .lineEnd →
      e.kind = .word ∧ (∃ d, cuts[0]? = some d ∧ d.places.head? = some c.closed) ∧
        limit k < sumOfWidths (c.untrimmed ts) + e.width) :
    CutFrom limit ts k start (c :: cuts) (line :: lines) where
  length := by simp [hrest.length]
  isLine j d box hd hbox := by
    cases j with
    | zero =>
      obtain rfl : c = d := by simpa using hd
      obtain rfl : line = box := by simpa using hbox
      exact hc
    | succ j =>
      have hshift : k + (j + 1) = k + 1 + j := by omega
      rw [hshift]
      exact hrest.isLine j d box hd hbox
  begun i hi := by
    have hordered := hc.ordered
    rcases List.mem_append.mp hi with hi | hi
    · have hplace := Cut.mem_places.mp hi
      omega
    · have hbegun := hrest.begun i hi
      omega
  rising := by
    have hordered := hc.ordered
    refine List.pairwise_append.mpr ⟨List.pairwise_lt_range', hrest.rising, ?_⟩
    intro i hi j hj
    have hplace := Cut.mem_places.mp hi
    have hbegun := hrest.begun j hj
    omega
  solid i t hi ht hsolid := by
    rw [List.flatMap_cons, List.mem_append, Cut.mem_places]
    by_cases hbefore : i < c.first
    · simp [hpassed i t hi hbefore ht] at hsolid
    by_cases hon : i < c.stop
    · exact .inl ⟨by omega, hon⟩
    by_cases hdropped : i < c.closed
    · simp [Token.solid, hc.dropped i t (by omega) hdropped ht] at hsolid
    by_cases hclosed : i < next
    · simp [hbehind i t (by omega) hclosed ht] at hsolid
    · exact .inr (hrest.solid i t (by omega) ht hsolid)
  full j d e hd he hend := by
    cases j with
    | zero =>
      obtain rfl : c = d := by simpa using hd
      exact hfull e he hend
    | succ j =>
      have hshift : k + (j + 1) = k + 1 + j := by omega
      rw [hshift]
      exact hrest.full j d e hd he hend

theorem sumOfWidths_eq {us : List (Token ℚ)} (hwidth : ∀ t ∈ us, t.advance = t.width) :
    sumOfWidths us = widthOf us := by
  rw [widthOf_eq_sum, sumOfWidths, List.map_congr_left hwidth]

/-- Where a line stands behind `before` and in front of what is dropped. -/
def cutBehind (before line dropped : List (Token ℚ)) : Cut where
  first := before.length
  stop := before.length + line.length
  closed := before.length + line.length + dropped.length

theorem untrimmed_cutBehind (before line dropped back : List (Token ℚ)) :
    (cutBehind before line dropped).untrimmed (before ++ line ++ dropped ++ back) =
      line ++ dropped := by
  have htake : (before ++ line ++ dropped ++ back).take
      (cutBehind before line dropped).closed = before ++ (line ++ dropped) := by
    rw [List.take_left' (by simp [cutBehind]; omega), List.append_assoc]
  rw [Cut.untrimmed, htake]
  exact List.drop_left

/-- What stands between two places of a row. -/
theorem mem_of_getElem?_between (before back : List (Token ℚ)) {mid : List (Token ℚ)} {i : Nat}
    {t : Token ℚ} (ht : (before ++ mid ++ back)[i]? = some t) (hfirst : before.length ≤ i)
    (hlast : i < before.length + mid.length) : t ∈ mid := by
  rw [List.append_assoc, List.getElem?_append_right hfirst,
    List.getElem?_append_left (by omega)] at ht
  exact List.mem_of_getElem? ht

theorem map_getElem?_range' (before line back : List (Token ℚ)) :
    (List.range' before.length line.length).map ((before ++ line ++ back)[·]?) = line.map some := by
  apply List.ext_getElem
  · simp
  · intro i hi hj
    have hlt : i < line.length := by simpa using hj
    simp [List.getElem?_append_right, List.getElem?_append_left, hlt]

theorem Stretch.isLine {room : ℚ} {passed dropped before back : List (Token ℚ)} {line : Wrapped}
    (h : Stretch room passed line dropped)
    (hwidth : ∀ t ∈ before ++ line.1 ++ dropped ++ back, t.advance = t.width) :
    (cutBehind before line.1 dropped).IsLine room (before ++ line.1 ++ dropped ++ back) line where
  tokens := by
    have hplaces : (cutBehind before line.1 dropped).places =
        List.range' before.length line.1.length := by simp [Cut.places, cutBehind]
    rw [hplaces, List.append_assoc (before ++ line.1), map_getElem?_range']
  between i hi j hj k hik hkj := by
    rw [Cut.mem_places] at hi hj ⊢
    omega
  unended := h.unended
  trimmed := h.trimmed
  width := by
    rw [h.width, sumOfWidths_eq fun t ht => hwidth t (by simp [ht])]
  fits front w hinitial hword hbehind := by
    have hon (t : Token ℚ) (ht : t ∈ front ++ [w]) : t.advance = t.width :=
      hwidth t (by simp [hinitial.subset ht])
    rw [sumOfWidths_eq hon]
    exact h.fits front w hinitial hword hbehind
  ordered := by simp [cutBehind]
  dropped i t hstop hclosed ht := by
    rw [cutBehind] at hstop hclosed
    exact h.dropped t (mem_of_getElem?_between (before ++ line.1) back ht (by simpa using hstop)
      (by simpa using hclosed))

/-- A line that begins with the first word there is stands where that word stands. -/
theorem Stretch.begins {room : ℚ} {passed dropped : List (Token ℚ)} {line : Wrapped} {w : Token ℚ}
    (h : Stretch room passed line dropped) (hline : line.1.head? = some w)
    (front back : List (Token ℚ))
    (hmid : (passed ++ line.1 ++ dropped ++ back).head? = some w) (hw : w.kind = .word) :
    (cutBehind (front ++ passed) line.1 dropped).places.head? = some front.length := by
  obtain ⟨others, hothers⟩ := List.head?_eq_some_iff.mp hline
  cases passed with
  | nil => simp [Cut.places, cutBehind, hothers, List.range'_succ]
  | cons t passed =>
    obtain rfl : t = w := by simpa using hmid
    have hspace := h.passed t List.mem_cons_self
    simp [hw] at hspace

/-- A stretch of the tokens in front of lines that have been cut. -/
theorem CutFrom.stretch {front passed dropped back : List (Token ℚ)} {line : Wrapped} {next : Nat}
    (h : Stretch (limit k) passed line dropped)
    (hsplit : ts = front ++ passed ++ line.1 ++ dropped ++ back)
    (hwidth : ∀ t ∈ ts, t.advance = t.width)
    (hrest : CutFrom limit ts (k + 1) next cuts lines)
    (hnext : (front ++ passed ++ line.1 ++ dropped).length ≤ next)
    (hbehind : ∀ i t, (front ++ passed ++ line.1 ++ dropped).length ≤ i → i < next →
      ts[i]? = some t → t.solid = false)
    (hfull : ∀ e, back.head? = some e → e.kind ≠ .lineEnd → e.kind = .word ∧
      (∃ d, cuts[0]? = some d ∧
        d.places.head? = some (front ++ passed ++ line.1 ++ dropped).length) ∧
      limit k < widthOf (line.1 ++ dropped) + e.width) :
    CutFrom limit ts k front.length (cutBehind (front ++ passed) line.1 dropped :: cuts)
      (line :: lines) := by
  have hclosed : (cutBehind (front ++ passed) line.1 dropped).closed =
      (front ++ passed ++ line.1 ++ dropped).length := by
    simp only [cutBehind, List.length_append]
  subst hsplit
  rw [← hclosed] at hnext hbehind hfull
  refine .cons (h.isLine hwidth) hrest (by simp [cutBehind]) hnext ?_ hbehind ?_
  · intro i t hstart hfirst ht
    have hmem : t ∈ passed := by
      refine mem_of_getElem?_between front (line.1 ++ (dropped ++ back)) ?_ hstart
        (by simpa [cutBehind] using hfirst)
      simpa using ht
    simp [Token.solid, h.passed t hmem]
  · intro e he
    have hhead : back.head? = some e := by
      rw [hclosed, List.getElem?_append_right (Nat.le_refl _), Nat.sub_self,
        ← List.head?_eq_getElem?] at he
      exact he
    have hon (t : Token ℚ) (ht : t ∈ line.1 ++ dropped) : t.advance = t.width := by
      refine hwidth t ?_
      simp only [List.mem_append] at ht ⊢
      tauto
    rw [untrimmed_cutBehind, sumOfWidths_eq hon]
    exact hfull e hhead

/-- Tokens are cut into lines, whatever stands in front of them; a first line that begins with the
first of them, a word, is cut there. -/
def Cuts (limit : Nat → ℚ) (k : Nat) (mid : List (Token ℚ)) (lines : List Wrapped) : Prop :=
  ∀ front : List (Token ℚ), (∀ t ∈ front ++ mid, t.advance = t.width) →
    ∃ cuts, CutFrom limit (front ++ mid) k front.length cuts lines ∧
      ∀ line w, lines.head? = some line → line.1.head? = some w → mid.head? = some w →
        w.kind = .word → ∃ c, cuts[0]? = some c ∧ c.places.head? = some front.length

section

variable {passed dropped : List (Token ℚ)} {line : Wrapped}

theorem cuts_none {mid : List (Token ℚ)} (h : ∀ t ∈ mid, t.kind = .space) :
    Cuts limit k mid [] := by
  intro front hwidth
  refine ⟨[], cutFrom_nil ?_, by simp⟩
  intro i t hi ht
  rw [List.getElem?_append_right hi] at ht
  simp [Token.solid, h t (List.mem_of_getElem? ht)]

theorem Stretch.cuts_last (h : Stretch (limit k) passed line dropped) :
    Cuts limit k (passed ++ line.1 ++ dropped) [line] := by
  intro front hwidth
  have hsplit : front ++ (passed ++ line.1 ++ dropped) =
      front ++ passed ++ line.1 ++ dropped ++ [] := by simp
  have hnone : CutFrom limit (front ++ (passed ++ line.1 ++ dropped)) (k + 1)
      (front ++ passed ++ line.1 ++ dropped).length [] [] := by
    refine cutFrom_nil fun i t hi ht => ?_
    have hlt := (List.getElem?_eq_some_iff.mp ht).1
    simp only [List.length_append] at hi hlt
    omega
  refine ⟨_, .stretch h hsplit hwidth hnone (Nat.le_refl _) ?_ (by simp), ?_⟩
  · intro i t hi hlt
    omega
  · intro box w hbox hhead hmid hw
    obtain rfl : line = box := by simpa using hbox
    exact ⟨_, rfl, h.begins hhead front [] (by simpa using hmid) hw⟩

theorem Stretch.cuts_ended (h : Stretch (limit k) passed line dropped) {e : Token ℚ}
    (he : e.kind = .lineEnd) {mid : List (Token ℚ)} (hmid : Cuts limit (k + 1) mid lines) :
    Cuts limit k (passed ++ line.1 ++ dropped ++ e :: mid) (line :: lines) := by
  intro front hwidth
  have hsplit : front ++ (passed ++ line.1 ++ dropped ++ e :: mid) =
      front ++ passed ++ line.1 ++ dropped ++ e :: mid := by simp
  have hrest : front ++ (passed ++ line.1 ++ dropped ++ e :: mid) =
      front ++ passed ++ line.1 ++ dropped ++ [e] ++ mid := by simp
  obtain ⟨cuts, hcuts, -⟩ := hmid (front ++ passed ++ line.1 ++ dropped ++ [e]) (hrest ▸ hwidth)
  rw [← hrest] at hcuts
  refine ⟨_, .stretch h hsplit hwidth hcuts (by simp) ?_ ?_, ?_⟩
  · intro i t hi hlt ht
    have hmem : t ∈ [e] := by
      apply mem_of_getElem?_between (front ++ passed ++ line.1 ++ dropped) mid _ hi
      · simp only [List.length_append, List.length_singleton] at hlt ⊢
        omega
      · rwa [← hrest]
    simp [Token.solid, List.mem_singleton.mp hmem, he]
  · intro d hd hend
    obtain rfl : e = d := by simpa using hd
    exact absurd he hend
  · intro box w hbox hhead hbegins hw
    obtain rfl : line = box := by simpa using hbox
    exact ⟨_, rfl, h.begins hhead front _ hbegins hw⟩

theorem Stretch.cuts_full (h : Stretch (limit k) passed line dropped) {w : Token ℚ}
    (hw : w.kind = .word) (hfull : limit k < widthOf (line.1 ++ dropped) + w.width) {next : Wrapped}
    (hnext : next.1.head? = some w) {mid : List (Token ℚ)}
    (hmid : Cuts limit (k + 1) (w :: mid) (next :: lines)) :
    Cuts limit k (passed ++ line.1 ++ dropped ++ w :: mid) (line :: next :: lines) := by
  intro front hwidth
  have hsplit : front ++ (passed ++ line.1 ++ dropped ++ w :: mid) =
      front ++ passed ++ line.1 ++ dropped ++ w :: mid := by simp
  obtain ⟨cuts, hcuts, hbegins⟩ := hmid (front ++ passed ++ line.1 ++ dropped) (hsplit ▸ hwidth)
  rw [← hsplit] at hcuts
  refine ⟨_, .stretch h hsplit hwidth hcuts (Nat.le_refl _) ?_ ?_, ?_⟩
  · intro i t hi hlt
    omega
  · intro e he hend
    obtain rfl : w = e := by simpa using he
    exact ⟨hw, hbegins next w rfl hnext rfl hw, hfull⟩
  · intro box v hbox hhead hfirst hv
    obtain rfl : line = box := by simpa using hbox
    exact ⟨_, rfl, h.begins hhead front _ hfirst hv⟩

end

theorem Wraps.cut {mid : List (Token ℚ)} (h : Wraps limit k mid lines) :
    Cuts limit k mid lines := by
  induction h with
  | none h => exact cuts_none h
  | last h => exact h.cuts_last
  | ended h he _ ih => exact h.cuts_ended he ih
  | full h hw hfull hnext _ ih => exact h.cuts_full hw hfull hnext ih

end

/-- The lines of a run that the engine has built are a greedy wrap of it: they hold its words and
marks in order, as wide as their tokens are, and each is ended by a line end, by the end of the run
or for want of room. -/
theorem breakLines_greedy {run : InlineRun ℚ} (h : run.Built) (width : ℚ) (flow : TextFlow ℚ) :
    ∃ cuts, CutFrom (Breaking.room width flow) run.tokens 0 0 cuts
      ((breakLines run width flow).map LineBox.wrapped) := by
  obtain ⟨os, hos⟩ := h.gathered
  obtain ⟨cuts, hcuts, -⟩ := (breakLines_wraps run width flow).cut [] hos.advance_eq_width
  exact ⟨cuts, hcuts⟩

theorem breakLines_greedy_twoWords :
    let run : InlineRun ℚ := .pushText .empty "one two" (.plain .standard none)
    run.Built ∧ ((breakLines run 30 .plain).map fun line => line.tokens.map Token.text) =
        [["one"], ["two"]] ∧
      ∃ cuts, CutFrom (Breaking.room 30 .plain) run.tokens 0 0 cuts
        ((breakLines run 30 .plain).map LineBox.wrapped) :=
  ⟨.pushText .empty _ _, by decide +kernel, breakLines_greedy (.pushText .empty _ _) 30 .plain⟩

end Folio.Flow
