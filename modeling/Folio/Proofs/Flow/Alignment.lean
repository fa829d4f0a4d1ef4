import Folio.Proofs.Flow.Links
import Folio.Proofs.Flow.Wrapping
import Mathlib.Tactic.Ring

/-!
# Aligned lines

A line is placed as a row of its tokens, each at the end of the one before, with the same gap behind
every space when the line is justified. The row starts and ends at the edges that its alignment asks
for. What is drawn are runs of neighbours in that row, and marks stand where the row has them.
-/
namespace Folio.Flow

open Style

/-! ## Tokens in a row -/

/-- A token and where on its line it starts. -/
structure Spot where
  token : Token ℚ
  x : ℚ

def Spot.finish (s : Spot) : ℚ := s.x + s.token.advance

/-- How far behind the end of a token the next one starts. -/
def Token.gap (stretch : ℚ) (t : Token ℚ) : ℚ := if isSpaceToken t then stretch else 0

/-- Tokens one behind the other from `x` on. -/
def laid (stretch x : ℚ) : List (Token ℚ) → List Spot
  | [] => []
  | t :: ts => ⟨t, x⟩ :: laid stretch (x + t.advance + t.gap stretch) ts

/-- Where a row of tokens from `x` on ends, the gap behind its last token included. -/
def edge (stretch x : ℚ) (ts : List (Token ℚ)) : ℚ :=
  x + widthOf ts + stretch * (ts.filter isSpaceToken).length

section

variable (stretch x : ℚ) (t : Token ℚ) (ts us : List (Token ℚ))

@[simp] theorem laid_nil : laid stretch x [] = [] := rfl

@[simp] theorem laid_cons :
    laid stretch x (t :: ts) = ⟨t, x⟩ :: laid stretch (x + t.advance + t.gap stretch) ts := rfl

@[simp] theorem edge_nil : edge stretch x [] = x := by simp [edge]

theorem edge_cons :
    edge stretch x (t :: ts) = edge stretch (x + t.advance + t.gap stretch) ts := by
  by_cases h : isSpaceToken t = true
  · simp [edge, Token.gap, h]
    ring
  · simp [edge, Token.gap, h]
    ring

theorem laid_append :
    laid stretch x (ts ++ us) = laid stretch x ts ++ laid stretch (edge stretch x ts) us := by
  induction ts generalizing x with
  | nil => simp
  | cons t ts ih => simp [ih, edge_cons]

@[simp] theorem map_token_laid : (laid stretch x ts).map Spot.token = ts := by
  induction ts generalizing x with
  | nil => rfl
  | cons t ts ih => simp [ih]

/-- Each token stands at the end of the one before, with the gap behind that one between them. -/
theorem laid_isChain :
    (laid stretch x ts).IsChain fun a b => b.x = a.finish + a.token.gap stretch := by
  induction ts generalizing x with
  | nil => exact .nil
  | cons t ts ih =>
    cases ts with
    | nil => exact .singleton _
    | cons u us => exact .cons_cons rfl (ih _)

theorem Token.gap_nonneg {stretch : ℚ} (h : 0 ≤ stretch) (t : Token ℚ) : 0 ≤ t.gap stretch := by
  unfold Token.gap
  split <;> simp [h]

/-- Tokens that are not narrower than nothing stand from `x` on. -/
theorem le_of_mem_laid {stretch : ℚ} (hstretch : 0 ≤ stretch) {ts : List (Token ℚ)}
    (h : ∀ t ∈ ts, 0 ≤ t.advance) : ∀ {x : ℚ}, ∀ b ∈ laid stretch x ts, x ≤ b.x := by
  induction ts with
  | nil => simp
  | cons t ts ih =>
    intro x b hb
    obtain ⟨ht, hts⟩ := List.forall_mem_cons.mp h
    rcases List.mem_cons.mp hb with rfl | hb
    · exact le_refl x
    · have hrest := ih hts b hb
      have hgap := t.gap_nonneg hstretch
      linarith

/-- They stand from left to right. -/
theorem laid_apart (hstretch : 0 ≤ stretch) (h : ∀ t ∈ ts, 0 ≤ t.advance) :
    (laid stretch x ts).Pairwise fun a b => a.finish ≤ b.x := by
  induction ts generalizing x with
  | nil => exact .nil
  | cons t ts ih =>
    obtain ⟨-, hts⟩ := List.forall_mem_cons.mp h
    refine .cons (fun b hb => ?_) (ih _ hts)
    have hnext := le_of_mem_laid hstretch hts b hb
    have hgap := t.gap_nonneg hstretch
    change x + t.advance ≤ b.x
    linarith

theorem head?_laid {a : Spot} (h : (laid stretch x ts).head? = some a) : a.x = x := by
  cases ts with
  | nil => simp at h
  | cons t ts =>
    obtain rfl : ⟨t, x⟩ = a := by simpa using h
    rfl

/-- A row that does not end in a space ends with its last token. -/
theorem getLast?_laid {a : Spot} (h : (laid stretch x ts).getLast? = some a)
    (hspace : ∀ t, ts.getLast? = some t → t.kind ≠ .space) : a.finish = edge stretch x ts := by
  rcases List.eq_nil_or_concat' ts with rfl | ⟨initial, last, rfl⟩
  · simp at h
  · have hlast : isSpaceToken last = false := by simp [isSpaceToken, hspace last (by simp)]
    rw [laid_append] at h
    obtain rfl : ⟨last, edge stretch x initial⟩ = a := by simpa using h
    simp only [Spot.finish, edge, widthOf_append, widthOf_cons, widthOf_nil, List.filter_append,
      List.filter_cons, hlast, List.filter_nil]
    simp
    ring

end

/-! ## What is drawn of a row -/

/-- A piece of text is drawn for tokens of its style that stand at the end of each other. -/
def DrawnFrom : Piece ℚ → List Spot → Prop
  | .text style text x width, spots =>
    MadeOf (.text style text x width) (spots.map Spot.token) ∧
      spots = laid 0 x (spots.map Spot.token) ∧ width = widthOf (spots.map Spot.token)
  | .mark .., _ => False

/-- The spots of a run of text that may still grow, and ends at `x`. -/
def HeldBy : Option (Pending ℚ) → ℚ → List Spot → Prop
  | none, _, spots => spots = []
  | some p, x, spots => DrawnFrom p.piece spots ∧ p.x + p.width = x

theorem HeldBy.flush {pending : Option (Pending ℚ)} {x : ℚ} {held : List Spot}
    (h : HeldBy pending x held) : ∃ groups, List.Forall₂ DrawnFrom (Flow.flush pending) groups ∧
      groups.flatten = held := by
  cases pending with
  | none => exact ⟨[], .nil, h.symm⟩
  | some p => exact ⟨[held], .cons h.1 .nil, by simp⟩

theorem heldBy_single {t : Token ℚ} (ht : t.kind ≠ .mark) (x : ℚ) :
    HeldBy (some ⟨t.style, t.text, x, t.width⟩) (x + t.width) [⟨t, x⟩] :=
  ⟨⟨pendingOf_single t x, rfl, by simp [Token.advance_eq ht]⟩, rfl⟩

theorem HeldBy.join {p : Pending ℚ} {x : ℚ} {held : List Spot} (h : HeldBy (some p) x held)
    {t : Token ℚ} (ht : t.kind ≠ .mark) (hstyle : p.style = t.style) :
    HeldBy (some { p with text := p.text ++ t.text, width := p.width + t.width }) (x + t.width)
      (held ++ [⟨t, x⟩]) := by
  obtain ⟨⟨hmade, hlaid, hwidth⟩, hx⟩ := h
  have hjoined := PendingOf.join (p := p) hmade hstyle (p.width + t.width)
  rw [← List.map_singleton (f := Spot.token) (a := ⟨t, x⟩), ← List.map_append] at hjoined
  refine ⟨⟨hjoined, ?_, ?_⟩, ?_⟩
  · have hedge : edge 0 p.x (held.map Spot.token) = x := by
      simp [edge, ← hwidth, hx]
    rw [List.map_append, laid_append, ← hlaid, hedge]
    rfl
  · simp [hwidth, Token.advance_eq ht]
  · simp only
    linarith

/-- The name and the place of a mark. -/
def Piece.mark? : Piece ℚ → Option (String × ℚ)
  | .mark name x => some (name, x)
  | .text .. => none

def Spot.mark? (s : Spot) : Option (String × ℚ) :=
  if s.token.kind = .mark then some (s.token.text, s.x) else none

/-- The pieces show a row in its order: the texts show `held` and what is drawn of the row, and the
marks are those of the row. -/
structure ShowsRow (stretch : ℚ) (pieces : List (Piece ℚ)) (held row : List Spot) : Prop where
  texts : ∃ groups, List.Forall₂ DrawnFrom (pieces.filter Piece.isText) groups ∧
    groups.flatten = held ++ row.filter fun s => isPrinted stretch s.token
  marks : pieces.filterMap Piece.mark? = row.filterMap Spot.mark?

namespace ShowsRow

variable {stretch x : ℚ} {pieces : List (Piece ℚ)} {held more row : List Spot} {t : Token ℚ}

/-- A run of text ends in front of other pieces. -/
theorem flush {pending : Option (Pending ℚ)} (hpending : HeldBy pending x held)
    (h : ShowsRow stretch pieces more row) :
    ShowsRow stretch (Flow.flush pending ++ pieces) (held ++ more) row where
  texts := by
    obtain ⟨front, hfront, hheld⟩ := hpending.flush
    obtain ⟨groups, hgroups, hflat⟩ := h.texts
    have htexts : (Flow.flush pending).filter Piece.isText = Flow.flush pending := by
      cases pending <;> rfl
    refine ⟨front ++ groups, ?_, by simp [hheld, hflat]⟩
    rw [List.filter_append, htexts]
    exact List.rel_append hfront hgroups
  marks := by
    have hnone : (Flow.flush pending).filterMap Piece.mark? = [] := by
      cases pending <;> rfl
    rw [List.filterMap_append, hnone, List.nil_append, h.marks]

theorem mark (h : ShowsRow stretch pieces held row) (ht : t.kind = .mark) :
    ShowsRow stretch (.mark t.text x :: pieces) held (⟨t, x⟩ :: row) where
  texts := by simpa [Piece.isText, isPrinted, ht] using h.texts
  marks := by simp [Piece.mark?, Spot.mark?, ht, h.marks]

/-- A stretched space is not drawn. -/
theorem skip (h : ShowsRow stretch pieces held row) (ht : t.kind = .space)
    (hstretch : 0 < stretch) : ShowsRow stretch pieces held (⟨t, x⟩ :: row) where
  texts := by simpa [isPrinted, ht, hstretch] using h.texts
  marks := by simp [Spot.mark?, ht, h.marks]

theorem print (h : ShowsRow stretch pieces (held ++ [⟨t, x⟩]) row) (ht : t.kind ≠ .mark)
    (hprinted : isPrinted stretch t = true) : ShowsRow stretch pieces held (⟨t, x⟩ :: row) where
  texts := by simpa [hprinted] using h.texts
  marks := by simp [Spot.mark?, ht, h.marks]

end ShowsRow

theorem placeTokens_shows {stretch : ℚ} (hstretch : 0 ≤ stretch) {ts : List (Token ℚ)}
    (hts : ∀ t ∈ ts, t.kind ≠ .lineEnd) :
    ∀ {pending : Option (Pending ℚ)} {held : List Spot} {x : ℚ}, HeldBy pending x held →
      ShowsRow stretch (placeTokens stretch pending x ts) held (laid stretch x ts) := by
  induction ts with
  | nil =>
    intro pending held x h
    have hnone : ShowsRow stretch [] [] [] := ⟨⟨[], .nil, rfl⟩, rfl⟩
    simpa [placeTokens] using hnone.flush h
  | cons t ts ih =>
    intro pending held x h
    obtain ⟨ht, hts⟩ := List.forall_mem_cons.mp hts
    rw [laid_cons]
    unfold placeTokens
    split
    · next hkind =>
      have hx : x + t.advance + t.gap stretch = x := by
        simp [Token.advance, Token.gap, isSpaceToken, hkind]
      rw [hx]
      exact (ih hts h).mark hkind
    · next hkind => exact absurd hkind ht
    · next hmark hline =>
      rw [Token.advance_eq hmark]
      split
      · next hspace =>
        obtain ⟨hkind, hpositive⟩ : t.kind = .space ∧ 0 < stretch := by simpa using hspace
        have hgap : x + t.width + t.gap stretch = x + (t.width + stretch) := by
          simp [Token.gap, isSpaceToken, hkind, add_assoc]
        have hnone : HeldBy none (x + (t.width + stretch)) [] := rfl
        have hrest := ((ih hts hnone).skip (x := x) hkind hpositive).flush h
        rw [hgap]
        simpa using hrest
      · next hspace =>
        have hunstretched : t.kind = .space → stretch ≤ 0 := by simpa using hspace
        have hprinted : isPrinted stretch t = true := by
          cases hkind : t.kind with
          | word => simp [isPrinted, hkind]
          | space => simp [isPrinted, hkind, hunstretched hkind]
          | lineEnd => exact absurd hkind ht
          | mark => exact absurd hkind hmark
        have hgap : t.gap stretch = 0 := by
          unfold Token.gap
          split
          · next hkind =>
            exact le_antisymm (hunstretched (by simpa [isSpaceToken] using hkind)) hstretch
          · rfl
        rw [hgap, add_zero]
        cases pending with
        | none =>
          obtain rfl : held = [] := h
          exact (ih hts (heldBy_single hmark x)).print hmark hprinted
        | some p =>
          simp only
          split
          · next hstyle => exact (ih hts (h.join hmark hstyle)).print hmark hprinted
          · have hrest : ShowsRow stretch _ [] _ :=
              (ih hts (heldBy_single hmark x)).print hmark hprinted
            simpa [Flow.flush] using hrest.flush h

/-! ## Edges -/

namespace LineBox

/-- Where a line starts and ends in a column that starts at `x0`: at the edge that its alignment
asks for or, justified with a space to stretch, at both. -/
def edges (line : LineBox ℚ) (x0 width : ℚ) : TextAlign → ℚ × ℚ
  | .left => (x0, x0 + line.width)
  | .right => (x0 + width - line.width, x0 + width)
  | .center => (x0 + (width - line.width) / 2, x0 + width - (width - line.width) / 2)
  | .justified =>
    if line.last = false ∧ ∃ t ∈ line.tokens, t.kind = .space then (x0, x0 + width)
    else (x0, x0 + line.width)

/-- A line has been placed as `row`, with `stretch` behind every space. -/
structure Aligned (line : LineBox ℚ) (x0 width : ℚ) (align : TextAlign) (stretch : ℚ)
    (row : List Spot) : Prop where
  tokens : row.map Spot.token = line.tokens
  /-- Each token stands at the end of the one before, with the stretch behind a space. -/
  joined : row.IsChain fun a b => b.x = a.finish + a.token.gap stretch
  stretch_nonneg : 0 ≤ stretch
  stretched : stretch ≠ 0 → align = .justified ∧ line.last = false
  /-- From left to right without overlap, unless a token has a negative width. -/
  apart : (∀ t ∈ line.tokens, 0 ≤ t.advance) → row.Pairwise fun a b => a.finish ≤ b.x
  starts : ∀ a, row.head? = some a → a.x = (line.edges x0 width align).1
  ends : ∀ a, row.getLast? = some a → a.finish = (line.edges x0 width align).2
  shown : ShowsRow stretch (line.pieces x0 width align) [] row

/-- The start and the stretch of a line put its ends where its alignment asks for them. -/
theorem lineStart_edges {line : LineBox ℚ} {width : ℚ} (hwidth : line.width ≤ width) (x0 : ℚ)
    (align : TextAlign) :
    0 ≤ (lineStart line x0 width align).2 ∧
      ((lineStart line x0 width align).2 ≠ 0 → align = .justified ∧ line.last = false) ∧
      (lineStart line x0 width align).1 = (line.edges x0 width align).1 ∧
      (lineStart line x0 width align).1 + line.width + (lineStart line x0 width align).2 *
        (line.tokens.filter isSpaceToken).length = (line.edges x0 width align).2 := by
  have hslack : Scalar.larger (width - line.width) 0 = width - line.width :=
    max_eq_left (sub_nonneg.mpr hwidth)
  have hfree : 0 ≤ width - line.width := sub_nonneg.mpr hwidth
  cases align with
  | left => simp [lineStart, edges]
  | center =>
    simp only [lineStart, edges, hslack]
    refine ⟨le_refl _, by simp, trivial, by ring⟩
  | right =>
    simp only [lineStart, edges, hslack]
    refine ⟨le_refl _, by simp, by ring, by ring⟩
  | justified =>
    have hspaces : 0 < (line.tokens.filter isSpaceToken).length ↔
        ∃ t ∈ line.tokens, t.kind = .space := by
      simp [List.length_pos_iff_exists_mem, isSpaceToken]
    simp only [lineStart, edges, hslack, Bool.and_eq_true, Bool.not_eq_true', decide_eq_true_eq,
      hspaces]
    split
    · next h =>
      have hpositive : (0 : ℚ) < (line.tokens.filter isSpaceToken).length := by
        exact_mod_cast hspaces.mpr h.2
      refine ⟨div_nonneg hfree hpositive.le, fun _ => ⟨trivial, h.1⟩, rfl, ?_⟩
      simp only
      rw [div_mul_cancel₀ _ hpositive.ne']
      ring
    · simp

end LineBox

/-- A line of a run, in a column that it fits, is placed as a row of its tokens from the edge to the
edge that its alignment asks for, whatever the kinds and styles of its tokens. -/
theorem breakLines_aligned (run : InlineRun ℚ) (limit : ℚ) (flow : TextFlow ℚ) {line : LineBox ℚ}
    (hline : line ∈ breakLines run limit flow) {width : ℚ} (hwidth : line.width ≤ width) (x0 : ℚ)
    (align : TextAlign) : ∃ stretch row, line.Aligned x0 width align stretch row := by
  obtain ⟨room, passed, dropped, h⟩ := (breakLines_wraps run limit flow).forall_line
    (List.mem_map_of_mem hline)
  obtain ⟨hstretch, hstretched, hstart, hend⟩ := LineBox.lineStart_edges hwidth x0 align
  refine ⟨(lineStart line x0 width align).2,
    laid (lineStart line x0 width align).2 (lineStart line x0 width align).1 line.tokens, ?_⟩
  exact {
    tokens := map_token_laid ..
    joined := laid_isChain ..
    stretch_nonneg := hstretch
    stretched := hstretched
    apart := laid_apart _ _ _ hstretch
    starts := fun a ha => (head?_laid _ _ _ ha).trans hstart
    ends := fun a ha => by
      have hfinish := getLast?_laid _ _ _ ha h.trimmed
      rw [edge, ← (show line.width = widthOf line.tokens from h.width)] at hfinish
      exact hfinish.trans hend
    shown := placeTokens_shows hstretch h.unended rfl }

/-- Where a piece of text starts and ends. -/
def Piece.interval? : Piece ℚ → Option (ℚ × ℚ)
  | .text _ _ x width => some (x, x + width)
  | .mark .. => none

/-- A row of texts, each in its own font size. -/
def sizedRun (texts : List (String × ℚ)) : InlineRun ℚ :=
  texts.foldl (fun run text => run.pushText text.1 (.plain (Font.standard.withSize text.2) none))
    .empty

theorem breakLines_aligned_justified :
    let run := sizedRun [("one ", 10), ("two three", 10)]
    ∃ line ∈ breakLines run 40 .plain, line.width ≤ 40 ∧
      (line.pieces 36 40 .justified).filterMap Piece.interval? = [(36, 52.68), (60.44, 76)] ∧
      ∃ stretch row, line.Aligned 36 40 .justified stretch row := by
  intro run
  obtain ⟨line, hline, hwidth, hintervals⟩ : ∃ line ∈ breakLines run 40 .plain, line.width ≤ 40 ∧
      (line.pieces 36 40 .justified).filterMap Piece.interval? = [(36, 52.68), (60.44, 76)] := by
    decide +kernel
  exact ⟨line, hline, hwidth, hintervals,
    breakLines_aligned run 40 .plain hline hwidth 36 .justified⟩

/-- A text of a negative size runs backwards: the one behind it is drawn over the one before. -/
theorem breakLines_backwards :
    ∃ line ∈ breakLines (sizedRun [("ab", 20), ("cd", -20), ("ef", 20)]) 523 .plain,
      line.width ≤ 523 ∧
        ¬((line.pieces 36 523 .left).filterMap Piece.interval?).Pairwise fun a b => a.2 ≤ b.1 := by
  decide +kernel

end Folio.Flow
