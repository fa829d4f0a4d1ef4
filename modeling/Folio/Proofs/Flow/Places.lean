import Folio.Proofs.Flow.Collecting

/-!
# Lines by places

The lines of a run hold the places of their tokens in it, and a token holds the place of its style.
Breaking and drawing are written out here over places, with every token and every style looked up
where it stands; a lookup at a place that the run does not have leaves no result at all. For a run
whose tokens have their styles both come to a result, which is that of breaking and drawing the
tokens themselves.
-/
namespace Folio.Flow

open Style

variable {α : Type} [Scalar α]

/-! ## Breaking -/

/-- A line by the places of its tokens. -/
structure PlaceLine (α : Type) where
  places : List Nat
  width : α
  height : α
  maxSize : α
  last : Bool

/-- Breaking on the way: finished lines, then the places of the open line, the last one first. -/
structure PlaceBreaking (α : Type) where
  lines : List (PlaceLine α)
  current : List Nat
  width : α

/-- The size of the font that the token at a place is set in. -/
def InlineRun.sizeAt? (run : InlineRun α) (i : Nat) : Option α := do
  let t ← run.tokens[i]?
  let style ← run.styles[t.style]?
  return style.font.size

/-- Takes spaces off the end of the open line. -/
def trim? (run : InlineRun α) (width : α) : List Nat → Option (List Nat × α)
  | [] => return ([], width)
  | i :: rest => do
    let t ← run.tokens[i]?
    if isSpaceToken t then trim? run (width - t.width) rest else return (i :: rest, width)

namespace PlaceBreaking

def start : PlaceBreaking α := ⟨[], [], 0⟩

/-- Ends the open line. -/
def close? (run : InlineRun α) (flow : TextFlow α) (b : PlaceBreaking α) :
    Option (PlaceBreaking α) := do
  let (kept, width) ← trim? run b.width b.current
  let places := kept.reverse
  let size := Scalar.greatest 0 (← places.mapM run.sizeAt?)
  let size := if (0 : α) < size then size
    else (run.styles.head?.map fun s => s.font.size).getD 10
  let height := flow.leading.getD (size * lineHeightFactor)
  return ⟨b.lines ++ [⟨places, width, height, size, false⟩], [], 0⟩

def markLast (b : PlaceBreaking α) : PlaceBreaking α :=
  match b.lines.getLast? with
  | some line => { b with lines := b.lines.dropLast ++ [{ line with last := true }] }
  | none => b

/-- The token `t` at the place `i` joins the open line. -/
def push (b : PlaceBreaking α) (t : Token α) (i : Nat) : PlaceBreaking α :=
  { b with current := i :: b.current, width := b.width + t.width }

def indent (flow : TextFlow α) (b : PlaceBreaking α) : α :=
  if b.lines.isEmpty then flow.firstLineIndent else 0

/-- The token of a run at the place `i`, which is `t`. -/
def step? (run : InlineRun α) (limit : α) (flow : TextFlow α) (b : PlaceBreaking α) :
    Token α × Nat → Option (PlaceBreaking α)
  | (t, i) =>
    match t.kind with
    | .lineEnd => do return (← b.close? run flow).markLast
    | .space => return if b.current.isEmpty then b else b.push t i
    | .mark => return { b with current := i :: b.current }
    | .word => do
      let line ← b.current.mapM fun j => run.tokens[j]?
      if line.any (·.kind == .word) && decide (limit - b.indent flow < b.width + t.width) then
        return (← b.close? run flow).push t i
      else return b.push t i

end PlaceBreaking

/-- The lines of a run by the places of their tokens. -/
def breakPlaces? (run : InlineRun α) (width : α) (flow : TextFlow α) :
    Option (List (PlaceLine α)) := do
  let b ← run.tokens.zipIdx.foldlM (PlaceBreaking.step? run width flow) .start
  let b ← if b.current.isEmpty then some b else b.close? run flow
  return b.markLast.lines

/-! ## Drawing -/

/-- Draws a run of text in the style at a place. -/
def drawStyled? (s : Layout α) (run : InlineRun α) (baseline : α) (p : Pending α) :
    Option (Layout α) := do
  let style ← run.styles[p.style]?
  return s.drawRun style p.text p.x baseline p.width

/-- Draws the text that has been held back, if there is any. -/
def drawPending? (s : Layout α) (run : InlineRun α) (baseline : α) :
    Option (Pending α) → Option (Layout α)
  | none => return s
  | some p => drawStyled? s run baseline p

/-- Draws the tokens at the places of a line from `x` on, the text of one style at a time. -/
def drawTokens? (run : InlineRun α) (stretch top baseline : α) (s : Layout α)
    (pending : Option (Pending α)) (x : α) : List Nat → Option (Layout α)
  | [] => drawPending? s run baseline pending
  | i :: rest => do
    let t ← run.tokens[i]?
    match t.kind with
    | .mark => drawTokens? run stretch top baseline (s.addDestination t.text x top) pending x rest
    | .lineEnd => drawTokens? run stretch top baseline s pending x rest
    | _ =>
      if t.kind == .space && decide ((0 : α) < stretch) then
        let s ← drawPending? s run baseline pending
        drawTokens? run stretch top baseline s none (x + (t.width + stretch)) rest
      else
        match pending with
        | some p =>
          if p.style = t.style then
            let joined := { p with text := p.text ++ t.text, width := p.width + t.width }
            drawTokens? run stretch top baseline s (some joined) (x + t.width) rest
          else
            let s ← drawStyled? s run baseline p
            drawTokens? run stretch top baseline s (some ⟨t.style, t.text, x, t.width⟩)
              (x + t.width) rest
        | none =>
          drawTokens? run stretch top baseline s (some ⟨t.style, t.text, x, t.width⟩) (x + t.width)
            rest

/-- Draws a line whose box starts at `top`. -/
def drawPlaces? (s : Layout α) (run : InlineRun α) (line : PlaceLine α) (x0 width top : α)
    (align : TextAlign) : Option (Layout α) := do
  let baseline := top - line.height + line.maxSize * Layout.descent
  let tokens ← line.places.mapM fun i => run.tokens[i]?
  let (x, stretch) :=
    lineStart ⟨tokens, line.width, line.height, line.maxSize, line.last⟩ x0 width align
  drawTokens? run stretch top baseline s none x line.places

/-! ## Tokens at their places -/

/-- These tokens stand at these places of the run. -/
def InlineRun.Holds (run : InlineRun α) : List Nat → List (Token α) → Prop :=
  List.Forall₂ fun i t => run.tokens[i]? = some t

theorem isEmpty_of_forall₂ {β γ : Type} {R : β → γ → Prop} {bs : List β} {cs : List γ}
    (h : List.Forall₂ R bs cs) : bs.isEmpty = cs.isEmpty := by
  cases h <;> rfl

section Lookups

variable {run : InlineRun α} {places : List Nat} {ts : List (Token α)}

omit [Scalar α] in
theorem InlineRun.Holds.tokens (h : run.Holds places ts) :
    (places.mapM fun i => run.tokens[i]?) = some ts := by
  induction h with
  | nil => rfl
  | cons hi _ ih => simp [hi, ih]

theorem InlineRun.getElem?_styles {index : Nat} (h : index < run.styles.length) :
    run.styles[index]? = some (run.styleAt index) := by
  unfold InlineRun.styleAt
  rw [List.getD_eq_getElem _ _ h]
  exact List.getElem?_eq_getElem h

theorem InlineRun.Holds.sizes (h : run.Holds places ts) (hrun : run.Indexed) :
    places.mapM run.sizeAt? = some (ts.map fun t => (run.styleAt t.style).font.size) := by
  induction h with
  | nil => rfl
  | cons hi _ ih =>
    have hstyle := InlineRun.getElem?_styles (hrun _ (List.mem_of_getElem? hi))
    simp [InlineRun.sizeAt?, hi, hstyle, ih]

theorem trim?_holds (h : run.Holds places ts) (width : α) : ∃ kept,
    trim? run width places =
        some (kept, (ts.takeWhile isSpaceToken).foldl (fun w t => w - t.width) width) ∧
      run.Holds kept (ts.dropWhile isSpaceToken) := by
  induction h generalizing width with
  | nil => exact ⟨[], rfl, .nil⟩
  | @cons i t places ts hi h ih =>
    by_cases hspace : isSpaceToken t = true
    · obtain ⟨kept, htrim, hkept⟩ := ih (width - t.width)
      exact ⟨kept, by simp [trim?, hi, hspace, htrim], by simpa [hspace] using hkept⟩
    · exact ⟨i :: places, by simp [trim?, hi, hspace], by simpa [hspace] using .cons hi h⟩

end Lookups

/-! ## Breaking side by side -/

/-- The line holds the tokens of the box by their places. -/
structure LineAt (run : InlineRun α) (line : PlaceLine α) (box : LineBox α) : Prop where
  tokens : run.Holds line.places box.tokens
  width : line.width = box.width
  height : line.height = box.height
  maxSize : line.maxSize = box.maxSize
  last : line.last = box.last

/-- Two breakings have come to the same, one of them by places. -/
structure Mirrors (run : InlineRun α) (b : PlaceBreaking α) (c : Breaking α) : Prop where
  lines : List.Forall₂ (LineAt run) b.lines c.lines
  current : run.Holds b.current c.current
  width : b.width = c.width

namespace Mirrors

variable {run : InlineRun α} {b : PlaceBreaking α} {c : Breaking α}

theorem start : Mirrors run .start .start := ⟨.nil, .nil, rfl⟩

theorem push (h : Mirrors run b c) {t : Token α} {i : Nat} (hi : run.tokens[i]? = some t) :
    Mirrors run (b.push t i) (c.push t) :=
  ⟨h.lines, .cons hi h.current, congrArg (· + t.width) h.width⟩

theorem close (h : Mirrors run b c) (hrun : run.Indexed) (flow : TextFlow α) :
    ∃ d, b.close? run flow = some d ∧ Mirrors run d (c.close run flow) := by
  obtain ⟨kept, htrim, hkept⟩ := trim?_holds h.current c.width
  have hplaces : run.Holds kept.reverse (c.current.dropWhile isSpaceToken).reverse :=
    List.rel_reverse hkept
  unfold PlaceBreaking.close? Breaking.close
  simp only [htrim, hplaces.sizes hrun, h.width, Option.bind_eq_bind, Option.bind_some]
  exact ⟨_, rfl, List.rel_append h.lines (.cons ⟨hplaces, rfl, rfl, rfl, rfl⟩ .nil), .nil, rfl⟩

omit [Scalar α] in
theorem markLast (h : Mirrors run b c) : Mirrors run b.markLast c.markLast := by
  unfold PlaceBreaking.markLast Breaking.markLast
  rcases List.eq_nil_or_concat' c.lines with hnil | ⟨front, box, hboxes⟩
  · have hlines := h.lines
    rw [hnil, List.forall₂_nil_right_iff] at hlines
    simpa [hnil, hlines] using h
  · -- the places are split where the boxes are, so that both last lines are at hand
    have hlines := h.lines.flip
    rw [hboxes] at hlines
    obtain ⟨front', back', hplaces, hfront, hback⟩ := exists_of_forall₂_append hlines
    obtain ⟨line, hline, rfl⟩ : ∃ line, LineAt run line box ∧ back' = [line] := by
      cases hback with
      | cons hline hrest =>
        cases hrest
        exact ⟨_, hline, rfl⟩
    simp only [hboxes, hplaces, List.getLast?_concat, List.dropLast_concat]
    have hmarked : LineAt run { line with last := true } { box with last := true } :=
      ⟨hline.tokens, hline.width, hline.height, hline.maxSize, rfl⟩
    exact ⟨List.rel_append hfront.flip (.cons hmarked .nil), h.current, h.width⟩

/-- One token more: it is broken at the same place, and every lookup finds something. -/
theorem step (h : Mirrors run b c) (hrun : run.Indexed) (limit : α) (flow : TextFlow α)
    {t : Token α} {i : Nat} (hi : run.tokens[i]? = some t) :
    ∃ d, b.step? run limit flow (t, i) = some d ∧ Mirrors run d (c.step run limit flow t) := by
  have hindent : b.indent flow = c.indent flow := by
    unfold PlaceBreaking.indent Breaking.indent
    rw [isEmpty_of_forall₂ h.lines]
  cases hkind : t.kind with
  | lineEnd =>
    obtain ⟨d, hclose, hd⟩ := h.close hrun flow
    simp only [PlaceBreaking.step?, Breaking.step, hkind, hclose]
    exact ⟨d.markLast, rfl, hd.markLast⟩
  | space =>
    simp only [PlaceBreaking.step?, Breaking.step, hkind, isEmpty_of_forall₂ h.current]
    split
    · exact ⟨b, rfl, h⟩
    · exact ⟨b.push t i, rfl, h.push hi⟩
  | mark =>
    simp only [PlaceBreaking.step?, Breaking.step, hkind]
    exact ⟨_, rfl, h.lines, .cons hi h.current, h.width⟩
  | word =>
    simp only [PlaceBreaking.step?, Breaking.step, hkind, h.current.tokens, hindent, h.width,
      Option.bind_eq_bind, Option.bind_some]
    split
    · obtain ⟨d, hclose, hd⟩ := h.close hrun flow
      rw [hclose]
      exact ⟨d.push t i, rfl, hd.push hi⟩
    · exact ⟨b.push t i, rfl, h.push hi⟩

/-- All tokens behind `front`, with the places that they have in the run. -/
theorem foldlM (h : Mirrors run b c) (hrun : run.Indexed) (limit : α) (flow : TextFlow α)
    (front ts : List (Token α)) (htokens : run.tokens = front ++ ts) : ∃ d,
      (ts.zipIdx front.length).foldlM (PlaceBreaking.step? run limit flow) b = some d ∧
        Mirrors run d (ts.foldl (Breaking.step run limit flow) c) := by
  induction ts generalizing front b c with
  | nil => exact ⟨b, rfl, h⟩
  | cons t ts ih =>
    have hi : run.tokens[front.length]? = some t := by simp [htokens]
    obtain ⟨d, hstep, hd⟩ := h.step hrun limit flow hi
    obtain ⟨e, hrest, he⟩ := ih hd (front ++ [t]) (by simp [htokens])
    rw [List.length_append] at hrest
    exact ⟨e, by simpa [List.zipIdx_cons, hstep] using hrest, he⟩

end Mirrors

/-- Breaking by places finds every token and every style, and comes to the same lines. -/
theorem breakPlaces?_lines {run : InlineRun α} (hrun : run.Indexed) (width : α)
    (flow : TextFlow α) : ∃ lines, breakPlaces? run width flow = some lines ∧
      List.Forall₂ (LineAt run) lines (breakLines run width flow) := by
  obtain ⟨b, hfold, hb⟩ := Mirrors.start.foldlM hrun width flow [] run.tokens rfl
  rw [List.length_nil] at hfold
  unfold breakPlaces? breakLines
  simp only [hfold, isEmpty_of_forall₂ hb.current, Option.bind_eq_bind, Option.bind_some]
  split
  · exact ⟨b.markLast.lines, rfl, hb.markLast.lines⟩
  · obtain ⟨d, hclose, hd⟩ := hb.close hrun flow
    rw [hclose]
    exact ⟨d.markLast.lines, rfl, hd.markLast.lines⟩

/-! ## Drawing side by side -/

section Drawing

variable {run : InlineRun α}

/-- What is held back has its style in the run. -/
def Pending.Indexed (run : InlineRun α) (p : Pending α) : Prop := p.style < run.styles.length

theorem drawStyled?_eq (s : Layout α) {p : Pending α} (h : p.Indexed run) (top baseline : α) :
    drawStyled? s run baseline p = some (s.drawPiece run top baseline p.piece) := by
  simp [drawStyled?, InlineRun.getElem?_styles h, Layout.drawPiece, Pending.piece]

theorem drawPending?_eq (s : Layout α) {pending : Option (Pending α)}
    (h : ∀ p ∈ pending, p.Indexed run) (top baseline : α) :
    drawPending? s run baseline pending =
      some ((flush pending).foldl (fun s p => s.drawPiece run top baseline p) s) := by
  cases pending with
  | none => rfl
  | some p => exact drawStyled?_eq s (h p rfl) top baseline

/-- The tokens of a line are drawn from their places as its pieces are. -/
theorem drawTokens?_eq (hrun : run.Indexed) (stretch top baseline : α) {places : List Nat}
    {ts : List (Token α)} (hplaces : run.Holds places ts) (s : Layout α)
    {pending : Option (Pending α)} (x : α) (h : ∀ p ∈ pending, p.Indexed run) :
    drawTokens? run stretch top baseline s pending x places =
      some ((placeTokens stretch pending x ts).foldl
        (fun s p => s.drawPiece run top baseline p) s) := by
  induction hplaces generalizing s pending x with
  | nil => exact drawPending?_eq s h top baseline
  | @cons i t places ts hi hplaces ih =>
    -- what is held back next is the token, whose style is in the run, or more of the same style
    have hfresh : ∀ p ∈ some (⟨t.style, t.text, x, t.width⟩ : Pending α), p.Indexed run := by
      rintro p ⟨⟩
      exact hrun t (List.mem_of_getElem? hi)
    cases hkind : t.kind with
    | mark =>
      simp only [drawTokens?, placeTokens, hi, hkind, Option.bind_eq_bind, Option.bind_some]
      exact ih (s.addDestination t.text x top) x h
    | lineEnd =>
      simp only [drawTokens?, placeTokens, hi, hkind, Option.bind_eq_bind, Option.bind_some]
      exact ih s x h
    | word | space =>
      simp only [drawTokens?, placeTokens, hi, hkind, Option.bind_eq_bind, Option.bind_some]
      split
      · rw [drawPending?_eq s h top baseline, Option.bind_some, List.foldl_append]
        exact ih _ _ (by simp)
      · cases pending with
        | none => exact ih s _ hfresh
        | some p =>
          simp only
          split
          · refine ih s _ ?_
            rintro q ⟨⟩
            exact h p rfl
          · rw [drawStyled?_eq s (h p rfl) top baseline, Option.bind_some]
            exact ih _ _ hfresh

/-- A line is drawn from the places of its tokens as its box is. -/
theorem LineAt.draws {line : PlaceLine α} {box : LineBox α} (h : LineAt run line box)
    (hrun : run.Indexed) (s : Layout α) (x0 width top : α) (align : TextAlign) :
    drawPlaces? s run line x0 width top align = some (s.drawLine run box x0 width top align) := by
  unfold drawPlaces?
  simp only [h.tokens.tokens, h.width, h.height, h.maxSize, h.last, Option.bind_eq_bind,
    Option.bind_some]
  exact drawTokens?_eq hrun _ _ _ h.tokens s _ (by simp)

end Drawing

/-! ## Every place of a run -/

/-- Breaking and drawing by places find every token and every style that they look up, for every
column and every place on a page, and come to the lines and the pages that they come to without. -/
def InBounds (run : InlineRun α) : Prop :=
  ∀ (width : α) (flow : TextFlow α), ∃ lines, breakPlaces? run width flow = some lines ∧
    List.Forall₂ (fun line box => ∀ (s : Layout α) (x0 width top : α) (align : TextAlign),
        drawPlaces? s run line x0 width top align = some (s.drawLine run box x0 width top align))
      lines (breakLines run width flow)

theorem InlineRun.Indexed.inBounds {run : InlineRun α} (h : run.Indexed) : InBounds run := by
  intro width flow
  obtain ⟨lines, hbreak, hlines⟩ := breakPlaces?_lines h width flow
  exact ⟨lines, hbreak, hlines.imp fun _ _ hline => hline.draws h⟩

/-- Collecting a node leaves the run alone if the node is refused; else the tokens and styles of the
run stay where they are, and every new token has its style in the run. So every run that nodes are
collected into, one behind the other, is broken and drawn with no lookup outside of it. -/
theorem collectInto_inBounds :
    (∀ (link : Option String) (n : Node α) (run : InlineRun α), run.Indexed →
      ∃ taken left, collectInto link run n = (taken, left) ∧
        collectInline link run n = (if taken then some left else none) ∧
        (taken = false → left = run) ∧ Appended run left ∧ left.Indexed ∧ InBounds left) ∧
    ∀ run : InlineRun α, run.Collects → InBounds run := by
  refine ⟨fun link n run hrun => ?_, fun run hrun => hrun.indexed.inBounds⟩
  have hinto := collectInto_eq n link run
  have happended := collectInto_appended n link run
  have hleft := happended.indexed hrun
  refine ⟨_, _, rfl, ?_, ?_, happended, hleft, hleft.inBounds⟩
  · rw [hinto]
    cases collectInline link run n <;> rfl
  · rw [hinto]
    cases collectInline link run n with
    | none => exact fun _ => rfl
    | some grown => exact nofun

/-- A text, a reference to a block and an anchor with a name and a target. -/
def mixedPhrase : Node ℚ :=
  .phrase ⟨.standard, none⟩ [.text ⟨"Hi", .standard, none⟩, .reference "r" (.note "" "block"),
    .anchor ⟨some "here", some "#there"⟩ .plain (.text ⟨"go", .standard, none⟩)]

/-- The block is refused behind its reference, and its text stands in the phrase once. -/
theorem collectInto_inBounds_phrase :
    (.empty : InlineRun ℚ).Indexed ∧
      collectInto none (.empty : InlineRun ℚ) (.reference "r" (.note "" "block")) =
        (false, .empty) ∧
      ∃ left, collectInto none .empty mixedPhrase = (true, left) ∧
        left.tokens.map (fun t => (t.text, t.style)) =
          [("Hi", 0), ("block", 0), ("here", 0), ("go", 1)] ∧
        left.styles.length = 2 ∧ left.Indexed ∧ InBounds left := by
  have hempty : (.empty : InlineRun ℚ).Indexed := List.forall_mem_nil _
  obtain ⟨hcollect, -⟩ := collectInto_inBounds (α := ℚ)
  obtain ⟨taken, left, hinto, -, -, -, hindexed, hbounds⟩ := hcollect none mixedPhrase .empty hempty
  have htokens : (collectInto none .empty mixedPhrase).2.tokens.map (fun t => (t.text, t.style)) =
      [("Hi", 0), ("block", 0), ("here", 0), ("go", 1)] := by decide +kernel
  have hstyles : (collectInto none .empty mixedPhrase).2.styles.length = 2 := by decide +kernel
  have htaken : (collectInto none .empty mixedPhrase).1 = true := rfl
  rw [hinto] at htokens hstyles htaken
  exact ⟨hempty, rfl, left, hinto.trans (congrArg (·, left) htaken), htokens, hstyles, hindexed,
    hbounds⟩

end Folio.Flow
