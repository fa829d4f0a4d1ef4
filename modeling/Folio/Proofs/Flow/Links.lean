import Folio.Proofs.Exact
import Folio.Proofs.Flow.Breaks
import Folio.Proofs.Flow.Laid

/-!
# Where texts lead

A piece of text on a line is made of tokens of one style, and so of texts that lead to one target,
which is where the piece leads: the target of the innermost anchor around them that has one. The
pieces that lead somewhere, and they alone, leave hot spots as wide as they are, on the pages that
their lines are drawn on. A block that is all of an anchor's content is reduced to its text, which
leads where it would without that anchor.
-/
namespace Folio.Flow

open Style Pdf

variable {α : Type} [Scalar α]

/-! ## Pieces of text -/

def Piece.isText : Piece α → Bool
  | .text .. => true
  | .mark .. => false

/-- A piece of text is made of words and spaces of its style. -/
def MadeOf : Piece α → List (Token α) → Prop
  | .text style text _ _, ts => ts ≠ [] ∧ text = String.join (ts.map (·.text)) ∧
      ∀ t ∈ ts, t.style = style
  | .mark .., _ => False

/-- Is the token drawn on a line whose spaces are wider by `stretch`? -/
def isPrinted (stretch : α) (t : Token α) : Bool :=
  t.kind == .word || (t.kind == .space && !decide ((0 : α) < stretch))

/-- The tokens of a run of text that may still grow. -/
def PendingOf : Option (Pending α) → List (Token α) → Prop
  | none, ts => ts = []
  | some p, ts => MadeOf p.piece ts

omit [Scalar α] in
theorem PendingOf.flush {pending : Option (Pending α)} {held : List (Token α)}
    (h : PendingOf pending held) : ∃ groups, List.Forall₂ MadeOf (Flow.flush pending) groups ∧
      groups.flatten = held := by
  cases pending with
  | none => exact ⟨[], .nil, h.symm⟩
  | some p => exact ⟨[held], .cons h .nil, by simp⟩

omit [Scalar α] in
theorem pendingOf_single (t : Token α) (x : α) :
    PendingOf (some ⟨t.style, t.text, x, t.width⟩) [t] :=
  ⟨by simp, by simp [String.join], by simp⟩

omit [Scalar α] in
theorem PendingOf.join {p : Pending α} {held : List (Token α)} (h : PendingOf (some p) held)
    {t : Token α} (ht : p.style = t.style) (width : α) :
    PendingOf (some { p with text := p.text ++ t.text, width }) (held ++ [t]) := by
  obtain ⟨-, htext, hstyle⟩ := h
  refine ⟨by simp, ?_, fun u hu => ?_⟩
  · rw [htext]
    simp [String.join, List.foldl_append]
  · rcases List.mem_append.mp hu with hu | hu
    · exact hstyle u hu
    · rw [List.mem_singleton.mp hu]
      exact ht.symm

/-- The pieces of text on a line are made of the tokens that are drawn, in order. -/
theorem placeTokens_madeOf (stretch : α) (ts : List (Token α)) :
    ∀ {pending : Option (Pending α)} {held : List (Token α)} (x : α), PendingOf pending held →
      ∃ groups, List.Forall₂ MadeOf
          ((placeTokens stretch pending x ts).filter Piece.isText) groups ∧
        groups.flatten = held ++ ts.filter (isPrinted stretch) := by
  have hflush (pending : Option (Pending α)) :
      (Flow.flush pending).filter Piece.isText = Flow.flush pending := by
    cases pending <;> rfl
  induction ts with
  | nil =>
    intro pending held x h
    obtain ⟨groups, hgroups, hflat⟩ := h.flush
    exact ⟨groups, by rw [placeTokens, hflush]; exact hgroups, by simp [hflat]⟩
  | cons t ts ih =>
    intro pending held x h
    unfold placeTokens
    split
    · next hkind =>
      have hskip : isPrinted stretch t = false := by simp [isPrinted, hkind]
      simpa [Piece.isText, hskip] using ih x h
    · next hkind =>
      have hskip : isPrinted stretch t = false := by simp [isPrinted, hkind]
      simpa [hskip] using ih x h
    · next hmark hline =>
      split
      · next hspace =>
        obtain ⟨hkind, hstretch⟩ : t.kind = .space ∧ (0 : α) < stretch := by simpa using hspace
        have hskip : isPrinted stretch t = false := by simp [isPrinted, hkind, hstretch]
        obtain ⟨front, hfront, hheld⟩ := h.flush
        have hnone : PendingOf (none : Option (Pending α)) [] := rfl
        obtain ⟨groups, hgroups, hflat⟩ := ih (x + (t.width + stretch)) hnone
        refine ⟨front ++ groups, ?_, by simp [hheld, hflat, hskip]⟩
        rw [List.filter_append, hflush]
        exact List.rel_append hfront hgroups
      · next hspace =>
        have hprinted : isPrinted stretch t = true := by
          cases hkind : t.kind <;> simp_all [isPrinted]
        have hfilter : (t :: ts).filter (isPrinted stretch) =
            t :: ts.filter (isPrinted stretch) := by simp [hprinted]
        rw [hfilter]
        cases pending with
        | none =>
          obtain rfl : held = [] := h
          exact ih _ (pendingOf_single t x)
        | some p =>
          simp only
          split
          · next hstyle => simpa using ih _ (h.join hstyle _)
          · obtain ⟨groups, hgroups, hflat⟩ := ih (x + t.width) (pendingOf_single t x)
            exact ⟨held :: groups, .cons h hgroups, by simp [hflat]⟩

namespace PlacedLine

def baseline (l : PlacedLine α) : α := l.top - l.line.height + l.line.maxSize * Layout.descent

def pieces (l : PlacedLine α) : List (Piece α) := l.line.pieces l.x l.width l.align

/-- The pieces of text on a line. -/
def texts (l : PlacedLine α) : List (Piece α) := l.pieces.filter Piece.isText

/-- How much wider than its width each space of a line is. -/
def stretch (l : PlacedLine α) : α := (lineStart l.line l.x l.width l.align).2

theorem texts_madeOf (l : PlacedLine α) : ∃ groups, List.Forall₂ MadeOf l.texts groups ∧
    groups.flatten = l.line.tokens.filter (isPrinted l.stretch) := by
  have hnone : PendingOf (none : Option (Pending α)) [] := rfl
  exact placeTokens_madeOf l.stretch l.line.tokens (lineStart l.line l.x l.width l.align).1 hnone

end PlacedLine

/-! ## Hot spots -/

/-- The hot spot of a piece of text. -/
def pieceLink (run : InlineRun α) (baseline : α) : Piece α → Option (Link α)
  | .text style _ x width => runLink (run.styleAt style) x baseline width
  | .mark .. => none

/-- The hot spots of a line. -/
def PlacedLine.links (l : PlacedLine α) : List (Link α) :=
  l.texts.filterMap (pieceLink l.run l.baseline)

theorem links_on (p : Paint α) (c : Canvas α) : (p.on c).links = c.links := by
  cases p <;> rfl

theorem links_drawRun (c : Canvas α) (style : RunStyle α) (words : String) (x baseline width : α) :
    (c.drawRun style words x baseline width).links =
      c.links ++ (runLink style x baseline width).toList := by
  have hpaints (ps : List (Paint α)) : ∀ c : Canvas α,
      (ps.foldl (fun c p => p.on c) c).links = c.links := by
    induction ps with
    | nil => exact fun _ => rfl
    | cons p ps ih => exact fun c => (ih (p.on c)).trans (links_on p c)
  unfold Canvas.drawRun
  cases runLink style x baseline width with
  | none => simpa using hpaints _ c
  | some link => simp [Canvas.addLink, hpaints]

/-- Drawing a line adds the hot spots of its pieces to the open page. -/
theorem apply_line_links (l : PlacedLine α) (s : Layout α) :
    ((Act.line l).apply s).finished = s.finished ∧
      ((Act.line l).apply s).page.links = s.page.links ++ l.links := by
  have hpieces (ps : List (Piece α)) : ∀ s : Layout α,
      let t := ps.foldl (fun s p => s.drawPiece l.run l.top l.baseline p) s
      t.finished = s.finished ∧ t.page.links =
        s.page.links ++ (ps.filter Piece.isText).filterMap (pieceLink l.run l.baseline) := by
    induction ps with
    | nil => exact fun s => ⟨rfl, (List.append_nil _).symm⟩
    | cons p ps ih =>
      intro s
      obtain ⟨hfinished, hlinks⟩ := ih (s.drawPiece l.run l.top l.baseline p)
      cases p with
      | mark name x => exact ⟨hfinished, hlinks⟩
      | text style text x width =>
        rw [Layout.drawPiece, drawRun_eq_onPage] at hfinished hlinks
        rw [List.foldl_cons, Layout.drawPiece, drawRun_eq_onPage]
        refine ⟨hfinished, hlinks.trans ?_⟩
        have hpage : (s.onPage fun c => c.drawRun (l.run.styleAt style) text x l.baseline
            width).page.links = s.page.links ++
              (runLink (l.run.styleAt style) x l.baseline width).toList := links_drawRun ..
        rw [hpage]
        simp only [List.filter_cons, Piece.isText, if_true, List.filterMap_cons, pieceLink]
        cases runLink (l.run.styleAt style) x l.baseline width <;> simp
  exact hpieces l.pieces s

/-! ## Pages -/

/-- All pages, with the one that is open. -/
def Layout.pages (s : Layout α) : List (Canvas α) := s.finished ++ [s.page]

/-- The lines that are drawn on the page that is open before, and on each page that is begun. -/
def linesByPage : List (Act α) → List (PlacedLine α) × List (List (PlacedLine α))
  | [] => ([], [])
  | .line l :: acts => (l :: (linesByPage acts).1, (linesByPage acts).2)
  | .turn :: acts => ([], (linesByPage acts).1 :: (linesByPage acts).2)
  | .paint _ :: acts | .use :: acts | .toCursor _ :: acts | .toInset _ :: acts => linesByPage acts

omit [Scalar α] in
/-- The lines of all pages are all lines. -/
theorem flatten_linesByPage (acts : List (Act α)) :
    (linesByPage acts).1 ++ (linesByPage acts).2.flatten = linesIn acts := by
  induction acts with
  | nil => rfl
  | cons a acts ih =>
    cases a with
    | line l => exact congrArg (l :: ·) ih
    | turn => exact ih
    | paint p => exact ih
    | use => exact ih
    | toCursor cursor => exact ih
    | toInset inset => exact ih

/-- The hot spots of lines. -/
def linksOf (ls : List (PlacedLine α)) : List (Link α) := ls.flatMap PlacedLine.links

theorem links_breakPage (s : Layout α) :
    s.breakPage.finished.map (·.links) = s.finished.map (·.links) ++ [s.page.links] ∧
      s.breakPage.page.links = [] := by
  have hcover : (s.page.cover s.furniture).links = s.page.links :=
    Layout.apply_cover (f := Canvas.links) (fun _ _ => rfl) (fun _ _ => rfl) _ _
  refine ⟨by simp [Layout.breakPage, Layout.finishPage, hcover], ?_⟩
  unfold Layout.breakPage Layout.startPage
  simp only
  split <;> rfl

/-- Lines leave their hot spots on the pages that they are drawn on, and nothing else leaves any. -/
theorem links_perform (acts : List (Act α)) : ∀ s : Layout α,
    (perform acts s).pages.map (·.links) = s.finished.map (·.links) ++
      (s.page.links ++ linksOf (linesByPage acts).1) :: (linesByPage acts).2.map linksOf := by
  induction acts with
  | nil =>
    intro s
    simp [Layout.pages, linesByPage, linksOf]
  | cons a acts ih =>
    intro s
    rw [perform_cons, ih]
    cases a with
    | line l =>
      obtain ⟨hfinished, hlinks⟩ := apply_line_links l s
      rw [hfinished, hlinks]
      simp [linesByPage, linksOf]
    | turn =>
      obtain ⟨hfinished, hlinks⟩ := links_breakPage s
      change s.breakPage.finished.map (·.links) ++ (s.breakPage.page.links ++ _) :: _ = _
      rw [hfinished, hlinks]
      simp [linesByPage, linksOf]
    | paint p =>
      have hlinks : ((Act.paint p).apply s).page.links = s.page.links := links_on p s.page
      rw [hlinks]
      rfl
    | use => rfl
    | toCursor cursor => rfl
    | toInset inset => rfl

/-! ## Texts and their pieces -/

theorem style_wordToken {style : Nat} {font : Font α} {word : List Char} {t : Token α}
    (h : t ∈ wordToken style font word) : t.style = style := by
  unfold wordToken at h
  split at h
  · cases h
  · rw [List.mem_singleton.mp h]

theorem style_tokenize (style : Nat) (font : Font α) (cs : List Char) :
    ∀ word : List Char, ∀ t ∈ tokenize style font word cs, t.style = style := by
  induction cs with
  | nil => exact fun word t ht => style_wordToken ht
  | cons c cs ih =>
    intro word t ht
    unfold tokenize at ht
    split at ht
    · rcases List.mem_append.mp ht with ht | ht
      · exact style_wordToken ht
      · rcases List.mem_cons.mp ht with rfl | ht
        · rfl
        · exact ih [] t ht
    · split at ht
      · rcases List.mem_append.mp ht with ht | ht
        · exact style_wordToken ht
        · rcases List.mem_cons.mp ht with rfl | ht
          · rfl
          · exact ih [] t ht
      · exact ih (c :: word) t ht

/-- A token that comes from a text of the passage and leads where that text leads. -/
def Stands (p : Passage α) (t : Token α) : Prop :=
  ∃ words within reduced font, .text words within reduced ∈ p.origins ∧
    t ∈ tokenize t.style font [] words.toList ∧
      (p.run.styleAt t.style).link = linkOf within reduced

/-- Every token that is no mark comes from a text. -/
theorem Passage.stands (p : Passage α) {t : Token α} (ht : t ∈ p.run.tokens)
    (hmark : t.kind ≠ .mark) : Stands p t := by
  obtain ⟨parts, htokens, hyields⟩ := p.gathered
  rw [htokens] at ht
  obtain ⟨part, hpart, htp⟩ := List.mem_flatten.mp ht
  obtain ⟨o, ho, hyield⟩ := exists_left_of_forall₂ hyields hpart
  cases o with
  | name id content =>
    obtain ⟨index, rfl⟩ := hyield
    rw [List.mem_singleton.mp htp] at hmark
    exact absurd rfl hmark
  | text words within reduced =>
    obtain ⟨index, font, -, rfl, hlink⟩ := hyield
    have hstyle := style_tokenize index font words.toList [] t htp
    subst hstyle
    exact ⟨words, within, reduced, font, ho, htp, hlink⟩

/-- Every text has tokens of one style, which leads where the text leads. -/
theorem Passage.tokens_text (p : Passage α) {words : String} {within : List AnchorEnds}
    {reduced : Bool} (h : .text words within reduced ∈ p.origins) :
    ∃ index font, (p.run.styleAt index).link = linkOf within reduced ∧
      ∀ t ∈ tokenize index font [] words.toList, t ∈ p.run.tokens := by
  obtain ⟨parts, htokens, hyields⟩ := p.gathered
  obtain ⟨part, hpart, index, font, -, rfl, hlink⟩ := exists_right_of_forall₂ hyields h
  refine ⟨index, font, hlink, fun t ht => ?_⟩
  rw [htokens]
  exact List.mem_flatten_of_mem hpart ht

/-- A piece of text that is made of tokens of the passage, all of which lead where it leads. -/
def Leads (p : Passage α) (piece : Piece α) (ts : List (Token α)) : Prop :=
  MadeOf piece ts ∧ ∀ t ∈ ts, Stands p t

/-- A token is drawn on the line, in a piece of text with a hot spot as wide as the piece if there
is a target, and with none if there is not. -/
def DrawnTo (l : PlacedLine α) (target : Option String) (t : Token α) : Prop :=
  ∃ style text x width ts, .text style text x width ∈ l.texts ∧
    MadeOf (.text style text x width) ts ∧ t ∈ ts ∧ ∃ foot top,
      pieceLink l.run l.baseline (.text style text x width) =
        target.map fun target => ⟨x, foot, x + width, top, target⟩

/-- A word is drawn in a piece that leads where the style of the word leads. -/
theorem PlacedLine.drawnTo (l : PlacedLine α) {w : Token α} (hw : w ∈ l.line.tokens)
    (hword : w.kind = .word) : DrawnTo l (l.run.styleAt w.style).link w := by
  obtain ⟨groups, hgroups, hflat⟩ := l.texts_madeOf
  have hprinted : w ∈ groups.flatten := by
    rw [hflat]
    exact List.mem_filter.mpr ⟨hw, by simp [isPrinted, hword]⟩
  obtain ⟨ts, hts, hwts⟩ := List.mem_flatten.mp hprinted
  obtain ⟨piece, hpiece, hmade⟩ := exists_left_of_forall₂ hgroups hts
  cases piece with
  | mark name x => exact hmade.elim
  | text style text x width =>
    obtain rfl : w.style = style := hmade.2.2 w hwts
    exact ⟨w.style, text, x, width, ts, hpiece, hmade, hwts, _, _, rfl⟩

/-- Where the tokens of a line come from. -/
theorem PlacedLine.texts_lead {p : Passage α} {ls : List (PlacedLine α)} (h : p.LaidAs ls)
    {l : PlacedLine α} (hl : l ∈ ls) : ∃ groups, List.Forall₂ (Leads p) l.texts groups ∧
      groups.flatten = l.line.tokens.filter (isPrinted l.stretch) := by
  obtain ⟨groups, hgroups, hflat⟩ := l.texts_madeOf
  obtain ⟨-, width, flow, hlines⟩ := h
  refine ⟨groups, ?_, hflat⟩
  have hstands : ∀ ts ∈ groups, ∀ t ∈ ts, Stands p t := by
    intro ts hts t ht
    have hprinted : t ∈ l.line.tokens.filter (isPrinted l.stretch) :=
      hflat ▸ List.mem_flatten_of_mem hts ht
    obtain ⟨htl, hprint⟩ := List.mem_filter.mp hprinted
    refine p.stands ((breakLines_holds p.run width flow).1.subset ?_) ?_
    · rw [← hlines]
      exact List.mem_flatMap.mpr ⟨l.line, List.mem_map_of_mem hl, htl⟩
    · intro hmark
      simp [isPrinted, hmark] at hprint
  clear hflat
  generalize l.texts = texts at hgroups ⊢
  induction hgroups with
  | nil => exact .nil
  | cons hmade _ ih =>
    exact .cons ⟨hmade, hstands _ List.mem_cons_self⟩
      (ih fun ts hts => hstands ts (List.mem_cons_of_mem _ hts))

/-- Adding a node leaves exactly the hot spots of the lines that it draws, page by page. Every piece
of text on these lines leads where all texts lead that it is made of, and if the node is added with
success every word of every text is drawn in a piece that leads where the text leads. -/
theorem add_links {s : Layout α} (hopen : s.phase = .opened) (n : Node α) :
    let acts := scriptOf n s
    let t := ((add n).run s).2
    (t.pages.map (·.links) = s.finished.map (·.links) ++
      (s.page.links ++ linksOf (linesByPage acts).1) :: (linesByPage acts).2.map linksOf) ∧
    (∀ l ∈ linesIn acts, ∃ p ∈ passagesOf n, l.run = p.run ∧
      ∃ groups, List.Forall₂ (Leads p) l.texts groups ∧
        groups.flatten = l.line.tokens.filter (isPrinted l.stretch)) ∧
    (((add n).run s).1 = .ok () → ∀ p ∈ passagesOf n, ∀ words within reduced,
      .text words within reduced ∈ p.origins → ∃ index font,
        ∀ w ∈ tokenize index font [] words.toList, w.kind = .word →
          ∃ l ∈ linesIn acts, DrawnTo l (linkOf within reduced) w) := by
  obtain ⟨laid, hlaid, hall⟩ := scriptOf_laysOut n s
  rw [run_add hopen]
  refine ⟨?_, fun l hl => ?_, fun hok p hp words within reduced htext => ?_⟩
  · rw [← runs_scriptOf n s]
    exact links_perform _ s
  · rw [hlaid.lines] at hl
    obtain ⟨q, hq, hlq⟩ := List.mem_flatMap.mp hl
    obtain ⟨hp, hlaidAs⟩ := hlaid.placed q hq
    exact ⟨q.1, hp, hlaidAs.1 l hlq, PlacedLine.texts_lead hlaidAs hlq⟩
  · obtain ⟨q, hq, rfl⟩ := List.mem_map.mp (hall hok p hp)
    obtain ⟨-, hruns, width, flow, hlines⟩ := hlaid.placed q hq
    obtain ⟨index, font, hlink, htokens⟩ := q.1.tokens_text htext
    refine ⟨index, font, fun w hw hword => ?_⟩
    -- no word of the passage is left out when it is broken into lines
    have hsolid : w ∈ ((breakLines q.1.run width flow).flatMap LineBox.tokens).filter
        Token.solid := by
      rw [(breakLines_holds q.1.run width flow).2]
      exact List.mem_filter.mpr ⟨htokens w hw, by simp [Token.solid, hword]⟩
    obtain ⟨line, hline, hwl⟩ := List.mem_flatMap.mp (List.mem_filter.mp hsolid).1
    rw [← hlines] at hline
    obtain ⟨l, hl, rfl⟩ := List.mem_map.mp hline
    refine ⟨l, ?_, ?_⟩
    · rw [hlaid.lines]
      exact List.mem_flatMap.mpr ⟨q, hq, hl⟩
    · have hdrawn := l.drawnTo hwl hword
      rwa [hruns l hl, style_tokenize index font _ _ w hw, hlink] at hdrawn

/-- A phrase that leads somewhere, with a word in it that leads elsewhere. -/
def referral : Node ℚ :=
  .anchor ⟨none, some "https://example.com"⟩ .plain (.phrase ⟨.standard, none⟩
    [.text ⟨"See ", .standard, none⟩,
      .anchor ⟨none, some "#here"⟩ .plain (.text ⟨"this", .standard, none⟩)])

theorem add_links_referral : (opened : Layout ℚ).phase = .opened ∧
    ((add referral).run opened).1 = .ok () ∧
      ∀ p ∈ passagesOf referral, ∀ words within reduced,
        .text words within reduced ∈ p.origins → ∃ index font,
          ∀ w ∈ tokenize index font [] words.toList, w.kind = .word →
            ∃ l ∈ linesIn (scriptOf referral opened), DrawnTo l (linkOf within reduced) w :=
  ⟨rfl, rfl, (add_links rfl referral).2.2 rfl⟩

/-- A paragraph that is all of an anchor's content. -/
def reducedReferral : Node ℚ :=
  .anchor ⟨none, some "https://example.com"⟩ .plain
    (.paragraph ⟨.standard, .left, none, 0, 0, 0, 0, false⟩ [.text ⟨"Hello", .standard, none⟩])

/-- The text of the paragraph is drawn, and leads nowhere. -/
theorem add_links_reducedReferral :
    ((linesIn (scriptOf reducedReferral opened)).map fun l => l.line.tokens.map (·.text)) =
        [["Hello"]] ∧
      (((add reducedReferral).run opened).2.pages.map fun c => c.links.map (·.target)) = [[]] := by
  decide +kernel

end Folio.Flow
