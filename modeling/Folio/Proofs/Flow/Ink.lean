import Folio.Flow.Line
import Folio.Text.Latin1

/-!
# The ink of a text

What a text leaves on a page, blanks aside: one byte for every character that is not blank. Cutting
a text into tokens, gathering the tokens of inline content, breaking them into lines and placing the
lines all keep the ink and its order. Breaking and placing may drop a space, so each of them needs
to know that spaces leave no ink.
-/
namespace Folio.Flow

open Style Text

/-- The bytes of a text without its blanks. -/
def ink (s : String) : List UInt8 := (withoutBlanks s).map latin1Byte

/-- What is left of bytes without the blank. -/
def dark (bytes : List UInt8) : List UInt8 := bytes.filter (· ≠ 32)

@[simp] theorem ink_empty : ink "" = [] := rfl

theorem ink_append (s t : String) : ink (s ++ t) = ink s ++ ink t := by
  simp [ink, withoutBlanks]

@[simp] theorem dark_nil : dark [] = [] := rfl

theorem dark_append (a b : List UInt8) : dark (a ++ b) = dark a ++ dark b := by
  simp [dark]

/-- A character that is not blank is not written as the blank byte. -/
theorem latin1Byte_ne_blank {c : Char} (h : isBlank c = false) : latin1Byte c ≠ 32 := by
  intro he
  unfold latin1Byte at he
  by_cases hc : c.toNat < 256
  · rw [if_pos hc] at he
    have hn : c.toNat = 32 := by
      have hmod := congrArg UInt8.toNat he
      simp only [UInt8.toNat_ofNat', Nat.toUInt8_eq] at hmod
      simp at hmod
      omega
    simp [isBlank, hn] at h
  · rw [if_neg hc] at he
    exact absurd he (by decide)

theorem dark_map_latin1Byte {cs : List Char} (h : ∀ c ∈ cs, isBlank c = false) :
    dark (cs.map latin1Byte) = cs.map latin1Byte := by
  refine List.filter_eq_self.mpr fun b hb => ?_
  obtain ⟨c, hc, rfl⟩ := List.mem_map.mp hb
  simpa using latin1Byte_ne_blank (h c hc)

/-! ## Tokens -/

variable {α : Type}

namespace Token

/-- What a token leaves on the page; a mark and the end of a line leave nothing. -/
def ink (t : Token α) : List UInt8 :=
  match t.kind with
  | .word | .space => dark (encodeLatin1 t.text)
  | .lineEnd | .mark => []

/-- A space leaves no ink. -/
def Clean (t : Token α) : Prop := t.kind = .space → t.ink = []

end Token

@[simp] theorem Token.ink_space (style : Nat) (width : α) :
    (⟨" ", style, width, .space⟩ : Token α).ink = [] := by
  change dark (encodeLatin1 " ") = []
  decide

def inkOf (tokens : List (Token α)) : List UInt8 := tokens.flatMap Token.ink

@[simp] theorem inkOf_nil : inkOf ([] : List (Token α)) = [] := rfl

@[simp] theorem inkOf_cons (t : Token α) (ts : List (Token α)) :
    inkOf (t :: ts) = t.ink ++ inkOf ts := by
  simp [inkOf]

@[simp] theorem inkOf_append (ts us : List (Token α)) :
    inkOf (ts ++ us) = inkOf ts ++ inkOf us := by
  simp [inkOf]

variable [Scalar α]

theorem inkOf_wordToken (style : Nat) (font : Font α) {word : List Char}
    (h : ∀ c ∈ word, isBlank c = false) :
    inkOf (wordToken style font word) = word.reverse.map latin1Byte := by
  unfold wordToken
  cases word with
  | nil => rfl
  | cons c cs =>
    have hplain : ∀ d ∈ (c :: cs).reverse, isBlank d = false := by
      intro d hd
      exact h d (List.mem_reverse.mp hd)
    have hdark := dark_map_latin1Byte hplain
    simpa [inkOf, Token.ink, encodeLatin1] using hdark

theorem wordToken_clean {style : Nat} {font : Font α} {word : List Char} {t : Token α}
    (h : t ∈ wordToken style font word) : t.Clean := by
  unfold wordToken at h
  split at h
  · cases h
  · rw [List.mem_singleton.mp h]
    exact nofun

/-- `word` is what has been read of a word, so it holds no blank. -/
theorem inkOf_tokenize (style : Nat) (font : Font α) (cs : List Char) :
    ∀ {word : List Char}, (∀ c ∈ word, isBlank c = false) →
      inkOf (tokenize style font word cs) =
        (word.reverse ++ cs.filter (!isBlank ·)).map latin1Byte := by
  induction cs with
  | nil =>
    intro word h
    simpa [tokenize] using inkOf_wordToken style font h
  | cons c cs ih =>
    intro word h
    have hword := inkOf_wordToken style font h
    have hrest := @ih [] nofun
    by_cases hline : c = '\n'
    · subst hline
      have hblank : isBlank '\n' = true := by decide
      simp [tokenize, hword, hrest, Token.ink, hblank]
    · by_cases hblank : isBlank c = true
      · simp [tokenize, hline, hblank, hword, hrest]
      · have hplain : isBlank c = false := by simpa using hblank
        have hgrown : ∀ d ∈ c :: word, isBlank d = false := by
          intro d hd
          rcases List.mem_cons.mp hd with rfl | hd
          · exact hplain
          · exact h d hd
        have hnext := ih hgrown
        simp [tokenize, hline, hplain, hnext]

theorem tokenize_clean (style : Nat) (font : Font α) (cs : List Char) :
    ∀ (word : List Char), ∀ t ∈ tokenize style font word cs, t.Clean := by
  induction cs with
  | nil => exact fun word t ht => wordToken_clean ht
  | cons c cs ih =>
    intro word t ht
    simp only [tokenize] at ht
    split at ht
    · rcases List.mem_append.mp ht with ht | ht
      · exact wordToken_clean ht
      · rcases List.mem_cons.mp ht with rfl | ht
        · exact nofun
        · exact ih [] t ht
    · split at ht
      · rcases List.mem_append.mp ht with ht | ht
        · exact wordToken_clean ht
        · rcases List.mem_cons.mp ht with rfl | ht
          · exact fun _ => Token.ink_space ..
          · exact ih [] t ht
      · exact ih (c :: word) t ht

/-! ## Inline content -/

/-- A run that has gained a text behind its own. -/
structure Gains (run grown : InlineRun α) (text : String) : Prop where
  ink : inkOf grown.tokens = inkOf run.tokens ++ ink text
  clean : (∀ t ∈ run.tokens, t.Clean) → ∀ t ∈ grown.tokens, t.Clean

omit [Scalar α] in
theorem Gains.refl (run : InlineRun α) : Gains run run "" := ⟨by simp, id⟩

omit [Scalar α] in
theorem Gains.trans {run grown more : InlineRun α} {a b : String} (h : Gains run grown a)
    (k : Gains grown more b) : Gains run more (a ++ b) := by
  refine ⟨?_, fun hc => k.clean (h.clean hc)⟩
  rw [k.ink, h.ink, ink_append, List.append_assoc]

theorem tokens_styleIndex (run : InlineRun α) (style : RunStyle α) :
    (run.styleIndex style).2.tokens = run.tokens := by
  unfold InlineRun.styleIndex
  split <;> rfl

theorem pushText_gains (run : InlineRun α) (text : String) (style : RunStyle α) :
    Gains run (run.pushText text style) text := by
  have htokens : (run.pushText text style).tokens =
      run.tokens ++ tokenize (run.styleIndex style).1 style.font [] text.toList := by
    simp [InlineRun.pushText, tokens_styleIndex]
  refine ⟨?_, fun h t ht => ?_⟩
  · rw [htokens, inkOf_append, inkOf_tokenize _ _ _ (by simp)]
    rfl
  · rw [htokens] at ht
    rcases List.mem_append.mp ht with ht | ht
    · exact h t ht
    · exact tokenize_clean _ _ _ _ t ht

theorem pushMark_gains (run : InlineRun α) (name : String) (style : RunStyle α) :
    Gains run (run.pushMark name style) "" := by
  have htokens : (run.pushMark name style).tokens =
      run.tokens ++ [⟨name, (run.styleIndex style).1, 0, .mark⟩] := by
    simp [InlineRun.pushMark, tokens_styleIndex]
  refine ⟨?_, fun h t ht => ?_⟩
  · rw [htokens, inkOf_append]
    rfl
  · rw [htokens] at ht
    rcases List.mem_append.mp ht with ht | ht
    · exact h t ht
    · rw [List.mem_singleton.mp ht]
      exact nofun

mutual

theorem collectInline_gains : (n : Node α) → ∀ {link : Option String} {run grown : InlineRun α},
    collectInline link run n = some grown → Gains run grown n.textContent
  | .text t, link, run, grown, h | .subscript t, link, run, grown, h
  | .superscript t, link, run, grown, h => by
    simp only [collectInline, Option.some.injEq] at h
    rw [← h]
    simpa only [Node.textContent] using pushText_gains ..
  | .phrase style children, link, run, grown, h => by
    simp only [collectInline, Option.some.injEq] at h
    rw [← h]
    simpa only [Node.textContent] using collectChildren_gains children ..
  | .anchor ends shape content, link, run, grown, h => by
    have hmarked : Gains run (match ends.id with
        | some id => run.pushMark id (.plain .standard link)
        | none => run) "" := by
      split
      · exact pushMark_gains ..
      · exact .refl run
    simp only [collectInline] at h
    simp only [Node.textContent]
    split at h
    · next collected hc =>
      rw [← Option.some.inj h]
      simpa using hmarked.trans (collectInline_gains content hc)
    · have htext := hmarked.trans (pushText_gains _ content.textContent (.plain .standard link))
      rw [← Option.some.inj h]
      rw [String.empty_append] at htext
      exact htext
  | .reference id target, link, run, grown, h => by
    simp only [collectInline] at h
    simpa only [Node.textContent] using collectInline_gains target h
  | .paragraph .., _, _, _, h | .list .., _, _, _, h | .table .., _, _, _, h
  | .gridTable .., _, _, _, h | .cell _, _, _, _, h | .gridCell _, _, _, _, h
  | .image _, _, _, _, h | .chart _, _, _, _, h | .vectorGraphic _, _, _, _, h
  | .note .., _, _, _, h | .chapter .., _, _, _, h | .subsection .., _, _, _, h
  | .rule _, _, _, _, h | .spacer .., _, _, _, h | .rectangle _, _, _, _, h => by
    simp [collectInline] at h

theorem collectChildren_gains : (ns : List (Node α)) → ∀ (font : Font α) (link : Option String)
    (run : InlineRun α), Gains run (collectChildren font link run ns) (Node.textOfNodes ns)
  | [], font, link, run => by
    simpa [collectChildren] using Gains.refl run
  | n :: ns, font, link, run => by
    rw [Node.textOfNodes_cons]
    unfold collectChildren
    split
    · next collected hc =>
      exact (collectInline_gains n hc).trans (collectChildren_gains ns font link collected)
    · exact (pushText_gains ..).trans (collectChildren_gains ns font link _)

end

/-! ## Lines -/

omit [Scalar α] in
theorem inkOf_eq_nil {ts : List (Token α)} (h : ∀ t ∈ ts, t.ink = []) : inkOf ts = [] :=
  List.flatMap_eq_nil_iff.mpr h

omit [Scalar α] in
/-- A line may be ended in front of its last spaces; its last token comes first here. -/
theorem inkOf_reverse_dropWhile {ts : List (Token α)} (h : ∀ t ∈ ts, t.Clean) :
    inkOf (ts.dropWhile isSpaceToken).reverse = inkOf ts.reverse := by
  have hdropped : inkOf (ts.takeWhile isSpaceToken).reverse = [] := by
    refine inkOf_eq_nil fun t ht => ?_
    rw [List.mem_reverse] at ht
    have hspace : isSpaceToken t = true := List.all_eq_true.mp List.all_takeWhile t ht
    refine h t ((List.takeWhile_prefix _).mem ht) ?_
    simpa [isSpaceToken] using hspace
  have hsplit : ts.reverse =
      (ts.dropWhile isSpaceToken).reverse ++ (ts.takeWhile isSpaceToken).reverse := by
    rw [← List.reverse_append, List.takeWhile_append_dropWhile]
  rw [hsplit, inkOf_append, hdropped, List.append_nil]

def Breaking.tokens (b : Breaking α) : List (Token α) :=
  b.lines.flatMap LineBox.tokens ++ b.current.reverse

/-- Breaking that holds the ink of the tokens it has read. -/
structure Kept (read : List (Token α)) (b : Breaking α) : Prop where
  ink : inkOf b.tokens = inkOf read
  clean : ∀ t ∈ b.tokens, t.Clean

namespace Breaking

omit [Scalar α] in
theorem tokens_markLast (b : Breaking α) : b.markLast.tokens = b.tokens := by
  unfold markLast
  split
  · next line h =>
    obtain ⟨lines, hlines⟩ := List.getLast?_eq_some_iff.mp h
    simp [tokens, hlines]
  · rfl

theorem close_kept (run : InlineRun α) (flow : TextFlow α) {read : List (Token α)} {b : Breaking α}
    (h : Kept read b) : Kept read (b.close run flow) := by
  have hcurrent : ∀ t ∈ b.current, t.Clean := by
    intro t ht
    exact h.clean t (List.mem_append_right _ (List.mem_reverse.mpr ht))
  have htokens : (b.close run flow).tokens =
      b.lines.flatMap LineBox.tokens ++ (b.current.dropWhile isSpaceToken).reverse := by
    simp [tokens, close]
  refine ⟨?_, fun t ht => ?_⟩
  · rw [htokens, inkOf_append, inkOf_reverse_dropWhile hcurrent, ← inkOf_append]
    exact h.ink
  · rw [htokens] at ht
    rcases List.mem_append.mp ht with ht | ht
    · exact h.clean t (List.mem_append_left _ ht)
    · exact hcurrent t ((List.dropWhile_suffix _).mem (List.mem_reverse.mp ht))

omit [Scalar α] in
/-- A token joins the open line. -/
theorem kept_append {read : List (Token α)} {b c : Breaking α} {t : Token α} (h : Kept read b)
    (ht : t.Clean) (hc : c.tokens = b.tokens ++ [t]) : Kept (read ++ [t]) c := by
  refine ⟨?_, fun u hu => ?_⟩
  · rw [hc, inkOf_append, inkOf_append, h.ink]
  · rw [hc] at hu
    rcases List.mem_append.mp hu with hu | hu
    · exact h.clean u hu
    · rw [List.mem_singleton.mp hu]
      exact ht

omit [Scalar α] in
/-- A token without ink may be left out. -/
theorem kept_skip {read : List (Token α)} {b : Breaking α} {t : Token α} (h : Kept read b)
    (ht : t.ink = []) : Kept (read ++ [t]) b :=
  ⟨by simpa [ht] using h.ink, h.clean⟩

theorem tokens_push (b : Breaking α) (t : Token α) : (b.push t).tokens = b.tokens ++ [t] := by
  simp [tokens, push]

theorem step_kept (run : InlineRun α) (limit : α) (flow : TextFlow α) {read : List (Token α)}
    {b : Breaking α} (h : Kept read b) {t : Token α} (ht : t.Clean) :
    Kept (read ++ [t]) (b.step run limit flow t) := by
  unfold step
  cases hkind : t.kind with
  | lineEnd =>
    have hink : t.ink = [] := by simp [Token.ink, hkind]
    have hclosed := close_kept run flow h
    refine kept_skip ⟨?_, ?_⟩ hink
    · rw [tokens_markLast]
      exact hclosed.ink
    · rw [tokens_markLast]
      exact hclosed.clean
  | space =>
    simp only
    split
    · exact kept_skip h (ht hkind)
    · exact kept_append h ht (tokens_push b t)
  | mark => exact kept_append h ht (by simp [tokens])
  | word =>
    simp only
    split
    · exact kept_append (close_kept run flow h) ht (tokens_push _ t)
    · exact kept_append h ht (tokens_push b t)

theorem foldl_step_kept (run : InlineRun α) (limit : α) (flow : TextFlow α) (ts : List (Token α)) :
    ∀ {read : List (Token α)} {b : Breaking α}, Kept read b → (∀ t ∈ ts, t.Clean) →
      Kept (read ++ ts) (ts.foldl (step run limit flow) b) := by
  induction ts with
  | nil =>
    intro read b h hclean
    simpa using h
  | cons t ts ih =>
    intro read b h hclean
    have hstep := step_kept run limit flow h (hclean t List.mem_cons_self)
    have hrest := ih hstep fun u hu => hclean u (List.mem_cons_of_mem t hu)
    simpa using hrest

end Breaking

/-- The lines of a run hold its ink in order. -/
theorem breakLines_kept (run : InlineRun α) (width : α) (flow : TextFlow α)
    (h : ∀ t ∈ run.tokens, t.Clean) :
    inkOf ((breakLines run width flow).flatMap LineBox.tokens) = inkOf run.tokens ∧
      ∀ line ∈ breakLines run width flow, ∀ t ∈ line.tokens, t.Clean := by
  have hstart : Kept [] (Breaking.start : Breaking α) := ⟨rfl, nofun⟩
  have hread := Breaking.foldl_step_kept run width flow run.tokens hstart h
  rw [List.nil_append] at hread
  have hlast (b : Breaking α) (hb : Kept run.tokens b) (hempty : b.current = []) :
      inkOf (b.markLast.lines.flatMap LineBox.tokens) = inkOf run.tokens ∧
        ∀ line ∈ b.markLast.lines, ∀ t ∈ line.tokens, t.Clean := by
    have hcurrent : b.markLast.current = [] := by
      unfold Breaking.markLast
      split <;> exact hempty
    have htokens : b.markLast.lines.flatMap LineBox.tokens = b.tokens := by
      rw [← b.tokens_markLast]
      simp [Breaking.tokens, hcurrent]
    refine ⟨?_, fun line hline t ht => hb.clean t ?_⟩
    · rw [htokens, hb.ink]
    · rw [← htokens]
      exact List.mem_flatMap.mpr ⟨line, hline, ht⟩
  unfold breakLines
  simp only
  split
  · next hempty => exact hlast _ hread (by simpa using hempty)
  · exact hlast _ (Breaking.close_kept run flow hread) rfl

/-! ## Pieces -/

def Piece.ink : Piece α → List UInt8
  | .text _ words _ _ => dark (encodeLatin1 words)
  | .mark _ _ => []

def Pending.ink (p : Pending α) : List UInt8 := dark (encodeLatin1 p.text)

omit [Scalar α] in
theorem flatMap_flush (pending : Option (Pending α)) :
    (flush pending).flatMap Piece.ink = (pending.map Pending.ink).getD [] := by
  cases pending <;> simp [flush, Pending.piece, Piece.ink, Pending.ink]

/-- The pieces of a line hold what was pending and then the ink of its tokens. -/
theorem ink_placeTokens (stretch : α) (ts : List (Token α)) :
    ∀ (pending : Option (Pending α)) (x : α), (∀ t ∈ ts, t.Clean) →
      (placeTokens stretch pending x ts).flatMap Piece.ink =
        (pending.map Pending.ink).getD [] ++ inkOf ts := by
  induction ts with
  | nil =>
    intro pending x hclean
    simpa [placeTokens] using flatMap_flush pending
  | cons t ts ih =>
    intro pending x hclean
    have ht : t.Clean := hclean t List.mem_cons_self
    have hrest : ∀ u ∈ ts, u.Clean := fun u hu => hclean u (List.mem_cons_of_mem t hu)
    rw [inkOf_cons]
    unfold placeTokens
    split
    · next hkind => simp [ih _ _ hrest, Piece.ink, Token.ink, hkind]
    · next hkind => simp [ih _ _ hrest, Token.ink, hkind]
    · next hmark hline =>
      have hink : t.ink = dark (encodeLatin1 t.text) := by
        unfold Token.ink
        split
        · rfl
        · rfl
        · next hkind => exact absurd hkind hline
        · next hkind => exact absurd hkind hmark
      split
      · next hspace =>
        have hkind : t.kind = .space := by
          simp only [Bool.and_eq_true, beq_iff_eq] at hspace
          exact hspace.1
        simp [ih _ _ hrest, flatMap_flush, ht hkind]
      · split
        · next p =>
          split
          · simp [ih _ _ hrest, Pending.ink, encodeLatin1_append, dark_append, hink]
          · simp [ih _ _ hrest, Pending.piece, Piece.ink, Pending.ink, hink]
        · simp [ih _ _ hrest, Pending.ink, hink]

theorem ink_pieces (line : LineBox α) (x0 width : α) (align : TextAlign)
    (h : ∀ t ∈ line.tokens, t.Clean) :
    (line.pieces x0 width align).flatMap Piece.ink = inkOf line.tokens := by
  unfold LineBox.pieces
  simpa using ink_placeTokens _ line.tokens none _ h

end Folio.Flow
