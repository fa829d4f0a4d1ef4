import Folio.Proofs.Exact
import Folio.Proofs.Flow.Breaks
import Folio.Proofs.Flow.Laid

/-!
# Where names lead

A name is recorded when the line that holds its mark is drawn, with the page that is open then and
the top of that line. The mark travels on its own: it joins the line that is open when its anchor
begins, and the word behind it may be the first that no longer fits there. So a name leads to the
line of its first word exactly if that word goes on with the line of the mark; if not, it leads to
the line above, which may be the last one of the page before.
-/
namespace Folio.Flow

open Style Pdf Text

variable {α : Type}

/-! ## Marks -/

def Token.mark? (t : Token α) : Option String := if t.kind = .mark then some t.text else none

/-- The names that are marked among tokens. -/
def marksOf (ts : List (Token α)) : List String := ts.filterMap Token.mark?

@[simp] theorem marksOf_append (ts us : List (Token α)) :
    marksOf (ts ++ us) = marksOf ts ++ marksOf us := by
  simp [marksOf]

theorem marksOf_flatten (parts : List (List (Token α))) :
    marksOf parts.flatten = parts.flatMap marksOf := by
  rw [marksOf, List.filterMap_flatten, List.flatMap]
  rfl

/-- Marks are not left out. -/
theorem marksOf_filter_solid (ts : List (Token α)) :
    marksOf (ts.filter Token.solid) = marksOf ts := by
  induction ts with
  | nil => rfl
  | cons t ts ih =>
    unfold marksOf at ih ⊢
    cases hkind : t.kind <;> simp [Token.solid, Token.mark?, hkind, ih]

theorem mem_marksOf {t : Token α} {ts : List (Token α)} (h : t ∈ ts) (hkind : t.kind = .mark) :
    t.text ∈ marksOf ts :=
  List.mem_filterMap.mpr ⟨t, h, by simp [Token.mark?, hkind]⟩

variable [Scalar α]

theorem marksOf_wordToken (style : Nat) (font : Font α) (word : List Char) :
    marksOf (wordToken style font word) = [] := by
  unfold wordToken
  split <;> rfl

theorem marksOf_tokenize (style : Nat) (font : Font α) (cs : List Char) :
    ∀ word : List Char, marksOf (tokenize style font word cs) = [] := by
  induction cs with
  | nil => exact marksOf_wordToken style font
  | cons c cs ih =>
    intro word
    unfold tokenize
    split
    · rw [marksOf_append, marksOf_wordToken]
      exact ih []
    · split
      · rw [marksOf_append, marksOf_wordToken]
        exact ih []
      · exact ih (c :: word)

/-- The marks of a run are the names that it comes from. -/
theorem Gathered.marks {run : InlineRun α} {os : List Origin} (h : Gathered run os) :
    marksOf run.tokens = namesOf os := by
  obtain ⟨parts, htokens, hyields⟩ := h
  rw [htokens]
  clear htokens
  induction hyields with
  | nil => rfl
  | @cons o part os parts ho _ ih =>
    rw [List.flatten_cons, marksOf_append, ih]
    cases o with
    | text words within reduced =>
      obtain ⟨index, font, -, rfl, -⟩ := ho
      rw [marksOf_tokenize]
      rfl
    | name id content =>
      obtain ⟨index, rfl⟩ := ho
      rfl

/-- The lines of a passage hold each of its names once. -/
theorem Passage.LaidAs.marks {p : Passage α} {ls : List (PlacedLine α)} (h : p.LaidAs ls) :
    (ls.flatMap fun l => marksOf l.line.tokens) = p.names := by
  obtain ⟨-, width, flow, hlines⟩ := h
  have hsolid := (breakLines_holds p.run width flow).2
  calc (ls.flatMap fun l => marksOf l.line.tokens)
      = marksOf ((ls.map (·.line)).flatMap LineBox.tokens) := by
        rw [List.flatMap_map, List.flatMap, List.flatMap, marksOf_flatten, List.flatMap,
          List.map_map]
        rfl
    _ = marksOf p.run.tokens := by
        rw [hlines, ← marksOf_filter_solid, hsolid, marksOf_filter_solid]
    _ = p.names := p.gathered.marks

/-! ## The first word of an anchor -/

/-- A text that has begun a word yields that word first. -/
theorem tokenize_word (style : Nat) (font : Font α) (cs : List Char) :
    ∀ {word : List Char}, word ≠ [] → ∃ w rest, tokenize style font word cs = w :: rest ∧
      w.kind = .word ∧ w.text.toList <+: word.reverse ++ cs := by
  have hword {word : List Char} (h : word ≠ []) : wordToken style font word =
      [⟨String.ofList word.reverse, style, textWidth (String.ofList word.reverse) font,
        .word⟩] := by
    simp [wordToken, h]
  induction cs with
  | nil =>
    intro word h
    exact ⟨_, [], by rw [tokenize, hword h], rfl, by simp⟩
  | cons c cs ih =>
    intro word h
    unfold tokenize
    split
    · exact ⟨_, _, by rw [hword h]; rfl, rfl, by simp⟩
    · split
      · exact ⟨_, _, by rw [hword h]; rfl, rfl, by simp⟩
      · simpa using ih (List.cons_ne_nil c word)

/-- A text that begins with a word: its first character is no blank. -/
def BeginsWithWord (text : String) : Prop := ∃ c cs, text.toList = c :: cs ∧ isBlank c = false

theorem tokenize_begins (style : Nat) (font : Font α) {c : Char} (cs : List Char)
    (h : isBlank c = false) : ∃ w rest, tokenize style font [] (c :: cs) = w :: rest ∧
      w.kind = .word ∧ w.text.toList <+: c :: cs := by
  have hline : ¬ (c == '\n') = true := by
    intro hc
    rw [beq_iff_eq.mp hc] at h
    exact absurd h (by decide)
  unfold tokenize
  rw [if_neg hline, if_neg (by simp [h])]
  exact tokenize_word style font cs (List.cons_ne_nil c [])

/-- Origins whose letters begin with a word yield marks, and then that word. -/
theorem yields_begins {run : InlineRun α} {os : List Origin} {parts : List (List (Token α))}
    (h : List.Forall₂ (Yields run) os parts) {c : Char} {cs : List Char}
    (hletters : lettersOf os = c :: cs) (hc : isBlank c = false) :
    ∃ ms w rest, parts.flatten = ms ++ w :: rest ∧ (∀ m ∈ ms, m.kind = .mark) ∧
      w.kind = .word ∧ w.text.toList <+: c :: cs := by
  induction h with
  | nil => simp at hletters
  | @cons o part os parts ho _ ih =>
    cases o with
    | name id content =>
      obtain ⟨index, rfl⟩ := ho
      obtain ⟨ms, w, rest, hparts, hms, hw, htext⟩ := ih (by simpa [Origin.letters] using hletters)
      refine ⟨⟨id, index, 0, .mark⟩ :: ms, w, rest, by simp [hparts], ?_, hw, htext⟩
      intro m hm
      rcases List.mem_cons.mp hm with rfl | hm
      · rfl
      · exact hms m hm
    | text words within reduced =>
      obtain ⟨index, font, -, rfl, -⟩ := ho
      simp only [lettersOf_cons, Origin.letters] at hletters
      cases hwords : words.toList with
      | nil =>
        obtain ⟨ms, w, rest, hparts, hrest⟩ := ih (by simpa [hwords] using hletters)
        exact ⟨ms, w, rest, by simpa [tokenize, wordToken] using hparts, hrest⟩
      | cons d ds =>
        rw [hwords, List.cons_append, List.cons.injEq] at hletters
        obtain ⟨rfl, rfl⟩ := hletters
        obtain ⟨w, rest, hpart, hw, htext⟩ :=
          tokenize_begins index font ds hc
        refine ⟨[], w, rest ++ parts.flatten, by simp [hpart], List.forall_mem_nil _, hw,
          htext.trans ?_⟩
        exact (List.prefix_append _ _ : (d :: ds) <+: (d :: ds) ++ lettersOf os)

/-- The mark of an anchor and the first word of its content, with nothing but marks between. -/
structure FirstWord (id content : String) (m : Token α) (ms : List (Token α)) (w : Token α) :
    Prop where
  name : m.text = id
  marks : ∀ t ∈ m :: ms, t.kind = .mark
  word : w.kind = .word
  text : w.text.toList <+: content.toList

theorem Passage.firstWord (p : Passage α) {id content : String}
    (h : .name id content ∈ p.origins) (hword : BeginsWithWord content) :
    ∃ front m ms w rest, p.run.tokens = front ++ m :: ms ++ w :: rest ∧
      FirstWord id content m ms w := by
  obtain ⟨c, cs, hcontent, hc⟩ := hword
  obtain ⟨before, after, horigins⟩ := List.append_of_mem h
  obtain ⟨inner, behind, rfl, hinner⟩ := p.fronted _ _ _ _ horigins
  obtain ⟨parts, htokens, hyields⟩ := p.gathered
  rw [horigins] at hyields
  obtain ⟨front, tail, rfl, -, htail⟩ := exists_of_forall₂_append hyields
  cases htail with
  | @cons _ part _ others hmark hothers =>
    obtain ⟨index, rfl⟩ := hmark
    obtain ⟨mid, back, rfl, hmid, -⟩ := exists_of_forall₂_append hothers
    obtain ⟨ms, w, rest, hflat, hms, hw, htext⟩ := yields_begins hmid (hinner.trans hcontent) hc
    refine ⟨front.flatten, ⟨id, index, 0, .mark⟩, ms, w, rest ++ back.flatten, ?_, rfl, ?_, hw, ?_⟩
    · simp [htokens, hflat]
    · intro t ht
      rcases List.mem_cons.mp ht with rfl | ht
      · rfl
      · exact hms t ht
    · rwa [hcontent]

/-! ## What is recorded -/

namespace Layout

omit [Scalar α] in
/-- Where a name leads, if it has been recorded. -/
def destination? (s : Layout α) (name : String) : Option (Destination α) :=
  (s.destinations.find? (·.1 == name)).map Prod.snd

omit [Scalar α] in
theorem find?_putDestination (name key : String) (d : Destination α)
    (ds : List (String × Destination α)) :
    ((putDestination key d ds).find? (·.1 == name)).map Prod.snd =
      if key = name then some d else (ds.find? (·.1 == name)).map Prod.snd := by
  induction ds with
  | nil => by_cases h : key = name <;> simp [putDestination, h]
  | cons entry ds ih =>
    obtain ⟨k, v⟩ := entry
    by_cases hk : k = key
    · subst hk
      by_cases h : k = name <;> simp [putDestination, h]
    · rw [putDestination, if_neg (by simpa using hk)]
      by_cases h : k = name
      · have hne : key ≠ name := fun hkey => hk (h.trans hkey.symm)
        simp [h, hne]
      · simpa [h] using ih

omit [Scalar α] in
/-- A name leads to where it has been recorded last. -/
theorem destination?_addDestination (s : Layout α) (key name : String) (x y : α) :
    (s.addDestination key x y).destination? name =
      if key = name then some ⟨s.finished.length, x, y⟩ else s.destination? name :=
  find?_putDestination ..

end Layout

def Piece.name? : Piece α → Option String
  | .mark name _ => some name
  | .text .. => none

omit [Scalar α] in
theorem names_flush (pending : Option (Pending α)) :
    (flush pending).filterMap Piece.name? = [] := by
  cases pending <;> rfl

/-- The marks of a line are placed with it. -/
theorem names_placeTokens (stretch : α) (ts : List (Token α)) :
    ∀ (pending : Option (Pending α)) (x : α),
      (placeTokens stretch pending x ts).filterMap Piece.name? = marksOf ts := by
  induction ts with
  | nil => exact fun pending x => names_flush pending
  | cons t ts ih =>
    intro pending x
    have hcons (h : t.kind ≠ .mark) : marksOf (t :: ts) = marksOf ts := by
      simp [marksOf, Token.mark?, h]
    unfold placeTokens
    split
    · next hkind => simp [Piece.name?, ih, marksOf, Token.mark?, hkind]
    · next hkind => rw [ih, hcons (by simp [hkind])]
    · next hmark hline =>
      rw [hcons hmark]
      split
      · rw [List.filterMap_append, names_flush, ih, List.nil_append]
      · split
        · split
          · exact ih ..
          · exact ih ..
        · exact ih ..

theorem names_pieces (line : LineBox α) (x0 width : α) (align : TextAlign) :
    (line.pieces x0 width align).filterMap Piece.name? = marksOf line.tokens :=
  names_placeTokens ..

/-- Pieces record the names among them at `top`, and leave all others as they are. -/
theorem foldl_drawPiece_destination? (run : InlineRun α) (top baseline : α) (name : String)
    (ps : List (Piece α)) : ∀ s : Layout α,
      let t := ps.foldl (fun s p => s.drawPiece run top baseline p) s
      t.finished = s.finished ∧
        (name ∉ ps.filterMap Piece.name? → t.destination? name = s.destination? name) ∧
        (name ∈ ps.filterMap Piece.name? →
          ∃ x, t.destination? name = some ⟨s.finished.length, x, top⟩) := by
  induction ps with
  | nil => exact fun s => ⟨rfl, fun _ => rfl, nofun⟩
  | cons p ps ih =>
    intro s
    obtain ⟨hfinished, hout, hin⟩ := ih (s.drawPiece run top baseline p)
    cases p with
    | text style text x width =>
      rw [List.foldl_cons]
      rw [Layout.drawPiece, drawRun_eq_onPage] at hfinished hout hin ⊢
      exact ⟨hfinished, hout, hin⟩
    | mark key x =>
      refine ⟨hfinished, fun h => ?_, fun h => ?_⟩
      · simp only [List.filterMap_cons, Piece.name?, List.mem_cons, not_or] at h
        rw [List.foldl_cons, hout h.2]
        exact (s.destination?_addDestination key name x top).trans (if_neg (Ne.symm h.1))
      · by_cases hrest : name ∈ ps.filterMap Piece.name?
        · exact hin hrest
        · simp only [List.filterMap_cons, Piece.name?, List.mem_cons, hrest, or_false] at h
          rw [List.foldl_cons, hout hrest]
          exact ⟨x, (s.destination?_addDestination key name x top).trans (if_pos h.symm)⟩

/-- What acts record of a name, from their lines. -/
theorem Act.destination?_line (l : PlacedLine α) (s : Layout α) (name : String) :
    (name ∉ marksOf l.line.tokens →
        ((Act.line l).apply s).destination? name = s.destination? name) ∧
      (name ∈ marksOf l.line.tokens →
        ∃ x, ((Act.line l).apply s).destination? name = some ⟨s.finished.length, x, l.top⟩) := by
  rw [← names_pieces l.line l.x l.width l.align]
  exact (foldl_drawPiece_destination? l.run l.top _ name _ s).2

theorem perform_destination? {name : String} {acts : List (Act α)}
    (h : ∀ l ∈ linesIn acts, name ∉ marksOf l.line.tokens) (s : Layout α) :
    (perform acts s).destination? name = s.destination? name := by
  induction acts generalizing s with
  | nil => rfl
  | cons a acts ih =>
    cases a with
    | line l =>
      rw [linesIn_line] at h
      have hl := (Act.destination?_line l s name).1 (h l List.mem_cons_self)
      rw [perform_cons, ih fun m hm => h m (List.mem_cons_of_mem l hm), hl]
    | turn =>
      rw [perform_cons, ih h]
      simp [Act.apply, Layout.destination?, Layout.breakPage, Layout.finishPage]
    | paint p => exact ih h _
    | use => exact ih h _
    | toCursor cursor => exact ih h _
    | toInset inset => exact ih h _

/-! ## Acts and their lines -/

omit [Scalar α] in
/-- The act that draws a line, with what is done before and behind it. -/
theorem exists_line {acts : List (Act α)} {before after : List (PlacedLine α)} {l : PlacedLine α}
    (h : linesIn acts = before ++ l :: after) : ∃ pre post, acts = pre ++ .line l :: post ∧
      linesIn pre = before ∧ linesIn post = after := by
  obtain ⟨pre, tail, rfl, hpre, htail⟩ := List.filterMap_eq_append_iff.mp h
  obtain ⟨skip, a, post, rfl, hskip, ha, hpost⟩ := List.filterMap_eq_cons_iff.mp htail
  refine ⟨pre ++ skip, post, ?_, ?_, hpost⟩
  · cases a with
    | line m =>
      obtain rfl : m = l := Option.some.inj ha
      simp
    | _ => cases ha
  · have hnone : linesIn skip = [] := List.filterMap_eq_nil_iff.mpr hskip
    rw [linesIn_append, hnone, List.append_nil]
    exact hpre

omit [Scalar α] in
/-- The last of some members. -/
theorem exists_last {β : Type} {P : β → Prop} {xs : List β} (h : ∃ x ∈ xs, P x) :
    ∃ before x after, xs = before ++ x :: after ∧ P x ∧ ∀ y ∈ after, ¬ P y := by
  induction xs with
  | nil => simp at h
  | cons x xs ih =>
    by_cases hrest : ∃ y ∈ xs, P y
    · obtain ⟨before, y, after, rfl, hy⟩ := ih hrest
      exact ⟨x :: before, y, after, rfl, hy⟩
    · obtain ⟨y, hy, hP⟩ := h
      rcases List.mem_cons.mp hy with rfl | hy
      · exact ⟨[], y, xs, rfl, hP, fun z hz hPz => hrest ⟨z, hz, hPz⟩⟩
      · exact absurd ⟨y, hy, hP⟩ hrest

omit [Scalar α] in
/-- A name that is there once stands in one member of a list only. -/
theorem eq_of_count_flatMap {β : Type} {f : β → List String} {xs : List β} {name : String}
    (h : (xs.flatMap f).count name = 1) {x y : β} (hx : x ∈ xs) (hy : y ∈ xs)
    (hnx : name ∈ f x) (hny : name ∈ f y) : x = y ∧ (f x).count name = 1 := by
  induction xs with
  | nil => cases hx
  | cons z zs ih =>
    rw [List.flatMap_cons, List.count_append] at h
    have hmem (u : β) (hu : u ∈ zs) (hnu : name ∈ f u) : 0 < (zs.flatMap f).count name :=
      List.count_pos_iff.mpr (List.mem_flatMap.mpr ⟨u, hu, hnu⟩)
    have hhead (u : β) (hnu : name ∈ f u) : 0 < (f u).count name := List.count_pos_iff.mpr hnu
    rcases List.mem_cons.mp hx with rfl | hx
    · rcases List.mem_cons.mp hy with rfl | hy
      · have := hhead _ hnx
        exact ⟨rfl, by omega⟩
      · have := hhead _ hnx
        have := hmem y hy hny
        omega
    · have := hmem x hx hnx
      rcases List.mem_cons.mp hy with rfl | hy
      · have := hhead _ hny
        omega
      · exact ih (by omega) hx hy

omit [Scalar α] in
/-- Tokens of lines that begin with `opening` stand on a line that does. -/
theorem OpensWith.line {ls : List (PlacedLine α)} {before : List (List (Token α))}
    {opening : List (Token α)} (h : OpensWith before opening (ls.map (·.line.tokens))) :
    ∃ above l below rest, ls = above ++ l :: below ∧ above.map (·.line.tokens) = before ∧
      l.line.tokens = opening ++ rest := by
  obtain ⟨rest, after, hsplit⟩ := h
  obtain ⟨above, tail, rfl, habove, htail⟩ := List.map_eq_append_iff.mp hsplit
  obtain ⟨l, below, rfl, hl, -⟩ := List.map_eq_cons_iff.mp htail
  exact ⟨above, l, below, rest, rfl, habove, hl⟩

/-! ## The line of an anchor -/

/-- The line `l` of a passage holds the mark of an anchor, between the lines above and below it.
The first word of the anchor stands behind the mark if it goes on with the line; if it does not, the
mark ends the line, and the word begins the next one. -/
def Anchored (p : Passage α) (id content : String) (above : List (PlacedLine α))
    (l : PlacedLine α) (below : List (PlacedLine α)) : Prop :=
  ∃ width flow opened m ms w, FirstWord id content m ms w ∧
    (above ++ l :: below).map (·.line) = breakLines p.run width flow ∧
    (GoesOn width flow above.isEmpty opened w →
      ∃ rest, l.line.tokens = opened ++ m :: ms ++ w :: rest) ∧
    (¬ GoesOn width flow above.isEmpty opened w → l.line.tokens = opened ++ m :: ms ∧
      ∃ next others rest, below = next :: others ∧ next.line.tokens = w :: rest)

theorem Passage.LaidAs.anchored {p : Passage α} {ls : List (PlacedLine α)} (h : p.LaidAs ls)
    {id content : String} (hname : .name id content ∈ p.origins) (hword : BeginsWithWord content) :
    ∃ above l below, ls = above ++ l :: below ∧ Anchored p id content above l below := by
  obtain ⟨-, width, flow, hlines⟩ := h
  obtain ⟨front, m, ms, w, rest, htokens, hfirst⟩ := p.firstWord hname hword
  obtain ⟨before, opened, hgoes, hbreaks⟩ :=
    breakLines_marks width flow htokens hfirst.marks hfirst.word
  have hmap : (breakLines p.run width flow).map LineBox.tokens = ls.map (·.line.tokens) := by
    rw [← hlines, List.map_map]
    rfl
  rw [hmap] at hgoes hbreaks
  by_cases h : GoesOn width flow before.isEmpty opened w
  · obtain ⟨above, l, below, behind, rfl, rfl, hl⟩ := (hgoes h).line
    rw [List.isEmpty_map] at h
    refine ⟨above, l, below, rfl, width, flow, opened, m, ms, w, hfirst, hlines, fun _ => ?_,
      fun hnot => absurd h hnot⟩
    exact ⟨behind, by simpa using hl⟩
  · obtain ⟨front', next, below, behind, rfl, hfront, hnext⟩ := (hbreaks h).line
    obtain ⟨above, last, rfl, rfl, hlast⟩ := List.map_eq_append_iff.mp hfront
    obtain ⟨l, none, rfl, hl, hnone⟩ := List.map_eq_cons_iff.mp hlast
    obtain rfl := List.map_eq_nil_iff.mp hnone
    rw [List.isEmpty_map] at h
    refine ⟨above, l, next :: below, by simp, width, flow, opened, m, ms, w, hfirst,
      by simpa using hlines, fun hgoes => absurd hgoes h,
      fun _ => ⟨hl, next, below, behind, rfl, ?_⟩⟩
    exact hnext

theorem Anchored.mem_marks {p : Passage α} {id content : String} {above below : List (PlacedLine α)}
    {l : PlacedLine α} (h : Anchored p id content above l below) : id ∈ marksOf l.line.tokens := by
  obtain ⟨width, flow, opened, m, ms, w, hfirst, -, hgoes, hbreaks⟩ := h
  have hmark : m.kind = .mark := hfirst.marks m List.mem_cons_self
  have hin : m ∈ l.line.tokens := by
    by_cases h : GoesOn width flow above.isEmpty opened w
    · obtain ⟨rest, hl⟩ := hgoes h
      rw [hl]
      simp
    · rw [(hbreaks h).1]
      simp
  exact hfirst.name ▸ mem_marksOf hin hmark

/-! ## What is recorded of an anchor -/

theorem mem_names_of_laid {ps : List (Passage α)} {ls : List (PlacedLine α)}
    {laid : List (Passage α × List (PlacedLine α))} (h : Laid ps ls laid) {l : PlacedLine α}
    (hl : l ∈ ls) {name : String} (hname : name ∈ marksOf l.line.tokens) :
    ∃ q ∈ laid, l ∈ q.2 ∧ name ∈ q.1.names := by
  rw [h.lines] at hl
  obtain ⟨q, hq, hlq⟩ := List.mem_flatMap.mp hl
  refine ⟨q, hq, hlq, ?_⟩
  rw [← (h.placed q hq).2.marks]
  exact List.mem_flatMap.mpr ⟨l, hlq, hname⟩

/-- A name that stands once among passages is marked by no line behind the one that holds it, neither
of its own passage nor of the others. -/
theorem unmarked_after {ps : List (Passage α)} {name : String}
    (honce : (ps.flatMap Passage.names).count name = 1) {p : Passage α} (hp : p ∈ ps)
    (hname : name ∈ p.names) {above below : List (PlacedLine α)} {l : PlacedLine α}
    (hls : p.LaidAs (above ++ l :: below)) (hmark : name ∈ marksOf l.line.tokens)
    {others : List (Passage α × List (PlacedLine α))}
    (hothers : ∀ r ∈ others, r.1 ∈ ps ∧ r.1.LaidAs r.2 ∧ r.1 ≠ p) :
    ∀ m ∈ below ++ others.flatMap Prod.snd, name ∉ marksOf m.line.tokens := by
  intro m hm hagain
  rcases List.mem_append.mp hm with hm | hm
  · have hcount := (eq_of_count_flatMap honce hp hp hname hname).2
    rw [← hls.marks, List.flatMap_append, List.flatMap_cons, List.count_append,
      List.count_append] at hcount
    have hline := List.count_pos_iff.mpr hmark
    have hbelow : 0 < (below.flatMap fun l => marksOf l.line.tokens).count name :=
      List.count_pos_iff.mpr (List.mem_flatMap.mpr ⟨m, hm, hagain⟩)
    omega
  · obtain ⟨r, hr, hmr⟩ := List.mem_flatMap.mp hm
    obtain ⟨hmem, hlaid, hne⟩ := hothers r hr
    have hnames : name ∈ r.1.names := by
      rw [← hlaid.marks]
      exact List.mem_flatMap.mpr ⟨m, hmr, hagain⟩
    exact hne (eq_of_count_flatMap honce hmem hp hnames hname).1

/-- What a call does to the names is done by the script of a node that it adds. -/
theorem apply_records (call : Call α) (s : Layout α) :
    (call.apply s).destinations = s.destinations ∨
      ∃ n, call = .add n ∧ call.apply s = perform (scriptOf n s) s := by
  have hturn (t : Layout α) : t.breakPage.destinations = t.destinations := by
    simp [Layout.breakPage, Layout.finishPage]
  cases call with
  | setGeometry geometry =>
    left
    simp only [Call.apply, Layout.setGeometry]
    split <;> rfl
  | setInfo info => exact .inl rfl
  | setFooter footer => exact .inl rfl
  | setHeader header => exact .inl rfl
  | addEvent event => exact .inl rfl
  | openDocument =>
    left
    simp only [Call.apply, Flow.openDocument, run_bind, run_get]
    split
    · exact Layout.startPage_destinations ..
    · rfl
  | add n =>
    simp only [Call.apply, add]
    rcases run_afterOpen (addBlock n) (s := s) with ⟨-, hrun⟩ | ⟨-, hrun⟩
    · exact .inr ⟨n, rfl, by rw [hrun, runs_scriptOf]⟩
    · exact .inl (by rw [hrun])
  | newPage =>
    left
    by_cases hopen : s.phase = .opened
    · rw [Call.apply, run_newPage hopen]
      simp only
      split
      · exact hturn s
      · rfl
    · simp only [Call.apply, newPage]
      rcases run_afterOpen _ (s := s) with ⟨h, -⟩ | ⟨-, hrun⟩
      · exact absurd h hopen
      · rw [hrun]

/-- A call that does not hold a name leaves it as it is. -/
theorem apply_destination? (call : Call α) {name : String}
    (h : ∀ n, call = .add n → name ∉ (passagesOf n).flatMap Passage.names) (s : Layout α) :
    (call.apply s).destination? name = s.destination? name := by
  rcases apply_records call s with hsame | ⟨n, hadd, happly⟩
  · simp only [Layout.destination?, hsame]
  · rw [happly]
    refine perform_destination? (fun l hl hmark => ?_) s
    obtain ⟨laid, hlaid, -⟩ := scriptOf_laysOut n s
    obtain ⟨q, hq, -, hname⟩ := mem_names_of_laid hlaid hl hmark
    exact h n hadd (List.mem_flatMap.mpr ⟨q.1, (hlaid.placed q hq).1, hname⟩)

theorem foldl_apply_destination? {name : String} (calls : List (Call α))
    (h : ∀ n, .add n ∈ calls → name ∉ (passagesOf n).flatMap Passage.names) :
    ∀ s : Layout α,
      (calls.foldl (fun s call => call.apply s) s).destination? name = s.destination? name := by
  induction calls with
  | nil => exact fun _ => rfl
  | cons call calls ih =>
    intro s
    rw [List.foldl_cons, ih fun n hn => h n (List.mem_cons_of_mem _ hn)]
    exact apply_destination? call (fun n hn => h n (hn ▸ List.mem_cons_self)) s

theorem conclude_destination? (s : Layout α) (name : String) :
    s.conclude.destination? name = s.destination? name := by
  simp only [Layout.conclude]
  split <;> rfl

/-- The name of an anchor leads to the line that holds its mark, on the page that the line is drawn
on, whatever else is added before the document is closed. The first word of the anchor stands behind
the mark on that line exactly if it goes on with the line; if not, it begins the line below. -/
theorem add_destination {s t : Layout α} (hopen : s.phase = .opened) {n : Node α}
    (hrun : (add n).run s = (.ok (), t)) {p : Passage α} (hp : p ∈ passagesOf n)
    {id content : String} (hname : .name id content ∈ p.origins) (hword : BeginsWithWord content)
    (honce : ((passagesOf n).flatMap Passage.names).count id = 1) :
    ∃ pre l post above below,
      (scriptOf n s = pre ++ .line l :: post ∧ perform (scriptOf n s) s = t) ∧
      (above <:+ linesIn pre ∧ below <+: linesIn post ∧ ∀ m ∈ above ++ l :: below, m.run = p.run) ∧
      Anchored p id content above l below ∧
      ∃ x, ∀ calls : List (Call α),
        (∀ m, .add m ∈ calls → id ∉ (passagesOf m).flatMap Passage.names) →
        (calls.foldl (fun s call => call.apply s) t).conclude.destination? id =
          some ⟨(perform pre s).finished.length, x, l.top⟩ := by
  have hid : id ∈ p.names := List.mem_filterMap.mpr ⟨_, hname, rfl⟩
  obtain ⟨laid, hlaid, hall⟩ := scriptOf_laysOut n s
  rw [run_add hopen] at hrun
  have hdone : perform (scriptOf n s) s = t := by rw [runs_scriptOf, hrun]
  -- the passage may be laid out more than once; its last lines count
  obtain ⟨q, hq, hqp⟩ := List.mem_map.mp (hall (congrArg Prod.fst hrun) p hp)
  obtain ⟨front, ⟨last, ls⟩, back, hsplit, hlast, hback⟩ :=
    exists_last (P := fun q : Passage α × List (PlacedLine α) => q.1 = p) ⟨q, hq, hqp⟩
  rw [show last = p from hlast] at hsplit
  have hmem (r : Passage α × List (PlacedLine α)) (hr : r ∈ front ++ (p, ls) :: back) :
      r.1 ∈ passagesOf n ∧ r.1.LaidAs r.2 := hlaid.placed r (hsplit ▸ hr)
  have hls : p.LaidAs ls := (hmem (p, ls) (by simp)).2
  obtain ⟨above, l, below, rfl, hanchored⟩ := hls.anchored hname hword
  have hlines : linesIn (scriptOf n s) =
      (front.flatMap Prod.snd ++ above) ++ l :: (below ++ back.flatMap Prod.snd) := by
    rw [hlaid.lines, hsplit]
    simp
  obtain ⟨pre, post, hacts, hpre, hpost⟩ := exists_line hlines
  have hafter : ∀ m ∈ linesIn post, id ∉ marksOf m.line.tokens := by
    refine hpost ▸ unmarked_after honce hp hid hls hanchored.mem_marks fun r hr => ?_
    have hplaced := hmem r (List.mem_append_right _ (List.mem_cons_of_mem _ hr))
    exact ⟨hplaced.1, hplaced.2, hback r hr⟩
  obtain ⟨x, hx⟩ := (Act.destination?_line l (perform pre s) id).2 hanchored.mem_marks
  refine ⟨pre, l, post, above, below, ⟨hacts, hdone⟩, ⟨?_, ?_, hls.1⟩, hanchored, x, ?_⟩
  · rw [hpre]
    exact List.suffix_append _ _
  · rw [hpost]
    exact List.prefix_append _ _
  · intro calls hcalls
    rw [conclude_destination?, foldl_apply_destination? calls hcalls, ← hdone, hacts,
      perform_append, perform_cons, perform_destination? hafter, hx]

/-- A paragraph at the right edge of the page, in which no line takes more than a word. -/
def signpost : Node ℚ :=
  .paragraph ⟨.standard, .left, none, 500, 0, 0, 0, false⟩
    [.text ⟨"See ", .standard, none⟩,
      .anchor ⟨some "here", none⟩ .plain (.text ⟨"this", .standard, none⟩)]

theorem add_destination_signpost : ∃ p ∈ passagesOf signpost, ∃ pre l post above below,
    (scriptOf signpost opened = pre ++ .line l :: post ∧
      perform (scriptOf signpost opened) opened = ((add signpost).run opened).2) ∧
    (above <:+ linesIn pre ∧ below <+: linesIn post ∧ ∀ m ∈ above ++ l :: below, m.run = p.run) ∧
    Anchored p "here" "this" above l below ∧
    ∃ x, ∀ calls : List (Call ℚ),
      (∀ m, .add m ∈ calls → "here" ∉ (passagesOf m).flatMap Passage.names) →
      (calls.foldl (fun s call => call.apply s)
        ((add signpost).run opened).2).conclude.destination? "here" =
          some ⟨(perform pre opened).finished.length, x, l.top⟩ := by
  have horigins : (passagesOf signpost).map Passage.origins =
      [[.text "See " [] false, .name "here" "this", .text "this" [⟨some "here", none⟩] false]] :=
    rfl
  obtain ⟨p, hp, hpo⟩ := List.mem_map.mp (horigins ▸ List.mem_cons_self)
  have hname : .name "here" "this" ∈ p.origins := by simp [hpo]
  have hword : BeginsWithWord "this" := ⟨'t', ['h', 'i', 's'], rfl, rfl⟩
  exact ⟨p, hp, add_destination rfl rfl hp hname hword rfl⟩

/-- The word does not fit behind `See`, and is drawn on the line below the one that the name of its
anchor leads to. -/
theorem add_destination_wrapped :
    (((add signpost).run opened).2.destination? "here").map (fun d => (d.pageIndex, d.y)) =
        some (0, 806) ∧
      ((linesIn (scriptOf signpost opened)).filter fun l =>
        l.line.tokens.any (·.text == "this")).map (·.top) = [794] := by
  decide +kernel

end Folio.Flow
