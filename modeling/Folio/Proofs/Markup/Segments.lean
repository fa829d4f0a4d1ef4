import Folio.Proofs.Compile.Respelt

/-!
# The segments of a token

A token is cut at its points, and every segment names what it says, less a colon in front of it. A
tag and classes that are written as segments are read back as they are. Of any token at all either
nothing is cut off but a colon in front, which happens where there is no point or a segment names
nothing, or every segment gives its part.
-/
namespace Folio.Markup

open Style

/-! ## Points -/

theorem splitPoints_eq (cs : List Char) : splitPoints cs = cs.splitOn '.' := by
  induction cs with
  | nil => rfl
  | cons c cs ih =>
    obtain ⟨part, parts, hcs, hsplit⟩ := splitPoints_cons c cs
    rw [hsplit, List.splitOn_cons_eq_if_modifyHead, ← ih, hcs]
    rfl

theorem not_mem_of_mem_splitPoints (cs : List Char) : ∀ part ∈ splitPoints cs, '.' ∉ part := by
  induction cs with
  | nil => simp [splitPoints]
  | cons c cs ih =>
    obtain ⟨part, parts, hcs, hsplit⟩ := splitPoints_cons c cs
    rw [hcs, List.forall_mem_cons] at ih
    rw [hsplit]
    split
    · exact List.forall_mem_cons.mpr ⟨List.not_mem_nil, List.forall_mem_cons.mpr ih⟩
    · next hc =>
      have hpart : '.' ∉ c :: part := by
        intro hmem
        rcases List.mem_cons.mp hmem with rfl | hmem
        · exact hc rfl
        · exact ih.1 hmem
      exact List.forall_mem_cons.mpr ⟨hpart, ih.2⟩

/-- The token is these segments with points between them, and no point stands inside of one. -/
structure Segments (token : String) (segments : List String) : Prop where
  nonempty : segments ≠ []
  joined : ".".intercalate segments = token
  pointless : ∀ s ∈ segments, '.' ∉ s.toList

/-- A token is cut into its segments. -/
theorem Segments.splitPoints_eq_map {token : String} {segments : List String}
    (h : Segments token segments) : splitPoints token.toList = segments.map String.toList := by
  have hpointless : ∀ part ∈ segments.map String.toList, '.' ∉ part := by
    rw [List.forall_mem_map]
    exact h.pointless
  have hchars : token.toList = ['.'].intercalate (segments.map String.toList) := by
    rw [← h.joined, String.toList_intercalate]
    rfl
  rw [hchars, splitPoints_eq]
  exact List.splitOn_intercalate '.' hpointless (by simpa using h.nonempty)

theorem segments_splitPoints (token : String) :
    Segments token ((splitPoints token.toList).map String.ofList) := by
  constructor
  · simpa using splitPoints_ne_nil token.toList
  · have hid : String.toList ∘ String.ofList = id := funext fun _ => String.toList_ofList
    rw [← String.toList_inj, String.toList_intercalate, List.map_map, hid, List.map_id,
      splitPoints_eq]
    exact List.intercalate_splitOn '.'
  · rw [List.forall_mem_map]
    intro part hpart
    rw [String.toList_ofList]
    exact not_mem_of_mem_splitPoints _ part hpart

/-- There is a point in a token of two segments or more, and in no other. -/
theorem Segments.point_mem_iff {token first : String} {rest : List String}
    (h : Segments token (first :: rest)) : '.' ∈ token.toList ↔ rest ≠ [] := by
  cases rest with
  | nil =>
    have hfirst : first = token := by simpa using h.joined
    simpa [← hfirst] using h.pointless first List.mem_cons_self
  | cons second rest => simp [← h.joined]

/-! ## Names -/

/-- What a segment names: itself, less a colon that stands in front. -/
inductive Names : String → String → Prop
  | plain {name : String} (h : name.toList.head? ≠ some ':') : Names name name
  | keyword (name : String) : Names (":" ++ name) name

theorem names_stripKeyword (segment : String) : Names segment (stripKeyword segment) := by
  by_cases hcolon : segment.toList.head? = some ':'
  · obtain ⟨cs, hcs⟩ := List.head?_eq_some_iff.mp hcolon
    have hsegment : segment = ":" ++ String.ofList cs := by
      rw [← String.toList_inj, hcs]
      simp
    rw [hsegment, stripKeyword_colon]
    exact .keyword _
  · rw [stripKeyword_of_plain hcolon]
    exact .plain hcolon

/-- A segment that names nothing. -/
def Nameless (segment : String) : Prop := segment = "" ∨ segment = ":"

theorem stripKeyword_eq_empty_iff {segment : String} :
    stripKeyword segment = "" ↔ Nameless segment := by
  constructor
  · intro hempty
    have hnames := names_stripKeyword segment
    rw [hempty] at hnames
    cases hnames with
    | plain => exact .inl rfl
    | keyword => exact .inr rfl
  · rintro (rfl | rfl) <;> rfl

/-- A part of a token that can be written down: it is not empty, and neither is there a point in it
nor a colon in front. -/
structure Writable (part : String) : Prop where
  ne_empty : part ≠ ""
  pointless : '.' ∉ part.toList
  plain : part.toList.head? ≠ some ':'

/-- A part as it may be written: with a colon in front or without. -/
def Spells (segment part : String) : Prop := segment = part ∨ segment = ":" ++ part

theorem Spells.stripKeyword_eq {segment part : String} (h : Spells segment part)
    (hpart : Writable part) : stripKeyword segment = part := by
  rcases h with rfl | rfl
  · exact stripKeyword_of_plain hpart.plain
  · exact stripKeyword_colon part

theorem Spells.pointless {segment part : String} (h : Spells segment part) (hpart : Writable part) :
    '.' ∉ segment.toList := by
  rcases h with rfl | rfl
  · exact hpart.pointless
  · simpa using hpart.pointless

/-- The segments of parts, which name them. -/
theorem map_stripKeyword_of_spells {segments parts : List String}
    (h : List.Forall₂ Spells segments parts) (hparts : ∀ part ∈ parts, Writable part) :
    segments.map stripKeyword = parts ∧ ∀ s ∈ segments, '.' ∉ s.toList := by
  induction h with
  | nil => exact ⟨rfl, List.forall_mem_nil _⟩
  | cons hs _ ih =>
    obtain ⟨hpart, hparts⟩ := List.forall_mem_cons.mp hparts
    obtain ⟨hnames, hpointless⟩ := ih hparts
    rw [List.map_cons, hs.stripKeyword_eq hpart, hnames]
    exact ⟨rfl, List.forall_mem_cons.mpr ⟨hs.pointless hpart, hpointless⟩⟩

/-! ## Reading -/

/-- A token is read segment by segment, or as a whole if one of them names nothing. -/
theorem Segments.parse {token first : String} {rest : List String}
    (h : Segments token (first :: rest)) :
    (∃ s ∈ first :: rest, Nameless s) ∧ Token.parse token = ⟨stripKeyword token, []⟩ ∨
      ¬ (∃ s ∈ first :: rest, Nameless s) ∧
        Token.parse token = ⟨stripKeyword first, rest.map stripKeyword⟩ := by
  obtain ⟨part, parts, hsplit, hstrip⟩ := splitPoints_stripKeyword token
  rw [h.splitPoints_eq_map, List.map_cons] at hsplit
  obtain ⟨rfl, rfl⟩ := List.cons.inj hsplit
  have hfirst : stripPart first.toList = stripKeyword first := by
    rw [stripPart, String.ofList_toList]
  have hrest : (rest.map String.toList).map stripPart = rest.map stripKeyword := by
    rw [List.map_map]
    exact List.map_congr_left fun s _ => by simp [stripPart]
  have hmalformed : malformedParts (stripPart first.toList).toList (rest.map String.toList) = true ↔
      ∃ s ∈ first :: rest, Nameless s := by
    simp only [malformedParts, hfirst, hrest, ← stripKeyword_eq_empty_iff]
    simp
  rw [Token.parse_eq hstrip, ← hmalformed]
  split
  · next hm => exact .inl ⟨hm, rfl⟩
  · next hm => exact .inr ⟨hm, by rw [hfirst, hrest, String.ofList_toList]⟩

/-- Parts that are written as segments are read back. -/
theorem parse_of_spells {primary : String} {classes segments : List String}
    (h : List.Forall₂ Spells segments (primary :: classes))
    (hparts : ∀ part ∈ primary :: classes, Writable part) :
    Token.parse (".".intercalate segments) = ⟨primary, classes⟩ := by
  obtain ⟨hnames, hpointless⟩ := map_stripKeyword_of_spells h hparts
  have hfilled : ¬ ∃ s ∈ segments, Nameless s := by
    rintro ⟨s, hs, hnameless⟩
    have hempty : "" ∈ primary :: classes := by
      rw [← hnames, ← stripKeyword_eq_empty_iff.mpr hnameless]
      exact List.mem_map_of_mem hs
    exact (hparts "" hempty).ne_empty rfl
  cases segments with
  | nil => cases hnames
  | cons first rest =>
    have hsegments : Segments (".".intercalate (first :: rest)) (first :: rest) :=
      ⟨List.cons_ne_nil first rest, rfl, hpointless⟩
    obtain ⟨hfirst, hrest⟩ := List.cons.inj hnames
    rcases hsegments.parse with ⟨hnameless, -⟩ | ⟨-, hparse⟩
    · exact absurd hnameless hfilled
    · rw [hparse, hfirst, hrest]

/-- Does the token stand for itself? There is no point in it, or a segment names nothing. -/
def Whole (token : String) (segments : List String) : Prop :=
  '.' ∉ token.toList ∨ ∃ s ∈ segments, Nameless s

/-- The segments name the primary part and the classes that the token is read as. -/
structure Parted (token : String) (segments : List String) : Prop where
  names : List.Forall₂ Names segments
    ((Token.parse token).primary :: (Token.parse token).classes)
  classes_ne_nil : (Token.parse token).classes ≠ []
  primary_ne_empty : (Token.parse token).primary ≠ ""
  class_ne_empty : ∀ c ∈ (Token.parse token).classes, c ≠ ""

/-- A token either stands for itself or is parted. -/
theorem Segments.whole_or_parted {token : String} {segments : List String}
    (h : Segments token segments) :
    Whole token segments ∧ Token.parse token = ⟨stripKeyword token, []⟩ ∨
      ¬ Whole token segments ∧ Parted token segments := by
  obtain ⟨first, rest, rfl⟩ := List.exists_cons_of_ne_nil h.nonempty
  rcases h.parse with ⟨hnameless, hparse⟩ | ⟨hfilled, hparse⟩
  · exact .inl ⟨.inr hnameless, hparse⟩
  by_cases hpoint : '.' ∈ token.toList
  · have hrest : rest ≠ [] := h.point_mem_iff.mp hpoint
    have hne : ∀ s ∈ first :: rest, stripKeyword s ≠ "" :=
      fun s hs hempty => hfilled ⟨s, hs, stripKeyword_eq_empty_iff.mp hempty⟩
    obtain ⟨hfirst, hclasses⟩ := List.forall_mem_cons.mp hne
    have hnames : List.Forall₂ Names (first :: rest) ((first :: rest).map stripKeyword) := by
      rw [List.forall₂_map_right_iff, List.forall₂_same]
      exact fun s _ => names_stripKeyword s
    refine .inr ⟨fun hwhole => hwhole.elim (· hpoint) hfilled, ?_⟩
    constructor
    · simpa [hparse] using hnames
    · simpa [hparse] using hrest
    · simpa [hparse] using hfirst
    · simpa [hparse] using hclasses
  · -- a token of one segment is that segment, and read as a whole it loses the same colon
    have hrest : rest = [] := by
      by_contra hne
      exact hpoint (h.point_mem_iff.mpr hne)
    subst hrest
    have hfirst : first = token := by simpa using h.joined
    exact .inl ⟨.inl hpoint, by rw [hparse, hfirst, List.map_nil]⟩

/-- Parts that are written as segments, each with a colon in front or without, are read back. Any
token is read as a whole, less a colon in front, exactly if there is no point in it or a segment
names nothing; and otherwise as parts that its segments name, none of them empty. A node has the tag
that it has as an element. -/
theorem token_segments :
    (∀ (primary : String) (classes segments : List String),
      (∀ part ∈ primary :: classes, Writable part) →
      List.Forall₂ Spells segments (primary :: classes) →
      Token.parse (".".intercalate segments) = ⟨primary, classes⟩) ∧
    (∀ token : String, ∃ segments, Segments token segments ∧
      (Token.parse token = ⟨stripKeyword token, []⟩ ↔ Whole token segments) ∧
      (Token.parse token = ⟨stripKeyword token, []⟩ ∨ Parted token segments)) ∧
    ∀ (node : Json) (tag : Tag), tagOf? node = some tag ↔
      ∃ e, Element.parse node = .ok e ∧ e.tag? = some tag := by
  refine ⟨fun _ _ _ hparts hwritten => parse_of_spells hwritten hparts, fun token => ?_,
    fun node tag => ?_⟩
  · have h := segments_splitPoints token
    refine ⟨_, h, ?_⟩
    rcases h.whole_or_parted with ⟨hwhole, hparse⟩ | ⟨hnot, hparted⟩
    · exact ⟨⟨fun _ => hwhole, fun _ => hparse⟩, .inl hparse⟩
    · have hclasses : Token.parse token ≠ ⟨stripKeyword token, []⟩ :=
        fun hparse => hparted.classes_ne_nil (congrArg Token.classes hparse)
      exact ⟨⟨fun hparse => absurd hparse hclasses, fun hwhole => absurd hwhole hnot⟩, .inr hparted⟩
  · rw [tagOf?_eq]
    cases Element.parse node with
    | error e => simp [Except.toOption]
    | ok e => simp [Except.toOption]

/-- Colons in front of the token and of a class do not count. -/
theorem token_segments_paragraph :
    Token.parse ":paragraph.title.:muted" = ⟨"paragraph", ["title", "muted"]⟩ := by
  obtain ⟨hwritten, -, -⟩ := token_segments
  have hparts : ∀ part ∈ ["paragraph", "title", "muted"], Writable part := by
    simp only [List.forall_mem_cons]
    exact ⟨⟨by decide, by decide, by decide⟩, ⟨by decide, by decide, by decide⟩,
      ⟨by decide, by decide, by decide⟩, List.forall_mem_nil _⟩
  exact hwritten "paragraph" ["title", "muted"] [":paragraph", "title", ":muted"] hparts
    (.cons (.inr rfl) (.cons (.inl rfl) (.cons (.inr rfl) .nil)))

end Folio.Markup
