import Folio.Proofs.Style.Spelling

/-!
# Where a font comes from

The context that a font is read from is made of maps that are laid over one another: the attributes
around an element, those of its classes, its own ones, and whatever its tag adds. Listed from the
most specific one on, each attribute of the font comes from the first of these sources that names
it, and from the standard font if none does. This holds as long as no value that cannot be read
stands in front of one that can, and so whenever all sources but the last one can be read.
-/
namespace Folio.Style

variable {α β : Type} [Scalar α]

/-! ## Reading an attribute -/

def FontFamily.read? (v : Json) : Option FontFamily := v.asString?.bind parse?

def FontStyle.read? (v : Json) : Option FontStyle := v.asString?.bind parse?

def Color.read? (v : Json) : Option Color := (Color.read v).toOption.join

def fontKeys : List String := ["family", "size", "style", "color"]

/-- What the first of the sources that has a readable value under the key has there. -/
def named (key : String) (read : Json → Option β) (sources : List Context) : Option β :=
  sources.findSome? fun c => (c.get? key).bind read

/-- The font has of each attribute what the sources name, and else what the standard font has; of
the style only where `styled` holds. -/
structure Font.From (sources : List Context) (styled : Prop) (font : Font α) : Prop where
  family : font.family = (named "family" FontFamily.read? sources).getD (standard : Font α).family
  size : font.size = (named "size" scalarOf? sources).getD standard.size
  color : font.color = (named "color" Color.read? sources).getD (standard : Font α).color
  style : styled →
    font.style = (named "style" FontStyle.read? sources).getD (standard : Font α).style

/-! ## Values that can be read -/

/-- What the context has under the key can be read. -/
def Readable (key : String) (read : Json → Option β) (c : Context) : Prop :=
  ∀ v, c.get? key = some v → (read v).isSome

/-- Every font attribute of a map can be read. -/
structure Legible (α : Type) [Scalar α] (c : Context) : Prop where
  family : Readable "family" FontFamily.read? c
  size : Readable "size" (scalarOf? (α := α)) c
  color : Readable "color" Color.read? c
  style : Readable "style" FontStyle.read? c

/-- Every font attribute of a map can be read, with a map for its style where one may be nested. -/
structure LegibleFor (α : Type) [Scalar α] (nests : Bool) (c : Context) : Prop where
  family : Readable "family" FontFamily.read? c
  size : Readable "size" (scalarOf? (α := α)) c
  color : Readable "color" Color.read? c
  style : ∀ v, c.get? "style" = some v → (FontStyle.read? v).isSome ∨
    nests ∧ ∃ nested, v.asFields? = some nested ∧ Legible α (.ofFields nested)

/-- What the sources show under the key can be read, or else none of them can. -/
def Unhidden (key : String) (read : Json → Option β) (sources : List Context) : Prop :=
  ∀ v, sources.findSome? (·.get? key) = some v →
    (read v).isSome ∨ named key read sources = none

section Named

variable {key : String} {read : Json → Option β} {sources : List Context}

theorem Unhidden.bind_eq (h : Unhidden key read sources) :
    (sources.findSome? (·.get? key)).bind read = named key read sources := by
  cases hshown : sources.findSome? (·.get? key) with
  | none =>
    rw [List.findSome?_eq_none_iff] at hshown
    refine (List.findSome?_eq_none_iff.mpr fun c hc => ?_).symm
    rw [hshown c hc]
    rfl
  | some v =>
    obtain ⟨before, c, after, rfl, hget, hbefore⟩ := List.findSome?_eq_some_iff.mp hshown
    rcases h v hshown with hread | hnone
    · -- the source that is shown is also the first one that can be read
      obtain ⟨b, hb⟩ := Option.isSome_iff_exists.mp hread
      have hhead : (c.get? key).bind read = some b := by rw [hget]; exact hb
      refine hb.trans (Eq.symm (List.findSome?_eq_some_iff.mpr ⟨before, c, after, rfl, hhead, ?_⟩))
      intro d hd
      rw [hbefore d hd]
      rfl
    · have hc := List.findSome?_eq_none_iff.mp hnone c (by simp)
      rw [hget] at hc
      exact hc.trans hnone.symm

/-- The last source may hold anything, for nothing stands behind it. -/
theorem unhidden_append {own : List Context}
    (h : ∀ v, own.findSome? (·.get? key) = some v → (read v).isSome) (last : Context) :
    Unhidden key read (own ++ [last]) := by
  intro v hv
  rw [List.findSome?_append] at hv
  cases hown : own.findSome? (·.get? key) with
  | some w =>
    rw [hown] at hv
    exact .inl (Option.some.inj hv ▸ h w hown)
  | none =>
    rw [hown] at hv
    have hlast : last.get? key = some v := by simpa using hv
    refine or_iff_not_imp_left.mpr fun hread => List.findSome?_eq_none_iff.mpr fun c hc => ?_
    rcases List.mem_append.mp hc with hc | hc
    · rw [List.findSome?_eq_none_iff.mp hown c hc]
      rfl
    · rw [List.mem_singleton.mp hc, hlast]
      exact Option.not_isSome_iff_eq_none.mp hread

theorem isSome_of_readable (h : ∀ c ∈ sources, Readable key read c) :
    ∀ v, sources.findSome? (·.get? key) = some v → (read v).isSome := by
  intro v hv
  obtain ⟨c, hc, hget⟩ := List.exists_of_findSome?_eq_some hv
  exact h c hc v hget

end Named

/-! ## Maps that are laid over one another -/

/-- The context shows of a font what the first of the sources that has it shows. -/
def Layered (c : Context) (sources : List Context) : Prop :=
  ∀ key ∈ fontKeys, c.get? key = sources.findSome? (·.get? key)

theorem layered_self (c : Context) : Layered c [c] := fun key _ => by simp

theorem Context.get?_merge (c : Context) (overlay : Fields) (key : String) :
    (c.merge overlay).get? key = ((ofFields overlay).get? key).or (c.get? key) := by
  have hown : (ofFields overlay).get? key = (empty.merge overlay).get? key := by
    unfold ofFields
    rw [normalizeKeys_eq]
  rw [hown]
  rcases get?_merge_eq key overlay with hsame | ⟨v, -, hshown⟩
  · rw [hsame, hsame]
    rfl
  · rw [hshown, hshown]
    rfl

theorem Layered.merge {c : Context} {sources : List Context} (h : Layered c sources)
    (overlay : Fields) : Layered (c.merge overlay) (.ofFields overlay :: sources) := by
  intro key hkey
  rw [Context.get?_merge, h key hkey, List.findSome?_cons]
  cases (Context.ofFields overlay).get? key <;> rfl

/-- The maps that an element brings along, the most specific one in front: the attributes of its
own, and then those of its classes from the last one on. -/
def ownSources (sheet : Sheet) (classes : List String) (inlined : Option Fields) : List Context :=
  (inlined.toList ++ (classes.filterMap sheet.get?).reverse).map .ofFields

theorem layered_resolve {c : Context} {sources : List Context} (h : Layered c sources)
    (sheet : Sheet) (classes : List String) (inlined : Option Fields) :
    Layered (resolve c sheet classes inlined) (ownSources sheet classes inlined ++ sources) := by
  induction classes generalizing c sources with
  | nil =>
    cases inlined with
    | none => exact h
    | some attrs => exact h.merge attrs
  | cons name classes ih =>
    cases hclass : sheet.get? name with
    | none => simpa [resolve, ownSources, hclass] using ih h
    | some attrs => simpa [resolve, ownSources, hclass] using ih (h.merge attrs)

/-! ## The font of a context -/

/-- A font shows nothing of the keys that are none of its own. -/
theorem Font.ofContext_without {keys : List String} (h : ∀ key ∈ fontKeys, key ∉ keys)
    (c : Context) : (ofContext (c.without keys) : Except Color.Fault (Font α)) = ofContext c := by
  have hshown {key : String} (hkey : key ∈ fontKeys) :
      Fields.get? key (c.without keys).attrs = Fields.get? key c.attrs :=
    Context.get?_without_of_not_mem (h key hkey) c
  unfold ofContext overriddenBy Context.color? Context.get?
  rw [hshown (by simp [fontKeys]), hshown (by simp [fontKeys]), hshown (by simp [fontKeys]),
    hshown (by simp [fontKeys])]

theorem Font.ofContext_eq_ok {c : Context} {font : Font α} (h : ofContext c = .ok font) :
    font = ⟨((c.get? "family").bind FontFamily.read?).getD (standard : Font α).family,
      ((c.get? "size").bind scalarOf?).getD standard.size,
      ((c.get? "style").bind FontStyle.read?).getD (standard : Font α).style,
      ((c.get? "color").bind Color.read?).getD (standard : Font α).color⟩ := by
  unfold ofContext overriddenBy at h
  cases hcolor : Context.color? ⟨c.attrs⟩ "color" with
  | error fault =>
    rw [hcolor] at h
    cases h
  | ok color =>
    rw [hcolor] at h
    have hread : (c.get? "color").bind Color.read? = color := by
      unfold Context.color? at hcolor
      split at hcolor
      · next v hget =>
        have hget : c.get? "color" = some v := hget
        rw [hget, Option.bind_some, Color.read?, hcolor]
        rfl
      · next hget =>
        have hget : c.get? "color" = none := hget
        rw [hget]
        exact Except.ok.inj hcolor
    rw [hread]
    exact (Except.ok.inj h).symm

/-- The font of a context that is made of the sources comes from them. -/
theorem Font.from_of_layered {c : Context} {sources : List Context} {styled : Prop}
    (h : Layered c sources) (hfamily : Unhidden "family" FontFamily.read? sources)
    (hsize : Unhidden "size" (scalarOf? (α := α)) sources)
    (hcolor : Unhidden "color" Color.read? sources)
    (hstyle : styled → Unhidden "style" FontStyle.read? sources) {font : Font α}
    (hfont : ofContext c = .ok font) : font.From sources styled := by
  rw [ofContext_eq_ok hfont, h _ (by simp [fontKeys]), h _ (by simp [fontKeys]),
    h _ (by simp [fontKeys]), h _ (by simp [fontKeys]), hfamily.bind_eq, hsize.bind_eq,
    hcolor.bind_eq]
  refine ⟨rfl, rfl, rfl, fun hstyled => ?_⟩
  rw [← (hstyle hstyled).bind_eq]

end Folio.Style
