import Mathlib.Data.List.Nodup
import Folio.Proofs.Style.Inherited

/-!
# Names and maps in keyword spelling

A name may be written with a colon in front, and the keys of a map may be, as long as no key stands
in it in both spellings. Laid over a context, such a map shows under each key what the plain map
shows.
-/
namespace Folio.Style

/-- A name as it is, or a plain one with a colon in front. -/
inductive Spelt (name : String) : String → Prop
  | plain : Spelt name name
  | keyword (h : name.toList.head? ≠ some ':') : Spelt name (":" ++ name)

theorem spelt_iff {name written : String} :
    Spelt name written ↔
      written = name ∨ name.toList.head? ≠ some ':' ∧ written = ":" ++ name := by
  constructor
  · rintro (_ | h)
    · exact .inl rfl
    · exact .inr ⟨h, rfl⟩
  · rintro (rfl | ⟨h, rfl⟩)
    · exact .plain
    · exact .keyword h

instance (name written : String) : Decidable (Spelt name written) :=
  decidable_of_iff _ spelt_iff.symm

theorem Spelt.stripKeyword_eq {name written : String} (h : Spelt name written) :
    stripKeyword written = stripKeyword name := by
  cases h with
  | plain => rfl
  | keyword h => rw [stripKeyword_colon, stripKeyword_of_plain h]

/-! ## Related answers -/

section Related

variable {β β' γ γ' : Type} {R : β → β' → Prop} {S : γ → γ' → Prop}

theorem eq_of_rel {a b : Option β} (h : Option.Rel Eq a b) : a = b := by
  cases h with
  | none => rfl
  | some h => rw [h]

theorem rel_refl {Q : β → β → Prop} (h : ∀ v, Q v v) (a : Option β) : Option.Rel Q a a :=
  match a with
  | none => .none
  | some v => .some (h v)

theorem rel_of_eq {a b : Option β} (h : a = b) : Option.Rel Eq a b :=
  h ▸ rel_refl (fun _ => rfl) a

theorem rel_bind {a : Option β} {b : Option β'} (h : Option.Rel R a b) {f : β → Option γ}
    {g : β' → Option γ'} (hfg : ∀ v w, R v w → Option.Rel S (f v) (g w)) :
    Option.Rel S (a.bind f) (b.bind g) := by
  cases h with
  | none => exact .none
  | some h => exact hfg _ _ h

end Related

/-! ## Keys -/

/-- The keys of a map count without their colons. -/
def plainKeys {V : Type} (fs : List (String × V)) : List String :=
  fs.map fun e => stripKeyword e.1

theorem mem_plainKeys {V : Type} {fs : List (String × V)} {key : String} :
    key ∈ plainKeys fs ↔ ∃ e ∈ fs, stripKeyword e.1 = key := List.mem_map

/-- The same keys with some of them spelt as keywords, in whatever order, none in two spellings. -/
structure SameKeys {V : Type} (fs gs : List (String × V)) : Prop where
  left : (plainKeys fs).Nodup
  right : (plainKeys gs).Nodup
  forth : ∀ e ∈ fs, ∃ w ∈ gs, Spelt e.1 w.1
  back : ∀ w ∈ gs, ∃ e ∈ fs, Spelt e.1 w.1

instance {V : Type} (fs gs : List (String × V)) : Decidable (SameKeys fs gs) :=
  decidable_of_iff ((plainKeys fs).Nodup ∧ (plainKeys gs).Nodup ∧
      (∀ e ∈ fs, ∃ w ∈ gs, Spelt e.1 w.1) ∧ ∀ w ∈ gs, ∃ e ∈ fs, Spelt e.1 w.1)
    ⟨fun ⟨left, right, forth, back⟩ => ⟨left, right, forth, back⟩,
      fun ⟨left, right, forth, back⟩ => ⟨left, right, forth, back⟩⟩

theorem SameKeys.mem_plainKeys_iff {V : Type} {fs gs : List (String × V)} (h : SameKeys fs gs)
    (key : String) : key ∈ plainKeys fs ↔ key ∈ plainKeys gs := by
  simp only [mem_plainKeys]
  constructor
  · rintro ⟨e, he, rfl⟩
    obtain ⟨w, hw, hspelt⟩ := h.forth e he
    exact ⟨w, hw, hspelt.stripKeyword_eq⟩
  · rintro ⟨w, hw, rfl⟩
    obtain ⟨e, he, hspelt⟩ := h.back w hw
    exact ⟨e, he, hspelt.stripKeyword_eq.symm⟩

/-- The same keys, with values that are related key by key. -/
structure Rekeyed {V : Type} (R : String → V → V → Prop) (fs gs : List (String × V)) : Prop where
  keys : SameKeys fs gs
  values : ∀ e ∈ fs, ∀ w ∈ gs, stripKeyword e.1 = stripKeyword w.1 →
    R (stripKeyword e.1) e.2 w.2

/-! ## Contexts -/

namespace Context

theorem get?_merge_of_not_mem {overlay : Fields} {key : String} (h : key ∉ plainKeys overlay)
    (c : Context) : (c.merge overlay).get? key = c.get? key := by
  induction overlay generalizing c with
  | nil => rfl
  | cons entry overlay ih =>
    obtain ⟨hne, hrest⟩ := List.ne_and_not_mem_of_not_mem_cons h
    exact (ih hrest _).trans (Fields.get?_insert_of_ne hne entry.2 c.attrs)

/-- Of distinct keys, each shows its own value. -/
theorem get?_merge_of_mem {overlay : Fields} (hdistinct : (plainKeys overlay).Nodup)
    {e : String × Json} (he : e ∈ overlay) (c : Context) :
    (c.merge overlay).get? (stripKeyword e.1) = some e.2 := by
  induction overlay generalizing c with
  | nil => cases he
  | cons entry overlay ih =>
    obtain ⟨hnew, hrest⟩ := List.nodup_cons.mp hdistinct
    rcases List.mem_cons.mp he with rfl | he
    · exact (get?_merge_of_not_mem hnew _).trans (Fields.get?_insert_self _ e.2 c.attrs)
    · exact ih hrest he _

/-- Contexts that show related values, or both none, under every key. -/
def Rel (R : String → Json → Json → Prop) (c d : Context) : Prop :=
  ∀ key, Option.Rel (R key) (c.get? key) (d.get? key)

variable {R : String → Json → Json → Prop} {c d : Context}

theorem Rel.refl (h : ∀ key v, R key v v) (c : Context) : Rel R c c := fun key =>
  rel_refl (h key) (c.get? key)

theorem Rel.merge (h : Rel R c d) {fs gs : Fields} (hmaps : Rekeyed R fs gs) :
    Rel R (c.merge fs) (d.merge gs) := by
  intro key
  by_cases hkey : key ∈ plainKeys fs
  · obtain ⟨e, he, rfl⟩ := mem_plainKeys.mp hkey
    obtain ⟨w, hw, hname⟩ := mem_plainKeys.mp ((hmaps.keys.mem_plainKeys_iff _).mp hkey)
    have hshown := get?_merge_of_mem hmaps.keys.right hw d
    rw [hname] at hshown
    rw [get?_merge_of_mem hmaps.keys.left he, hshown]
    exact .some (hmaps.values e he w hw hname.symm)
  · rw [get?_merge_of_not_mem hkey,
      get?_merge_of_not_mem (mt (hmaps.keys.mem_plainKeys_iff key).mpr hkey)]
    exact h key

/-- The same attributes are laid over both. -/
theorem Rel.merge_same (h : Rel R c d) (hrefl : ∀ key v, R key v v) (overlay : Fields) :
    Rel R (c.merge overlay) (d.merge overlay) := by
  intro key
  rcases get?_merge_eq key overlay with hsame | ⟨v, -, hshown⟩
  · rw [hsame, hsame]
    exact h key
  · rw [hshown, hshown]
    exact .some (hrefl key v)

theorem Rel.without (h : Rel R c d) (keys : List String) :
    Rel R (c.without keys) (d.without keys) := by
  intro key
  by_cases hkey : key ∈ keys
  · rw [get?_without_of_mem hkey, get?_without_of_mem hkey]
    exact .none
  · rw [get?_without_of_not_mem hkey, get?_without_of_not_mem hkey]
    exact h key

end Context

/-! ## Maps without their colons -/

theorem normalizeKeys_eq (fs : Fields) : normalizeKeys fs = (Context.empty.merge fs).attrs := by
  simp [normalizeKeys, Fields.ofList, Context.merge, Context.empty, List.foldl_map]

theorem sorted_normalizeKeys (fs : Fields) : Fields.Sorted (normalizeKeys fs) := by
  rw [normalizeKeys_eq]
  exact sorted_merge List.Pairwise.nil fs

theorem Rekeyed.normalizeKeys {R : String → Json → Json → Prop} {fs gs : Fields}
    (h : Rekeyed R fs gs) (key : String) :
    Option.Rel (R key) (Fields.get? key (normalizeKeys fs))
      (Fields.get? key (normalizeKeys gs)) := by
  have hempty : Context.Rel R Context.empty Context.empty := fun _ => .none
  rw [normalizeKeys_eq, normalizeKeys_eq]
  exact hempty.merge h key

/-- Maps with equal values are the same without their colons. -/
theorem Rekeyed.normalizeKeys_eq {fs gs : Fields} (h : Rekeyed (fun _ => Eq) fs gs) :
    Style.normalizeKeys fs = Style.normalizeKeys gs := by
  refine (sorted_normalizeKeys fs).ext (sorted_normalizeKeys gs) fun key => ?_
  exact eq_of_rel (h.normalizeKeys key)

end Folio.Style
