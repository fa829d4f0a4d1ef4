import Folio.Proofs.Json.Inside
import Folio.Style.Font
import Folio.Style.Sheet

/-!
# What contexts show and hold

Two contexts that show the same under a key still do after the same attributes are laid over both,
and what the children of an element inherit shows nothing local. Every entry that an element has
comes from around it, from a class or from its own attributes. A colour that cuts through a
character is read from a context only if a text inside one of its attributes writes it.
-/
namespace Folio.Style

/-! ## Keys -/

namespace Context

theorem get?_merge_congr {c d : Context} {key : String} (h : c.get? key = d.get? key)
    (overlay : Fields) : (c.merge overlay).get? key = (d.merge overlay).get? key := by
  induction overlay generalizing c d with
  | nil => exact h
  | cons entry overlay ih =>
    refine ih (c := ⟨Fields.insert (stripKeyword entry.1) entry.2 c.attrs⟩)
      (d := ⟨Fields.insert (stripKeyword entry.1) entry.2 d.attrs⟩) ?_
    by_cases hkey : key = stripKeyword entry.1
    · simp [get?, hkey]
    · have hc := Fields.get?_insert_of_ne hkey entry.2 c.attrs
      have hd := Fields.get?_insert_of_ne hkey entry.2 d.attrs
      exact hc.trans (h.trans hd.symm)

/-- Attributes laid over a context show their own or leave what was there. -/
theorem get?_merge_eq (key : String) (overlay : Fields) :
    (∀ c : Context, (c.merge overlay).get? key = c.get? key) ∨
      ∃ v, (∃ entry ∈ overlay, entry.2 = v) ∧
        ∀ c : Context, (c.merge overlay).get? key = some v := by
  induction overlay with
  | nil => exact .inl fun c => rfl
  | cons entry overlay ih =>
    have hcons (c : Context) : c.merge (entry :: overlay) =
        merge ⟨Fields.insert (stripKeyword entry.1) entry.2 c.attrs⟩ overlay := rfl
    rcases ih with hrest | ⟨v, ⟨found, hmem, hv⟩, hrest⟩
    · by_cases hkey : key = stripKeyword entry.1
      · refine .inr ⟨entry.2, ⟨entry, List.mem_cons_self, rfl⟩, fun c => ?_⟩
        rw [hcons, hrest]
        simp [get?, hkey]
      · refine .inl fun c => ?_
        rw [hcons, hrest]
        exact Fields.get?_insert_of_ne hkey entry.2 c.attrs
    · refine .inr ⟨v, ⟨found, List.mem_cons_of_mem entry hmem, hv⟩, fun c => ?_⟩
      rw [hcons, hrest]

theorem get?_without_of_mem {keys : List String} {key : String} (h : key ∈ keys) (c : Context) :
    (c.without keys).get? key = none := by
  obtain ⟨attrs⟩ := c
  change Fields.get? key (attrs.filter fun entry => !keys.contains entry.1) = none
  induction attrs with
  | nil => rfl
  | cons entry attrs ih =>
    obtain ⟨k, v⟩ := entry
    by_cases hk : k ∈ keys
    · simpa [hk] using ih
    · have hne : k ≠ key := fun he => hk (he ▸ h)
      simpa [hk, Fields.get?_cons, hne] using ih

end Context

theorem get?_resolve_congr {c d : Context} {key : String} (h : c.get? key = d.get? key)
    (sheet : Sheet) (classes : List String) (inlined : Option Fields) :
    (resolve c sheet classes inlined).get? key = (resolve d sheet classes inlined).get? key := by
  induction classes generalizing c d with
  | nil =>
    cases inlined with
    | none => exact h
    | some attrs => exact Context.get?_merge_congr h attrs
  | cons name classes ih =>
    refine ih ?_
    simp only
    split
    · exact Context.get?_merge_congr h _
    · exact h

/-! ## Entries -/

theorem mem_of_get? {key : String} {fs : Fields} {v : Json} (h : Fields.get? key fs = some v) :
    (key, v) ∈ fs := by
  induction fs with
  | nil => cases h
  | cons e fs ih =>
    obtain ⟨k, w⟩ := e
    rw [Fields.get?_cons] at h
    split at h
    · next hkey =>
      have hsame : k = key := by simpa using hkey
      rw [hsame, Option.some.inj h]
      exact List.mem_cons_self
    · exact List.mem_cons_of_mem _ (ih h)

theorem mem_insert {key : String} {value : Json} {fs : Fields} {e : String × Json}
    (h : e ∈ Fields.insert key value fs) : e = (key, value) ∨ e ∈ fs := by
  induction fs with
  | nil => exact .inl (by simpa [Fields.insert] using h)
  | cons entry fs ih =>
    obtain ⟨k, v⟩ := entry
    simp only [Fields.insert] at h
    split at h
    · rcases List.mem_cons.mp h with h | h
      · exact .inl h
      · exact .inr (List.mem_cons_of_mem _ h)
    · split at h
      · rcases List.mem_cons.mp h with h | h
        · exact .inl h
        · exact .inr h
      · rcases List.mem_cons.mp h with h | h
        · exact .inr (by simp [h])
        · exact (ih h).imp_right (List.mem_cons_of_mem _)

/-- An entry laid over a context keeps its value, under a key without a colon. -/
theorem mem_merge {c : Context} {overlay : Fields} {e : String × Json}
    (h : e ∈ (c.merge overlay).attrs) : e ∈ c.attrs ∨ ∃ entry ∈ overlay, entry.2 = e.2 := by
  induction overlay generalizing c with
  | nil => exact .inl h
  | cons entry overlay ih =>
    rcases ih (c := ⟨Fields.insert (stripKeyword entry.1) entry.2 c.attrs⟩) h with h | h
    · rcases mem_insert h with rfl | h
      · exact .inr ⟨entry, List.mem_cons_self, rfl⟩
      · exact .inl h
    · obtain ⟨found, hfound, hvalue⟩ := h
      exact .inr ⟨found, List.mem_cons_of_mem _ hfound, hvalue⟩

theorem mem_without {c : Context} {keys : List String} {e : String × Json}
    (h : e ∈ (c.without keys).attrs) : e ∈ c.attrs := (List.mem_filter.mp h).1

theorem Sheet.mem_of_get? {sheet : Sheet} {name : String} {attrs : Fields}
    (h : sheet.get? name = some attrs) : (stripKeyword name, attrs) ∈ sheet.classes := by
  unfold Sheet.get? at h
  obtain ⟨entry, hfind, rfl⟩ := Option.map_eq_some_iff.mp h
  have hname : entry.1 = stripKeyword name := by simpa using List.find?_some hfind
  rw [← hname]
  exact List.mem_of_find?_eq_some hfind

/-- What an element shows comes from around it, from a class or from its own attributes. -/
theorem mem_resolve {c : Context} {sheet : Sheet} {classes : List String}
    {inlined : Option Fields} {e : String × Json}
    (h : e ∈ (resolve c sheet classes inlined).attrs) :
    e ∈ c.attrs ∨ (∃ named ∈ sheet.classes, ∃ entry ∈ named.2, entry.2 = e.2) ∨
      ∃ entry ∈ inlined.getD [], entry.2 = e.2 := by
  induction classes generalizing c with
  | nil =>
    cases inlined with
    | none => exact .inl h
    | some attrs => exact (mem_merge h).imp_right .inr
  | cons name classes ih =>
    rcases ih h with h | h
    · simp only at h
      split at h
      · next attrs hget =>
        rcases mem_merge h with h | h
        · exact .inl h
        · exact .inr (.inl ⟨_, Sheet.mem_of_get? hget, h⟩)
      · exact .inl h
    · exact .inr h

/-- What holds of all values around an element and of all that are laid over them holds of all that
it sees. -/
theorem forall_mem_merge {P : Json → Prop} {c : Context} (h : ∀ e ∈ c.attrs, P e.2)
    {overlay : Fields} (hoverlay : ∀ e ∈ overlay, P e.2) : ∀ e ∈ (c.merge overlay).attrs, P e.2 := by
  intro e he
  rcases mem_merge he with he | ⟨entry, hentry, hvalue⟩
  · exact h e he
  · exact hvalue ▸ hoverlay entry hentry

theorem forall_mem_resolve {P : Json → Prop} {c : Context} (h : ∀ e ∈ c.attrs, P e.2)
    {sheet : Sheet} (hsheet : ∀ named ∈ sheet.classes, ∀ e ∈ named.2, P e.2)
    (classes : List String) {inlined : Option Fields} (hinlined : ∀ e ∈ inlined.getD [], P e.2) :
    ∀ e ∈ (resolve c sheet classes inlined).attrs, P e.2 := by
  intro e he
  rcases mem_resolve he with he | ⟨named, hnamed, entry, hentry, hvalue⟩ | ⟨entry, hentry, hvalue⟩
  · exact h e he
  · exact hvalue ▸ hsheet named hnamed entry hentry
  · exact hvalue ▸ hinlined entry hentry

/-! ## Colours -/

mutual

/-- Does a text inside the value write a colour that cuts through a character? -/
def cutsColor : Json → Bool
  | .string s =>
    match Color.ofHex s with
    | .error _ => true
    | .ok _ => false
  | .array items => cutsColorItems items
  | .object fields => cutsColorFields fields
  | _ => false

def cutsColorItems : List Json → Bool
  | [] => false
  | x :: xs => cutsColor x || cutsColorItems xs

def cutsColorFields : Fields → Bool
  | [] => false
  | (_, x) :: fs => cutsColor x || cutsColorFields fs

end

theorem cutsColorItems_iff (xs : List Json) : cutsColorItems xs ↔ ∃ x ∈ xs, cutsColor x := by
  induction xs with
  | nil => simp [cutsColorItems]
  | cons x xs ih => simp [cutsColorItems, ih]

theorem cutsColorFields_iff (fs : Fields) : cutsColorFields fs ↔ ∃ e ∈ fs, cutsColor e.2 := by
  induction fs with
  | nil => simp [cutsColorFields]
  | cons e fs ih =>
    obtain ⟨k, v⟩ := e
    simp [cutsColorFields, ih]

theorem cutsColor_of_inside {x y : Json} (h : Inside x y) (hcut : cutsColor x) : cutsColor y := by
  induction h with
  | item h => exact (cutsColorItems_iff _).mpr ⟨_, h, hcut⟩
  | field h hx =>
    rw [← hx] at hcut
    exact (cutsColorFields_iff _).mpr ⟨_, h, hcut⟩
  | trans _ _ ih ik => exact ik (ih hcut)

theorem cutsColorFields_of_get? {key : String} {fs : Fields} {v : Json}
    (h : Fields.get? key fs = some v) (hv : cutsColor v) : cutsColorFields fs :=
  (cutsColorFields_iff fs).mpr ⟨(key, v), mem_of_get? h, hv⟩

theorem cutsColorFields_merge {c : Context} {overlay : Fields}
    (h : cutsColorFields (c.merge overlay).attrs) :
    cutsColorFields c.attrs ∨ cutsColorFields overlay := by
  obtain ⟨e, he, hcut⟩ := (cutsColorFields_iff _).mp h
  rcases mem_merge he with he | ⟨entry, hentry, hvalue⟩
  · exact .inl ((cutsColorFields_iff _).mpr ⟨e, he, hcut⟩)
  · exact .inr ((cutsColorFields_iff _).mpr ⟨entry, hentry, by rwa [hvalue]⟩)

theorem cutsColorFields_without {c : Context} {keys : List String}
    (h : cutsColorFields (c.without keys).attrs) : cutsColorFields c.attrs := by
  obtain ⟨e, he, hcut⟩ := (cutsColorFields_iff _).mp h
  exact (cutsColorFields_iff _).mpr ⟨e, mem_without he, hcut⟩

/-- A colour is cut by the classes of a sheet. -/
def Sheet.CutsColor (sheet : Sheet) : Prop := ∃ c ∈ sheet.classes, cutsColorFields c.2

theorem cutsColorFields_resolve {c : Context} {sheet : Sheet} {classes : List String}
    {inlined : Option Fields} (h : cutsColorFields (resolve c sheet classes inlined).attrs) :
    cutsColorFields c.attrs ∨ sheet.CutsColor ∨ cutsColorFields (inlined.getD []) := by
  obtain ⟨e, he, hcut⟩ := (cutsColorFields_iff _).mp h
  rcases mem_resolve he with he | ⟨named, hnamed, entry, hentry, hvalue⟩ | ⟨entry, hentry, hvalue⟩
  · exact .inl ((cutsColorFields_iff _).mpr ⟨e, he, hcut⟩)
  · exact .inr (.inl ⟨named, hnamed, (cutsColorFields_iff _).mpr ⟨entry, hentry, by rwa [hvalue]⟩⟩)
  · exact .inr (.inr ((cutsColorFields_iff _).mpr ⟨entry, hentry, by rwa [hvalue]⟩))

/-- A colour that is read wrongly is inside the context. -/
theorem cutsColorFields_of_color? {c : Context} {key : String} {fault : Color.Fault}
    (h : c.color? key = .error fault) : cutsColorFields c.attrs := by
  unfold Context.color? at h
  split at h
  · next v hget =>
    refine cutsColorFields_of_get? hget ?_
    unfold Color.read at h
    split at h
    · cases h
    · next s =>
      unfold cutsColor
      rw [h]
    · cases h
  · cases h

/-- A font is read wrongly for its colour. -/
theorem cutsColorFields_of_font {α : Type} [Scalar α] {c : Context} {fault : Color.Fault}
    (h : (Font.ofContext c : Except Color.Fault (Font α)) = .error fault) :
    cutsColorFields c.attrs := by
  unfold Font.ofContext Font.overriddenBy at h
  cases hcolor : Context.color? ⟨c.attrs⟩ "color" with
  | error f => exact cutsColorFields_of_color? hcolor
  | ok color =>
    rw [hcolor] at h
    cases h

end Folio.Style
