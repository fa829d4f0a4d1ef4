import Mathlib.Data.List.Induction
import Mathlib.Data.List.Nodup
import Folio.Proofs.Style.Contexts

/-!
# The order in which classes are put into a sheet

A sheet shows under a name what the last class of that name has, and a name counts without its
colon. So the order matters exactly if two of the classes are one name in its two spellings and do
not have the same attributes.
-/
namespace Folio.Style

namespace Sheet

/-- The same classes with the same attributes: their order in the table is not looked at. -/
def Same (a b : Sheet) : Prop := a.classes.Perm b.classes

theorem Same.rfl {sheet : Sheet} : Same sheet sheet := List.Perm.refl _

/-! ## Tables -/

theorem map_fst_put (name : String) (attrs : Fields) (classes : List (String × Fields)) :
    (put name attrs classes).map Prod.fst =
      if name ∈ classes.map Prod.fst then classes.map Prod.fst
      else classes.map Prod.fst ++ [name] := by
  induction classes with
  | nil => rfl
  | cons entry rest ih =>
    obtain ⟨k, v⟩ := entry
    by_cases hk : k = name
    · simp [put, hk]
    · have hne : ¬ name = k := fun h => hk h.symm
      simp only [put, beq_iff_eq, hk, ↓reduceIte, List.map_cons, ih, List.mem_cons, hne, false_or]
      split <;> rfl

theorem find?_put (name other : String) (attrs : Fields) (classes : List (String × Fields)) :
    ((put name attrs classes).find? (·.1 == other)).map Prod.snd =
      if name = other then some attrs else (classes.find? (·.1 == other)).map Prod.snd := by
  induction classes with
  | nil => by_cases h : name = other <;> simp [put, h]
  | cons entry rest ih =>
    obtain ⟨k, v⟩ := entry
    by_cases hk : k = name
    · subst hk
      by_cases h : k = other <;> simp [put, h]
    · by_cases ho : k = other
      · subst ho
        simp [put, hk, Ne.symm hk]
      · simpa [put, hk, ho] using ih

/-- Each class stands in the table once. -/
def Distinct (sheet : Sheet) : Prop := (sheet.classes.map Prod.fst).Nodup

theorem Distinct.insert {sheet : Sheet} (h : sheet.Distinct) (name : String) (attrs : Fields) :
    (sheet.insert name attrs).Distinct := by
  unfold Distinct Sheet.insert
  rw [map_fst_put]
  split
  · exact h
  · next hnew =>
    refine List.nodup_append.mpr ⟨h, List.nodup_singleton _, fun a ha b hb => ?_⟩
    rintro rfl
    exact hnew (List.mem_singleton.mp hb ▸ ha)

theorem ofEntries_append (entries : List (String × Fields)) (entry : String × Fields) :
    ofEntries (entries ++ [entry]) = (ofEntries entries).insert entry.1 entry.2 := by
  simp [ofEntries]

theorem distinct_ofEntries (entries : List (String × Fields)) : (ofEntries entries).Distinct := by
  induction entries using List.reverseRecOn with
  | nil => exact List.nodup_nil
  | append_singleton entries entry ih =>
    rw [ofEntries_append]
    exact ih.insert entry.1 entry.2

/-- The attributes of a class are those of the last entry of its name. -/
theorem get?_ofEntries (entries : List (String × Fields)) (name : String) :
    (ofEntries entries).get? name =
      (entries.reverse.find? fun e => stripKeyword e.1 == stripKeyword name).map fun e =>
        normalizeKeys e.2 := by
  induction entries using List.reverseRecOn with
  | nil => rfl
  | append_singleton entries entry ih =>
    rw [ofEntries_append, List.reverse_append, List.reverse_singleton, List.singleton_append]
    unfold get? Sheet.insert
    rw [find?_put]
    by_cases h : stripKeyword entry.1 = stripKeyword name
    · simp [h]
    · rw [if_neg h, List.find?_cons_of_neg (by simpa using h), ← ih]
      rfl

/-! ## Looking a class up -/

theorem Distinct.mem_iff {sheet : Sheet} (h : sheet.Distinct) (entry : String × Fields) :
    entry ∈ sheet.classes ↔ sheet.get? (":" ++ entry.1) = some entry.2 := by
  unfold get?
  rw [stripKeyword_colon]
  refine ⟨fun hmem => ?_, fun hget => ?_⟩
  · have hfound : (sheet.classes.find? (·.1 == entry.1)).isSome :=
      List.find?_isSome.mpr ⟨entry, hmem, beq_self_eq_true _⟩
    obtain ⟨found, hfind⟩ := Option.isSome_iff_exists.mp hfound
    have hname : found.1 = entry.1 := by simpa using List.find?_some hfind
    have hsame : found = entry :=
      List.inj_on_of_nodup_map h (List.mem_of_find?_eq_some hfind) hmem hname
    rw [hfind, hsame]
    rfl
  · obtain ⟨found, hfind, hattrs⟩ := Option.map_eq_some_iff.mp hget
    have hname : found.1 = entry.1 := by simpa using List.find?_some hfind
    rw [← Prod.ext hname hattrs]
    exact List.mem_of_find?_eq_some hfind

/-- Sheets are the same if they show the same under every name. -/
theorem same_iff {a b : Sheet} (ha : a.Distinct) (hb : b.Distinct) :
    Same a b ↔ ∀ name, a.get? name = b.get? name := by
  refine ⟨fun h name => ?_, fun h => ?_⟩
  · refine Option.ext fun attrs => ?_
    have hentry := h.mem_iff (a := (stripKeyword name, attrs))
    rw [ha.mem_iff, hb.mem_iff] at hentry
    simpa [get?, stripKeyword_colon] using hentry
  · have hnodup {sheet : Sheet} (hs : sheet.Distinct) : sheet.classes.Nodup :=
      List.Nodup.of_map _ hs
    refine (List.perm_ext_iff_of_nodup (hnodup ha) (hnodup hb)).mpr fun entry => ?_
    rw [ha.mem_iff, hb.mem_iff, h]

end Sheet

theorem resolve_congr_sheet {a b : Sheet} (h : ∀ name, a.get? name = b.get? name)
    (ambient : Context) (classes : List String) (inlined : Option Fields) :
    resolve ambient a classes inlined = resolve ambient b classes inlined := by
  unfold resolve
  simp only [h]

/-! ## Orders -/

namespace Sheet

variable {entries : List (String × Fields)}

/-- What an order of the entries shows is what one of them has. -/
theorem exists_mem_of_get?_ofEntries {name : String} {attrs : Fields}
    (h : (ofEntries entries).get? name = some attrs) :
    ∃ e ∈ entries, stripKeyword e.1 = stripKeyword name ∧ normalizeKeys e.2 = attrs := by
  rw [get?_ofEntries] at h
  obtain ⟨e, hfind, hattrs⟩ := Option.map_eq_some_iff.mp h
  exact ⟨e, List.mem_reverse.mp (List.mem_of_find?_eq_some hfind),
    by simpa using List.find?_some hfind, hattrs⟩

theorem isSome_get?_ofEntries (name : String) :
    ((ofEntries entries).get? name).isSome ↔
      ∃ e ∈ entries, stripKeyword e.1 = stripKeyword name := by
  rw [get?_ofEntries, Option.isSome_map, List.find?_isSome]
  simp

theorem exists_perm_append_singleton {e : String × Fields} (h : e ∈ entries) :
    ∃ rest, (rest ++ [e]).Perm entries := by
  obtain ⟨before, after, rfl⟩ := List.append_of_mem h
  exact ⟨before ++ after, (List.perm_append_singleton e _).trans List.perm_middle.symm⟩

theorem get?_ofEntries_perm {first second : List (String × Fields)} (hperm : first.Perm second)
    (hagree : ∀ e ∈ first, ∀ e' ∈ first, stripKeyword e.1 = stripKeyword e'.1 →
      normalizeKeys e.2 = normalizeKeys e'.2) (name : String) :
    (ofEntries first).get? name = (ofEntries second).get? name := by
  have hsome : ((ofEntries first).get? name).isSome ↔ ((ofEntries second).get? name).isSome := by
    rw [isSome_get?_ofEntries, isSome_get?_ofEntries]
    simp only [hperm.mem_iff]
  cases hfirst : (ofEntries first).get? name with
  | none =>
    rw [hfirst] at hsome
    exact (Option.not_isSome_iff_eq_none.mp (mt hsome.mpr Bool.noConfusion)).symm
  | some attrs =>
    rw [hfirst] at hsome
    obtain ⟨attrs', hsecond⟩ := Option.isSome_iff_exists.mp (hsome.mp rfl)
    obtain ⟨e, he, hname, rfl⟩ := exists_mem_of_get?_ofEntries hfirst
    obtain ⟨e', he', hname', rfl⟩ := exists_mem_of_get?_ofEntries hsecond
    rw [hsecond, hagree e he e' (hperm.mem_iff.mpr he') (hname.trans hname'.symm)]

/-- An entry that is put in last is what its class has. -/
theorem get?_ofEntries_last (e : String × Fields) :
    (ofEntries (entries ++ [e])).get? e.1 = some (normalizeKeys e.2) := by
  rw [get?_ofEntries]
  simp

/-- The order in which classes are put into a sheet is without effect, on the sheet and on every
context that it gives, exactly if entries that are one class have the same attributes. -/
theorem ofEntries_perm_iff (entries : List (String × Fields)) :
    (∀ first second, first.Perm entries → second.Perm entries →
      Same (ofEntries first) (ofEntries second) ∧
        ∀ ambient classes inlined, resolve ambient (ofEntries first) classes inlined =
          resolve ambient (ofEntries second) classes inlined) ↔
      ∀ e ∈ entries, ∀ e' ∈ entries, stripKeyword e.1 = stripKeyword e'.1 →
        normalizeKeys e.2 = normalizeKeys e'.2 := by
  constructor
  · intro h e he e' he' hname
    -- each of the two is put in last
    obtain ⟨rest, hfirst⟩ := exists_perm_append_singleton he
    obtain ⟨rest', hsecond⟩ := exists_perm_append_singleton he'
    have hsame := (same_iff (distinct_ofEntries _) (distinct_ofEntries _)).mp
      (h _ _ hfirst hsecond).1 e.1
    have hshown : (ofEntries (rest' ++ [e'])).get? e.1 = some (normalizeKeys e'.2) := by
      unfold get?
      rw [hname]
      exact get?_ofEntries_last e'
    rw [get?_ofEntries_last, hshown] at hsame
    exact Option.some.inj hsame
  · intro h first second hfirst hsecond
    have hget := get?_ofEntries_perm (hfirst.trans hsecond.symm) fun e he e' he' =>
      h e (hfirst.mem_iff.mp he) e' (hfirst.mem_iff.mp he')
    exact ⟨(same_iff (distinct_ofEntries first) (distinct_ofEntries second)).mpr hget,
      resolve_congr_sheet hget⟩

/-- A class in its two spellings: which of them counts is a matter of the order. -/
theorem ofEntries_twoSpellings :
    ¬ (∀ entries first second : List (String × Fields), (entries.map Prod.fst).Nodup →
      first.Perm entries → second.Perm entries →
      Same (ofEntries first) (ofEntries second) ∧
        ∀ ambient classes inlined, resolve ambient (ofEntries first) classes inlined =
          resolve ambient (ofEntries second) classes inlined) := by
  intro h
  have hsame := (h [("a", []), (":a", [("size", .null)])] [("a", []), (":a", [("size", .null)])]
    [(":a", [("size", .null)]), ("a", [])] (by decide) (List.Perm.refl _) (List.Perm.swap _ _ _)).2
    Context.empty ["a"] none
  cases hsame

end Sheet

end Folio.Style
