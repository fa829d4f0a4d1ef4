import Folio.Proofs.Style.Contexts

/-!
# What children inherit

A context is a map, with its keys in strictly rising order, and stays one when attributes are laid
over it. Maps that show the same under every key are the same, so two contexts that agree on all
that is not local have the same font and leave the same to what stands inside.
-/
namespace Folio

/-! ## Maps -/

namespace Fields

theorem Sorted.insert {fs : Fields} (h : Sorted fs) (key : String) (value : Json) :
    Sorted (Fields.insert key value fs) := by
  induction fs with
  | nil => exact List.pairwise_singleton _ _
  | cons entry fs ih =>
    obtain ⟨k, v⟩ := entry
    obtain ⟨hhead, htail⟩ := List.pairwise_cons.mp h
    simp only [Fields.insert]
    by_cases hsame : key = k
    · simp only [hsame, beq_self_eq_true, ↓reduceIte]
      exact List.pairwise_cons.mpr ⟨hhead, htail⟩
    · by_cases hless : key < k
      · simp only [beq_iff_eq, hsame, ↓reduceIte, hless]
        refine List.pairwise_cons.mpr ⟨fun e he => ?_, h⟩
        rcases List.mem_cons.mp he with rfl | he
        · exact hless
        · exact String.lt_trans hless (hhead e he)
      · simp only [beq_iff_eq, hsame, ↓reduceIte, hless]
        refine List.pairwise_cons.mpr ⟨fun e he => ?_, ih htail⟩
        rcases Style.mem_insert he with rfl | he
        · exact Std.lt_of_le_of_ne (String.not_lt.mp hless) (Ne.symm hsame)
        · exact hhead e he

theorem Sorted.filter {fs : Fields} (h : Sorted fs) (p : String × Json → Bool) :
    Sorted (fs.filter p) := List.Pairwise.filter p h

theorem Sorted.nodup {fs : Fields} (h : Sorted fs) : fs.Nodup := by
  refine List.Pairwise.imp ?_ h
  rintro a _ hless rfl
  exact String.lt_irrefl _ hless

theorem Sorted.mem_iff {fs : Fields} (h : Sorted fs) (key : String) (v : Json) :
    (key, v) ∈ fs ↔ get? key fs = some v := by
  refine ⟨fun hmem => ?_, Style.mem_of_get?⟩
  induction fs with
  | nil => cases hmem
  | cons entry fs ih =>
    obtain ⟨k, w⟩ := entry
    obtain ⟨hhead, htail⟩ := List.pairwise_cons.mp h
    rw [get?_cons]
    rcases List.mem_cons.mp hmem with heq | hmem
    · cases heq
      simp
    · have hne : k ≠ key := by
        intro heq
        have hless : k < key := hhead _ hmem
        exact String.lt_irrefl _ (heq ▸ hless)
      simpa [hne] using ih htail hmem

/-- Leaving out other keys changes nothing. -/
theorem get?_filter {p : String × Json → Bool} {key : String} (h : ∀ v, p (key, v)) (fs : Fields) :
    get? key (fs.filter p) = get? key fs := by
  induction fs with
  | nil => rfl
  | cons entry fs ih =>
    obtain ⟨k, v⟩ := entry
    by_cases hk : k = key
    · subst hk
      rw [List.filter_cons_of_pos (h v), get?_cons, get?_cons]
      simp
    · by_cases hp : p (k, v)
      · rw [List.filter_cons_of_pos hp, get?_cons, get?_cons, ih]
      · rw [List.filter_cons_of_neg hp, get?_cons, ih]
        simp [hk]

/-- Two maps that show the same are the same. -/
theorem Sorted.ext {fs gs : Fields} (hf : Sorted fs) (hg : Sorted gs)
    (h : ∀ key, get? key fs = get? key gs) : fs = gs := by
  have hperm : fs.Perm gs := by
    refine (List.perm_ext_iff_of_nodup hf.nodup hg.nodup).mpr fun entry => ?_
    rw [hf.mem_iff, hg.mem_iff, h]
  refine hperm.eq_of_pairwise (fun a b _ _ hab hba => ?_) hf hg
  exact absurd hba (String.lt_asymm hab)

end Fields

namespace Style

/-! ## Contexts that are maps -/

theorem sorted_merge {c : Context} (h : Fields.Sorted c.attrs) (overlay : Fields) :
    Fields.Sorted (c.merge overlay).attrs := by
  induction overlay generalizing c with
  | nil => exact h
  | cons entry overlay ih => exact ih (h.insert (stripKeyword entry.1) entry.2)

theorem sorted_resolve {c : Context} (h : Fields.Sorted c.attrs) (sheet : Sheet)
    (classes : List String) (inlined : Option Fields) :
    Fields.Sorted (resolve c sheet classes inlined).attrs := by
  induction classes generalizing c with
  | nil =>
    cases inlined with
    | none => exact h
    | some attrs => exact sorted_merge h attrs
  | cons name classes ih =>
    refine ih ?_
    simp only
    split
    · exact sorted_merge h _
    · exact h

namespace Context

theorem get?_without_of_not_mem {keys : List String} {key : String} (h : key ∉ keys) (c : Context) :
    (c.without keys).get? key = c.get? key :=
  Fields.get?_filter (by simpa using h) c.attrs

/-- Two maps that agree on all that is not local. -/
structure Agree (c d : Context) : Prop where
  left : Fields.Sorted c.attrs
  right : Fields.Sorted d.attrs
  get? : ∀ key ∉ localAttributes, c.get? key = d.get? key

namespace Agree

variable {c d : Context}

theorem merge (h : Agree c d) (overlay : Fields) : Agree (c.merge overlay) (d.merge overlay) where
  left := sorted_merge h.left overlay
  right := sorted_merge h.right overlay
  get? key hkey := get?_merge_congr (h.get? key hkey) overlay

theorem without (h : Agree c d) (keys : List String) : Agree (c.without keys) (d.without keys) where
  left := h.left.filter _
  right := h.right.filter _
  get? key hkey := by
    by_cases hmem : key ∈ keys
    · rw [get?_without_of_mem hmem, get?_without_of_mem hmem]
    · rw [get?_without_of_not_mem hmem, get?_without_of_not_mem hmem, h.get? key hkey]

theorem fields? (h : Agree c d) {key : String} (hkey : key ∉ localAttributes) :
    c.fields? key = d.fields? key := by
  unfold Context.fields?
  rw [h.get? key hkey]

/-- What stands inside sees no difference. -/
theorem inheritable (h : Agree c d) : c.inheritable = d.inheritable := by
  have hattrs : (c.without localAttributes).attrs = (d.without localAttributes).attrs := by
    refine (h.left.filter _).ext (h.right.filter _) fun key => ?_
    by_cases hkey : key ∈ localAttributes
    · exact (get?_without_of_mem hkey c).trans (get?_without_of_mem hkey d).symm
    · exact (h.without localAttributes).get? key hkey
  exact congrArg Context.mk hattrs

theorem font {α : Type} [Scalar α] (h : Agree c d) :
    (Font.ofContext c : Except Color.Fault (Font α)) = Font.ofContext d := by
  have hshown {key : String} (hkey : key ∉ localAttributes) :
      Fields.get? key c.attrs = Fields.get? key d.attrs := h.get? key hkey
  unfold Font.ofContext Font.overriddenBy color? Context.get?
  rw [hshown (by decide), hshown (by decide), hshown (by decide), hshown (by decide)]

end Agree

end Context

end Style

end Folio
