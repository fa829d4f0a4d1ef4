import Folio.Node.Label
import Mathlib

/-!
# Labels in letters

Numbers are counted in capital letters without a nought: `A` to `Z` stand for one to twenty-six, and
`AA` for the next. Every row of capital letters but the empty one is written for one number, and of
two rows the longer one stands for the larger number, or the later one in the alphabet if they are
equally long. A label may be set in small letters and has a point behind it, and still belongs to
one number only.
-/
namespace Folio

/-! ## Letters and their places -/

/-- The letter of a digit, counted from nought. -/
def letter (d : Nat) : Char := Char.ofNat (65 + d)

theorem toNat_letter {d : Nat} (h : d < 26) : (letter d).toNat = 65 + d := by
  revert d
  decide

theorem isUpper_iff {c : Char} : c.isUpper ↔ 65 ≤ c.toNat ∧ c.toNat ≤ 90 := by
  simp [Char.isUpper, UInt32.le_iff_toNat_le, ← Char.toNat_val]

theorem isUpper_letter {d : Nat} (h : d < 26) : (letter d).isUpper := by
  rw [isUpper_iff, toNat_letter h]
  omega

theorem exists_letter {c : Char} (h : c.isUpper) : ∃ d < 26, letter d = c := by
  obtain ⟨hlow, hhigh⟩ := isUpper_iff.mp h
  refine ⟨c.toNat - 65, by omega, ?_⟩
  rw [letter, Nat.add_sub_cancel' hlow, Char.ofNat_toNat]

theorem letter_lt {d e : Nat} (hd : d < 26) (he : e < 26) : letter d < letter e ↔ d < e := by
  rw [Char.lt_def, UInt32.lt_iff_toNat_lt]
  change (letter d).toNat < (letter e).toNat ↔ d < e
  rw [toNat_letter hd, toNat_letter he]
  omega

@[simp] theorem alphabeticChars_zero : alphabeticChars 0 = [] := by
  rw [alphabeticChars, dif_pos rfl]

/-- A number with its last digit, which is never nought. -/
theorem alphabeticChars_place (n : Nat) {d : Nat} (h : d < 26) :
    alphabeticChars (26 * n + d + 1) = alphabeticChars n ++ [letter d] := by
  rw [alphabeticChars, dif_neg (by omega)]
  have hfront : (26 * n + d + 1 - 1) / 26 = n := by omega
  have hlast : (26 * n + d + 1 - 1) % 26 = d := by omega
  rw [hfront, hlast, letter]

theorem exists_place {n : Nat} (h : 0 < n) : ∃ m d, d < 26 ∧ n = 26 * m + d + 1 :=
  ⟨(n - 1) / 26, (n - 1) % 26, by omega, by omega⟩

/-- Induction on the digits of a number, from the front. -/
theorem place_induction {P : Nat → Prop} (zero : P 0)
    (place : ∀ n d, d < 26 → P n → P (26 * n + d + 1)) (n : Nat) : P n := by
  induction n using Nat.strong_induction_on with
  | _ n ih =>
    rcases Nat.eq_zero_or_pos n with rfl | hpos
    · exact zero
    · obtain ⟨m, d, hd, rfl⟩ := exists_place hpos
      exact place m d hd (ih m (by omega))

/-! ## Writing and reading -/

@[simp] theorem readAlphabetic_nil : readAlphabetic [] = 0 := rfl

@[simp] theorem readAlphabetic_concat (cs : List Char) (c : Char) :
    readAlphabetic (cs ++ [c]) = 26 * readAlphabetic cs + (c.toNat - 64) := by
  simp [readAlphabetic]

theorem isUpper_of_mem_alphabeticChars (n : Nat) : ∀ c ∈ alphabeticChars n, c.isUpper := by
  induction n using place_induction with
  | zero => simp
  | place n d hd ih =>
    rw [alphabeticChars_place n hd, List.forall_mem_append]
    exact ⟨ih, List.forall_mem_singleton.mpr (isUpper_letter hd)⟩

theorem readAlphabetic_alphabeticChars (n : Nat) : readAlphabetic (alphabeticChars n) = n := by
  induction n using place_induction with
  | zero => simp
  | place n d hd ih =>
    rw [alphabeticChars_place n hd, readAlphabetic_concat, ih, toNat_letter hd]
    omega

theorem alphabeticChars_readAlphabetic {cs : List Char} (h : ∀ c ∈ cs, c.isUpper) :
    alphabeticChars (readAlphabetic cs) = cs := by
  induction cs using List.reverseRecOn with
  | nil => simp
  | append_singleton cs c ih =>
    obtain ⟨hcs, hc⟩ := List.forall_mem_append.mp h
    obtain ⟨d, hd, rfl⟩ := exists_letter (hc c (List.mem_singleton_self c))
    have hvalue : 26 * readAlphabetic cs + (65 + d - 64) = 26 * readAlphabetic cs + d + 1 := by
      omega
    rw [readAlphabetic_concat, toNat_letter hd, hvalue, alphabeticChars_place _ hd, ih hcs]

/-! ## Order -/

theorem lex_append_of_length_eq {β : Type} {r : β → β → Prop} {s t : List β} (h : List.Lex r s t)
    (hlength : s.length = t.length) (u v : List β) : List.Lex r (s ++ u) (t ++ v) := by
  induction h with
  | nil => cases hlength
  | cons _ ih => exact .cons (ih (Nat.succ.inj hlength))
  | rel hr => exact .rel hr

/-- The order of two rows is not changed by one more letter behind each. -/
theorem shortlex_concat {β : Type} {r : β → β → Prop} {s t : List β} (h : List.Shortlex r s t)
    (x y : β) : List.Shortlex r (s ++ [x]) (t ++ [y]) := by
  rcases List.shortlex_def.mp h with hlength | ⟨hlength, hlex⟩
  · exact .of_length_lt (by simpa using hlength)
  · exact .of_lex (by simpa using hlength) (lex_append_of_length_eq hlex hlength [x] [y])

theorem shortlex_alphabeticChars {i : Nat} : ∀ {j : Nat}, i < j →
    List.Shortlex (· < ·) (alphabeticChars i) (alphabeticChars j) := by
  induction i using place_induction with
  | zero =>
    intro j h
    obtain ⟨b, e, he, rfl⟩ := exists_place h
    rw [alphabeticChars_place b he]
    exact .of_length_lt (by simp)
  | place a d hd ih =>
    intro j h
    obtain ⟨b, e, he, rfl⟩ := exists_place (Nat.zero_lt_of_lt h)
    rw [alphabeticChars_place a hd, alphabeticChars_place b he]
    rcases Nat.lt_or_ge a b with hab | hba
    · exact shortlex_concat (ih hab) _ _
    · obtain rfl : a = b := by omega
      have hlast : letter d < letter e := (letter_lt hd he).mpr (by omega)
      exact ((List.shortlex_singleton_iff _ _).mpr hlast).append_left _

/-! ## Labels -/

theorem toLower_inj {c d : Char} (hc : c.isUpper) (hd : d.isUpper) (h : c.toLower = d.toLower) :
    c = d := by
  have hlow {c : Char} (hc : c.isUpper) : c.toLower.toNat = c.toNat + 32 := by
    have hrange := isUpper_iff.mp hc
    rw [Char.toLower_eq_of_isUpper hc, Char.toNat_ofNat, if_pos (.inl (by omega))]
  have hnat : c.toNat + 32 = d.toNat + 32 := by rw [← hlow hc, ← hlow hd, h]
  exact Char.toNat_inj.mp (Nat.add_right_cancel hnat)

theorem map_toLower_inj {cs : List Char} (hcs : ∀ c ∈ cs, c.isUpper) : ∀ {ds : List Char},
    (∀ d ∈ ds, d.isUpper) → cs.map Char.toLower = ds.map Char.toLower → cs = ds := by
  induction cs with
  | nil => exact fun _ h => (List.map_eq_nil_iff.mp h.symm).symm
  | cons c cs ih =>
    intro ds hds h
    obtain ⟨d, ds, rfl, hd, htail⟩ := List.map_eq_cons_iff.mp h.symm
    obtain ⟨hc, hcs⟩ := List.forall_mem_cons.mp hcs
    obtain ⟨hd', hds⟩ := List.forall_mem_cons.mp hds
    rw [toLower_inj hc hd' hd.symm, ih hcs hds htail.symm]

/-- Capital letters tell a label apart from others, also when they are set as small ones. -/
theorem dotted_injOn (lowercase : Bool) :
    Set.InjOn (ListKind.dotted · lowercase) {s | ∀ c ∈ s.toList, c.isUpper} := by
  intro s hs t ht h
  have htext := (String.append_left_inj ".").mp h
  cases lowercase with
  | false => exact htext
  | true =>
    have hlower : s.toLower.toList = t.toLower.toList := congrArg String.toList htext
    rw [String.toLower, String.toLower, String.toList_map, String.toList_map] at hlower
    exact String.toList_inj.mp (map_toLower_inj hs ht hlower)

theorem toList_alphabetic (n : Nat) : (alphabetic n).toList = alphabeticChars n :=
  String.toList_ofList

theorem isUpper_of_mem_alphabetic (n : Nat) : ∀ c ∈ (alphabetic n).toList, c.isUpper := by
  rw [toList_alphabetic]
  exact isUpper_of_mem_alphabeticChars n

theorem alphabetic_injective : Function.Injective alphabetic := by
  intro m n h
  have hread := congrArg (fun s => readAlphabetic s.toList) h
  simpa [toList_alphabetic, readAlphabetic_alphabeticChars] using hread

/-- Labels in capital letters that differ still do when they are set as labels of items. -/
theorem dotted_injective {numeral : Nat → String} (h : Function.Injective numeral)
    (hletters : ∀ n, ∀ c ∈ (numeral n).toList, c.isUpper) (lowercase : Bool) :
    Function.Injective fun n => ListKind.dotted (numeral n) lowercase :=
  fun m n hmn => h (dotted_injOn lowercase (hletters m) (hletters n) hmn)

/-- Texts of one capital letter or more. -/
def letterings : Set String := {s | s ≠ "" ∧ ∀ c ∈ s.toList, c.isUpper}

theorem alphabetic_mem_letterings {n : Nat} (h : 0 < n) : alphabetic n ∈ letterings := by
  obtain ⟨m, d, hd, rfl⟩ := exists_place h
  refine ⟨fun hempty => ?_, isUpper_of_mem_alphabetic _⟩
  have hchars := congrArg String.toList hempty
  rw [toList_alphabetic, alphabeticChars_place m hd] at hchars
  simp at hchars

theorem alphabetic_readAlphabetic {s : String} (h : s ∈ letterings) :
    alphabetic (readAlphabetic s.toList) = s := by
  rw [alphabetic, alphabeticChars_readAlphabetic h.2, String.ofList_toList]

theorem readAlphabetic_pos {s : String} (h : s ∈ letterings) : 0 < readAlphabetic s.toList := by
  refine Nat.pos_of_ne_zero fun hzero => h.1 ?_
  rw [← alphabetic_readAlphabetic h, hzero, alphabetic_zero]

/-- Letters are a bijective numeration to base twenty-six: the positive numbers and the texts of
capital letters belong to each other, by the value of the letters and in their order, and so the
labels of items in letters all differ. -/
theorem alphabetic_numeration :
    Set.BijOn alphabetic {n | 0 < n} letterings ∧
      Set.InvOn (fun s => readAlphabetic s.toList) alphabetic {n | 0 < n} letterings ∧
      (∀ i j, List.Shortlex (· < ·) (alphabetic i).toList (alphabetic j).toList ↔ i < j) ∧
      ∀ lowercase, Function.Injective (ListKind.lettered.label · lowercase) ∧
        Function.Injective (ListKind.greek.label · lowercase) := by
  have hinverse : Set.InvOn (fun s => readAlphabetic s.toList) alphabetic {n | 0 < n}
      letterings := by
    refine ⟨fun n _ => ?_, fun s hs => alphabetic_readAlphabetic hs⟩
    change readAlphabetic (alphabetic n).toList = n
    rw [toList_alphabetic, readAlphabetic_alphabeticChars]
  refine ⟨hinverse.bijOn (fun n hn => alphabetic_mem_letterings hn)
    (fun s hs => readAlphabetic_pos hs), hinverse, fun i j => ⟨fun h => ?_, fun h => ?_⟩,
    fun lowercase => ⟨dotted_injective alphabetic_injective isUpper_of_mem_alphabetic lowercase,
      dotted_injective alphabetic_injective isUpper_of_mem_alphabetic lowercase⟩⟩
  · -- the order of rows is strict, so it cannot go both ways
    rw [toList_alphabetic, toList_alphabetic] at h
    rcases Nat.lt_trichotomy i j with hij | rfl | hji
    · exact hij
    · exact absurd h (Std.Asymm.asymm _ _ h)
    · exact absurd h (Std.Asymm.asymm _ _ (shortlex_alphabeticChars hji))
  · rw [toList_alphabetic, toList_alphabetic]
    exact shortlex_alphabeticChars h

end Folio
