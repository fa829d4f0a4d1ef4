import Folio.Proofs.Node.Letters

/-!
# Roman numerals

To take off the largest symbol that still fits, again and again, comes to writing a number digit by
digit: thousands as often as there are, and below them each decimal digit in the symbols for one,
five and ten of its place. A symbol in front of a larger one counts negatively, and so the numeral
reads as the number again.
-/
namespace Folio

/-! ## Digits in their places -/

/-- The symbols for one, five and ten units of a decimal place. -/
structure DecimalPlace where
  one : Char
  five : Char
  ten : Char

namespace DecimalPlace

def hundreds : DecimalPlace := ⟨'C', 'D', 'M'⟩
def tens : DecimalPlace := ⟨'X', 'L', 'C'⟩
def units : DecimalPlace := ⟨'I', 'V', 'X'⟩

/-- How a digit is written. -/
def numeral (p : DecimalPlace) : Nat → List Char
  | 0 => []
  | 1 => [p.one]
  | 2 => [p.one, p.one]
  | 3 => [p.one, p.one, p.one]
  | 4 => [p.one, p.five]
  | 5 => [p.five]
  | 6 => [p.five, p.one]
  | 7 => [p.five, p.one, p.one]
  | 8 => [p.five, p.one, p.one, p.one]
  | _ => [p.one, p.ten]

/-- What is taken off for the digit of a place, from the largest down. -/
def symbols (p : DecimalPlace) (unit : Nat) : List (Nat × List Char) :=
  [(unit * 9, [p.one, p.ten]), (unit * 5, [p.five]), (unit * 4, [p.one, p.five]),
    (unit * 1, [p.one])]

end DecimalPlace

open DecimalPlace

/-- The standard numeral of a number below a thousand: its decimal digits, each in its place. -/
def standardNumeral (n : Nat) : List Char :=
  hundreds.numeral (n / 100) ++ (tens.numeral (n / 10 % 10) ++ units.numeral (n % 10))

theorem romanSymbols_eq : romanSymbols =
    (1000, ['M']) :: (hundreds.symbols 100 ++ (tens.symbols 10 ++ (units.symbols 1 ++ []))) :=
  rfl

/-! ## The largest symbol first -/

/-- A symbol worth so many units is taken off by the digit of the units alone. -/
theorem romanChars_units {unit r : Nat} (hr : r < unit) (k d : Nat) (symbol : List Char)
    (rest : List (Nat × List Char)) :
    romanChars ((unit * k, symbol) :: rest) (unit * d + r) =
      (List.replicate (d / k) symbol).flatten ++ romanChars rest (unit * (d % k) + r) := by
  have hdigit : (unit * d + r) / unit = d := by
    rw [Nat.mul_add_div (by omega), Nat.div_eq_of_lt hr, Nat.add_zero]
  have hquotient : (unit * d + r) / (unit * k) = d / k := by
    rw [← Nat.div_div_eq_div_mul, hdigit]
  have hremainder : (unit * d + r) % (unit * k) = unit * (d % k) + r := by
    rw [Nat.mod_mul, hdigit, Nat.mul_add_mod, Nat.mod_eq_of_lt hr, Nat.add_comm]
  rw [romanChars, hquotient, hremainder]

theorem romanChars_place (p : DecimalPlace) {unit d r : Nat} (hd : d < 10) (hr : r < unit)
    (rest : List (Nat × List Char)) : romanChars (p.symbols unit ++ rest) (unit * d + r) =
      p.numeral d ++ romanChars rest r := by
  simp only [symbols, List.cons_append, List.nil_append, romanChars_units hr]
  interval_cases d <;> simp [numeral]

/-- Below a thousand a digit is taken off in its place, and so from the front to the back. -/
theorem romanChars_belowThousand {n : Nat} (h : n < 1000) :
    romanChars (hundreds.symbols 100 ++ (tens.symbols 10 ++ (units.symbols 1 ++ []))) n =
      standardNumeral n := by
  have hdigits : n = 100 * (n / 100) + (10 * (n / 10 % 10) + (1 * (n % 10) + 0)) := by omega
  conv_lhs => rw [hdigits]
  rw [romanChars_place hundreds (by omega) (by omega),
    romanChars_place tens (by omega) (by omega),
    romanChars_place units (by omega) (by omega), romanChars, List.append_nil, standardNumeral]

theorem toList_roman (n : Nat) : (roman n).toList =
    List.replicate (n / 1000) 'M' ++ standardNumeral (n % 1000) := by
  rw [roman, String.toList_ofList, romanSymbols_eq, romanChars, List.flatten_replicate_singleton,
    romanChars_belowThousand (Nat.mod_lt n (by decide))]

/-! ## Reading -/

theorem readRoman_cons {c : Char} {cs : List Char} (h : ∀ d ∈ cs, romanValue d ≤ romanValue c) :
    readRoman (c :: cs) = romanValue c + readRoman cs := by
  cases cs with
  | nil => rfl
  | cons d ds => rw [readRoman, if_neg (h d List.mem_cons_self).not_gt]

/-- A numeral reads as its two parts do, if no symbol behind is larger than the last one in
front. -/
theorem readRoman_append {bound : Nat} {front back : List Char}
    (hfront : ∀ c ∈ front.getLast?, bound ≤ romanValue c)
    (hback : ∀ c ∈ back, romanValue c ≤ bound) :
    readRoman (front ++ back) = readRoman front + readRoman back := by
  induction front with
  | nil => simp [readRoman]
  | cons c front ih =>
    cases front with
    | nil =>
      have hc : bound ≤ romanValue c := hfront c rfl
      exact readRoman_cons fun d hd => (hback d hd).trans hc
    | cons d front =>
      have hrest := ih (by simpa using hfront)
      rw [List.cons_append] at hrest
      rw [List.cons_append, List.cons_append, readRoman, hrest, readRoman, Int.add_assoc]

/-- The digits of a place are worth so many units each, in symbols of no less than a unit at the end
and of no more than ten. -/
structure DecimalPlace.Worth (p : DecimalPlace) (unit : Nat) : Prop where
  read : ∀ d < 10, readRoman (p.numeral d) = (unit * d : Nat)
  last : ∀ d < 10, ∀ c ∈ (p.numeral d).getLast?, unit ≤ romanValue c
  largest : ∀ d < 10, ∀ c ∈ p.numeral d, romanValue c ≤ unit * 10


/-- Symbols worth one, five and ten units make digits that are worth what they say. -/
theorem DecimalPlace.worth {p : DecimalPlace} {unit : Nat} (hone : romanValue p.one = unit)
    (hfive : romanValue p.five = unit * 5) (hten : romanValue p.ten = unit * 10)
    (hunit : 0 < unit) : p.Worth unit where
  read d hd := by
    interval_cases d <;> simp [numeral, readRoman, hone, hfive, hten] <;> omega
  last d hd := by
    interval_cases d <;> simp [numeral, hone, hfive, hten] <;> omega
  largest d hd := by
    interval_cases d <;> simp [numeral, hone, hfive, hten] <;> omega

theorem worth_hundreds : hundreds.Worth 100 := DecimalPlace.worth rfl rfl rfl (by decide)
theorem worth_tens : tens.Worth 10 := DecimalPlace.worth rfl rfl rfl (by decide)
theorem worth_units : units.Worth 1 := DecimalPlace.worth rfl rfl rfl (by decide)

theorem DecimalPlace.Worth.read_append {p : DecimalPlace} {unit d : Nat} (h : p.Worth unit)
    (hd : d < 10) {cs : List Char} (hcs : ∀ c ∈ cs, romanValue c ≤ unit) :
    readRoman (p.numeral d ++ cs) = (unit * d : Nat) + readRoman cs := by
  rw [readRoman_append (h.last d hd) hcs, h.read d hd]

theorem readRoman_thousands {cs : List Char} (h : ∀ c ∈ cs, romanValue c ≤ 1000) (k : Nat) :
    readRoman (List.replicate k 'M' ++ cs) = (1000 * k : Nat) + readRoman cs := by
  induction k with
  | zero => simp
  | succ k ih =>
    have hrest : ∀ c ∈ List.replicate k 'M' ++ cs, romanValue c ≤ romanValue 'M' :=
      List.forall_mem_append.mpr ⟨fun c hc => (List.eq_of_mem_replicate hc).symm ▸ le_rfl, h⟩
    rw [List.replicate_succ, List.cons_append, readRoman_cons hrest, ih]
    simp only [romanValue]
    omega

theorem readRoman_standardNumeral {n : Nat} (h : n < 1000) : readRoman (standardNumeral n) = n := by
  have hhundreds : n / 100 < 10 := by omega
  have htens : n / 10 % 10 < 10 := by omega
  have hunits : n % 10 < 10 := by omega
  have hlast := worth_units.largest _ hunits
  have hbehind : ∀ c ∈ tens.numeral (n / 10 % 10) ++ units.numeral (n % 10),
      romanValue c ≤ 100 := by
    refine List.forall_mem_append.mpr ⟨worth_tens.largest _ htens, fun c hc => ?_⟩
    exact (hlast c hc).trans (by decide)
  rw [standardNumeral, worth_hundreds.read_append hhundreds hbehind,
    worth_tens.read_append htens hlast, worth_units.read _ hunits]
  omega

theorem le_of_mem_standardNumeral {n : Nat} (h : n < 1000) :
    ∀ c ∈ standardNumeral n, romanValue c ≤ 1000 := by
  refine List.forall_mem_append.mpr ⟨worth_hundreds.largest _ (by omega),
    List.forall_mem_append.mpr ⟨fun c hc => ?_, fun c hc => ?_⟩⟩
  · exact (worth_tens.largest _ (by omega) c hc).trans (by decide)
  · exact (worth_units.largest _ (by omega) c hc).trans (by decide)

theorem readRoman_roman (n : Nat) : readRoman (roman n).toList = n := by
  have hbelow : n % 1000 < 1000 := Nat.mod_lt n (by decide)
  rw [toList_roman, readRoman_thousands (le_of_mem_standardNumeral hbelow),
    readRoman_standardNumeral hbelow]
  omega

theorem roman_injective : Function.Injective roman := by
  intro m n h
  have hread := congrArg (fun s => readRoman s.toList) h
  simpa [readRoman_roman] using hread

/-! ## Symbols in a row -/

/-- A numeral as it ought to be written: a symbol for ones stands three times in a row at most, and
a symbol for five of them once. -/
structure WellWritten (cs : List Char) : Prop where
  ones : ∀ c ∈ ['I', 'X', 'C'], ¬ List.replicate 4 c <:+: cs
  fives : ∀ c ∈ ['V', 'L', 'D'], cs.count c ≤ 1

theorem not_infix_of_count {c : Char} {cs : List Char} (h : cs.count c ≤ 3) :
    ¬ List.replicate 4 c <:+: cs := by
  intro hrow
  have hcount := hrow.sublist.count_le c
  rw [List.count_replicate_self] at hcount
  omega

/-- Another symbol ends a row. -/
theorem infix_of_infix_cons {β : Type} {row front back : List β} {d : β} (hd : d ∉ row)
    (h : row <:+: front ++ d :: back) : row <:+: front ∨ row <:+: back := by
  obtain ⟨before, behind, h⟩ := h
  rcases List.append_eq_append_iff.mp h with ⟨rest, hfront, -⟩ | ⟨rest, hfront, hrest⟩
  · exact .inl ⟨before, rest, hfront.symm⟩
  · cases rest with
    | nil => exact .inl ⟨before, [], by simpa using hfront⟩
    | cons e rest =>
      simp only [List.cons_append, List.cons.injEq] at hrest
      obtain ⟨rfl, rfl⟩ := hrest
      rcases List.append_eq_append_iff.mp hfront with ⟨gap, -, rfl⟩ | ⟨gap, -, hrow⟩
      · simp at hd
      · cases gap with
        | nil =>
          rw [List.nil_append] at hrow
          exact absurd (hrow ▸ List.mem_cons_self) hd
        | cons e gap =>
          simp only [List.cons_append, List.cons.injEq] at hrow
          exact .inr ⟨gap, behind, by rw [hrow.2]⟩

/-- A symbol for ones that stands for ten in the place behind is parted from the others there. -/
theorem not_infix_numeral {c : Char} {front back : List Char} {p : DecimalPlace} {d : Nat}
    (hone : p.one ≠ c) (hfive : p.five ≠ c) (hfront : front.count c ≤ 3) (hback : c ∉ back) :
    ¬ List.replicate 4 c <:+: front ++ (p.numeral d ++ back) := by
  have hcount : back.count c = 0 := List.count_eq_zero.mpr hback
  unfold numeral
  split
  case h_10 =>
    intro hrow
    change _ <:+: front ++ p.one :: (p.ten :: back) at hrow
    have hparted : p.one ∉ List.replicate 4 c := fun h => hone (List.eq_of_mem_replicate h)
    rcases infix_of_infix_cons hparted hrow with hrow | hrow
    · exact not_infix_of_count hfront hrow
    · refine not_infix_of_count ?_ hrow
      rw [List.count_cons, hcount]
      split <;> omega
  all_goals
    refine not_infix_of_count ?_
    simpa [List.count_cons, hone, hfive, hcount] using hfront

section

variable (p : DecimalPlace)

theorem count_one_le (h : p.one ∉ [p.five, p.ten]) (d : Nat) : (p.numeral d).count p.one ≤ 3 := by
  simp only [List.mem_cons, List.not_mem_nil, or_false, not_or] at h
  unfold numeral
  split <;> simp [Ne.symm h.1, Ne.symm h.2]

theorem count_five_le (h : p.five ∉ [p.one, p.ten]) (d : Nat) :
    (p.numeral d).count p.five ≤ 1 := by
  simp only [List.mem_cons, List.not_mem_nil, or_false, not_or] at h
  unfold numeral
  split <;> simp [Ne.symm h.1, Ne.symm h.2]

theorem count_other {c : Char} (h : c ∉ [p.one, p.five, p.ten]) (d : Nat) :
    (p.numeral d).count c = 0 := by
  simp only [List.mem_cons, List.not_mem_nil, or_false, not_or] at h
  unfold numeral
  split <;> simp [Ne.symm h.1, Ne.symm h.2.1, Ne.symm h.2.2]

end

theorem wellWritten_standardNumeral (n : Nat) : WellWritten (standardNumeral n) := by
  have hI : (units.numeral (n % 10)).count 'I' ≤ 3 := count_one_le units (by decide) _
  have hX : (tens.numeral (n / 10 % 10)).count 'X' ≤ 3 := count_one_le tens (by decide) _
  have hC : (hundreds.numeral (n / 100)).count 'C' ≤ 3 := count_one_le hundreds (by decide) _
  have hV : (units.numeral (n % 10)).count 'V' ≤ 1 := count_five_le units (by decide) _
  have hL : (tens.numeral (n / 10 % 10)).count 'L' ≤ 1 := count_five_le tens (by decide) _
  have hD : (hundreds.numeral (n / 100)).count 'D' ≤ 1 := count_five_le hundreds (by decide) _
  refine ⟨?_, ?_⟩
  · simp only [List.forall_mem_cons, List.not_mem_nil, false_implies, implies_true, and_true]
    refine ⟨not_infix_of_count ?_, ?_, ?_⟩
    · simpa (disch := decide) [standardNumeral, count_other] using hI
    · -- tens, and perhaps one more in front of which the ones of a nine stand
      rw [standardNumeral, ← List.append_assoc, ← List.append_nil (units.numeral _)]
      refine not_infix_numeral (by decide) (by decide) ?_ List.not_mem_nil
      simpa (disch := decide) [count_other] using hX
    · rw [standardNumeral]
      exact not_infix_numeral (by decide) (by decide) hC
        (List.count_eq_zero.mp (count_other units (by decide) _))
  · simp only [List.forall_mem_cons, List.not_mem_nil, false_implies, implies_true, and_true]
    refine ⟨?_, ?_, ?_⟩
    · simpa (disch := decide) [standardNumeral, count_other] using hV
    · simpa (disch := decide) [standardNumeral, count_other] using hL
    · simpa (disch := decide) [standardNumeral, count_other] using hD

/-! ## Labels -/

theorem mem_romanChars {table : List (Nat × List Char)} {c : Char} :
    ∀ {n : Nat}, c ∈ romanChars table n → ∃ entry ∈ table, c ∈ entry.2 := by
  induction table with
  | nil => exact fun h => absurd h List.not_mem_nil
  | cons entry table ih =>
    intro n h
    rcases List.mem_append.mp h with h | h
    · obtain ⟨symbol, hsymbol, hc⟩ := List.mem_flatten.mp h
      exact ⟨entry, List.mem_cons_self, (List.eq_of_mem_replicate hsymbol) ▸ hc⟩
    · obtain ⟨other, hother, hc⟩ := ih h
      exact ⟨other, List.mem_cons_of_mem entry hother, hc⟩

theorem isUpper_of_mem_roman (n : Nat) : ∀ c ∈ (roman n).toList, c.isUpper := by
  intro c hc
  rw [roman, String.toList_ofList] at hc
  obtain ⟨entry, hentry, hc⟩ := mem_romanChars hc
  have hupper : (romanSymbols.all fun entry => entry.2.all Char.isUpper) = true := by decide
  exact List.all_eq_true.mp (List.all_eq_true.mp hupper entry hentry) c hc

/-- A number is written as its thousands and the standard numeral of the rest, and reads as itself
again; so numerals all differ, and so do the labels that are made of them. -/
theorem roman_canonical :
    (∀ n, readRoman (roman n).toList = n ∧
      (roman n).toList = List.replicate (n / 1000) 'M' ++ standardNumeral (n % 1000) ∧
      WellWritten (standardNumeral (n % 1000))) ∧
    Function.Injective roman ∧
      ∀ lowercase, Function.Injective (ListKind.roman.label · lowercase) :=
  ⟨fun n => ⟨readRoman_roman n, toList_roman n,
    wellWritten_standardNumeral (n % 1000)⟩,
    roman_injective, dotted_injective roman_injective isUpper_of_mem_roman⟩

end Folio
