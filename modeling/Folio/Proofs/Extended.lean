import Folio.Proofs.Exact

/-!
# Exact arithmetic with infinities

The rational numbers, two infinities, and what is not a number: the values of floating-point
arithmetic without rounding, so that no calculation overflows and nought has no sign. What is not
finite can only be read from a text or a pattern, or come of a division by nought.
-/
namespace Folio

inductive Extended where
  | finite (q : ℚ)
  | infinite (negative : Bool)
  | nan
  deriving DecidableEq

namespace Extended

def add : Extended → Extended → Extended
  | finite p, finite q => finite (p + q)
  | nan, _ | _, nan => nan
  | finite _, infinite s | infinite s, finite _ => infinite s
  | infinite s, infinite t => if s = t then infinite s else nan

def neg : Extended → Extended
  | finite q => finite (-q)
  | infinite s => infinite !s
  | nan => nan

def negative : Extended → Bool
  | finite q => q < 0
  | infinite s => s
  | nan => false

def isZero (x : Extended) : Bool := x == finite 0

def mul : Extended → Extended → Extended
  | finite p, finite q => finite (p * q)
  | nan, _ | _, nan => nan
  | x, y => if x.isZero || y.isZero then nan else infinite (x.negative != y.negative)

def div : Extended → Extended → Extended
  | finite p, finite q =>
    if q = 0 then if p = 0 then nan else infinite (p < 0) else finite (p / q)
  | nan, _ | _, nan | infinite _, infinite _ => nan
  | finite _, infinite _ => finite 0
  | infinite s, finite q => infinite (s != decide (q < 0))

/-- What is not a number is neither less nor more than anything. -/
def less : Extended → Extended → Bool
  | finite p, finite q => p < q
  | nan, _ | _, nan => false
  | infinite s, infinite t => s && !t
  | infinite s, finite _ => s
  | finite _, infinite t => !t

def isNaN (x : Extended) : Bool := x == nan

def larger (x y : Extended) : Extended :=
  if x.isNaN then y else if y.isNaN then x else if x.less y then y else x

def smaller (x y : Extended) : Extended :=
  if x.isNaN then y else if y.isNaN then x else if y.less x then y else x

def within (low high x : Extended) : Extended :=
  if x.less low then low else if high.less x then high else x

def ofPattern (bits : Nat) : Extended :=
  match Decimal.double.decode bits with
  | .finite .. => finite (Exact.ofPattern bits)
  | .infinite s => infinite s
  | .nan => nan

def ofNumber : Number → Extended
  | .whole n => finite n.toNat
  | .negative n => finite n.toInt
  | .real x => ofPattern x.toBits.toNat

def ofReading : Decimal.Reading → Extended
  | .decimal s significand exponent => finite (Exact.ofReading (.decimal s significand exponent))
  | .infinite s => infinite s
  | .nan _ => nan

instance : Scalar Extended where
  add := add
  sub x y := add x (neg y)
  mul := mul
  div := div
  neg := neg
  lt x y := x.less y
  le x y := x.less y || (x == y && !x.isNaN)
  beq x y := x == y && !x.isNaN
  natCast n := finite n
  ofScientific m s e := finite (OfScientific.ofScientific m s e)
  ltDecidable := fun _ _ => inferInstanceAs (Decidable (_ = true))
  leDecidable := fun _ _ => inferInstanceAs (Decidable (_ = true))
  larger := larger
  smaller := smaller
  within := within
  abs x := if x.negative then neg x else x
  sumStart := finite 0
  ofNumber := ofNumber
  ofReading := ofReading

/-! ## Finite numbers -/

def Finite (x : Extended) : Prop := ∃ q, x = finite q

@[simp] theorem finite_finite (q : ℚ) : Finite (finite q) := ⟨q, rfl⟩

@[simp] theorem not_finite_infinite (s : Bool) : ¬ Finite (infinite s) := nofun

@[simp] theorem not_finite_nan : ¬ Finite nan := nofun

instance (x : Extended) : Decidable x.Finite :=
  match x with
  | finite q => .isTrue (finite_finite q)
  | infinite s => .isFalse (not_finite_infinite s)
  | nan => .isFalse not_finite_nan

theorem finite_add_finite (p q : ℚ) : finite p + finite q = finite (p + q) := rfl

theorem finite_sub_finite (p q : ℚ) : finite p - finite q = finite (p - q) :=
  congrArg finite (sub_eq_add_neg p q).symm

theorem finite_mul_finite (p q : ℚ) : finite p * finite q = finite (p * q) := rfl

theorem finite_div_finite {q : ℚ} (h : q ≠ 0) (p : ℚ) : finite p / finite q = finite (p / q) :=
  if_neg h

theorem finite_lt_finite {p q : ℚ} : finite p < finite q ↔ p < q := decide_eq_true_iff

theorem natCast_eq_finite (n : ℕ) : (n : Extended) = finite n := rfl

theorem finite_pos {q : ℚ} : 0 < finite q ↔ 0 < q := by
  have hzero : (0 : Extended) = finite 0 := congrArg finite Nat.cast_zero
  rw [hzero, finite_lt_finite]

/-- A sum is finite only if both of its terms are. -/
@[simp] theorem finite_add {x y : Extended} : (x + y).Finite ↔ x.Finite ∧ y.Finite := by
  change (add x y).Finite ↔ _
  cases x <;> cases y <;> simp [add, apply_ite]

@[simp] theorem finite_neg {x : Extended} : (-x).Finite ↔ x.Finite := by
  change (neg x).Finite ↔ _
  cases x <;> simp [neg]

@[simp] theorem finite_sub {x y : Extended} : (x - y).Finite ↔ x.Finite ∧ y.Finite :=
  finite_add.trans (and_congr_right fun _ => finite_neg)

@[simp] theorem finite_mul {x y : Extended} : (x * y).Finite ↔ x.Finite ∧ y.Finite := by
  change (mul x y).Finite ↔ _
  cases x <;> cases y <;> simp [mul, apply_ite]

/-- By a positive number it is safe to divide. -/
theorem Finite.div {x y : Extended} (hx : x.Finite) (hy : y.Finite) (hpos : 0 < y) :
    (x / y).Finite := by
  obtain ⟨p, rfl⟩ := hx
  obtain ⟨q, rfl⟩ := hy
  rw [finite_div_finite (finite_pos.mp hpos).ne']
  exact finite_finite _

@[simp] theorem finite_natCast (n : ℕ) : ((n : ℕ) : Extended).Finite := ⟨n, rfl⟩

@[simp] theorem finite_ofNat (n : ℕ) : (ofNat(n) : Extended).Finite := ⟨n, rfl⟩

@[simp] theorem finite_ofScientific (m : ℕ) (s : Bool) (e : ℕ) :
    (OfScientific.ofScientific m s e : Extended).Finite := ⟨_, rfl⟩

theorem natCast_pos {n : ℕ} (h : 0 < n) : (0 : Extended) < (n : Extended) :=
  finite_pos.mpr (Nat.cast_pos.mpr h)

/-- Nor do whole numbers lead out of the finite ones, nought apart. -/
theorem Finite.div_natCast {x : Extended} (h : x.Finite) {n : ℕ} (hn : 0 < n) :
    (x / (n : Extended)).Finite := h.div (finite_natCast n) (natCast_pos hn)

@[simp] theorem Finite.div_ofNat {x : Extended} (h : x.Finite) {n : ℕ} (hn : 0 < n) :
    (x / ofNat(n)).Finite := h.div_natCast hn

theorem Finite.larger {x y : Extended} (hx : x.Finite) (hy : y.Finite) :
    (Scalar.larger x y).Finite := by
  change (Extended.larger x y).Finite
  unfold Extended.larger
  split_ifs <;> assumption

theorem Finite.smaller {x y : Extended} (hx : x.Finite) (hy : y.Finite) :
    (Scalar.smaller x y).Finite := by
  change (Extended.smaller x y).Finite
  unfold Extended.smaller
  split_ifs <;> assumption

theorem Finite.within {low high x : Extended} (hlow : low.Finite) (hhigh : high.Finite)
    (hx : x.Finite) : (Scalar.within low high x).Finite := by
  change (Extended.within low high x).Finite
  unfold Extended.within
  split_ifs <;> assumption

theorem finite_getD {o : Option Extended} (h : ∀ x ∈ o, x.Finite) {default : Extended}
    (hdefault : default.Finite) : (o.getD default).Finite := by
  cases o with
  | none => exact hdefault
  | some x => exact h x rfl

theorem finite_sum {xs : List Extended} (h : ∀ x ∈ xs, x.Finite) : (Scalar.sum xs).Finite := by
  have hfold (xs : List Extended) (h : ∀ x ∈ xs, x.Finite) : ∀ {start : Extended}, start.Finite →
      (xs.foldl (· + ·) start).Finite := by
    induction xs with
    | nil => exact fun hstart => hstart
    | cons x xs ih =>
      intro start hstart
      exact ih (fun y hy => h y (List.mem_cons_of_mem x hy))
        (finite_add.mpr ⟨hstart, h x List.mem_cons_self⟩)
  exact hfold xs h (finite_finite 0)

theorem finite_greatest {xs : List Extended} {start : Extended} (hstart : start.Finite)
    (h : ∀ x ∈ xs, x.Finite) : (Scalar.greatest start xs).Finite := by
  unfold Scalar.greatest
  induction xs generalizing start with
  | nil => exact hstart
  | cons x xs ih =>
    exact ih (hstart.larger (h x List.mem_cons_self)) fun y hy => h y (List.mem_cons_of_mem x hy)

end Extended

end Folio
