import Folio.Json.Value
import Folio.Proofs.Json.Inside
import Mathlib

/-!
# Equal values

Doubles that compare equal are the same, but for zeros, which may differ in sign. So data values
that compare equal are the same as soon as every zero in them is taken as positive.
-/
namespace Folio

open Float.Model (UnpackedFloat)
open Float.Model.UnpackedFloat (Sign)

theorem float_eq_of_unpack {x y : Float} (h : x.toModel.unpack = y.toModel.unpack) : x = y := by
  have hbits := (UnpackedFloat.unpack_inj_of_valid x.toModel.valid y.toModel.valid).mp h
  exact Float.toBits_inj.mp (UInt64.toBitVec_inj.mp hbits)

theorem unpacked_eq_of_beq {x y : UnpackedFloat} (h : x.beq y) :
    x = y ∨ ∃ s t, x = .zero s ∧ y = .zero t := by
  obtain ⟨-, -, heq | ⟨hx, hy⟩ | ⟨hx, hy⟩⟩ := (UnpackedFloat.beq_iff_ne_notANumber_and_eq x y).mp h
  · exact .inl heq
  · exact .inr ⟨_, _, hx, hy⟩
  · exact .inr ⟨_, _, hx, hy⟩

/-! ## Zeros without a sign -/

namespace Number

/-- The number, a zero taken as positive. -/
def unsignZero : Number → Number
  | real x => real (if x.toBits = 0x8000000000000000 then .ofBits 0 else x)
  | n => n

theorem unsignZero_of_unpack {x : Float} {s : Sign} (h : x.toModel.unpack = .zero s) :
    (real x).unsignZero = real (.ofBits 0) := by
  cases s with
  | negative =>
    obtain rfl : x = .ofBits 0x8000000000000000 := float_eq_of_unpack h
    rfl
  | positive =>
    obtain rfl : x = .ofBits 0 := float_eq_of_unpack h
    rfl

theorem unsignZero_eq_of_beq {m n : Number} (h : m == n) : m.unsignZero = n.unsignZero := by
  cases m with
  | whole m =>
    cases n with
    | whole n => rw [show m = n from eq_of_beq h]
    | _ => cases h
  | negative m =>
    cases n with
    | negative n => rw [show m = n from eq_of_beq h]
    | _ => cases h
  | real x =>
    cases n with
    | real y =>
      rcases unpacked_eq_of_beq h with h | ⟨s, t, hs, ht⟩
      · rw [float_eq_of_unpack h]
      · rw [unsignZero_of_unpack hs, unsignZero_of_unpack ht]
    | _ => cases h

end Number

namespace Json

mutual

/-- The value, every zero in it taken as positive. -/
def unsignZeros : Json → Json
  | number n => number n.unsignZero
  | array items => array (unsignItems items)
  | object fields => object (unsignFields fields)
  | x => x

def unsignItems : List Json → List Json
  | [] => []
  | x :: xs => unsignZeros x :: unsignItems xs

def unsignFields : Fields → Fields
  | [] => []
  | (k, x) :: fs => (k, unsignZeros x) :: unsignFields fs

end

mutual

theorem unsignZeros_eq_of_beq : {x y : Json} → beq x y → unsignZeros x = unsignZeros y
  | null, null, _ => rfl
  | bool a, bool b, h => by rw [show a = b from eq_of_beq h]
  | number m, number n, h => congrArg number (Number.unsignZero_eq_of_beq h)
  | string s, string t, h => by rw [show s = t from eq_of_beq h]
  | array xs, array ys, h => congrArg array (unsignItems_eq_of_beq h)
  | object fs, object gs, h => congrArg object (unsignFields_eq_of_beq h)

theorem unsignItems_eq_of_beq :
    {xs ys : List Json} → beqItems xs ys → unsignItems xs = unsignItems ys
  | [], [], _ => rfl
  | x :: xs, y :: ys, h => by
    obtain ⟨hx, hxs⟩ := Bool.and_eq_true_iff.mp h
    simp only [unsignItems, unsignZeros_eq_of_beq hx, unsignItems_eq_of_beq hxs]

theorem unsignFields_eq_of_beq :
    {fs gs : Fields} → beqFields fs gs → unsignFields fs = unsignFields gs
  | [], [], _ => rfl
  | (k, x) :: fs, (l, y) :: gs, h => by
    obtain ⟨hfirst, hfs⟩ := Bool.and_eq_true_iff.mp h
    obtain ⟨hkey, hx⟩ := Bool.and_eq_true_iff.mp hfirst
    simp only [unsignFields, eq_of_beq hkey, unsignZeros_eq_of_beq hx, unsignFields_eq_of_beq hfs]

end

end Json

/-! ## An equivalence but for what is no number

A value is equal to itself unless a double in it is no number.
-/

namespace Number

theorem beq_self {n : Number} (h : ∀ x, n = .real x → x.toModel.unpack ≠ .notANumber) :
    n == n := by
  cases n with
  | whole n => exact beq_self_eq_true n
  | negative n => exact beq_self_eq_true n
  | real x =>
    have hnumber := h x rfl
    change x.toModel.unpack.beq x.toModel.unpack = true
    cases hx : x.toModel.unpack with
    | notANumber => exact absurd hx hnumber
    | infinity s | zero s => cases s <;> rfl
    | finite s m e hm => cases s <;> simp [UnpackedFloat.beq, UnpackedFloat.compare]

theorem beq_symm {m n : Number} (h : m == n) : n == m := by
  cases m <;> cases n
  case whole.whole => exact BEq.symm (α := UInt64) h
  case negative.negative => exact BEq.symm (α := Int64) h
  case real.real => exact BEq.symm (α := Float) h
  all_goals cases h

theorem beq_trans {m n k : Number} (h : m == n) (h' : n == k) : m == k := by
  cases m <;> cases n <;> cases k
  case whole.whole.whole => exact BEq.trans (α := UInt64) h h'
  case negative.negative.negative => exact BEq.trans (α := Int64) h h'
  case real.real.real => exact BEq.trans (α := Float) h h'
  all_goals first | cases h | cases h'

end Number

namespace Json

mutual

theorem beq_symm : {x y : Json} → beq x y → beq y x
  | null, null, _ => rfl
  | bool _, bool _, h => BEq.symm (α := Bool) h
  | number _, number _, h => Number.beq_symm h
  | string _, string _, h => BEq.symm (α := String) h
  | array _, array _, h => beqItems_symm h
  | object _, object _, h => beqFields_symm h

theorem beqItems_symm : {xs ys : List Json} → beqItems xs ys → beqItems ys xs
  | [], [], _ => rfl
  | _ :: _, _ :: _, h => by
    obtain ⟨hx, hxs⟩ := Bool.and_eq_true_iff.mp h
    exact Bool.and_eq_true_iff.mpr ⟨beq_symm hx, beqItems_symm hxs⟩

theorem beqFields_symm : {fs gs : Fields} → beqFields fs gs → beqFields gs fs
  | [], [], _ => rfl
  | (_, _) :: _, (_, _) :: _, h => by
    obtain ⟨hfirst, hfs⟩ := Bool.and_eq_true_iff.mp h
    obtain ⟨hkey, hx⟩ := Bool.and_eq_true_iff.mp hfirst
    exact Bool.and_eq_true_iff.mpr
      ⟨Bool.and_eq_true_iff.mpr ⟨BEq.symm hkey, beq_symm hx⟩, beqFields_symm hfs⟩

end

mutual

theorem beq_trans : {x y z : Json} → beq x y → beq y z → beq x z
  | null, null, null, _, _ => rfl
  | bool _, bool _, bool _, h, k => BEq.trans (α := Bool) h k
  | number _, number _, number _, h, k => Number.beq_trans h k
  | string _, string _, string _, h, k => BEq.trans (α := String) h k
  | array _, array _, array _, h, k => beqItems_trans h k
  | object _, object _, object _, h, k => beqFields_trans h k

theorem beqItems_trans : {xs ys zs : List Json} → beqItems xs ys → beqItems ys zs → beqItems xs zs
  | [], [], [], _, _ => rfl
  | _ :: _, _ :: _, _ :: _, h, k => by
    obtain ⟨hx, hxs⟩ := Bool.and_eq_true_iff.mp h
    obtain ⟨kx, kxs⟩ := Bool.and_eq_true_iff.mp k
    exact Bool.and_eq_true_iff.mpr ⟨beq_trans hx kx, beqItems_trans hxs kxs⟩

theorem beqFields_trans : {fs gs hs : Fields} → beqFields fs gs → beqFields gs hs → beqFields fs hs
  | [], [], [], _, _ => rfl
  | (_, _) :: _, (_, _) :: _, (_, _) :: _, h, k => by
    obtain ⟨hfirst, hfs⟩ := Bool.and_eq_true_iff.mp h
    obtain ⟨kfirst, kfs⟩ := Bool.and_eq_true_iff.mp k
    obtain ⟨hkey, hx⟩ := Bool.and_eq_true_iff.mp hfirst
    obtain ⟨kkey, kx⟩ := Bool.and_eq_true_iff.mp kfirst
    exact Bool.and_eq_true_iff.mpr
      ⟨Bool.and_eq_true_iff.mpr ⟨BEq.trans hkey kkey, beq_trans hx kx⟩, beqFields_trans hfs kfs⟩

end

mutual

/-- A value in which every number is equal to itself is so too. -/
theorem beq_self : (x : Json) → (∀ n, x = number n ∨ Inside (number n) x → n == n) → beq x x
  | null, _ => rfl
  | bool b, _ => beq_self_eq_true b
  | number n, h => h n (.inl rfl)
  | string s, _ => beq_self_eq_true s
  | array items, h => beqItems_self items fun _ hitem n hn => h n (.inr (hn.elim
      (fun heq => heq ▸ .item hitem) fun hinside => hinside.trans (.item hitem)))
  | object fields, h => beqFields_self fields fun _ hentry n hn => h n (.inr (hn.elim
      (fun heq => .field hentry heq) fun hinside => hinside.trans (.field hentry rfl)))

theorem beqItems_self : (xs : List Json) →
    (∀ x ∈ xs, ∀ n, x = number n ∨ Inside (number n) x → n == n) → beqItems xs xs
  | [], _ => rfl
  | x :: xs, h => Bool.and_eq_true_iff.mpr
    ⟨beq_self x (h x List.mem_cons_self), beqItems_self xs fun y hy => h y (.tail _ hy)⟩

theorem beqFields_self : (fs : Fields) →
    (∀ e ∈ fs, ∀ n, e.2 = number n ∨ Inside (number n) e.2 → n == n) → beqFields fs fs
  | [], _ => rfl
  | (k, x) :: fs, h => Bool.and_eq_true_iff.mpr
    ⟨Bool.and_eq_true_iff.mpr ⟨beq_self_eq_true k, beq_self x (h (k, x) List.mem_cons_self)⟩,
      beqFields_self fs fun e he => h e (.tail _ he)⟩

end

end Json

end Folio
