import Folio.Compile.Picture
import Folio.Proofs.Exact
import Folio.Proofs.Quotients

/-!
# Drawn sizes

The size that an image is drawn at, unless the markup says otherwise, keeps the proportions of its
pixels and fits into the content area of the page: one axis is made to fit, and it is the one that
overflows more, so the other fits as well. No division on the way is one by nought, whatever the
markup says.
-/
namespace Folio.Compile

open Style

/-! ## Divisors

The size is calculated once more with the division as a parameter, which may fail or have effects.
-/

section

variable {α : Type} [Scalar α] {m : Type → Type} [Monad m]

/-- How `fitted` calculates, whatever a division does. -/
def fittedBy (divide : α → α → m α) (size : α × α) (area : Option (α × α)) : m (α × α) :=
  match area with
  | none => return size
  | some (w, h) =>
    if (0 : α) < w && (0 : α) < h && (w < size.1 || h < size.2) then do
      let across ← divide size.1 w
      let down ← divide size.2 h
      let scale ← (if down < across then divide w size.1 else divide h size.2)
      return (size.1 * scale, size.2 * scale)
    else return size

def scaledBy (divide : α → α → m α) (size : α × α) (context : Context) : m (α × α) := do
  let (width, height) ← (match context.scalar? "scale" with
    | some percent =>
      return (size.1 * (← divide percent 100), size.2 * (← divide percent 100))
    | none => return size)
  return (((context.scalar? "xscale").map (width * ·)).getD width,
    ((context.scalar? "yscale").map (height * ·)).getD height)

def drawnSizeBy (divide : α → α → m α) (pixels : ℕ × ℕ) (context : Context) : m (α × α) := do
  let natural : α × α := ((pixels.1 : α), (pixels.2 : α))
  let (width, height) ← scaledBy divide (← fittedBy divide natural (contentArea context)) context
  match context.scalar? "width", context.scalar? "height" with
  | some w, some h => return (w, h)
  | some w, none =>
    if (0 : α) < width then return (w, ← divide (w * height) width) else return (width, height)
  | none, some h =>
    if (0 : α) < height then return (← divide (h * width) height, h) else return (width, height)
  | none, none => return (width, height)

/-- What the fitting of a size needs of the numbers it calculates with. -/
structure RatioLaws (α : Type) [Scalar α] : Prop where
  ne_zero_of_pos {x : α} : 0 < x → (x == 0) = false
  not_lt_zero_of_pos {x : α} : 0 < x → ¬ x < 0
  natCast_pos {n : ℕ} : n ≠ 0 → (0 : α) < (n : α)
  not_natCast_div_lt (n : ℕ) {w h : α} : 0 < w → 0 < h → ¬ (n : α) / h < 0 / w
  zero_div_lt {n : ℕ} {w h : α} : 0 < w → 0 < h → w < (n : α) → 0 / h < (n : α) / w

variable [LawfulMonad m] {divide : α → α → m α} (laws : RatioLaws α)
  (hdivide : ∀ x y, (y == 0) = false → divide x y = pure (x / y))

include laws hdivide

theorem fittedBy_eq (pixels : ℕ × ℕ) (area : Option (α × α)) :
    fittedBy divide ((pixels.1 : α), (pixels.2 : α)) area =
      pure (fitted ((pixels.1 : α), (pixels.2 : α)) area) := by
  obtain ⟨n, k⟩ := pixels
  cases area with
  | none => rfl
  | some area =>
    obtain ⟨w, h⟩ := area
    simp only [fittedBy, fitted]
    split
    · next hover =>
      simp only [Bool.and_eq_true, Bool.or_eq_true, decide_eq_true_eq] at hover
      obtain ⟨⟨hw, hh⟩, hover⟩ := hover
      rw [hdivide _ _ (laws.ne_zero_of_pos hw), pure_bind, hdivide _ _ (laws.ne_zero_of_pos hh),
        pure_bind]
      split
      · next hless =>
        -- A width of nought overflows nothing, and its ratio is no larger than any other.
        have hn : n ≠ 0 := by
          rintro rfl
          exact laws.not_natCast_div_lt k hw hh hless
        rw [hdivide _ _ (laws.ne_zero_of_pos (laws.natCast_pos hn)), pure_bind]
      · next hless =>
        have hk : k ≠ 0 := by
          rintro rfl
          rcases hover with hover | hover
          · exact hless (laws.zero_div_lt hw hh hover)
          · exact laws.not_lt_zero_of_pos hh hover
        rw [hdivide _ _ (laws.ne_zero_of_pos (laws.natCast_pos hk)), pure_bind]
    · rfl

theorem scaledBy_eq (size : α × α) (context : Context) :
    scaledBy divide size context = pure (scaled size context) := by
  have hpercent (x : α) : divide x 100 = pure (x / 100) :=
    hdivide x 100 (laws.ne_zero_of_pos (laws.natCast_pos (n := 100) (by decide)))
  unfold scaledBy scaled
  cases context.scalar? (α := α) "scale" with
  | none => simp only [pure_bind]
  | some percent => simp only [hpercent, pure_bind]

theorem drawnSizeBy_eq (pixels : ℕ × ℕ) (context : Context) :
    drawnSizeBy divide pixels context = pure (drawnSize pixels context) := by
  unfold drawnSizeBy drawnSize
  simp only [fittedBy_eq laws hdivide, scaledBy_eq laws hdivide, pure_bind]
  obtain ⟨width, height⟩ : α × α :=
    scaled (fitted (pixels.1, pixels.2) (contentArea context)) context
  have hquotient {x y : α} (hpos : 0 < y) : divide x y = pure (x / y) :=
    hdivide x y (laws.ne_zero_of_pos hpos)
  cases context.scalar? (α := α) "width" with
  | none =>
    cases context.scalar? (α := α) "height" with
    | none => rfl
    | some h =>
      simp only
      split
      · next hpos => rw [hquotient hpos, pure_bind]
      · rfl
  | some w =>
    cases context.scalar? (α := α) "height" with
    | none =>
      simp only
      split
      · next hpos => rw [hquotient hpos, pure_bind]
      · rfl
    | some h => rfl

end

theorem ratioLaws_rat : RatioLaws ℚ where
  ne_zero_of_pos {x} h := by
    have hpos : (0 : ℚ) < x := h
    exact beq_eq_false_iff_ne.mpr hpos.ne'
  not_lt_zero_of_pos {x} h := by
    have hpos : (0 : ℚ) < x := h
    exact hpos.asymm
  natCast_pos h := Nat.cast_pos.mpr (Nat.pos_of_ne_zero h)
  not_natCast_div_lt n w h hw hh := by
    have hpos : (0 : ℚ) < h := hh
    have hquotient : (0 : ℚ) ≤ n / h := by positivity
    change ¬ (n : ℚ) / h < 0 / w
    rw [zero_div]
    exact hquotient.not_gt
  zero_div_lt {n w h} hw hh hless := by
    have hpos : (0 : ℚ) < w := hw
    change (0 : ℚ) / h < n / w
    rw [zero_div]
    exact div_pos (hpos.trans hless) hpos

theorem ratioLaws_single : RatioLaws Single where
  ne_zero_of_pos h := Single.ne_zero_of_pos h
  not_lt_zero_of_pos h := Single.not_lt_zero h
  natCast_pos h := Single.natCast_pos h
  not_natCast_div_lt n _ _ hw hh := Single.not_natCast_div_lt n hw hh
  zero_div_lt hw hh hless := Single.zero_div_lt hw hh hless

/-! ## Fitting -/

section

variable {x y w h : ℚ}

theorem mul_div_le (hx : 0 < x) (hw : 0 < w) (hh : 0 < h) (hratio : y / h ≤ x / w) :
    y * (w / x) ≤ h := by
  rw [div_le_div_iff₀ hh hw] at hratio
  rw [← mul_div_assoc, div_le_iff₀ hx]
  linarith

theorem fitted_of_le (hwidth : x ≤ w) (hheight : y ≤ h) : fitted (x, y) (some (w, h)) = (x, y) := by
  simp only [fitted]
  rw [if_neg]
  simp [hwidth.not_gt, hheight.not_gt]

/-- The axis that overflows more is made to fit, and the other one fits with it. -/
theorem fitted_of_not_le (hx : 0 < x) (hy : 0 < y) (hw : 0 < w) (hh : 0 < h)
    (hover : ¬ (x ≤ w ∧ y ≤ h)) : ∃ k : ℚ, 0 < k ∧
      fitted (x, y) (some (w, h)) = (x * k, y * k) ∧
      (x * k = w ∧ y * k ≤ h ∨ x * k ≤ w ∧ y * k = h) := by
  have hover : w < x ∨ h < y := by
    by_contra hfits
    rw [not_or, not_lt, not_lt] at hfits
    exact hover hfits
  have hfitted : fitted (x, y) (some (w, h)) =
      let scale := if y / h < x / w then w / x else h / y
      (x * scale, y * scale) := by
    have hguard : ((0 : ℚ) < w && (0 : ℚ) < h && (w < x || h < y)) = true := by
      simp only [Bool.and_eq_true, Bool.or_eq_true, decide_eq_true_eq]
      exact ⟨⟨hw, hh⟩, hover⟩
    exact if_pos hguard
  rw [hfitted]
  by_cases hless : y / h < x / w
  · refine ⟨w / x, by positivity, by simp only [if_pos hless], .inl ⟨?_, ?_⟩⟩
    · exact mul_div_cancel₀ w hx.ne'
    · exact mul_div_le hx hw hh hless.le
  · refine ⟨h / y, by positivity, by simp only [if_neg hless], .inr ⟨?_, ?_⟩⟩
    · exact mul_div_le hy hh hw (not_lt.mp hless)
    · exact mul_div_cancel₀ h hy.ne'

end

section

variable {α : Type} [Scalar α]

/-- What overrides the size that an image is fitted at. -/
def sizeKeys : List String := ["scale", "xscale", "yscale", "width", "height"]

theorem drawnSize_eq_fitted (pixels : ℕ × ℕ) {context : Context}
    (hplain : ∀ key ∈ sizeKeys, (context.scalar? key : Option α) = none) :
    drawnSize pixels context =
      fitted ((pixels.1 : α), (pixels.2 : α)) (contentArea context) := by
  unfold drawnSize scaled
  simp only [hplain "scale" (by decide), hplain "xscale" (by decide), hplain "yscale" (by decide),
    hplain "width" (by decide), hplain "height" (by decide), Option.map_none, Option.getD_none]

end

/-- No division on the way to the size of an image has a divisor of nought: it does not matter what
such a division would give, or whether it gives anything. -/
def DividesSafely (α : Type) [Scalar α] : Prop :=
  ∀ (m : Type → Type) [Monad m] [LawfulMonad m] (divide : α → α → m α),
    (∀ x y, (y == 0) = false → divide x y = pure (x / y)) →
    ∀ (pixels : ℕ × ℕ) (context : Context),
      drawnSizeBy divide pixels context = pure (drawnSize pixels context)

theorem drawnSize_fits :
    (∀ (pixels : ℕ × ℕ) (context : Context) (area : ℚ × ℚ), 1 ≤ pixels.1 → 1 ≤ pixels.2 →
      contentArea context = some area → 0 < area.1 → 0 < area.2 →
      (∀ key ∈ sizeKeys, (context.scalar? key : Option ℚ) = none) →
      let natural : ℚ × ℚ := (pixels.1, pixels.2)
      let size : ℚ × ℚ := drawnSize pixels context
      (0 < size.1 ∧ size.1 ≤ area.1) ∧ (0 < size.2 ∧ size.2 ≤ area.2) ∧
      size.1 / size.2 = natural.1 / natural.2 ∧
      (size = natural ↔ natural.1 ≤ area.1 ∧ natural.2 ≤ area.2) ∧
      (size ≠ natural → size.1 = area.1 ∨ size.2 = area.2)) ∧
    DividesSafely ℚ ∧ DividesSafely Single := by
  refine ⟨fun pixels context area hwidth hheight harea hw hh hplain => ?_,
    fun m _ _ divide hdivide pixels context =>
      drawnSizeBy_eq ratioLaws_rat hdivide pixels context,
    fun m _ _ divide hdivide pixels context =>
      drawnSizeBy_eq ratioLaws_single hdivide pixels context⟩
  obtain ⟨w, h⟩ := area
  have hx : (0 : ℚ) < pixels.1 := Nat.cast_pos.mpr hwidth
  have hy : (0 : ℚ) < pixels.2 := Nat.cast_pos.mpr hheight
  simp only [drawnSize_eq_fitted pixels hplain, harea]
  by_cases hfits : (pixels.1 : ℚ) ≤ w ∧ (pixels.2 : ℚ) ≤ h
  · rw [fitted_of_le hfits.1 hfits.2]
    exact ⟨⟨hx, hfits.1⟩, ⟨hy, hfits.2⟩, rfl, by simp [hfits], fun h => absurd rfl h⟩
  · obtain ⟨k, hk, hfitted, htouches⟩ := fitted_of_not_le hx hy hw hh hfits
    have hinside : pixels.1 * k ≤ w ∧ pixels.2 * k ≤ h := by
      rcases htouches with ⟨hwide, hhigh⟩ | ⟨hwide, hhigh⟩
      · exact ⟨hwide.le, hhigh⟩
      · exact ⟨hwide, hhigh.le⟩
    rw [hfitted]
    refine ⟨⟨mul_pos hx hk, hinside.1⟩, ⟨mul_pos hy hk, hinside.2⟩,
      mul_div_mul_right _ _ hk.ne', ⟨fun h => ?_, fun h => absurd h hfits⟩, fun _ => ?_⟩
    · obtain ⟨hfirst, hsecond⟩ := Prod.mk.inj h
      exact ⟨hfirst ▸ hinside.1, hsecond ▸ hinside.2⟩
    · exact htouches.imp And.left And.right

/-- A page of 200 by 300 points with nothing but itself around it. -/
def barePage : Context :=
  ⟨[("bottom-margin", .number (.whole 0)), ("left-margin", .number (.whole 0)),
    ("page-height", .number (.whole 300)), ("page-width", .number (.whole 200)),
    ("right-margin", .number (.whole 0)), ("top-margin", .number (.whole 0))]⟩

def quotient? {α : Type} [Scalar α] (x y : α) : Option α := if y == 0 then none else some (x / y)

theorem drawnSize_fits_barePage :
    let size : ℚ × ℚ := drawnSize (400, 300) barePage
    size = (200, 150) ∧ size.1 / size.2 = 400 / 300 ∧ (size.1 = 200 ∨ size.2 = 300) ∧
      drawnSizeBy quotient? (400, 300) barePage =
        some (drawnSize (400, 300) barePage : Single × Single) := by
  have harea : contentArea barePage = some ((200 : ℚ), (300 : ℚ)) := by decide +kernel
  have hplain : ∀ key ∈ sizeKeys, (barePage.scalar? key : Option ℚ) = none := by decide
  obtain ⟨-, -, hratio, hfits, htouches⟩ := drawnSize_fits.1 (400, 300) barePage (200, 300)
    (by decide) (by decide) harea (by decide) (by decide) hplain
  have hquotient (x y : Single) (hy : (y == 0) = false) : quotient? x y = pure (x / y) :=
    if_neg (Bool.eq_false_iff.mp hy)
  have hsafe := drawnSize_fits.2.2 Option quotient? hquotient (400, 300) barePage
  exact ⟨by decide +kernel, hratio, htouches (by decide +kernel), hsafe⟩

end Folio.Compile
