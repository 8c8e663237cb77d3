import Mathlib
import Gantry.Proofs.Number.Special

/-!
# Magnitudes

A float is bounded by `k` if it is finite and no larger than `2 ^ k` in magnitude. Each operation
adds to the exponents, and a number that something small is added to again and again stops at a
power of two, `Bounded.add_small`. A number is up to `k` if it is not below zero besides.
-/

namespace Gantry.Number

variable {x y lo hi : Float} {k l n : ℤ}

/-- The powers of two that are far from overflow and underflow. -/
abbrev Fits (n : ℤ) : Prop :=
  -1074 ≤ n ∧ n ≤ 1023

def Bounded (x : Float) (k : ℤ) : Prop :=
  Within x (-2 ^ k) (2 ^ k)

theorem bounded_iff : Bounded x k ↔ x.isFinite = true ∧ |toRat x| ≤ 2 ^ k := by
  constructor
  · intro h
    exact ⟨h.isFinite, abs_le.mpr ⟨h.ge, h.le⟩⟩
  · rintro ⟨hfin, habs⟩
    obtain ⟨hlo, hhi⟩ := abs_le.mp habs
    exact ⟨hfin, hlo, hhi⟩

theorem two_zpow_add_le (h : k + 1 ≤ n) (h' : l + 1 ≤ n) : (2 : ℚ) ^ k + 2 ^ l ≤ 2 ^ n := by
  have hk : (2 : ℚ) ^ k ≤ 2 ^ (n - 1) := zpow_le_zpow_right₀ (by norm_num) (by omega)
  have hl : (2 : ℚ) ^ l ≤ 2 ^ (n - 1) := zpow_le_zpow_right₀ (by norm_num) (by omega)
  have hn : (2 : ℚ) ^ n = 2 ^ (n - 1) + 2 ^ (n - 1) := by
    rw [← mul_two, ← zpow_add_one₀ (by norm_num), sub_add_cancel]
  linarith

theorem bounded_of_abs_le (hy : Bounded y k) (h : x.abs ≤ y) : Bounded x k := by
  have hfin := isFinite_of_abs_le hy.isFinite h
  obtain ⟨hfin', hval⟩ := abs_finite hfin
  rw [le_iff hfin' hy.isFinite, hval] at h
  exact bounded_iff.mpr ⟨hfin, h.trans hy.le⟩

namespace Bounded

theorem isNaN (h : Bounded x k) : x.isNaN = false :=
  isNaN_of_isFinite h.isFinite

theorem mono (h : Bounded x k) (hk : k ≤ n := by norm_num) : Bounded x n := by
  have hpow : (2 : ℚ) ^ k ≤ 2 ^ n := zpow_le_zpow_right₀ (by norm_num) hk
  exact Within.mono h (neg_le_neg hpow) hpow

theorem of_rounded {r : ℚ} (h : IsRounded x r) (hr : |r| ≤ 2 ^ n) (hn : Fits n) :
    Bounded x n := by
  obtain ⟨hge, hle⟩ := abs_le.mp hr
  have hend := endpoint_two_zpow hn.1 hn.2
  exact h.within hend.neg hend hge hle

theorem add_le (hx : Bounded x k) (hy : Bounded y l) (hk : k + 1 ≤ n) (hl : l + 1 ≤ n) :
    |toRat x + toRat y| ≤ 2 ^ n :=
  calc |toRat x + toRat y| ≤ |toRat x| + |toRat y| := abs_add_le _ _
    _ ≤ 2 ^ k + 2 ^ l := add_le_add (bounded_iff.mp hx).2 (bounded_iff.mp hy).2
    _ ≤ 2 ^ n := two_zpow_add_le hk hl

theorem add (hx : Bounded x k) (hy : Bounded y l) (hk : k + 1 ≤ n := by norm_num)
    (hl : l + 1 ≤ n := by norm_num) (hn : Fits n := by decide) : Bounded (x + y) n :=
  of_rounded (add_rounded hx.isFinite hy.isFinite) (hx.add_le hy hk hl) hn

theorem sub (hx : Bounded x k) (hy : Bounded y l) (hk : k + 1 ≤ n := by norm_num)
    (hl : l + 1 ≤ n := by norm_num) (hn : Fits n := by decide) : Bounded (x - y) n := by
  refine of_rounded (sub_rounded hx.isFinite hy.isFinite) ?_ hn
  calc |toRat x - toRat y| ≤ |toRat x| + |toRat y| := abs_sub _ _
    _ ≤ 2 ^ k + 2 ^ l := add_le_add (bounded_iff.mp hx).2 (bounded_iff.mp hy).2
    _ ≤ 2 ^ n := two_zpow_add_le hk hl

theorem abs_mul_le (hx : Bounded x k) (hy : Bounded y l) (hn : k + l ≤ n) :
    |toRat x * toRat y| ≤ 2 ^ n := by
  rw [abs_mul]
  calc |toRat x| * |toRat y| ≤ 2 ^ k * 2 ^ l :=
        mul_le_mul (bounded_iff.mp hx).2 (bounded_iff.mp hy).2 (abs_nonneg _) (by positivity)
    _ = 2 ^ (k + l) := by rw [zpow_add₀ (by norm_num)]
    _ ≤ 2 ^ n := zpow_le_zpow_right₀ (by norm_num) hn

theorem mul (hx : Bounded x k) (hy : Bounded y l) (hkl : k + l ≤ n := by norm_num)
    (hn : Fits n := by decide) : Bounded (x * y) n :=
  of_rounded (mul_rounded hx.isFinite hy.isFinite) (hx.abs_mul_le hy hkl) hn

theorem abs_div_le (hx : Bounded x k) (hl : 2 ^ l ≤ toRat y) (hn : k - l ≤ n) :
    |toRat x / toRat y| ≤ 2 ^ n := by
  have hpow : (0 : ℚ) < 2 ^ l := by positivity
  rw [abs_div, abs_of_pos (hpow.trans_le hl)]
  calc |toRat x| / toRat y ≤ 2 ^ k / 2 ^ l :=
        div_le_div₀ (by positivity) (bounded_iff.mp hx).2 hpow hl
    _ = 2 ^ (k - l) := by rw [zpow_sub₀ (by norm_num)]
    _ ≤ 2 ^ n := zpow_le_zpow_right₀ (by norm_num) hn

theorem div (hx : Bounded x k) (hy : y.isFinite = true) (hl : 2 ^ l ≤ toRat y)
    (hkl : k - l ≤ n := by norm_num) (hn : Fits n := by decide) : Bounded (x / y) n := by
  have hpow : (0 : ℚ) < 2 ^ l := by positivity
  exact of_rounded (div_rounded hx.isFinite hy (hpow.trans_le hl).ne') (hx.abs_div_le hl hkl) hn

/-- Rounding does not cross zero. -/
theorem sign_of_rounded {r : ℚ} (h : IsRounded x r) (hr : |r| ≤ 2 ^ n) (hn : n ≤ 1023) :
    (0 ≤ r → 0 ≤ toRat x) ∧ (r ≤ 0 → toRat x ≤ 0) := by
  obtain ⟨-, hnear⟩ := h.nearest (hr.trans (zpow_le_zpow_right₀ (by norm_num) hn))
  exact ⟨hnear.le_of_ge onGrid_zero, hnear.le_of_le onGrid_zero⟩

/-- What is a little more than a power of two is rounded down to it. -/
theorem of_rounded_near {r : ℚ} (h : IsRounded x r) (hr : |r| ≤ 2 ^ k + 2 ^ (k - 54))
    (hlo : -1022 ≤ k) (hhi : k ≤ 1022) : Bounded x k := by
  have hfits : (2 : ℚ) ^ k + 2 ^ (k - 54) ≤ 2 ^ (1023 : ℤ) :=
    two_zpow_add_le (by omega) (by omega)
  obtain ⟨hfin, hnear⟩ := h.nearest (hr.trans hfits)
  exact bounded_iff.mpr ⟨hfin, hnear.abs_le_two_zpow hlo hr⟩

/-- Something small added to a number does not carry it beyond a power of two. -/
theorem add_small (hx : Bounded x k) (hy : Bounded y (k - 54)) (hlo : -1022 ≤ k := by norm_num)
    (hhi : k ≤ 1022 := by norm_num) : Bounded (x + y) k := by
  refine of_rounded_near (add_rounded hx.isFinite hy.isFinite) ?_ hlo hhi
  calc |toRat x + toRat y| ≤ |toRat x| + |toRat y| := abs_add_le _ _
    _ ≤ 2 ^ k + 2 ^ (k - 54) := add_le_add (bounded_iff.mp hx).2 (bounded_iff.mp hy).2

theorem small_sub (hx : Bounded x k) (hy : Bounded y (k - 54)) (hlo : -1022 ≤ k := by norm_num)
    (hhi : k ≤ 1022 := by norm_num) : Bounded (y - x) k := by
  refine of_rounded_near (sub_rounded hy.isFinite hx.isFinite) ?_ hlo hhi
  calc |toRat y - toRat x| ≤ |toRat y| + |toRat x| := abs_sub _ _
    _ ≤ 2 ^ (k - 54) + 2 ^ k := add_le_add (bounded_iff.mp hy).2 (bounded_iff.mp hx).2
    _ = 2 ^ k + 2 ^ (k - 54) := add_comm _ _

theorem clamp (hx : Bounded x k) (hlo : lo.isFinite = true) (hlo0 : toRat lo ≤ 0)
    (hhi : hi.isFinite = true) (hhi0 : 0 ≤ toRat hi) (h : Scalar.clamp? x lo hi = some y) :
    Bounded y k := by
  obtain ⟨hxlo, hxhi⟩ := abs_le.mp (bounded_iff.mp hx).2
  have hpow : (0 : ℚ) < 2 ^ k := by positivity
  obtain ⟨hle, -⟩ := clamp?_cases h
  unfold Scalar.clamp? at h
  simp only [if_pos hle, Option.some.injEq] at h
  subst h
  by_cases hlt : x < lo
  · have hlt' := (lt_iff hx.isFinite hlo).mp hlt
    rw [if_pos hlt, if_neg]
    · exact bounded_iff.mpr ⟨hlo, abs_le.mpr ⟨by linarith, by linarith⟩⟩
    · show ¬ hi < lo
      rw [lt_iff hhi hlo]
      linarith
  · rw [if_neg hlt]
    split
    · rename_i hgt
      have hgt' := (lt_iff hhi hx.isFinite).mp hgt
      exact bounded_iff.mpr ⟨hhi, abs_le.mpr ⟨by linarith, by linarith⟩⟩
    · exact hx

end Bounded

/-- Finite, not below zero and at most `2 ^ k`. -/
def Upto (x : Float) (k : ℤ) : Prop :=
  Within x 0 (2 ^ k)

namespace Upto

theorem bounded (h : Upto x k) : Bounded x k := by
  refine Within.mono h ?_ le_rfl
  rw [neg_nonpos]
  positivity

theorem of_bounded (h : Bounded x k) (h0 : 0 ≤ toRat x) : Upto x k :=
  ⟨h.isFinite, h0, h.le⟩

theorem mono (h : Upto x k) (hk : k ≤ n := by norm_num) : Upto x n :=
  of_bounded (h.bounded.mono hk) h.ge

theorem of_rounded {r : ℚ} (h : IsRounded x r) (hr0 : 0 ≤ r) (hr : r ≤ 2 ^ n) (hn : Fits n) :
    Upto x n :=
  h.within endpoint_zero (endpoint_two_zpow hn.1 hn.2) hr0 hr

theorem mul (hx : Upto x k) (hy : Upto y l) (hkl : k + l ≤ n := by norm_num)
    (hn : Fits n := by decide) : Upto (x * y) n := by
  refine of_rounded (mul_rounded hx.isFinite hy.isFinite) (mul_nonneg hx.ge hy.ge) ?_ hn
  exact (le_abs_self _).trans (Bounded.abs_mul_le hx.bounded hy.bounded hkl)

theorem div (hx : Upto x k) (hy : y.isFinite = true) (hl : 2 ^ l ≤ toRat y)
    (hkl : k - l ≤ n := by norm_num) (hn : Fits n := by decide) : Upto (x / y) n := by
  have hpow : (0 : ℚ) < 2 ^ l := by positivity
  have hpos : 0 < toRat y := hpow.trans_le hl
  refine of_rounded (div_rounded hx.isFinite hy hpos.ne') (div_nonneg hx.ge hpos.le) ?_ hn
  exact (le_abs_self _).trans (Bounded.abs_div_le hx.bounded hl hkl)

theorem sqrt (hx : Upto x (2 * k)) (hk : Fits k := by decide) : Upto x.sqrt k :=
  Within.sqrt hx hk.1 hk.2

theorem zero (k : ℤ) : Upto 0.0 k := by
  refine ⟨isFinite_zero, toRat_zero.ge, ?_⟩
  rw [toRat_zero]
  positivity

end Upto

end Gantry.Number
