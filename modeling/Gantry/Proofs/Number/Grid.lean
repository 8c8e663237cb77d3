import Mathlib.Algebra.Order.Field.Power
import Mathlib.Algebra.Order.Field.Rat
import Mathlib.Tactic.Linarith
import Mathlib.Tactic.NormNum
import Mathlib.Tactic.Positivity
import Mathlib.Tactic.Ring

/-!
# The binary grid

The numbers of 53 binary digits, none of which is worth less than `2 ^ (-1074)`. Binary64 rounds to
the nearest of them; this grid has no end, so overflow is not seen here.

What is used of rounding is that it never crosses a point of the grid, `Nearest.le_of_le`, and that
a small step beyond a power of two leads back to it, `Nearest.le_two_zpow`.
-/

namespace Gantry.Number

def OnGrid (x : ℚ) : Prop :=
  ∃ n e : ℤ, |n| ≤ 2 ^ 53 ∧ -1074 ≤ e ∧ x = n * 2 ^ e

/-- A point of the grid that is as near to `r` as any other. -/
structure Nearest (r x : ℚ) : Prop where
  onGrid : OnGrid x
  closest : ∀ y, OnGrid y → |x - r| ≤ |y - r|

variable {r x c : ℚ}

theorem onGrid_intCast {n : ℤ} (h : |n| ≤ 2 ^ 53) : OnGrid n :=
  ⟨n, 0, h, by norm_num, by simp⟩

theorem onGrid_two_zpow {k : ℤ} (h : -1074 ≤ k) : OnGrid (2 ^ k) :=
  ⟨1, k, by norm_num, h, by simp⟩

theorem onGrid_zero : OnGrid 0 := by
  simpa using onGrid_intCast (n := 0) (by norm_num)

theorem OnGrid.neg (h : OnGrid x) : OnGrid (-x) := by
  obtain ⟨n, e, hn, he, rfl⟩ := h
  exact ⟨-n, e, by rwa [abs_neg], he, by push_cast; ring⟩

theorem OnGrid.gap {k : ℤ} (h : OnGrid x) (hx : 2 ^ k < x) : 2 ^ k + 2 ^ (k - 52) ≤ x := by
  obtain ⟨n, e, hn, he, rfl⟩ := h
  have hpow : (0 : ℚ) < 2 ^ e := by positivity
  have hn53 : (n : ℚ) ≤ 2 ^ (53 : ℤ) := by
    have := (le_abs_self n).trans hn
    exact_mod_cast this
  have hke : k - 52 ≤ e := by
    by_contra hlt
    have : (n : ℚ) * 2 ^ e ≤ 2 ^ k := by
      calc (n : ℚ) * 2 ^ e ≤ 2 ^ (53 : ℤ) * 2 ^ e := by gcongr
        _ = 2 ^ (53 + e) := by rw [← zpow_add₀ (by norm_num)]
        _ ≤ 2 ^ k := zpow_le_zpow_right₀ (by norm_num) (by omega)
    linarith
  -- Both sides are whole multiples of the unit in the last place of the power.
  obtain ⟨d, rfl⟩ : ∃ d : ℕ, e = k - 52 + d := ⟨(e - (k - 52)).toNat, by omega⟩
  have hu : (0 : ℚ) < 2 ^ (k - 52) := by positivity
  have hk : (2 : ℚ) ^ k = 2 ^ 52 * 2 ^ (k - 52) := by
    rw [show k = 52 + (k - 52) by ring, zpow_add₀ (by norm_num)]
    norm_num
  have he : (n : ℚ) * 2 ^ (k - 52 + (d : ℤ)) = ((n * 2 ^ d : ℤ) : ℚ) * 2 ^ (k - 52) := by
    rw [zpow_add₀ (by norm_num), zpow_natCast]
    push_cast
    ring
  rw [he, hk] at hx
  rw [he, hk]
  have hlt : (2 ^ 52 : ℤ) < n * 2 ^ d := by
    have := lt_of_mul_lt_mul_right hx hu.le
    exact_mod_cast this
  have hle : ((2 ^ 52 + 1 : ℤ) : ℚ) ≤ ((n * 2 ^ d : ℤ) : ℚ) := by exact_mod_cast hlt
  calc (2 : ℚ) ^ 52 * 2 ^ (k - 52) + 2 ^ (k - 52)
      = ((2 ^ 52 + 1 : ℤ) : ℚ) * 2 ^ (k - 52) := by push_cast; ring
    _ ≤ _ := by gcongr

namespace Nearest

theorem neg (h : Nearest r x) : Nearest (-r) (-x) := by
  refine ⟨h.onGrid.neg, fun y hy => ?_⟩
  have := h.closest (-y) hy.neg
  rwa [show -x - -r = -(x - r) by ring, abs_neg, show y - -r = -(-y - r) by ring, abs_neg]

theorem le_of_le (h : Nearest r x) (hc : OnGrid c) (hr : r ≤ c) : x ≤ c := by
  by_contra hx
  have hdist := h.closest c hc
  rw [abs_of_nonneg (by linarith), abs_of_nonneg (by linarith)] at hdist
  linarith

theorem le_of_ge (h : Nearest r x) (hc : OnGrid c) (hr : c ≤ r) : c ≤ x := by
  have := h.neg.le_of_le hc.neg (neg_le_neg hr)
  linarith

theorem eq_of_onGrid (h : Nearest r x) (hr : OnGrid r) : x = r :=
  le_antisymm (h.le_of_le hr le_rfl) (h.le_of_ge hr le_rfl)

/-- Less than half a unit in the last place beyond a power of two is lost. -/
theorem le_two_zpow {k : ℤ} (h : Nearest r x) (hk : -1022 ≤ k) (hr : r ≤ 2 ^ k + 2 ^ (k - 54)) :
    x ≤ 2 ^ k := by
  by_contra hx
  have hgrid : OnGrid (2 ^ k) := onGrid_two_zpow (by omega)
  have hgap := h.onGrid.gap (not_le.mp hx)
  have hr' : 2 ^ k < r := not_le.mp fun hle => hx (h.le_of_le hgrid hle)
  have hdist := h.closest _ hgrid
  have hunit : (2 : ℚ) ^ (k - 52) = 4 * 2 ^ (k - 54) := by
    rw [show k - 52 = 2 + (k - 54) by ring, zpow_add₀ (by norm_num)]
    norm_num
  have hpos : (0 : ℚ) < 2 ^ (k - 54) := by positivity
  rw [abs_of_nonneg (by linarith), abs_of_nonpos (by linarith)] at hdist
  linarith

theorem abs_le_two_zpow {k : ℤ} (h : Nearest r x) (hk : -1022 ≤ k)
    (hr : |r| ≤ 2 ^ k + 2 ^ (k - 54)) : |x| ≤ 2 ^ k := by
  obtain ⟨hlo, hhi⟩ := abs_le.mp hr
  exact abs_le.mpr ⟨by linarith [h.neg.le_two_zpow hk (by linarith)], h.le_two_zpow hk hhi⟩

end Nearest

/-- A whole number within one half of a real one is as near to it as any other. -/
theorem abs_sub_le_of_half {n : ℤ} {q : ℚ} (h : |(n : ℚ) - q| ≤ 1 / 2) (k : ℤ) :
    |(n : ℚ) - q| ≤ |(k : ℚ) - q| := by
  rcases eq_or_ne k n with rfl | hne
  · exact le_rfl
  · have hone : (1 : ℚ) ≤ |(k : ℚ) - n| := by
      have := Int.one_le_abs (sub_ne_zero.mpr hne)
      exact_mod_cast this
    have htri : |(k : ℚ) - n| ≤ |(k : ℚ) - q| + |(n : ℚ) - q| := by
      rw [abs_sub_comm (n : ℚ) q]
      exact abs_sub_le _ _ _
    linarith

/-- A number rounded to whole units of `2 ^ t` is rounded to the grid, where that unit is the least
one or the number has all 53 digits above it. -/
theorem nearest_of_half {n : ℕ} {t : ℤ} {q : ℚ} (ht : -1074 ≤ t) (hn : n ≤ 2 ^ 53)
    (hq : |(n : ℚ) - q| ≤ 1 / 2) (hfull : t = -1074 ∨ 2 ^ 52 ≤ q) :
    Nearest (q * 2 ^ t) (n * 2 ^ t) := by
  have hpos : (0 : ℚ) < 2 ^ t := by positivity
  have hscale (z : ℚ) : |z * 2 ^ t - q * 2 ^ t| = |z - q| * 2 ^ t := by
    rw [← sub_mul, abs_mul, abs_of_pos hpos]
  have hwhole (k : ℤ) : |(n : ℚ) * 2 ^ t - q * 2 ^ t| ≤ |(k : ℚ) * 2 ^ t - q * 2 ^ t| := by
    rw [hscale, hscale]
    have := abs_sub_le_of_half (n := n) (by exact_mod_cast hq) k
    exact mul_le_mul_of_nonneg_right (by exact_mod_cast this) hpos.le
  refine ⟨⟨n, t, ?_, ht, by push_cast; rfl⟩, ?_⟩
  · rw [abs_of_nonneg (by positivity)]
    exact_mod_cast hn
  · rintro y ⟨k, s, hk, hs, rfl⟩
    by_cases hst : t ≤ s
    · obtain ⟨d, rfl⟩ : ∃ d : ℕ, s = t + d := ⟨(s - t).toNat, by omega⟩
      have hmul : (k : ℚ) * 2 ^ (t + (d : ℤ)) = ((k * 2 ^ d : ℤ) : ℚ) * 2 ^ t := by
        rw [zpow_add₀ (by norm_num), zpow_natCast]
        push_cast
        ring
      rw [hmul]
      exact hwhole _
    · -- A finer point lies below the least number of 53 digits in the coarser unit.
      have hq52 := hfull.resolve_left (by omega)
      have hk53 : (k : ℚ) ≤ 2 ^ (53 : ℤ) := by
        have := (le_abs_self k).trans hk
        exact_mod_cast this
      have hy : (k : ℚ) * 2 ^ s ≤ 2 ^ 52 * 2 ^ t := by
        calc (k : ℚ) * 2 ^ s ≤ 2 ^ (53 : ℤ) * 2 ^ s := by gcongr
          _ = 2 ^ (53 + s) := by rw [← zpow_add₀ (by norm_num)]
          _ ≤ 2 ^ (52 + t) := zpow_le_zpow_right₀ (by norm_num) (by omega)
          _ = 2 ^ 52 * 2 ^ t := by rw [zpow_add₀ (by norm_num)]; norm_num
      have hr : (2 : ℚ) ^ 52 * 2 ^ t ≤ q * 2 ^ t := by gcongr
      refine (hwhole (2 ^ 52)).trans ?_
      push_cast
      rw [abs_of_nonpos (by linarith), abs_of_nonpos (by linarith)]
      linarith

end Gantry.Number
