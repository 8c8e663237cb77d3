import Gantry.Scalar
import Mathlib.Algebra.Order.Archimedean.Real.Basic
import Mathlib.Analysis.Real.Sqrt
import Mathlib.Tactic.Linarith
import Mathlib.Tactic.Positivity

/-!
# Exact arithmetic

The real numbers as scalars. What is proved of a machine over them holds of the machine as it is
meant, before any rounding.

This does NOT say how far binary64 is from it.
-/

namespace Gantry

/-- The nearest natural number, the even one of two. -/
noncomputable def nearestEven (x : ℝ) : ℕ :=
  let n := ⌊x⌋₊
  if x - n < 1 / 2 then n
  else if 1 / 2 < x - n then n + 1
  else n + n % 2

/-- No operation rounds, overflows or is undefined. -/
noncomputable instance exactScalar : Scalar ℝ where
  toBEq := ⟨fun x y => decide (x = y)⟩
  decLt := inferInstance
  decLe := inferInstance
  abs x := |x|
  sqrt := Real.sqrt
  isFinite _ := true
  nanoseconds? x := if x < 0 ∨ 2 ^ 64 ≤ x then none else some (nearestEven (x * 10 ^ 9))

namespace Exact

variable {x y lo hi : ℝ}

@[simp] theorem abs_eq (x : ℝ) : Scalar.abs x = |x| := rfl

@[simp] theorem sqrt_eq (x : ℝ) : Scalar.sqrt x = Real.sqrt x := rfl

theorem beq_iff : (x == y) = true ↔ x = y :=
  decide_eq_true_iff

theorem larger_eq (x y : ℝ) : Scalar.larger x y = max x y := by
  unfold Scalar.larger
  split
  · rename_i h
    exact (max_eq_right h).symm
  · rename_i h
    have := le_of_not_ge h
    rw [if_pos this, max_eq_left this]

theorem smaller_eq (x y : ℝ) : Scalar.smaller x y = min x y := by
  unfold Scalar.smaller
  split
  · rename_i h
    exact (min_eq_left h).symm
  · rename_i h
    have := le_of_not_ge h
    rw [if_pos this, min_eq_right this]

theorem isPositive_iff : Scalar.isPositive x = true ↔ 0 < x := by
  have hz : (0.0 : ℝ) = 0 := by norm_num
  unfold Scalar.isPositive
  rw [hz, Bool.and_eq_true]
  constructor
  · intro h
    exact of_decide_eq_true h.2
  · intro h
    exact ⟨rfl, decide_eq_true h⟩

theorem isNonNegative_iff : Scalar.isNonNegative x = true ↔ 0 ≤ x := by
  have hz : (0.0 : ℝ) = 0 := by norm_num
  unfold Scalar.isNonNegative
  rw [hz, Bool.and_eq_true]
  constructor
  · intro h
    exact of_decide_eq_true h.2
  · intro h
    exact ⟨rfl, decide_eq_true h⟩

theorem clamp?_isSome (x : ℝ) (h : lo ≤ hi) : ∃ y, Scalar.clamp? x lo hi = some y := by
  unfold Scalar.clamp?
  rw [if_pos h]
  exact ⟨_, rfl⟩

theorem clamp?_mem (h : Scalar.clamp? x lo hi = some y) : lo ≤ y ∧ y ≤ hi := by
  unfold Scalar.clamp? at h
  split at h
  · rename_i hle
    have hraised : lo ≤ if x < lo then lo else x := by
      split
      · exact le_refl lo
      · rename_i hx
        exact not_lt.mp hx
    simp only [Option.some.injEq] at h
    rw [← h]
    generalize (if x < lo then lo else x) = raised at hraised
    split
    · exact ⟨hle, le_refl hi⟩
    · rename_i hr
      exact ⟨hraised, not_lt.mp hr⟩
  · cases h

theorem clamp?_eq_self (hlo : lo ≤ x) (hhi : x ≤ hi) : Scalar.clamp? x lo hi = some x := by
  unfold Scalar.clamp?
  rw [if_pos (hlo.trans hhi), if_neg (not_lt.mpr hlo)]
  exact congrArg some (if_neg (not_lt.mpr hhi))

theorem near_refl (x : ℝ) : Scalar.Near x x := by
  have hpos : (0 : ℝ) ≤ max (1e-9 * Scalar.larger (Scalar.abs x) (Scalar.abs x)) 1e-12 := by
    apply le_max_of_le_right
    norm_num
  unfold Scalar.Near
  rw [larger_eq, abs_eq, sub_self, abs_zero]
  exact hpos

theorem near_of_eq (h : x = y) : Scalar.Near x y :=
  h ▸ near_refl x

end Exact

end Gantry
