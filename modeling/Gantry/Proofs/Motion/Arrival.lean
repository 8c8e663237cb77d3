import Gantry.Proofs.Machine.Setting
import Gantry.Proofs.Motion.Exact

/-!
# Arrival

An axis that follows a plan arrives exactly at its target. It does so at the latest at the first
tick after the duration of the plan, counted from the first tick of all, and stays there.

Nothing here says where an axis is on its way.
-/

namespace Gantry

namespace Plan

theorem toward?_isSome {limits : Limits ℝ} {start target : ℝ} {requested : Option ℝ}
    (hs : 0 < Scalar.smaller (requested.getD limits.maxSpeed) limits.maxSpeed)
    (ha : 0 < limits.maxAcc) (ht : target ≠ start) :
    ∃ p, toward? limits start target requested = some p := by
  have hz : (0.0 : ℝ) = 0 := by norm_num
  have htrip : ¬ (Scalar.abs (target - start) == (0.0 : ℝ)) = true := by
    rw [Exact.beq_iff, Exact.abs_eq, hz, abs_eq_zero, sub_eq_zero]
    exact ht
  unfold toward?
  simp only
  rw [if_neg htrip, hz, if_pos ⟨hs, ha⟩]
  exact ⟨_, rfl⟩

noncomputable def duration (p : Plan ℝ) : ℝ :=
  max (max p.accTime p.decTime) p.moveTime

theorem phaseAt_of_duration_le {p : Plan ℝ} {t : ℝ} (h : p.duration ≤ t) :
    p.phaseAt t = .idle := by
  have hacc : ¬ t < p.accTime :=
    not_lt.mpr (((le_max_left _ _).trans (le_max_left _ _)).trans h)
  have hdec : ¬ t < p.decTime :=
    not_lt.mpr (((le_max_right _ _).trans (le_max_left _ _)).trans h)
  have hmove : ¬ t < p.moveTime := not_lt.mpr ((le_max_right _ _).trans h)
  rw [phaseAt, if_neg hacc, if_neg hdec, if_neg hmove]

end Plan

namespace Axis

/-- The axis is exactly at its target. -/
def AtTarget (a : Axis ℝ) : Prop :=
  a.position = a.target

structure Able (a : Axis ℝ) : Prop where
  speed : 0 < a.config.maxSpeed
  acc : 0 < a.config.maxAcc

/-- An axis that is told to move a way takes up the plan, and is to begin with it. -/
theorem setTarget_of_ne {a : Axis ℝ} (ha : a.Able) {v s : ℝ} (hs : 0 < s)
    (hv : v ≠ a.virtualPosition) :
    (a.setTarget v (some s)).target = a.toPhysical v ∧
      (a.setTarget v (some s)).startTime = none := by
  have hne : a.toPhysical v ≠ a.position := by
    intro he
    apply hv
    unfold virtualPosition toVirtual
    rw [← he, toPhysical, sub_add_cancel]
  have hspeed : 0 < Scalar.smaller ((some s).getD a.limits.maxSpeed) a.limits.maxSpeed := by
    rw [Exact.smaller_eq]
    exact lt_min hs ha.speed
  obtain ⟨p, hp⟩ := Plan.toward?_isSome hspeed ha.acc hne
  unfold setTarget planTo
  rw [hp]
  exact ⟨Plan.target_of_toward? hp, rfl⟩

theorem not_moving_of_atTarget {a : Axis ℝ} (h : a.AtTarget) : ¬ a.Moving := by
  intro hm
  exact hm (Exact.near_of_eq h.symm)

theorem position_run_of_not_moving {a : Axis ℝ} (h : ¬ a.Moving) (time : ℝ) :
    (a.run time).position = a.target := by
  unfold run
  rw [if_neg h]
  rfl

/-- A tick brings the axis to its target, or has it begin to follow its plan. -/
theorem run_or (a : Axis ℝ) (time : ℝ) :
    (a.run time).AtTarget ∨ (a.run time).startTime = some (a.startTime.getD time) ∧
      time - a.startTime.getD time < a.plan.duration := by
  by_cases hm : a.Moving
  · by_cases hp : a.plan.phaseAt (time - a.startTime.getD time) = .idle
    · left
      rw [AtTarget, run_target]
      unfold run follow
      simp only
      rw [if_pos hm, if_pos hp]
      rfl
    · right
      constructor
      · unfold run follow
        simp only
        rw [if_pos hm, if_neg hp]
        rfl
      · by_contra hle
        exact hp (Plan.phaseAt_of_duration_le (not_lt.mp hle))
  · left
    rw [AtTarget, run_target]
    exact position_run_of_not_moving hm time

theorem atTarget_run {a : Axis ℝ} (h : a.AtTarget) (time : ℝ) : (a.run time).AtTarget := by
  rw [AtTarget, run_target]
  exact position_run_of_not_moving (not_moving_of_atTarget h) time

noncomputable def after (a : Axis ℝ) (times : ℕ → ℝ) : ℕ → Axis ℝ
  | 0 => a
  | n + 1 => (a.after times n).run (times n)

variable {a : Axis ℝ} {times : ℕ → ℝ}

theorem plan_after (a : Axis ℝ) (times : ℕ → ℝ) (n : ℕ) : (a.after times n).plan = a.plan := by
  induction n with
  | zero => rfl
  | succ n ih => rw [after, run_plan, ih]

theorem target_after (a : Axis ℝ) (times : ℕ → ℝ) (n : ℕ) :
    (a.after times n).target = a.target := by
  rw [target, plan_after, target]

theorem offset_after (a : Axis ℝ) (times : ℕ → ℝ) (n : ℕ) :
    (a.after times n).offset = a.offset := by
  induction n with
  | zero => rfl
  | succ n ih => rw [after, run_offset, ih]

theorem atTarget_after_of_le {n k : ℕ} (hn : (a.after times n).AtTarget) (hk : n ≤ k) :
    (a.after times k).AtTarget := by
  induction k, hk using Nat.le_induction with
  | base => exact hn
  | succ k _ ih => exact atTarget_run ih (times k)

/-- An axis that has not arrived has followed its plan since the first tick. -/
theorem startTime_after (h : a.startTime = none) (n : ℕ) :
    (a.after times (n + 1)).AtTarget ∨ (a.after times (n + 1)).startTime = some (times 0) := by
  induction n with
  | zero =>
    rcases run_or a (times 0) with hr | ⟨hr, -⟩
    · exact Or.inl hr
    · rw [h] at hr
      exact Or.inr hr
  | succ n ih =>
    rcases ih with ih | ih
    · exact Or.inl (atTarget_run ih _)
    · rcases run_or (a.after times (n + 1)) (times (n + 1)) with hr | ⟨hr, -⟩
      · exact Or.inl hr
      · rw [ih] at hr
        exact Or.inr hr

theorem atTarget_after (h : a.startTime = none) {n : ℕ}
    (hn : times 0 + a.plan.duration ≤ times n) : (a.after times (n + 1)).AtTarget := by
  have hlate : ¬ times n - times 0 < a.plan.duration := by linarith
  rcases run_or (a.after times n) (times n) with hr | ⟨-, hr⟩
  · exact hr
  · cases n with
    | zero =>
      rw [show (a.after times 0).startTime = none from h, plan_after] at hr
      exact absurd hr hlate
    | succ n =>
      rcases startTime_after h n with hs | hs
      · exact atTarget_run hs _
      · rw [hs, plan_after] at hr
        exact absurd hr hlate

theorem exists_atTarget (times : ℕ → ℝ) (h : a.startTime = none ∨ a.AtTarget) :
    ∃ b, ∀ n, b ≤ times n → (a.after times (n + 1)).AtTarget := by
  rcases h with h | h
  · exact ⟨times 0 + a.plan.duration, fun n hn => atTarget_after h hn⟩
  · exact ⟨0, fun n _ => atTarget_after_of_le (n := 0) h (Nat.zero_le _)⟩

end Axis

end Gantry
