import Mathlib.Analysis.Real.Sqrt
import Gantry.Proofs.Motion.PlannedMove

/-!
# Sampling a move

How often an axis is run on its way makes no difference to where it is. Two runs of one plan that
begin together agree whenever both are run at the same time, unless one of them was put on the
target early. It was so near by then that the other, which has only come nearer since, is within
the tolerance as well, or beyond the target by no more than two ramps are longer than the trip.
-/

namespace Gantry

/-- A number between two that are equal up to the tolerance is equal to both. -/
theorem Exact.near_of_between {x y z : ℝ} (h : Scalar.Near x y)
    (hz : |x - z| + |z - y| = |x - y|) : Scalar.Near x z := by
  unfold Scalar.Near at h ⊢
  rw [abs_eq, abs_eq, abs_eq, larger_eq, larger_eq] at h ⊢
  have hy : |y| ≤ |z| + |z - y| := by
    have := abs_sub_abs_le_abs_sub y z
    rw [abs_sub_comm] at this
    linarith
  have hmax : max |x| |y| ≤ max |x| |z| + |z - y| := by
    apply max_le
    · exact (le_max_left _ _).trans (le_add_of_nonneg_right (abs_nonneg _))
    · exact hy.trans (add_le_add_left (le_max_right _ _) _)
  have hgap := abs_nonneg (z - y)
  rcases le_max_iff.mp h with h | h
  · apply le_max_of_le_left
    norm_num at h ⊢
    linarith
  · apply le_max_of_le_right
    linarith

namespace Plan

noncomputable def point (p : Plan ℝ) (maxAcc t : ℝ) : ℝ :=
  p.start + p.direction * p.way maxAcc t

variable {p : Plan ℝ} {l : Limits ℝ} {s t : ℝ}

theorem phaseAt_ne_idle (h : t < p.moveTime) : p.phaseAt t ≠ .idle := by
  intro hi
  unfold phaseAt at hi
  rw [if_pos h] at hi
  split_ifs at hi

theorem MadeFor.way_le_reach (h : p.MadeFor l) (hs : 0 ≤ s) (ht : s ≤ p.moveTime) :
    p.way l.maxAcc s ≤ p.reach := by
  rw [← h.reach_eq, ← h.profile.way_moveTime]
  exact h.profile.way_mono hs ht le_rfl

theorem reach_sub_trip_le (p : Plan ℝ) :
    p.reach - p.trip ≤ max 0 (p.accTrip + p.accTrip - p.trip) := by
  unfold reach
  split
  · exact le_max_right _ _
  · rw [sub_self]
    exact le_max_left _ _

theorem MadeFor.abs_target_sub (h : p.MadeFor l) (t : ℝ) :
    |p.target - p.point l.maxAcc t| = |p.trip - p.way l.maxAcc t| := by
  have hsplit : p.target - p.point l.maxAcc t =
      p.direction * (p.trip - p.way l.maxAcc t) := by
    rw [← h.direction_mul, mul_sub, ← mul_assoc, h.profile.direction_sq, point]
    ring
  rw [hsplit, abs_mul, h.profile.direction, one_mul]

theorem MadeFor.abs_point_sub (h : p.MadeFor l) (t s : ℝ) :
    |p.point l.maxAcc t - p.point l.maxAcc s| = |p.way l.maxAcc t - p.way l.maxAcc s| := by
  unfold point
  rw [add_sub_add_left_eq_sub, ← mul_sub, abs_mul, h.profile.direction, one_mul]

/-- A plan that has come to its target up to the tolerance stays there, or overshoots. -/
theorem MadeFor.near_or_beyond (h : p.MadeFor l) (hs : 0 ≤ s) (hst : s ≤ t)
    (ht : t ≤ p.moveTime) (hn : Scalar.Near p.target (p.point l.maxAcc s)) :
    Scalar.Near p.target (p.point l.maxAcc t) ∨
      |p.target - p.point l.maxAcc t| ≤ max 0 (p.accTrip + p.accTrip - p.trip) := by
  have hway := h.profile.way_mono hs hst ht
  rcases le_total (p.way l.maxAcc t) p.trip with hle | hge
  · left
    apply Exact.near_of_between hn
    rw [h.abs_target_sub, h.abs_target_sub, h.abs_point_sub, abs_of_nonneg (sub_nonneg.mpr hle),
      abs_of_nonneg (sub_nonneg.mpr hway), abs_of_nonneg (sub_nonneg.mpr (hway.trans hle))]
    ring
  · right
    rw [h.abs_target_sub, abs_sub_comm, abs_of_nonneg (sub_nonneg.mpr hge)]
    have hreach := h.way_le_reach (hs.trans hst) ht
    exact (sub_le_sub_right hreach _).trans p.reach_sub_trip_le

end Plan

namespace Axis

def Planned (a : Axis ℝ) : Prop :=
  ∃ (b : Axis ℝ) (target : ℝ) (requested : Option ℝ) (p : Plan ℝ),
    Plan.toward? b.limits b.position target requested = some p ∧ a = b.planTo target requested

/-- The target is no farther than the tolerance, or than two ramps are longer than the trip. -/
def AlmostThere (a : Axis ℝ) : Prop :=
  Scalar.Near a.target a.position ∨
    |a.target - a.position| ≤ max 0 (a.plan.accTrip + a.plan.accTrip - a.plan.trip)

structure Ahead (b c : Axis ℝ) : Prop where
  arrived : b.motion = ⟨b.target, 0, 0⟩
  almost : c.AlmostThere

variable {a : Axis ℝ} {u v : ℕ → ℝ} {n k : ℕ}

theorem Planned.parts (h : a.Planned) :
    a.plan.MadeFor a.limits ∧ a.startTime = none ∧ a.position = a.plan.start := by
  obtain ⟨b, target, requested, p, hp, rfl⟩ := h
  obtain ⟨hmade, hstart⟩ := Plan.madeFor_of_toward? hp
  rw [planTo_of_some hp]
  exact ⟨hmade, rfl, hstart.symm⟩

theorem limits_after (a : Axis ℝ) (times : ℕ → ℝ) (n : ℕ) :
    (a.after times n).limits = a.limits := by
  rw [limits, config_after, limits]

theorem position_of_not_arrives (hs : a.startTime = none) (h : ¬ a.Arrives u n) :
    (a.after u (n + 1)).position = a.plan.point a.limits.maxAcc (u n - u 0) := by
  obtain ⟨hphase, -, hmotion⟩ := run_of_not_arrives hs h
  rw [position, hmotion]
  exact Plan.motionAt_position hphase

/-- A tick that puts an axis on its target before its plan is over finds it there up to the
tolerance, or has the plan lead there. -/
theorem near_of_run {t : ℝ} (hphase : a.plan.phaseAt (t - a.startTime.getD t) ≠ .idle)
    (h : (a.run t).motion = ⟨a.target, 0, 0⟩) :
    Scalar.Near a.target a.position ∨
      Scalar.Near a.target (a.plan.point a.limits.maxAcc (t - a.startTime.getD t)) := by
  rcases run_cases a t with ⟨-, hover⟩ | ⟨-, -, -, hmotion⟩
  · left
    by_contra hm
    exact hphase (hover hm)
  · right
    apply Exact.near_of_eq
    have hposition := congrArg Kinematics.position (h.symm.trans hmotion)
    rw [Plan.motionAt_position hphase] at hposition
    exact hposition

theorem exists_near_of_arrives (ha : a.Planned) (hu : Monotone u) (h : a.Arrives u n)
    (hn : u n - u 0 < a.plan.moveTime) :
    ∃ i ≤ n, Scalar.Near a.target (a.plan.point a.limits.maxAcc (u i - u 0)) := by
  obtain ⟨hmade, hs, hx⟩ := ha.parts
  have hphase := Plan.phaseAt_ne_idle hn
  induction n with
  | zero =>
    have hpoint : a.plan.point a.limits.maxAcc (u 0 - u 0) = a.position := by
      rw [sub_self, Plan.point, hmade.profile.way_zero, mul_zero, add_zero, hx]
    have hfirst : a.startTime.getD (u 0) = u 0 := by
      rw [hs]
      rfl
    have hbegin : a.plan.phaseAt (u 0 - a.startTime.getD (u 0)) ≠ .idle := by
      rw [hfirst]
      exact hphase
    refine ⟨0, le_rfl, ?_⟩
    rw [hpoint]
    rcases near_of_run hbegin h with hnear | hnear
    · exact hnear
    · rw [hfirst, hpoint] at hnear
      exact hnear
  | succ n ih =>
    by_cases hbefore : a.Arrives u n
    · have hle : u n - u 0 ≤ u (n + 1) - u 0 := sub_le_sub_right (hu n.le_succ) _
      have hlt := hle.trans_lt hn
      obtain ⟨i, hi, hnear⟩ := ih hbefore hlt (Plan.phaseAt_ne_idle hlt)
      exact ⟨i, hi.trans n.le_succ, hnear⟩
    · obtain ⟨-, hstart, -⟩ := run_of_not_arrives hs hbefore
      have hfirst : (a.after u (n + 1)).startTime.getD (u (n + 1)) = u 0 := by
        rw [hstart]
        rfl
      rw [← hfirst, ← a.plan_after u (n + 1)] at hphase
      have hmotion : ((a.after u (n + 1)).run (u (n + 1))).motion =
          ⟨(a.after u (n + 1)).target, 0, 0⟩ := by
        rw [target_after]
        exact h
      rcases near_of_run hphase hmotion with hnear | hnear
      · rw [target_after, position_of_not_arrives hs hbefore] at hnear
        exact ⟨n, n.le_succ, hnear⟩
      · rw [target_after, plan_after, hfirst, limits_after] at hnear
        exact ⟨n + 1, le_rfl, hnear⟩

theorem ahead_of_arrives (ha : a.Planned) (hu : Monotone u) (h0 : u 0 = v 0) (ht : u n = v k)
    (hn : a.Arrives u n) (hk : ¬ a.Arrives v k) :
    Ahead (a.after u (n + 1)) (a.after v (k + 1)) := by
  obtain ⟨hmade, hs, -⟩ := ha.parts
  have hend : v k - v 0 < a.plan.moveTime :=
    hmade.profile.lt_moveTime (run_of_not_arrives hs hk).1
  have hend' := hend
  rw [← ht, ← h0] at hend'
  obtain ⟨i, hi, hnear⟩ := exists_near_of_arrives ha hu hn hend'
  have hlate : u i - u 0 ≤ v k - v 0 := by
    rw [← ht, ← h0]
    exact sub_le_sub_right (hu hi) _
  constructor
  · rw [target_after]
    exact hn
  · unfold AlmostThere
    rw [target_after, position_of_not_arrives hs hk, plan_after]
    exact hmade.near_or_beyond (sub_nonneg.mpr (hu (Nat.zero_le i))) hlate hend.le hnear

/-- Two runs of a planned axis that begin and end at the same times. -/
theorem motion_of_ticks (ha : a.Planned) (hu : Monotone u) (hv : Monotone v) (h0 : u 0 = v 0)
    (ht : u n = v k) :
    (a.after u (n + 1)).motion = (a.after v (k + 1)).motion ∨
      Ahead (a.after u (n + 1)) (a.after v (k + 1)) ∨
      Ahead (a.after v (k + 1)) (a.after u (n + 1)) := by
  by_cases hn : a.Arrives u n
  · by_cases hk : a.Arrives v k
    · exact Or.inl (hn.trans hk.symm)
    · exact Or.inr (Or.inl (ahead_of_arrives ha hu h0 ht hn hk))
  · by_cases hk : a.Arrives v k
    · exact Or.inr (Or.inr (ahead_of_arrives ha hv h0.symm ht.symm hk hn))
    · obtain ⟨-, hs, -⟩ := ha.parts
      left
      rw [(run_of_not_arrives hs hn).2.2, (run_of_not_arrives hs hk).2.2, h0, ht]

/-- An axis of unit limits on its way to minus two and a half, read four times a second and two
times a second. -/
theorem motion_sampled_twice :
    let a : Axis ℝ := (ofConfig ⟨0, 1, 1, 1, 1, 0⟩).setTarget (-5 / 2) (some 3)
    let u : ℕ → ℝ := fun n => n / 4
    let v : ℕ → ℝ := fun n => n / 2
    (a.Planned ∧ Monotone u ∧ Monotone v ∧ u 0 = v 0 ∧ u 4 = v 2) ∧
      ((a.after u 5).motion = (a.after v 3).motion ∨
        Ahead (a.after u 5) (a.after v 3) ∨ Ahead (a.after v 3) (a.after u 5)) := by
  intro a u v
  have hz : (0.0 : ℝ) = 0 := by norm_num
  have hspeed : 0 < Scalar.smaller ((some (3 : ℝ)).getD 1) 1 := by
    rw [Exact.smaller_eq]
    exact lt_min three_pos one_pos
  have hway : (-5 / 2 - 0.0 : ℝ) ≠ 0.0 := by
    rw [hz]
    norm_num
  have ha : a.Planned := by
    have hacc : 0 < (⟨1, 1⟩ : Limits ℝ).maxAcc := one_pos
    obtain ⟨p, hp⟩ := Plan.toward?_isSome hspeed hacc hway
    exact ⟨ofConfig ⟨0, 1, 1, 1, 1, 0⟩, _, _, p, hp, rfl⟩
  have hu : Monotone u := by
    intro n k hnk
    apply div_le_div_of_nonneg_right (Nat.cast_le.mpr hnk)
    exact zero_le_four
  have hv : Monotone v := by
    intro n k hnk
    apply div_le_div_of_nonneg_right (Nat.cast_le.mpr hnk)
    exact zero_le_two
  have h0 : u 0 = v 0 := by
    simp only [u, v, Nat.cast_zero, zero_div]
  have ht : u 4 = v 2 := by
    simp only [u, v]
    norm_num
  exact ⟨⟨ha, hu, hv, h0, ht⟩, motion_of_ticks ha hu hv h0 ht⟩

end Axis

end Gantry
