import Mathlib.Analysis.Real.Sqrt
import Gantry.Execution.Homing
import Gantry.Proofs.Machine.Restart

/-!
# What homing of an axis achieves

Wherever the axis was and whatever it was about, it stands still after the approach. From there on
its coordinates coincide. It is sent to the back-off distance unless it counts as being there, and
from there back to zero, which is so far away that the way always counts. Ticks and settings in
between make no difference to any of this, whatever they do to the plans.

Nothing here says what follows a request to shut down.
-/

namespace Gantry

namespace Axis

/-- What a tick or a setting does to an axis: it does not send it anywhere. -/
structure Calm (a b : Axis ℝ) : Prop where
  offset : b.offset = a.offset
  target : b.target = a.target
  still : ¬ a.Moving → ¬ b.Moving

/-- At rest at physical zero, where both kinds of coordinates coincide. -/
structure Zeroed (a : Axis ℝ) : Prop where
  offset : a.offset = 0
  target : a.target = 0
  still : ¬ a.Moving

def BackedOff (a : Axis ℝ) : Prop :=
  ∃ x, Scalar.Near backOffDistance x ∧ Scalar.Near a.target x

variable {a b : Axis ℝ}

theorem calm_run (a : Axis ℝ) (time : ℝ) : a.Calm (a.run time) := by
  refine ⟨a.run_offset time, a.run_target time, fun h => ?_⟩
  apply not_moving_of_atTarget
  rw [AtTarget, run_target]
  exact position_run_of_not_moving h time

theorem Calm.of_position (ho : b.offset = a.offset) (ht : b.target = a.target)
    (hp : b.position = a.position) : a.Calm b := by
  refine ⟨ho, ht, fun h => ?_⟩
  rw [Moving, ht, hp]
  exact h

theorem Zeroed.of_calm (h : a.Zeroed) (hb : a.Calm b) : b.Zeroed :=
  ⟨hb.offset.trans h.offset, hb.target.trans h.target, hb.still h.still⟩

theorem Zeroed.abs_position_le (h : a.Zeroed) : |a.position| ≤ 1e-12 := by
  have hnear : Scalar.Near a.target a.position := not_not.mp h.still
  have hpos := abs_nonneg a.position
  unfold Scalar.Near at hnear
  rw [h.target, Exact.larger_eq, Exact.larger_eq, Exact.abs_eq, Exact.abs_eq, Exact.abs_eq,
    abs_zero, zero_sub, abs_neg, max_eq_right hpos] at hnear
  rcases le_max_iff.mp hnear with hle | hle
  · norm_num at hle ⊢
    linarith
  · exact hle

/-- An axis that has backed off is not so near to zero that it would count as being there. -/
theorem BackedOff.not_near_zero (h : a.BackedOff) (hm : ¬ a.Moving) :
    ¬ Scalar.Near 0 a.position := by
  have hback : (backOffDistance : ℝ) = 0.002 := rfl
  obtain ⟨x, hx, ht⟩ := h
  have hnear : Scalar.Near a.target a.position := not_not.mp hm
  rw [hback] at hx
  have hx' := abs_le.mp (Exact.dist_of_near (Exact.near_symm hx))
  rw [abs_of_pos (by norm_num : (0 : ℝ) < 0.002)] at hx'
  have hxpos : 0 < x := by
    norm_num at hx' ⊢
    linarith
  have ht' := abs_le.mp (Exact.dist_of_near ht)
  rw [abs_of_pos hxpos] at ht'
  have htpos : 0 < a.target := by
    norm_num at hx' ht' ⊢
    linarith
  have hp := abs_le.mp (Exact.dist_of_near (Exact.near_symm hnear))
  rw [abs_of_pos htpos] at hp
  have hfar : 1e-9 ≤ a.position := by
    norm_num at hx' ht' hp ⊢
    linarith
  intro hzero
  exact Machine.not_near_zero hfar (Exact.near_symm hzero)

end Axis

namespace Homing

/-- What is known of an axis by the stage of its homing. -/
def Stands (a : Axis ℝ) : Homing ℝ → Prop
  | locate => True
  | start .approach _ => True
  | travel .approach _ => True
  | check .approach => ¬ a.Moving
  | release => ¬ a.Moving
  | start .backOff v => v = backOffDistance ∧ a.offset = 0 ∧ ¬ a.Moving
  | travel .backOff _ => a.offset = 0 ∧ a.BackedOff
  | check .backOff => a.offset = 0 ∧ ¬ a.Moving ∧ a.BackedOff
  | start .creep v => v = 0 ∧ a.offset = 0 ∧ ¬ a.Moving ∧ a.BackedOff
  | travel .creep _ => a.offset = 0 ∧ a.target = 0
  | check .creep => a.Zeroed

def Outcome.Stands (a : Axis ℝ) : Outcome ℝ → Prop
  | going h => h.Stands a
  | done => a.Zeroed
  | interrupted => False

variable {a b : Axis ℝ} {h : Homing ℝ}

theorem Stands.of_calm (hs : h.Stands a) (hb : a.Calm b) : h.Stands b := by
  have hback (ha : a.BackedOff) : b.BackedOff := by
    rw [Axis.BackedOff, hb.target]
    exact ha
  cases h with
  | locate => trivial
  | release => exact hb.still hs
  | start leg v =>
    cases leg with
    | approach => trivial
    | backOff => exact ⟨hs.1, hb.offset.trans hs.2.1, hb.still hs.2.2⟩
    | creep => exact ⟨hs.1, hb.offset.trans hs.2.1, hb.still hs.2.2.1, hback hs.2.2.2⟩
  | travel leg w =>
    cases leg with
    | approach => trivial
    | backOff => exact ⟨hb.offset.trans hs.1, hback hs.2⟩
    | creep => exact ⟨hb.offset.trans hs.1, hb.target.trans hs.2⟩
  | check leg =>
    cases leg with
    | approach => exact hb.still hs
    | backOff => exact ⟨hb.offset.trans hs.1, hb.still hs.2.1, hback hs.2.2⟩
    | creep => exact Axis.Zeroed.of_calm hs hb

end Homing

namespace Machine

variable {m : Machine ℝ} {i j : AxisId} {v s : ℝ}

theorem hasCartesian_single (hi : i ∈ AxisId.cartesian) (v : ℝ) :
    (PerAxis.single i v).hasCartesian = true := by
  apply List.any_eq_true.mpr
  refine ⟨i, hi, ?_⟩
  rw [PerAxis.single, PerAxis.get_set_self]
  rfl

/-- An axis that is sent somewhere counts as being there, or takes it for its target. -/
theorem axis_single_cases (h : m.Able) (hi : i ∈ AxisId.cartesian) (hs : 0 < s) (v : ℝ) :
    (Scalar.Near v (m.axis i).virtualPosition ∧
      (m.setTarget (PerAxis.single i v) (some s)).1.axis i = m.axis i) ∨
    (((m.setTarget (PerAxis.single i v) (some s)).1.axis i).target = (m.axis i).toPhysical v ∧
      ((m.setTarget (PerAxis.single i v) (some s)).1.axis i).offset = (m.axis i).offset) := by
  have hget : (PerAxis.single i v).get i = some v := PerAxis.get_set_self _ _ _
  have hfeed : m.HasFeed (some s) := hs
  by_cases hd : m.distance (PerAxis.single i v) i = 0
  · left
    exact ⟨(distance_eq_zero_iff hget).mp hd, axis_setTarget_of_distance h hfeed (Or.inr hd)⟩
  · right
    have hpath : m.pathLength (PerAxis.single i v) ≠ 0 :=
      fun hp => hd (distance_of_pathLength (hasCartesian_single hi v) hp i hi)
    obtain ⟨htarget, -, hoffset⟩ := axis_setTarget_of_some h hfeed hget hpath hd
    exact ⟨htarget, hoffset⟩

theorem axis_single_of_ne (m : Machine ℝ) (hj : j ≠ i) (v : ℝ) (speed : Option ℝ) :
    (m.setTarget (PerAxis.single i v) speed).1.axis j = m.axis j := by
  rcases m.axis_setTarget (PerAxis.single i v) speed j with hn | ⟨u, s, hu, -⟩
  · exact hn
  · rw [PerAxis.get_single_of_ne v hj] at hu
    cases hu

theorem homed_setTarget (m : Machine ℝ) (target : Target ℝ) (speed : Option ℝ) :
    (m.setTarget target speed).1.homed = m.homed := by
  obtain ⟨feed, hn | ⟨t, hn⟩⟩ := m.setTarget_cases target speed <;> rw [hn] <;> rfl

/-- All that happens between two machines happens to one axis and to the feed. -/
structure Apart (m n : Machine ℝ) (i : AxisId) : Prop where
  able : m.Able → n.Able
  axis : ∀ j, j ≠ i → n.axis j = m.axis j
  homed : n.homed = m.homed

theorem Apart.refl (m : Machine ℝ) (i : AxisId) : m.Apart m i :=
  ⟨id, fun _ _ => rfl, rfl⟩

end Machine

namespace Homing

variable {m : Machine ℝ} {i : AxisId} {h : Homing ℝ}

theorem apart_of_step (shutdown : Bool) (m : Machine ℝ) (i : AxisId) (h : Homing ℝ) :
    m.Apart (h.step shutdown m i).1 i := by
  cases h with
  | start leg v =>
    constructor
    · intro hm
      exact hm.move _ _
    · intro j hj
      exact m.axis_single_of_ne hj v _
    · exact m.homed_setTarget _ _
  | release =>
    constructor
    · intro hm
      exact hm.withAxis i ((hm.axes i).of_config rfl)
    · intro j hj
      exact PerAxis.get_set_of_ne _ _ hj
    · rfl
  | locate => exact .refl m i
  | travel leg w => exact .refl m i
  | check leg => exact .refl m i

theorem speed_pos (leg : Leg) : 0 < (leg.speed : ℝ) := by
  have hfast : (0 : ℝ) < 0.01 := by norm_num
  have hslow : (0 : ℝ) < 0.001 := by norm_num
  cases leg with
  | approach => exact hfast
  | backOff => exact hfast
  | creep => exact hslow

/-- What is known on the way does not depend on the wait. -/
theorem stands_travel {a : Axis ℝ} {leg : Leg} {v : Wait} (hs : (travel leg v).Stands a)
    (w : Wait) : (travel leg w).Stands a := by
  cases leg with
  | approach => trivial
  | backOff => exact hs
  | creep => exact hs

theorem stands_afterLeg {leg : Leg} {w : Wait} (hs : (travel leg w).Stands (m.axis i))
    (hm : m.isMoving = false) : (afterLeg leg : Homing ℝ).Stands (m.axis i) := by
  have hz : (0.0 : ℝ) = 0 := by norm_num
  have hstill := Machine.isMoving_eq_false_iff.mp hm i
  cases leg with
  | approach => exact hstill
  | backOff => exact ⟨hz, hs.1, hstill, hs.2⟩
  | creep => exact ⟨hs.1, hs.2, hstill⟩

theorem stands_of_start (hm : m.Able) (hi : i ∈ AxisId.cartesian) {leg : Leg} {v : ℝ}
    (hs : (start leg v).Stands (m.axis i)) : (travel leg .flag).Stands
      ((m.setTarget (PerAxis.single i v) (some leg.speed)).1.axis i) := by
  rcases m.axis_single_cases hm hi (speed_pos leg) v with ⟨hnear, hsame⟩ | ⟨htarget, hoffset⟩
  · rw [hsame]
    cases leg with
    | approach => trivial
    | backOff =>
      obtain ⟨rfl, ho, hstill⟩ := hs
      rw [Axis.virtualPosition, Axis.toVirtual, ho, add_zero] at hnear
      exact ⟨ho, _, hnear, not_not.mp hstill⟩
    | creep =>
      obtain ⟨rfl, ho, hstill, hback⟩ := hs
      rw [Axis.virtualPosition, Axis.toVirtual, ho, add_zero] at hnear
      exact absurd hnear (hback.not_near_zero hstill)
  · cases leg with
    | approach => trivial
    | backOff =>
      obtain ⟨rfl, ho, -⟩ := hs
      rw [Axis.toPhysical, ho, sub_zero] at htarget
      exact ⟨hoffset.trans ho, _, Exact.near_refl _, Exact.near_of_eq htarget⟩
    | creep =>
      obtain ⟨rfl, ho, -⟩ := hs
      rw [Axis.toPhysical, ho, sub_zero] at htarget
      exact ⟨hoffset.trans ho, htarget⟩

theorem stands_of_step (hm : m.Able) (hi : i ∈ AxisId.cartesian) (hs : h.Stands (m.axis i)) :
    (h.step false m i).2.Stands ((h.step false m i).1.axis i) := by
  have hz : (0.0 : ℝ) = 0 := by norm_num
  cases h with
  | locate => trivial
  | start leg v => exact stands_of_start hm hi hs
  | travel leg w =>
    cases w with
    | flag => exact stands_travel hs .look
    | nap => exact stands_travel hs .flag
    | look =>
      cases hmet : Goal.stopped.isMet m with
      | true =>
        have hover : Wait.step .stopped false m .look = none := by
          rw [Wait.step, hmet]
          rfl
        have hstop : m.isMoving = false := by simpa [Goal.isMet] using hmet
        rw [step, hover]
        exact stands_afterLeg hs hstop
      | false =>
        have hnap : Wait.step .stopped false m .look = some .nap := by
          rw [Wait.step, hmet]
          rfl
        rw [step, hnap]
        exact stands_travel hs .nap
  | check leg =>
    cases leg with
    | approach => exact hs
    | backOff => exact ⟨hz, hs⟩
    | creep => exact hs
  | release =>
    have hclear : (m.clearOffset i).axis i = (m.axis i).clearOffset := PerAxis.get_set_self _ _ _
    rw [step, hclear]
    exact ⟨rfl, hz, hs⟩

end Homing

end Gantry
