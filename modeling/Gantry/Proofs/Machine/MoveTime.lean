import Mathlib.Analysis.Real.Sqrt
import Mathlib.Algebra.Order.Floor.Semiring
import Gantry.Proofs.Heat.Step
import Gantry.Proofs.Machine.Coordination
import Gantry.Proofs.Machine.LimitChange

/-!
# How many ticks a move takes

A move from a standstill has some axes plan a way. Its time is the longest of theirs. Each of them
begins with the first tick and has followed its plan for one step less than there were ticks, so
none of them moves any more once the steps between the ticks add up to the time of the move.
-/

namespace Gantry

/-- The time of a move: the longest that an axis with a way to go plans for it. -/
noncomputable def Machine.moveTime (m : Machine ℝ) (target : Target ℝ) (speed : Option ℝ) : ℝ :=
  (AxisId.all.map fun i =>
    if m.distance target i = 0 then 0
    else ((m.setTarget target speed).1.axis i).plan.moveTime).foldl Scalar.larger 0

/-- An axis is on its way in a move of a time `d`, of which `j` ticks have passed, one every `step`
seconds and the last one at a time `now`. -/
structure Axis.InMove (a : Axis ℝ) (now step d : ℝ) (j : ℕ) : Prop where
  profile : a.plan.Profile a.limits
  moveTime_le : a.plan.moveTime ≤ d
  /-- How long the axis will have followed its plan at the next tick. -/
  elapsed : now + step - a.startTime.getD (now + step) = j * step
  ticks_le : j ≤ ⌈d / step⌉₊

def Machine.InMove (m : Machine ℝ) (step d : ℝ) (j : ℕ) : Prop :=
  ∀ i, (m.axis i).Moving → (m.axis i).InMove m.time step d j

/-- The limits of the axes and all factors of the feed are positive. -/
structure Machine.Ready (m : Machine ℝ) : Prop where
  axes : ∀ i, (m.axis i).Able
  feedOverride : 0 < m.feedOverride
  defaultSpeed : 0 < m.defaultSpeed

/-- Between two machines nothing happens to limits and plans: only coordinates are declared anew.
What happens to the feed keeps it positive. -/
structure Machine.Aside (m n : Machine ℝ) : Prop where
  axis : ∀ i, ∃ offset, n.axis i = { m.axis i with offset := offset }
  time : n.time = m.time
  feedOverride : 0 < n.feedOverride
  defaultSpeed : 0 < n.defaultSpeed

/-- A tick that leaves an axis on its way shows that its time is not over. -/
theorem Axis.InMove.run {a : Axis ℝ} {now step d : ℝ} {j : ℕ} (h : a.InMove now step d j)
    (hstep : 0 < step) (hm : (a.run (now + step)).Moving) :
    (a.run (now + step)).InMove (now + step) step d (j + 1) := by
  rcases a.run_cases (now + step) with ⟨hmotion, -⟩ | ⟨-, hphase, hstart, -⟩
  · have hat : (a.run (now + step)).AtTarget := by
      rw [AtTarget, run_target, position, hmotion]
    exact absurd hm (not_moving_of_atTarget hat)
  · have hlt := h.profile.lt_moveTime hphase
    rw [h.elapsed] at hlt
    constructor
    · rw [run_plan, limits_of_config (run_config _ _)]
      exact h.profile
    · rw [run_plan]
      exact h.moveTime_le
    · rw [hstart, Option.getD_some, add_sub_right_comm, h.elapsed]
      push_cast
      ring
    · have hsteps : (j : ℝ) < d / step := by
        rw [lt_div_iff₀ hstep]
        exact hlt.trans_le h.moveTime_le
      exact Nat.lt_ceil.mpr hsteps

namespace Machine

variable {m n : Machine ℝ} {target : Target ℝ} {speed : Option ℝ} {step d : ℝ} {j : ℕ}

theorem InMove.tick (h : m.InMove step d j) (hstep : 0 < step) (hn : m.tick step = .ok n) :
    n.InMove step d (j + 1) := by
  intro i hi
  have haxis : n.axis i = (m.axis i).run (m.time + step) := (parts_of_run hn).1 i
  rw [haxis] at hi ⊢
  rw [time_of_run hn]
  -- What a tick leaves moving has been moving before.
  have hm : (m.axis i).Moving := by
    by_contra hm
    apply Axis.not_moving_of_atTarget _ hi
    rw [Axis.AtTarget, Axis.run_target]
    exact Axis.position_run_of_not_moving hm _
  exact (h i hm).run hstep hi

theorem exists_moving (h : m.isMoving = true) : ∃ i, (m.axis i).Moving := by
  by_contra hno
  rw [isMoving_eq_false_iff.mpr (not_exists.mp hno)] at h
  cases h

theorem Aside.moving_iff (h : m.Aside n) (i : AxisId) :
    (n.axis i).Moving ↔ (m.axis i).Moving := by
  obtain ⟨offset, hi⟩ := h.axis i
  rw [hi]
  exact Iff.rfl

theorem Aside.isMoving_eq (h : m.Aside n) : n.isMoving = m.isMoving := by
  unfold isMoving
  congr 1
  funext i
  exact decide_eq_decide.mpr (h.moving_iff i)

theorem Ready.aside (hm : m.Ready) (h : m.Aside n) : n.Ready := by
  refine ⟨fun i => ?_, h.feedOverride, h.defaultSpeed⟩
  obtain ⟨offset, hi⟩ := h.axis i
  rw [hi]
  exact (hm.axes i).of_config rfl

theorem Ready.tick (hm : m.Ready) (hn : m.tick step = .ok n) : n.Ready := by
  obtain ⟨haxis, hfeed, -⟩ := parts_of_run hn
  refine ⟨fun i => ?_, ?_, ?_⟩
  · rw [haxis]
    exact (hm.axes i).of_config (Axis.run_config _ _)
  · rw [hfeed]
    exact hm.feedOverride
  · rw [(sameCourse_of_run hn).defaultSpeed]
    exact hm.defaultSpeed

theorem InMove.aside (h : m.InMove step d j) (hn : m.Aside n) : n.InMove step d j := by
  intro i hi
  have hm := h i ((hn.moving_iff i).mp hi)
  obtain ⟨offset, ho⟩ := hn.axis i
  rw [ho, hn.time]
  exact ⟨hm.profile, hm.moveTime_le, hm.elapsed, hm.ticks_le⟩

theorem Aside.refl (h : m.Ready) : m.Aside m :=
  ⟨fun i => ⟨(m.axis i).offset, rfl⟩, rfl, h.feedOverride, h.defaultSpeed⟩

theorem Aside.applyOffset (h : m.Ready) (target : Target ℝ) : m.Aside (m.applyOffset target) := by
  refine ⟨fun i => ?_, rfl, h.feedOverride, h.defaultSpeed⟩
  simp only [Machine.axis, Machine.applyOffset, PerAxis.get_ofFn]
  split
  · exact ⟨_, rfl⟩
  · exact ⟨_, rfl⟩

theorem Aside.clearOffset (h : m.Ready) (j : AxisId) : m.Aside (m.clearOffset j) := by
  refine ⟨fun i => ?_, rfl, h.feedOverride, h.defaultSpeed⟩
  by_cases hi : i = j
  · subst hi
    exact ⟨_, PerAxis.get_set_self _ _ _⟩
  · exact ⟨_, PerAxis.get_set_of_ne _ _ hi⟩

theorem moveTime_le (m : Machine ℝ) (target : Target ℝ) (speed : Option ℝ) {i : AxisId}
    (hd : m.distance target i ≠ 0) :
    ((m.setTarget target speed).1.axis i).plan.moveTime ≤ m.moveTime target speed := by
  refine (foldl_larger_spec _ _).2.1 _ (List.mem_map.mpr ⟨i, AxisId.mem_all i, ?_⟩)
  rw [if_neg hd]

theorem feed_pos_of_withFeed? {k : Machine ℝ} (hm : m.Ready) (h : m.withFeed? speed = some k) :
    0 < speed.getD m.defaultSpeed := by
  unfold withFeed? at h
  cases speed with
  | none => exact hm.defaultSpeed
  | some s =>
    simp only at h
    split at h
    · exact Exact.isPositive_iff.mp ‹_›
    · cases h

/-- A move that plans nothing names a feed at most. -/
theorem aside_of_not_planned (hm : m.Ready) (h : (m.setTarget target speed).2 = false) :
    m.Aside (m.setTarget target speed).1 := by
  have hsame : m.Aside m := .refl hm
  unfold setTarget at h ⊢
  cases hk : m.withFeed? speed with
  | none => exact hsame
  | some k =>
    have hpos := feed_pos_of_withFeed? hm hk
    have hk' := eq_of_withFeed? hk
    subst hk'
    rw [hk] at h
    simp only at h ⊢
    split at h
    · rename_i hb
      rw [if_pos hb]
      exact ⟨hsame.axis, rfl, hm.feedOverride, hpos⟩
    · cases h

theorem feed_pos_of_planned (hm : m.Ready) (h : (m.setTarget target speed).2 = true) :
    0 < speed.getD m.defaultSpeed := by
  cases hk : m.withFeed? speed with
  | none =>
    unfold setTarget at h
    rw [hk] at h
    cases h
  | some k => exact feed_pos_of_withFeed? hm hk

theorem Ready.move (hm : m.Ready) (target : Target ℝ) (speed : Option ℝ) :
    (m.setTarget target speed).1.Ready := by
  cases hn : (m.setTarget target speed).2 with
  | false => exact hm.aside (aside_of_not_planned hm hn)
  | true =>
    refine ⟨fun i => ?_, ?_, ?_⟩
    · rcases m.axis_setTarget target speed i with hi | ⟨v, s, -, hi⟩ <;> rw [hi]
      · exact hm.axes i
      · exact (hm.axes i).of_config (Axis.setTarget_config _ _ _)
    · rw [feedOverride_setTarget]
      exact hm.feedOverride
    · rw [(setTarget_of_planned hn).2]
      exact feed_pos_of_planned hm hn

theorem inMove_of_planned (hm : m.Ready) (hstill : m.isMoving = false)
    (h : (m.setTarget target speed).2 = true) (step : ℝ) :
    (m.setTarget target speed).1.InMove step (m.moveTime target speed) 0 := by
  intro i hi
  by_cases hd : m.distance target i = 0
  · have hsame : (m.setTarget target speed).1.axis i = m.axis i := by
      rw [(setTarget_of_planned h).2]
      exact axis_planMove_of_distance (m := m.setDefaultSpeed (speed.getD m.defaultSpeed)) hd
    rw [hsame] at hi
    exact absurd hi (isMoving_eq_false_iff.mp hstill i)
  · obtain ⟨v, hv⟩ := get_of_distance hd
    have hfeed : 0 < m.feed speed := mul_pos (feed_pos_of_planned hm h) hm.feedOverride
    obtain ⟨p, hp, haxis, -⟩ := timed_of_planned h hfeed hv hd (hm.axes i)
    have hle := m.moveTime_le target speed hd
    rw [haxis] at hle ⊢
    constructor
    · exact (Plan.madeFor_of_toward? hp).1.profile
    · exact hle
    · rw [Option.getD_none, sub_self, Nat.cast_zero, zero_mul]
    · exact Nat.zero_le _

end Machine

end Gantry
