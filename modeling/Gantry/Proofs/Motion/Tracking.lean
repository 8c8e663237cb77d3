import Gantry.Proofs.Machine.Reachable
import Gantry.Proofs.Motion.Profile

/-!
# Tracking

An axis is at its target, waits to begin with its plan, or is under way on it. Whatever is asked of
it between two ticks, it stays in one of these states and where it is; a tick takes it from one of
them to another, within the limits in force and without a jump.

Nothing here says that an axis arrives.
-/

namespace Gantry.Axis

structure WithinLimits (a : Axis ℝ) : Prop where
  speed : |a.motion.speed| ≤ a.config.maxSpeed
  acc : |a.motion.acc| ≤ a.config.maxAcc

/-- Where an axis stands, by the time of its last tick if there was one. -/
inductive OnCourse (a : Axis ℝ) (last : Option ℝ) : Prop where
  | arrived (h : a.AtTarget)
  /-- The plan begins with the next tick. -/
  | waiting (hp : a.plan.MadeFor a.limits) (hs : a.startTime = none)
      (hx : a.position = a.plan.start)
  /-- The plan began at time `s` and is not over. -/
  | underWay {s t : ℝ} (hp : a.plan.MadeFor a.limits) (hs : a.startTime = some s)
      (hl : last = some t) (hst : s ≤ t) (ht : t - s < a.plan.moveTime)
      (hx : a.position = a.plan.start + a.plan.direction * a.plan.way a.config.maxAcc (t - s))

/-- The axis is at its target, or was asked for a speed that it can have. -/
def Willing (a : Axis ℝ) : Prop :=
  a.AtTarget ∨ ∀ s, a.plan.requested = some s → 0 < s

variable {a : Axis ℝ} {last : Option ℝ}

theorem onCourse_ofConfig (c : AxisConfig ℝ) : (ofConfig c).OnCourse none :=
  .arrived rfl

theorem planTo_of_some {target : ℝ} {requested : Option ℝ} {p : Plan ℝ}
    (h : Plan.toward? a.limits a.position target requested = some p) :
    a.planTo target requested = { a with plan := p, startTime := none } := by
  rw [planTo, h]

theorem planTo_of_none {target : ℝ} {requested : Option ℝ}
    (h : Plan.toward? a.limits a.position target requested = none) :
    a.planTo target requested = a := by
  rw [planTo, h]

/-- New limits have the axis plan anew from where it is, unless it is at its target. -/
theorem Willing.onCourse_setLimits (h : a.Willing) {l : Limits ℝ} (hs : 0 < l.maxSpeed)
    (ha : 0 < l.maxAcc) : (a.setLimits l).OnCourse last := by
  cases hp : Plan.toward? l a.position a.target a.plan.requested with
  | some p =>
    obtain ⟨hmade, hstart⟩ := Plan.madeFor_of_toward? hp
    have he : a.setLimits l = _ := planTo_of_some hp
    rw [he]
    exact .waiting hmade rfl hstart.symm
  | none =>
    apply OnCourse.arrived
    rw [AtTarget, setLimits_position, setLimits_target]
    rcases Plan.toward?_eq_none hp with he | hno
    · exact he.symm
    · rcases h with h | h
      · exact h
      · exfalso
        apply hno
        rw [Exact.smaller_eq]
        refine ⟨lt_min ?_ hs, ha⟩
        cases hr : a.plan.requested with
        | none => exact hs
        | some s => exact h s hr

namespace OnCourse

theorem planTo (h : a.OnCourse last) (target : ℝ) (requested : Option ℝ) :
    (a.planTo target requested).OnCourse last := by
  cases hp : Plan.toward? a.limits a.position target requested with
  | none =>
    rw [planTo_of_none hp]
    exact h
  | some p =>
    rw [planTo_of_some hp]
    obtain ⟨hmade, hstart⟩ := Plan.madeFor_of_toward? hp
    exact .waiting hmade rfl hstart.symm

theorem withOffset (h : a.OnCourse last) (offset : ℝ) :
    OnCourse { a with offset := offset } last := by
  cases h with
  | arrived h => exact .arrived h
  | waiting hp hs hx => exact .waiting hp hs hx
  | underWay hp hs hl hst ht hx => exact .underWay hp hs hl hst ht hx

theorem willing (h : a.OnCourse last) : a.Willing := by
  cases h with
  | arrived h => exact Or.inl h
  | waiting hp _ _ => exact Or.inr fun s hs => Plan.requested_pos_of_toward? hp hs
  | underWay hp _ _ _ _ _ => exact Or.inr fun s hs => Plan.requested_pos_of_toward? hp hs

theorem setLimits (h : a.OnCourse last) {l : Limits ℝ} (hs : 0 < l.maxSpeed) (ha : 0 < l.maxAcc) :
    (a.setLimits l).OnCourse last :=
  h.willing.onCourse_setLimits hs ha

end OnCourse

/-- A tick puts the axis on its target, or on the way of its plan. -/
theorem run_cases (a : Axis ℝ) (u : ℝ) :
    ((a.run u).motion = ⟨a.target, 0, 0⟩ ∧
      (a.Moving → a.plan.phaseAt (u - a.startTime.getD u) = .idle)) ∨
    (a.Moving ∧ a.plan.phaseAt (u - a.startTime.getD u) ≠ .idle ∧
      (a.run u).startTime = some (a.startTime.getD u) ∧
      (a.run u).motion = a.plan.motionAt a.config.maxAcc (u - a.startTime.getD u)) := by
  have hz : (0.0 : ℝ) = 0 := by norm_num
  by_cases hm : a.Moving
  · by_cases hp : a.plan.phaseAt (u - a.startTime.getD u) = .idle
    · left
      refine ⟨?_, fun _ => hp⟩
      unfold run follow
      simp only
      rw [if_pos hm, if_pos hp]
      simp only [withDynamics, arrive, hz]
    · right
      refine ⟨hm, hp, ?_, ?_⟩ <;>
      · unfold run follow
        simp only
        rw [if_pos hm, if_neg hp]
        rfl
  · left
    refine ⟨?_, fun h => absurd h hm⟩
    unfold run
    rw [if_neg hm]
    simp only [withDynamics, arrive, hz]

/-- A tick that keeps the axis on its course, within its limits and near to where it was. -/
structure Tracks (a b : Axis ℝ) (last : Option ℝ) (u : ℝ) : Prop where
  course : b.OnCourse (some u)
  limits : b.WithinLimits
  step : |b.position - a.position| ≤
    a.config.maxSpeed * last.elim 0 (u - ·) + a.plan.tolerance

theorem elapsed_nonneg {u : ℝ} (hu : ∀ t, last = some t → t ≤ u) : 0 ≤ last.elim 0 (u - ·) := by
  cases last with
  | none => exact le_refl 0
  | some t => exact sub_nonneg.mpr (hu t rfl)

variable {u : ℝ}

/-- The bit of a move that is taken at once is within the tolerance. -/
theorem dist_of_not_moving (h : ¬ a.Moving) : |a.target - a.position| ≤ a.plan.tolerance := by
  have hnear : Scalar.Near a.target a.position := not_not.mp h
  have hd := Exact.dist_of_near (Exact.near_symm hnear)
  rw [abs_sub_comm] at hd
  have hstart := abs_nonneg a.plan.start
  unfold Plan.tolerance
  rw [target] at hd ⊢
  norm_num at hd ⊢
  linarith

/-- An axis whose plan is over has come so near to the end of its way that the rest is no more
than what it can travel since the last tick, up to the tolerance. -/
theorem OnCourse.dist_of_idle (h : a.OnCourse last) (hm : a.Moving)
    (hi : a.plan.phaseAt (u - a.startTime.getD u) = .idle) :
    |a.target - a.position| ≤ a.config.maxSpeed * last.elim 0 (u - ·) + a.plan.tolerance := by
  cases h with
  | arrived h => exact absurd hm (not_moving_of_atTarget h)
  | waiting hp hs hx =>
    rw [hs, Option.getD_none, sub_self, Plan.phaseAt, if_pos hp.profile.ramp_pos] at hi
    cases hi
  | @underWay s t hp hs hl hst ht hx =>
    have hprofile := hp.profile
    have hend : a.plan.moveTime ≤ u - s := by
      rw [hs, Option.getD_some] at hi
      by_contra hlt
      unfold Plan.phaseAt at hi
      split_ifs at hi
      exact absurd ‹¬ u - s < a.plan.moveTime› (not_not.mpr (not_le.mp hlt))
    have hgap := hprofile.gap
    have hway := hprofile.way_sub_le (sub_nonneg.mpr hst) ht.le (le_refl _)
    rw [hprofile.way_moveTime] at hway
    -- From where the axis is to the end of its way, and from there to the target.
    have hsplit : a.target - a.position =
        (a.plan.target - (a.plan.start + a.plan.direction * (a.plan.decTrip + a.plan.accTrip))) +
          a.plan.direction * (a.plan.decTrip + a.plan.accTrip -
            a.plan.way a.config.maxAcc (t - s)) := by
      rw [target, hx]
      ring
    have hspeed : a.plan.speed * (a.plan.moveTime - (t - s)) ≤ a.config.maxSpeed * (u - t) :=
      mul_le_mul hprofile.speed_le (by linarith) (sub_nonneg.mpr ht.le)
        (hprofile.speed_pos.trans_le hprofile.speed_le).le
    rw [hl, hsplit]
    calc |_ + _| ≤ _ := abs_add_le _ _
      _ ≤ a.plan.tolerance + a.plan.speed * (a.plan.moveTime - (t - s)) := by
        rw [abs_mul a.plan.direction, hprofile.direction, one_mul]
        exact add_le_add hgap hway
      _ ≤ _ := by
        simp only [Option.elim_some]
        linarith

/-- What lies ahead of an axis that is not at its target is a plan for its limits, of which it has
covered the way for the time up to its last tick. -/
theorem OnCourse.plan_of_moving (h : a.OnCourse last) (hm : a.Moving)
    (hu : ∀ t, last = some t → t ≤ u) :
    a.plan.MadeFor a.limits ∧ ∃ e, 0 ≤ e ∧ e ≤ u - a.startTime.getD u ∧
      a.position = a.plan.start + a.plan.direction * a.plan.way a.config.maxAcc e ∧
      u - a.startTime.getD u - e ≤ last.elim 0 (u - ·) := by
  cases h with
  | arrived h => exact absurd hm (not_moving_of_atTarget h)
  | waiting hp hs hx =>
    have hway : a.plan.way a.config.maxAcc 0 = 0 := hp.profile.way_zero
    refine ⟨hp, 0, le_refl 0, by rw [hs]; simp, by rw [hx, hway]; ring, ?_⟩
    rw [hs, Option.getD_none, sub_self, sub_self]
    exact elapsed_nonneg hu
  | @underWay s t hp hs hl hst ht hx =>
    have htu := hu t hl
    refine ⟨hp, t - s, sub_nonneg.mpr hst, by rw [hs]; simpa using htu, hx, ?_⟩
    rw [hs, hl, Option.getD_some, Option.elim_some]
    linarith

theorem OnCourse.tracks_of_arrival (h : a.OnCourse last) (ha : a.Able)
    (hu : ∀ t, last = some t → t ≤ u) (hmotion : (a.run u).motion = ⟨a.target, 0, 0⟩)
    (hover : a.Moving → a.plan.phaseAt (u - a.startTime.getD u) = .idle) :
    a.Tracks (a.run u) last u := by
  have hposition : (a.run u).position = a.target := by rw [position, hmotion]
  constructor
  · refine .arrived ?_
    rw [AtTarget, hposition, run_target]
  · constructor
    · rw [hmotion, run_config, abs_zero]
      exact ha.speed.le
    · rw [hmotion, run_config, abs_zero]
      exact ha.acc.le
  · rw [hposition]
    by_cases hm : a.Moving
    · exact h.dist_of_idle hm (hover hm)
    · have hnear := dist_of_not_moving hm
      have := mul_nonneg ha.speed.le (elapsed_nonneg hu)
      linarith

theorem OnCourse.tracks_of_following (h : a.OnCourse last) (ha : a.Able)
    (hu : ∀ t, last = some t → t ≤ u) (hm : a.Moving)
    (hphase : a.plan.phaseAt (u - a.startTime.getD u) ≠ .idle)
    (hstart : (a.run u).startTime = some (a.startTime.getD u))
    (hmotion : (a.run u).motion = a.plan.motionAt a.config.maxAcc (u - a.startTime.getD u)) :
    a.Tracks (a.run u) last u := by
  obtain ⟨hp, e, he, hle, hx, hspan⟩ := h.plan_of_moving hm hu
  have hprofile := hp.profile
  have hend := hprofile.lt_moveTime hphase
  have hposition : (a.run u).position = a.plan.start +
      a.plan.direction * a.plan.way a.config.maxAcc (u - a.startTime.getD u) := by
    rw [position, hmotion]
    exact Plan.motionAt_position hphase
  have hlimits : (a.run u).limits = a.limits := by rw [limits, run_config, limits]
  constructor
  · refine .underWay ?_ hstart rfl (sub_nonneg.mp (he.trans hle)) ?_ ?_
    · rw [run_plan, hlimits]
      exact hp
    · rw [run_plan]
      exact hend
    · rw [run_plan, run_config]
      exact hposition
  · obtain ⟨hspeed, hacc⟩ := hprofile.motion_le (he.trans hle)
    constructor
    · rw [hmotion, run_config]
      exact hspeed
    · rw [hmotion, run_config]
      exact hacc
  · have hway := hprofile.way_sub_le he hle hend.le
    have hspeed : a.plan.speed * (u - a.startTime.getD u - e) ≤
        a.config.maxSpeed * last.elim 0 (u - ·) :=
      mul_le_mul hprofile.speed_le hspan (sub_nonneg.mpr hle) ha.speed.le
    have hdiff : (a.run u).position - a.position = a.plan.direction *
        (a.plan.way a.config.maxAcc (u - a.startTime.getD u) -
          a.plan.way a.config.maxAcc e) := by
      rw [hposition, hx]
      ring
    rw [hdiff, abs_mul, hprofile.direction, one_mul]
    exact (hway.trans hspeed).trans (le_add_of_nonneg_right a.plan.tolerance_nonneg)

theorem OnCourse.run (h : a.OnCourse last) (ha : a.Able) (hu : ∀ t, last = some t → t ≤ u) :
    a.Tracks (a.run u) last u := by
  rcases run_cases a u with ⟨hmotion, hover⟩ | ⟨hm, hphase, hstart, hmotion⟩
  · exact h.tracks_of_arrival ha hu hmotion hover
  · exact h.tracks_of_following ha hu hm hphase hstart hmotion

end Gantry.Axis
