import Mathlib.Analysis.Real.Sqrt
import Gantry.Proofs.Motion.Tracking

/-!
# One planned move

An axis that is told to move goes from where it is towards its target without ever turning back,
and stops there. It passes the target only where two full ramps are a little longer than the trip
and the planner takes them as fitting; then by no more than the difference. How the ticks fall
makes no difference to any of this.
-/

namespace Gantry

noncomputable def Ramp.twice (maxAcc speed : ℝ) : ℝ :=
  speed * speed / maxAcc

def Ramp.Short (maxAcc speed trip : ℝ) : Prop :=
  trip < twice maxAcc speed ∧ ¬ Scalar.Near (twice maxAcc speed) trip

theorem Ramp.within_eq (maxAcc speed trip : ℝ) (ha : 0 < maxAcc) :
    (Short maxAcc speed trip ∧ Ramp.within maxAcc speed trip =
        ⟨Real.sqrt (trip / maxAcc), trip / 2, maxAcc * Real.sqrt (trip / maxAcc)⟩) ∨
      (¬ Short maxAcc speed trip ∧ (Ramp.within maxAcc speed trip).speed = speed ∧
        2 * (Ramp.within maxAcc speed trip).trip = twice maxAcc speed) := by
  have htwo : (2.0 : ℝ) = 2 := by norm_num
  have htwice : 2.0 * (0.5 * maxAcc * (speed / maxAcc) * (speed / maxAcc)) =
      twice maxAcc speed := by
    unfold twice
    field_simp
    norm_num
  unfold Ramp.within
  simp only [htwice]
  by_cases hshort : Short maxAcc speed trip
  · left
    refine ⟨hshort, ?_⟩
    unfold Short at hshort
    rw [if_pos hshort, htwo]
    rfl
  · right
    refine ⟨hshort, ?_⟩
    unfold Short at hshort
    rw [if_neg hshort, ← htwice, htwo]
    exact ⟨rfl, rfl⟩

/-- A short trip is what keeps an axis from its cruise speed. -/
theorem Ramp.speed_lt_iff {maxAcc speed trip : ℝ} (ha : 0 < maxAcc) (hs : 0 < speed) :
    (Ramp.within maxAcc speed trip).speed < speed ↔ Short maxAcc speed trip := by
  rcases Ramp.within_eq maxAcc speed trip ha with ⟨hshort, hr⟩ | ⟨hlong, hr, -⟩
  · refine ⟨fun _ => hshort, fun _ => ?_⟩
    have hlt : trip / maxAcc < (speed / maxAcc) ^ 2 := by
      have htwice : (speed / maxAcc) ^ 2 = twice maxAcc speed / maxAcc := by
        unfold twice
        field_simp
      rw [htwice]
      exact div_lt_div_of_pos_right hshort.1 ha
    rw [hr]
    calc maxAcc * Real.sqrt (trip / maxAcc) < maxAcc * (speed / maxAcc) := by
          gcongr
          exact (Real.sqrt_lt' (div_pos hs ha)).mpr hlt
      _ = speed := mul_div_cancel₀ speed ha.ne'
  · rw [hr]
    exact ⟨fun h => absurd h (lt_irrefl _), fun h => absurd h hlong⟩

namespace Plan

/-- How far a plan leads: to the end of its trip, or of two ramps that are a little longer. -/
noncomputable def reach (p : Plan ℝ) : ℝ :=
  if p.trip < p.accTrip + p.accTrip ∧ Scalar.Near (p.accTrip + p.accTrip) p.trip then
    p.accTrip + p.accTrip
  else p.trip

variable {p : Plan ℝ} {l : Limits ℝ}

theorem MadeFor.reach_eq (h : p.MadeFor l) : p.decTrip + p.accTrip = p.reach := by
  have hz : (0.0 : ℝ) = 0 := by norm_num
  have htwo : (2.0 : ℝ) = 2 := by norm_num
  obtain ⟨hne, hs, ha, hp⟩ := eq_of_toward? h
  have hsuits := Ramp.within_suits ha hs (abs_pos.mpr (sub_ne_zero.mpr hne))
  obtain ⟨r, hr⟩ : ∃ r, Ramp.within l.maxAcc
      (Scalar.smaller (p.requested.getD l.maxSpeed) l.maxSpeed) |p.target - p.start| = r :=
    ⟨_, rfl⟩
  rw [hr] at hp hsuits
  have hdouble : r.trip + r.trip = 2 * r.trip := by ring
  rw [hp]
  simp only [reach, ofRamp, Exact.larger_eq, hz, htwo, hdouble]
  rcases le_or_gt (2 * r.trip) |p.target - p.start| with hfit | hover
  · rw [if_neg fun hno => absurd hno.1 (not_lt.mpr hfit), max_eq_left (sub_nonneg.mpr hfit)]
    ring
  · have hnear := hsuits.room.resolve_left (not_le.mpr hover)
    rw [if_pos ⟨hover, hnear⟩, max_eq_right (sub_nonpos.mpr hover.le)]
    ring

theorem MadeFor.trip_eq (h : p.MadeFor l) : p.trip = |p.target - p.start| := by
  obtain ⟨-, -, -, hp⟩ := eq_of_toward? h
  conv_lhs => rw [hp]
  rfl

theorem MadeFor.direction_eq (h : p.MadeFor l) :
    p.direction = if p.start ≤ p.target then 1 else -1 := by
  have hone : (1.0 : ℝ) = 1 := by norm_num
  obtain ⟨-, -, -, hp⟩ := eq_of_toward? h
  rw [← hone]
  conv_lhs => rw [hp]
  rfl

theorem MadeFor.direction_mul (h : p.MadeFor l) :
    p.direction * (p.target - p.start) = p.trip := by
  rw [h.trip_eq, h.direction_eq]
  split
  · rename_i hle
    rw [one_mul, abs_of_nonneg (sub_nonneg.mpr hle)]
  · rename_i hlt
    rw [neg_one_mul, abs_of_neg (sub_neg.mpr (not_le.mp hlt))]

theorem trip_le_reach (p : Plan ℝ) : p.trip ≤ p.reach := by
  unfold reach
  split
  · rename_i hover
    exact hover.1.le
  · exact le_refl _

theorem Profile.direction_sq (h : p.Profile l) : p.direction * p.direction = 1 := by
  rw [← abs_mul_abs_self, h.direction, one_mul]

end Plan

namespace Axis

/-- How far towards its target an axis has come since its plan was made. -/
noncomputable def progress (a : Axis ℝ) : ℝ :=
  a.plan.direction * (a.position - a.plan.start)

noncomputable def wantedSpeed (a : Axis ℝ) (requested : Option ℝ) : ℝ :=
  min (requested.getD a.config.maxSpeed) a.config.maxSpeed

def Arrives (a : Axis ℝ) (times : ℕ → ℝ) (n : ℕ) : Prop :=
  (a.after times (n + 1)).motion = ⟨a.target, 0, 0⟩

/-- How an axis moves that has just planned to. -/
structure Travels (a : Axis ℝ) (times : ℕ → ℝ) : Prop where
  /-- The clock of the plan starts with the first tick. -/
  latched : ∀ n, ¬ a.Arrives times n → (a.after times (n + 1)).startTime = some (times 0)
  /-- On the way it only comes nearer to the end of its plan. -/
  forward : ∀ n k, n ≤ k → ¬ a.Arrives times k →
    0 ≤ (a.after times (n + 1)).progress ∧
      (a.after times (n + 1)).progress ≤ (a.after times (k + 1)).progress
  /-- It never goes farther than the plan leads. -/
  within : ∀ n, (a.after times n).progress ≤ a.plan.reach
  /-- Once it has arrived it stays. -/
  stays : ∀ n k, n ≤ k → a.Arrives times n → a.Arrives times k
  /-- It has arrived when the plan is over. -/
  arrives : ∀ n, times 0 + a.plan.moveTime ≤ times n → a.Arrives times n

variable {a : Axis ℝ} {times : ℕ → ℝ} {n k : ℕ}

theorem config_after (a : Axis ℝ) (times : ℕ → ℝ) (n : ℕ) :
    (a.after times n).config = a.config := by
  induction n with
  | zero => rfl
  | succ n ih => rw [after, run_config, ih]

theorem arrives_of_atTarget (h : (a.after times n).AtTarget) : a.Arrives times n := by
  rcases run_cases (a.after times n) (times n) with ⟨hmotion, -⟩ | ⟨hm, -⟩
  · rw [target_after] at hmotion
    exact hmotion
  · exact absurd hm (not_moving_of_atTarget h)

theorem Arrives.atTarget (h : a.Arrives times n) : (a.after times (n + 1)).AtTarget := by
  rw [AtTarget, position, h, target_after]

theorem Arrives.of_le (h : a.Arrives times n) (hk : n ≤ k) : a.Arrives times k := by
  induction k, hk using Nat.le_induction with
  | base => exact h
  | succ k _ ih => exact arrives_of_atTarget ih.atTarget

/-- A tick that does not bring the axis to its target takes it along its plan. -/
structure Follows (a : Axis ℝ) (times : ℕ → ℝ) (n : ℕ) : Prop where
  startTime : (a.after times (n + 1)).startTime = some (times 0)
  phase : a.plan.phaseAt (times n - times 0) ≠ .idle
  progress : (a.after times (n + 1)).progress =
    a.plan.way a.limits.maxAcc (times n - times 0)

theorem run_of_not_arrives (hs : a.startTime = none) (h : ¬ a.Arrives times n) :
    a.plan.phaseAt (times n - times 0) ≠ .idle ∧
      (a.after times (n + 1)).startTime = some (times 0) ∧
      (a.after times (n + 1)).motion =
        a.plan.motionAt a.config.maxAcc (times n - times 0) := by
  rcases run_cases (a.after times n) (times n) with ⟨hmotion, -⟩ | ⟨hm, hphase, hstart, hmotion⟩
  · rw [target_after] at hmotion
    exact absurd hmotion h
  · have hfirst : (a.after times n).startTime.getD (times n) = times 0 := by
      cases n with
      | zero =>
        show a.startTime.getD (times 0) = times 0
        rw [hs]
        rfl
      | succ n =>
        have hbegun : (a.after times (n + 1)).AtTarget ∨
            (a.after times (n + 1)).startTime = some (times 0) := startTime_after hs n
        rcases hbegun with hat | hsome
        · exact absurd hm (not_moving_of_atTarget hat)
        · rw [hsome]
          rfl
    rw [hfirst] at hphase hstart hmotion
    rw [plan_after] at hphase hmotion
    rw [config_after] at hmotion
    exact ⟨hphase, hstart, hmotion⟩

theorem follows_of_not_arrives (hp : a.plan.Profile a.limits) (hs : a.startTime = none)
    (h : ¬ a.Arrives times n) : a.Follows times n := by
  obtain ⟨hphase, hstart, hmotion⟩ := run_of_not_arrives hs h
  refine ⟨hstart, hphase, ?_⟩
  have hposition : (a.after times (n + 1)).position = a.plan.start +
      a.plan.direction * a.plan.way a.limits.maxAcc (times n - times 0) := by
    rw [position, hmotion]
    exact Plan.motionAt_position hphase
  rw [Axis.progress, plan_after, hposition, add_sub_cancel_left, ← mul_assoc, hp.direction_sq,
    one_mul]

theorem travels (hp : a.plan.MadeFor a.limits) (hs : a.startTime = none)
    (hx : a.position = a.plan.start) (ht : Monotone times) : a.Travels times := by
  have hprofile := hp.profile
  have hfollows {n : ℕ} (h : ¬ a.Arrives times n) := follows_of_not_arrives hprofile hs h
  have hpos (n : ℕ) : 0 ≤ times n - times 0 := sub_nonneg.mpr (ht (Nat.zero_le n))
  constructor
  · intro n hn
    exact (hfollows hn).startTime
  · intro n k hnk hk
    have hn : ¬ a.Arrives times n := fun h => hk (h.of_le hnk)
    have hend := (hprofile.lt_moveTime (hfollows hk).phase).le
    have hstep : times n - times 0 ≤ times k - times 0 := sub_le_sub_right (ht hnk) _
    rw [(hfollows hn).progress, (hfollows hk).progress]
    refine ⟨?_, hprofile.way_mono (hpos n) hstep hend⟩
    have hway := hprofile.way_mono le_rfl (hpos n) (hstep.trans hend)
    rwa [hprofile.way_zero] at hway
  · intro n
    cases n with
    | zero =>
      have htrip : 0 ≤ a.plan.trip := by
        rw [hp.trip_eq]
        exact abs_nonneg _
      show a.progress ≤ _
      rw [Axis.progress, hx, sub_self, mul_zero]
      exact htrip.trans a.plan.trip_le_reach
    | succ n =>
      by_cases hn : a.Arrives times n
      · rw [Axis.progress, hn.atTarget, target_after, plan_after, target, hp.direction_mul]
        exact a.plan.trip_le_reach
      · have hend := (hprofile.lt_moveTime (hfollows hn).phase).le
        have hway := hprofile.way_mono (hpos n) hend le_rfl
        rwa [hprofile.way_moveTime, hp.reach_eq, ← (hfollows hn).progress] at hway
  · intro n k hnk hn
    exact hn.of_le hnk
  · intro n hn
    by_contra hno
    have hlt := hprofile.lt_moveTime (hfollows hno).phase
    linarith

/-- `b` is what becomes of `a` when it plans to go to a physical target. -/
structure Departs (a b : Axis ℝ) (goal : ℝ) (requested : Option ℝ) : Prop where
  start : b.plan.start = a.position
  target : b.target = goal
  direction : b.plan.direction = if a.position ≤ goal then 1 else -1
  trip : b.plan.trip = |goal - a.position|
  speed_le : b.plan.speed ≤ a.wantedSpeed requested
  /-- Only the correction of a short move has it go slower. -/
  slower : b.plan.speed < a.wantedSpeed requested ↔
    Ramp.Short a.config.maxAcc (a.wantedSpeed requested) |goal - a.position|

theorem departs_of_toward? {target : ℝ} {requested : Option ℝ} {p : Plan ℝ}
    (h : Plan.toward? a.limits a.position target requested = some p) :
    Departs a { a with plan := p, startTime := none } target requested := by
  obtain ⟨hmade, hstart⟩ := Plan.madeFor_of_toward? h
  have htarget := Plan.target_of_toward? h
  obtain ⟨hne, hs, ha, hp⟩ := Plan.eq_of_toward? h
  rw [Exact.smaller_eq] at hs hp
  have hspeed : p.speed = (Ramp.within a.config.maxAcc (a.wantedSpeed requested)
      |target - a.position|).speed := by
    rw [hp]
    rfl
  constructor
  · exact hstart
  · exact htarget
  · rw [← hstart, ← htarget]
    exact hmade.direction_eq
  · rw [← hstart, ← htarget]
    exact hmade.trip_eq
  · show p.speed ≤ _
    rw [hspeed]
    exact (Ramp.within_suits ha hs (abs_pos.mpr (sub_ne_zero.mpr hne))).speed_le
  · show p.speed < _ ↔ _
    rw [hspeed]
    exact Ramp.speed_lt_iff ha hs

/-- An axis that can move and is told to, at a speed above zero or at its best, goes there. -/
theorem travels_of_setTarget {v : ℝ} {requested : Option ℝ} (ha : a.Able)
    (hv : v ≠ a.virtualPosition) (hr : ∀ s, requested = some s → 0 < s) (ht : Monotone times) :
    Departs a (a.setTarget v requested) (a.toPhysical v) requested ∧
      (a.setTarget v requested).Travels times := by
  have hne : a.toPhysical v ≠ a.position := by
    intro he
    apply hv
    rw [virtualPosition, toVirtual, ← he, toPhysical, sub_add_cancel]
  have hspeed : 0 < Scalar.smaller (requested.getD a.limits.maxSpeed) a.limits.maxSpeed := by
    rw [Exact.smaller_eq]
    cases requested with
    | none => exact lt_min ha.speed ha.speed
    | some s => exact lt_min (hr s rfl) ha.speed
  obtain ⟨p, hp⟩ := Plan.toward?_isSome hspeed ha.acc hne
  obtain ⟨hmade, hstart⟩ := Plan.madeFor_of_toward? hp
  rw [setTarget, planTo_of_some hp]
  exact ⟨departs_of_toward? hp, travels hmade rfl hstart.symm ht⟩

/-- An axis of unit limits told to go back to minus two and a half, and read four times a second. -/
theorem travels_back :
    let a : Axis ℝ := ofConfig ⟨0, 1, 1, 1, 1, 0⟩
    let times : ℕ → ℝ := fun n => n / 4
    (a.Able ∧ (-5 / 2 : ℝ) ≠ a.virtualPosition ∧ (∀ s, some 3 = some s → (0 : ℝ) < s) ∧
      Monotone times) ∧
    Departs a (a.setTarget (-5 / 2) (some 3)) (a.toPhysical (-5 / 2)) (some 3) ∧
      (a.setTarget (-5 / 2) (some 3)).Travels times := by
  intro a times
  have ha : a.Able := ⟨one_pos, one_pos⟩
  have hv : (-5 / 2 : ℝ) ≠ a.virtualPosition := by
    simp only [a, virtualPosition, toVirtual, position, ofConfig]
    norm_num
  have hr (s : ℝ) (h : some 3 = some s) : 0 < s := by
    rw [← Option.some.inj h]
    norm_num
  have ht : Monotone times := by
    intro n k hnk
    show (n : ℝ) / 4 ≤ k / 4
    gcongr
  exact ⟨⟨ha, hv, hr, ht⟩, travels_of_setTarget ha hv hr ht⟩

end Axis

end Gantry
