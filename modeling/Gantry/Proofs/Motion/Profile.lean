import Mathlib.Analysis.Real.Sqrt
import Gantry.Proofs.Motion.Arrival

/-!
# Velocity profiles

A plan that limits give has a profile: a ramp up, a cruise that may be empty, and the same ramp
down. On the way speed and acceleration are within the limits, and the way covered in a span of
time is at most the speed of the plan times the span. The ramps may cover a little more than the
trip, by no more than the tolerance of the plan, which also bounds the last bit of a move that is
not travelled but taken at once.

Nothing here says when an axis follows a plan.
-/

namespace Gantry

theorem Exact.near_symm {x y : ℝ} (h : Scalar.Near x y) : Scalar.Near y x := by
  unfold Scalar.Near at h ⊢
  rw [Exact.abs_eq, Exact.larger_eq, Exact.larger_eq] at h ⊢
  rwa [abs_sub_comm, max_comm (Scalar.abs y)]

theorem Exact.dist_of_near {x y : ℝ} (h : Scalar.Near x y) : |x - y| ≤ 2e-9 * |y| + 1e-12 := by
  unfold Scalar.Near at h
  rw [Exact.abs_eq, Exact.abs_eq, Exact.abs_eq, Exact.larger_eq, Exact.larger_eq] at h
  have hx : |x| ≤ |x - y| + |y| := by
    have := abs_add_le (x - y) y
    rwa [sub_add_cancel] at this
  have hmax : max |x| |y| ≤ |x - y| + |y| := max_le hx (by linarith [abs_nonneg (x - y)])
  have hy := abs_nonneg y
  have hd := abs_nonneg (x - y)
  rcases le_max_iff.mp h with h | h
  · norm_num at h ⊢
    nlinarith
  · norm_num at h ⊢
    linarith

/-- The ramps up to `speed` and down again, as far as `trip` has room for them. -/
structure Ramp.Suits (r : Ramp ℝ) (maxAcc speed trip : ℝ) : Prop where
  time_pos : 0 < r.time
  speed_eq : r.speed = maxAcc * r.time
  speed_le : r.speed ≤ speed
  trip_eq : r.trip = maxAcc * r.time ^ 2 / 2
  room : 2 * r.trip ≤ trip ∨ Scalar.Near (2 * r.trip) trip

theorem Ramp.within_suits {maxAcc speed trip : ℝ} (ha : 0 < maxAcc) (hs : 0 < speed)
    (ht : 0 < trip) : (Ramp.within maxAcc speed trip).Suits maxAcc speed trip := by
  have hhalf : (0.5 : ℝ) = 1 / 2 := by norm_num
  have htwo : (2.0 : ℝ) = 2 := by norm_num
  have hreach : maxAcc * (speed / maxAcc) = speed := mul_div_cancel₀ speed ha.ne'
  unfold Ramp.within
  simp only
  rw [hhalf, htwo]
  split
  · -- A short trip: the ramp ends half way, before the speed is reached.
    rename_i hshort
    have hsq : Real.sqrt (trip / maxAcc) ^ 2 = trip / maxAcc :=
      Real.sq_sqrt (div_pos ht ha).le
    have hlt : trip / maxAcc ≤ (speed / maxAcc) ^ 2 := by
      rw [div_le_iff₀ ha]
      nlinarith [hshort.1]
    have htime : Real.sqrt (trip / maxAcc) ≤ speed / maxAcc :=
      Real.sqrt_le_iff.mpr ⟨(div_pos hs ha).le, hlt⟩
    refine ⟨Real.sqrt_pos.mpr (div_pos ht ha), rfl, ?_, ?_, Or.inl ?_⟩
    · calc maxAcc * Real.sqrt (trip / maxAcc) ≤ maxAcc * (speed / maxAcc) := by gcongr
        _ = speed := hreach
    · show trip / 2 = maxAcc * Real.sqrt (trip / maxAcc) ^ 2 / 2
      rw [hsq, mul_div_cancel₀ trip ha.ne']
    · show 2 * (trip / 2) ≤ trip
      linarith
  · rename_i hroom
    refine ⟨div_pos hs ha, hreach.symm, le_refl _, ?_, ?_⟩
    · show 1 / 2 * maxAcc * (speed / maxAcc) * (speed / maxAcc) = _
      ring
    · by_contra hno
      obtain ⟨hlong, hnear⟩ := not_or.mp hno
      exact hroom ⟨not_le.mp hlong, hnear⟩

namespace Plan

/-- The plan is the one that limits give for its own start, target and speed. -/
def MadeFor (p : Plan ℝ) (l : Limits ℝ) : Prop :=
  toward? l p.start p.target p.requested = some p

/-- By how much a move may miss the way that its time allows. -/
noncomputable def tolerance (p : Plan ℝ) : ℝ :=
  2e-9 * (|p.start| + |p.target|) + 1e-12

/-- What a plan that limits give looks like. -/
structure Profile (p : Plan ℝ) (l : Limits ℝ) : Prop where
  acc_pos : 0 < l.maxAcc
  ramp_pos : 0 < p.accTime
  cruise_nonneg : p.accTime ≤ p.decTime
  speed_eq : p.speed = l.maxAcc * p.accTime
  speed_le : p.speed ≤ l.maxSpeed
  accTrip : p.accTrip = l.maxAcc * p.accTime ^ 2 / 2
  decTrip : p.decTrip = p.accTrip + p.speed * (p.decTime - p.accTime)
  moveTime : p.moveTime = p.decTime + p.accTime
  direction : |p.direction| = 1
  /-- The ramps and the cruise end at the target, up to the tolerance. -/
  gap : |p.target - (p.start + p.direction * (p.decTrip + p.accTrip))| ≤ p.tolerance

variable {p : Plan ℝ} {l : Limits ℝ} {start target : ℝ} {requested : Option ℝ}

theorem eq_of_toward? (h : toward? l start target requested = some p) :
    target ≠ start ∧ 0 < Scalar.smaller (requested.getD l.maxSpeed) l.maxSpeed ∧ 0 < l.maxAcc ∧
      p = ofRamp start target requested |target - start|
        (Ramp.within l.maxAcc (Scalar.smaller (requested.getD l.maxSpeed) l.maxSpeed)
          |target - start|) := by
  have hz : (0.0 : ℝ) = 0 := by norm_num
  unfold toward? at h
  simp only [hz] at h
  split at h
  · cases h
  · rename_i htrip
    split at h
    · rename_i hpos
      refine ⟨fun he => htrip (Exact.beq_iff.mpr ?_), hpos.1, hpos.2, (Option.some.inj h).symm⟩
      rw [Exact.abs_eq, he, sub_self, abs_zero]
    · cases h

theorem toward?_eq_none (h : toward? l start target requested = none) :
    target = start ∨
      ¬ (0 < Scalar.smaller (requested.getD l.maxSpeed) l.maxSpeed ∧ 0 < l.maxAcc) := by
  by_contra hno
  obtain ⟨hne, hpos⟩ := not_or.mp hno
  obtain ⟨hs, ha⟩ := not_not.mp hpos
  obtain ⟨q, hq⟩ := toward?_isSome hs ha hne
  rw [h] at hq
  cases hq

theorem madeFor_of_toward? (h : toward? l start target requested = some p) :
    p.MadeFor l ∧ p.start = start := by
  obtain ⟨-, -, -, hp⟩ := eq_of_toward? h
  have hs : p.start = start := by rw [hp]; rfl
  have ht : p.target = target := by rw [hp]; rfl
  have hr : p.requested = requested := by rw [hp]; rfl
  exact ⟨by rw [MadeFor, hs, ht, hr]; exact h, hs⟩

theorem requested_pos_of_toward? (h : toward? l start target requested = some p) {s : ℝ}
    (hs : p.requested = some s) : 0 < s := by
  obtain ⟨-, hpos, -, hp⟩ := eq_of_toward? h
  have hr : requested = some s := by
    rw [← hs, hp]
    rfl
  rw [hr, Exact.smaller_eq, Option.getD_some] at hpos
  exact (lt_min_iff.mp hpos).1

theorem tolerance_nonneg (p : Plan ℝ) : 0 ≤ p.tolerance := by
  unfold tolerance
  positivity

theorem gap_le (start target : ℝ) {r : Ramp ℝ} {speed maxAcc : ℝ}
    (hr : r.Suits maxAcc speed |target - start|) :
    |(|target - start|) - (2 * r.trip + max (|target - start| - 2 * r.trip) 0)| ≤
      2e-9 * (|start| + |target|) + 1e-12 := by
  have htotal : |target - start| ≤ |start| + |target| := by
    have := abs_sub target start
    linarith
  rcases le_or_gt (2 * r.trip) |target - start| with hfit | hover
  · rw [max_eq_left (sub_nonneg.mpr hfit), add_sub_cancel, sub_self, abs_zero]
    positivity
  · have hnear := Exact.dist_of_near (hr.room.resolve_left (not_le.mpr hover))
    rw [max_eq_right (sub_nonpos.mpr hover.le), add_zero, abs_sub_comm]
    rw [abs_abs] at hnear
    norm_num at hnear ⊢
    linarith

theorem ofRamp_profile {r : Ramp ℝ} {speed : ℝ} (ha : 0 < l.maxAcc) (hs : speed ≤ l.maxSpeed)
    (hr : r.Suits l.maxAcc speed |target - start|) :
    (ofRamp start target requested |target - start| r).Profile l := by
  have hz : (0.0 : ℝ) = 0 := by norm_num
  have hone : (1.0 : ℝ) = 1 := by norm_num
  have htwo : (2.0 : ℝ) = 2 := by norm_num
  have hspeed : 0 < r.speed := by
    rw [hr.speed_eq]
    exact mul_pos ha hr.time_pos
  have hgap := gap_le start target hr
  simp only [ofRamp, Exact.larger_eq, hz, hone, htwo]
  -- The cruise covers what two ramps leave of the trip.
  have hcruise : r.speed * (max (|target - start| - 2 * r.trip) 0 / r.speed) =
      max (|target - start| - 2 * r.trip) 0 := mul_div_cancel₀ _ hspeed.ne'
  have hnonneg : 0 ≤ max (|target - start| - 2 * r.trip) 0 / r.speed :=
    div_nonneg (le_max_right _ _) hspeed.le
  generalize max (|target - start| - 2 * r.trip) 0 / r.speed = cruise at *
  rw [← hcruise] at hgap ⊢
  constructor
  · exact ha
  · exact hr.time_pos
  · exact le_add_of_nonneg_right hnonneg
  · exact hr.speed_eq
  · exact hr.speed_le.trans hs
  · exact hr.trip_eq
  · simp only [add_sub_cancel_left]
  · simp only
    ring
  · simp only
    split <;> simp
  · simp only [tolerance]
    split
    · rename_i hle
      rw [abs_of_nonneg (sub_nonneg.mpr hle)] at hgap
      convert hgap using 2
      ring
    · rename_i hlt
      rw [abs_of_neg (sub_neg.mpr (not_le.mp hlt)), abs_sub_comm] at hgap
      convert hgap using 2
      ring

theorem MadeFor.profile (h : p.MadeFor l) : p.Profile l := by
  obtain ⟨hne, hs, ha, hp⟩ := eq_of_toward? h
  have htrip : 0 < |p.target - p.start| := abs_pos.mpr (sub_ne_zero.mpr hne)
  have hle : Scalar.smaller (p.requested.getD l.maxSpeed) l.maxSpeed ≤ l.maxSpeed := by
    rw [Exact.smaller_eq]
    exact min_le_right _ _
  have hprofile : (ofRamp p.start p.target p.requested |p.target - p.start|
      (Ramp.within l.maxAcc (Scalar.smaller (p.requested.getD l.maxSpeed) l.maxSpeed)
        |p.target - p.start|)).Profile l :=
    ofRamp_profile ha hle (Ramp.within_suits ha hs htrip)
  rwa [← hp] at hprofile

/-- How far from its start a plan has come at a time before its end. -/
noncomputable def way (p : Plan ℝ) (maxAcc t : ℝ) : ℝ :=
  if t < p.accTime then 0.5 * maxAcc * t ^ 2
  else if t < p.decTime then p.accTrip + p.speed * (t - p.accTime)
  else p.decTrip + p.speed * (t - p.decTime) - 0.5 * maxAcc * (t - p.decTime) ^ 2

theorem motionAt_position {maxAcc t : ℝ} (h : p.phaseAt t ≠ .idle) :
    (p.motionAt maxAcc t).position = p.start + p.direction * p.way maxAcc t := by
  unfold motionAt phaseAt way at *
  split_ifs at h ⊢
  · ring
  · rfl
  · ring
  · exact absurd rfl h

noncomputable def rising (p : Plan ℝ) (t : ℝ) : ℝ :=
  min t p.accTime

noncomputable def cruising (p : Plan ℝ) (t : ℝ) : ℝ :=
  min (max (t - p.accTime) 0) (p.decTime - p.accTime)

noncomputable def falling (p : Plan ℝ) (t : ℝ) : ℝ :=
  max (t - p.decTime) 0

variable {s t : ℝ}

theorem rising_mono (p : Plan ℝ) (h : s ≤ t) : p.rising s ≤ p.rising t :=
  min_le_min_right _ h

theorem cruising_mono (p : Plan ℝ) (h : s ≤ t) : p.cruising s ≤ p.cruising t :=
  min_le_min_right _ (max_le_max_right _ (sub_le_sub_right h _))

theorem falling_mono (p : Plan ℝ) (h : s ≤ t) : p.falling s ≤ p.falling t :=
  max_le_max_right _ (sub_le_sub_right h _)

/-- On a ramp the square of the time grows no faster than at its end. -/
theorem sq_sub_sq_bounds {x y b : ℝ} (hx : 0 ≤ x) (hxy : x ≤ y) (hy : y ≤ b) :
    0 ≤ y ^ 2 - x ^ 2 ∧ y ^ 2 - x ^ 2 ≤ 2 * b * (y - x) := by
  have hfactor : y ^ 2 - x ^ 2 = (y + x) * (y - x) := by ring
  rw [hfactor]
  constructor
  · exact mul_nonneg (by linarith) (sub_nonneg.mpr hxy)
  · exact mul_le_mul_of_nonneg_right (by linarith) (sub_nonneg.mpr hxy)

namespace Profile

theorem speed_pos (h : p.Profile l) : 0 < p.speed := by
  rw [h.speed_eq]
  exact mul_pos h.acc_pos h.ramp_pos

theorem lt_moveTime (h : p.Profile l) (ht : p.phaseAt t ≠ .idle) : t < p.moveTime := by
  have hm := h.moveTime
  have hr := h.ramp_pos
  have hc := h.cruise_nonneg
  unfold phaseAt at ht
  split_ifs at ht
  · linarith
  · linarith
  · assumption
  · exact absurd rfl ht

/-- In each of the three stages of a move, the times spent in each of them. -/
theorem stages (h : p.Profile l) (t : ℝ) :
    (t < p.accTime ∧ p.rising t = t ∧ p.cruising t = 0 ∧ p.falling t = 0) ∨
    (p.accTime ≤ t ∧ t < p.decTime ∧
      p.rising t = p.accTime ∧ p.cruising t = t - p.accTime ∧ p.falling t = 0) ∨
    (p.decTime ≤ t ∧ p.rising t = p.accTime ∧ p.cruising t = p.decTime - p.accTime ∧
      p.falling t = t - p.decTime) := by
  have hc := h.cruise_nonneg
  unfold rising cruising falling
  rcases lt_or_ge t p.accTime with h1 | h1
  · left
    rw [min_eq_left h1.le, max_eq_right (by linarith : t - p.accTime ≤ 0),
      min_eq_left (by linarith), max_eq_right (by linarith : t - p.decTime ≤ 0)]
    exact ⟨h1, rfl, rfl, rfl⟩
  · right
    rw [min_eq_right h1, max_eq_left (sub_nonneg.mpr h1)]
    rcases lt_or_ge t p.decTime with h2 | h2
    · left
      rw [min_eq_left (by linarith), max_eq_right (by linarith : t - p.decTime ≤ 0)]
      exact ⟨h1, h2, rfl, rfl, rfl⟩
    · right
      rw [min_eq_right (by linarith), max_eq_left (sub_nonneg.mpr h2)]
      exact ⟨h2, rfl, rfl, rfl⟩

theorem stages_add (h : p.Profile l) (t : ℝ) : p.rising t + p.cruising t + p.falling t = t := by
  rcases h.stages t with ⟨-, hr, hc, hf⟩ | ⟨-, -, hr, hc, hf⟩ | ⟨-, hr, hc, hf⟩ <;>
  · rw [hr, hc, hf]
    ring

theorem way_eq (h : p.Profile l) (t : ℝ) :
    p.way l.maxAcc t = l.maxAcc / 2 * p.rising t ^ 2 + p.speed * p.cruising t +
      (p.speed * p.falling t - l.maxAcc / 2 * p.falling t ^ 2) := by
  have hc' := h.cruise_nonneg
  unfold way
  rcases h.stages t with ⟨h1, hr, hc, hf⟩ | ⟨h1, h2, hr, hc, hf⟩ | ⟨h1, hr, hc, hf⟩ <;>
    rw [hr, hc, hf]
  · rw [if_pos h1]
    ring
  · rw [if_neg (not_lt.mpr h1), if_pos h2, h.accTrip]
    ring
  · rw [if_neg (by linarith), if_neg (not_lt.mpr h1), h.decTrip, h.accTrip]
    ring

theorem way_moveTime (h : p.Profile l) :
    p.way l.maxAcc p.moveTime = p.decTrip + p.accTrip := by
  have hr := h.ramp_pos
  have hc := h.cruise_nonneg
  have hm := h.moveTime
  unfold way
  rw [if_neg (by linarith), if_neg (by linarith), hm, add_sub_cancel_left, h.accTrip, h.speed_eq]
  ring

theorem way_zero (h : p.Profile l) : p.way l.maxAcc 0 = 0 := by
  unfold way
  rw [if_pos h.ramp_pos]
  ring

theorem way_sub_bounds (h : p.Profile l) (hs : 0 ≤ s) (hst : s ≤ t) (ht : t ≤ p.moveTime) :
    0 ≤ p.way l.maxAcc t - p.way l.maxAcc s ∧
      p.way l.maxAcc t - p.way l.maxAcc s ≤ p.speed * (t - s) := by
  have hm := h.moveTime
  have hramp (x : ℝ) : l.maxAcc / 2 * (2 * p.accTime * x) = p.speed * x := by
    rw [h.speed_eq]
    ring
  have hhalf : 0 ≤ l.maxAcc / 2 := (half_pos h.acc_pos).le
  have hrise : 0 ≤ p.rising s := le_min hs h.ramp_pos.le
  have hfall : 0 ≤ p.falling s := le_max_right _ _
  have hup := sq_sub_sq_bounds hrise (p.rising_mono hst) (min_le_right _ _)
  have hdown := sq_sub_sq_bounds hfall (p.falling_mono hst)
    (max_le (by linarith) h.ramp_pos.le)
  have hup0 := mul_nonneg hhalf hup.1
  have hup1 := mul_le_mul_of_nonneg_left hup.2 hhalf
  have hdown0 := mul_nonneg hhalf hdown.1
  have hdown1 := mul_le_mul_of_nonneg_left hdown.2 hhalf
  have hlevel := mul_nonneg h.speed_pos.le (sub_nonneg.mpr (p.cruising_mono hst))
  rw [hramp] at hup1 hdown1
  have hsum : p.way l.maxAcc t - p.way l.maxAcc s =
      l.maxAcc / 2 * (p.rising t ^ 2 - p.rising s ^ 2) +
        p.speed * (p.cruising t - p.cruising s) +
        (p.speed * (p.falling t - p.falling s) -
          l.maxAcc / 2 * (p.falling t ^ 2 - p.falling s ^ 2)) := by
    rw [h.way_eq, h.way_eq]
    ring
  have htime : p.speed * (t - s) = p.speed * (p.rising t - p.rising s) +
      p.speed * (p.cruising t - p.cruising s) + p.speed * (p.falling t - p.falling s) := by
    calc p.speed * (t - s) = p.speed * ((p.rising t + p.cruising t + p.falling t) -
          (p.rising s + p.cruising s + p.falling s)) := by rw [h.stages_add, h.stages_add]
      _ = _ := by ring
  rw [hsum, htime]
  constructor <;> linarith

theorem way_sub_le (h : p.Profile l) (hs : 0 ≤ s) (hst : s ≤ t) (ht : t ≤ p.moveTime) :
    |p.way l.maxAcc t - p.way l.maxAcc s| ≤ p.speed * (t - s) := by
  obtain ⟨hlo, hhi⟩ := h.way_sub_bounds hs hst ht
  rwa [abs_of_nonneg hlo]

theorem way_mono (h : p.Profile l) (hs : 0 ≤ s) (hst : s ≤ t) (ht : t ≤ p.moveTime) :
    p.way l.maxAcc s ≤ p.way l.maxAcc t :=
  sub_nonneg.mp (h.way_sub_bounds hs hst ht).1

theorem motion_le (h : p.Profile l) (ht : 0 ≤ t) :
    |(p.motionAt l.maxAcc t).speed| ≤ l.maxSpeed ∧
      |(p.motionAt l.maxAcc t).acc| ≤ l.maxAcc := by
  have hz : (0.0 : ℝ) = 0 := by norm_num
  have hm := h.moveTime
  have ha := h.acc_pos
  have hle := h.speed_le
  have hpos := h.speed_pos
  have hdir (x : ℝ) : |p.direction * x| = |x| := by rw [abs_mul, h.direction, one_mul]
  unfold motionAt phaseAt
  split_ifs with hacc hdec hmove <;> simp only
  · have hup : l.maxAcc * t ≤ p.speed := by
      rw [h.speed_eq]
      exact mul_le_mul_of_nonneg_left hacc.le ha.le
    rw [mul_assoc, hdir, hdir, abs_of_nonneg (mul_nonneg ha.le ht), abs_of_pos ha]
    exact ⟨hup.trans hle, le_refl _⟩
  · rw [hdir, abs_of_pos hpos, hz, abs_zero]
    exact ⟨hle, ha.le⟩
  · have hdown : l.maxAcc * (t - p.decTime) ≤ p.speed := by
      rw [h.speed_eq]
      exact mul_le_mul_of_nonneg_left (by linarith) ha.le
    have hlost := mul_nonneg ha.le (sub_nonneg.mpr (not_lt.mp hdec))
    rw [hdir, neg_mul, abs_neg, hdir, abs_of_pos ha, abs_of_nonneg (by linarith)]
    exact ⟨by linarith, le_refl _⟩
  · rw [hz, abs_zero]
    exact ⟨(hpos.trans_le hle).le, ha.le⟩

end Profile

end Plan

end Gantry
