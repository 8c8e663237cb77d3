import Mathlib.Analysis.Real.Sqrt
import Gantry.Proofs.Motion.PlannedMove

/-!
# Timed plans

An axis that is to make its way in a given time, ramps apart, is asked for the speed that this
takes. Where it can get up to that speed and down again on its way, it begins to slow down exactly
when the time is over, and arrives one ramp later. Where it cannot, it begins to slow down after
that time. All of this depends only on how long its ramp takes.

Nothing here says where the time comes from.
-/

namespace Gantry

namespace Plan

/-- Two ramps are longer than the trip, by so little that they count as fitting. -/
def Snug (p : Plan ℝ) : Prop :=
  p.trip < p.accTrip + p.accTrip ∧ Scalar.Near (p.accTrip + p.accTrip) p.trip

/-- How a plan keeps a time `T`, where a ramp to the speed that was asked for takes a time `u`. -/
inductive Timed (p : Plan ℝ) (T u : ℝ) : Prop where
  | cruises (hu : u ≤ T) (hd : p.decTime = T) (hm : p.moveTime = T + u)
  /-- The speed that was asked for is not reached. -/
  | peaks (hu : T < u) (hd : p.decTime = Real.sqrt (T * u))
      (hm : p.moveTime = Real.sqrt (T * u) + Real.sqrt (T * u))
  | snug (hu : T < u) (hs : p.Snug) (hd : p.decTime = u) (hm : p.moveTime = u + u)

variable {p : Plan ℝ} {l : Limits ℝ} {start target v T u w : ℝ}

theorem timed_of_toward? (h : toward? l start target (some v) = some p) (hv : v ≤ l.maxSpeed)
    (htrip : |target - start| = v * T) : p.Timed T (v / l.maxAcc) := by
  have hz : (0.0 : ℝ) = 0 := by norm_num
  have htwo : (2.0 : ℝ) = 2 := by norm_num
  obtain ⟨-, hs, ha, hp⟩ := eq_of_toward? h
  rw [Exact.smaller_eq, Option.getD_some, min_eq_left hv] at hs hp
  rw [htrip] at hp
  have hramp : Ramp.twice l.maxAcc v = v * (v / l.maxAcc) := by
    unfold Ramp.twice
    ring
  have hlonger : v * T < Ramp.twice l.maxAcc v ↔ T < v / l.maxAcc := by
    rw [hramp]
    exact mul_lt_mul_iff_of_pos_left hs
  have hpos : 0 < v * T := by
    obtain ⟨hne, -, -, -⟩ := eq_of_toward? h
    rw [← htrip]
    exact abs_pos.mpr (sub_ne_zero.mpr hne)
  have hsuits := Ramp.within_suits ha hs hpos
  rcases Ramp.within_eq l.maxAcc v (v * T) ha with ⟨hshort, hr⟩ | ⟨hlong, hspeed, htwice⟩
  · -- The peak is at half the trip, and there is no cruise.
    have hhalves : v * T - 2 * (v * T / 2) = 0 := by ring
    have hroot : v * T / l.maxAcc = T * (v / l.maxAcc) := by ring
    rw [hr] at hp
    apply Timed.peaks (hlonger.mp hshort.1)
    · rw [hp]
      simp only [ofRamp, Exact.larger_eq, hz, htwo, hhalves, hroot, max_self, zero_div, add_zero]
    · rw [hp]
      simp only [ofRamp, Exact.larger_eq, hz, htwo, hhalves, hroot, max_self, zero_div, add_zero]
      ring
  · generalize Ramp.within l.maxAcc v (v * T) = r at hp hsuits hspeed htwice
    have htime : r.time = v / l.maxAcc := by
      rw [← hspeed, hsuits.speed_eq, mul_div_cancel_left₀ _ ha.ne']
    have hd : p.decTime = v / l.maxAcc + max (v * T - v * (v / l.maxAcc)) 0 / v := by
      rw [hp]
      simp only [ofRamp, Exact.larger_eq, hz, htwo, htime, hspeed, htwice, hramp]
    have hm : p.moveTime = p.decTime + v / l.maxAcc := by
      rw [hd, hp]
      simp only [ofRamp, Exact.larger_eq, hz, htwo, htime, hspeed, htwice, hramp]
      ring
    rcases le_or_gt (v / l.maxAcc) T with hfits | hover
    · have hcruise : v * T - v * (v / l.maxAcc) = v * (T - v / l.maxAcc) := by ring
      have hnonneg : 0 ≤ v * (T - v / l.maxAcc) := mul_nonneg hs.le (sub_nonneg.mpr hfits)
      rw [hcruise, max_eq_left hnonneg, mul_div_cancel_left₀ _ hs.ne', add_sub_cancel] at hd
      apply Timed.cruises hfits hd
      rw [hm, hd]
    · have hnone : v * T - v * (v / l.maxAcc) ≤ 0 := by
        rw [← hramp]
        exact sub_nonpos.mpr (hlonger.mpr hover).le
      rw [max_eq_right hnone, zero_div, add_zero] at hd
      have hnear : Scalar.Near (Ramp.twice l.maxAcc v) (v * T) := by
        by_contra hno
        exact hlong ⟨hlonger.mpr hover, hno⟩
      have hramps : p.accTrip + p.accTrip = Ramp.twice l.maxAcc v := by
        rw [hp, ← htwice]
        simp only [ofRamp]
        ring
      have hway : p.trip = v * T := by rw [hp]; rfl
      apply Timed.snug hover _ hd
      · rw [hm, hd]
      · unfold Snug
        rw [hramps, hway]
        exact ⟨hlonger.mpr hover, hnear⟩

/-- The time of arrival by the time of the ramp. -/
noncomputable def arrival (T u : ℝ) : ℝ :=
  if u ≤ T then T + u else Real.sqrt (T * u) + Real.sqrt (T * u)

theorem Timed.moveTime_eq (h : p.Timed T u) (hs : ¬ p.Snug) : p.moveTime = arrival T u := by
  unfold arrival
  cases h with
  | cruises hu _ hm => rw [hm, if_pos hu]
  | peaks hu _ hm => rw [hm, if_neg (not_le.mpr hu)]
  | snug _ hsnug _ _ => exact absurd hsnug hs

theorem lt_sqrt_of_lt (hT : 0 < T) (hu : T < u) : T < Real.sqrt (T * u) := by
  apply Real.lt_sqrt_of_sq_lt
  rw [sq]
  exact mul_lt_mul_of_pos_left hu hT

/-- A longer ramp delays the arrival, by no more than it is longer. -/
theorem arrival_sub_mem (hT : 0 < T) (huw : u ≤ w) :
    0 ≤ arrival T w - arrival T u ∧ arrival T w - arrival T u ≤ w - u := by
  unfold arrival
  rcases le_or_gt w T with hw | hw
  · rw [if_pos hw, if_pos (huw.trans hw)]
    constructor <;> linarith
  · rw [if_neg (not_le.mpr hw)]
    have hx := lt_sqrt_of_lt hT hw
    have hsq : Real.sqrt (T * w) ^ 2 = T * w := Real.sq_sqrt (mul_pos hT (hT.trans hw)).le
    generalize Real.sqrt (T * w) = x at hx hsq
    rcases le_or_gt u T with hu | hu
    · rw [if_pos hu]
      have hmean : x + x ≤ T + w := by
        refine (abs_le_of_sq_le_sq' ?_ (by linarith)).2
        nlinarith [sq_nonneg (w - T)]
      constructor <;> linarith
    · rw [if_neg (not_le.mpr hu)]
      have hy := lt_sqrt_of_lt hT hu
      have hsq' : Real.sqrt (T * u) ^ 2 = T * u := Real.sq_sqrt (mul_pos hT (hT.trans hu)).le
      generalize Real.sqrt (T * u) = y at hy hsq'
      have hfactor : (x - y) * (x + y) = T * (w - u) := by
        calc (x - y) * (x + y) = x ^ 2 - y ^ 2 := by ring
          _ = T * (w - u) := by rw [hsq, hsq']; ring
      have hle : y ≤ x := by
        by_contra hlt
        have hneg := mul_neg_of_neg_of_pos (sub_neg.mpr (not_le.mp hlt)) (by linarith : 0 < x + y)
        have hpos := mul_nonneg hT.le (sub_nonneg.mpr huw)
        linarith
      constructor
      · linarith
      · have hgrow : (x - y) * (T + T) ≤ (x - y) * (x + y) :=
          mul_le_mul_of_nonneg_left (by linarith) (sub_nonneg.mpr hle)
        have hscaled : T * (x - y + (x - y)) ≤ T * (w - u) := by linarith
        have := le_of_mul_le_mul_left hscaled hT
        linarith

theorem abs_arrival_sub_le (hT : 0 < T) (u w : ℝ) : |arrival T u - arrival T w| ≤ |u - w| := by
  rcases le_total u w with h | h
  · obtain ⟨hlo, hhi⟩ := arrival_sub_mem hT h
    rw [abs_sub_comm, abs_of_nonneg hlo, abs_sub_comm u w, abs_of_nonneg (sub_nonneg.mpr h)]
    exact hhi
  · obtain ⟨hlo, hhi⟩ := arrival_sub_mem hT h
    rw [abs_of_nonneg hlo, abs_of_nonneg (sub_nonneg.mpr h)]
    exact hhi

theorem Timed.moveTime_sub_le {q : Plan ℝ} (hT : 0 < T) (hp : p.Timed T u) (hq : q.Timed T w)
    (hps : ¬ p.Snug) (hqs : ¬ q.Snug) : |p.moveTime - q.moveTime| ≤ |u - w| := by
  rw [hp.moveTime_eq hps, hq.moveTime_eq hqs]
  exact abs_arrival_sub_le hT u w

theorem Timed.decTime_of_le (h : p.Timed T u) (hu : u ≤ T) : p.decTime = T := by
  cases h with
  | cruises _ hd _ => exact hd
  | peaks hlt _ _ => exact absurd hu (not_le.mpr hlt)
  | snug hlt _ _ _ => exact absurd hu (not_le.mpr hlt)

theorem Timed.accTime_of_le (h : p.Timed T u) (hp : p.Profile l) (hu : u ≤ T) : p.accTime = u := by
  have hm := hp.moveTime
  cases h with
  | cruises _ hd hmove =>
    rw [hmove, hd] at hm
    exact (add_left_cancel hm).symm
  | peaks hlt _ _ => exact absurd hu (not_le.mpr hlt)
  | snug hlt _ _ _ => exact absurd hu (not_le.mpr hlt)

theorem Timed.lt_decTime (h : p.Timed T u) (hT : 0 < T) (hu : T < u) : T < p.decTime := by
  cases h with
  | cruises hle _ _ => exact absurd hle (not_le.mpr hu)
  | peaks _ hd _ =>
    rw [hd]
    exact lt_sqrt_of_lt hT hu
  | snug _ _ hd _ =>
    rw [hd]
    exact hu

end Plan

end Gantry
