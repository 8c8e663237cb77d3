import Mathlib
import Gantry.Config.Basic
import Gantry.Motion.Axis
import Gantry.Proofs.Number.Magnitude

/-!
# Axes that stay finite

An axis with the limits of a stock one that is sent to positions of any moderate size, under an
offset, stays finite. Positions, targets and offsets do not add up beyond `2 ^ 1018`: a coordinate
taken over the offset stops there. While a plan is followed, a ramp and a cruise add no more to
its start than a clock that stops at `2 ^ 50` seconds allows, and a plan that brakes by then has
had a short cruise. Its length, its times and the way it has to go may well overflow.
-/

namespace Gantry

open Number

structure Ramp.Tame (r : Ramp Float) : Prop where
  time : Upto r.time 8
  trip : Upto r.trip 10
  speed : Upto r.speed 8

structure UsualAcc (maxAcc : Float) : Prop where
  upto : Upto maxAcc 0
  ge : 2 ^ (-5 : ℤ) ≤ toRat maxAcc

theorem upto_half : Upto 0.5 0 := by
  constructor <;> decide +kernel

theorem upto_two : Upto 2.0 1 := by
  constructor <;> decide +kernel

theorem two_le : (2 : ℚ) ^ (1 : ℤ) ≤ toRat 2.0 := by decide +kernel

theorem Ramp.tame_within {maxAcc speed way : Float} (ha : UsualAcc maxAcc) (hs : Upto speed 0) :
    (Ramp.within maxAcc speed way.abs).Tame := by
  have htime : Upto (speed / maxAcc) 5 := hs.div ha.upto.isFinite ha.ge
  have hhalf : Upto (0.5 * maxAcc) 0 := upto_half.mul ha.upto
  have hfirst : Upto (0.5 * maxAcc * (speed / maxAcc)) 5 := hhalf.mul htime
  have htrip : Upto (0.5 * maxAcc * (speed / maxAcc) * (speed / maxAcc)) 10 := hfirst.mul htime
  unfold within
  simp only
  split
  · rename_i hshort
    -- The way is finite, as it is shorter than two ramps.
    have hdouble : Upto (2.0 * (0.5 * maxAcc * (speed / maxAcc) * (speed / maxAcc))) 11 :=
      upto_two.mul htrip
    obtain ⟨hfin, hval⟩ := abs_finite (isFinite_of_abs_lt hshort.1)
    have hway : Upto way.abs 11 := by
      refine ⟨hfin, ?_, ?_⟩
      · rw [hval]
        exact abs_nonneg _
      · exact ((lt_iff hfin hdouble.isFinite).mp hshort.1).le.trans hdouble.le
    have hquot : Upto (way.abs / maxAcc) (2 * 8) := hway.div ha.upto.isFinite ha.ge
    have hroot : Upto (way.abs / maxAcc).sqrt 8 := hquot.sqrt
    exact ⟨hroot, hway.div upto_two.isFinite two_le, ha.upto.mul hroot⟩
  · exact ⟨htime.mono, htrip, hs.mono⟩

/-- A plan that leads through finite positions. -/
structure Plan.Tame (p : Plan Float) : Prop where
  start : Bounded p.start 1018
  target : Bounded p.target 1018
  direction : Bounded p.direction 0
  speed : Upto p.speed 8
  accTrip : Upto p.accTrip 10
  accTime : Upto p.accTime 8
  /-- Where it brakes within the time that a clock can show, its cruise was short. -/
  brakes : ∀ t, Bounded t 50 → ¬ t < p.decTime → t < p.moveTime →
    Bounded p.decTrip 60 ∧ Bounded p.decTime 60

namespace Plan

variable {t start target maxAcc : Float}

theorem tame_rest : (Plan.rest : Plan Float).Tame := by
  refine ⟨(Upto.zero _).bounded, (Upto.zero _).bounded, ?_, .zero _, .zero _, .zero _, ?_⟩
  · constructor <;> decide +kernel
  · exact fun t _ hlate hearly => absurd hearly hlate

/-- A cruise that is over by `2 ^ 50` seconds is short. -/
theorem cruise_short {ramp : Ramp Float} (hr : ramp.Tame) {cruiseTrip : Float}
    (hc : 0.0 ≤ cruiseTrip) (ht : Bounded t 50)
    (hlate : ¬ t < ramp.time + cruiseTrip / ramp.speed)
    (hearly : t < 2.0 * ramp.time + cruiseTrip / ramp.speed) :
    Upto cruiseTrip 59 ∧ Upto (cruiseTrip / ramp.speed) 51 := by
  generalize hq : cruiseTrip / ramp.speed = q at hlate hearly
  have htwice : Upto (2.0 * ramp.time) 9 := upto_two.mul hr.time
  -- A duration that is not finite would put both instants in the same place.
  have hqfin : q.isFinite = true := by
    by_contra hinf
    have hinf : q.isFinite = false := by simpa using hinf
    have hdec := unpack_add_of_not_isFinite hinf hr.time.isFinite
    have hmove := unpack_add_of_not_isFinite hinf htwice.isFinite
    rw [float_add_comm, lt_iff_compare, hmove] at hearly
    rw [float_add_comm, lt_iff_compare, hdec] at hlate
    exact hlate hearly
  have hqle : toRat q < 2 ^ (51 : ℤ) := by
    by_contra hbig
    apply hlate
    rw [float_add_comm]
    refine lt_add ((lt_iff ht.isFinite hqfin).mpr ?_) hr.time.isFinite hr.time.ge
    have hpow : (2 : ℚ) ^ (50 : ℤ) < 2 ^ (51 : ℤ) :=
      zpow_lt_zpow_right₀ (by norm_num) (by norm_num)
    exact ht.le.trans_lt (hpow.trans_le (not_lt.mp hbig))
  have hcfin : cruiseTrip.isFinite = true := isFinite_of_div (hq ▸ hqfin)
  have hspeed : 0 < toRat ramp.speed :=
    lt_of_le_of_ne hr.speed.ge (ne_zero_of_div (hq ▸ hqfin) hr.speed.isFinite).symm
  have hc0 : 0 ≤ toRat cruiseTrip := by
    rwa [le_iff isFinite_zero hcfin, toRat_zero] at hc
  have hround : IsRounded q (toRat cruiseTrip / toRat ramp.speed) :=
    hq ▸ div_rounded hcfin hr.speed.isFinite hspeed.ne'
  have hcle : toRat cruiseTrip ≤ 2 ^ (59 : ℤ) := by
    by_contra hbig
    have hquot : (2 : ℚ) ^ (51 : ℤ) ≤ toRat cruiseTrip / toRat ramp.speed := by
      rw [le_div_iff₀ hspeed]
      calc (2 : ℚ) ^ (51 : ℤ) * toRat ramp.speed ≤ 2 ^ (51 : ℤ) * 2 ^ (8 : ℤ) := by
            gcongr
            exact hr.speed.le
        _ = 2 ^ (59 : ℤ) := by norm_num
        _ ≤ toRat cruiseTrip := (not_le.mp hbig).le
    have := hround.ge hqfin (onGrid_two_zpow (by norm_num)) (by positivity) hquot
    exact absurd this (not_le.mpr hqle)
  exact ⟨⟨hcfin, hc0, hcle⟩, ⟨hqfin, hround.ge hqfin onGrid_zero le_rfl (by positivity), hqle.le⟩⟩

theorem tame_ofRamp (hs : Bounded start 1018) (ht : Bounded target 1018)
    (requested : Option Float) (trip : Float) {ramp : Ramp Float} (hr : ramp.Tame) :
    (ofRamp start target requested trip ramp).Tame := by
  refine ⟨hs, ht, ?_, hr.speed, hr.trip, hr.time, ?_⟩
  · unfold ofRamp
    simp only
    split
    · constructor <;> decide +kernel
    · constructor <;> decide +kernel
  · intro t ht hlate hearly
    obtain ⟨htrip, htime⟩ := cruise_short hr
      (le_larger (isNaN_of_isFinite isFinite_zero)) ht hlate hearly
    exact ⟨hr.trip.bounded.add htrip.bounded, hr.time.bounded.add htime.bounded⟩

/-- Whatever speed is asked for, a plan within usual limits is tame. -/
theorem tame_of_toward? {limits : Limits Float} {requested : Option Float} {p : Plan Float}
    (hv : Upto limits.maxSpeed 0) (ha : UsualAcc limits.maxAcc) (hs : Bounded start 1018)
    (ht : Bounded target 1018) (hp : toward? limits start target requested = some p) :
    p.Tame := by
  unfold toward? at hp
  simp only at hp
  split at hp
  · cases hp
  · split at hp
    · rename_i hpos
      cases hp
      apply tame_ofRamp hs ht
      apply Ramp.tame_within ha
      have hle := smaller_le (x := requested.getD limits.maxSpeed)
        (isNaN_of_isFinite hv.isFinite)
      have hmem := within_of_mem isFinite_zero hv.isFinite (le_of_lt hpos.1) hle
      exact ⟨hmem.isFinite, toRat_zero ▸ hmem.ge, hmem.le.trans hv.le⟩
    · cases hp

theorem Tame.position {p : Plan Float} (h : p.Tame) (ha : UsualAcc maxAcc) (ht : Bounded t 50) :
    Bounded (p.motionAt maxAcc t).position 1018 := by
  have hfrom {way : Float} (hw : Bounded way 964) : Bounded (p.start + way) 1018 :=
    h.start.add_small hw
  unfold motionAt
  cases hphase : p.phaseAt t with
  | accelerating =>
    have hhalf : Bounded (p.direction * 0.5) 0 := h.direction.mul upto_half.bounded
    have hforce : Bounded (p.direction * 0.5 * maxAcc) 0 := hhalf.mul ha.upto.bounded
    have hfirst : Bounded (p.direction * 0.5 * maxAcc * t) 50 := hforce.mul ht
    exact hfrom (hfirst.mul ht)
  | cruising =>
    have hsince : Bounded (t - p.accTime) 51 := ht.sub h.accTime.bounded
    have hcruise : Bounded (p.speed * (t - p.accTime)) 59 := h.speed.bounded.mul hsince
    have hway : Bounded (p.accTrip + p.speed * (t - p.accTime)) 60 := h.accTrip.bounded.add hcruise
    exact hfrom (h.direction.mul hway)
  | decelerating =>
    have hbrakes : ¬ t < p.decTime ∧ t < p.moveTime := by
      unfold phaseAt at hphase
      split at hphase
      · cases hphase
      · split at hphase
        · cases hphase
        · split at hphase
          · exact ⟨by assumption, by assumption⟩
          · cases hphase
    obtain ⟨htrip, htime⟩ := h.brakes t ht hbrakes.1 hbrakes.2
    have hsince : Bounded (t - p.decTime) 61 := ht.sub htime
    have hfree : Bounded (p.speed * (t - p.decTime)) 69 := h.speed.bounded.mul hsince
    have hsum : Bounded (p.decTrip + p.speed * (t - p.decTime)) 70 := htrip.add hfree
    have hforce : Bounded (0.5 * maxAcc) 0 := (upto_half.mul ha.upto).bounded
    have hfirst : Bounded (0.5 * maxAcc * (t - p.decTime)) 61 := hforce.mul hsince
    have hlost : Bounded (0.5 * maxAcc * (t - p.decTime) * (t - p.decTime)) 122 :=
      hfirst.mul hsince
    have hway : Bounded (p.decTrip + p.speed * (t - p.decTime) -
        0.5 * maxAcc * (t - p.decTime) * (t - p.decTime)) 123 := hsum.sub hlost
    exact hfrom (h.direction.mul hway)
  | idle => exact h.target

end Plan

structure Axis.Tame (a : Axis Float) : Prop where
  maxSpeed : Upto a.config.maxSpeed 0
  maxAcc : UsualAcc a.config.maxAcc
  offset : Bounded a.offset 1018
  position : Bounded a.position 1018
  plan : a.plan.Tame
  started : ∀ start, a.startTime = some start → Upto start 50

namespace Axis

variable {a : Axis Float} {time v : Float}

theorem tame_stock (i : AxisId) : (ofConfig (AxisConfig.stock i : AxisConfig Float)).Tame := by
  refine ⟨?_, ?_, (Upto.zero _).bounded, (Upto.zero _).bounded, Plan.tame_rest, nofun⟩
  · cases i <;> constructor <;> decide +kernel
  · cases i <;> refine ⟨⟨?_, ?_, ?_⟩, ?_⟩ <;> decide +kernel

namespace Tame

theorem toPhysical (h : a.Tame) (hv : Bounded v 964) : Bounded (a.toPhysical v) 1018 :=
  h.offset.small_sub hv

/-- Physical zero is found again, whatever the offset. -/
theorem toPhysical_zero (h : a.Tame) : Bounded (a.toPhysical (a.toVirtual 0.0)) 1018 := by
  have hexact : (a.toVirtual 0.0).isFinite = true ∧ toRat (a.toVirtual 0.0) = toRat a.offset := by
    have hround := add_rounded isFinite_zero h.offset.isFinite
    rw [toRat_zero, zero_add] at hround
    obtain ⟨hfin, hnear⟩ := hround.nearest
      ((bounded_iff.mp h.offset).2.trans (zpow_le_zpow_right₀ (by norm_num) (by norm_num)))
    exact ⟨hfin, hnear.eq_of_onGrid (onGrid_toRat _)⟩
  refine Bounded.of_rounded (sub_rounded hexact.1 h.offset.isFinite) ?_ (by decide)
  rw [hexact.2, sub_self, abs_zero]
  positivity

theorem setTarget (h : a.Tame) (hv : Bounded (a.toPhysical v) 1018) (requested : Option Float) :
    (a.setTarget v requested).Tame := by
  unfold Axis.setTarget planTo
  split
  · rename_i p hp
    have hplan := Plan.tame_of_toward? h.maxSpeed h.maxAcc h.position hv hp
    exact ⟨h.maxSpeed, h.maxAcc, h.offset, h.position, hplan, nofun⟩
  · exact h

theorem setOffset (h : a.Tame) (hv : Bounded v 964) : (a.setOffset v).Tame :=
  ⟨h.maxSpeed, h.maxAcc, h.position.small_sub hv, h.position, h.plan, h.started⟩

theorem clearOffset (h : a.Tame) : a.clearOffset.Tame :=
  ⟨h.maxSpeed, h.maxAcc, (Upto.zero _).bounded, h.position, h.plan, h.started⟩

theorem run (h : a.Tame) (ht : Upto time 50) : (a.run time).Tame := by
  have harrive : a.arrive.Tame :=
    ⟨h.maxSpeed, h.maxAcc, h.offset, h.plan.target, h.plan, nofun⟩
  have hfollow : (a.follow time).Tame := by
    have hstart : Upto (a.startTime.getD time) 50 := by
      cases hs : a.startTime with
      | none => exact ht
      | some start => exact h.started start hs
    have hsince : Bounded (time - a.startTime.getD time) 50 := by
      refine (sub_rounded ht.isFinite hstart.isFinite).within
        (endpoint_two_zpow (by norm_num) (by norm_num)).neg
        (endpoint_two_zpow (by norm_num) (by norm_num)) ?_ ?_
      · linarith [ht.ge, hstart.le]
      · linarith [ht.le, hstart.ge]
    unfold follow
    simp only
    split
    · exact harrive
    · refine ⟨h.maxSpeed, h.maxAcc, h.offset, h.plan.position h.maxAcc hsince, h.plan, ?_⟩
      intro start hs
      cases hs
      exact hstart
  have hdynamics {b : Axis Float} (hb : b.Tame) : b.withDynamics.Tame :=
    ⟨hb.maxSpeed, hb.maxAcc, hb.offset, hb.position, hb.plan, hb.started⟩
  unfold Axis.run
  split
  · exact hdynamics hfollow
  · exact hdynamics harrive

end Tame

end Axis

end Gantry
