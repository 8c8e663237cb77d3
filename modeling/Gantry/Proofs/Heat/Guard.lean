import Mathlib
import Gantry.Proofs.Heat.Step
import Gantry.Proofs.Machine.Reachable
import Gantry.Proofs.Number.Special

/-!
# Guarded heaters

Of the parameters of a heater, a valid configuration restricts those that its tick compares with:
the range of power, the bound of the integral, the band and the settle time. No operation of a
machine loses these restrictions, so no tick is at fault, whatever values the temperature, the set
point and the gains have come to.
-/

namespace Gantry

open Number

theorem requirePositive_ok {name : String} {x : Float} (h : requirePositive name x = .ok ()) :
    Scalar.isPositive x = true := by
  unfold requirePositive at h
  split at h
  · assumption
  · cases h

theorem requireNonNegative_ok {name : String} {x : Float}
    (h : requireNonNegative name x = .ok ()) : Scalar.isNonNegative x = true := by
  unfold requireNonNegative at h
  split at h
  · assumption
  · cases h

/-- What a valid configuration says of a heater. -/
structure HeaterConfig.Guards (c : HeaterConfig Float) : Prop where
  hPower : Scalar.isPositive c.hPower = true
  window : Scalar.isNonNegative c.settleWindow = true
  settleTime : Scalar.isNonNegative c.settleTime = true
  windUp : ∀ bound, c.windUp = some bound → Scalar.isNonNegative bound = true

theorem HeaterConfig.guards {c : HeaterConfig Float} {k : HeaterId} (h : c.validate k = .ok ()) :
    c.Guards := by
  simp only [HeaterConfig.validate] at h
  obtain ⟨⟨⟩, -, h⟩ := ok_of_bind h
  obtain ⟨⟨⟩, -, h⟩ := ok_of_bind h
  obtain ⟨⟨⟩, hp, h⟩ := ok_of_bind h
  obtain ⟨⟨⟩, -, h⟩ := ok_of_bind h
  obtain ⟨⟨⟩, hw, h⟩ := ok_of_bind h
  obtain ⟨⟨⟩, ht, h⟩ := ok_of_bind h
  refine ⟨requirePositive_ok hp, requireNonNegative_ok hw, requireNonNegative_ok ht, ?_⟩
  intro bound hb
  rw [hb] at h
  exact requireNonNegative_ok h

theorem MachineConfig.heaters_valid {c : MachineConfig Float} (h : c.validate = .ok ())
    (k : HeaterId) : (c.heaters.get k).validate k = .ok () := by
  simp only [MachineConfig.validate] at h
  split at h
  · cases h
  obtain ⟨⟨⟩, -, h⟩ := ok_of_bind h
  obtain ⟨⟨⟩, -, h⟩ := ok_of_bind h
  exact forM_ok h k (by cases k <;> simp [HeaterId.all])

/-- A heater whose tick compares with nothing but numbers in order. -/
structure Body.Guarded (power : Float) (b : Body Float) : Prop where
  hPower : b.config.hPower = power
  minOut : b.control.minOut = some 0.0
  maxOut : b.control.maxOut = some power
  windUp : ∀ bound, b.control.windUp = some bound → Scalar.isNonNegative bound = true
  window : Scalar.isNonNegative b.config.settleWindow = true
  settleTime : Scalar.isNonNegative b.config.settleTime = true

namespace Body

variable {b d : Body Float} {power : Float}

theorem guarded_ofConfig {c : HeaterConfig Float} (h : c.Guards) (envTemp : Float) :
    (ofConfig envTemp c).Guarded c.hPower :=
  ⟨rfl, rfl, rfl, h.windUp, h.window, h.settleTime⟩

theorem Advances.control_same {time p : Float} {control : Regulator Float}
    (h : b.Advances time control p d) :
    d.control.kp = b.control.kp ∧ d.control.ki = b.control.ki ∧
      d.control.minOut = b.control.minOut ∧ d.control.maxOut = b.control.maxOut ∧
      d.control.windUp = b.control.windUp := by
  rw [h.control]
  rcases heat_cases h.heat with ⟨-, rfl, -⟩ | ⟨-, out, hrun, -⟩
  · exact ⟨rfl, rfl, rfl, rfl, rfl⟩
  · obtain ⟨y, -, rfl, -⟩ := Regulator.run_cases hrun
    exact ⟨rfl, rfl, rfl, rfl, rfl⟩

theorem Guarded.tune (h : b.Guarded power) (ht : Tuning b d) : d.Guarded power := by
  cases ht with
  | refl => exact h
  | gains hkp hki hw => exact ⟨h.hPower, h.minOut, h.maxOut, hw, h.window, h.settleTime⟩
  | band hw ht => exact ⟨h.hPower, h.minOut, h.maxOut, h.windUp, hw, ht⟩

theorem Guarded.change (h : b.Guarded power) (hc : Change b d) : d.Guarded power := by
  cases hc with
  | tune ht => exact h.tune ht
  | heat celsius => exact ⟨h.hPower, h.minOut, h.maxOut, h.windUp, h.window, h.settleTime⟩
  | run time hrun =>
    obtain ⟨control, p, ha⟩ := advances_of_run hrun
    obtain ⟨-, -, hmin, hmax, hwind⟩ := ha.control_same
    refine ⟨?_, ?_, ?_, ?_, ?_, ?_⟩
    · rw [ha.config, h.hPower]
    · rw [hmin, h.minOut]
    · rw [hmax, h.maxOut]
    · rw [hwind]
      exact h.windUp
    · rw [ha.config]
      exact h.window
    · rw [ha.config]
      exact h.settleTime

theorem Guarded.windUp_le (h : b.Guarded power) {bound : Float}
    (hb : b.control.windUp = some bound) : -Scalar.abs bound ≤ Scalar.abs bound :=
  neg_abs_le_abs (isNaN_of_isFinite (isNonNegative_iff.mp (h.windUp bound hb)).1)

theorem Guarded.integrate_ok (h : b.Guarded power) (time measured : Float) :
    ∃ y, b.control.integrate time measured = .ok y := by
  unfold Regulator.integrate
  cases hw : b.control.windUp with
  | none => exact ⟨_, rfl⟩
  | some bound =>
    obtain ⟨y, hy⟩ := clamp?_of_le (h.windUp_le hw) (b.control.integral +
      (b.control.lastError + b.control.error measured) * b.control.elapsed time / 2.0)
    exact ⟨y, by simp only [hy]⟩

theorem zero_le_of_isPositive (hp : Scalar.isPositive power = true) : 0.0 ≤ power := by
  obtain ⟨hfin, hpos⟩ := isPositive_iff.mp hp
  rw [le_iff isFinite_zero hfin, toRat_zero]
  exact hpos.le

theorem Guarded.run_ok (h : b.Guarded power) (hp : Scalar.isPositive power = true)
    (time : Float) : ∃ d, b.run time = .ok d := by
  have hheat : ∃ p, b.heat time = .ok p := by
    unfold heat
    split
    · exact ⟨_, rfl⟩
    · obtain ⟨y, hy⟩ := h.integrate_ok time b.temperature
      simp only [Regulator.run, hy]
      obtain ⟨q, hq⟩ := clamp?_of_le (h.hPower ▸ zero_le_of_isPositive hp)
        (b.control.bounded (b.control.kp * b.control.error b.temperature + b.control.ki * y))
      simp only [hq]
      exact ⟨_, rfl⟩
  obtain ⟨⟨control, p⟩, hp⟩ := hheat
  unfold run
  rw [hp]
  exact ⟨_, rfl⟩

end Body

namespace Machine

variable {c : MachineConfig Float} {m : Machine Float}

theorem Reachable.guarded (hc : c.validate = .ok ()) (h : Reachable c m) (k : HeaterId) :
    (m.heater k).Guarded (c.heaters.get k).hPower :=
  h.heater_induction (Body.guarded_ofConfig (HeaterConfig.guards (c.heaters_valid hc k)) _)
    fun _ _ hd hb => hb.change hd

theorem Reachable.run_ok (hc : c.validate = .ok ()) (h : Reachable c m) (time : Float) :
    ∃ n, m.run time = .ok n :=
  run_of_heaters fun k =>
    (h.guarded hc k).run_ok (HeaterConfig.guards (c.heaters_valid hc k)).hPower time

end Machine

end Gantry
