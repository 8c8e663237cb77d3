import Mathlib
import Gantry.Proofs.Heat.Guard
import Gantry.Proofs.Number.Magnitude

/-!
# The range of power

The power of a heater is what its controller demands, held between zero and the largest power of
the heater. A hold lets NaN pass, and nothing else: after a tick of any reachable machine the power
is in its range exactly where the heater is off or the demand is not NaN, which it is not as long
as the numbers that it is made of are moderate.
-/

namespace Gantry

open Number

namespace Regulator

variable {r s : Regulator Float} {time measured out power : Float}

theorem bounded_cases (hmin : r.minOut = some 0.0) (hmax : r.maxOut = some power) (x : Float) :
    r.bounded x = if power < x then power else if x < 0.0 then 0.0 else x := by
  unfold bounded raised
  rw [hmin, hmax]

theorem bounded_of_isNaN (r : Regulator Float) {x : Float} (hx : x.isNaN = true) :
    r.bounded x = x := by
  have hraised : r.raised x = x := by
    unfold raised
    cases r.minOut with
    | none => rfl
    | some lo => exact if_neg (not_lt_of_isNaN hx lo).1
  unfold bounded
  cases r.maxOut with
  | none => exact hraised
  | some hi => exact (if_neg (not_lt_of_isNaN hx hi).2).trans hraised

theorem not_isNaN_bounded (hmin : r.minOut = some 0.0) (hmax : r.maxOut = some power)
    (hp : power.isNaN = false) {x : Float} (hx : x.isNaN = false) :
    (r.bounded x).isNaN = false := by
  rw [bounded_cases hmin hmax]
  split
  · exact hp
  · split
    · decide +kernel
    · exact hx

end Regulator

namespace Body

variable {b d : Body Float} {time power : Float}

/-- The numbers that a heater computes its power of: the gains are at most `2 ^ g` in magnitude, the
duration of the tick `2 ^ t` and all else `2 ^ e`. -/
structure Sized (b : Body Float) (time : Float) (g e t : ℤ) : Prop where
  kp : Bounded b.control.kp g
  ki : Bounded b.control.ki g
  setPoint : Bounded b.control.setPoint e
  temperature : Bounded b.temperature e
  lastError : Bounded b.control.lastError e
  integral : Bounded b.control.integral e
  elapsed : Bounded (b.control.elapsed time) t

structure Moderate (b : Body Float) (time : Float) : Prop where
  kp : b.control.kp.abs ≤ 1e75
  ki : b.control.ki.abs ≤ 1e75
  setPoint : b.control.setPoint.abs ≤ 1e75
  temperature : b.temperature.abs ≤ 1e75
  lastError : b.control.lastError.abs ≤ 1e75
  integral : b.control.integral.abs ≤ 1e75
  elapsed : (b.control.elapsed time).abs ≤ 1e75

theorem Moderate.sized (h : b.Moderate time) : b.Sized time 250 250 250 := by
  have hbound {x : Float} (hx : x.abs ≤ 1e75) : Bounded x 250 :=
    bounded_of_abs_le (bounded_iff.mpr ⟨by decide +kernel, by decide +kernel⟩) hx
  exact ⟨hbound h.kp, hbound h.ki, hbound h.setPoint, hbound h.temperature, hbound h.lastError,
    hbound h.integral, hbound h.elapsed⟩

theorem Guarded.integral_bounded (h : b.Guarded power) {x y : Float} {k : ℤ} (hx : Bounded x k)
    {bound : Float} (hb : b.control.windUp = some bound)
    (hy : Scalar.clamp? x (-Scalar.abs bound) (Scalar.abs bound) = some y) : Bounded y k := by
  have hfin := (isNonNegative_iff.mp (h.windUp bound hb)).1
  obtain ⟨hafin, haval⟩ := abs_finite hfin
  obtain ⟨hnfin, hnval⟩ := neg_finite hafin
  have hpos := abs_nonneg (toRat bound)
  refine hx.clamp hnfin ?_ hafin ?_ hy
  · rw [hnval, haval]
    linarith
  · rw [haval]
    exact hpos

variable {g e t : ℤ}

theorem Sized.error (h : b.Sized time g e t) (he : 0 ≤ e) (hfit : e ≤ 1022) :
    Bounded (b.control.error b.temperature) (e + 1) :=
  h.setPoint.sub h.temperature le_rfl le_rfl ⟨by omega, by omega⟩

theorem Sized.integral_free (h : b.Sized time g e t) (he : 0 ≤ e) (ht : 0 ≤ t)
    (hfit : e + t ≤ 1020) : Bounded (b.control.integral + (b.control.lastError +
      b.control.error b.temperature) * b.control.elapsed time / 2.0) (e + t + 3) := by
  have herror := h.error he (by omega)
  have hsum : Bounded (b.control.lastError + b.control.error b.temperature) (e + 2) :=
    h.lastError.add herror (by omega) (by omega) ⟨by omega, by omega⟩
  have harea : Bounded ((b.control.lastError + b.control.error b.temperature) *
      b.control.elapsed time) (e + t + 2) :=
    hsum.mul h.elapsed (by omega) ⟨by omega, by omega⟩
  have hhalf : Bounded ((b.control.lastError + b.control.error b.temperature) *
      b.control.elapsed time / 2.0) (e + t + 1) :=
    harea.div (by decide +kernel) (show (2 : ℚ) ^ (1 : ℤ) ≤ toRat 2.0 by decide +kernel) (by omega)
      ⟨by omega, by omega⟩
  exact h.integral.add hhalf (by omega) (by omega) ⟨by omega, by omega⟩

theorem Guarded.demand_bounded (h : b.Guarded power) (hs : b.Sized time g e t) (hg : 0 ≤ g)
    (he : 0 ≤ e) (ht : 0 ≤ t) (hfit : g + e + t ≤ 1019) {s : Regulator Float} {out : Float}
    (hrun : b.control.run time b.temperature = .ok (s, out)) :
    Bounded s.demand (g + e + t + 4) := by
  obtain ⟨y, hy, rfl, -⟩ := Regulator.run_cases hrun
  have hfree := hs.integral_free he ht (by omega)
  have hintegral : Bounded y (e + t + 3) := by
    unfold Regulator.integrate at hy
    cases hw : b.control.windUp with
    | none =>
      simp only [hw, Except.ok.injEq] at hy
      exact hy ▸ hfree
    | some bound =>
      simp only [hw] at hy
      split at hy
      · rename_i held hheld
        cases hy
        exact h.integral_bounded hfree hw hheld
      · cases hy
  have hp : Bounded (b.control.kp * b.control.error b.temperature) (g + e + t + 3) :=
    hs.kp.mul (hs.error he (by omega)) (by omega) ⟨by omega, by omega⟩
  have hi : Bounded (b.control.ki * y) (g + e + t + 3) :=
    hs.ki.mul hintegral (by omega) ⟨by omega, by omega⟩
  exact hp.add hi (by omega) (by omega) ⟨by omega, by omega⟩

/-- The power is in its range unless the demand is NaN. -/
theorem Guarded.power_iff (h : b.Guarded power) (hp : Scalar.isPositive power = true)
    (hrun : b.run time = .ok d) :
    (0.0 ≤ d.powerIn ∧ d.powerIn ≤ power) ↔
      (b.setPoint == 0.0) = true ∨ d.control.demand.isNaN = false := by
  obtain ⟨control, q, ha⟩ := advances_of_run hrun
  have hzero := zero_le_of_isPositive hp
  have hpn := (not_isNaN_of_le hzero).2
  rw [ha.powerIn, ha.control]
  rcases heat_cases ha.heat with ⟨hoff, -, rfl⟩ | ⟨hon, out, hctl, hclamp⟩
  · refine iff_of_true ⟨?_, hzero⟩ (Or.inl hoff)
    exact le_self (not_isNaN_of_le hzero).1
  · obtain ⟨y, -, hs, hout⟩ := Regulator.run_cases hctl
    have hmin : b.control.minOut = some 0.0 := h.minOut
    rw [h.hPower] at hclamp
    cases hnan : control.demand.isNaN with
    | false =>
      refine iff_of_true ?_ (Or.inr rfl)
      apply clamp?_mem hclamp
      rw [hout]
      exact Regulator.not_isNaN_bounded hmin h.maxOut hpn hnan
    | true =>
      have hq : q.isNaN = true := by
        rw [Regulator.bounded_of_isNaN _ hnan] at hout
        rw [clamp?_of_isNaN hclamp (hout ▸ hnan), hout]
        exact hnan
      refine iff_of_false ?_ (by simp [hon])
      rintro ⟨hge, -⟩
      rw [(not_isNaN_of_le hge).2] at hq
      cases hq

theorem Guarded.power_of_sized (h : b.Guarded power) (hp : Scalar.isPositive power = true)
    (hs : b.Sized time g e t) (hg : 0 ≤ g) (he : 0 ≤ e) (ht : 0 ≤ t) (hfit : g + e + t ≤ 1019)
    (hrun : b.run time = .ok d) : 0.0 ≤ d.powerIn ∧ d.powerIn ≤ power := by
  rw [h.power_iff hp hrun]
  obtain ⟨control, q, ha⟩ := advances_of_run hrun
  rcases heat_cases ha.heat with ⟨hoff, -, -⟩ | ⟨-, out, hctl, -⟩
  · exact Or.inl hoff
  · rw [ha.control]
    exact Or.inr (h.demand_bounded hs hg he ht hfit hctl).isNaN

end Body

namespace Machine

/-- Over every tick of every reachable machine: the power of a heater is in its range unless the
heater is on and its demand is NaN, and the demand is a number where all it is made of is
moderate. -/
theorem power_of_reachable (c : MachineConfig Float) (hc : c.validate = .ok ())
    (m : Machine Float) (hm : Reachable c m) (time : Float) :
    ∃ n, m.run time = .ok n ∧ ∀ k,
      (n.heater k).config.hPower = (c.heaters.get k).hPower ∧
      ((0.0 ≤ (n.heater k).powerIn ∧ (n.heater k).powerIn ≤ (n.heater k).config.hPower) ↔
        ((m.heater k).setPoint == 0.0) = true ∨ (n.heater k).control.demand.isNaN = false) ∧
      ((m.heater k).Moderate time →
        0.0 ≤ (n.heater k).powerIn ∧ (n.heater k).powerIn ≤ (n.heater k).config.hPower) := by
  obtain ⟨n, hn⟩ := hm.run_ok hc time
  refine ⟨n, hn, fun k => ?_⟩
  have hguard := hm.guarded hc k
  have hguard' := (hm.run time hn).guarded hc k
  have hp := (HeaterConfig.guards (c.heaters_valid hc k)).hPower
  have hrun := heater_of_run hn k
  rw [hguard'.hPower]
  refine ⟨rfl, hguard.power_iff hp hrun, fun hmod => ?_⟩
  exact hguard.power_of_sized hp hmod.sized (by norm_num) (by norm_num) (by norm_num) (by norm_num)
    hrun

theorem power_stock :
    let c : MachineConfig Float := MachineConfig.stock
    let m := (ofConfig c).setTemperature .nozzle 200.0
    c.validate = .ok () ∧ Reachable c m ∧ (m.heater .nozzle).Moderate 0.05 ∧
      ∃ n, m.run 0.05 = .ok n ∧
        0.0 ≤ (n.heater .nozzle).powerIn ∧ (n.heater .nozzle).powerIn ≤ 120.0 := by
  intro c m
  have hc : c.validate = .ok () := by decide +kernel
  have hm : Reachable c m := .heat .nozzle 200.0 .start
  have hmod : (m.heater .nozzle).Moderate 0.05 := by
    constructor <;> decide +kernel
  obtain ⟨n, hn, hpower⟩ := power_of_reachable c hc m hm 0.05
  refine ⟨hc, hm, hmod, n, hn, ?_⟩
  obtain ⟨hmax, -, hrange⟩ := hpower .nozzle
  have h := hrange hmod
  rw [hmax] at h
  exact h

/-- A valid configuration may hold a gain that is not a number, unlike a change of the gains. -/
theorem power_of_gain_nan :
    let gain : Float := 0.0 / 0.0
    let nozzle : HeaterConfig Float := { HeaterConfig.stock .nozzle with kp := gain }
    let c : MachineConfig Float :=
      { MachineConfig.stock with heaters := MachineConfig.stock.heaters.set .nozzle nozzle }
    c.validate = .ok () ∧
      ((ofConfig c).setHeaterGains .nozzle gain 1.0 (some 10.0)).isOk = false ∧
      ∃ n, ((ofConfig c).setTemperature .nozzle 200.0).run 0.05 = .ok n ∧
        ¬ 0.0 ≤ (n.heater .nozzle).powerIn := by
  intro gain nozzle c
  have hc : c.validate = .ok () := by decide +kernel
  have hm : Reachable c ((ofConfig c).setTemperature .nozzle 200.0) := .heat .nozzle 200.0 .start
  obtain ⟨n, hn⟩ := hm.run_ok hc 0.05
  refine ⟨hc, by decide +kernel, n, hn, ?_⟩
  have hpower : (((ofConfig c).setTemperature .nozzle 200.0).run 0.05).toOption.all
      (fun n => !decide (0.0 ≤ (n.heater .nozzle).powerIn)) = true := by decide +kernel
  rw [hn] at hpower
  simpa only [Except.toOption, Option.all_some, Bool.not_eq_true', decide_eq_false_iff_not]
    using hpower

end Machine

end Gantry
