import Mathlib
import Gantry.Heat.Body
import Gantry.Proofs.Motion.Exact

/-!
# The conductance of a body

In exact arithmetic the power that a body loses is its conductance times the degrees that it is
above its surroundings. The conductance is made of conduction, which is the same at every
temperature, and of radiation, which grows with the temperature.

A body loses a part of its excess over the surroundings in half a tick. A tick is brief for it as
long as that part is at most `(√2 - 1)²`.
-/

namespace Gantry.BodyConfig

/-- The power that is lost at a temperature for each degree above the surroundings. -/
noncomputable def conductance (c : BodyConfig ℝ) (temp : ℝ) : ℝ :=
  c.surface * (c.kHeat + stefanBoltzmann * ((kelvin temp + kelvin c.envTemp) *
    (kelvin temp * kelvin temp + kelvin c.envTemp * kelvin c.envTemp)))

noncomputable def capacity (c : BodyConfig ℝ) : ℝ :=
  c.cHeat * c.mass

/-- The part of the excess over the surroundings that is lost in half a tick. -/
noncomputable def lossRatio (c : BodyConfig ℝ) (step temp : ℝ) : ℝ :=
  c.conductance temp * step / 2.0 / c.capacity

/-- How much of its excess a body may be about to lose before every tick, if it is not to fall
below the surroundings. -/
noncomputable def carryRatio : ℝ :=
  √2.0 - 1.0

def Brief (c : BodyConfig ℝ) (step temp : ℝ) : Prop :=
  c.lossRatio step temp ≤ carryRatio * carryRatio

/-- A body that can be warmed, and that gives off heat to what is colder. -/
structure Physical (c : BodyConfig ℝ) : Prop where
  capacity : 0 < c.capacity
  surface : 0 ≤ c.surface
  kHeat : 0 ≤ c.kHeat
  hPower : 0 ≤ c.hPower

variable {c : BodyConfig ℝ} {x y : ℝ}

theorem stefanBoltzmann_pos : (0 : ℝ) < stefanBoltzmann := by
  unfold stefanBoltzmann
  norm_num

theorem heatLoss_eq (c : BodyConfig ℝ) (temp : ℝ) :
    Body.heatLoss c temp = c.conductance temp * (temp - c.envTemp) := by
  have hdegrees : temp - c.envTemp = kelvin temp - kelvin c.envTemp := by
    unfold kelvin
    ring
  unfold Body.heatLoss conductance fourth
  simp only [hdegrees]
  ring

theorem kelvin_nonneg (h : -273.15 ≤ x) : 0 ≤ kelvin x := by
  unfold kelvin
  linarith

theorem Physical.conductance_nonneg (h : c.Physical) (henv : -273.15 ≤ c.envTemp)
    (hx : c.envTemp ≤ x) : 0 ≤ c.conductance x := by
  have hs := h.surface
  have hk := h.kHeat
  have ha := kelvin_nonneg henv
  have hb := kelvin_nonneg (henv.trans hx)
  have hr := stefanBoltzmann_pos
  unfold conductance
  positivity

theorem Physical.conductance_le (h : c.Physical) (henv : -273.15 ≤ c.envTemp)
    (hx : c.envTemp ≤ x) (hxy : x ≤ y) : c.conductance x ≤ c.conductance y := by
  have hs := h.surface
  have ha := kelvin_nonneg henv
  have hb := kelvin_nonneg (henv.trans hx)
  have hle : kelvin x ≤ kelvin y := by
    unfold kelvin
    linarith
  have hc := hb.trans hle
  have hr := stefanBoltzmann_pos
  unfold conductance
  gcongr

theorem Physical.lossRatio_nonneg {step : ℝ} (h : c.Physical) (hstep : 0 ≤ step)
    (henv : -273.15 ≤ c.envTemp) (hx : c.envTemp ≤ x) : 0 ≤ c.lossRatio step x := by
  have hcap := h.capacity
  have hg := h.conductance_nonneg henv hx
  unfold lossRatio
  positivity

theorem Physical.lossRatio_le {step : ℝ} (h : c.Physical) (hstep : 0 ≤ step)
    (henv : -273.15 ≤ c.envTemp) (hx : c.envTemp ≤ x) (hxy : x ≤ y) :
    c.lossRatio step x ≤ c.lossRatio step y := by
  have hcap := h.capacity
  have hg := h.conductance_le henv hx hxy
  unfold lossRatio
  gcongr

theorem carryRatio_eq : carryRatio * carryRatio + 2 * carryRatio = 1 := by
  have hone : (1.0 : ℝ) = 1 := by norm_num
  have htwo : (2.0 : ℝ) = 2 := by norm_num
  have hsq : √(2 : ℝ) * √2 = 2 := Real.mul_self_sqrt (by norm_num)
  unfold carryRatio
  rw [hone, htwo]
  linear_combination hsq

theorem carryRatio_pos : 0 < carryRatio := by
  have h : (1.0 : ℝ) < √2.0 := by
    apply Real.lt_sqrt_of_sq_lt
    norm_num
  exact sub_pos.mpr h

end Gantry.BodyConfig
