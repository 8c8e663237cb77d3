import Mathlib
import Gantry.Proofs.Heat.Conductance
import Gantry.Proofs.Heat.Step

/-!
# What a tick carries on

A tick averages the net power with that of the tick before it. A body that cools therefore carries
a loss into the next tick that it had while it was warmer, and where a tick is long for the body it
falls below its surroundings.

Measured in degrees, a tick takes the excess `x` over the surroundings and the carry `y` to
`x + y + y'` and `y'`, where `y'` is what the heater adds in half a tick less the part of `x` that
is lost. As long as every tick is brief, `y` stays at or above `-(√2 - 1) * x`, and nothing falls
below the surroundings.
-/

namespace Gantry

namespace Body

open BodyConfig

def excess (b : Body ℝ) : ℝ :=
  b.temperature - b.config.envTemp

/-- The degrees that the net power of the last tick brings about in half a tick. -/
noncomputable def carry (b : Body ℝ) (step : ℝ) : ℝ :=
  b.lastPower * step / 2.0 / b.config.capacity

section Recurrence

variable {x y w h r : ℝ}

/-- A carry that takes at most `carryRatio` of the excess leaves an excess of which the next carry
takes no more. -/
theorem renewed_of_brief {gain : ℝ} (hx : 0 ≤ x) (hy : -carryRatio * x ≤ y) (hgain : 0 ≤ gain)
    (hh : h ≤ carryRatio * carryRatio) :
    0 ≤ x + y + (gain - h * x) ∧
      -carryRatio * (x + y + (gain - h * x)) ≤ gain - h * x := by
  have hp := carryRatio_pos
  have heq := carryRatio_eq
  generalize carryRatio = p at hp heq hy hh
  have hleft : p * x ≤ x + y + (gain - h * x) := by
    have hlost : h * x ≤ p * p * x := mul_le_mul_of_nonneg_right hh hx
    have hpx : p * p * x + 2 * (p * x) = x := by
      linear_combination x * heq
    linarith
  have hnext : p * (p * x) ≤ p * (x + y + (gain - h * x)) := mul_le_mul_of_nonneg_left hleft hp.le
  have hlost : h * x ≤ p * (p * x) := by
    calc h * x ≤ p * p * x := mul_le_mul_of_nonneg_right hh hx
      _ = p * (p * x) := mul_assoc p p x
  constructor
  · exact (mul_nonneg hp.le hx).trans hleft
  · linarith

/-- The least growth of the part of its excess that a body loses, from tick to tick. -/
noncomputable def growth (r : ℝ) : ℝ :=
  r - (1.0 - r) * (1.0 - r) / 4.0

theorem growth_eq (r : ℝ) : growth r = r - (1 - r) * (1 - r) / 4 := by
  have hone : (1.0 : ℝ) = 1 := by norm_num
  have hfour : (4.0 : ℝ) = 4 := by norm_num
  unfold growth
  rw [hone, hfour]

theorem growth_pos (hr : carryRatio * carryRatio < r) (hone : r ≤ 1) : 0 < growth r := by
  have heq := carryRatio_eq
  have hp := carryRatio_pos
  generalize carryRatio = p at hr heq hp
  have hfactor : growth r = (r - p * p) * (6 - r - p * p) / 4 := by
    rw [growth_eq]
    linear_combination -(p * p - 2 * p - 1) / 4 * heq
  have hlow : 0 < r - p * p := sub_pos.mpr hr
  have hhigh : 0 < 6 - r - p * p := by linarith
  rw [hfactor]
  positivity

/-- Where more than `carryRatio * carryRatio` of the excess is lost in half a tick, every tick takes
a larger part of it than the one before. -/
theorem grown_of_lossy (hx : 0 < x) (hw : 0 ≤ w) (hy : w * x ≤ -y) (hr : r ≤ h)
    (hgrowth : 0 ≤ growth r) (hnext : 0 ≤ x + y - h * x) :
    (w + growth r) * (x + y - h * x) ≤ h * x := by
  have hloss : 0 ≤ w * x := mul_nonneg hw hx.le
  have hone : h ≤ 1 := by
    have hle : h * x ≤ 1 * x := by linarith
    exact le_of_mul_le_mul_right hle hx
  have hpart : x + y - h * x ≤ (1 - h - w) * x := by
    linarith
  have hlost : w * (x + y - h * x) ≤ (1 - h) * (1 - h) / 4 * x := by
    calc w * (x + y - h * x) ≤ w * ((1 - h - w) * x) := mul_le_mul_of_nonneg_left hpart hw
      _ = w * (1 - h - w) * x := (mul_assoc w _ x).symm
      _ ≤ (1 - h) * (1 - h) / 4 * x := by
        apply mul_le_mul_of_nonneg_right _ hx.le
        linarith [sq_nonneg (1 - h - 2 * w)]
  have hgrown : growth r * (x + y - h * x) ≤ growth h * x := by
    have hmono : growth r ≤ growth h := by
      rw [growth_eq, growth_eq]
      nlinarith
    have hless : x + y - h * x ≤ x := by
      have hr0 : 0 ≤ r := by
        rw [growth_eq] at hgrowth
        linarith [mul_self_nonneg (1 - r)]
      linarith [mul_nonneg (hr0.trans hr) hx.le]
    calc growth r * (x + y - h * x) ≤ growth r * x := mul_le_mul_of_nonneg_left hless hgrowth
      _ ≤ growth h * x := mul_le_mul_of_nonneg_right hmono hx.le
  have htotal : (1 - h) * (1 - h) / 4 * x + growth h * x = h * x := by
    rw [growth_eq]
    ring
  calc (w + growth r) * (x + y - h * x)
      = w * (x + y - h * x) + growth r * (x + y - h * x) := add_mul w _ _
    _ ≤ (1 - h) * (1 - h) / 4 * x + growth h * x := add_le_add hlost hgrown
    _ = h * x := htotal

end Recurrence

variable {b d e : Body ℝ} {step now gain : ℝ}

def Paced (b : Body ℝ) (step now : ℝ) : Prop :=
  (b.elapsed now = 0 ∧ b.excess = 0 ∧ b.lastPower = 0) ∨ b.elapsed now = step

theorem power_nonneg {control : Regulator ℝ} {power : ℝ}
    (h : b.heat now = .ok (control, power)) : 0 ≤ power := by
  have hzero : (0.0 : ℝ) = 0 := by norm_num
  rcases heat_cases h with ⟨-, -, hpower⟩ | ⟨-, out, -, hclamp⟩
  · exact (hpower.trans hzero).ge
  · exact hzero.symm.le.trans (Exact.clamp?_mem hclamp).1

theorem power_of_off {control : Regulator ℝ} {power : ℝ} (hoff : b.setPoint = 0)
    (h : b.heat now = .ok (control, power)) : power = 0 := by
  have hzero : (0.0 : ℝ) = 0 := by norm_num
  rcases heat_cases h with ⟨-, -, hpower⟩ | ⟨hon, -⟩
  · exact hpower.trans hzero
  · have hbeq : (b.setPoint == 0.0) = true := Exact.beq_iff.mpr (hoff.trans hzero.symm)
    rw [hbeq] at hon
    cases hon

theorem carry_of_advances {control : Regulator ℝ} {power : ℝ}
    (h : b.Advances now control power d) :
    d.carry step = power * step / 2 / b.config.capacity -
      b.config.lossRatio step b.temperature * b.excess := by
  have htwo : (2.0 : ℝ) = 2 := by norm_num
  have hpower : d.lastPower = power - heatLoss b.config b.temperature := h.lastPower
  unfold carry BodyConfig.lossRatio excess
  rw [h.config, hpower, BodyConfig.heatLoss_eq, htwo]
  ring

theorem excess_of_advances {control : Regulator ℝ} {power : ℝ}
    (h : b.Advances now control power d) (helapsed : b.elapsed now = step) :
    d.excess = b.excess + b.carry step + d.carry step := by
  have htwo : (2.0 : ℝ) = 2 := by norm_num
  have hmoved : d.temperature = b.temperature +
      (d.lastPower + b.lastPower) * b.elapsed now / 2.0 / b.config.capacity := h.temperature
  unfold excess carry
  rw [h.config, hmoved, helapsed, htwo]
  ring

theorem temperature_of_advances {control : Regulator ℝ} {power : ℝ}
    (h : b.Advances now control power d) (helapsed : b.elapsed now = 0) :
    d.temperature = b.temperature := by
  have hmoved : d.temperature = b.temperature +
      (d.lastPower + b.lastPower) * b.elapsed now / 2.0 / b.config.capacity := h.temperature
  rw [hmoved, helapsed, mul_zero, zero_div, zero_div, add_zero]

/-- A body of physical parameters that is given ticks of one length. -/
structure Ticking (b : Body ℝ) (step now : ℝ) : Prop where
  step_pos : 0 < step
  physical : b.config.Physical
  paced : b.Paced step now

theorem Ticking.run (h : b.Ticking step now) (hd : b.run now = .ok d) :
    d.Ticking step (now + step) := by
  obtain ⟨control, power, hadv⟩ := advances_of_run hd
  refine ⟨h.step_pos, ?_, Or.inr ?_⟩
  · rw [hadv.config]
    exact h.physical
  · unfold elapsed
    rw [hadv.lastTime]
    exact add_sub_cancel_left now step

/-- A tick is a step of the recurrence; the first one only sets the carry. -/
theorem Ticking.beat (h : b.Ticking step now) (hd : b.run now = .ok d) :
    ∃ gain, 0 ≤ gain ∧ (b.setPoint = 0 → gain = 0) ∧
      d.carry step = gain - b.config.lossRatio step b.temperature * b.excess ∧
      ((b.excess = 0 ∧ b.carry step = 0 ∧ d.excess = 0) ∨
        d.excess = b.excess + b.carry step + d.carry step) := by
  obtain ⟨control, power, hadv⟩ := advances_of_run hd
  have hcap := h.physical.capacity
  refine ⟨power * step / 2 / b.config.capacity, ?_, ?_, carry_of_advances hadv, ?_⟩
  · have := power_nonneg hadv.heat
    have := h.step_pos
    positivity
  · intro hoff
    rw [power_of_off hoff hadv.heat]
    simp
  · rcases h.paced with ⟨helapsed, hexcess, hpower⟩ | helapsed
    · left
      refine ⟨hexcess, ?_, ?_⟩
      · unfold carry
        simp [hpower]
      · unfold excess
        rw [hadv.config, temperature_of_advances hadv helapsed]
        exact hexcess
    · exact Or.inr (excess_of_advances hadv helapsed)

/-- A tick that does not heat, of a body that is warm or that carries something on. -/
theorem Ticking.idle (h : b.Ticking step now) (hoff : b.setPoint = 0) (hd : b.run now = .ok d)
    (hmoves : b.excess ≠ 0 ∨ b.carry step ≠ 0) :
    d.carry step = -(b.config.lossRatio step b.temperature * b.excess) ∧
      d.excess = b.excess + b.carry step - b.config.lossRatio step b.temperature * b.excess := by
  obtain ⟨gain, -, hgain, hcarry, hfirst | hexcess⟩ := h.beat hd
  · rcases hmoves with hmoves | hmoves
    · exact absurd hfirst.1 hmoves
    · exact absurd hfirst.2.1 hmoves
  · rw [hgain hoff, zero_sub] at hcarry
    rw [hcarry, ← sub_eq_add_neg] at hexcess
    exact ⟨hcarry, hexcess⟩

/-- The body is not below its surroundings, and does not carry on to below them. -/
structure Carried (b : Body ℝ) (step : ℝ) : Prop where
  excess : 0 ≤ b.excess
  carry : -carryRatio * b.excess ≤ b.carry step

theorem Carried.warm (hb : b.Carried step) : b.config.envTemp ≤ b.temperature :=
  sub_nonneg.mp hb.excess

theorem Carried.run (hb : b.Carried step) (h : b.Ticking step now)
    (hbrief : b.config.Brief step b.temperature) (hd : b.run now = .ok d) : d.Carried step := by
  obtain ⟨gain, hgain, -, hcarry, hfirst | hexcess⟩ := h.beat hd
  · obtain ⟨hexcess, -, hnext⟩ := hfirst
    constructor
    · exact hnext.ge
    · rw [hnext, hcarry, hexcess]
      simpa using hgain
  · have hnew := renewed_of_brief hb.excess hb.carry hgain hbrief
    rw [← hcarry, ← hexcess] at hnew
    exact ⟨hnew.1, hnew.2⟩

/-- The body neither is warmer than some temperature nor carries on to above it. -/
structure Under (b : Body ℝ) (step hot : ℝ) : Prop where
  temperature : b.temperature ≤ hot
  carried : b.temperature + b.carry step ≤ hot

theorem Under.run {hot : ℝ} (hu : b.Under step hot) (h : b.Ticking step now)
    (hoff : b.setPoint = 0) (hloss : 0 ≤ b.config.lossRatio step b.temperature * b.excess)
    (hd : b.run now = .ok d) : d.Under step hot := by
  obtain ⟨control, power, hadv⟩ := advances_of_run hd
  obtain ⟨gain, -, hgain, hcarry, hexcess⟩ := h.beat hd
  rw [hgain hoff] at hcarry
  have htemp := hu.temperature
  have hcarried := hu.carried
  unfold excess at hexcess hcarry hloss
  rw [hadv.config] at hexcess
  have hd : d.temperature ≤ hot := by
    rcases hexcess with hfirst | hnext
    · linarith
    · linarith
  exact ⟨hd, by linarith⟩

end Body

end Gantry
