import Mathlib
import Gantry.Proofs.Heat.Conductance
import Gantry.Config.Basic
import Gantry.Proofs.Heat.Step
import Gantry.Proofs.Machine.Reachable
import Gantry.Proofs.Number.Special

/-!
# The equilibrium of a body

In exact arithmetic a body loses the more power the warmer it is, and none at the temperature of
its surroundings. A tick averages the net power with that of the tick before it: a single tick may
leave the temperature alone because what is lost makes up for what is carried over. Two ticks in a
row do so only where the heater gives what the body loses, and so at one temperature for each power.

This does NOT say that a body gets there.
-/

namespace Gantry

variable {c : BodyConfig ℝ} {x y power temp : ℝ}

theorem fourth_lt_fourth (hx : 0 ≤ x) (hxy : x < y) : fourth x < fourth y := by
  have hsq : x * x < y * y := mul_self_lt_mul_self hx hxy
  exact mul_self_lt_mul_self (mul_self_nonneg x) hsq

theorem le_fourth_add_sub (hx : 0 ≤ x) (hy : 1 ≤ y) : y ≤ fourth (x + y) - fourth x := by
  have hy0 : 0 ≤ y := zero_le_one.trans hy
  have hsq {a : ℝ} (ha : 1 ≤ a) : a ≤ a * a := le_mul_of_one_le_left (zero_le_one.trans ha) ha
  have hpow : y ≤ y * y * (y * y) := (hsq hy).trans (hsq (hy.trans (hsq hy)))
  have hmixed : 0 ≤ 4 * (x * x * x * y) + 6 * (x * x * y * y) + 4 * (x * y * y * y) := by
    positivity
  unfold fourth
  linarith

namespace Body

theorem heatLoss_envTemp (c : BodyConfig ℝ) : heatLoss c c.envTemp = 0 := by
  rw [BodyConfig.heatLoss_eq, sub_self, mul_zero]

theorem strictMonoOn_heatLoss (hsurface : 0 < c.surface) (hkHeat : 0 ≤ c.kHeat) :
    StrictMonoOn (heatLoss c) (Set.Ici (-273.15)) := by
  intro x hx y _ hxy
  have hconduction : (x - c.envTemp) * c.kHeat ≤ (y - c.envTemp) * c.kHeat := by
    apply mul_le_mul_of_nonneg_right _ hkHeat
    linarith
  have hkelvin : fourth (kelvin x) < fourth (kelvin y) := by
    apply fourth_lt_fourth (BodyConfig.kelvin_nonneg hx)
    unfold kelvin
    linarith
  have hradiation : (fourth (kelvin x) - fourth (kelvin c.envTemp)) * stefanBoltzmann <
      (fourth (kelvin y) - fourth (kelvin c.envTemp)) * stefanBoltzmann := by
    apply mul_lt_mul_of_pos_right _ BodyConfig.stefanBoltzmann_pos
    linarith
  unfold heatLoss
  apply mul_lt_mul_of_pos_left _ hsurface
  linarith

theorem sign_heatLoss (hloss : StrictMonoOn (heatLoss c) (Set.Ici (-273.15)))
    (henv : -273.15 ≤ c.envTemp) (htemp : -273.15 ≤ temp) :
    SignType.sign (heatLoss c temp) = SignType.sign (temp - c.envTemp) := by
  have hzero := heatLoss_envTemp c
  rcases lt_trichotomy temp c.envTemp with hlt | heq | hgt
  · have hneg : heatLoss c temp < 0 := hzero ▸ hloss htemp henv hlt
    rw [sign_neg hneg, sign_neg (sub_neg.mpr hlt)]
  · rw [heq, hzero, sub_self]
  · have hpos : 0 < heatLoss c temp := hzero ▸ hloss henv htemp hgt
    rw [sign_pos hpos, sign_pos (sub_pos.mpr hgt)]

end Body

namespace Body

variable {b d e : Body ℝ} {now later : ℝ}

/-- In binary64 a body without any capacity has no temperature after a tick. -/
theorem capacity_ne_zero_of_isFinite {b d : Body Float} {now : Float} (h : b.run now = .ok d)
    (hd : d.temperature.isFinite = true)
    (hcap : (b.config.cHeat * b.config.mass).isFinite = true) :
    Number.toRat (b.config.cHeat * b.config.mass) ≠ 0 := by
  obtain ⟨control, power, hadv⟩ := advances_of_run h
  rw [hadv.temperature] at hd
  exact Number.ne_zero_of_div (Number.isFinite_of_add hd).2 hcap

/-- Two ticks in a row, with some time between them, that heat with one power and leave the body
at one temperature. What a body takes up is divided by its capacity, so exact arithmetic knows of
ticks only where there is any. -/
structure Rests (b : Body ℝ) (power temp now later : ℝ) (d e : Body ℝ) : Prop where
  first : b.run now = .ok d
  second : d.run later = .ok e
  passes : now ≠ later
  capacity : b.config.capacity ≠ 0
  heated : d.powerIn = power ∧ e.powerIn = power
  before : b.temperature = temp
  between : d.temperature = temp
  after : e.temperature = temp

theorem Rests.heatLoss_eq (h : b.Rests power temp now later d e) :
    heatLoss b.config temp = power := by
  obtain ⟨control, p, hd⟩ := advances_of_run h.first
  obtain ⟨control', q, he⟩ := advances_of_run h.second
  have hnet : d.lastPower = power - heatLoss b.config temp := by
    rw [hd.lastPower, ← hd.powerIn, h.heated.1, h.before]
  have hnext : e.lastPower = power - heatLoss b.config temp := by
    rw [he.lastPower, ← he.powerIn, h.heated.2, h.between, hd.config]
  have helapsed : d.elapsed later = later - now := by
    unfold elapsed
    rw [hd.lastTime]
  have hmoved : e.temperature = d.temperature +
      (e.lastPower + d.lastPower) * d.elapsed later / 2.0 / b.config.capacity := by
    rw [he.temperature, hd.config]
    rfl
  rw [h.after, h.between, hnet, hnext, helapsed] at hmoved
  have hnone : (power - heatLoss b.config temp + (power - heatLoss b.config temp)) *
      (later - now) / 2.0 / b.config.capacity = 0 := by
    linarith
  have htwo : (2.0 : ℝ) ≠ 0 := by norm_num
  have hpasses : later - now ≠ 0 := sub_ne_zero.mpr h.passes.symm
  have henergy := (div_eq_zero_iff.mp hnone).resolve_right h.capacity
  have hproduct := (div_eq_zero_iff.mp henergy).resolve_right htwo
  have hsum := (mul_eq_zero.mp hproduct).resolve_right hpasses
  linarith

/-- A body that gives what it loses by the proportional part of its control alone, and carries
nothing over. -/
structure Balanced (b : Body ℝ) : Prop where
  on : b.setPoint ≠ 0
  ki : b.control.ki = 0
  gives : b.control.kp * b.control.error b.temperature = heatLoss b.config b.temperature
  bounded : b.control.bounded (heatLoss b.config b.temperature) =
    heatLoss b.config b.temperature
  within : 0 ≤ heatLoss b.config b.temperature ∧
    heatLoss b.config b.temperature ≤ b.config.hPower
  lastPower : b.lastPower = 0

theorem Balanced.powerIn {control : Regulator ℝ} (h : b.Balanced)
    (hheat : b.heat now = .ok (control, power)) : power = heatLoss b.config b.temperature := by
  have hzero : (0.0 : ℝ) = 0 := by norm_num
  rcases heat_cases hheat with ⟨hoff, -⟩ | ⟨-, out, hrun, hclamp⟩
  · exact absurd ((Exact.beq_iff.mp hoff).trans hzero) h.on
  · obtain ⟨y, -, rfl, rfl⟩ := Regulator.run_cases hrun
    have hdemand : b.control.kp * b.control.error b.temperature + b.control.ki * y =
        heatLoss b.config b.temperature := by
      rw [h.ki, zero_mul, add_zero, h.gives]
    obtain ⟨hlow, hhigh⟩ := h.within
    rw [Regulator.demand, hdemand, h.bounded,
      Exact.clamp?_eq_self (hzero.trans_le hlow) hhigh] at hclamp
    exact (Option.some.inj hclamp).symm

theorem Balanced.run (h : b.Balanced) (hd : b.run now = .ok d) :
    d.Balanced ∧ d.temperature = b.temperature ∧
      d.powerIn = heatLoss b.config b.temperature := by
  obtain ⟨control, power, hadv⟩ := advances_of_run hd
  have hpower := h.powerIn hadv.heat
  have hnet : d.lastPower = 0 := by
    rw [hadv.lastPower, hpower, sub_self]
  have htemp : d.temperature = b.temperature := by
    rw [hadv.temperature, hnet, h.lastPower]
    simp
  refine ⟨?_, htemp, hadv.powerIn.trans hpower⟩
  have hcontrol : control.kp = b.control.kp ∧ control.ki = b.control.ki ∧
      control.setPoint = b.control.setPoint ∧ ∀ x, control.bounded x = b.control.bounded x := by
    rcases heat_cases hadv.heat with ⟨-, rfl, -⟩ | ⟨-, out, hrun, -⟩
    · exact ⟨rfl, rfl, rfl, fun _ => rfl⟩
    · obtain ⟨y, -, rfl, -⟩ := Regulator.run_cases hrun
      exact ⟨rfl, rfl, rfl, fun _ => rfl⟩
  obtain ⟨hkp, hki, hset, hbounded⟩ := hcontrol
  rw [← hadv.control] at hkp hki hset hbounded
  constructor
  · rw [hadv.setPoint]
    exact h.on
  · rw [hki]
    exact h.ki
  · unfold Regulator.error
    rw [hkp, hset, htemp, hadv.config]
    exact h.gives
  · rw [hbounded, hadv.config, htemp]
    exact h.bounded
  · rw [hadv.config, htemp]
    exact h.within
  · exact hnet

theorem Balanced.exists_rests (h : b.Balanced) (hcap : b.config.capacity ≠ 0) :
    ∃ d e now later, b.Rests (heatLoss b.config b.temperature) b.temperature now later d e := by
  have hhot : 0 ≤ b.config.hPower := h.within.1.trans h.within.2
  obtain ⟨d, hd⟩ := run_ok hhot 0
  obtain ⟨hbalanced, htemp, hpower⟩ := h.run hd
  have hconfig : d.config = b.config := config_of_run hd
  obtain ⟨e, he⟩ := run_ok (b := d) (by rwa [hconfig]) 1
  obtain ⟨-, htemp', hpower'⟩ := hbalanced.run he
  rw [hconfig, htemp] at hpower'
  exact ⟨d, e, 0, 1, hd, he, zero_ne_one, hcap, ⟨hpower, hpower'⟩, rfl, htemp, htemp'.trans htemp⟩

noncomputable def held (c : BodyConfig ℝ) (temp : ℝ) : Body ℝ where
  config := c
  control := Regulator.ofGains (heatLoss c temp / (|temp| + 1 - temp)) 0 (|temp| + 1)
  temperature := temp
  setPoint := |temp| + 1
  power := 0
  powerIn := 0
  powerOut := 0
  lastPower := 0
  lastTime := none
  reached := false
  settleTimer := 0

theorem balanced_held (hlow : 0 ≤ heatLoss c temp) (hhigh : heatLoss c temp ≤ c.hPower) :
    (held c temp).Balanced := by
  have habove : 0 < |temp| + 1 - temp := by
    have := le_abs_self temp
    linarith
  constructor
  · exact (add_pos_of_nonneg_of_pos (abs_nonneg temp) one_pos).ne'
  · rfl
  · exact div_mul_cancel₀ _ habove.ne'
  · rfl
  · exact ⟨hlow, hhigh⟩
  · rfl

end Body

namespace BodyConfig

open Body (heatLoss)

/-- A body of these parameters that is heated with a constant power stays at a temperature from tick
to tick. -/
def Keeps (c : BodyConfig ℝ) (power temp : ℝ) : Prop :=
  ∃ (b d e : Body ℝ) (now later : ℝ), b.config = c ∧ b.Rests power temp now later d e

theorem Keeps.heatLoss_eq (h : c.Keeps power temp) : heatLoss c temp = power := by
  obtain ⟨b, d, e, now, later, rfl, hrests⟩ := h
  exact hrests.heatLoss_eq

theorem keeps_of_heatLoss (hcap : c.capacity ≠ 0) (hlow : 0 ≤ heatLoss c temp)
    (hhigh : heatLoss c temp ≤ c.hPower) : c.Keeps (heatLoss c temp) temp := by
  obtain ⟨d, e, now, later, h⟩ := (Body.balanced_held hlow hhigh).exists_rests hcap
  exact ⟨_, d, e, now, later, rfl, h⟩

theorem continuous_heatLoss (c : BodyConfig ℝ) : Continuous (heatLoss c) := by
  unfold Body.heatLoss fourth kelvin
  fun_prop

/-- Radiation alone makes up for any power at some temperature. -/
theorem exists_le_heatLoss (hsurface : 0 < c.surface) (hkHeat : 0 ≤ c.kHeat)
    (henv : -273.15 ≤ c.envTemp) (hpower : 0 ≤ power) :
    ∃ hot, c.envTemp ≤ hot ∧ power ≤ heatLoss c hot := by
  have hkelvin := kelvin_nonneg henv
  have hsigma := stefanBoltzmann_pos
  have hunit : 0 < c.surface * stefanBoltzmann := mul_pos hsurface hsigma
  have hratio : 0 ≤ power / (c.surface * stefanBoltzmann) := div_nonneg hpower hunit.le
  obtain ⟨q, hq1, hq⟩ : ∃ q : ℝ, 1 ≤ q ∧ power ≤ c.surface * stefanBoltzmann * q := by
    refine ⟨power / (c.surface * stefanBoltzmann) + 1, ?_, ?_⟩
    · linarith
    · rw [mul_add, mul_div_cancel₀ _ hunit.ne']
      linarith
  have hq0 : 0 ≤ q := zero_le_one.trans hq1
  refine ⟨c.envTemp + q, by linarith, hq.trans ?_⟩
  have hsum : kelvin (c.envTemp + q) = kelvin c.envTemp + q := by
    unfold kelvin
    ring
  have hfourth : q ≤ fourth (kelvin (c.envTemp + q)) - fourth (kelvin c.envTemp) := by
    rw [hsum]
    exact le_fourth_add_sub hkelvin hq1
  unfold Body.heatLoss
  have hconduction : 0 ≤ (c.envTemp + q - c.envTemp) * c.kHeat := by
    rw [add_sub_cancel_left]
    exact mul_nonneg hq0 hkHeat
  rw [mul_assoc]
  apply mul_le_mul_of_nonneg_left _ hsurface.le
  have := mul_le_mul_of_nonneg_right hfourth hsigma.le
  linarith

theorem exists_keeps (hsurface : 0 < c.surface) (hkHeat : 0 ≤ c.kHeat)
    (henv : -273.15 ≤ c.envTemp) (hcap : c.capacity ≠ 0) (hlow : 0 ≤ power)
    (hhigh : power ≤ c.hPower) : ∃ temp, c.envTemp ≤ temp ∧ c.Keeps power temp := by
  obtain ⟨hot, hwarm, hhot⟩ := exists_le_heatLoss hsurface hkHeat henv hlow
  have hcold : heatLoss c c.envTemp ≤ power := (Body.heatLoss_envTemp c).trans_le hlow
  obtain ⟨temp, ⟨htemp, -⟩, rfl⟩ := intermediate_value_Icc hwarm
    (continuous_heatLoss c).continuousOn ⟨hcold, hhot⟩
  exact ⟨temp, htemp, keeps_of_heatLoss hcap hlow hhigh⟩

/-- The loss grows with the temperature, and takes the sign of the degrees above the surroundings.
So a body stays, under a constant power, at no more than one temperature, and there is such a
temperature for every power that the heater can give. -/
theorem equilibrium_unique (hsurface : 0 < c.surface) (hkHeat : 0 ≤ c.kHeat)
    (henv : -273.15 ≤ c.envTemp) :
    StrictMonoOn (heatLoss c) (Set.Ici (-273.15)) ∧
      (∀ temp, -273.15 ≤ temp →
        SignType.sign (heatLoss c temp) = SignType.sign (temp - c.envTemp)) ∧
      (∀ power x y, -273.15 ≤ x → -273.15 ≤ y → c.Keeps power x → c.Keeps power y → x = y) ∧
      ∀ power, c.capacity ≠ 0 → 0 ≤ power → power ≤ c.hPower →
        ∃ temp, c.envTemp ≤ temp ∧ c.Keeps power temp := by
  have hloss := Body.strictMonoOn_heatLoss hsurface hkHeat
  refine ⟨hloss, fun temp htemp => Body.sign_heatLoss hloss henv htemp, ?_, ?_⟩
  · intro power x y hx hy hkx hky
    apply hloss.injOn hx hy
    rw [hkx.heatLoss_eq, hky.heatLoss_eq]
  · intro power hcap hlow hhigh
    exact exists_keeps hsurface hkHeat henv hcap hlow hhigh

noncomputable def nozzle : BodyConfig ℝ :=
  (Body.ofConfig MachineConfig.stock.envTemp (HeaterConfig.stock .nozzle)).config

/-- The stock nozzle at 200 degrees. -/
theorem equilibrium_unique_nozzle :
    (0 < nozzle.surface ∧ 0 ≤ nozzle.kHeat ∧ -273.15 ≤ nozzle.envTemp) ∧
      nozzle.Keeps (heatLoss nozzle 200) 200 ∧
      ∀ temp, -273.15 ≤ temp → nozzle.Keeps (heatLoss nozzle 200) temp → temp = 200 := by
  have hsurface : (0 : ℝ) < 0.001 := by norm_num
  have hkHeat : (0 : ℝ) ≤ 25.0 := by norm_num
  have henv : (-273.15 : ℝ) ≤ 25.0 := by norm_num
  have hcap : (420.0 : ℝ) * 0.02 ≠ 0 := by norm_num
  have hloss : heatLoss nozzle 200 = 0.001 * ((200 - 25.0) * 25.0 +
      (fourth (kelvin 200) - fourth (kelvin 25.0)) * stefanBoltzmann) := rfl
  have hlow : 0 ≤ heatLoss nozzle 200 := by
    rw [hloss]
    unfold fourth kelvin stefanBoltzmann
    norm_num
  have hhigh : heatLoss nozzle 200 ≤ 120.0 := by
    rw [hloss]
    unfold fourth kelvin stefanBoltzmann
    norm_num
  have hkeeps : nozzle.Keeps (heatLoss nozzle 200) 200 := keeps_of_heatLoss hcap hlow hhigh
  obtain ⟨-, -, hunique, -⟩ := equilibrium_unique (c := nozzle) hsurface hkHeat henv
  refine ⟨⟨hsurface, hkHeat, henv⟩, hkeeps, fun temp htemp h => ?_⟩
  exact hunique _ temp 200 htemp (by norm_num) h hkeeps

end BodyConfig

end Gantry
