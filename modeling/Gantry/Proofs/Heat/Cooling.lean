import Mathlib
import Gantry.Proofs.Heat.Coasting
import Gantry.Proofs.Machine.BlockingMove

/-!
# Cooling down

A heated body of a configured machine that is switched off, after whatever it has been through:
built at the temperature of its surroundings, given set points and gains, and ticked. What it does
from there on is known from the temperatures that it has had and from what its last tick carries
on.
-/

namespace Gantry

namespace Body

open BodyConfig

/-- A heated body of a configured machine some time after it was built, with the time of its next
tick and the temperatures that it has had. -/
inductive History (c : SimConfig ℝ) (k : HeaterId) : ℝ → List ℝ → Body ℝ → Prop where
  | built (now : ℝ) : History c k now [c.machine.envTemp]
      (Body.ofConfig c.machine.envTemp (c.machine.heaters.get k))
  | heat {now : ℝ} {temps : List ℝ} {b : Body ℝ} (celsius : ℝ) (h : History c k now temps b) :
      History c k now temps (b.setTemperature celsius)
  | tune {now : ℝ} {temps : List ℝ} {b d : Body ℝ} (h : History c k now temps b)
      (hd : Tuning b d) : History c k now temps d
  | tick {now : ℝ} {temps : List ℝ} {b d : Body ℝ} (h : History c k now temps b)
      (hd : b.run now = .ok d) :
      History c k (now + c.engine.timeStep) (d.temperature :: temps) d

/-- What becomes of a body that is switched off before a tick at `now`. -/
structure Cools (b : Body ℝ) (step now : ℝ) (temps : List ℝ) : Prop where
  /-- No tick fails, and none heats. -/
  runs : ∀ n, ∃ d, b.coast step now n = .ok d ∧ d.setPoint = 0
  /-- Brief ticks do not take it below its surroundings. -/
  stays : (∀ x ∈ temps, b.config.Brief step x) → ∀ n d, b.coast step now n = .ok d →
    (∀ m < n, ∀ e, b.coast step now m = .ok e → b.config.Brief step e.temperature) →
    b.config.envTemp ≤ d.temperature
  /-- Ticks that are brief at the highest temperature that it had, or carries on to, are brief at
  all that it still gets to. -/
  settles : -273.15 ≤ b.config.envTemp → ∀ hot, (∀ x ∈ temps, x ≤ hot) →
    b.temperature + b.carry step ≤ hot → b.config.Brief step hot →
    ∀ n d, b.coast step now n = .ok d →
      b.config.envTemp ≤ d.temperature ∧ d.temperature ≤ hot
  /-- Where even ticks at the temperature of the surroundings are not brief, a body that is any
  warmer falls below them. -/
  falls : -273.15 ≤ b.config.envTemp → ¬ b.config.Brief step b.config.envTemp →
    b.config.envTemp < b.temperature →
    ∃ n d, b.coast step now n = .ok d ∧ d.temperature < b.config.envTemp

variable {b d e : Body ℝ} {step now : ℝ}

variable {c : SimConfig ℝ} {k : HeaterId} {temps : List ℝ}

theorem timeStep_pos (hc : c.validate = .ok ()) : 0 < c.engine.timeStep := by
  obtain ⟨⟨⟩, -, hc⟩ := ok_of_bind hc
  obtain ⟨⟨⟩, hengine, -⟩ := ok_of_bind hc
  obtain ⟨⟨⟩, hstep, -⟩ := ok_of_bind hengine
  exact requirePositive_iff.mp hstep

theorem physical_ofConfig (hc : c.validate = .ok ()) (hk : 0 ≤ (c.machine.heaters.get k).kHeat) :
    (Body.ofConfig c.machine.envTemp (c.machine.heaters.get k)).config.Physical := by
  obtain ⟨⟨⟩, -, hc⟩ := ok_of_bind hc
  obtain ⟨⟨⟩, -, hmachine⟩ := ok_of_bind hc
  have hheater := forM_ok (Machine.valid_parts hmachine).2 k (by cases k <;> simp [HeaterId.all])
  simp only [HeaterConfig.validate] at hheater
  obtain ⟨⟨⟩, hmass, hheater⟩ := ok_of_bind hheater
  obtain ⟨⟨⟩, hcap, hheater⟩ := ok_of_bind hheater
  obtain ⟨⟨⟩, hpower, hheater⟩ := ok_of_bind hheater
  obtain ⟨⟨⟩, hsurface, -⟩ := ok_of_bind hheater
  exact ⟨mul_pos (requirePositive_iff.mp hcap) (requirePositive_iff.mp hmass),
    requireNonNegative_iff.mp hsurface, hk, (requirePositive_iff.mp hpower).le⟩

theorem Ticking.tune (h : b.Ticking step now) (hd : Tuning b d) : d.Ticking step now := by
  cases hd with
  | refl => exact h
  | gains => exact ⟨h.step_pos, h.physical, h.paced⟩
  | band =>
    exact ⟨h.step_pos,
      ⟨h.physical.capacity, h.physical.surface, h.physical.kHeat, h.physical.hPower⟩, h.paced⟩

namespace History

theorem ticking (hc : c.validate = .ok ()) (hk : 0 ≤ (c.machine.heaters.get k).kHeat)
    (h : History c k now temps b) : b.Ticking c.engine.timeStep now := by
  induction h with
  | built now =>
    have hzero : (0.0 : ℝ) = 0 := by norm_num
    exact ⟨timeStep_pos hc, physical_ofConfig hc hk, Or.inl ⟨hzero, sub_self _, hzero⟩⟩
  | heat celsius _ ih => exact ⟨ih.step_pos, ih.physical, ih.paced⟩
  | tune _ hd ih => exact ih.tune hd
  | tick _ hd ih => exact ih.run hd

theorem mem (h : History c k now temps b) : b.temperature ∈ temps := by
  induction h with
  | built => exact List.mem_singleton.mpr rfl
  | heat _ _ ih => exact ih
  | tune _ hd ih => cases hd <;> exact ih
  | tick => exact List.mem_cons_self

theorem envTemp (h : History c k now temps b) : b.config.envTemp = c.machine.envTemp := by
  induction h with
  | built => rfl
  | heat _ _ ih => exact ih
  | tune _ hd ih => cases hd <;> exact ih
  | tick _ hd ih => rw [config_of_run hd, ih]

/-- Brief ticks, whether they heat or not, keep a body at or above its surroundings. -/
theorem carried (hc : c.validate = .ok ()) (hk : 0 ≤ (c.machine.heaters.get k).kHeat)
    (h : History c k now temps b) (hbrief : ∀ x ∈ temps, b.config.Brief c.engine.timeStep x) :
    b.Carried c.engine.timeStep := by
  induction h with
  | built now =>
    have hzero : (0.0 : ℝ) = 0 := by norm_num
    have hexcess : (Body.ofConfig c.machine.envTemp (c.machine.heaters.get k)).excess = 0 :=
      sub_self _
    constructor
    · exact hexcess.ge
    · rw [hexcess, mul_zero]
      unfold carry Body.ofConfig
      simp [hzero]
  | heat celsius _ ih => exact ⟨(ih hbrief).excess, (ih hbrief).carry⟩
  | tune _ hd ih =>
    cases hd with
    | refl => exact ih hbrief
    | gains => exact ⟨(ih hbrief).excess, (ih hbrief).carry⟩
    | band => exact ⟨(ih hbrief).excess, (ih hbrief).carry⟩
  | tick h hd ih =>
    rw [config_of_run hd] at hbrief
    have hbefore := ih fun x hx => hbrief x (List.mem_cons_of_mem _ hx)
    exact hbefore.run (h.ticking hc hk) (hbrief _ (List.mem_cons_of_mem _ h.mem)) hd

end History

theorem cools_of_history (hc : c.validate = .ok ())
    (hk : 0 ≤ (c.machine.heaters.get k).kHeat) (h : History c k now temps b)
    (hwarm : ∀ x ∈ temps, c.machine.envTemp ≤ x) (hoff : b.setPoint = 0) :
    b.Cools c.engine.timeStep now temps := by
  have hticking := h.ticking hc hk
  constructor
  case runs =>
    intro n
    obtain ⟨d, hd⟩ := hticking.exists_coast hoff n
    exact ⟨d, hd, (hticking.follows hoff n hd).setPoint⟩
  case stays =>
    intro hbrief n d hd hlater
    have hcarried := (h.carried hc hk hbrief).coast hticking hoff n hlater hd
    rw [← (hticking.follows hoff n hd).config]
    exact hcarried.warm
  case settles =>
    intro henv hot hhot hcarry hbrief n d hd
    have hbefore : ∀ x ∈ temps, b.config.Brief c.engine.timeStep x := by
      intro x hx
      have hx' : b.config.envTemp ≤ x := h.envTemp.trans_le (hwarm x hx)
      exact (hticking.physical.lossRatio_le hticking.step_pos.le henv hx' (hhot x hx)).trans hbrief
    have hunder : b.Under c.engine.timeStep hot := ⟨hhot _ h.mem, hcarry⟩
    obtain ⟨hcarried, hafter⟩ :=
      (h.carried hc hk hbefore).settles hunder hticking hoff henv hbrief n hd
    rw [← (hticking.follows hoff n hd).config]
    exact ⟨hcarried.warm, hafter.temperature⟩
  case falls =>
    intro henv hlong hexcess
    exact hticking.falls hoff henv hlong hexcess

theorem neg_bound_le {r : Regulator ℝ} {time measured y bound : ℝ}
    (hbound : r.windUp = some bound) (hy : r.integrate time measured = .ok y) : -|bound| ≤ y := by
  unfold Regulator.integrate at hy
  rw [hbound] at hy
  simp only at hy
  split at hy
  · cases hy
    exact (Exact.clamp?_mem ‹_›).1
  · cases hy

noncomputable def stockWith (surface : ℝ) : SimConfig ℝ :=
  { SimConfig.stock with
    machine :=
      { MachineConfig.stock with
        heaters := MachineConfig.stock.heaters.set .nozzle
          { HeaterConfig.stock .nozzle with surface := surface } } }

theorem tickPeriod_stock : (EngineConfig.stock : EngineConfig ℝ).tickPeriod? = some 50000000 := by
  have hperiod : (0.05 : ℝ) / 1.0 = 0.05 := by norm_num
  have hscaled : (0.05 : ℝ) * 10 ^ 9 = (50000000 : ℕ) := by norm_num
  have hrange : ¬ ((0.05 : ℝ) < 0 ∨ (2 : ℝ) ^ 64 ≤ 0.05) := by norm_num
  have hnear : nearestEven ((50000000 : ℕ) : ℝ) = 50000000 := by
    unfold nearestEven
    rw [Nat.floor_natCast]
    norm_num
  have hnanos : Scalar.nanoseconds? ((0.05 : ℝ) / 1.0) = some 50000000 := by
    show (if _ ∨ _ then none else some _) = _
    rw [hperiod, if_neg hrange, hscaled, hnear]
  have hstock : (EngineConfig.stock : EngineConfig ℝ).timeStep /
      (EngineConfig.stock : EngineConfig ℝ).timeMult = 0.05 / 1.0 := rfl
  unfold EngineConfig.tickPeriod?
  rw [hstock, hnanos]
  rfl

theorem validate_engine_stock : (EngineConfig.stock : EngineConfig ℝ).validate = .ok () := by
  have hstep : requirePositive "engine.time_step" (0.05 : ℝ) = .ok () :=
    requirePositive_iff.mpr (by norm_num)
  have hmult : requirePositive "engine.time_mult" (1.0 : ℝ) = .ok () :=
    requirePositive_iff.mpr (by norm_num)
  unfold EngineConfig.validate
  rw [tickPeriod_stock]
  simp only [EngineConfig.stock, hstep, hmult]
  rfl

theorem validate_stockWith {surface : ℝ} (h : 0 ≤ surface) :
    (stockWith surface).validate = .ok () := by
  have hshared : SharedConfig.stock.validate = (.ok () : Except (Violation ℝ) Unit) := rfl
  have hpos (name : String) {x : ℝ} (h : 0 < x) : requirePositive name x = .ok () :=
    requirePositive_iff.mpr h
  have hnonneg (name : String) {x : ℝ} (h : 0 ≤ x) : requireNonNegative name x = .ok () :=
    requireNonNegative_iff.mpr h
  have hsurface (name : String) : requireNonNegative name surface = .ok () := hnonneg name h
  have hnozzle : ({ HeaterConfig.stock .nozzle with surface := surface } : HeaterConfig ℝ).validate
      .nozzle = .ok () := by
    simp (disch := norm_num) only [HeaterConfig.validate, HeaterConfig.stock, hpos, hnonneg,
      hsurface]
    rfl
  have hheaters : (HeaterId.all.forM fun k =>
      ((stockWith surface).machine.heaters.get k).validate k) = .ok () := by
    obtain ⟨⟨⟩, -, hplate⟩ := ok_of_bind (Machine.valid_parts Machine.validate_stock).2
    have hparts : (HeaterId.all.forM fun k =>
        ((stockWith surface).machine.heaters.get k).validate k) =
        ({ HeaterConfig.stock .nozzle with surface := surface } : HeaterConfig ℝ).validate
          .nozzle >>= fun _ => [HeaterId.plate].forM fun k =>
            ((MachineConfig.stock : MachineConfig ℝ).heaters.get k).validate k := rfl
    rw [hparts, hnozzle]
    exact hplate
  have haxes := (Machine.valid_parts Machine.validate_stock).1
  have hfinite : Scalar.isFinite (25.0 : ℝ) = true := rfl
  have hspeed : requirePositive "machine.default_speed" (0.01 : ℝ) = .ok () :=
    hpos _ (by norm_num)
  have hmachine : (stockWith surface).machine.validate = .ok () := by
    simp only [MachineConfig.validate]
    rw [hheaters]
    simp only [stockWith, SimConfig.stock, MachineConfig.stock] at haxes ⊢
    rw [haxes]
    simp only [hfinite, hspeed]
    rfl
  show (do SharedConfig.stock.validate; EngineConfig.stock.validate; _) = _
  rw [hshared, validate_engine_stock]
  exact hmachine

noncomputable def switchedOn (surface : ℝ) : Body ℝ :=
  (Body.ofConfig (stockWith surface).machine.envTemp
    ((stockWith surface).machine.heaters.get .nozzle)).setTemperature 200.0

theorem full_power {surface : ℝ} {control : Regulator ℝ} {power : ℝ}
    (h : (switchedOn surface).heat 0 = .ok (control, power)) : power = 120 := by
  have hon : ((switchedOn surface).setPoint == 0.0) = false := by
    have : (200.0 : ℝ) ≠ 0.0 := by norm_num
    exact decide_eq_false this
  rcases heat_cases h with ⟨hoff, -⟩ | ⟨-, out, hrun, hclamp⟩
  · rw [hon] at hoff
    cases hoff
  · obtain ⟨y, hy, rfl, rfl⟩ := Regulator.run_cases hrun
    have hy10 : -10 ≤ y := by
      have := neg_bound_le rfl hy
      norm_num at this
      exact this
    have hdemand : (120.0 : ℝ) < 20.0 * (200.0 - 25.0) + 1.0 * y := by
      norm_num
      linarith
    have hout : (switchedOn surface).control.bounded (20.0 * (200.0 - 25.0) + 1.0 * y) = 120.0 :=
      if_pos hdemand
    have hfull : Scalar.clamp? (120.0 : ℝ) 0.0 120.0 = some power :=
      (congrArg (fun x => Scalar.clamp? x (0.0 : ℝ) 120.0) hout).symm.trans hclamp
    have hmax : (120.0 : ℝ) = 120 := by norm_num
    have hmin : (0.0 : ℝ) = 0 := by norm_num
    rw [hmax, hmin] at hfull
    unfold Scalar.clamp? at hfull
    norm_num at hfull
    exact hfull.symm

theorem envTemp_stockWith (surface : ℝ) : (stockWith surface).machine.envTemp = 25 := by
  have : (25.0 : ℝ) = 25 := by norm_num
  exact this

theorem kHeat_stockWith (surface : ℝ) :
    0 ≤ ((stockWith surface).machine.heaters.get .nozzle).kHeat := by
  have : (0 : ℝ) ≤ 25.0 := by norm_num
  exact this

theorem lossRatio_stockWith (surface temp : ℝ) :
    (switchedOn surface).config.lossRatio (stockWith surface).engine.timeStep temp =
      surface * (25 + stefanBoltzmann * ((kelvin temp + kelvin 25) *
        (kelvin temp * kelvin temp + kelvin 25 * kelvin 25))) / 336 := by
  have henv : (25.0 : ℝ) = 25 := by norm_num
  have htwo : (2.0 : ℝ) = 2 := by norm_num
  have hstep : (0.05 : ℝ) = 1 / 20 := by norm_num
  have hcap : (420.0 : ℝ) * 0.02 = 42 / 5 := by norm_num
  show surface * (25.0 + stefanBoltzmann * ((kelvin temp + kelvin 25.0) *
    (kelvin temp * kelvin temp + kelvin 25.0 * kelvin 25.0))) * 0.05 / 2.0 / (420.0 * 0.02) = _
  rw [henv, htwo, hstep, hcap]
  ring

/-- One tick of the nozzle at full power, with the heater switched off after it. -/
theorem exists_history {surface : ℝ} (hs : 0 ≤ surface) :
    ∃ b now, History (stockWith surface) .nozzle now [25, 25] b ∧ b.setPoint = 0 ∧
      b.temperature = 25 ∧ b.carry (stockWith surface).engine.timeStep = 5 / 14 ∧
      b.config = (switchedOn surface).config := by
  have henv := envTemp_stockWith surface
  have hon : History (stockWith surface) .nozzle 0 [25] (switchedOn surface) :=
    henv ▸ .heat _ (.built 0)
  have hticking := hon.ticking (validate_stockWith hs) (kHeat_stockWith surface)
  obtain ⟨d, hd⟩ := run_ok hticking.physical.hPower 0
  obtain ⟨control, power, hadv⟩ := advances_of_run hd
  have hzero : (0.0 : ℝ) = 0 := by norm_num
  have htemp : d.temperature = 25 := (temperature_of_advances hadv hzero).trans henv
  have hcarry : d.carry (stockWith surface).engine.timeStep = 5 / 14 := by
    have hcold : (switchedOn surface).excess = 0 := sub_self _
    have hcap : (switchedOn surface).config.capacity = 8.4 := by
      have : (420.0 : ℝ) * 0.02 = 8.4 := by norm_num
      exact this
    have hstep : (stockWith surface).engine.timeStep = 1 / 20 := by
      have : (0.05 : ℝ) = 1 / 20 := by norm_num
      exact this
    rw [carry_of_advances hadv, full_power hadv.heat, hcold, hcap, hstep]
    norm_num
  have hafter := History.tick hon hd
  rw [htemp] at hafter
  exact ⟨d.setTemperature 0.0, _, .heat 0.0 hafter, hzero, htemp, hcarry, hadv.config⟩

/-- The stock nozzle, switched off after one tick at full power, stays between its surroundings
and one degree above them. -/
theorem cools_stock :
    let c := stockWith 0.001
    ∃ now temps b, (c.validate = .ok () ∧ 0 ≤ (c.machine.heaters.get .nozzle).kHeat ∧
      History c .nozzle now temps b ∧ (∀ x ∈ temps, c.machine.envTemp ≤ x) ∧ b.setPoint = 0) ∧
      b.Cools c.engine.timeStep now temps ∧
      ∀ n d, b.coast c.engine.timeStep now n = .ok d → 25 ≤ d.temperature ∧ d.temperature ≤ 26 := by
  intro c
  have hs : (0 : ℝ) ≤ 0.001 := by norm_num
  obtain ⟨b, now, h, hoff, htemp, hcarry, hconfig⟩ := exists_history hs
  have henv : b.config.envTemp = 25 := h.envTemp.trans (envTemp_stockWith _)
  have hwarm : ∀ x ∈ [(25 : ℝ), 25], c.machine.envTemp ≤ x := by
    rw [envTemp_stockWith]
    simp
  have hcools := cools_of_history (validate_stockWith hs) (kHeat_stockWith _) h hwarm hoff
  have hbrief : b.config.Brief c.engine.timeStep 26 := by
    have hratio := carryRatio_pos
    have heq := carryRatio_eq
    unfold BodyConfig.Brief
    rw [hconfig, lossRatio_stockWith]
    calc _ ≤ (0.16 : ℝ) := by
          unfold stefanBoltzmann kelvin
          norm_num
      _ ≤ carryRatio * carryRatio := by nlinarith
  have hcold : -273.15 ≤ b.config.envTemp := by
    rw [henv]
    norm_num
  have hcarried : b.temperature + b.carry c.engine.timeStep ≤ 26 := by
    rw [htemp, hcarry]
    norm_num
  refine ⟨now, _, b, ⟨validate_stockWith hs, kHeat_stockWith _, h, hwarm, hoff⟩, hcools, ?_⟩
  intro n d hd
  have hhot : ∀ x ∈ [(25 : ℝ), 25], x ≤ 26 := by
    simp
    norm_num
  have := hcools.settles hcold 26 hhot hcarried hbrief n d hd
  rwa [henv] at this

/-- Where half a tick loses more than all of the excess, the second tick after the heater is
switched off takes the nozzle below its surroundings. -/
theorem colder_than_surroundings :
    let c := stockWith 40
    ∃ now temps b d, c.validate = .ok () ∧ 0 ≤ (c.machine.heaters.get .nozzle).kHeat ∧
      History c .nozzle now temps b ∧ (∀ x ∈ temps, c.machine.envTemp ≤ x) ∧ b.setPoint = 0 ∧
      b.coast c.engine.timeStep now 2 = .ok d ∧ d.temperature < c.machine.envTemp := by
  intro c
  have hs : (0 : ℝ) ≤ 40 := by norm_num
  obtain ⟨b, now, h, hoff, htemp, hcarry, hconfig⟩ := exists_history hs
  have henv : b.config.envTemp = 25 := h.envTemp.trans (envTemp_stockWith _)
  have hwarm : ∀ x ∈ [(25 : ℝ), 25], c.machine.envTemp ≤ x := by
    rw [envTemp_stockWith]
    simp
  have hticking := h.ticking (validate_stockWith hs) (kHeat_stockWith _)
  obtain ⟨d, hrun, hd⟩ := hticking.exists_next hoff (d := b) (n := 0) rfl
  obtain ⟨e, hrun', he⟩ := hticking.exists_next hoff hd
  have hfirst := hticking.follows hoff 1 hd
  have hsecond := hticking.follows hoff 2 he
  have hstart : b.excess = 0 := by
    unfold excess
    rw [htemp, henv, sub_self]
  have hmoves : b.carry c.engine.timeStep ≠ 0 := by
    rw [hcarry]
    norm_num
  obtain ⟨hcarry', hexcess'⟩ := hticking.idle hoff (by simpa using hrun) (Or.inr hmoves)
  rw [hstart, mul_zero, hcarry] at hexcess'
  rw [hstart, mul_zero, neg_zero] at hcarry'
  have hwarmed : d.excess = 5 / 14 := by linarith
  have hsunk := (hfirst.ticking.idle hfirst.setPoint hrun' (Or.inl (by rw [hwarmed]; norm_num))).2
  have htemp' : d.temperature = 25 + 5 / 14 := by
    rw [hfirst.excess_eq, henv] at hwarmed
    linarith
  have hratio : 1 < d.config.lossRatio c.engine.timeStep d.temperature := by
    rw [hfirst.config, hconfig, lossRatio_stockWith, htemp']
    unfold stefanBoltzmann kelvin
    norm_num
  rw [hcarry', hwarmed, hsecond.excess_eq, henv] at hsunk
  refine ⟨now, _, b, e, validate_stockWith hs, kHeat_stockWith _, h, hwarm, hoff, he, ?_⟩
  rw [envTemp_stockWith]
  linarith

end Body

end Gantry
