import Gantry.Config.Validation
import Gantry.Proofs.Machine.Operation
import Gantry.Proofs.Motion.Arrival

/-!
# Reachable machines

A machine is reachable from a configuration by operations that machines offer, in any order. Where
the configuration is valid, every axis of such a machine is able to move, no tick of it fails, and
its limits would be accepted again.

Nothing here looks at where the axes are.
-/

namespace Gantry

variable {α σ : Type} [Scalar α]

/-- The machines that the operations lead to from a new one. -/
inductive Machine.Reachable (c : MachineConfig α) : Machine α → Prop where
  | start : Reachable c (Machine.ofConfig c)
  | step {m n : Machine α} (op : Operation α (Setting α)) (hop : op.isOffered = true)
      (h : Reachable c m) (hn : op.perform m = .ok n) : Reachable c n

namespace Machine.Reachable

variable {c : MachineConfig α} {m n : Machine α}

theorem run (time : α) (h : Reachable c m) (hn : m.run time = .ok n) : Reachable c n :=
  .step (.tick time) rfl h hn

theorem move (target : Target α) (speed : Option α) (h : Reachable c m) :
    Reachable c (m.setTarget target speed).1 :=
  .step (.move target speed) rfl h rfl

theorem declare (target : Target α) (h : Reachable c m) : Reachable c (m.applyOffset target) :=
  .step (.declare target) rfl h rfl

theorem release (i : AxisId) (h : Reachable c m) : Reachable c (m.clearOffset i) :=
  .step (.release i) rfl h rfl

theorem heat (k : HeaterId) (celsius : α) (h : Reachable c m) :
    Reachable c (m.setTemperature k celsius) :=
  .step (.heat k celsius) rfl h rfl

theorem set (x : Setting α) (h : Reachable c m) (hn : x.apply m = .ok n) : Reachable c n := by
  refine .step (.set x) rfl h ?_
  change Except.ok ((x.apply m).toOption.getD m) = _
  rw [hn]
  rfl

theorem feed (speed : α) (h : Reachable c m) : Reachable c (m.setDefaultSpeed speed) :=
  .step (.feed speed) rfl h rfl

theorem home (homed : Bool) (h : Reachable c m) : Reachable c { m with homed := homed } :=
  .step (.home homed) rfl h rfl

theorem flow (f : Flow → Flow) (h : Reachable c m) : Reachable c (m.mapFlow f) :=
  .step (.flow f) rfl h rfl

/-- What ticks and touches keep holds of the axes of a reachable machine. -/
theorem axis_induction {P : Axis α → Prop} {i : AxisId}
    (hstart : P (Axis.ofConfig (c.axes.get i))) (hrun : ∀ a time, P a → P (a.run time))
    (htouch : ∀ a b, Axis.Touch i a b → P a → P b) (h : Reachable c m) : P (m.axis i) := by
  induction h with
  | start =>
    rw [axis, ofConfig, PerAxis.get_ofFn]
    exact hstart
  | step op hop _ hn ih =>
    cases ht : op.time? with
    | none => exact htouch _ _ (Operation.touch_perform hop ht hn i) ih
    | some time =>
      obtain rfl := Operation.eq_tick ht
      rw [(parts_of_run hn).1]
      exact hrun _ time ih

theorem heater_induction {P : Body α → Prop} {k : HeaterId}
    (hstart : P (Body.ofConfig c.envTemp (c.heaters.get k)))
    (hchange : ∀ b d, Body.Change b d → P b → P d) (h : Reachable c m) : P (m.heater k) := by
  induction h with
  | start => simpa [heater, ofConfig] using hstart
  | step op hop _ hn ih => exact hchange _ _ (Operation.change_perform hop hn k) ih

/-- Whatever has been done to a machine, its limits would be accepted again. -/
theorem checkLimits (hc : c.validate = .ok ()) (h : Reachable c m) (i : AxisId) :
    checkLimits i (m.axis i).limits = .ok () := by
  refine h.axis_induction (P := fun a => Gantry.checkLimits i a.limits = .ok ()) ?_ ?_ ?_
  · exact AxisConfig.checkLimits_of_validate (c.axis_of_validate hc i)
  · intro a time ha
    rw [Axis.limits_of_config (Axis.run_config _ _)]
    exact ha
  · intro a b hab ha
    cases hab with
    | keep => exact ha
    | plan target requested =>
      rw [Axis.limits_of_config (Axis.planTo_config _ _ _)]
      exact ha
    | offset => exact ha
    | limits ls hls => exact checkLimits_foldl ha hls

end Machine.Reachable

/-- Every axis can move, every feed is positive once a positive one is named, and every heater has
a range of power. -/
structure Machine.Able (m : Machine ℝ) : Prop where
  axes : ∀ i, (m.axis i).Able
  feedOverride : 0 < m.feedOverride
  heaters : ∀ h, 0 ≤ (m.heater h).config.hPower

theorem Axis.Able.of_config {a b : Axis ℝ} (h : a.Able) (hc : b.config = a.config) : b.Able :=
  ⟨by rw [hc]; exact h.speed, by rw [hc]; exact h.acc⟩

theorem requirePositive_iff {name : String} {x : ℝ} :
    requirePositive name x = .ok () ↔ 0 < x := by
  unfold requirePositive
  rw [← Exact.isPositive_iff]
  constructor
  · intro h
    split at h
    · assumption
    · cases h
  · exact fun h => if_pos h

theorem requireNonNegative_iff {name : String} {x : ℝ} :
    requireNonNegative name x = .ok () ↔ 0 ≤ x := by
  unfold requireNonNegative
  rw [← Exact.isNonNegative_iff]
  constructor
  · intro h
    split at h
    · assumption
    · cases h
  · exact fun h => if_pos h

theorem limits_of_check {i : AxisId} {l : Limits ℝ} (h : checkLimits i l = .ok ()) :
    0 < l.maxSpeed ∧ 0 < l.maxAcc := by
  have hpos {field : LimitField} {x : ℝ} (h : checkLimit i field x = .ok ()) : 0 < x := by
    unfold checkLimit at h
    split at h
    · exact Exact.isPositive_iff.mp ‹_›
    · cases h
  obtain ⟨⟨⟩, hs, ha⟩ := ok_of_bind h
  exact ⟨hpos hs, hpos ha⟩

theorem Axis.Touch.able {i : AxisId} {a b : Axis ℝ} (h : Axis.Touch i a b) (ha : a.Able) :
    b.Able := by
  cases h with
  | keep => exact ha
  | plan target requested => exact ha.of_config (Axis.planTo_config _ _ _)
  | offset => exact ha.of_config rfl
  | limits ls hls =>
    refine List.foldlRecOn (motive := Axis.Able) ls Axis.setLimits ha fun b hb l hl => ?_
    obtain ⟨hs, hacc⟩ := limits_of_check (hls l hl)
    constructor
    · simpa [Axis.setLimits] using hs
    · simpa [Axis.setLimits] using hacc

theorem Body.Change.hPower_eq {b d : Body α} (h : b.Change d) :
    d.config.hPower = b.config.hPower := by
  cases h with
  | tune h => cases h <;> rfl
  | heat celsius => rfl
  | run time h => rw [Body.config_of_run h]

namespace Machine

theorem valid_parts {c : MachineConfig ℝ} (h : c.validate = .ok ()) :
    (AxisId.all.forM fun i => (c.axes.get i).validate i) = .ok () ∧
      (HeaterId.all.forM fun k => (c.heaters.get k).validate k) = .ok () := by
  have hf : Scalar.isFinite c.envTemp = true := rfl
  simp only [MachineConfig.validate, hf] at h
  obtain ⟨⟨⟩, -, h⟩ := ok_of_bind h
  obtain ⟨⟨⟩, ha, hh⟩ := ok_of_bind h
  exact ⟨ha, hh⟩

theorem able_ofConfig {c : MachineConfig ℝ} (h : c.validate = .ok ()) : (ofConfig c).Able := by
  have hz : (1.0 : ℝ) = 1 := by norm_num
  obtain ⟨haxes, hheaters⟩ := valid_parts h
  refine ⟨fun i => ?_, ?_, fun k => ?_⟩
  · have hi := forM_ok haxes i (AxisId.mem_all i)
    simp only [AxisConfig.validate] at hi
    obtain ⟨⟨⟩, hs, hi⟩ := ok_of_bind hi
    obtain ⟨⟨⟩, ha, -⟩ := ok_of_bind hi
    constructor
    · simpa [axis, ofConfig, Axis.ofConfig] using requirePositive_iff.mp hs
    · simpa [axis, ofConfig, Axis.ofConfig] using requirePositive_iff.mp ha
  · show (0 : ℝ) < 1.0
    rw [hz]
    exact one_pos
  · have hk := forM_ok hheaters k (by cases k <;> simp [HeaterId.all])
    simp only [HeaterConfig.validate] at hk
    obtain ⟨⟨⟩, -, hk⟩ := ok_of_bind hk
    obtain ⟨⟨⟩, -, hk⟩ := ok_of_bind hk
    obtain ⟨⟨⟩, hp, -⟩ := ok_of_bind hk
    have := (requirePositive_iff.mp hp).le
    simpa [heater, ofConfig, Body.ofConfig] using this

variable {m n : Machine ℝ}

theorem Able.withAxis (h : m.Able) (i : AxisId) {a : Axis ℝ} (ha : a.Able) :
    (m.setAxis i a).Able := by
  refine ⟨fun j => ?_, h.feedOverride, h.heaters⟩
  by_cases hj : j = i
  · subst hj
    simpa [axis, setAxis] using ha
  · simpa [axis, setAxis, PerAxis.get_set_of_ne _ _ hj] using h.axes j

theorem Able.withHeater (h : m.Able) (i : HeaterId) {b : Body ℝ}
    (hb : b.config.hPower = (m.heater i).config.hPower) : (m.setHeater i b).Able := by
  refine ⟨h.axes, h.feedOverride, fun j => ?_⟩
  by_cases hj : j = i
  · subst hj
    simp only [heater, setHeater, PerHeater.get_set_self]
    rw [hb]
    exact h.heaters j
  · simpa [heater, setHeater, PerHeater.get_set_of_ne _ _ hj] using h.heaters j

theorem feedOverride_of_set {x : Setting ℝ} (hn : x.apply m = .ok n) (h : 0 < m.feedOverride) :
    0 < n.feedOverride := by
  have hlimits {updates : List (AxisId × Limits ℝ)} (hn : m.applyLimits updates = .ok n) :
      n.feedOverride = m.feedOverride := by
    obtain ⟨-, -, hn⟩ := ok_of_bind hn
    cases hn
    exact List.foldlRecOn (motive := fun o : Machine ℝ => o.feedOverride = m.feedOverride) updates
      (fun m u => m.withLimits u.1 u.2) rfl fun _ ho _ _ => ho
  cases x with
  | axisLimits i l =>
    obtain ⟨-, -, hn⟩ := ok_of_bind hn
    cases hn
    exact h
  | limits updates => exact (hlimits hn).symm ▸ h
  | document doc => exact (hlimits hn).symm ▸ h
  | feedOverride value =>
    simp only [Setting.apply, setFeedOverride] at hn
    split at hn
    · cases hn
      exact Exact.isPositive_iff.mp ‹_›
    · cases hn
  | gains i kp ki windUp =>
    simp only [Setting.apply, setHeaterGains] at hn
    obtain ⟨-, -, hn⟩ := ok_of_bind hn
    obtain ⟨-, -, hn⟩ := ok_of_bind hn
    cases windUp with
    | some bound =>
      obtain ⟨-, -, hn⟩ := ok_of_bind hn
      cases hn
      exact h
    | none =>
      cases hn
      exact h
  | settle i window time =>
    obtain ⟨-, -, hn⟩ := ok_of_bind hn
    obtain ⟨-, -, hn⟩ := ok_of_bind hn
    cases hn
    exact h

theorem Able.perform [SettingForm ℝ σ] (h : m.Able) (op : Operation ℝ σ)
    (hop : op.isOffered = true) (hn : op.perform m = .ok n) : n.Able := by
  refine ⟨fun i => ?_, ?_, fun k => ?_⟩
  · cases ht : op.time? with
    | none => exact (Operation.touch_perform hop ht hn i).able (h.axes i)
    | some time =>
      obtain rfl := Operation.eq_tick ht
      rw [(parts_of_run hn).1]
      exact (h.axes i).of_config (Axis.run_config _ _)
  · cases op with
    | tick time =>
      rw [(parts_of_run hn).2.1]
      exact h.feedOverride
    | move target speed =>
      cases hn
      rw [feedOverride_setTarget]
      exact h.feedOverride
    | set x =>
      rcases Operation.perform_set hn with ⟨y, hy⟩ | rfl
      · exact feedOverride_of_set hy h.feedOverride
      · exact h.feedOverride
    | request r =>
      obtain ⟨f, rfl⟩ := Operation.perform_request hn
      exact h.feedOverride
    | _ =>
      cases hn
      exact h.feedOverride
  · rw [(Operation.change_perform hop hn k).hPower_eq]
    exact h.heaters k

theorem Able.run (h : m.Able) {time : ℝ} (hn : m.run time = .ok n) : n.Able :=
  h.perform (.tick time : Operation ℝ (Setting ℝ)) rfl hn

theorem Able.move (h : m.Able) (target : Target ℝ) (speed : Option ℝ) :
    (m.setTarget target speed).1.Able :=
  h.perform (.move target speed : Operation ℝ (Setting ℝ)) rfl rfl

theorem Reachable.able {c : MachineConfig ℝ} (hc : c.validate = .ok ()) (h : Reachable c m) :
    m.Able := by
  induction h with
  | start => exact able_ofConfig hc
  | step op hop _ hn ih => exact ih.perform op hop hn

end Machine

theorem Regulator.run_ok (r : Regulator ℝ) (time measured : ℝ) :
    ∃ p, r.run time measured = .ok p := by
  have hi : ∃ y, r.integrate time measured = .ok y := by
    unfold integrate
    cases r.windUp with
    | none => exact ⟨_, rfl⟩
    | some bound =>
      have hle : -Scalar.abs bound ≤ Scalar.abs bound := by
        rw [Exact.abs_eq]
        linarith [abs_nonneg bound]
      obtain ⟨y, hy⟩ := Exact.clamp?_isSome
        (r.integral + (r.lastError + r.error measured) * r.elapsed time / 2.0) hle
      exact ⟨y, by simp only [hy]⟩
  obtain ⟨y, hy⟩ := hi
  unfold run
  rw [hy]
  exact ⟨_, rfl⟩

theorem Body.run_ok {b : Body ℝ} (h : 0 ≤ b.config.hPower) (time : ℝ) :
    ∃ c, b.run time = .ok c := by
  have hz : (0.0 : ℝ) = 0 := by norm_num
  have hh : ∃ p, b.heat time = .ok p := by
    unfold heat
    split
    · exact ⟨_, rfl⟩
    · obtain ⟨⟨control, out⟩, hp⟩ := b.control.run_ok time b.temperature
      have hrange : (0.0 : ℝ) ≤ b.config.hPower := by
        rw [hz]
        exact h
      obtain ⟨power, hc⟩ := Exact.clamp?_isSome out hrange
      rw [hp]
      simp only [hc]
      exact ⟨_, rfl⟩
  obtain ⟨⟨control, power⟩, hp⟩ := hh
  unfold run
  rw [hp]
  exact ⟨_, rfl⟩

theorem Machine.Able.run_ok {m : Machine ℝ} (h : m.Able) (time : ℝ) :
    ∃ n, m.run time = .ok n :=
  run_of_heaters fun k => Body.run_ok (h.heaters k) time

end Gantry
