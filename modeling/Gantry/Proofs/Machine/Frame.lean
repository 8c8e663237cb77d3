import Gantry.Machine.Move

/-!
# What moves and ticks leave alone

A move may change the feed and the plans of the axes that it names, and a tick advances the axes
and the heaters to its time. Everything else of the machine stays.
-/

namespace Gantry

variable {α : Type}

theorem PerAxis.get_single_of_ne {i j : AxisId} (v : α) (h : j ≠ i) :
    (PerAxis.single i v).get j = none := by
  rw [PerAxis.single, PerAxis.get_set_of_ne _ _ h, PerAxis.get_replicate]

namespace Axis

variable [Scalar α]

@[simp] theorem planTo_config (a : Axis α) (target : α) (requested : Option α) :
    (a.planTo target requested).config = a.config := by
  unfold planTo
  split <;> rfl

@[simp] theorem setTarget_config (a : Axis α) (v : α) (requested : Option α) :
    (a.setTarget v requested).config = a.config :=
  a.planTo_config _ _

@[simp] theorem replan_config (a : Axis α) : a.replan.config = a.config :=
  a.planTo_config _ _

@[simp] theorem run_config (a : Axis α) (time : α) : (a.run time).config = a.config := by
  unfold run follow
  simp only
  split
  · split <;> rfl
  · rfl

end Axis

theorem Body.config_of_run [Scalar α] {b c : Body α} {time : α}
    (h : b.run time = .ok c) : c.config = b.config := by
  unfold run at h
  split at h
  · cases h
  · cases h
    unfold settle
    split <;> rfl

namespace Machine

variable [Scalar α]

/-- A move names a feed or leaves it, and then plans or does not. -/
theorem setTarget_cases (m : Machine α) (target : Target α) (speed : Option α) :
    ∃ feed, (m.setTarget target speed).1 = m.setDefaultSpeed feed ∨
      ∃ t, (m.setTarget target speed).1 = (m.setDefaultSpeed feed).planMove target t := by
  have hfeed {n : Machine α} (hn : m.withFeed? speed = some n) :
      ∃ feed, n = m.setDefaultSpeed feed := by
    unfold withFeed? at hn
    split at hn
    · cases hn
      exact ⟨m.defaultSpeed, rfl⟩
    · split at hn
      · cases hn
        exact ⟨_, rfl⟩
      · cases hn
  unfold setTarget
  split
  · exact ⟨m.defaultSpeed, Or.inl rfl⟩
  · rename_i n hn
    obtain ⟨feed, rfl⟩ := hfeed hn
    refine ⟨feed, ?_⟩
    simp only
    split
    · exact Or.inl rfl
    · exact Or.inr ⟨_, rfl⟩

theorem heaters_setTarget (m : Machine α) (target : Target α) (speed : Option α) :
    (m.setTarget target speed).1.heaters = m.heaters := by
  obtain ⟨feed, hn | ⟨t, hn⟩⟩ := m.setTarget_cases target speed <;> rw [hn] <;> rfl

theorem heater_setTarget (m : Machine α) (target : Target α) (speed : Option α) (k : HeaterId) :
    (m.setTarget target speed).1.heater k = m.heater k :=
  congrArg (PerHeater.get · k) (m.heaters_setTarget target speed)

theorem time_setTarget (m : Machine α) (target : Target α) (speed : Option α) :
    (m.setTarget target speed).1.time = m.time := by
  obtain ⟨feed, hn | ⟨t, hn⟩⟩ := m.setTarget_cases target speed <;> rw [hn] <;> rfl

theorem feedOverride_setTarget (m : Machine α) (target : Target α) (speed : Option α) :
    (m.setTarget target speed).1.feedOverride = m.feedOverride := by
  obtain ⟨feed, hn | ⟨t, hn⟩⟩ := m.setTarget_cases target speed <;> rw [hn] <;> rfl

theorem flow_setTarget (m : Machine α) (target : Target α) (speed : Option α) :
    (m.setTarget target speed).1.flow = m.flow := by
  obtain ⟨feed, hn | ⟨t, hn⟩⟩ := m.setTarget_cases target speed <;> rw [hn] <;> rfl

theorem axis_setTarget (m : Machine α) (target : Target α) (speed : Option α) (i : AxisId) :
    (m.setTarget target speed).1.axis i = m.axis i ∨
      ∃ v s, target.get i = some v ∧
        (m.setTarget target speed).1.axis i = (m.axis i).setTarget v s := by
  obtain ⟨feed, hn | ⟨t, hn⟩⟩ := m.setTarget_cases target speed
  · rw [hn]
    exact Or.inl rfl
  · rw [hn]
    simp only [axis, planMove, PerAxis.get_ofFn]
    split
    · exact Or.inl rfl
    · rename_i v hv
      split
      · exact Or.inl rfl
      · exact Or.inr ⟨v, _, hv, rfl⟩

theorem parts_of_run {m n : Machine α} {time : α} (hn : m.run time = .ok n) :
    (∀ i, n.axis i = (m.axis i).run time) ∧ n.feedOverride = m.feedOverride ∧
      ∀ k, (n.heater k).config = (m.heater k).config := by
  unfold run at hn
  split at hn
  · rename_i nozzle plate hnozzle hplate
    cases hn
    refine ⟨fun i => by simp [axis], rfl, fun k => ?_⟩
    cases k with
    | nozzle => exact Body.config_of_run hnozzle
    | plate => exact Body.config_of_run hplate
  · cases hn
  · cases hn

variable {m n : Machine α}

theorem time_of_run {time : α} (hn : m.run time = .ok n) : n.time = time := by
  unfold run at hn
  split at hn
  · cases hn
    rfl
  · cases hn
  · cases hn

theorem heater_of_run {time : α} (hn : m.run time = .ok n) (k : HeaterId) :
    (m.heater k).run time = .ok (n.heater k) := by
  unfold run at hn
  split at hn
  · rename_i nozzle plate hnozzle hplate
    cases hn
    cases k with
    | nozzle => exact hnozzle
    | plate => exact hplate
  · cases hn
  · cases hn

theorem run_of_heaters {m : Machine α} {time : α}
    (h : ∀ k, ∃ d, (m.heater k).run time = .ok d) : ∃ n, m.run time = .ok n := by
  obtain ⟨nozzle, hn⟩ := h .nozzle
  obtain ⟨plate, hp⟩ := h .plate
  have hn' : m.heaters.nozzle.run time = .ok nozzle := hn
  have hp' : m.heaters.plate.run time = .ok plate := hp
  unfold run
  rw [hn', hp']
  exact ⟨_, rfl⟩

omit [Scalar α] in
theorem heater_setHeater (m : Machine α) (i k : HeaterId) (b : Body α) :
    (m.setHeater i b).heater k = if k = i then b else m.heater k := by
  by_cases hk : k = i
  · subst hk
    simp [heater, setHeater]
  · simp [heater, setHeater, PerHeater.get_set_of_ne _ _ hk, hk]

theorem heater_setTemperature_self (m : Machine α) (k : HeaterId) (celsius : α) :
    (m.setTemperature k celsius).heater k = (m.heater k).setTemperature celsius := by
  rw [setTemperature, heater_setHeater, if_pos rfl]

omit [Scalar α] in
/-- Another heater in the place of one changes no other. -/
theorem setHeater_induction {R : Body α → Body α → Prop} (hrefl : ∀ b, R b b) {i : HeaterId}
    {b : Body α} (hb : R (m.heater i) b) (k : HeaterId) :
    R (m.heater k) ((m.setHeater i b).heater k) := by
  rw [heater_setHeater]
  split
  · rename_i hk
    exact hk ▸ hb
  · exact hrefl _

end Machine

end Gantry
