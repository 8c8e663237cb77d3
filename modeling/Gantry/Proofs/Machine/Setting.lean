import Gantry.Settings.Document

/-!
# Settings and aims

The aims of a machine are the targets and offsets of its axes and the set points of its heaters.
A tick and an accepted setting leave all of them alone, although a change of limits plans moves
anew. Neither touches the flow of a file or the default speed.
-/

namespace Gantry

variable {α : Type} [Scalar α]

inductive Setting (α : Type) where
  | axisLimits (i : AxisId) (limits : Limits α)
  /-- Limits of several axes at once, as a blob gives them. -/
  | limits (updates : List (AxisId × Limits α))
  | document (doc : SettingsDocument α)
  | feedOverride (value : α)
  | gains (h : HeaterId) (kp ki : α) (windUp : Option α)
  | settle (h : HeaterId) (window time : α)

def Setting.apply (m : Machine α) : Setting α → Except (Rejection α) (Machine α)
  | .axisLimits i l => m.setAxisLimits i l
  | .limits updates => m.applyLimits updates
  | .document doc => m.applySettings doc
  | .feedOverride value => m.setFeedOverride value
  | .gains h kp ki windUp => m.setHeaterGains h kp ki windUp
  | .settle h window time => m.setHeaterSettle h window time

namespace Plan

theorem target_of_toward? {limits : Limits α} {start target : α} {requested : Option α}
    {p : Plan α} (h : toward? limits start target requested = some p) : p.target = target := by
  unfold toward? at h
  simp only at h
  split at h
  · cases h
  · split at h
    · cases h
      rfl
    · cases h

end Plan

namespace Axis

theorem planTo_target (a : Axis α) (target : α) (requested : Option α) :
    (a.planTo target requested).target = a.target ∨
      (a.planTo target requested).target = target := by
  unfold planTo
  split
  · rename_i p hp
    exact Or.inr (Plan.target_of_toward? hp)
  · exact Or.inl rfl

@[simp] theorem planTo_offset (a : Axis α) (target : α) (requested : Option α) :
    (a.planTo target requested).offset = a.offset := by
  unfold planTo
  split <;> rfl

@[simp] theorem setLimits_target (a : Axis α) (l : Limits α) :
    (a.setLimits l).target = a.target := by
  rcases planTo_target
    { a with config := { a.config with maxSpeed := l.maxSpeed, maxAcc := l.maxAcc } }
    a.target a.plan.requested with h | h
  · exact h
  · exact h

@[simp] theorem setLimits_offset (a : Axis α) (l : Limits α) :
    (a.setLimits l).offset = a.offset := by
  simp [setLimits, replan]

@[simp] theorem planTo_position (a : Axis α) (target : α) (requested : Option α) :
    (a.planTo target requested).position = a.position := by
  unfold planTo
  split <;> rfl

@[simp] theorem setLimits_position (a : Axis α) (l : Limits α) :
    (a.setLimits l).position = a.position :=
  planTo_position _ _ _

theorem run_plan (a : Axis α) (time : α) : (a.run time).plan = a.plan := by
  unfold run follow
  simp only
  split
  · split <;> rfl
  · rfl

@[simp] theorem run_target (a : Axis α) (time : α) : (a.run time).target = a.target := by
  simp only [target, run_plan]

@[simp] theorem run_offset (a : Axis α) (time : α) : (a.run time).offset = a.offset := by
  unfold run follow
  simp only
  split
  · split <;> rfl
  · rfl

end Axis

theorem Body.setPoint_of_run {b c : Body α} {time : α} (h : b.run time = .ok c) :
    c.setPoint = b.setPoint := by
  unfold run at h
  split at h
  · cases h
  · cases h
    unfold settle
    split <;> rfl

namespace Machine

/-- The targets and offsets of all axes and the set points of all heaters are the same. -/
structure SameAims (m n : Machine α) : Prop where
  target : ∀ i, (n.axis i).target = (m.axis i).target
  offset : ∀ i, (n.axis i).offset = (m.axis i).offset
  setPoint : ∀ h, (n.heater h).setPoint = (m.heater h).setPoint

/-- What a tick or a setting may not touch. -/
structure SameCourse (m n : Machine α) : Prop extends SameAims m n where
  flow : n.flow = m.flow
  defaultSpeed : n.defaultSpeed = m.defaultSpeed
  homed : n.homed = m.homed

omit [Scalar α] in
theorem SameAims.refl (m : Machine α) : SameAims m m :=
  ⟨fun _ => rfl, fun _ => rfl, fun _ => rfl⟩

omit [Scalar α] in
theorem SameAims.trans {m n o : Machine α} (h : SameAims m n) (k : SameAims n o) :
    SameAims m o :=
  ⟨fun i => (k.target i).trans (h.target i), fun i => (k.offset i).trans (h.offset i),
    fun j => (k.setPoint j).trans (h.setPoint j)⟩

omit [Scalar α] in
theorem SameCourse.refl (m : Machine α) : SameCourse m m :=
  ⟨SameAims.refl m, rfl, rfl, rfl⟩

omit [Scalar α] in
theorem SameCourse.trans {m n o : Machine α} (h : SameCourse m n) (k : SameCourse n o) :
    SameCourse m o :=
  ⟨h.toSameAims.trans k.toSameAims, k.flow.trans h.flow, k.defaultSpeed.trans h.defaultSpeed,
    k.homed.trans h.homed⟩

theorem sameCourse_of_run {m n : Machine α} {time : α} (h : m.run time = .ok n) :
    SameCourse m n := by
  unfold run at h
  split at h
  · rename_i nozzle plate hn hp
    cases h
    refine ⟨⟨fun i => ?_, fun i => ?_, fun j => ?_⟩, rfl, rfl, rfl⟩
    · simp [axis]
    · simp [axis]
    · cases j with
      | nozzle => exact Body.setPoint_of_run hn
      | plate => exact Body.setPoint_of_run hp
  · cases h
  · cases h

theorem sameCourse_withLimits (m : Machine α) (i : AxisId) (l : Limits α) :
    SameCourse m (m.withLimits i l) := by
  refine ⟨⟨fun j => ?_, fun j => ?_, fun _ => rfl⟩, rfl, rfl, rfl⟩
  · by_cases hj : j = i
    · subst hj
      simp [axis, withLimits, setAxis]
    · simp [axis, withLimits, setAxis, PerAxis.get_set_of_ne _ _ hj]
  · by_cases hj : j = i
    · subst hj
      simp [axis, withLimits, setAxis]
    · simp [axis, withLimits, setAxis, PerAxis.get_set_of_ne _ _ hj]

theorem sameCourse_foldl_withLimits (m : Machine α) (updates : List (AxisId × Limits α)) :
    SameCourse m (updates.foldl (fun m u => m.withLimits u.1 u.2) m) := by
  induction updates generalizing m with
  | nil => exact SameCourse.refl m
  | cons u us ih => exact (sameCourse_withLimits m u.1 u.2).trans (ih _)

omit [Scalar α] in
theorem sameCourse_setHeater (m : Machine α) (h : HeaterId) {b : Body α}
    (hb : b.setPoint = (m.heater h).setPoint) : SameCourse m (m.setHeater h b) := by
  refine ⟨⟨fun _ => rfl, fun _ => rfl, fun k => ?_⟩, rfl, rfl, rfl⟩
  by_cases hk : k = h
  · subst hk
    simpa [heater, setHeater] using hb
  · simp [heater, setHeater, PerHeater.get_set_of_ne _ _ hk]

end Machine

theorem ok_of_bind {ε β γ : Type} {x : Except ε β} {f : β → Except ε γ} {c : γ}
    (h : (x >>= f) = .ok c) : ∃ b, x = .ok b ∧ f b = .ok c := by
  cases x with
  | error e => cases h
  | ok b => exact ⟨b, rfl, h⟩

theorem forM_ok {ε β : Type} {f : β → Except ε Unit} {l : List β} (h : l.forM f = .ok ()) :
    ∀ x ∈ l, f x = .ok () := by
  induction l with
  | nil => simp
  | cons y l ih =>
    obtain ⟨⟨⟩, hy, hl⟩ := ok_of_bind h
    intro x hx
    rcases List.mem_cons.mp hx with rfl | hx
    · exact hy
    · exact ih hl x hx

namespace Setting

open Machine

theorem sameCourse_of_apply {m n : Machine α} {x : Setting α} (h : x.apply m = .ok n) :
    SameCourse m n := by
  cases x with
  | axisLimits i l =>
    simp only [Setting.apply, setAxisLimits] at h
    obtain ⟨-, -, h⟩ := ok_of_bind h
    cases h
    exact sameCourse_withLimits m i l
  | limits updates =>
    simp only [Setting.apply, applyLimits] at h
    obtain ⟨-, -, h⟩ := ok_of_bind h
    cases h
    exact sameCourse_foldl_withLimits m updates
  | document doc =>
    simp only [Setting.apply, applySettings, applyLimits] at h
    obtain ⟨-, -, h⟩ := ok_of_bind h
    cases h
    exact sameCourse_foldl_withLimits m (m.limitUpdates doc)
  | feedOverride value =>
    simp only [Setting.apply, setFeedOverride] at h
    split at h
    · cases h
      exact ⟨⟨fun _ => rfl, fun _ => rfl, fun _ => rfl⟩, rfl, rfl, rfl⟩
    · cases h
  | gains i kp ki windUp =>
    simp only [Setting.apply, setHeaterGains] at h
    obtain ⟨-, -, h⟩ := ok_of_bind h
    obtain ⟨-, -, h⟩ := ok_of_bind h
    cases windUp with
    | some bound =>
      obtain ⟨-, -, h⟩ := ok_of_bind h
      cases h
      exact sameCourse_setHeater m i rfl
    | none =>
      cases h
      exact sameCourse_setHeater m i rfl
  | settle i window time =>
    simp only [Setting.apply, setHeaterSettle] at h
    obtain ⟨-, -, h⟩ := ok_of_bind h
    obtain ⟨-, -, h⟩ := ok_of_bind h
    cases h
    exact sameCourse_setHeater m i rfl

end Setting

end Gantry
