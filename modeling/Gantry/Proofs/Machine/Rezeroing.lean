import Gantry.Proofs.Machine.Trace
import Gantry.Proofs.Settings.InPlace

/-!
# Re-zeroing

An offset is what virtual coordinates differ by, and no more. Planning a target anew, following a
plan and the forces reported with it read the axis in physical coordinates alone, so that a run
shows the same motion with the offsets set, moved or cleared at any moment as it does without.

A move to a virtual target is another matter: where it leads depends on the offset by which it was
asked for.
-/

namespace Gantry

variable {α : Type}

structure PhysicalAxis (α : Type) where
  config : AxisConfig α
  /-- Position, speed and acceleration. -/
  motion : Kinematics α
  /-- The target, and when which phase ends. -/
  plan : Plan α
  startTime : Option α
  phase : Phase
  thrust : α
  power : α

namespace Axis

def withOffset (a : Axis α) (offset : α) : Axis α :=
  { a with offset := offset }

variable [Scalar α]

/-- The axis without its offset, at a simulation time. -/
def physical (a : Axis α) (time : α) : PhysicalAxis α where
  config := a.config
  motion := a.motion
  plan := a.plan
  startTime := a.startTime
  phase := a.phase time
  thrust := a.thrust
  power := a.power

variable (a : Axis α) (offset : α)

theorem physical_withOffset (time : α) :
    (a.withOffset offset).physical time = a.physical time := rfl

theorem planTo_withOffset (target : α) (requested : Option α) :
    (a.withOffset offset).planTo target requested =
      (a.planTo target requested).withOffset offset := by
  have hplan : Plan.toward? (a.withOffset offset).limits (a.withOffset offset).position target
      requested = Plan.toward? a.limits a.position target requested := rfl
  unfold planTo
  rw [hplan]
  cases Plan.toward? a.limits a.position target requested <;> rfl

theorem replan_withOffset : (a.withOffset offset).replan = a.replan.withOffset offset :=
  a.planTo_withOffset offset a.target a.plan.requested

theorem setLimits_withOffset (l : Limits α) :
    (a.withOffset offset).setLimits l = (a.setLimits l).withOffset offset :=
  replan_withOffset
    { a with config := { a.config with maxSpeed := l.maxSpeed, maxAcc := l.maxAcc } } offset

theorem follow_withOffset (time : α) :
    (a.withOffset offset).follow time = (a.follow time).withOffset offset := by
  have hphase : (a.withOffset offset).plan.phaseAt
      (time - (a.withOffset offset).startTime.getD time) =
      a.plan.phaseAt (time - a.startTime.getD time) := rfl
  unfold follow
  dsimp only
  rw [hphase]
  split <;> rfl

theorem run_withOffset (time : α) :
    (a.withOffset offset).run time = (a.run time).withOffset offset := by
  have hmoving : (a.withOffset offset).Moving ↔ a.Moving := Iff.rfl
  unfold run
  by_cases h : a.Moving
  · rw [if_pos (hmoving.mpr h), if_pos h, follow_withOffset]
    rfl
  · rw [if_neg (mt hmoving.mp h), if_neg h]
    rfl

end Axis

namespace Machine

def withOffsets (m : Machine α) (offsets : AxisId → α) : Machine α :=
  { m with axes := PerAxis.ofFn fun i => (m.axis i).withOffset (offsets i) }

section

variable (m : Machine α) (offsets : AxisId → α)

theorem axis_withOffsets (i : AxisId) :
    (m.withOffsets offsets).axis i = (m.axis i).withOffset (offsets i) :=
  PerAxis.get_ofFn _ i

theorem withOffsets_withOffsets (other : AxisId → α) :
    (m.withOffsets offsets).withOffsets other = m.withOffsets other := by
  unfold withOffsets
  congr 2
  funext i
  rw [axis, PerAxis.get_ofFn]
  rfl

theorem setAxis_withOffsets (i : AxisId) (a : Axis α) :
    (m.withOffsets offsets).setAxis i (a.withOffset (offsets i)) =
      (m.setAxis i a).withOffsets offsets := by
  have haxes : (m.withOffsets offsets).axes.set i (a.withOffset (offsets i)) =
      ((m.setAxis i a).withOffsets offsets).axes := by
    apply PerAxis.get_inj
    intro j
    by_cases hj : j = i
    · subst hj
      simp [withOffsets, setAxis, axis]
    · simp [withOffsets, setAxis, axis, PerAxis.get_set_of_ne _ _ hj]
  exact congrArg (fun axes => { m with axes := axes }) haxes

end

variable [Scalar α] (m : Machine α) (offsets : AxisId → α)

theorem withLimits_withOffsets (i : AxisId) (l : Limits α) :
    (m.withOffsets offsets).withLimits i l = (m.withLimits i l).withOffsets offsets := by
  unfold withLimits
  rw [axis_withOffsets, Axis.setLimits_withOffset, setAxis_withOffsets]

theorem foldl_withLimits_withOffsets (updates : List (AxisId × Limits α)) :
    updates.foldl (fun m u => m.withLimits u.1 u.2) (m.withOffsets offsets) =
      (updates.foldl (fun m u => m.withLimits u.1 u.2) m).withOffsets offsets := by
  induction updates generalizing m with
  | nil => rfl
  | cons u us ih => rw [List.foldl_cons, List.foldl_cons, withLimits_withOffsets, ih]

theorem applyLimits_withOffsets (updates : List (AxisId × Limits α)) :
    (m.withOffsets offsets).applyLimits updates =
      (m.applyLimits updates).map (·.withOffsets offsets) := by
  unfold applyLimits
  rw [foldl_withLimits_withOffsets]
  cases updates.forM fun u => checkLimits u.1 u.2 <;> rfl

theorem applySettings_withOffsets (doc : SettingsDocument α) :
    (m.withOffsets offsets).applySettings doc =
      (m.applySettings doc).map (·.withOffsets offsets) := by
  have hupdates : (m.withOffsets offsets).limitUpdates doc = m.limitUpdates doc := by
    unfold limitUpdates
    congr 1
    funext i
    rw [axis_withOffsets]
    rfl
  unfold applySettings
  rw [hupdates]
  exact m.applyLimits_withOffsets offsets _

theorem run_withOffsets (time : α) :
    (m.withOffsets offsets).run time = (m.run time).map (·.withOffsets offsets) := by
  have haxes : (m.withOffsets offsets).axes.map (·.run time) = PerAxis.ofFn fun i =>
      ((m.axes.map fun a : Axis α => a.run time).get i).withOffset (offsets i) := by
    apply PerAxis.get_inj
    intro i
    rw [PerAxis.get_map, PerAxis.get_ofFn, PerAxis.get_map]
    change ((m.withOffsets offsets).axis i).run time = _
    rw [axis_withOffsets, Axis.run_withOffset]
    rfl
  have hheaters : (m.withOffsets offsets).heaters = m.heaters := rfl
  unfold run
  rw [hheaters]
  cases m.heaters.nozzle.run time with
  | error fault => rfl
  | ok nozzle =>
    cases m.heaters.plate.run time with
    | error fault => rfl
    | ok plate =>
      exact congrArg (fun axes => Except.ok
        { m with axes := axes, heaters := ⟨nozzle, plate⟩, time := time }) haxes

omit [Scalar α] in
theorem setHeater_withOffsets {ε : Type} (r : Except ε Unit) (h : HeaterId)
    (f : Body α → Body α) :
    (r >>= fun _ => .ok ((m.withOffsets offsets).setHeater h (f (m.heater h)))) =
      (r >>= fun _ => .ok (m.setHeater h (f (m.heater h)))).map (·.withOffsets offsets) := by
  cases r <;> rfl

end Machine

theorem Request.grant_withOffsets (r : Request) (m : Machine α) (offsets : AxisId → α) :
    r.grant? (m.withOffsets offsets) = (r.grant? m).map (·.withOffsets offsets) := by
  have hflow (f : Option Flow) :
      f.map (fun flow => { m.withOffsets offsets with flow := flow }) =
        (f.map fun flow => { m with flow := flow }).map (·.withOffsets offsets) := by
    cases f <;> rfl
  cases r with
  | pause => exact hflow m.flow.pause?
  | resume => exact hflow m.flow.resume?
  | abort => exact hflow m.flow.abort?

theorem Adjustment.apply_withOffsets (x : Adjustment) (m : Machine Float)
    (offsets : AxisId → Float) :
    x.apply (m.withOffsets offsets) = (x.apply m).map (·.withOffsets offsets) := by
  cases x with
  | axisLimits i l =>
    change ((checkLimits i l) >>= fun _ => .ok ((m.withOffsets offsets).withLimits i l)) =
      Except.map _ ((checkLimits i l) >>= fun _ => .ok (m.withLimits i l))
    rw [Machine.withLimits_withOffsets]
    cases checkLimits i l <;> rfl
  | document doc => exact m.applySettings_withOffsets offsets doc
  | text t =>
    simp only [apply, Machine.applyText]
    cases Settings.ofText? t with
    | some doc => exact m.applySettings_withOffsets offsets doc
    | none => rfl
  | blob bytes =>
    simp only [apply, Machine.applyBlob]
    cases Settings.decodeBlob? bytes with
    | some limits => exact m.applyLimits_withOffsets offsets _
    | none => rfl
  | gains h kp ki windUp =>
    have hgains := m.setHeater_withOffsets offsets
      (do checkTuning h .kp kp
          checkTuning h .ki ki
          windUp.elim (pure ()) (checkTuning h .windUp)) h
      fun b => { b with control := { b.control with kp := kp, ki := ki, windUp := windUp } }
    simp only [bind_assoc] at hgains
    cases windUp <;> exact hgains
  | settle h window time =>
    have hsettle := m.setHeater_withOffsets offsets
      (do checkTuning h .settleWindow window
          checkTuning h .settleTime time) h
      fun b => { b with config := { b.config with settleWindow := window, settleTime := time } }
    simp only [bind_assoc] at hsettle
    exact hsettle
  | feedOverride value =>
    simp only [apply, Machine.setFeedOverride]
    cases Scalar.isPositive value <;> rfl

/-- Nothing but offsets is asked for. -/
def Operation.rezeroes : Operation Float Adjustment → Bool
  | declare _ | declareAxis _ _ | release _ => true
  | _ => false

/-- What is asked for does not depend on the offset of an axis. A move to a virtual target does. -/
def Operation.IsPhysical : Operation Float Adjustment → Prop
  | move _ _ | moveAxis _ _ _ => False
  | onAxis _ f => ∀ a offset, f (a.withOffset offset) = (f a).withOffset offset
  | _ => True

namespace Machine

open Operation

def motionTrace (m : Machine Float) (ops : List (Operation Float Adjustment)) :
    List (Except BoundsFault (PerAxis (PhysicalAxis Float))) :=
  m.trace (fun n => n.axes.map (·.physical n.time)) ops

variable {op : Operation Float Adjustment} {ops : List (Operation Float Adjustment)}

theorem time_of_rezeroes (h : op.rezeroes = true) : op.time? = none := by
  cases op with
  | tick time => cases h
  | _ => rfl

theorem after_of_rezeroes (h : op.rezeroes = true) (m : Machine Float) :
    ∃ offsets, op.after m = m.withOffsets offsets := by
  have hone (i : AxisId) (v : Float) : ∃ offsets, m.setAxis i ((m.axis i).withOffset v) =
      m.withOffsets offsets := by
    refine ⟨fun j => if j = i then v else (m.axis j).offset, ?_⟩
    have haxes : m.axes.set i ((m.axis i).withOffset v) = PerAxis.ofFn fun j =>
        (m.axis j).withOffset (if j = i then v else (m.axis j).offset) := by
      apply PerAxis.get_inj
      intro j
      by_cases hj : j = i
      · subst hj
        simp
      · simp [PerAxis.get_set_of_ne _ _ hj, hj]
        rfl
    exact congrArg (fun axes => { m with axes := axes }) haxes
  cases op with
  | declare target =>
    refine ⟨fun i => (target.get i).elim (m.axis i).offset (· - (m.axis i).position), ?_⟩
    have haxes : (m.applyOffset target).axes = PerAxis.ofFn fun i => (m.axis i).withOffset
        ((target.get i).elim (m.axis i).offset (· - (m.axis i).position)) := by
      apply PerAxis.get_inj
      intro i
      simp only [applyOffset, PerAxis.get_ofFn]
      cases target.get i <;> rfl
    exact congrArg (fun axes => { m with axes := axes }) haxes
  | declareAxis i v => exact hone i (v - (m.axis i).position)
  | release i => exact hone i 0.0
  | _ => cases h

theorem perform_withOffsets (h : op.IsPhysical) (hr : op.rezeroes = false) (m : Machine Float)
    (offsets : AxisId → Float) :
    op.perform (m.withOffsets offsets) = (op.perform m).map (·.withOffsets offsets) := by
  have haxis (i : AxisId) {f : Axis Float → Axis Float}
      (hf : ∀ a offset, f (a.withOffset offset) = (f a).withOffset offset) :
      (m.withOffsets offsets).setAxis i (f ((m.withOffsets offsets).axis i)) =
        (m.setAxis i (f (m.axis i))).withOffsets offsets := by
    rw [axis_withOffsets, hf, setAxis_withOffsets]
  cases op with
  | tick time => exact m.run_withOffsets offsets time
  | set x =>
    simp only [perform, SettingForm.apply, x.apply_withOffsets]
    cases x.apply m <;> rfl
  | onAxis i f => exact congrArg Except.ok (haxis i h)
  | replanAxis i => exact congrArg Except.ok (haxis i Axis.replan_withOffset)
  | request r =>
    simp only [perform, r.grant_withOffsets]
    cases r.grant? m <;> rfl
  | heat _ _ | onHeater _ _ | feed _ | home _ | flow _ => rfl
  | move _ _ | moveAxis _ _ _ => cases h
  | declare _ | declareAxis _ _ | release _ => cases hr

theorem physical_withOffsets (n : Machine Float) (offsets : AxisId → Float) :
    (n.withOffsets offsets).axes.map (·.physical (n.withOffsets offsets).time) =
      n.axes.map (·.physical n.time) := by
  apply PerAxis.get_inj
  intro i
  rw [PerAxis.get_map, PerAxis.get_map]
  change ((n.withOffsets offsets).axis i).physical n.time = _
  rw [axis_withOffsets, Axis.physical_withOffset]
  rfl

/-- The first machine differs from the second in its offsets at most. -/
def Rezeroed (m n : Machine Float) : Prop :=
  ∃ offsets, m = n.withOffsets offsets

theorem Rezeroed.refl (m : Machine Float) : m.Rezeroed m := by
  refine ⟨fun i => (m.axis i).offset, ?_⟩
  have haxes : m.axes = PerAxis.ofFn fun i => (m.axis i).withOffset (m.axis i).offset := by
    apply PerAxis.get_inj
    intro i
    rw [PerAxis.get_ofFn]
    rfl
  exact congrArg (fun axes => { m with axes := axes }) haxes

variable {m n : Machine Float}

theorem Rezeroed.after (h : m.Rezeroed n) (hop : op.rezeroes = true) :
    (op.after m).Rezeroed n := by
  obtain ⟨first, rfl⟩ := h
  obtain ⟨second, hsecond⟩ := after_of_rezeroes hop (n.withOffsets first)
  exact ⟨second, hsecond.trans (n.withOffsets_withOffsets first second)⟩

theorem Rezeroed.perform (h : m.Rezeroed n) (hop : op.IsPhysical) (hr : op.rezeroes = false) :
    Likewise Rezeroed (op.perform m) (op.perform n) := by
  obtain ⟨offsets, rfl⟩ := h
  rw [perform_withOffsets hop hr]
  cases op.perform n with
  | error fault => exact .error fault
  | ok o => exact .ok ⟨offsets, rfl⟩

/-- Whatever is re-zeroed in a run, and whenever, the axes move as if nothing was. -/
theorem motionTrace_filter (m : Machine Float) (ops : List (Operation Float Adjustment))
    (h : ∀ op ∈ ops, op.IsPhysical) :
    m.motionTrace (ops.filter fun op => !op.rezeroes) = m.motionTrace ops := by
  apply trace_filter (R := Rezeroed)
  · rintro m n ⟨offsets, rfl⟩
    exact physical_withOffsets n offsets
  · intro op hop hr
    rw [Bool.not_eq_false'] at hr
    exact ⟨time_of_rezeroes hr, fun m n hm => hm.after hr⟩
  · intro op hop hr m n hm
    rw [Bool.not_eq_true'] at hr
    exact hm.perform (h op hop) hr
  · exact .refl m

/-- X is re-zeroed twice on its way, is given other limits and ends up with its own parameters. -/
theorem motionTrace_filter_stock :
    let m := ((ofConfig (MachineConfig.stock : MachineConfig Float)).setTarget
      ⟨some 0.1, none, none, none⟩ none).1
    let ops : List (Operation Float Adjustment) := [.tick 0, .declare ⟨some 0, none, none, none⟩,
      .tick 0.05, .set (.axisLimits .x ⟨0.2, 3⟩), .declareAxis .x 1, .tick 0.1,
      .onAxis .x fun a => { a with config := AxisConfig.stock .x }, .replanAxis .x, .release .x,
      .tick 0.15]
    (∀ op ∈ ops, op.IsPhysical) ∧
      m.motionTrace (ops.filter fun op => !op.rezeroes) = m.motionTrace ops := by
  intro m ops
  have h : ∀ op ∈ ops, op.IsPhysical := by
    simp only [ops, List.forall_mem_cons]
    exact ⟨trivial, trivial, trivial, trivial, trivial, trivial, fun _ _ => rfl, trivial, trivial,
      trivial, List.forall_mem_nil _⟩
  exact ⟨h, motionTrace_filter m ops h⟩

end Machine

end Gantry
