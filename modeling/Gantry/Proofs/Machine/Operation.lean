import Gantry.Proofs.Heat.Step
import Gantry.Proofs.Machine.LimitChange

/-!
# Operations

What may be done to a machine, by a tick or between two ticks: the operations that a machine offers,
and access of any kind to one of its axes or heaters. What is offered does few things to an axis and
to a heater; the theorems about runs of a machine look at these alone.
-/

namespace Gantry

variable {α σ : Type}

inductive Request where
  | pause
  | resume
  | abort
deriving DecidableEq, Repr

def Request.grant? (m : Machine α) : Request → Option (Machine α)
  | .pause => m.pause?
  | .resume => m.resume?
  | .abort => m.abort?

/-- What may be done to a machine that is given settings in the form `σ`. -/
inductive Operation (α σ : Type) where
  | tick (time : α)
  | move (target : Target α) (speed : Option α)
  /-- The present positions of some axes are declared to be others. -/
  | declare (target : Target α)
  | release (i : AxisId)
  | moveAxis (i : AxisId) (v : α) (speed : Option α)
  | declareAxis (i : AxisId) (v : α)
  | replanAxis (i : AxisId)
  /-- Whatever is done to one axis alone. -/
  | onAxis (i : AxisId) (f : Axis α → Axis α)
  | heat (k : HeaterId) (celsius : α)
  /-- Whatever is done to one heater alone. -/
  | onHeater (k : HeaterId) (f : Body α → Body α)
  | set (x : σ)
  | feed (speed : α)
  | home (homed : Bool)
  | request (r : Request)
  /-- Whatever the execution of a file notes down. -/
  | flow (f : Flow → Flow)

/-- A form of settings. What is accepted in it comes down to a setting. -/
class SettingForm (α σ : Type) [Scalar α] where
  apply : Machine α → σ → Except (Rejection α) (Machine α)
  exists_setting : ∀ {m n : Machine α} {x : σ}, apply m x = .ok n →
    ∃ y : Setting α, y.apply m = .ok n

instance [Scalar α] : SettingForm α (Setting α) where
  apply := Setting.apply
  exists_setting {_ _ x} h := ⟨x, h⟩

namespace Operation

def time? : Operation α σ → Option α
  | tick time => some time
  | _ => none

def times (ops : List (Operation α σ)) : List α :=
  ops.filterMap time?

theorem times_cons (op : Operation α σ) (ops : List (Operation α σ)) :
    times (op :: ops) = op.time?.toList ++ times ops := by
  unfold times
  cases h : op.time? with
  | none => simp [h]
  | some t => simp [h]

theorem mem_times_tick (t : α) (post : List (Operation α σ)) : t ∈ times (.tick t :: post) := by
  rw [times_cons]
  exact List.mem_cons_self

theorem times_append (ops post : List (Operation α σ)) :
    times (ops ++ post) = times ops ++ times post :=
  List.filterMap_append

/-- Access of any kind to an axis or a heater is not offered by the machine. -/
def isOffered : Operation α σ → Bool
  | onAxis _ _ | onHeater _ _ => false
  | _ => true

def Writes (k : HeaterId) : Operation α σ → Prop
  | heat i _ => i = k
  | onHeater i _ => i = k
  | _ => False

variable [Scalar α] [SettingForm α σ]

/-- The machine after an operation. What is refused changes nothing. -/
def perform (m : Machine α) : Operation α σ → Except BoundsFault (Machine α)
  | tick time => m.run time
  | move target speed => .ok (m.setTarget target speed).1
  | declare target => .ok (m.applyOffset target)
  | release i => .ok (m.clearOffset i)
  | moveAxis i v speed => .ok (m.setAxis i ((m.axis i).setTarget v speed))
  | declareAxis i v => .ok (m.setAxis i ((m.axis i).setOffset v))
  | replanAxis i => .ok (m.setAxis i (m.axis i).replan)
  | onAxis i f => .ok (m.setAxis i (f (m.axis i)))
  | heat k celsius => .ok (m.setTemperature k celsius)
  | onHeater k f => .ok (m.setHeater k (f (m.heater k)))
  | set x => .ok ((SettingForm.apply m x).toOption.getD m)
  | feed speed => .ok (m.setDefaultSpeed speed)
  | home homed => .ok { m with homed := homed }
  | request r => .ok ((r.grant? m).getD m)
  | flow f => .ok (m.mapFlow f)

/-- The machine after an operation; a tick that is at fault changes nothing either. -/
def after (m : Machine α) (op : Operation α σ) : Machine α :=
  (op.perform m).toOption.getD m

end Operation

def Machine.performAll [Scalar α] [SettingForm α σ] (m : Machine α) (ops : List (Operation α σ)) :
    Machine α :=
  ops.foldl Operation.after m

/-- What may become of an axis between two ticks. -/
inductive Axis.Touch [Scalar α] (i : AxisId) : Axis α → Axis α → Prop where
  | keep (a : Axis α) : Touch i a a
  | plan (a : Axis α) (target : α) (requested : Option α) : Touch i a (a.planTo target requested)
  | offset (a : Axis α) (offset : α) : Touch i a { a with offset := offset }
  | limits (a : Axis α) (ls : List (Limits α)) (h : ∀ l ∈ ls, checkLimits i l = .ok ()) :
      Touch i a (ls.foldl setLimits a)

namespace Axis

variable [Scalar α] {a b : Axis α} {i : AxisId}

theorem foldl_setLimits_position (a : Axis α) (ls : List (Limits α)) :
    (ls.foldl setLimits a).position = a.position :=
  List.foldlRecOn (motive := fun b => b.position = a.position) ls setLimits rfl
    fun b hb l _ => (b.setLimits_position l).trans hb

theorem Touch.position_eq (h : Touch i a b) : b.position = a.position := by
  cases h with
  | keep => rfl
  | plan target requested => exact a.planTo_position target requested
  | offset => rfl
  | limits ls h => exact a.foldl_setLimits_position ls

end Axis

theorem Request.exists_mapFlow (r : Request) (m : Machine α) :
    ∃ f, (r.grant? m).getD m = m.mapFlow f := by
  have hflow (f : Option Flow) :
      ((f.map fun flow => { m with flow := flow }).getD m) = m.mapFlow fun _ => f.getD m.flow := by
    cases f <;> rfl
  cases r with
  | pause => exact ⟨_, hflow m.flow.pause?⟩
  | resume => exact ⟨_, hflow m.flow.resume?⟩
  | abort => exact ⟨_, hflow m.flow.abort?⟩

namespace Machine

variable [Scalar α] {m n : Machine α}

theorem touch_setTarget (m : Machine α) (target : Target α) (speed : Option α) (i : AxisId) :
    Axis.Touch i (m.axis i) ((m.setTarget target speed).1.axis i) := by
  rcases m.axis_setTarget target speed i with hi | ⟨v, s, -, hi⟩ <;> rw [hi]
  · exact .keep _
  · exact .plan _ _ _

theorem touch_applyOffset (m : Machine α) (target : Target α) (i : AxisId) :
    Axis.Touch i (m.axis i) ((m.applyOffset target).axis i) := by
  simp only [axis, applyOffset, PerAxis.get_ofFn]
  split
  · exact .keep _
  · exact .offset _ _

theorem touch_setAxis {a : Axis α} {j : AxisId} (h : Axis.Touch j (m.axis j) a) (i : AxisId) :
    Axis.Touch i (m.axis i) ((m.setAxis j a).axis i) := by
  by_cases hi : i = j
  · subst hi
    rw [axis, axis, setAxis, PerAxis.get_set_self]
    exact h
  · rw [axis, axis, setAxis, PerAxis.get_set_of_ne _ _ hi]
    exact .keep _

theorem touch_set {x : Setting α} (h : x.apply m = .ok n) (i : AxisId) :
    Axis.Touch i (m.axis i) (n.axis i) := by
  obtain ⟨ls, hl, hi⟩ := Setting.axis_of_apply h i
  rw [hi]
  exact .limits _ ls hl

end Machine

namespace Operation

open Body (Change Tuning)

variable [Scalar α] [SettingForm α σ] {op : Operation α σ} {m n : Machine α}

omit [Scalar α] [SettingForm α σ] in
theorem eq_tick {time : α} (h : op.time? = some time) : op = tick time := by
  cases op with
  | tick u => exact congrArg tick (Option.some.inj h)
  | _ => cases h

theorem perform_set {x : σ} (hn : (set x).perform m = .ok n) :
    (∃ y : Setting α, y.apply m = .ok n) ∨ n = m := by
  cases hx : SettingForm.apply m x with
  | ok o =>
    rw [perform, hx] at hn
    cases hn
    exact Or.inl (SettingForm.exists_setting hx)
  | error e =>
    rw [perform, hx] at hn
    cases hn
    exact Or.inr rfl

theorem perform_request {r : Request}
    (hn : (request r : Operation α σ).perform m = .ok n) : ∃ f, n = m.mapFlow f := by
  obtain ⟨f, hf⟩ := r.exists_mapFlow m
  cases hn
  exact ⟨f, hf⟩

theorem perform_after (h : op.time? = none) (m : Machine α) : op.perform m = .ok (op.after m) := by
  cases op with
  | tick time => cases h
  | _ => rfl

theorem touch_perform (hop : op.isOffered = true) (ht : op.time? = none)
    (hn : op.perform m = .ok n) (i : AxisId) : Axis.Touch i (m.axis i) (n.axis i) := by
  cases op with
  | tick time => cases ht
  | onAxis j f => cases hop
  | onHeater k f => cases hop
  | set x =>
    rcases perform_set hn with ⟨y, hy⟩ | rfl
    · exact Machine.touch_set hy i
    · exact .keep _
  | move target speed =>
    cases hn
    exact m.touch_setTarget target speed i
  | declare target =>
    cases hn
    exact m.touch_applyOffset target i
  | release j =>
    cases hn
    exact Machine.touch_setAxis (.offset _ _) i
  | moveAxis j v speed =>
    cases hn
    exact Machine.touch_setAxis (.plan _ _ _) i
  | declareAxis j v =>
    cases hn
    exact Machine.touch_setAxis (.offset _ _) i
  | replanAxis j =>
    cases hn
    exact Machine.touch_setAxis (.plan _ _ _) i
  | request r =>
    obtain ⟨f, rfl⟩ := perform_request hn
    exact .keep _
  | _ =>
    cases hn
    exact .keep _

/-- What neither runs a heater nor writes its set point tunes it at most. -/
theorem tuning_perform {k : HeaterId} (hw : ¬ op.Writes k) (ht : op.time? = none)
    (hn : op.perform m = .ok n) : Tuning (m.heater k) (n.heater k) := by
  cases op with
  | tick time => cases ht
  | set x =>
    rcases perform_set hn with ⟨y, hy⟩ | rfl
    · exact (Machine.frame_of_set hy).1 k
    · exact .refl _
  | move target speed =>
    cases hn
    rw [Machine.heater_setTarget]
    exact .refl _
  | heat i celsius =>
    cases hn
    rw [Machine.setTemperature, Machine.heater_setHeater, if_neg fun h => hw h.symm]
    exact .refl _
  | onHeater i f =>
    cases hn
    rw [Machine.heater_setHeater, if_neg fun h => hw h.symm]
    exact .refl _
  | request r =>
    obtain ⟨f, rfl⟩ := perform_request hn
    exact .refl _
  | _ =>
    cases hn
    exact .refl _

theorem change_perform (hop : op.isOffered = true) (hn : op.perform m = .ok n) (k : HeaterId) :
    Change (m.heater k) (n.heater k) := by
  by_cases hw : op.Writes k
  · cases op with
    | heat i celsius =>
      cases hn
      cases hw
      rw [Machine.heater_setTemperature_self]
      exact .heat _ celsius
    | onHeater i f => cases hop
    | _ => cases hw
  · cases ht : op.time? with
    | none => exact .tune (tuning_perform hw ht hn)
    | some time =>
      obtain rfl := eq_tick ht
      exact .run time (Machine.heater_of_run hn k)

theorem time_perform (ht : op.time? = none) (hn : op.perform m = .ok n) : n.time = m.time := by
  cases op with
  | tick time => cases ht
  | set x =>
    rcases perform_set hn with ⟨y, hy⟩ | rfl
    · exact (Machine.frame_of_set hy).2
    · rfl
  | move target speed =>
    cases hn
    exact m.time_setTarget target speed
  | request r =>
    obtain ⟨f, rfl⟩ := perform_request hn
    rfl
  | _ =>
    cases hn
    rfl

end Operation

namespace Machine

variable [Scalar α] [SettingForm α σ] {ops : List (Operation α σ)}

theorem performAll_append (m : Machine α) (ops post : List (Operation α σ)) :
    m.performAll (ops ++ post) = (m.performAll ops).performAll post :=
  List.foldl_append

theorem performAll_snoc (m : Machine α) (ops : List (Operation α σ)) (op : Operation α σ) :
    m.performAll (ops ++ [op]) = op.after (m.performAll ops) :=
  m.performAll_append ops [op]

theorem performAll_induction {P : Machine α → Prop} {m : Machine α}
    (hstep : ∀ m, ∀ op ∈ ops, P m → P (op.after m)) (h : P m) : P (m.performAll ops) :=
  List.foldlRecOn ops Operation.after h fun m hm op hop => hstep m op hop hm

end Machine

end Gantry
