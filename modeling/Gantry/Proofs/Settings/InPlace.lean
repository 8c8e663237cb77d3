import Gantry.Proofs.Machine.Operation
import Gantry.Settings.Blob
import Gantry.Settings.Text

/-!
# Settings in place

A machine that is changed in place is changed statement by statement, and a refusal keeps what was
changed before it. Limits of several axes are checked in one pass and set in a second one, whose
statements may refuse as well. Run in this way, every call for settings or tuning does what the
program does with machines as values: it refuses with the same rejection and leaves the machine
exactly as it was, or comes to the same machine.
-/

namespace Gantry

/-- A call for other settings or tuning of a running machine. -/
inductive Adjustment where
  | axisLimits (i : AxisId) (limits : Limits Float)
  | document (doc : SettingsDocument Float)
  | text (text : String)
  | blob (bytes : List UInt8)
  | gains (h : HeaterId) (kp ki : Float) (windUp : Option Float)
  | settle (h : HeaterId) (window time : Float)
  | feedOverride (value : Float)

def Adjustment.apply (m : Machine Float) : Adjustment → Except (Rejection Float) (Machine Float)
  | axisLimits i l => m.setAxisLimits i l
  | document doc => m.applySettings doc
  | text t => m.applyText t
  | blob bytes => m.applyBlob bytes
  | gains h kp ki windUp => m.setHeaterGains h kp ki windUp
  | settle h window time => m.setHeaterSettle h window time
  | feedOverride value => m.setFeedOverride value

theorem Adjustment.exists_setting {m n : Machine Float} {x : Adjustment} (h : x.apply m = .ok n) :
    ∃ y : Setting Float, y.apply m = .ok n := by
  cases x with
  | axisLimits i l => exact ⟨.axisLimits i l, h⟩
  | document doc => exact ⟨.document doc, h⟩
  | text t =>
    simp only [apply, Machine.applyText] at h
    split at h
    · rename_i doc _
      exact ⟨.document doc, h⟩
    · cases h
  | blob bytes =>
    simp only [apply, Machine.applyBlob] at h
    split at h
    · exact ⟨.limits _, h⟩
    · cases h
  | gains k kp ki windUp => exact ⟨.gains k kp ki windUp, h⟩
  | settle k window time => exact ⟨.settle k window time, h⟩
  | feedOverride value => exact ⟨.feedOverride value, h⟩

instance : SettingForm Float Adjustment where
  apply m x := x.apply m
  exists_setting := Adjustment.exists_setting

/-- Statements that change a machine one after the other, until one of them refuses. -/
abbrev Script :=
  ExceptT (Rejection Float) (StateM (Machine Float)) Unit

namespace Script

def outcome (p : Script) (m : Machine Float) : Except (Rejection Float) Unit × Machine Float :=
  p.run.run m

def check (r : Except (Rejection Float) Unit) : Script :=
  liftExcept r

def onAxis (i : AxisId) (f : Axis Float → Axis Float) : Script :=
  modify fun m => m.setAxis i (f (m.axis i))

def onHeater (h : HeaterId) (f : Body Float → Body Float) : Script :=
  modify fun m => m.setHeater h (f (m.heater h))

def setAxisLimits (i : AxisId) (l : Limits Float) : Script := do
  check (checkLimit i .maxSpeed l.maxSpeed)
  check (checkLimit i .maxAcc l.maxAcc)
  onAxis i fun a => { a with config := { a.config with maxSpeed := l.maxSpeed } }
  onAxis i fun a => { a with config := { a.config with maxAcc := l.maxAcc } }
  onAxis i Axis.replan

def applyLimits (updates : List (AxisId × Limits Float)) : Script := do
  updates.forM fun u => check (checkLimits u.1 u.2)
  updates.forM fun u => setAxisLimits u.1 u.2

def applySettings (doc : SettingsDocument Float) : Script := do
  let m ← get
  applyLimits (m.limitUpdates doc)

def applyText (text : String) : Script :=
  match Settings.ofText? text with
  | some doc => applySettings doc
  | none => throw .malformedDocument

def applyBlob (bytes : List UInt8) : Script :=
  match Settings.decodeBlob? bytes with
  | some limits => applyLimits (AxisId.all.map fun i => (i, limits.get i))
  | none => throw (.blobLength Settings.blobLength bytes.length)

def setHeaterGains (h : HeaterId) (kp ki : Float) (windUp : Option Float) : Script := do
  check (checkTuning h .kp kp)
  check (checkTuning h .ki ki)
  match windUp with
  | some bound => check (checkTuning h .windUp bound)
  | none => pure ()
  onHeater h fun b => { b with control := { b.control with kp := kp } }
  onHeater h fun b => { b with control := { b.control with ki := ki } }
  onHeater h fun b => { b with control := { b.control with windUp := windUp } }

def setHeaterSettle (h : HeaterId) (window time : Float) : Script := do
  check (checkTuning h .settleWindow window)
  check (checkTuning h .settleTime time)
  onHeater h fun b => { b with config := { b.config with settleWindow := window } }
  onHeater h fun b => { b with config := { b.config with settleTime := time } }

def setFeedOverride (value : Float) : Script := do
  check (if Scalar.isPositive value then .ok () else .error (.feedOverride value))
  modify fun m => { m with feedOverride := value }

end Script

def Adjustment.inPlace : Adjustment → Script
  | axisLimits i l => Script.setAxisLimits i l
  | document doc => Script.applySettings doc
  | text t => Script.applyText t
  | blob bytes => Script.applyBlob bytes
  | gains h kp ki windUp => Script.setHeaterGains h kp ki windUp
  | settle h window time => Script.setHeaterSettle h window time
  | feedOverride value => Script.setFeedOverride value

namespace Script

/-- A script that refuses and leaves the machine as it was, or comes to a machine. -/
def Does (p : Script) (m : Machine Float) (r : Except (Rejection Float) (Machine Float)) : Prop :=
  p.outcome m = match r with
    | .ok n => (.ok (), n)
    | .error e => (.error e, m)

variable {p q : Script} {m n o : Machine Float} {c : Except (Rejection Float) Unit}
  {r : Except (Rejection Float) (Machine Float)}

theorem Does.eq_of_error (h : Does p m r) {e : Rejection Float}
    (ho : p.outcome m = (.error e, n)) : n = m := by
  unfold Does at h
  rw [ho] at h
  cases r with
  | ok o => cases h
  | error d =>
    cases h
    rfl

theorem Does.ok_iff (h : Does p m r) : p.outcome m = (.ok (), n) ↔ r = .ok n := by
  unfold Does at h
  rw [h]
  cases r <;> simp

theorem Does.error_iff (h : Does p m r) {e : Rejection Float} :
    (p.outcome m).1 = .error e ↔ r = .error e := by
  unfold Does at h
  rw [h]
  cases r <;> simp

theorem Does.seq (hp : Does p m (.ok n)) (hq : Does q n (.ok o)) :
    Does (p >>= fun _ => q) m (.ok o) := by
  unfold Does outcome at *
  rw [ExceptT.run_bind, StateT.run_bind, hp]
  exact hq

theorem Does.afterCheck (hq : c = .ok () → Does q m r) :
    Does (check c >>= fun _ => q) m (c >>= fun _ => r) := by
  cases c with
  | ok _ => exact hq rfl
  | error e => rfl

theorem check_bind (c d : Except (Rejection Float) Unit) :
    check (c >>= fun _ => d) = check c >>= fun _ => check d := by
  cases c <;> rfl

theorem forM_check {β : Type} (f : β → Except (Rejection Float) Unit) (l : List β) :
    (l.forM fun x => check (f x)) = check (l.forM f) := by
  induction l with
  | nil => rfl
  | cons x l ih =>
    show (check (f x) >>= fun _ => l.forM fun x => check (f x)) =
      check (f x >>= fun _ => l.forM f)
    rw [check_bind, ih]

theorem does_setAxisLimits (m : Machine Float) (i : AxisId) (l : Limits Float) :
    Does (setAxisLimits i l) m (m.setAxisLimits i l) := by
  have hsplit : m.setAxisLimits i l = checkLimit i .maxSpeed l.maxSpeed >>= fun _ =>
      checkLimit i .maxAcc l.maxAcc >>= fun _ => .ok (m.withLimits i l) := by
    rw [Machine.setAxisLimits, checkLimits]
    exact bind_assoc _ _ _
  rw [hsplit]
  refine Does.afterCheck fun _ => Does.afterCheck fun _ => ?_
  -- Three assignments to one axis come to one change of it.
  cases i <;> rfl

theorem does_forM_setAxisLimits {updates : List (AxisId × Limits Float)}
    (h : ∀ u ∈ updates, checkLimits u.1 u.2 = .ok ()) (m : Machine Float) :
    Does (updates.forM fun u => setAxisLimits u.1 u.2) m
      (.ok (updates.foldl (fun m u => m.withLimits u.1 u.2) m)) := by
  induction updates generalizing m with
  | nil => rfl
  | cons u us ih =>
    have hu : m.setAxisLimits u.1 u.2 = .ok (m.withLimits u.1 u.2) := by
      rw [Machine.setAxisLimits, h u (by simp)]
      rfl
    have hfirst := does_setAxisLimits m u.1 u.2
    rw [hu] at hfirst
    exact hfirst.seq (ih (fun v hv => h v (by simp [hv])) _)

theorem does_applyLimits (m : Machine Float) (updates : List (AxisId × Limits Float)) :
    Does (applyLimits updates) m (m.applyLimits updates) := by
  unfold applyLimits
  rw [forM_check fun u : AxisId × Limits Float => checkLimits u.1 u.2]
  -- The second pass repeats the checks of the first one, and cannot fail them.
  exact Does.afterCheck fun h => does_forM_setAxisLimits (forM_ok h) m

theorem does_applySettings (m : Machine Float) (doc : SettingsDocument Float) :
    Does (applySettings doc) m (m.applySettings doc) :=
  does_applyLimits m (m.limitUpdates doc)

theorem does_applyText (m : Machine Float) (text : String) :
    Does (applyText text) m (m.applyText text) := by
  unfold applyText Machine.applyText
  cases Settings.ofText? text with
  | some doc => exact does_applySettings m doc
  | none => rfl

theorem does_applyBlob (m : Machine Float) (bytes : List UInt8) :
    Does (applyBlob bytes) m (m.applyBlob bytes) := by
  unfold applyBlob Machine.applyBlob
  cases Settings.decodeBlob? bytes with
  | some limits => exact does_applyLimits m _
  | none => rfl

theorem does_setHeaterGains (m : Machine Float) (h : HeaterId) (kp ki : Float)
    (windUp : Option Float) :
    Does (setHeaterGains h kp ki windUp) m (m.setHeaterGains h kp ki windUp) := by
  refine Does.afterCheck fun _ => Does.afterCheck fun _ => ?_
  cases windUp with
  | some bound =>
    refine Does.afterCheck fun _ => ?_
    cases h <;> rfl
  | none => cases h <;> rfl

theorem does_setHeaterSettle (m : Machine Float) (h : HeaterId) (window time : Float) :
    Does (setHeaterSettle h window time) m (m.setHeaterSettle h window time) := by
  refine Does.afterCheck fun _ => Does.afterCheck fun _ => ?_
  cases h <;> rfl

theorem does_setFeedOverride (m : Machine Float) (value : Float) :
    Does (setFeedOverride value) m (m.setFeedOverride value) := by
  unfold setFeedOverride Machine.setFeedOverride
  split <;> rfl

/-- Every call in place does what it does on values. -/
theorem does_inPlace (m : Machine Float) (x : Adjustment) : Does x.inPlace m (x.apply m) := by
  cases x with
  | axisLimits i l => exact does_setAxisLimits m i l
  | document doc => exact does_applySettings m doc
  | text t => exact does_applyText m t
  | blob bytes => exact does_applyBlob m bytes
  | gains h kp ki windUp => exact does_setHeaterGains m h kp ki windUp
  | settle h window time => exact does_setHeaterSettle m h window time
  | feedOverride value => exact does_setFeedOverride m value

end Script

end Gantry
