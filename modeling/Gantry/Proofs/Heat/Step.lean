import Gantry.Proofs.Machine.Frame
import Gantry.Proofs.Machine.Setting

/-!
# One tick of a heater

What a tick makes of a heated body and of its controller, and what a setting may do to it.
-/

namespace Gantry

variable {α : Type} [Scalar α]

namespace Regulator

/-- The output before it is bounded, by the error and the integral of the last call. -/
def demand (r : Regulator α) : α :=
  r.kp * r.lastError + r.ki * r.integral

theorem run_cases {r s : Regulator α} {time measured out : α}
    (h : r.run time measured = .ok (s, out)) :
    ∃ y, r.integrate time measured = .ok y ∧
      s = { r with integral := y, lastError := r.error measured, lastTime := some time } ∧
      out = r.bounded s.demand := by
  unfold run at h
  cases hy : r.integrate time measured with
  | error fault => simp [hy] at h
  | ok y =>
    simp only [hy, Except.ok.injEq, Prod.mk.injEq] at h
    obtain ⟨rfl, rfl⟩ := h
    exact ⟨y, rfl, rfl, rfl⟩

end Regulator

namespace Body

variable {b d : Body α} {time power : α} {control : Regulator α}

theorem heat_cases (h : b.heat time = .ok (control, power)) :
    ((b.setPoint == 0.0) = true ∧ control = b.control.reset ∧ power = 0.0) ∨
      ((b.setPoint == 0.0) = false ∧ ∃ out, b.control.run time b.temperature = .ok (control, out) ∧
        Scalar.clamp? out 0.0 b.config.hPower = some power) := by
  unfold heat at h
  cases hoff : b.setPoint == 0.0 with
  | true =>
    simp only [hoff, if_true, Except.ok.injEq, Prod.mk.injEq] at h
    exact Or.inl ⟨rfl, h.1.symm, h.2.symm⟩
  | false =>
    simp only [hoff, Bool.false_eq_true, if_false] at h
    cases hrun : b.control.run time b.temperature with
    | error fault => simp [hrun] at h
    | ok p =>
      obtain ⟨s, out⟩ := p
      cases hclamp : Scalar.clamp? out 0.0 b.config.hPower with
      | none => simp [hrun, hclamp] at h
      | some q =>
        simp only [hrun, hclamp, Except.ok.injEq, Prod.mk.injEq] at h
        obtain ⟨rfl, rfl⟩ := h
        exact Or.inr ⟨rfl, out, rfl, hclamp⟩

/-- The body after a tick that heated it with some power. -/
structure Advances (b : Body α) (time : α) (control : Regulator α) (power : α) (d : Body α) :
    Prop where
  heat : b.heat time = .ok (control, power)
  config : d.config = b.config
  control : d.control = control
  setPoint : d.setPoint = b.setPoint
  powerIn : d.powerIn = power
  lastPower : d.lastPower = power - heatLoss b.config b.temperature
  temperature : d.temperature = b.temperature +
    (d.lastPower + b.lastPower) * b.elapsed time / 2.0 / (b.config.cHeat * b.config.mass)
  lastTime : d.lastTime = some time
  settle : (d.reached, d.settleTimer) =
    if Scalar.abs (d.temperature - b.setPoint) < b.config.settleWindow then
      (b.reached || decide (b.config.settleTime < b.settleTimer + b.elapsed time),
        b.settleTimer + b.elapsed time)
    else (false, 0.0)

theorem advances_of_run (h : b.run time = .ok d) :
    ∃ control power, b.Advances time control power d := by
  unfold run at h
  cases hheat : b.heat time with
  | error fault => simp [hheat] at h
  | ok p =>
    obtain ⟨control, power⟩ := p
    simp only [hheat, Except.ok.injEq] at h
    subst h
    refine ⟨control, power, hheat, ?_, ?_, ?_, ?_, ?_, ?_, ?_, ?_⟩ <;> unfold Body.settle <;>
      split <;> rfl

/-- What a setting may do to a heater. -/
inductive Tuning : Body α → Body α → Prop where
  | refl (b : Body α) : Tuning b b
  | gains (b : Body α) {kp ki : α} {windUp : Option α} (hkp : Scalar.isNonNegative kp = true)
      (hki : Scalar.isNonNegative ki = true)
      (hw : ∀ bound, windUp = some bound → Scalar.isNonNegative bound = true) :
      Tuning b { b with control := { b.control with kp := kp, ki := ki, windUp := windUp } }
  | band (b : Body α) {window time : α} (hw : Scalar.isNonNegative window = true)
      (ht : Scalar.isNonNegative time = true) :
      Tuning b { b with config := { b.config with settleWindow := window, settleTime := time } }

/-- What an operation may do to a heater. -/
inductive Change : Body α → Body α → Prop where
  | tune {b d : Body α} (h : Tuning b d) : Change b d
  | heat (b : Body α) (celsius : α) : Change b (b.setTemperature celsius)
  | run {b d : Body α} (time : α) (h : b.run time = .ok d) : Change b d

end Body

theorem isNonNegative_of_checkTuning {h : HeaterId} {field : TuningField} {x : α}
    (hx : checkTuning h field x = .ok ()) : Scalar.isNonNegative x = true := by
  unfold checkTuning at hx
  split at hx
  · assumption
  · cases hx

namespace Machine

variable {m n : Machine α}

open Body (Change Tuning)

theorem frame_applyLimits {updates : List (AxisId × Limits α)}
    (hn : m.applyLimits updates = .ok n) : n.heaters = m.heaters ∧ n.time = m.time := by
  obtain ⟨-, -, hn⟩ := ok_of_bind hn
  cases hn
  have hall (us : List (AxisId × Limits α)) (m : Machine α) :
      (us.foldl (fun m u => m.withLimits u.1 u.2) m).heaters = m.heaters ∧
        (us.foldl (fun m u => m.withLimits u.1 u.2) m).time = m.time := by
    induction us generalizing m with
    | nil => exact ⟨rfl, rfl⟩
    | cons u us ih => exact ih _
  exact hall updates m

theorem frame_of_set {x : Setting α} (hn : x.apply m = .ok n) :
    (∀ k, Tuning (m.heater k) (n.heater k)) ∧ n.time = m.time := by
  have hsame (h : n.heaters = m.heaters ∧ n.time = m.time) :
      (∀ k, Tuning (m.heater k) (n.heater k)) ∧ n.time = m.time := by
    refine ⟨fun k => ?_, h.2⟩
    have : n.heater k = m.heater k := congrArg (PerHeater.get · k) h.1
    exact this ▸ .refl _
  cases x with
  | axisLimits i l =>
    obtain ⟨-, -, hn⟩ := ok_of_bind hn
    cases hn
    exact ⟨fun _ => .refl _, rfl⟩
  | limits updates => exact hsame (frame_applyLimits hn)
  | document doc => exact hsame (frame_applyLimits hn)
  | feedOverride value =>
    simp only [Setting.apply, setFeedOverride] at hn
    split at hn
    · cases hn
      exact ⟨fun _ => .refl _, rfl⟩
    · cases hn
  | gains i kp ki windUp =>
    simp only [Setting.apply, setHeaterGains] at hn
    obtain ⟨⟨⟩, hkp, hn⟩ := ok_of_bind hn
    obtain ⟨⟨⟩, hki, hn⟩ := ok_of_bind hn
    have hp := isNonNegative_of_checkTuning hkp
    have hi := isNonNegative_of_checkTuning hki
    cases windUp with
    | some bound =>
      obtain ⟨⟨⟩, hw, hn⟩ := ok_of_bind hn
      cases hn
      refine ⟨setHeater_induction .refl (.gains _ hp hi fun b hb => ?_), rfl⟩
      cases hb
      exact isNonNegative_of_checkTuning hw
    | none =>
      cases hn
      exact ⟨setHeater_induction .refl (.gains _ hp hi fun b hb => by cases hb), rfl⟩
  | settle i window time =>
    simp only [Setting.apply, setHeaterSettle] at hn
    obtain ⟨⟨⟩, hw, hn⟩ := ok_of_bind hn
    obtain ⟨⟨⟩, ht, hn⟩ := ok_of_bind hn
    cases hn
    exact ⟨setHeater_induction .refl
      (.band _ (isNonNegative_of_checkTuning hw) (isNonNegative_of_checkTuning ht)), rfl⟩

end Machine

end Gantry
