import Mathlib
import Gantry.Proofs.Execution.Reach
import Gantry.Proofs.Heat.Guard
import Gantry.Proofs.Settings.InPlace

/-!
# No fault after validation

An engine that was made from an accepted configuration has a tick period, and no tick of it is
ever at fault: the two clamps of a heater get bounds in order after every sequence of calls,
sections, steps, ticks and settings, in whatever form the settings are given.
-/

namespace Gantry

open Machine

/-- What may happen to an engine; settings come as values, as a text or as a blob. -/
inductive Action where
  | event (ev : Event Float)
  | adjust (a : Adjustment)

/-- The system after an action; an adjustment that is refused does nothing. -/
def System.act (s : System Float) : Action → System Float
  | .event ev => s.step ev
  | .adjust a =>
    match s.engine.change a.apply with
    | .ok e => { s with engine := e }
    | .error _ => s

def System.acts (s : System Float) (as : List Action) : System Float :=
  as.foldl System.act s

/-- The clock of the engine can be set, and its tick is not at fault at any time. -/
structure System.Unfailing (s : System Float) : Prop where
  /-- There is a tick period, of a nanosecond or more. -/
  period : ∃ n, s.engine.config.tickPeriod? = some n ∧ 1 ≤ n
  /-- The bounds of an integral are in order, and so neither is NaN. -/
  windUp : ∀ k bound, (s.engine.machine.heater k).control.windUp = some bound →
    -Scalar.abs bound ≤ Scalar.abs bound
  /-- So are the bounds of the power of a heater. -/
  power : ∀ k, 0.0 ≤ (s.engine.machine.heater k).config.hPower
  /-- A tick at any time is carried out. -/
  tick : ∀ time, ∃ n, s.engine.machine.run time = .ok n

theorem EngineConfig.tickPeriod_of_validate {c : EngineConfig Float} (h : c.validate = .ok ()) :
    ∃ n, c.tickPeriod? = some n ∧ 1 ≤ n := by
  simp only [EngineConfig.validate] at h
  obtain ⟨⟨⟩, -, h⟩ := ok_of_bind h
  obtain ⟨⟨⟩, -, h⟩ := ok_of_bind h
  cases hn : c.tickPeriod? with
  | none => simp [hn, bind, Except.bind, throw, throwThe, MonadExceptOf.throw] at h
  | some n =>
    refine ⟨n, rfl, Nat.pos_of_ne_zero ?_⟩
    rintro rfl
    unfold EngineConfig.tickPeriod? at hn
    split at hn
    · cases hn
    · rename_i hzero
      exact hzero hn

namespace System

theorem config_stepTask (e : Engine Float) (k : Nat) : (e.stepTask k).config = e.config := by
  unfold Engine.stepTask
  split <;> rfl

theorem config_step (s : System Float) (ev : Event Float) :
    (s.step ev).engine.config = s.engine.config := by
  show (s.engine.after (s.effect ev)).config = s.engine.config
  cases s.effect ev with
  | accept job =>
    show (s.engine.submit job).1.config = s.engine.config
    unfold Engine.submit
    split <;> rfl
  | step k => exact config_stepTask s.engine k
  | _ => rfl

variable {c : SimConfig Float} {s : System Float}

theorem unfailing_of_reachable (hc : c.validate = .ok ()) (hs : s.engine.config = c.engine)
    (h : Reachable c.machine s.engine.machine) : s.Unfailing := by
  obtain ⟨⟨⟩, -, hv⟩ := ok_of_bind hc
  obtain ⟨⟨⟩, he, hm⟩ := ok_of_bind hv
  refine ⟨?_, fun k bound hb => (h.guarded hm k).windUp_le hb, fun k => ?_, h.run_ok hm⟩
  · rw [hs]
    exact EngineConfig.tickPeriod_of_validate he
  · rw [(h.guarded hm k).hPower]
    exact Body.zero_le_of_isPositive (HeaterConfig.guards (c.machine.heaters_valid hm k)).hPower

theorem act_keeps (hs : s.engine.config = c.engine) (h : Reachable c.machine s.engine.machine)
    (a : Action) : (s.act a).engine.config = c.engine ∧
      Reachable c.machine (s.act a).engine.machine := by
  cases a with
  | event ev => exact ⟨(config_step s ev).trans hs, reachable_step h ev⟩
  | adjust a =>
    simp only [act]
    split
    · rename_i e he
      obtain ⟨n, hn, he⟩ := ok_of_bind he
      cases he
      obtain ⟨x, hx⟩ := Adjustment.exists_setting hn
      exact ⟨hs, h.set x hx⟩
    · exact ⟨hs, h⟩

/-- Whatever is asked of an engine whose configuration was accepted, it does not fail. -/
theorem unfailing_acts (c : SimConfig Float) (e : Engine Float) (h : Engine.ofConfig c = .ok e)
    (as : List Action) : (System.acts ⟨e, []⟩ as).Unfailing := by
  obtain ⟨⟨⟩, hc, he⟩ := ok_of_bind h
  cases he
  have hall (as : List Action) (s : System Float) (hs : s.engine.config = c.engine)
      (hr : Reachable c.machine s.engine.machine) : (s.acts as).Unfailing := by
    induction as generalizing s with
    | nil => exact unfailing_of_reachable hc hs hr
    | cons a as ih =>
      obtain ⟨hs', hr'⟩ := act_keeps hs hr a
      exact ih (s.act a) hs' hr'
  exact hall as _ rfl .start

/-- The stock engine, with an integral that is no longer bounded, gains at the end of the range and
an infinite set point. -/
theorem unfailing_stock :
    let e := Engine.ofParts (MachineConfig.stock : MachineConfig Float) EngineConfig.stock
    Engine.ofConfig SimConfig.stock = .ok e ∧
      (System.acts ⟨e, []⟩ [.adjust (.gains .nozzle 1e308 1e308 none), .adjust (.blob [1, 2]),
        .event (.call (.line ("M104 S" ++ String.ofList (List.replicate 400 '9')))),
        .event (.client 0), .event (.task 0), .event (.task 0), .event (.task 0),
        .event .tick, .event .tick, .event .tick]).Unfailing := by
  intro e
  have hv : (SimConfig.stock : SimConfig Float).validate = .ok () := by decide +kernel
  have he : Engine.ofConfig SimConfig.stock = .ok e := by
    simp only [Engine.ofConfig, hv]
    rfl
  exact ⟨he, unfailing_acts _ e he _⟩

end System

end Gantry
