import Gantry.Proofs.Execution.Effect
import Gantry.Proofs.Execution.FileStep
import Gantry.Proofs.Machine.Reachable

/-!
# The machines of a system

Whatever clients, tasks, ticks and settings do, in any order, they do by operations of the machine:
the machine of every system is reachable from its configuration.
-/

namespace Gantry

variable {α : Type} [Scalar α] {c : MachineConfig α} {m : Machine α}

open Machine

theorem Homing.reachable_step (h : Reachable c m) (shutdown : Bool) (i : AxisId) (k : Homing α) :
    Reachable c (k.step shutdown m i).1 := by
  cases k with
  | start leg v => exact .move _ _ h
  | release => exact .release i h
  | _ => exact h

theorem Chore.reachable_step (h : Reachable c m) (shutdown : Bool) (k : Chore α) :
    Reachable c (k.step shutdown m).1 := by
  cases k with
  | move target speed blocking => exact .move target speed h
  | offset target => exact .declare target h
  | heat i celsius blocking => exact .heat i celsius h
  | homing saved i rest k => exact Homing.reachable_step h shutdown i k
  | restore saved completed => exact .home _ (.feed saved h)
  | _ => exact h

theorem LineWork.reachable_step (h : Reachable c m) (shutdown : Bool) (w : LineWork α) :
    Reachable c (w.step shutdown m).1 := by
  cases w with
  | enter line => exact .flow (·.setLine (some line.text)) h
  | next d rest => exact h
  | busy k rest => exact Chore.reachable_step h shutdown k
  | leave => exact .flow (·.setLine none) h

theorem Hold.reachable_step (h : Reachable c m) (shutdown : Bool) (k : Hold) :
    Reachable c (k.step shutdown m).1 := by
  cases k with
  | enter => exact .flow (·.setStatus .paused) h
  | leave => exact .flow (·.setStatus .working) h
  | _ => exact h

theorem FileWork.reachable_step (h : Reachable c m) (shutdown : Bool) (w : FileWork α) :
    Reachable c (w.step shutdown m).1 := by
  cases w with
  | read job => exact h
  | enter job => exact .flow (·.beginFile job.name) h
  | leave => exact .flow (·.finishFile) h
  | run i n rest stage =>
    cases stage with
    | mark l => exact .flow (·.setProgress (FileStage.percent i n)) h
    | line w =>
      rw [step_line]
      exact LineWork.reachable_step h shutdown w
    | hold k =>
      rw [step_hold]
      exact Hold.reachable_step h shutdown k
    | askAbort =>
      rw [step_askAbort]
      exact .flow (·.takeAbort.1) h
    | _ => exact h

theorem Task.reachable_step (h : Reachable c m) (shutdown : Bool) (t : Task α) :
    Reachable c (t.step shutdown m).1 := by
  cases t with
  | line w => exact LineWork.reachable_step h shutdown w
  | file w => exact FileWork.reachable_step h shutdown w

theorem Request.reachable_grant (h : Reachable c m) (r : Request) {n : Machine α}
    (hn : r.grant? m = some n) : Reachable c n := by
  obtain ⟨f, rfl⟩ := Request.exists_flow_of_grant hn
  exact .flow (fun _ => f) h

namespace System

theorem reachable_of_drift {s : System α} (h : Reachable c s.engine.machine) {ev : Event α}
    {n : Machine α} (hn : s.effect ev = .drift n) : Reachable c n := by
  cases ev with
  | call d => cases hn
  | client j =>
    simp only [effect] at hn
    split at hn
    · rename_i d _
      have hacts := d.acts s.engine
      rw [hn] at hacts
      cases hacts
    · cases hn
  | task k => cases hn
  | tick =>
    simp only [effect] at hn
    split at hn
    · rename_i e he
      cases hn
      obtain ⟨m, hm, he⟩ := ok_of_bind he
      cases he
      exact .run _ h hm
    · cases hn
  | set x =>
    simp only [effect] at hn
    split at hn
    · rename_i m hm
      cases hn
      exact .set x h hm
    · cases hn

theorem reachable_step {s : System α} (h : Reachable c s.engine.machine) (ev : Event α) :
    Reachable c (s.step ev).engine.machine := by
  have ha := s.allows_effect ev
  show Reachable c (s.engine.after (s.effect ev)).machine
  cases he : s.effect ev with
  | accept job =>
    rw [he] at ha
    rw [Engine.after, Engine.submit_eq ha]
    exact h
  | grant r =>
    rw [he] at ha
    obtain ⟨n, hn⟩ := Option.isSome_iff_exists.mp ha
    simp only [Engine.after, hn, Option.getD_some]
    exact Request.reachable_grant h r hn
  | step k =>
    cases ht : s.engine.task? k with
    | some t =>
      rw [Engine.after, Engine.machine_stepTask ht]
      exact Task.reachable_step h _ t
    | none =>
      rw [Engine.after, Engine.stepTask_of_none ht]
      exact h
  | drift n => exact reachable_of_drift h he
  | _ => exact h

/-- The machine of a system is reachable, whatever has happened. -/
theorem reachable_run (machine : MachineConfig α) (config : EngineConfig α)
    (evs : List (Event α)) :
    Reachable machine ((start machine config).run evs).engine.machine :=
  run_induction (P := fun s => Reachable machine s.engine.machine)
    (fun _ ev h => reachable_step h ev) .start evs

end System

end Gantry
