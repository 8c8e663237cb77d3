import Gantry.Execution.Task

/-!
# Steps of a file

The next step of a file at the stages that may go on in more than one way. Each equation says what
becomes of the machine and which stage follows. Notice reaches a file in a pause and changes nothing
else.
-/

namespace Gantry

variable {α : Type}

namespace Hold

variable (shutdown : Bool) (m : Machine α)

theorem step_look (noticed : Bool) : (Hold.look noticed).step shutdown m =
    (m, some (if m.flow.pauseRequested then .flag noticed else .leave)) := rfl

theorem step_flag (noticed : Bool) : (Hold.flag noticed).step shutdown m =
    (m, some (if shutdown then .leave else if noticed then .look false else .nap)) := rfl

end Hold

variable [Scalar α]

namespace FileWork

variable (shutdown : Bool) (m : Machine α) (i n : Nat) (rest : List (Line α))

theorem step_enter (job : FileJob α) :
    (FileWork.enter job).step shutdown m =
      (m.mapFlow (·.beginFile job.name), some (ofLines 0 job.lines.length job.lines)) := rfl

theorem step_line (w : LineWork α) :
    (FileWork.run i n rest (.line w)).step shutdown m =
      ((w.step shutdown m).1, some (.run i n rest
        (match (w.step shutdown m).2 with
        | some v => .line v
        | none => .askPause))) := rfl

theorem step_askPause :
    (FileWork.run i n rest .askPause).step shutdown m =
      (m, some (.run i n rest (if m.flow.pauseRequested then .hold .enter else .askAbort))) := rfl

theorem step_hold (h : Hold) :
    (FileWork.run i n rest (.hold h)).step shutdown m =
      ((h.step shutdown m).1, some (.run i n rest
        (match (h.step shutdown m).2 with
        | some k => .hold k
        | none => .askAbort))) := rfl

theorem step_askAbort :
    (FileWork.run i n rest .askAbort).step shutdown m =
      (m.mapFlow (·.takeAbort.1),
        some (if m.flow.abortRequested then .leave else .run i n rest .askShutdown)) := by
  have hs : (FileWork.run i n rest .askAbort).step shutdown m =
      (m.mapFlow (·.takeAbort.1), some (afterStage i n rest
        (if m.flow.abortRequested then .stop else .going .askShutdown))) := rfl
  rw [hs]
  cases m.flow.abortRequested <;> rfl

theorem step_askShutdown :
    (FileWork.run i n rest .askShutdown).step shutdown m =
      (m, some (if shutdown then .leave else ofLines (i + 1) n rest)) := by
  cases shutdown <;> rfl

end FileWork

namespace Task

omit [Scalar α]

theorem notify_cases (t : Task α) : t.notify = t ∨ ∃ i n rest k,
    t = .file (.run i n rest (.hold k)) ∧ t.notify = .file (.run i n rest (.hold k.notify)) := by
  cases t with
  | line w => exact Or.inl rfl
  | file w =>
    cases w with
    | run i n rest stage =>
      cases stage with
      | hold k => exact Or.inr ⟨i, n, rest, k, rfl, rfl⟩
      | _ => exact Or.inl rfl
    | _ => exact Or.inl rfl

/-- What notice does not change of a pause it does not change of any task. -/
theorem notify_eq {β : Type} {f : Task α → β} (hf : ∀ i n rest k,
    f (.file (.run i n rest (.hold k.notify))) = f (.file (.run i n rest (.hold k))))
    (t : Task α) : f t.notify = f t := by
  rcases t.notify_cases with h | ⟨i, n, rest, k, rfl, h⟩
  · rw [h]
  · exact hf i n rest k

end Task

end Gantry
