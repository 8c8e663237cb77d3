import Gantry.Proofs.Execution.Admission
import Gantry.Proofs.Machine.Frame

/-!
# Flow and tasks

The flow of the machine shows where the unfinished task is: its status is that of the stage the
task is at, and a line is known exactly while the task executes one. This holds as long as no job
is admitted after shutdown, since only then a second task can be unfinished.

Nothing here looks at the two request flags.
-/

namespace Gantry

variable {α : Type} [Scalar α]

theorem Homing.flow_step (shutdown : Bool) (m : Machine α) (i : AxisId) (h : Homing α) :
    (h.step shutdown m i).1.flow = m.flow := by
  cases h with
  | start leg target => exact m.flow_setTarget _ _
  | _ => rfl

theorem Chore.flow_step (shutdown : Bool) (m : Machine α) (c : Chore α) :
    (c.step shutdown m).1.flow = m.flow := by
  cases c with
  | move target speed blocking => exact m.flow_setTarget target speed
  | homing saved i rest h => exact h.flow_step shutdown m i
  | _ => rfl

namespace Request

def granted (f : Flow) : Request → Flow
  | .pause => { f with pauseRequested := true }
  | .resume => { f with pauseRequested := false }
  | .abort => { f with abortRequested := true }

def status : Request → Status
  | .resume => .paused
  | _ => .working

omit [Scalar α] in
theorem eq_of_grant {m n : Machine α} {r : Request} (h : r.grant? m = some n) :
    m.flow.status = r.status ∧ n.flow = r.granted m.flow := by
  cases r with
  | pause =>
    simp only [grant?, Machine.pause?, Flow.pause?] at h
    split at h <;> simp at h
    exact ⟨by assumption, by rw [← h]; rfl⟩
  | resume =>
    simp only [grant?, Machine.resume?, Flow.resume?] at h
    split at h <;> simp at h
    exact ⟨by assumption, by rw [← h]; rfl⟩
  | abort =>
    simp only [grant?, Machine.abort?, Flow.abort?] at h
    split at h <;> simp at h
    exact ⟨by assumption, by rw [← h]; rfl⟩

omit [Scalar α] in
theorem flow_of_grant {m n : Machine α} {r : Request} (h : r.grant? m = some n) :
    n.flow = r.granted m.flow :=
  (eq_of_grant h).2

@[simp] theorem status_granted (f : Flow) (r : Request) : (r.granted f).status = f.status := by
  cases r <;> rfl

@[simp] theorem line_granted (f : Flow) (r : Request) : (r.granted f).line = f.line := by
  cases r <;> rfl

end Request

def LineWork.isExecuting : LineWork α → Bool
  | enter _ => false
  | _ => true

def FileStage.status : FileStage α → Status
  | hold .enter => .working
  | hold _ => .paused
  | _ => .working

namespace Task

def status : Task α → Status
  | .file (.run _ _ _ stage) => stage.status
  | .file .leave => .working
  | _ => .idle

def isExecuting : Task α → Bool
  | .line w => w.isExecuting
  | .file (.run _ _ _ (.line w)) => w.isExecuting
  | _ => false

omit [Scalar α] in
theorem status_notify (t : Task α) : t.notify.status = t.status := by
  refine t.notify_eq (f := status) fun i n rest k => ?_
  cases k <;> rfl

omit [Scalar α] in
theorem isExecuting_notify (t : Task α) : t.notify.isExecuting = t.isExecuting :=
  t.notify_eq (f := isExecuting) fun _ _ _ _ => rfl

end Task

/-- The flow shows a task, or that there is none. -/
structure Flow.Shows (f : Flow) (t : Option (Task α)) : Prop where
  status : f.status = t.elim .idle Task.status
  line : f.line.isSome = t.any Task.isExecuting

namespace LineWork

omit [Scalar α] in
theorem isExecuting_ofCommands (cs : List (Gcode.Command α)) :
    (ofCommands cs).isExecuting = true := by
  cases cs <;> rfl

theorem status_step (shutdown : Bool) (m : Machine α) (w : LineWork α) :
    (w.step shutdown m).1.flow.status = m.flow.status := by
  cases w with
  | busy chore rest => exact congrArg Flow.status (chore.flow_step shutdown m)
  | _ => rfl

theorem line_step (shutdown : Bool) {m : Machine α} {w : LineWork α}
    (h : m.flow.line.isSome = w.isExecuting) :
    (w.step shutdown m).1.flow.line.isSome = (w.step shutdown m).2.any isExecuting := by
  cases w with
  | enter line => exact (isExecuting_ofCommands line.commands).symm
  | next c rest =>
    have hs : (LineWork.next c rest).step shutdown m =
        (m, some (if shutdown then .leave else .busy (.ofCommand c) rest)) := rfl
    rw [hs]
    cases shutdown <;> exact h
  | busy chore rest =>
    have hs : ((LineWork.busy chore rest).step shutdown m).1.flow.line = m.flow.line :=
      congrArg Flow.line (chore.flow_step shutdown m)
    rw [hs, h]
    simp only [step, Option.any_some]
    split
    · rfl
    · exact (isExecuting_ofCommands rest).symm
  | leave => rfl

end LineWork

namespace Hold

omit [Scalar α] in
theorem status_step (shutdown : Bool) {m : Machine α} {h : Hold}
    (hs : m.flow.status = (FileStage.hold h : FileStage α).status) :
    (h.step shutdown m).1.flow.status =
      (h.step shutdown m).2.elim .working fun k => (FileStage.hold k : FileStage α).status := by
  cases h with
  | enter => rfl
  | look noticed =>
    rw [step_look]
    split <;> exact hs
  | flag noticed =>
    rw [step_flag]
    split
    · exact hs
    · split <;> exact hs
  | nap => exact hs
  | leave => rfl

omit [Scalar α] in
theorem line_step (shutdown : Bool) (m : Machine α) (h : Hold) :
    (h.step shutdown m).1.flow.line = m.flow.line := by
  cases h <;> rfl

end Hold

namespace Flow.Shows

omit [Scalar α] in
theorem notice {f : Flow} {t : Option (Task α)} (h : f.Shows t) :
    f.Shows (t.map Task.notify) := by
  cases t with
  | none => exact h
  | some t =>
    constructor
    · exact h.status.trans t.status_notify.symm
    · exact h.line.trans t.isExecuting_notify.symm

omit [Scalar α] in
theorem grant {m n : Machine α} {t : Option (Task α)} (h : m.flow.Shows t) {r : Request}
    (hr : r.grant? m = some n) : n.flow.Shows t := by
  rw [Request.flow_of_grant hr]
  constructor
  · rw [Request.status_granted, h.status]
  · rw [Request.line_granted, h.line]

omit [Scalar α] in
theorem of_fresh {f : Flow} (h : f.Shows (none : Option (Task α))) {job : Task α}
    (hf : job.Fresh) : f.Shows (some job) := by
  cases job with
  | line w =>
    cases w with
    | enter line => exact ⟨h.status, h.line⟩
    | _ => cases hf
  | file w =>
    cases w with
    | read job => exact ⟨h.status, h.line⟩
    | _ => cases hf

theorem step (shutdown : Bool) {m : Machine α} {t : Task α} (h : m.flow.Shows (some t)) :
    (t.step shutdown m).1.flow.Shows (t.step shutdown m).2 := by
  obtain ⟨hs, hl⟩ := h
  cases t with
  | line w =>
    have hw := LineWork.line_step shutdown hl
    have hi := (w.status_step shutdown m).trans hs
    simp only [Task.step]
    cases hv : (w.step shutdown m).2 with
    | none => exact ⟨hi, by rw [hw, hv]; rfl⟩
    | some v => exact ⟨hi, by rw [hw, hv]; rfl⟩
  | file w =>
    cases w with
    | read job => cases job <;> exact ⟨hs, hl⟩
    | enter job =>
      simp only [Task.step, FileWork.step_enter]
      cases job.lines <;> exact ⟨rfl, hl⟩
    | leave => exact ⟨rfl, hl⟩
    | run i n rest stage =>
      cases stage with
      | mark l => exact ⟨hs, hl⟩
      | line w =>
        have hw := LineWork.line_step shutdown hl
        have hi := (w.status_step shutdown m).trans hs
        simp only [Task.step, FileWork.step_line]
        cases hv : (w.step shutdown m).2 with
        | none => exact ⟨hi, by rw [hw, hv]; rfl⟩
        | some v => exact ⟨hi, by rw [hw, hv]; rfl⟩
      | askPause =>
        simp only [Task.step, FileWork.step_askPause]
        split <;> exact ⟨hs, hl⟩
      | hold k =>
        have hk := Hold.status_step shutdown hs
        have hi := (congrArg Option.isSome (k.line_step shutdown m)).trans hl
        simp only [Task.step, FileWork.step_hold]
        cases hv : (k.step shutdown m).2 with
        | none =>
          rw [hv] at hk
          exact ⟨hk, hi⟩
        | some v =>
          rw [hv] at hk
          exact ⟨hk, hi⟩
      | askAbort =>
        simp only [Task.step, FileWork.step_askAbort]
        split <;> exact ⟨hs, hl⟩
      | askShutdown =>
        simp only [Task.step, FileWork.step_askShutdown]
        split
        · exact ⟨hs, hl⟩
        · cases rest <;> exact ⟨hs, hl⟩

end Flow.Shows

namespace Engine

def Unique (e : Engine α) : Prop :=
  ∀ {k l : Nat}, (e.task? k).isSome → (e.task? l).isSome → k = l

/-- The flow of the machine shows the unfinished task, or that there is none. -/
structure Shown (e : Engine α) : Prop where
  some : ∀ {k : Nat} {t : Task α}, e.task? k = some t → e.machine.flow.Shows (Option.some t)
  none : (∀ k, e.task? k = Option.none) → e.machine.flow.Shows (Option.none : Option (Task α))

omit [Scalar α] in
theorem Unique.none_of_ne {e : Engine α} (h : e.Unique) {k l : Nat} {t : Task α}
    (hk : e.task? k = some t) (hl : l ≠ k) : e.task? l = none := by
  cases hu : e.task? l with
  | none => rfl
  | some u => exact absurd (h (by simp [hu]) (by simp [hk])) hl

theorem unique_after {e : Engine α} (h : e.Unique) {eff : Effect α} (ha : e.Allows eff)
    (hj : ∀ job, eff ≠ .accept job) : (e.after eff).Unique := by
  intro k l hk hl
  exact h (isSome_of_after ha hj hk) (isSome_of_after ha hj hl)

theorem shown_stepTask {e : Engine α} (hu : e.Unique) (h : e.Shown) (k : Nat) :
    (e.stepTask k).Shown := by
  cases ht : e.task? k with
  | none => rwa [stepTask_of_none ht]
  | some t =>
    have hs := (h.some ht).step e.shutdown
    rw [← machine_stepTask ht, ← task?_stepTask_self ht] at hs
    constructor
    · intro l u hl
      by_cases hkl : l = k
      · rw [hkl] at hl
        rwa [hl] at hs
      · rw [task?_stepTask_of_ne e hkl, hu.none_of_ne ht hkl] at hl
        cases hl
    · intro hn
      rwa [hn k] at hs

theorem shown_after {e : Engine α} (hu : e.Unique) (h : e.Shown) {eff : Effect α}
    (ha : e.Allows eff) (hj : ∀ job, eff = .accept job → job.Fresh ∧ ∀ k, e.task? k = none) :
    (e.after eff).Shown := by
  cases eff with
  | accept job =>
    obtain ⟨hf, hn⟩ := hj job rfl
    have hb : e.isBusy = false := ha
    have hm : (e.after (.accept job)).machine = e.machine := by simp [after, submit_eq hb]
    constructor
    · intro k t hk
      rw [hm]
      by_cases hkl : k = e.tasks.length
      · have : job = t := by simpa [after, hkl, task?_submit_self hb job] using hk
        exact this ▸ (h.none hn).of_fresh hf
      · simp [after, task?_submit_of_ne hb job hkl, hn k] at hk
    · intro hx
      have := hx e.tasks.length
      simp [after, task?_submit_self hb job] at this
  | step k => exact shown_stepTask hu h k
  | notice =>
    constructor
    · intro k t hk
      simp only [after, task?_notify, Option.map_eq_some_iff] at hk
      obtain ⟨u, hu, rfl⟩ := hk
      exact (h.some hu).notice
    · intro hn
      refine h.none fun k => ?_
      simpa [after] using hn k
  | grant r =>
    obtain ⟨n, hn, hm⟩ := exists_grant ha
    constructor
    · intro k t hk
      rw [hm]
      exact (h.some hk).grant hn
    · intro hx
      rw [hm]
      exact (h.none hx).grant hn
  | drift m =>
    have hm : m.flow = e.machine.flow := ha.flow
    constructor
    · intro k t hk
      exact hm ▸ h.some hk
    · intro hx
      exact hm ▸ h.none hx
  | idle => exact h
  | raise => exact ⟨h.some, h.none⟩
  | letGo => exact ⟨h.some, h.none⟩

end Engine

def Effect.job? : Effect α → Option (Task α)
  | .accept job => some job
  | _ => none

namespace System

/-- No job is admitted after shutdown. -/
def NoLateJobs (s : System α) : List (Event α) → Prop
  | [] => True
  | ev :: evs =>
    (s.engine.shutdown = true → (s.effect ev).job? = none) ∧ NoLateJobs (s.step ev) evs

instance decidableNoLateJobs (s : System α) : (evs : List (Event α)) → Decidable (s.NoLateJobs evs)
  | [] => inferInstanceAs (Decidable True)
  | ev :: evs =>
    have := decidableNoLateJobs (s.step ev) evs
    inferInstanceAs (Decidable ((s.engine.shutdown = true → (s.effect ev).job? = none) ∧
      NoLateJobs (s.step ev) evs))

theorem noLateJobs_append {s : System α} {evs fvs : List (Event α)} :
    s.NoLateJobs (evs ++ fvs) ↔ s.NoLateJobs evs ∧ (s.run evs).NoLateJobs fvs := by
  induction evs generalizing s with
  | nil => simp [NoLateJobs]
  | cons ev evs ih => simp [NoLateJobs, ih, and_assoc]

theorem noLateJobs_of_not_shutdown {s : System α} {evs : List (Event α)}
    (h : (s.run evs).engine.shutdown = false) : s.NoLateJobs evs := by
  induction evs generalizing s with
  | nil => trivial
  | cons ev evs ih =>
    refine ⟨fun hs => ?_, ih h⟩
    rw [shutdown_run hs] at h
    cases h

/-- One unfinished task at most, and the flow that belongs to it. -/
structure Serial (s : System α) : Prop where
  orderly : s.Orderly
  unique : s.engine.Unique
  exclusive : s.engine.shutdown = false → s.engine.Exclusive
  shown : s.engine.Shown

theorem serial_start (machine : MachineConfig α) (config : EngineConfig α) :
    (start machine config).Serial where
  orderly := orderly_start machine config
  unique := fun h => by simp [start, Engine.ofParts, Engine.task?] at h
  exclusive := fun _ => exclusive_start machine config
  shown := ⟨fun h => by simp [start, Engine.ofParts, Engine.task?] at h, fun _ => ⟨rfl, rfl⟩⟩

theorem Serial.step {s : System α} (h : s.Serial) {ev : Event α}
    (hl : s.engine.shutdown = true → (s.effect ev).job? = none) : (s.step ev).Serial := by
  have ha := s.allows_effect ev
  have hex (hs : s.engine.shutdown = false) : (s.step ev).engine.Exclusive :=
    h.orderly.exclusive_step hs (h.exclusive hs) ev
  have hbefore {job : Task α} (he : s.effect ev = .accept job) : s.engine.shutdown = false := by
    cases hs : s.engine.shutdown with
    | false => rfl
    | true =>
      have := hl hs
      rw [he] at this
      cases this
  refine ⟨orderly_step h.orderly ev, ?_, ?_, ?_⟩
  · cases hs : s.engine.shutdown with
    | false => exact (hex hs).unique
    | true =>
      refine Engine.unique_after h.unique ha fun job he => ?_
      rw [hbefore he] at hs
      cases hs
  · intro hs
    refine hex ?_
    cases hb : s.engine.shutdown with
    | false => rfl
    | true =>
      have := Engine.shutdown_after hb (s.effect ev)
      rw [show (s.engine.after (s.effect ev)).shutdown = false from hs] at this
      cases this
  · refine Engine.shown_after h.unique h.shown ha fun job he => ?_
    have hb : s.engine.isBusy = false := by
      rw [he] at ha
      exact ha
    exact ⟨h.orderly.fresh_of_accept he, (h.exclusive (hbefore he)).none_of_not_busy hb⟩

theorem Serial.run {s : System α} (h : s.Serial) {evs : List (Event α)} (hl : s.NoLateJobs evs) :
    (s.run evs).Serial := by
  induction evs generalizing s with
  | nil => exact h
  | cons ev evs ih => exact ih (h.step hl.1) hl.2

end System

end Gantry
