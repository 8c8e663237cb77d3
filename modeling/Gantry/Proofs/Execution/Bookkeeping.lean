import Gantry.Proofs.Execution.FileStage

/-!
# Bookkeeping

Status, file, line, progress and the pending pause are written in separate sections, by the task
and by the clients. They agree with one another all the same: a file is known exactly while the
machine is not idle, a pause is pending only then, the progress is that of the line the task has
turned to, and an engine whose tasks are all over is at rest, however the last of them ended.

Nothing here looks at a pending abort, which may outlast the file it was meant for.
-/

namespace Gantry

variable {α : Type} [Scalar α]

structure Flow.Consistent (f : Flow) : Prop where
  file : f.status = .idle ↔ f.file = none
  pause : f.pauseRequested = true → f.status ≠ .idle
  progress : f.progress ≤ 100

theorem LineWork.flow_step (shutdown : Bool) (m : Machine α) (w : LineWork α) :
    ∃ text, (w.step shutdown m).1.flow = m.flow.setLine text := by
  cases w with
  | enter line => exact ⟨some line.text, rfl⟩
  | next c rest => exact ⟨m.flow.line, rfl⟩
  | busy chore rest => exact ⟨m.flow.line, chore.flow_step shutdown m⟩
  | leave => exact ⟨none, rfl⟩

namespace Flow.Consistent

omit [Scalar α] in
theorem initial : Flow.initial.Consistent :=
  ⟨⟨fun _ => rfl, fun _ => rfl⟩, nofun, Nat.zero_le _⟩

omit [Scalar α] in
theorem setLine {f : Flow} (h : f.Consistent) (text : Option String) :
    (f.setLine text).Consistent :=
  ⟨h.file, h.pause, h.progress⟩

omit [Scalar α] in
theorem setStatus {f : Flow} (h : f.Consistent) (hf : f.status ≠ .idle) {s : Status}
    (hs : s ≠ .idle) : (f.setStatus s).Consistent where
  file := ⟨fun he => absurd he hs, fun hn => absurd (h.file.mpr hn) hf⟩
  pause := fun _ => hs
  progress := h.progress

theorem stepLine {m : Machine α} (h : m.flow.Consistent) (shutdown : Bool) (w : LineWork α) :
    (w.step shutdown m).1.flow.Consistent := by
  obtain ⟨text, ht⟩ := w.flow_step shutdown m
  rw [ht]
  exact h.setLine text

omit [Scalar α] in
theorem stepHold {m : Machine α} (h : m.flow.Consistent) (shutdown : Bool) {k : Hold}
    (hs : m.flow.status = (FileStage.hold k : FileStage α).status) :
    (k.step shutdown m).1.flow.Consistent := by
  cases k with
  | enter => exact h.setStatus (by rw [hs]; simp [FileStage.status]) (by simp)
  | leave => exact h.setStatus (by rw [hs]; simp [FileStage.status]) (by simp)
  | _ => exact h

/-- Every step of the task that the flow shows keeps the flow consistent. -/
theorem step {m : Machine α} (h : m.flow.Consistent) (shutdown : Bool) {t : Task α}
    (hs : m.flow.Shows (some t)) : (t.step shutdown m).1.flow.Consistent := by
  cases t with
  | line w => exact h.stepLine shutdown w
  | file w =>
    cases w with
    | read job => exact h
    | enter job =>
      exact ⟨⟨nofun, nofun⟩, nofun, Nat.zero_le _⟩
    | leave => exact ⟨⟨fun _ => rfl, fun _ => rfl⟩, nofun, Nat.le_refl _⟩
    | run i n rest stage =>
      cases stage with
      | mark l => exact ⟨h.file, h.pause, Nat.min_le_right _ _⟩
      | line w => exact h.stepLine shutdown w
      | askPause => exact h
      | hold k => exact h.stepHold shutdown hs.status
      | askAbort => exact ⟨h.file, h.pause, h.progress⟩
      | askShutdown => exact h

omit [Scalar α] in
theorem grant {m n : Machine α} (h : m.flow.Consistent) {r : Request}
    (hr : r.grant? m = some n) : n.flow.Consistent := by
  obtain ⟨hs, hf⟩ := Request.eq_of_grant hr
  rw [hf]
  cases r with
  | pause => exact ⟨h.file, fun _ => by rw [Request.status_granted, hs]; simp [Request.status],
      h.progress⟩
  | resume => exact ⟨h.file, nofun, h.progress⟩
  | abort => exact ⟨h.file, h.pause, h.progress⟩

end Flow.Consistent

theorem Engine.consistent_after {e : Engine α} (hs : e.Shown) (h : e.machine.flow.Consistent)
    {eff : Effect α} (ha : e.Allows eff) : (e.after eff).machine.flow.Consistent := by
  cases eff with
  | accept job =>
    rw [after, submit_eq ha]
    exact h
  | step k =>
    cases ht : e.task? k with
    | none =>
      rw [after, stepTask_of_none ht]
      exact h
    | some t =>
      rw [after, machine_stepTask ht]
      exact h.step e.shutdown (hs.some ht)
  | grant r =>
    obtain ⟨n, hn, hm⟩ := exists_grant ha
    rw [hm]
    exact h.grant hn
  | drift m =>
    have hm : m.flow = e.machine.flow := ha.flow
    show m.flow.Consistent
    rw [hm]
    exact h
  | _ => exact h

namespace FileStage

def isMarked : FileStage α → Bool
  | mark _ => false
  | _ => true

theorem percent_le {i n : Nat} (h : i < n) : percent i n ≤ 89 := by
  have : i * 80 / n < 80 := Nat.div_lt_of_lt_mul (by omega)
  unfold percent
  omega

theorem le_percent (i n : Nat) : 10 ≤ percent i n :=
  Nat.le_add_right _ _

theorem progress_step (shutdown : Bool) (m : Machine α) (i n : Nat) (rest : List (Line α))
    {stage : FileStage α} (h : stage.isMarked = true) :
    ((FileWork.run i n rest stage).step shutdown m).1.flow.progress = m.flow.progress := by
  cases stage with
  | mark l => cases h
  | line w =>
    obtain ⟨text, ht⟩ := w.flow_step shutdown m
    show (w.step shutdown m).1.flow.progress = _
    rw [ht]
    rfl
  | hold k => cases k <;> rfl
  | _ => rfl

end FileStage

/-- A task that has turned to line `i` of `n` has the lines after it left, and once the line is
marked its progress is shown. -/
def Task.Progresses (f : Flow) (t : Task α) : Prop :=
  ∀ i n rest stage, t = .file (.run i n rest stage) →
    i + rest.length + 1 = n ∧ (stage.isMarked = true → f.progress = FileStage.percent i n)

namespace Task.Progresses

omit [Scalar α] in
theorem of_fresh {f : Flow} {t : Task α} (h : t.Fresh) : t.Progresses f := by
  rintro i n rest stage rfl
  cases h

omit [Scalar α] in
theorem ofLines (f : Flow) {i n : Nat} {lines : List (Line α)} (h : i + lines.length = n) :
    (Task.file (FileWork.ofLines i n lines)).Progresses f := by
  cases lines with
  | nil =>
    rintro j k rest stage ht
    cases ht
  | cons l lines =>
    rintro j k rest stage ht
    cases ht
    exact ⟨h, fun hm => by cases hm⟩

theorem goes {shutdown : Bool} {m : Machine α} {i n : Nat} {rest : List (Line α)}
    {stage : FileStage α} {v : FileWork α}
    (h : (Task.file (.run i n rest stage)).Progresses m.flow)
    (hgo : stage.Goes shutdown m.flow i n rest v) :
    (Task.file v).Progresses ((FileWork.run i n rest stage).step shutdown m).1.flow := by
  obtain ⟨hn, hp⟩ := h i n rest stage rfl
  -- Past its beginning a line stays the one it is, and so does the progress.
  have hsame {next : FileStage α} (hm : stage.isMarked = true) :
      (Task.file (.run i n rest next)).Progresses
        ((FileWork.run i n rest stage).step shutdown m).1.flow := by
    rintro j k rest' stage' ht
    cases ht
    exact ⟨hn, fun _ => (FileStage.progress_step shutdown m i n rest hm).trans (hp hm)⟩
  cases hgo with
  | entering l =>
    rintro j k rest' stage' ht
    cases ht
    have hle := FileStage.percent_le (i := i) (n := n) (by omega)
    exact ⟨hn, fun _ => Nat.min_eq_left (by omega)⟩
  | within hv => exact hsame rfl
  | finished hw => exact hsame rfl
  | pausing hp => exact hsame rfl
  | unpaused hp => exact hsame rfl
  | holding hk hh => exact hsame rfl
  | released => exact hsame rfl
  | unaborted ha => exact hsame rfl
  | turned hs => exact ofLines _ (by omega)
  | aborted ha =>
    rintro j k rest' stage' ht
    cases ht
  | stopped hs =>
    rintro j k rest' stage' ht
    cases ht

theorem lasts : Lasts (fun _ => True) fun _ f (t : Task α) => t.Progresses f where
  step := by
    intro shutdown m t u h hu
    cases t with
    | line w =>
      obtain ⟨v, -, rfl⟩ := Option.map_eq_some_iff.mp hu
      rintro i n rest stage ht
      cases ht
    | file w =>
      obtain ⟨v, hv, rfl⟩ := Option.map_eq_some_iff.mp hu
      cases w with
      | read job =>
        obtain ⟨j, -, rfl⟩ := Option.map_eq_some_iff.mp hv
        rintro i n rest stage ht
        cases ht
      | enter job =>
        cases hv
        exact ofLines _ (Nat.zero_add _)
      | leave => cases hv
      | run i n rest stage =>
        obtain ⟨v', hv', hgo⟩ := FileWork.goes_step shutdown m i n rest stage
        cases hv'.symm.trans hv
        exact h.goes hgo
  notice := by
    intro shutdown f t h
    cases t with
    | line w => exact h
    | file w =>
      cases w with
      | run i n rest stage =>
        cases stage with
        | hold k =>
          rintro j l rest' stage' ht
          cases ht
          exact h i n rest (.hold k) rfl
        | _ => exact h
      | _ => exact h
  grant := by
    intro shutdown m n t r _ h hn i k rest stage ht
    have hp : n.flow.progress = m.flow.progress := by
      rw [Request.flow_of_grant hn]
      cases r <;> rfl
    rw [hp]
    exact h i k rest stage ht
  raise := fun h => h

end Task.Progresses

/-- What lasts of every task and holds of a fresh one holds of all tasks, also of those admitted on
the way. -/
theorem Lasts.everywhere {P : Bool → Flow → Task α → Prop} (hP : Lasts (fun _ => True) P)
    (hf : ∀ {shutdown : Bool} {f : Flow} {t : Task α}, t.Fresh → P shutdown f t) {s : System α}
    (hs : s.Serial) {evs : List (Event α)} (hl : s.NoLateJobs evs)
    (h : ∀ k, s.engine.Sees k P) : ∀ k, (s.run evs).engine.Sees k P := by
  induction evs generalizing s with
  | nil => exact h
  | cons ev evs ih =>
    refine ih (hs.step hl.1) hl.2 fun k => ?_
    have ha := s.allows_effect ev
    by_cases hk : k < s.engine.tasks.length
    · exact hP.after hs.unique ha (fun _ _ => trivial) hk (h k)
    · -- A number that was not taken before is that of a job admitted just now.
      have hnone : ¬ (s.engine.task? k).isSome := fun hi => hk (Engine.lt_length_of_task? hi)
      intro t ht
      have hc := s.taskChange ev k
      rw [ht] at hc
      generalize hv : some t = v at hc
      generalize he : s.effect ev = eff at hc
      cases hc with
      | admitted _ =>
        cases hv
        exact hf (hs.orderly.fresh_of_accept he)
      | stepped hu => exact absurd (by simp [hu]) hnone
      | noticed =>
        obtain ⟨u, hu, -⟩ := Option.map_eq_some_iff.mp hv.symm
        exact absurd (by simp [hu]) hnone
      | same => exact absurd (by simp [← hv]) hnone

/-- How the entries of the flow agree with one another and with the task. -/
structure Engine.Bookkeeping (e : Engine α) : Prop where
  idle : e.machine.flow.status = .idle ↔ e.machine.flow.file = none
  pause : e.machine.flow.pauseRequested = true → e.machine.flow.status ≠ .idle
  /-- The machine is paused exactly while a file is in its pause. -/
  paused : e.machine.flow.status = .paused ↔
    ∃ k i n rest h, e.task? k = some (.file (.run i n rest (.hold h))) ∧ h ≠ .enter
  progress : e.machine.flow.progress ≤ 100
  /-- The progress while a line of a file is executed. -/
  executing : ∀ k i n rest w, e.task? k = some (.file (.run i n rest (.line w))) →
    10 ≤ e.machine.flow.progress ∧ e.machine.flow.progress ≤ 89
  /-- The state between two tasks. -/
  resting : (∀ k, e.task? k = none) → e.machine.flow.status = .idle ∧
    e.machine.flow.file = none ∧ e.machine.flow.line = none ∧
    e.machine.flow.pauseRequested = false

namespace System

theorem consistent_run {s : System α} (hs : s.Serial) (h : s.engine.machine.flow.Consistent)
    {evs : List (Event α)} (hl : s.NoLateJobs evs) :
    (s.run evs).engine.machine.flow.Consistent := by
  induction evs generalizing s with
  | nil => exact h
  | cons ev evs ih =>
    exact ih (hs.step hl.1) (Engine.consistent_after hs.shown h (s.allows_effect ev)) hl.2

theorem Serial.paused_iff {s : System α} (h : s.Serial) :
    s.engine.machine.flow.status = .paused ↔
      ∃ k i n rest h, s.engine.task? k = some (.file (.run i n rest (.hold h))) ∧ h ≠ .enter := by
  constructor
  · intro hp
    by_cases hn : ∀ k, s.engine.task? k = none
    · have := (h.shown.none hn).status
      rw [hp] at this
      cases this
    · obtain ⟨k, hk⟩ := not_forall.mp hn
      obtain ⟨t, ht⟩ := Option.ne_none_iff_exists'.mp hk
      have hs := (h.shown.some ht).status
      rw [hp, Option.elim_some] at hs
      cases t with
      | line w => cases hs
      | file w =>
        cases w with
        | run i n rest stage =>
          cases stage with
          | hold g =>
            refine ⟨k, i, n, rest, g, ht, ?_⟩
            rintro rfl
            cases hs
          | _ => cases hs
        | _ => cases hs
  · rintro ⟨k, i, n, rest, g, ht, hg⟩
    have hs := (h.shown.some ht).status
    rw [hs]
    cases g with
    | enter => exact absurd rfl hg
    | _ => rfl

/-- The books agree in every state of every run in which no job is admitted after shutdown. -/
theorem bookkeeping_run (machine : MachineConfig α) (config : EngineConfig α)
    (evs : List (Event α)) (hl : (start machine config).NoLateJobs evs) :
    ((start machine config).run evs).engine.Bookkeeping := by
  have hstart := serial_start machine config
  have hserial := hstart.run hl
  have hflow := consistent_run hstart Flow.Consistent.initial hl
  have hprog := Task.Progresses.lasts.everywhere Task.Progresses.of_fresh hstart hl
    fun k t ht => by simp [start, Engine.ofParts, Engine.task?] at ht
  refine ⟨hflow.file, hflow.pause, hserial.paused_iff, hflow.progress, ?_, ?_⟩
  · intro k i n rest w ht
    obtain ⟨hn, hp⟩ := hprog k _ ht i n rest (.line w) rfl
    rw [hp rfl]
    exact ⟨FileStage.le_percent i n, FileStage.percent_le (by omega)⟩
  · intro hn
    obtain ⟨hs, hline⟩ := hserial.shown.none hn
    refine ⟨hs, hflow.file.mp hs, by simpa using hline, ?_⟩
    exact Bool.eq_false_iff.mpr fun hp => hflow.pause hp hs

/-- A file of two lines that is paused over the first when shutdown is requested. -/
theorem bookkeeping_held_file :
    let s := start (MachineConfig.stock : MachineConfig Float) EngineConfig.stock
    let evs := [.call (.file "part.gcode" (.content "G92 X1\nG28\n".toUTF8.toList)), .client 0,
      .client 0, .task 0, .task 0, .task 0, .task 0, .call (.request .pause), .client 1, .client 1,
      .task 0, .task 0, .task 0, .task 0, .task 0, .task 0, .call .shutdown, .client 2]
    (s.NoLateJobs evs ∧ (s.run evs).engine.machine.flow.status = .paused) ∧
      (s.run evs).engine.Bookkeeping :=
  ⟨by decide +kernel, bookkeeping_run _ _ _ (by decide +kernel)⟩

end System

end Gantry
