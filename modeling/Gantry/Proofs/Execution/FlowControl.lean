import Gantry.Proofs.Execution.FileStage

/-!
# Flow control

Pause, resume and abort against a file in execution. A request only sets a flag, which the file
honours between two lines; what a request means is therefore a property of the flags together with
the stage the file is at, and holds from the request on because every step, notice and further
request preserves it. The shutdown flag is read at the end of a line: a request to shut down that
comes after that finds the file turned to the next line, which it still shows.
-/

namespace Gantry

variable {α : Type} [Scalar α]

/-- Flow control over a run. -/
structure System.FlowControl (s : System α) (evs : List (Event α)) : Prop where
  /-- A pause that is granted while a line is executed: until a resume is granted the file begins
  no line, and if shutdown is requested by then, it never does. -/
  paused : ∀ pre ev mid post k i, evs = pre ++ ev :: (mid ++ post) → (s.run pre).Executes k i →
    (s.run pre).effect ev = .grant .pause →
    .grant .resume ∉ (s.run (pre ++ [ev])).effects mid →
    (s.run (pre ++ [ev])).begun k mid = [] ∧
      ((s.run (pre ++ ev :: mid)).engine.shutdown = true →
        (s.run (pre ++ ev :: mid)).begun k post = [])
  /-- After shutdown it begins at most one line, which is one that it has turned to by then. -/
  shutdown : ∀ pre mid post k i, evs = pre ++ (mid ++ post) → (s.run pre).Executes k i →
    (s.run (pre ++ mid)).engine.shutdown = true →
    (s.run (pre ++ mid)).begun k post <+:
      (((s.run (pre ++ mid)).engine.task? k).bind Task.turned?).toList
  /-- A line that begins after shutdown carries out none of its commands. -/
  idle : ∀ pre ev mid post k i, evs = pre ++ ev :: (mid ++ post) →
    (s.run pre).engine.shutdown = true → (s.run pre).beginning? k ev = some i →
    ((s.run (pre ++ ev :: mid)).engine.task? k).bind Task.chore? = none
  /-- An abort that is granted while a line is executed: the file begins no other line, whatever
  else is requested. -/
  aborted : ∀ pre ev post k i, evs = pre ++ ev :: post → (s.run pre).Executes k i →
    (s.run pre).effect ev = .grant .abort → (s.run (pre ++ [ev])).begun k post = []
  /-- An abort that is granted between two lines: the file begins at most one line. -/
  abortedBetween : ∀ pre ev post k, evs = pre ++ ev :: post →
    (s.run pre).engine.machine.flow.line = none → ((s.run pre).engine.task? k).isSome →
    (s.run pre).effect ev = .grant .abort → ((s.run (pre ++ [ev])).begun k post).length ≤ 1
  /-- No line is executed while the machine is paused. -/
  quiet : ∀ pre post, evs = pre ++ post → (s.run pre).engine.machine.flow.status = .paused →
    (s.run pre).engine.machine.flow.line = none
  /-- A file that begins is not paused unless a pause is granted from there on. -/
  pausedLater : ∀ pre mid post k job, evs = pre ++ .task k :: (mid ++ post) →
    (s.run pre).engine.task? k = some (.file (.enter job)) →
    .grant .pause ∉ (s.run (pre ++ [.task k])).effects mid →
    ∀ i n rest h, (s.run (pre ++ .task k :: mid)).engine.task? k ≠
      some (.file (.run i n rest (.hold h)))
  /-- A file that begins is not stopped before its last line unless an abort is granted from there
  on or shutdown is requested. -/
  stoppedLater : ∀ pre mid post k job, evs = pre ++ .task k :: (mid ++ .task k :: post) →
    (s.run pre).engine.task? k = some (.file (.enter job)) →
    .grant .abort ∉ (s.run (pre ++ [.task k])).effects mid →
    ∀ i n rest stage, (s.run (pre ++ .task k :: mid)).engine.task? k =
        some (.file (.run i n rest stage)) →
      (s.run (pre ++ .task k :: (mid ++ [.task k]))).engine.task? k = some (.file .leave) →
      (s.run (pre ++ .task k :: mid)).engine.shutdown = true ∨ rest = []

def Effect.request? : Effect α → Option Request
  | .grant r => some r
  | _ => none

omit [Scalar α] in
theorem Effect.eq_of_request? {eff : Effect α} {r : Request} (h : eff.request? = some r) :
    eff = .grant r := by
  cases eff with
  | grant q => rw [Option.some.inj h]
  | _ => cases h

namespace System

theorem Serial.executes {s : System α} (h : s.Serial) {k i : Nat} (he : s.Executes k i) :
    ∃ n rest w, s.engine.task? k = some (.file (.run i n rest (.line w))) ∧
      w.isExecuting = true := by
  obtain ⟨hl, hi⟩ := he
  obtain ⟨t, ht, hi⟩ := Option.bind_eq_some_iff.mp hi
  have hs := (h.shown.some ht).line
  rw [hl, Option.any_some] at hs
  cases t with
  | line w => cases hi
  | file w =>
    cases w with
    | run j n rest stage =>
      cases hi
      cases stage with
      | line w => exact ⟨n, rest, w, ht, hs.symm⟩
      | _ => cases hs
    | _ => cases hi

theorem after_grant {s : System α} {ev : Event α} {r : Request} (h : s.effect ev = .grant r) :
    (s.step ev).engine.shutdown = s.engine.shutdown ∧
      (s.step ev).engine.tasks = s.engine.tasks ∧
      s.engine.machine.flow.status = r.status ∧
      (s.step ev).engine.machine.flow = r.granted s.engine.machine.flow := by
  have ha := s.allows_effect ev
  rw [h] at ha
  obtain ⟨n, hn⟩ := Option.isSome_iff_exists.mp ha
  obtain ⟨hs, hf⟩ := Request.eq_of_grant hn
  refine ⟨by simp [step, h, Engine.after], by simp [step, h, Engine.after], hs, ?_⟩
  simpa [step, h, Engine.after, hn] using hf

theorem task?_after_grant {s : System α} {ev : Event α} {r : Request}
    (h : s.effect ev = .grant r) (k : Nat) : (s.step ev).engine.task? k = s.engine.task? k := by
  simp [Engine.task?, (after_grant h).2.1]

omit [Scalar α] in
theorem lt_length_of_executes {s : System α} {k i : Nat} (h : s.Executes k i) :
    k < s.engine.tasks.length := by
  obtain ⟨t, ht, -⟩ := Option.bind_eq_some_iff.mp h.2
  exact Engine.lt_length_of_task? (by simp [ht])

theorem beginFile_step {s : System α} {k : Nat} {job : FileJob α}
    (h : s.engine.task? k = some (.file (.enter job))) :
    (s.step (.task k)).engine.task? k = some (.file (FileWork.ofLines 0 job.lines.length job.lines))
      ∧ (s.step (.task k)).engine.machine.flow = s.engine.machine.flow.beginFile job.name := by
  constructor
  · exact Engine.task?_stepTask_self h
  · exact congrArg Machine.flow (Engine.machine_stepTask h)

omit [Scalar α] in
theorem within_ofLines {Q : Nat → FileStage α → Prop} (hQ : ∀ l, Q 0 (.mark l)) (n : Nat)
    (lines : List (Line α)) : (Task.file (FileWork.ofLines 0 n lines)).Within Q := by
  cases lines with
  | nil => trivial
  | cons l rest => exact hQ l

section Requests

variable {s : System α} {ev : Event α} {mid post : List (Event α)} {k i : Nat}

/-- A pause that is granted while a line is executed is pending over it. -/
theorem Serial.held_of_pause (h : s.Serial) (hx : s.Executes k i)
    (he : s.effect ev = .grant .pause) :
    (s.step ev).engine.Sees k fun shutdown f t => t.Within fun _ => FileStage.Held shutdown f := by
  intro t ht
  obtain ⟨n, rest, w, hw, hpast⟩ := h.executes hx
  rw [task?_after_grant he, hw] at ht
  cases ht
  rw [(after_grant he).2.2.2]
  exact ⟨hpast, fun _ => rfl, fun hr => by cases hr⟩

theorem begun_of_pause (h : s.Serial) (hx : s.Executes k i) (he : s.effect ev = .grant .pause)
    (h1 : (s.step ev).Serial) (hl : (s.step ev).NoLateJobs (mid ++ post))
    (hr : .grant .resume ∉ (s.step ev).effects mid) :
    (s.step ev).begun k mid = [] ∧ (((s.step ev).run mid).engine.shutdown = true →
      ((s.step ev).run mid).begun k post = []) := by
  obtain ⟨hm, hp⟩ := noLateJobs_append.mp hl
  have hk := lt_length_step (lt_length_of_executes hx) ev
  have hheld := h.held_of_pause hx he
  have hg (r : Request) (hmem : .grant r ∈ (s.step ev).effects mid) : r ≠ .resume :=
    fun e => hr (e ▸ hmem)
  constructor
  · apply List.eq_nil_iff_forall_not_mem.mpr
    refine FileStage.lasts_held.forall_mem_begun (R := fun _ => False) ?_ h1 hm hg hk hheld
    intro shutdown f t j ht hb
    obtain ⟨l, hq⟩ := ht.of_beginning? hb
    cases hq.past
  · intro hs
    have hlast := FileStage.lasts_held.run h1 hm hg hk hheld
    apply List.eq_nil_iff_forall_not_mem.mpr
    refine FileStage.lasts_past.forall_mem_begun (R := fun _ => False) ?_ (h1.run hm) hp
      (fun _ _ => trivial) (lt_length_run hk mid) ?_
    · intro shutdown f t j ht hb
      obtain ⟨l, hq⟩ := ht.of_beginning? hb
      cases hq.2
    · intro t ht
      exact (hlast t ht).mono fun _ _ hq => ⟨hs, hq.past⟩

/-- A task that executes a line of a file stays with its file, and after shutdown begins no line
that it has not turned to. -/
theorem begun_of_shutdown (h : s.Serial) (hx : s.Executes k i)
    (hl : s.NoLateJobs (mid ++ post)) (hs : (s.run mid).engine.shutdown = true) :
    (s.run mid).begun k post <+: (((s.run mid).engine.task? k).bind Task.turned?).toList := by
  obtain ⟨hm, hp⟩ := noLateJobs_append.mp hl
  have hk := lt_length_of_executes hx
  refine FileStage.lasts_stopping.begun_prefix Task.turned?_step Task.turned?_notify (h.run hm) hp
    (fun _ _ => trivial) (lt_length_run hk mid) ?_
  intro t ht
  refine (FileStage.lasts_file.run h hm (fun _ _ => trivial) hk ?_ t ht).mono fun _ _ _ => hs
  intro u hu
  obtain ⟨n, rest, w, hw, -⟩ := h.executes hx
  rw [hw] at hu
  cases hu
  trivial

theorem begun_of_abort (h : s.Serial) (hx : s.Executes k i) (he : s.effect ev = .grant .abort)
    (h1 : (s.step ev).Serial) (hl : (s.step ev).NoLateJobs post) :
    (s.step ev).begun k post = [] := by
  obtain ⟨n, rest, w, hw, hpast⟩ := h.executes hx
  have ht := (task?_after_grant he k).trans hw
  have hb := FileStage.lasts_aborting.begun_prefix Task.ahead?_step Task.ahead?_notify h1 hl
    (fun _ _ => trivial) (lt_length_step (lt_length_of_executes hx) ev) (k := k) ?_
  · have hnone : (Task.file (.run i n rest (.line w))).ahead? = none :=
      Task.turned?_of_isExecuting hpast
    rw [ht, Option.bind_some, hnone] at hb
    exact List.prefix_nil.mp hb
  · intro t ht'
    rw [ht] at ht'
    cases ht'
    rw [(after_grant he).2.2.2]
    rfl

theorem length_begun_of_abort (h : s.Serial) (hk : (s.engine.task? k).isSome)
    (he : s.effect ev = .grant .abort) (h1 : (s.step ev).Serial)
    (hl : (s.step ev).NoLateJobs post) : ((s.step ev).begun k post).length ≤ 1 := by
  obtain ⟨t, ht⟩ := Option.isSome_iff_exists.mp hk
  have ht1 := (task?_after_grant he k).trans ht
  obtain ⟨-, -, hstatus, hflow⟩ := after_grant he
  have hworking : t.status = .working := (h.shown.some ht).status.symm.trans hstatus
  have hb := FileStage.lasts_aborting.begun_prefix Task.ahead?_step Task.ahead?_notify h1 hl
    (fun _ _ => trivial) (lt_length_step (Engine.lt_length_of_task? hk) ev) (k := k) ?_
  · exact Nat.le_trans hb.length_le Option.length_toList_le
  · intro u hu
    rw [ht1] at hu
    cases hu
    rw [hflow]
    cases t with
    | line w => cases hworking
    | file w =>
      cases w with
      | run i n rest stage => rfl
      | leave => trivial
      | _ => cases hworking

theorem Serial.line_of_paused (h : s.Serial) (hp : s.engine.machine.flow.status = .paused) :
    s.engine.machine.flow.line = none := by
  apply Option.not_isSome_iff_eq_none.mp
  by_cases hn : ∀ k, s.engine.task? k = none
  · have := (h.shown.none hn).status
    rw [hp] at this
    cases this
  · obtain ⟨k, hk⟩ := not_forall.mp hn
    obtain ⟨t, ht⟩ := Option.ne_none_iff_exists'.mp hk
    obtain ⟨hs, hl⟩ := h.shown.some ht
    rw [hl, Option.any_some]
    rw [hp, Option.elim_some] at hs
    cases t with
    | line w => cases hs
    | file w =>
      cases w with
      | run i n rest stage =>
        cases stage with
        | hold k => simp [Task.isExecuting]
        | _ => cases hs
      | _ => cases hs

end Requests

section Beginning

variable {s : System α} {mid : List (Event α)} {k : Nat} {job : FileJob α}

theorem not_hold_of_begin (ht : s.engine.task? k = some (.file (.enter job)))
    (h1 : (s.step (.task k)).Serial) (hl : (s.step (.task k)).NoLateJobs mid)
    (hg : .grant .pause ∉ (s.step (.task k)).effects mid) (i n : Nat) (rest : List (Line α))
    (h : Hold) :
    ((s.step (.task k)).run mid).engine.task? k ≠ some (.file (.run i n rest (.hold h))) := by
  intro hh
  have hk := lt_length_step (Engine.lt_length_of_task? (e := s.engine) (k := k) (by simp [ht]))
    (.task k)
  obtain ⟨hfirst, hflow⟩ := beginFile_step ht
  have hlast := FileStage.lasts_unpaused.run h1 hl (fun r hr e => hg (e ▸ hr)) hk fun t ht' => by
    rw [hfirst] at ht'
    cases ht'
    exact within_ofLines (fun _ => ⟨by rw [hflow]; rfl, rfl⟩) _ _
  cases (hlast _ hh).2

theorem leave_of_begin (ht : s.engine.task? k = some (.file (.enter job)))
    (h1 : (s.step (.task k)).Serial) (hl : (s.step (.task k)).NoLateJobs mid)
    (hg : .grant .abort ∉ (s.step (.task k)).effects mid) {i n : Nat} {rest : List (Line α)}
    {stage : FileStage α} (hstage : ((s.step (.task k)).run mid).engine.task? k =
      some (.file (.run i n rest stage)))
    (hleave : (((s.step (.task k)).run mid).step (.task k)).engine.task? k =
      some (.file .leave)) :
    ((s.step (.task k)).run mid).engine.shutdown = true ∨ rest = [] := by
  have hk := lt_length_step (Engine.lt_length_of_task? (e := s.engine) (k := k) (by simp [ht]))
    (.task k)
  obtain ⟨hfirst, hflow⟩ := beginFile_step ht
  have hlast := FileStage.lasts_unaborted.run h1 hl (fun r hr e => hg (e ▸ hr)) hk fun t ht' => by
    rw [hfirst] at ht'
    cases ht'
    exact within_ofLines (fun _ => by rw [hflow]; rfl) _ _
  have hno := hlast _ hstage
  obtain ⟨v, hv, hgo⟩ := FileWork.goes_step ((s.step (.task k)).run mid).engine.shutdown
    ((s.step (.task k)).run mid).engine.machine i n rest stage
  have hstep : (((s.step (.task k)).run mid).step (.task k)).engine.task? k = some (.file v) := by
    refine (Engine.task?_stepTask_self hstage).trans ?_
    simp [Task.step, hv]
  have hv : v = .leave := by simpa [hstep] using hleave
  subst hv
  generalize hvl : (FileWork.leave : FileWork α) = v at hgo
  cases hgo with
  | aborted ha =>
    rw [show ((s.step (.task k)).run mid).engine.machine.flow.abortRequested = false from hno] at ha
    cases ha
  | stopped hs => exact Or.inl hs
  | turned hs =>
    cases rest with
    | nil => exact Or.inr rfl
    | cons l rest => cases hvl
  | _ => cases hvl

end Beginning

theorem chore?_of_begin {s : System α} (hs : s.engine.shutdown = true) {k j : Nat}
    {ev : Event α} (h : s.beginning? k ev = some j) (evs : List (Event α)) :
    (((s.step ev).run evs).engine.task? k).bind Task.chore? = none := by
  obtain ⟨t, ht, hj⟩ := task?_of_beginning? h
  have hk := Engine.lt_length_of_task? (e := s.engine) (k := k) (by simp [ht])
  have hidle : t.chore? = none := Task.chore?_of_beginning? hj
  refine chore?_run (Engine.shutdown_after hs (s.effect ev)) (lt_length_step hk ev) ?_ evs
  refine Engine.lasts_after (P := fun t => t.chore? = none) (fun h hu => Task.chore?_step h hu)
    (fun {t} h => (Task.chore?_notify t).trans h) (s.allows_effect ev) hs hk ?_
  intro u hu
  rw [ht] at hu
  cases hu
  exact hidle

theorem Serial.parts {s : System α} (h : s.Serial) {pre post : List (Event α)} {ev : Event α}
    (hl : s.NoLateJobs (pre ++ ev :: post)) :
    (s.run pre).Serial ∧ ((s.run pre).step ev).Serial ∧ ((s.run pre).step ev).NoLateJobs post := by
  obtain ⟨h1, h2, h3⟩ := noLateJobs_append.mp hl
  exact ⟨h.run h1, (h.run h1).step h2, h3⟩

theorem run_insert (s : System α) (pre : List (Event α)) (ev : Event α) (mid : List (Event α)) :
    s.run (pre ++ ev :: mid) = ((s.run pre).step ev).run mid := by
  rw [run_append, run_cons]

/-- Flow control over every run in which no job is admitted after shutdown. -/
theorem flowControl_run (machine : MachineConfig α) (config : EngineConfig α)
    (evs : List (Event α)) (hl : (start machine config).NoLateJobs evs) :
    (start machine config).FlowControl evs where
  paused := by
    rintro pre ev mid post k i rfl hx he hr
    obtain ⟨h0, h1, hl1⟩ := (serial_start machine config).parts hl
    rw [run_concat] at hr
    rw [run_concat, run_insert]
    exact begun_of_pause h0 hx he h1 hl1 hr
  shutdown := by
    rintro pre mid post k i rfl hx hs
    obtain ⟨hpre, hrest⟩ := noLateJobs_append.mp hl
    rw [run_append] at hs ⊢
    exact begun_of_shutdown ((serial_start machine config).run hpre) hx hrest hs
  idle := by
    rintro pre ev mid post k i - hs hb
    rw [run_insert]
    exact chore?_of_begin hs hb mid
  aborted := by
    rintro pre ev post k i rfl hx he
    obtain ⟨h0, h1, hl1⟩ := (serial_start machine config).parts hl
    rw [run_concat]
    exact begun_of_abort h0 hx he h1 hl1
  abortedBetween := by
    rintro pre ev post k rfl - hk he
    obtain ⟨h0, h1, hl1⟩ := (serial_start machine config).parts hl
    rw [run_concat]
    exact length_begun_of_abort h0 hk he h1 hl1
  quiet := by
    rintro pre post rfl hp
    exact ((serial_start machine config).run (noLateJobs_append.mp hl).1).line_of_paused hp
  pausedLater := by
    rintro pre mid post k job rfl ht hg i n rest h
    obtain ⟨-, h1, hl1⟩ := (serial_start machine config).parts hl
    rw [run_concat] at hg
    rw [run_insert]
    exact not_hold_of_begin ht h1 (noLateJobs_append.mp hl1).1 hg i n rest h
  stoppedLater := by
    rintro pre mid post k job rfl ht hg i n rest stage hstage hleave
    obtain ⟨-, h1, hl1⟩ := (serial_start machine config).parts hl
    rw [run_concat] at hg
    rw [run_insert] at hstage ⊢
    rw [run_insert, run_concat] at hleave
    exact leave_of_begin ht h1 (noLateJobs_append.mp hl1).1 hg hstage hleave

/-- A file of two lines that is paused over the first. -/
theorem flowControl_held_file :
    let s := start (MachineConfig.stock : MachineConfig Float) EngineConfig.stock
    let evs := [.call (.file "part.gcode" (.content "G92 X1\nG28\n".toUTF8.toList)), .client 0,
      .client 0, .task 0, .task 0, .task 0, .task 0, .call (.request .pause), .client 1, .client 1,
      .task 0, .task 0, .task 0, .task 0, .task 0, .task 0]
    (s.NoLateJobs evs ∧ (s.run evs).engine.machine.flow.status = .paused) ∧ s.FlowControl evs :=
  ⟨by decide +kernel, flowControl_run _ _ _ (by decide +kernel)⟩

/-- A pause over the first of two lines is resumed, and shutdown is requested once the file has
turned to the second line: that line begins. -/
theorem line_begun_after_shutdown :
    let s := start (MachineConfig.stock : MachineConfig Float) EngineConfig.stock
    let pre := [.call (.file "part.gcode" (.content "G92 X1\nG28\n".toUTF8.toList)), .client 0,
      .client 0, .task 0, .task 0, .task 0, .task 0, .call (.request .pause), .client 1]
    let mid := List.replicate 6 (.task 0) ++ [.call (.request .resume), .client 2, .client 2,
      .client 2] ++ List.replicate 5 (.task 0) ++ [.call .shutdown, .client 3]
    let post := [.task 0, .task 0]
    s.NoLateJobs (pre ++ .client 1 :: (mid ++ post)) ∧ (s.run pre).Executes 0 0 ∧
      (s.run pre).effect (.client 1) = .grant .pause ∧
      (s.run (pre ++ .client 1 :: mid)).engine.shutdown = true ∧
      (s.run (pre ++ .client 1 :: mid)).begun 0 post = [1] := by
  intro s pre mid post
  have hgranted : (s.run pre).effect (.client 1) = .grant .pause :=
    Effect.eq_of_request? (by decide +kernel)
  have hexecutes : (s.run pre).Executes 0 0 := ⟨by decide +kernel, by decide +kernel⟩
  exact ⟨by decide +kernel, hexecutes, hgranted, by decide +kernel, by decide +kernel⟩

end System

end Gantry
