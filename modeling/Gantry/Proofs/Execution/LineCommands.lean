import Gantry.Proofs.Execution.FlowState

/-!
# Lines and their commands

Tasks carry out the commands of the lines they begin. In every run these are the first so many
commands of those lines, one line after the other; until shutdown is requested no line is cut
short. A text that is not made of words has no commands, so that its line comes to nothing.

Nothing here says what a command does.
-/

namespace Gantry

variable {α : Type} [Scalar α]

def Gcode.commands (α : Type) [Scalar α] (text : String) : List (Gcode.Command α) :=
  (Gcode.parseLine α text).getD []

namespace LineWork

def entering? : LineWork α → Option (Line α)
  | .enter l => some l
  | _ => none

/-- The command before which a line reads the shutdown flag. -/
def upcoming? : LineWork α → Option (Gcode.Command α)
  | .next c _ => some c
  | _ => none

def left : LineWork α → List (Gcode.Command α)
  | .next c rest => c :: rest
  | .busy _ rest => rest
  | _ => []

omit [Scalar α] in
@[simp] theorem left_ofCommands (cs : List (Gcode.Command α)) : (ofCommands cs).left = cs := by
  cases cs <;> rfl

theorem left_step (m : Machine α) (w : LineWork α) :
    w.left ++ w.entering?.elim [] Line.commands =
      w.upcoming?.toList ++ (w.step false m).2.elim [] left := by
  cases w with
  | enter line => exact (left_ofCommands line.commands).symm
  | next c rest => exact List.append_nil (c :: rest)
  | busy chore rest =>
    refine (List.append_nil rest).trans ?_
    simp only [step, upcoming?, Option.toList_none, List.nil_append, Option.elim_some]
    cases (chore.step false m).2 with
    | some d => rfl
    | none => exact (left_ofCommands rest).symm
  | leave => rfl

theorem entering?_step {shutdown : Bool} {m : Machine α} {w v : LineWork α}
    (hv : (w.step shutdown m).2 = some v) : v.entering? = none := by
  cases w with
  | enter line =>
    cases hv
    cases line.commands <;> rfl
  | next c rest =>
    cases hv
    cases shutdown <;> rfl
  | busy chore rest =>
    cases hv
    split
    · rfl
    · cases rest <;> rfl
  | leave => cases hv

end LineWork

namespace FileStage

def line? : FileStage α → Option (Line α)
  | .mark l => some l
  | .line w => w.entering?
  | _ => none

end FileStage

namespace Task

def entering? : Task α → Option (Line α)
  | .line w => w.entering?
  | .file (.run _ _ _ (.line w)) => w.entering?
  | _ => none

def upcoming? : Task α → Option (Gcode.Command α)
  | .line w => w.upcoming?
  | .file (.run _ _ _ (.line w)) => w.upcoming?
  | _ => none

def left : Task α → List (Gcode.Command α)
  | .line w => w.left
  | .file (.run _ _ _ (.line w)) => w.left
  | _ => []

def lines : Task α → List (Line α)
  | .line w => w.entering?.toList
  | .file (.read job) => job.elim [] FileJob.lines
  | .file (.enter job) => job.lines
  | .file (.run _ _ rest stage) => stage.line?.toList ++ rest
  | .file .leave => []

omit [Scalar α] in
theorem mem_lines_of_entering {t : Task α} {l : Line α} (h : t.entering? = some l) :
    l ∈ t.lines := by
  cases t with
  | line w => exact Option.mem_toList.mpr h
  | file w =>
    cases w with
    | run i n rest stage =>
      cases stage with
      | line w => exact List.mem_append_left rest (Option.mem_toList.mpr h)
      | _ => cases h
    | _ => cases h

omit [Scalar α] in
theorem lines_notify (t : Task α) : t.notify.lines = t.lines :=
  t.notify_eq (f := lines) fun _ _ _ _ => rfl

omit [Scalar α] in
theorem left_notify (t : Task α) : t.notify.left = t.left :=
  t.notify_eq (f := left) fun _ _ _ _ => rfl

omit [Scalar α] in
theorem left_of_fresh {t : Task α} (h : t.Fresh) : t.left = [] := by
  cases t with
  | line w =>
    cases w with
    | enter l => rfl
    | _ => cases h
  | file w =>
    cases w with
    | read job => rfl
    | _ => cases h

omit [Scalar α] in
theorem left_of_not_executing {t : Task α} (h : t.isExecuting = false) : t.left = [] := by
  cases t with
  | line w =>
    cases w with
    | enter l => rfl
    | _ => cases h
  | file w =>
    cases w with
    | run i n rest stage =>
      cases stage with
      | line w =>
        cases w with
        | enter l => rfl
        | _ => cases h
      | _ => rfl
    | _ => rfl

theorem left_step (m : Machine α) (t : Task α) :
    t.left ++ t.entering?.elim [] Line.commands =
      t.upcoming?.toList ++ (t.step false m).2.elim [] left := by
  cases t with
  | line w =>
    refine (LineWork.left_step m w).trans ?_
    simp only [step]
    cases (w.step false m).2 <;> rfl
  | file w =>
    cases w with
    | read job => cases job <;> rfl
    | enter job =>
      simp only [step, FileWork.step_enter]
      cases job.lines <;> rfl
    | leave => rfl
    | run i n rest stage =>
      cases stage with
      | mark l => rfl
      | line w =>
        refine (LineWork.left_step m w).trans ?_
        simp only [step, FileWork.step_line]
        cases (w.step false m).2 <;> rfl
      | askPause =>
        simp only [step, FileWork.step_askPause]
        split <;> rfl
      | hold k =>
        simp only [step, FileWork.step_hold]
        split <;> rfl
      | askAbort =>
        simp only [step, FileWork.step_askAbort]
        split <;> rfl
      | askShutdown =>
        simp only [step, FileWork.step_askShutdown]
        cases rest <;> rfl

omit [Scalar α] in
theorem lines_ofLines (i n : Nat) (ls : List (Line α)) :
    (Task.file (FileWork.ofLines i n ls)).lines = ls := by
  cases ls <;> rfl

theorem lines_step {shutdown : Bool} {m : Machine α} {t u : Task α}
    (hu : (t.step shutdown m).2 = some u) : u.lines ⊆ t.lines := by
  cases t with
  | line w =>
    simp only [step, Option.map_eq_some_iff] at hu
    obtain ⟨v, hv, rfl⟩ := hu
    rw [lines, LineWork.entering?_step hv]
    exact List.nil_subset _
  | file w =>
    simp only [step, Option.map_eq_some_iff] at hu
    obtain ⟨v, hv, rfl⟩ := hu
    cases w with
    | read job =>
      obtain ⟨j, rfl, rfl⟩ := Option.map_eq_some_iff.mp hv
      exact List.Subset.refl _
    | enter job =>
      cases hv
      rw [lines_ofLines]
      exact List.Subset.refl _
    | leave => cases hv
    | run i n rest stage =>
      cases stage with
      | mark l =>
        cases hv
        exact List.Subset.refl _
      | line w =>
        rw [FileWork.step_line] at hv
        cases hv
        cases hw : (w.step shutdown m).2 with
        | some v =>
          have hnone : (FileStage.line v).line? = none := LineWork.entering?_step hw
          simp only [lines, hnone]
          exact List.subset_append_right _ rest
        | none => exact List.subset_append_right _ rest
      | askPause =>
        rw [FileWork.step_askPause] at hv
        cases hv
        split <;> exact List.Subset.refl _
      | hold k =>
        rw [FileWork.step_hold] at hv
        cases hv
        split <;> exact List.Subset.refl _
      | askAbort =>
        rw [FileWork.step_askAbort] at hv
        cases hv
        split
        · exact List.nil_subset _
        · exact List.Subset.refl _
      | askShutdown =>
        rw [FileWork.step_askShutdown] at hv
        cases hv
        split
        · exact List.nil_subset _
        · rw [lines_ofLines]
          exact List.Subset.refl _

end Task

theorem Client.exists_ofText {call : Call} {job : Task α} (h : (ofCall call).job? = some job)
    {l : Line α} (hl : l ∈ job.lines) : ∃ raw, l = Line.ofText raw := by
  cases call with
  | line text =>
    cases h
    exact ⟨text, List.mem_singleton.mp hl⟩
  | file path file =>
    cases h
    cases htext : file.text? with
    | none =>
      rw [htext] at hl
      cases hl
    | some text =>
      rw [htext] at hl
      obtain ⟨raw, -, rfl⟩ := List.mem_map.mp hl
      exact ⟨raw, rfl⟩
  | _ => cases h

namespace System

variable {s : System α}

def upcoming? (s : System α) (k : Nat) : Option (Gcode.Command α) :=
  if s.engine.shutdown then none else (s.engine.task? k).bind Task.upcoming?

def entering? (s : System α) (k : Nat) : Option String :=
  ((s.engine.task? k).bind Task.entering?).map Line.text

/-- The commands that are carried out in a run, by whichever task, in order. -/
def executed (s : System α) : List (Event α) → List (Gcode.Command α) :=
  s.notes upcoming?

/-- The texts of the lines that are begun in a run, by whichever task, in order. -/
def entered (s : System α) : List (Event α) → List String :=
  s.notes entering?

def left (s : System α) (k : Nat) : List (Gcode.Command α) :=
  (s.engine.task? k).elim [] Task.left

theorem executed_concat (s : System α) (evs : List (Event α)) (ev : Event α) :
    s.executed (evs ++ [ev]) =
      s.executed evs ++ (ev.task?.bind (s.run evs).upcoming?).toList :=
  s.notes_concat _ evs ev

theorem entered_concat (s : System α) (evs : List (Event α)) (ev : Event α) :
    s.entered (evs ++ [ev]) = s.entered evs ++ (ev.task?.bind (s.run evs).entering?).toList :=
  s.notes_concat _ evs ev

/-- What is the same of a job and of no task, and not changed by notice, is changed by steps
alone. -/
theorem Orderly.eq_of_ne {β : Type} {f : Option (Task α) → β}
    (hfresh : ∀ {job : Task α}, job.Fresh → f (some job) = f none)
    (hnotify : ∀ t : Task α, f (some t.notify) = f (some t)) (ho : s.Orderly) {ev : Event α}
    (hne : ∀ k, s.effect ev ≠ .step k) (k : Nat) :
    f ((s.step ev).engine.task? k) = f (s.engine.task? k) := by
  have hc := s.taskChange ev k
  generalize (s.step ev).engine.task? k = u at hc
  generalize he : s.effect ev = eff at hc
  cases hc with
  | @admitted job hk =>
    have hnone : s.engine.task? k = none := by
      by_contra hsome
      have hlt := Engine.lt_length_of_task? (Option.isSome_iff_ne_none.mpr hsome)
      omega
    rw [hnone]
    exact hfresh (ho.fresh_of_accept he)
  | stepped ht => exact absurd he (hne k)
  | noticed =>
    cases s.engine.task? k with
    | none => rfl
    | some t => exact hnotify t
  | same => rfl

/-- Every task has its lines from the job of a call that was admitted. -/
def Traced (s : System α) : Prop :=
  ∀ k t, s.engine.task? k = some t → ∃ (j : Nat) (job : Task α),
    s.clients[j]? = some (.admitted job k) ∧
      (∃ call, (Client.ofCall call).job? = some job) ∧ t.lines ⊆ job.lines

theorem traced_start (machine : MachineConfig α) (config : EngineConfig α) :
    (start machine config).Traced := by
  intro k t ht
  simp [start, Engine.ofParts, Engine.task?] at ht

theorem Traced.step (h : s.Traced) (ho : s.Orderly) (ev : Event α) : (s.step ev).Traced := by
  intro k u hu
  have hc := s.taskChange ev k
  rw [hu] at hc
  generalize hv : some u = v at hc
  generalize he : s.effect ev = eff at hc
  cases hc with
  | @admitted job hk =>
    cases hv
    obtain ⟨-, j, hj⟩ := accept_next he
    exact ⟨j, u, hk ▸ hj, ho.exists_call he, List.Subset.refl _⟩
  | stepped ht =>
    obtain ⟨j, job, hj, hcall, hsub⟩ := h k _ ht
    exact ⟨j, job, admitted_next hj, hcall, List.Subset.trans (Task.lines_step hv.symm) hsub⟩
  | noticed =>
    obtain ⟨t, ht, rfl⟩ := Option.map_eq_some_iff.mp hv.symm
    obtain ⟨j, job, hj, hcall, hsub⟩ := h k t ht
    rw [Task.lines_notify]
    exact ⟨j, job, admitted_next hj, hcall, hsub⟩
  | same =>
    obtain ⟨j, job, hj, hcall, hsub⟩ := h k u hv.symm
    exact ⟨j, job, admitted_next hj, hcall, hsub⟩

theorem traced_run (ho : s.Orderly) (h : s.Traced) (evs : List (Event α)) : (s.run evs).Traced := by
  induction evs using List.reverseRecOn with
  | nil => exact h
  | append_singleton evs ev ih =>
    rw [run_concat]
    exact ih.step (orderly_run ho evs) ev

theorem Traced.commands (h : s.Traced) {k : Nat} {t : Task α} {l : Line α}
    (ht : s.engine.task? k = some t) (hl : t.entering? = some l) :
    l.commands = Gcode.commands α l.text := by
  obtain ⟨j, job, -, ⟨call, hcall⟩, hsub⟩ := h k t ht
  obtain ⟨raw, rfl⟩ := Client.exists_ofText hcall (hsub (Task.mem_lines_of_entering hl))
  rfl

/-- What is carried out and what is left of the line in execution make up `spelled`, where no
other line is in execution. -/
def Spends (s : System α) (executed spelled : List (Gcode.Command α)) : Prop :=
  ∀ k, (∀ l, l ≠ k → s.left l = []) → executed ++ s.left k = spelled

variable {executed spelled : List (Gcode.Command α)}

omit [Scalar α] in
theorem Spends.congr {r : System α} (h : s.Spends executed spelled)
    (hleft : ∀ k, r.left k = s.left k) : r.Spends executed spelled := by
  intro k hk
  rw [hleft k]
  exact h k fun l hl => (hleft l).symm.trans (hk l hl)

theorem Spends.step_task (h : s.Spends executed spelled) (hdown : s.engine.shutdown = false)
    (hu : s.engine.Unique) (htraced : s.Traced) (k : Nat) :
    (s.step (.task k)).Spends (executed ++ (s.upcoming? k).toList)
      (spelled ++ (s.entering? k).elim [] (Gcode.commands α)) := by
  cases ht : s.engine.task? k with
  | none =>
    have hengine : (s.step (.task k)).engine = s.engine := Engine.stepTask_of_none ht
    have hup : s.upcoming? k = none := by
      rw [upcoming?, ht]
      exact ite_self _
    have hnone : s.entering? k = none := by
      rw [entering?, ht]
      rfl
    rw [hup, hnone, Option.toList_none, Option.elim_none, List.append_nil, List.append_nil]
    exact h.congr fun l => by rw [left, left, hengine]
  | some t =>
    have hup : s.upcoming? k = t.upcoming? := by
      rw [upcoming?, hdown, ht]
      rfl
    have hline : (s.entering? k).elim [] (Gcode.commands α) =
        t.entering?.elim [] Line.commands := by
      rw [entering?, ht, Option.bind_some]
      cases hl : t.entering? with
      | none => rfl
      | some l => exact (htraced.commands ht hl).symm
    have hother (l : Nat) (hlk : l ≠ k) : s.left l = [] := by
      rw [left, hu.none_of_ne ht hlk, Option.elim_none]
    have hbefore : executed ++ t.left = spelled := by
      have := h k hother
      rwa [left, ht, Option.elim_some] at this
    have hself : (s.step (.task k)).left k =
        (t.step false s.engine.machine).2.elim [] Task.left := by
      rw [← hdown]
      exact congrArg (Option.elim · [] Task.left) (Engine.task?_stepTask_self ht)
    have hafter : executed ++ t.upcoming?.toList ++ (s.step (.task k)).left k =
        spelled ++ t.entering?.elim [] Line.commands := by
      rw [hself, List.append_assoc, ← Task.left_step, ← List.append_assoc, hbefore]
    rw [hup, hline]
    intro l hl
    by_cases hlk : l = k
    · rw [hlk]
      exact hafter
    · have hlater : (s.step (.task k)).left l = s.left l :=
        congrArg (Option.elim · [] Task.left) (Engine.task?_stepTask_of_ne s.engine hlk)
      rw [hl k (Ne.symm hlk)] at hafter
      rw [hlater, hother l hlk]
      exact hafter

omit [Scalar α] in
theorem Spends.inOrder (h : s.Spends executed spelled) (hu : s.engine.Unique) :
    executed <+: spelled := by
  by_cases hk : ∃ k t, s.engine.task? k = some t
  · obtain ⟨k, t, ht⟩ := hk
    refine ⟨s.left k, h k fun l hl => ?_⟩
    rw [left, hu.none_of_ne ht hl, Option.elim_none]
  · refine ⟨s.left 0, h 0 fun l _ => ?_⟩
    cases ht : s.engine.task? l with
    | none => rw [left, ht, Option.elim_none]
    | some t => exact absurd ⟨l, t, ht⟩ hk

omit [Scalar α] in
theorem Spends.eq_of_quiet (h : s.Spends executed spelled)
    (hquiet : ∀ k t, s.engine.task? k = some t → t.isExecuting = false) : executed = spelled := by
  have hleft (k : Nat) : s.left k = [] := by
    cases ht : s.engine.task? k with
    | none => rw [left, ht, Option.elim_none]
    | some t =>
      rw [left, ht, Option.elim_some]
      exact Task.left_of_not_executing (hquiet k t ht)
  have hall := h 0 fun l _ => hleft l
  rwa [hleft 0, List.append_nil] at hall

/-- The commands carried out are the first ones of those that are spelled, and until shutdown all
but those left of the line in execution. -/
structure Follows (s : System α) (executed spelled : List (Gcode.Command α)) : Prop where
  inOrder : executed <+: spelled
  spends : s.engine.shutdown = false → s.Spends executed spelled

theorem Follows.step_task (h : s.Follows executed spelled) (ho : s.Orderly) (htraced : s.Traced)
    (hx : s.engine.shutdown = false → s.engine.Exclusive) (k : Nat) :
    (s.step (.task k)).Follows (executed ++ (s.upcoming? k).toList)
      (spelled ++ (s.entering? k).elim [] (Gcode.commands α)) := by
  have hsame : (s.step (.task k)).engine.shutdown = s.engine.shutdown :=
    Engine.shutdown_stepTask s.engine k
  cases hs : s.engine.shutdown with
  | true =>
    have hup : s.upcoming? k = none := if_pos hs
    rw [hup, Option.toList_none, List.append_nil]
    constructor
    · exact h.inOrder.trans (List.prefix_append _ _)
    · intro hdown
      rw [hsame, hs] at hdown
      cases hdown
  | false =>
    have hspends := (h.spends hs).step_task hs (hx hs).unique htraced k
    exact ⟨hspends.inOrder (ho.exclusive_step hs (hx hs) (.task k)).unique, fun _ => hspends⟩

theorem Follows.step_of_ne (h : s.Follows executed spelled) (ho : s.Orderly) {ev : Event α}
    (hne : ∀ k, s.effect ev ≠ .step k) : (s.step ev).Follows executed spelled := by
  refine ⟨h.inOrder, fun hdown => ?_⟩
  have hs : s.engine.shutdown = false := by
    cases hs : s.engine.shutdown with
    | false => rfl
    | true =>
      have hup : (s.step ev).engine.shutdown = true := Engine.shutdown_after hs (s.effect ev)
      rw [hup] at hdown
      cases hdown
  refine (h.spends hs).congr fun k => ?_
  exact ho.eq_of_ne (f := (·.elim [] Task.left)) Task.left_of_fresh Task.left_notify hne k

/-- In every run the commands carried out are those of the lines begun. -/
theorem follows_run (machine : MachineConfig α) (config : EngineConfig α)
    (evs : List (Event α)) : ((start machine config).run evs).Follows
      ((start machine config).executed evs)
      (((start machine config).entered evs).flatMap (Gcode.commands α)) := by
  induction evs using List.reverseRecOn with
  | nil =>
    refine ⟨List.prefix_refl _, fun _ k _ => ?_⟩
    simp [left, start, Engine.ofParts, Engine.task?, executed, entered, notes]
  | append_singleton evs ev ih =>
    have ho := orderly_run (orderly_start machine config) evs
    have htraced := traced_run (orderly_start machine config) (traced_start machine config) evs
    have hx := exclusive_of_not_shutdown (orderly_start machine config)
      (exclusive_start machine config) evs
    rw [executed_concat, entered_concat, run_concat, List.flatMap_append]
    generalize (start machine config).run evs = s at ih ho htraced hx ⊢
    by_cases hev : ∃ k, ev = .task k
    · obtain ⟨k, rfl⟩ := hev
      have hstep := ih.step_task ho htraced hx k
      have hlist : (s.entering? k).toList.flatMap (Gcode.commands α) =
          (s.entering? k).elim [] (Gcode.commands α) := by
        cases s.entering? k <;> simp
      rw [← hlist] at hstep
      exact hstep
    · have hne (k : Nat) : s.effect ev ≠ .step k := fun hstep => hev ⟨k, event_of_effect hstep⟩
      have hnote : ev.task? = none := by
        cases ev with
        | task k => exact absurd ⟨k, rfl⟩ hev
        | _ => rfl
      rw [hnote, Option.bind_none, Option.bind_none, Option.toList_none, Option.toList_none,
        List.flatMap_nil, List.append_nil, List.append_nil]
      exact ih.step_of_ne ho hne

theorem exists_job_of_entered (machine : MachineConfig α) (config : EngineConfig α)
    {evs : List (Event α)} {text : String} (h : text ∈ (start machine config).entered evs) :
    ∃ (j k : Nat) (job : Task α),
      ((start machine config).run evs).clients[j]? = some (.admitted job k) ∧
        ∃ l ∈ job.lines, l.text = text := by
  induction evs using List.reverseRecOn with
  | nil => cases h
  | append_singleton evs ev ih =>
    rw [entered_concat] at h
    rw [run_concat]
    rcases List.mem_append.mp h with h | h
    · obtain ⟨j, k, job, hj, hl⟩ := ih h
      exact ⟨j, k, job, admitted_next hj, hl⟩
    · obtain ⟨k, -, hk⟩ := Option.bind_eq_some_iff.mp (Option.mem_toList.mp h)
      obtain ⟨l, hl, htext⟩ := Option.map_eq_some_iff.mp hk
      obtain ⟨t, ht, hl⟩ := Option.bind_eq_some_iff.mp hl
      obtain ⟨j, job, hj, -, hsub⟩ :=
        traced_run (orderly_start machine config) (traced_start machine config) evs k t ht
      exact ⟨j, k, job, admitted_next hj, l, hsub (Task.mem_lines_of_entering hl), htext⟩

/-- Until shutdown a line is carried out whole before its text is withdrawn. -/
theorem executed_eq (machine : MachineConfig α) (config : EngineConfig α) {evs : List (Event α)}
    (hdown : ((start machine config).run evs).engine.shutdown = false)
    (hline : ((start machine config).run evs).engine.machine.flow.line = none) :
    (start machine config).executed evs =
      ((start machine config).entered evs).flatMap (Gcode.commands α) := by
  have hserial := (serial_start machine config).run (noLateJobs_of_not_shutdown hdown)
  refine ((follows_run machine config evs).spends hdown).eq_of_quiet fun k t ht => ?_
  have hshows := (hserial.shown.some ht).line
  rw [hline] at hshows
  exact hshows.symm

end System

end Gantry
