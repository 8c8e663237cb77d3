import Gantry.Proofs.Execution.Bookkeeping

/-!
# The lines of a file

A file starts its lines one after the other. Whatever comes in between, a line is neither left out
nor started twice, so that what was started at any time is the first so many lines; and only an
abort or a shutdown keeps a file that is over from having started them all. The progress is known
from the number of lines alone, and therefore rises with it.

Nothing here says that a file comes to its end, nor what its lines do.
-/

namespace Gantry

variable {α : Type} [Scalar α]

/-- The line of its file that the next step of the task starts. -/
def Task.starting? : Task α → Option (Line α)
  | .file (.run _ _ _ (.line (.enter l))) => some l
  | _ => none

/-- The lines of its file that task `k` starts in a run, in order. -/
def System.started (s : System α) (k : Nat) : List (Event α) → List (Line α) :=
  s.notes fun s l => if l = k then (s.engine.task? k).bind Task.starting? else none

def FileJob.progress (total : Nat) : Nat → Nat
  | 0 => 0
  | i + 1 => FileStage.percent i total

/-- What becomes of the file of task `k` in a run from its admission on. -/
structure System.RunsInOrder (s : System α) (k : Nat) (lines : List (Line α))
    (evs : List (Event α)) : Prop where
  /-- The lines that are started are the first lines of the file. -/
  inOrder : s.started k evs <+: lines
  /-- They are all lines, where the file is over and nothing has stopped it. -/
  whole : .grant .abort ∉ s.effects evs → (s.run evs).engine.shutdown = false →
    (s.run evs).engine.task? k = none → s.started k evs = lines
  /-- The progress when a line is started, by the number of lines before it. -/
  before : ∀ pre post i l, evs = pre ++ .task k :: post →
    ((s.run pre).engine.task? k).bind Task.starting? = some l → (s.started k pre).length = i →
    lines[i]? = some l ∧
      (s.run pre).engine.machine.flow.progress = 10 + 80 * i / lines.length
  /-- From the first line on, while the file is not over. -/
  range : ∀ pre post, evs = pre ++ post → s.started k pre ≠ [] →
    ((s.run pre).engine.task? k).isSome → 10 ≤ (s.run pre).engine.machine.flow.progress ∧
      (s.run pre).engine.machine.flow.progress ≤ 89
  /-- Once the file has begun its progress does not decrease. -/
  rising : ∀ pre mid post t, evs = pre ++ (mid ++ post) → (s.run pre).engine.task? k = some t →
    t.status ≠ .idle → ((s.run (pre ++ mid)).engine.task? k).isSome →
    (s.run pre).engine.machine.flow.progress ≤ (s.run (pre ++ mid)).engine.machine.flow.progress
  /-- After the file, until another one has begun. -/
  ended : ∀ pre post, evs = pre ++ post → (s.run pre).engine.task? k = none →
    (∀ l t, (s.run pre).engine.task? l = some t → t.status = .idle) →
    (s.run pre).engine.machine.flow.progress = 100

/-- How the files of a run fare. -/
structure System.FileOrder (s : System α) (evs : List (Event α)) : Prop where
  text : ∀ pre post k name text, evs = pre ++ post →
    (s.run pre).engine.task? k = some (Task.ofFile name (some text)) →
    (s.run pre).RunsInOrder k ((Text.lines text).map Line.ofText) post
  /-- A file that is not text starts no line, and the machine is not changed by it. -/
  noText : ∀ pre post k name, evs = pre ++ post →
    (s.run pre).engine.task? k = some (Task.ofFile name none) →
    (s.run pre).started k post = [] ∧ ∀ mid rest, post = mid ++ .task k :: rest →
      ((s.run (pre ++ mid)).step (.task k)).engine.machine = (s.run (pre ++ mid)).engine.machine

namespace FileStage

variable {stage : FileStage α}

omit [Scalar α] in
theorem isMarked_of_isPast (h : stage.isPast = true) : stage.isMarked = true := by
  cases stage with
  | mark l => cases h
  | _ => rfl

omit [Scalar α] in
theorem starting?_of_isPast (h : stage.isPast = true) (i n : Nat) (rest : List (Line α)) :
    (Task.file (.run i n rest stage)).starting? = none := by
  cases stage with
  | line w =>
    cases w with
    | enter l => cases h
    | _ => rfl
  | _ => rfl

end FileStage

/-- A file of some lines by those it has started: where its task stands, and what the flow then
shows. `stopped` is what may keep it from starting the others. -/
inductive FileJob.Stands (lines : List (Line α)) (stopped : Prop) (f : Flow) :
    List (Line α) → Option (Task α) → Prop where
  | fresh {job : FileJob α} (h : job.lines = lines) :
      Stands lines stopped f [] (some (.file (.read (some job))))
  | entering {job : FileJob α} (h : job.lines = lines) :
      Stands lines stopped f [] (some (.file (.enter job)))
  | turned {started rest : List (Line α)} {l : Line α} {i : Nat}
      (hlines : started ++ l :: rest = lines) (hi : started.length = i)
      (hp : f.progress = progress lines.length i) (ha : f.abortRequested = true → stopped) :
      Stands lines stopped f started (some (.file (.run i lines.length rest (.mark l))))
  | marked {started rest : List (Line α)} {l : Line α} {i : Nat}
      (hlines : started ++ l :: rest = lines) (hi : started.length = i)
      (hp : f.progress = progress lines.length (i + 1)) (ha : f.abortRequested = true → stopped) :
      Stands lines stopped f started (some (.file (.run i lines.length rest (.line (.enter l)))))
  | past {started rest : List (Line α)} {i : Nat} {stage : FileStage α}
      (hpast : stage.isPast = true) (hlines : started ++ rest = lines)
      (hi : started.length = i + 1) (hp : f.progress = progress lines.length (i + 1))
      (ha : f.abortRequested = true → stopped) :
      Stands lines stopped f started (some (.file (.run i lines.length rest stage)))
  | leaving {started : List (Line α)} (hlines : started <+: lines)
      (hall : stopped ∨ started = lines) (hp : f.progress = progress lines.length started.length) :
      Stands lines stopped f started (some (.file .leave))
  | gone {started : List (Line α)} (hlines : started <+: lines)
      (hall : stopped ∨ started = lines) (hp : f.status = .idle → f.progress = 100) :
      Stands lines stopped f started none

namespace FileJob.Stands

variable {lines started : List (Line α)} {p q : Prop} {f g : Flow} {t : Option (Task α)}

omit [Scalar α] in
theorem mono (h : Stands lines p f started t) (hpq : p → q) : Stands lines q f started t := by
  cases h with
  | fresh h => exact .fresh h
  | entering h => exact .entering h
  | turned hlines hi hp ha => exact .turned hlines hi hp (hpq ∘ ha)
  | marked hlines hi hp ha => exact .marked hlines hi hp (hpq ∘ ha)
  | past hpast hlines hi hp ha => exact .past hpast hlines hi hp (hpq ∘ ha)
  | leaving hlines hall hp => exact .leaving hlines (hall.imp_left hpq) hp
  | gone hlines hall hp => exact .gone hlines (hall.imp_left hpq) hp

omit [Scalar α] in
theorem congr (h : Stands lines p f started t) (hstatus : g.status = f.status)
    (hprogress : g.progress = f.progress) (habort : g.abortRequested = true →
      f.abortRequested = true ∨ p) : Stands lines p g started t := by
  have hstop (ha : f.abortRequested = true → p) (hg : g.abortRequested = true) : p :=
    (habort hg).elim ha id
  cases h with
  | fresh h => exact .fresh h
  | entering h => exact .entering h
  | turned hlines hi hp ha => exact .turned hlines hi (hprogress.trans hp) (hstop ha)
  | marked hlines hi hp ha => exact .marked hlines hi (hprogress.trans hp) (hstop ha)
  | past hpast hlines hi hp ha => exact .past hpast hlines hi (hprogress.trans hp) (hstop ha)
  | leaving hlines hall hp => exact .leaving hlines hall (hprogress.trans hp)
  | gone hlines hall hp => exact .gone hlines hall (by rw [hstatus, hprogress]; exact hp)

omit [Scalar α] in
theorem notify (h : Stands lines p f started t) :
    Stands lines p f started (t.map Task.notify) := by
  cases h with
  | fresh h => exact .fresh h
  | entering h => exact .entering h
  | turned hlines hi hp ha => exact .turned hlines hi hp ha
  | marked hlines hi hp ha => exact .marked hlines hi hp ha
  | @past _ _ _ stage hpast hlines hi hp ha =>
    cases stage with
    | hold k => exact .past rfl hlines hi hp ha
    | _ => exact .past hpast hlines hi hp ha
  | leaving hlines hall hp => exact .leaving hlines hall hp
  | gone hlines hall hp => exact .gone hlines hall hp

omit [Scalar α] in
theorem length_lt {l : Line α} {rest : List (Line α)} (h : started ++ l :: rest = lines) :
    started.length < lines.length := by
  rw [← h, List.length_append, List.length_cons]
  omega

omit [Scalar α] in
theorem ofLines {rest : List (Line α)} {i : Nat} (hlines : started ++ rest = lines)
    (hi : started.length = i) (hp : f.progress = progress lines.length i)
    (ha : f.abortRequested = true → p) :
    Stands lines p f started (some (.file (FileWork.ofLines i lines.length rest))) := by
  cases rest with
  | nil =>
    rw [List.append_nil] at hlines
    exact .leaving (hlines ▸ List.prefix_refl _) (Or.inr hlines) (hi ▸ hp)
  | cons l rest => exact .turned hlines hi hp ha

/-- A line that has been started goes on to its end, and the file from there to the next one. -/
theorem step_past {m : Machine α} {shutdown : Bool} {rest : List (Line α)} {i : Nat}
    {stage : FileStage α} {v : FileWork α} (hpast : stage.isPast = true)
    (hlines : started ++ rest = lines) (hi : started.length = i + 1)
    (hp : m.flow.progress = progress lines.length (i + 1))
    (ha : m.flow.abortRequested = true → p) (hs : shutdown = true → p)
    (hgo : stage.Goes shutdown m.flow i lines.length rest v) :
    Stands lines p ((FileWork.run i lines.length rest stage).step shutdown m).1.flow started
      (some (.file v)) := by
  have hprogress := (FileStage.progress_step shutdown m i lines.length rest
    (FileStage.isMarked_of_isPast hpast)).trans hp
  have hkept (hne : stage ≠ .askAbort) (hg : ((FileWork.run i lines.length rest stage).step
      shutdown m).1.flow.abortRequested = true) : p := by
    rw [FileWork.abortRequested_step shutdown m i lines.length rest stage hne] at hg
    exact ha hg
  have hfirst : started <+: lines := ⟨rest, hlines⟩
  cases hgo with
  | entering l => cases hpast
  | within hv => exact .past hv hlines hi hprogress (hkept (by simp))
  | finished hw => exact .past rfl hlines hi hprogress (hkept (by simp))
  | pausing hp => exact .past rfl hlines hi hprogress (hkept (by simp))
  | unpaused hp => exact .past rfl hlines hi hprogress (hkept (by simp))
  | holding hk hh => exact .past rfl hlines hi hprogress (hkept (by simp))
  | released => exact .past rfl hlines hi hprogress (hkept (by simp))
  | aborted hreq => exact .leaving hfirst (Or.inl (ha hreq)) (hi ▸ hprogress)
  | unaborted hreq => exact .past rfl hlines hi hprogress nofun
  | stopped hdown => exact .leaving hfirst (Or.inl (hs hdown)) (hi ▸ hprogress)
  | turned hdown => exact ofLines hlines hi hprogress (hkept (by simp))

theorem step {m : Machine α} {t : Task α} {shutdown : Bool}
    (h : Stands lines p m.flow started (some t)) (hs : shutdown = true → p) :
    Stands lines p (t.step shutdown m).1.flow (started ++ t.starting?.toList)
      (t.step shutdown m).2 := by
  cases h with
  | fresh h => exact .entering h
  | @entering job h =>
    subst h
    exact ofLines rfl rfl rfl nofun
  | @turned _ rest l i hlines hi hp ha =>
    have hlt := length_lt hlines
    rw [hi] at hlt
    have hle := FileStage.percent_le hlt
    have hkeep : started ++ (Task.file (.run i lines.length rest (.mark l))).starting?.toList =
        started := List.append_nil _
    rw [hkeep]
    exact .marked hlines hi (Nat.min_eq_left (by omega)) ha
  | @marked _ rest l i hlines hi hp ha =>
    exact .past (LineWork.isExecuting_ofCommands l.commands)
      (by simpa [Task.starting?] using hlines)
      (by simp [Task.starting?, hi]) hp ha
  | @past _ rest i stage hpast hlines hi hp ha =>
    obtain ⟨v, hv, hgo⟩ := FileWork.goes_step shutdown m i lines.length rest stage
    have hnext : ((Task.file (.run i lines.length rest stage)).step shutdown m).2 =
        some (.file v) := by
      simp [Task.step, hv]
    rw [FileStage.starting?_of_isPast hpast, hnext, Option.toList_none, List.append_nil]
    exact step_past hpast hlines hi hp ha hs hgo
  | leaving hlines hall hp =>
    have hkeep : started ++ (Task.file (.leave : FileWork α)).starting?.toList = started :=
      List.append_nil _
    rw [hkeep]
    exact .gone hlines hall fun _ => rfl

omit [Scalar α] in
theorem inOrder (h : Stands lines p f started t) : started <+: lines := by
  cases h with
  | fresh h => exact List.nil_prefix
  | entering h => exact List.nil_prefix
  | turned hlines hi hp ha => exact ⟨_, hlines⟩
  | marked hlines hi hp ha => exact ⟨_, hlines⟩
  | past hpast hlines hi hp ha => exact ⟨_, hlines⟩
  | leaving hlines hall hp => exact hlines
  | gone hlines hall hp => exact hlines

omit [Scalar α] in
theorem of_gone (h : Stands lines p f started none) :
    (p ∨ started = lines) ∧ (f.status = .idle → f.progress = 100) := by
  cases h with
  | gone hlines hall hp => exact ⟨hall, hp⟩

omit [Scalar α] in
theorem of_starting {u : Task α} {l : Line α} (h : Stands lines p f started (some u))
    (hl : u.starting? = some l) : ∃ rest, started ++ l :: rest = lines ∧
      f.progress = FileStage.percent started.length lines.length := by
  cases h with
  | fresh h => cases hl
  | entering h => cases hl
  | turned hlines hi hp ha => cases hl
  | marked hlines hi hp ha =>
    cases hl
    exact ⟨_, hlines, hi ▸ hp⟩
  | past hpast hlines hi hp ha =>
    rw [FileStage.starting?_of_isPast hpast] at hl
    cases hl
  | leaving hlines hall hp => cases hl

omit [Scalar α] in
theorem range {u : Task α} (h : Stands lines p f started (some u)) (hne : started ≠ []) :
    10 ≤ f.progress ∧ f.progress ≤ 89 := by
  have hlevel {i : Nat} (hp : f.progress = progress lines.length (i + 1))
      (hi : i + 1 ≤ lines.length) : 10 ≤ f.progress ∧ f.progress ≤ 89 := by
    rw [hp]
    exact ⟨FileStage.le_percent i lines.length, FileStage.percent_le hi⟩
  obtain ⟨n, hn⟩ := Nat.exists_eq_succ_of_ne_zero (mt List.length_eq_zero_iff.mp hne)
  cases h with
  | fresh h => exact absurd rfl hne
  | entering h => exact absurd rfl hne
  | turned hlines hi hp ha =>
    have hlt := length_lt hlines
    rw [← hi, hn] at hp
    exact hlevel hp (by omega)
  | marked hlines hi hp ha =>
    have hlt := length_lt hlines
    exact hlevel hp (by omega)
  | past hpast hlines hi hp ha =>
    have hle := List.IsPrefix.length_le ⟨_, hlines⟩
    exact hlevel hp (by omega)
  | leaving hlines hall hp =>
    have hlength := hlines.length_le
    rw [hn] at hp
    exact hlevel hp (by omega)

theorem progress_le {m : Machine α} {u v : Task α} {shutdown : Bool}
    (h : Stands lines p m.flow started (some u)) (hu : u.status ≠ .idle)
    (hv : (u.step shutdown m).2 = some v) :
    m.flow.progress ≤ (u.step shutdown m).1.flow.progress := by
  cases h with
  | fresh h => exact absurd rfl hu
  | entering h => exact absurd rfl hu
  | @turned _ rest l i hlines hi hp ha =>
    have hlt := length_lt hlines
    rw [hi] at hlt
    have hle := FileStage.percent_le hlt
    have hnext : ((Task.file (.run i lines.length rest (.mark l))).step shutdown m).1.flow.progress
        = FileStage.percent i lines.length := Nat.min_eq_left (by omega)
    rw [hnext, hp]
    cases i with
    | zero => exact Nat.zero_le _
    | succ i =>
      have hdiv : i * 80 / lines.length ≤ (i + 1) * 80 / lines.length :=
        Nat.div_le_div_right (by omega)
      exact Nat.add_le_add_left hdiv 10
  | marked hlines hi hp ha => exact Nat.le_refl _
  | @past _ rest i stage hpast hlines hi hp ha =>
    exact Nat.le_of_eq (FileStage.progress_step shutdown m i lines.length rest
      (FileStage.isMarked_of_isPast hpast)).symm
  | leaving hlines hall hp => cases hv

end FileJob.Stands

namespace Task

omit [Scalar α] in
theorem status_ne_idle_iff {t : Task α} : t.status ≠ .idle ↔ t.Within fun _ _ => True := by
  constructor
  · intro h
    cases t with
    | line w => exact absurd rfl h
    | file w =>
      cases w with
      | read job => exact absurd rfl h
      | enter job => exact absurd rfl h
      | _ => trivial
  · intro hwithin h
    cases t with
    | line w => cases hwithin
    | file w =>
      cases w with
      | read job => cases hwithin
      | enter job => cases hwithin
      | leave => cases h
      | run i n rest stage =>
        cases stage with
        | hold k => cases k <;> cases h
        | _ => cases h

end Task

namespace Engine

theorem idle_after {e : Engine α} (hs : e.Shown) {eff : Effect α} (ha : e.Allows eff)
    (h : e.machine.flow.status = .idle → e.machine.flow.progress = 100)
    (hidle : (e.after eff).machine.flow.status = .idle) :
    (e.after eff).machine.flow.progress = 100 := by
  cases eff with
  | accept job =>
    have hmachine : (e.after (.accept job)).machine = e.machine := by
      rw [after, submit_eq ha]
    rw [hmachine] at hidle ⊢
    exact h hidle
  | grant r =>
    obtain ⟨n, hn, hmachine⟩ := exists_grant ha
    rw [hmachine, Request.flow_of_grant hn] at hidle ⊢
    rw [Request.status_granted] at hidle
    cases r <;> exact h hidle
  | drift m =>
    have hm : m.flow = e.machine.flow := ha.flow
    change m.flow.status = .idle at hidle
    change m.flow.progress = 100
    rw [hm] at hidle ⊢
    exact h hidle
  | step k =>
    cases ht : e.task? k with
    | none =>
      rw [after, stepTask_of_none ht] at hidle ⊢
      exact h hidle
    | some t =>
      have hnext := (hs.some ht).step e.shutdown
      rw [after, machine_stepTask ht] at hidle ⊢
      have hstatus := hnext.status.symm.trans hidle
      cases t with
      | line w =>
        obtain ⟨text, htext⟩ := w.flow_step e.shutdown e.machine
        change (w.step e.shutdown e.machine).1.flow.status = .idle at hidle
        change (w.step e.shutdown e.machine).1.flow.progress = 100
        rw [htext] at hidle ⊢
        exact h hidle
      | file w =>
        cases w with
        | read job => exact h hidle
        | enter job => cases hidle
        | leave => rfl
        | run i n rest stage =>
          obtain ⟨v, hv, -⟩ := FileWork.goes_step e.shutdown e.machine i n rest stage
          have hv' : ((Task.file (.run i n rest stage)).step e.shutdown e.machine).2 =
              some (.file v) := by
            simp [Task.step, hv]
          have hwithin : (Task.file v).Within fun _ _ => True :=
            FileStage.lasts_file.step (t := .file (.run i n rest stage)) trivial hv'
          rw [hv', Option.elim_some] at hstatus
          exact absurd hstatus (Task.status_ne_idle_iff.mpr hwithin)
  | _ => exact h hidle

end Engine

namespace System

variable {s : System α} {k : Nat} {lines started : List (Line α)} {p : Prop}

theorem Serial.status_idle (h : s.Serial)
    (hidle : ∀ l t, s.engine.task? l = some t → t.status = .idle) :
    s.engine.machine.flow.status = .idle := by
  by_cases hnone : ∀ l, s.engine.task? l = none
  · exact (h.shown.none hnone).status
  · obtain ⟨l, hl⟩ := not_forall.mp hnone
    obtain ⟨t, ht⟩ := Option.ne_none_iff_exists'.mp hl
    exact (h.shown.some ht).status.trans (hidle l t ht)

theorem Serial.stands_of_ne (hs : s.Serial) (hk : k < s.engine.tasks.length)
    (h : FileJob.Stands lines p s.engine.machine.flow started (s.engine.task? k)) {ev : Event α}
    (hne : s.effect ev ≠ .step k) (hgrant : s.effect ev = .grant .abort → p) :
    FileJob.Stands lines p (s.step ev).engine.machine.flow started
      ((s.step ev).engine.task? k) := by
  have ha := s.allows_effect ev
  change FileJob.Stands lines p (s.engine.after (s.effect ev)).machine.flow started
    ((s.engine.after (s.effect ev)).task? k)
  generalize s.effect ev = eff at ha hne hgrant ⊢
  cases eff with
  | accept job =>
    have hmachine : (s.engine.after (.accept job)).machine = s.engine.machine := by
      rw [Engine.after, Engine.submit_eq ha]
    rw [hmachine, Engine.after, Engine.task?_submit_of_ne ha job (Nat.ne_of_lt hk)]
    exact h
  | step l =>
    have hkl : k ≠ l := fun hkl => hne (hkl ▸ rfl)
    cases hl : s.engine.task? l with
    | none =>
      rw [Engine.after, Engine.stepTask_of_none hl]
      exact h
    | some t =>
      -- The file is over, since another task is not.
      have hover := Engine.Unique.none_of_ne hs.unique hl hkl
      rw [hover] at h
      rw [Engine.after, Engine.task?_stepTask_of_ne s.engine hkl, hover]
      cases h with
      | gone hlines hall hp => exact .gone hlines hall (Engine.idle_after hs.shown ha hp)
  | notice =>
    rw [Engine.after, Engine.task?_notify]
    exact h.notify
  | grant r =>
    obtain ⟨n, hn, hmachine⟩ := Engine.exists_grant ha
    have htask : (s.engine.after (.grant r)).task? k = s.engine.task? k := rfl
    rw [hmachine, htask, Request.flow_of_grant hn]
    cases r with
    | abort => exact h.congr rfl rfl fun _ => Or.inr (hgrant rfl)
    | _ => exact h.congr rfl rfl Or.inl
  | drift m =>
    have hm : m.flow = s.engine.machine.flow := ha.flow
    change FileJob.Stands lines p m.flow started (s.engine.task? k)
    rw [hm]
    exact h
  | _ => exact h

theorem stands_stepTask (hdown : s.engine.shutdown = true → p)
    (h : FileJob.Stands lines p s.engine.machine.flow started (s.engine.task? k)) :
    FileJob.Stands lines p (s.step (.task k)).engine.machine.flow
      (started ++ ((s.engine.task? k).bind Task.starting?).toList)
      ((s.step (.task k)).engine.task? k) := by
  change FileJob.Stands lines p (s.engine.stepTask k).machine.flow _
    ((s.engine.stepTask k).task? k)
  cases ht : s.engine.task? k with
  | none =>
    rw [ht] at h
    rw [Engine.stepTask_of_none ht, ht, Option.bind_none, Option.toList_none, List.append_nil]
    exact h
  | some t =>
    rw [ht] at h
    rw [Engine.machine_stepTask ht, Engine.task?_stepTask_self ht, Option.bind_some]
    exact h.step hdown

theorem started_concat (s : System α) (k : Nat) (evs : List (Event α)) (ev : Event α) :
    s.started k (evs ++ [ev]) = s.started k evs ++ (ev.task?.bind fun l =>
      if l = k then ((s.run evs).engine.task? k).bind Task.starting? else none).toList :=
  s.notes_concat _ evs ev

/-- A file from its admission on stands where the lines it has started say. -/
theorem Serial.stands_run (hs : s.Serial) {name text : String}
    (ht : s.engine.task? k = some (Task.ofFile name (some text))) {evs : List (Event α)}
    (hl : s.NoLateJobs evs) :
    FileJob.Stands ((Text.lines text).map Line.ofText)
      (.grant .abort ∈ s.effects evs ∨ (s.run evs).engine.shutdown = true)
      (s.run evs).engine.machine.flow (s.started k evs) ((s.run evs).engine.task? k) := by
  have hk := Engine.lt_length_of_task? (Option.isSome_iff_exists.mpr ⟨_, ht⟩)
  induction evs using List.reverseRecOn with
  | nil =>
    rw [run_nil, ht]
    exact .fresh rfl
  | append_singleton evs ev ih =>
    obtain ⟨hfirst, -⟩ := noLateJobs_append.mp hl
    have hserial := hs.run hfirst
    have hup (hdown : (s.run evs).engine.shutdown = true) :
        ((s.run evs).step ev).engine.shutdown = true :=
      Engine.shutdown_after hdown ((s.run evs).effect ev)
    have hbefore := (ih hfirst).mono (q := .grant .abort ∈ s.effects (evs ++ [ev]) ∨
        (s.run (evs ++ [ev])).engine.shutdown = true) fun hstop => by
      rw [effects_concat, run_concat]
      exact hstop.imp (List.mem_append_left _) hup
    rw [started_concat, run_concat] at *
    by_cases hev : ev = .task k
    · subst hev
      have hnote : (Event.task? (α := α) (.task k)).bind (fun l => if l = k then
          ((s.run evs).engine.task? k).bind Task.starting? else none) =
          ((s.run evs).engine.task? k).bind Task.starting? := by
        simp [Event.task?]
      rw [hnote]
      exact stands_stepTask (fun hdown => Or.inr (hup hdown)) hbefore
    · have hnote : ev.task?.bind (fun l => if l = k then
          ((s.run evs).engine.task? k).bind Task.starting? else none) = none := by
        cases ev with
        | task l =>
          have hlk : l ≠ k := fun hlk => hev (hlk ▸ rfl)
          simp [Event.task?, hlk]
        | _ => rfl
      rw [hnote, Option.toList_none, List.append_nil]
      refine hserial.stands_of_ne (lt_length_run hk evs) hbefore (hev ∘ event_of_effect)
        fun hgrant => ?_
      rw [effects_concat, hgrant]
      exact Or.inl (List.mem_append_right _ (List.mem_singleton_self _))

theorem Serial.progress_of_ne (hs : s.Serial) {t : Task α} (ht : s.engine.task? k = some t)
    {ev : Event α} (hne : s.effect ev ≠ .step k) :
    (s.step ev).engine.machine.flow.progress = s.engine.machine.flow.progress := by
  have ha := s.allows_effect ev
  change (s.engine.after (s.effect ev)).machine.flow.progress = _
  generalize s.effect ev = eff at ha hne ⊢
  cases eff with
  | accept job => rw [Engine.after, Engine.submit_eq ha]
  | step l =>
    have hlk : l ≠ k := fun hlk => hne (hlk ▸ rfl)
    rw [Engine.after, Engine.stepTask_of_none (Engine.Unique.none_of_ne hs.unique ht hlk)]
  | grant r =>
    obtain ⟨n, hn, hmachine⟩ := Engine.exists_grant ha
    rw [hmachine, Request.flow_of_grant hn]
    cases r <;> rfl
  | drift m =>
    have hm : m.flow = s.engine.machine.flow := ha.flow
    exact congrArg Flow.progress hm
  | _ => rfl

theorem Serial.progress_le_step (hs : s.Serial) {t u : Task α}
    (h : FileJob.Stands lines p s.engine.machine.flow started (s.engine.task? k))
    (ht : s.engine.task? k = some t) (hbegun : t.status ≠ .idle) {ev : Event α}
    (hu : (s.step ev).engine.task? k = some u) :
    s.engine.machine.flow.progress ≤ (s.step ev).engine.machine.flow.progress := by
  by_cases hev : ev = .task k
  · subst hev
    have hnext : (t.step s.engine.shutdown s.engine.machine).2 = some u :=
      (Engine.task?_stepTask_self ht).symm.trans hu
    have hmachine : (s.step (.task k)).engine.machine =
        (t.step s.engine.shutdown s.engine.machine).1 := Engine.machine_stepTask ht
    rw [ht] at h
    rw [hmachine]
    exact h.progress_le hbegun hnext
  · exact Nat.le_of_eq (hs.progress_of_ne ht (hev ∘ event_of_effect)).symm

theorem Serial.progress_le_run (hs : s.Serial) {name text : String}
    (ht : s.engine.task? k = some (Task.ofFile name (some text))) {pre mid : List (Event α)}
    (hl : s.NoLateJobs (pre ++ mid)) {t : Task α} (hpre : (s.run pre).engine.task? k = some t)
    (hbegun : t.status ≠ .idle) (hmid : ((s.run (pre ++ mid)).engine.task? k).isSome) :
    (s.run pre).engine.machine.flow.progress ≤
      (s.run (pre ++ mid)).engine.machine.flow.progress := by
  have hk := Engine.lt_length_of_task? (Option.isSome_iff_exists.mpr ⟨_, ht⟩)
  have hstart := hs.run (noLateJobs_append.mp hl).1
  induction mid using List.reverseRecOn with
  | nil => exact Nat.le_of_eq (by rw [List.append_nil])
  | append_singleton mid ev ih =>
    rw [← List.append_assoc] at hl hmid ⊢
    have hfirst := (noLateJobs_append.mp hl).1
    rw [run_concat] at hmid ⊢
    have hserial := hs.run hfirst
    cases hu : (s.run (pre ++ mid)).engine.task? k with
    | none =>
      have hover := Engine.over_after ((s.run (pre ++ mid)).allows_effect ev)
        (lt_length_run hk (pre ++ mid)) hu
      exact absurd (hmid.symm.trans (congrArg Option.isSome hover)) nofun
    | some u =>
      have hwithin : u.Within fun _ _ => True := by
        have hsees := FileStage.lasts_file.run hstart (noLateJobs_append.mp hfirst).2
          (fun _ _ => trivial) (lt_length_run hk pre) fun v hv => by
            rw [hpre] at hv
            cases hv
            exact Task.status_ne_idle_iff.mp hbegun
        rw [← run_append] at hsees
        exact hsees u hu
      obtain ⟨v, hv⟩ := Option.isSome_iff_exists.mp hmid
      have hle := hserial.progress_le_step (hs.stands_run ht hfirst) hu
        (Task.status_ne_idle_iff.mpr hwithin) hv
      exact Nat.le_trans (ih hfirst (by rw [hu]; rfl)) hle

theorem Serial.runsInOrder (hs : s.Serial) {name text : String}
    (ht : s.engine.task? k = some (Task.ofFile name (some text))) {evs : List (Event α)}
    (hl : s.NoLateJobs evs) : s.RunsInOrder k ((Text.lines text).map Line.ofText) evs where
  inOrder := (hs.stands_run ht hl).inOrder
  whole := by
    intro hgrant hdown hover
    have h := hs.stands_run ht hl
    rw [hover] at h
    rcases h.of_gone.1 with (hstop | hstop) | hall
    · exact absurd hstop hgrant
    · rw [hdown] at hstop
      cases hstop
    · exact hall
  before := by
    rintro pre post i l rfl hstarting rfl
    have h := hs.stands_run ht (noLateJobs_append.mp hl).1
    obtain ⟨t, htask, hl⟩ := Option.bind_eq_some_iff.mp hstarting
    rw [htask] at h
    obtain ⟨rest, hlines, hp⟩ := h.of_starting hl
    constructor
    · rw [← hlines, List.getElem?_append_right (Nat.le_refl _), Nat.sub_self]
      rfl
    · rw [hp, Nat.mul_comm]
      rfl
  range := by
    rintro pre post rfl hne hon
    have h := hs.stands_run ht (noLateJobs_append.mp hl).1
    obtain ⟨t, htask⟩ := Option.isSome_iff_exists.mp hon
    rw [htask] at h
    exact h.range hne
  rising := by
    rintro pre mid post t rfl hpre hbegun hmid
    rw [← List.append_assoc] at hl
    exact hs.progress_le_run ht (noLateJobs_append.mp hl).1 hpre hbegun hmid
  ended := by
    rintro pre post rfl hover hidle
    have hpre := (noLateJobs_append.mp hl).1
    have h := hs.stands_run ht hpre
    rw [hover] at h
    exact h.of_gone.2 ((hs.run hpre).status_idle hidle)

theorem lasts_unreadable :
    Lasts (α := α) (fun _ => True) fun _ _ t => t = .file (.read none) where
  step := by
    intro shutdown m t u ht hu
    subst ht
    cases hu
  notice := by
    intro shutdown f t ht
    rw [ht]
    rfl
  grant := fun _ h _ => h
  raise := fun h => h

theorem started_eq_nil {evs : List (Event α)} (h : ∀ mid rest, evs = mid ++ .task k :: rest →
    ((s.run mid).engine.task? k).bind Task.starting? = none) : s.started k evs = [] := by
  induction evs using List.reverseRecOn with
  | nil => rfl
  | append_singleton evs ev ih =>
    have hbefore := ih fun mid rest hevs => h mid (rest ++ [ev]) (by rw [hevs]; simp)
    rw [started_concat, hbefore, List.nil_append]
    cases ev with
    | task l =>
      by_cases hlk : l = k
      · subst hlk
        simp [Event.task?, h evs [] rfl]
      · simp [Event.task?, hlk]
    | _ => rfl

/-- Every file is executed line by line, in every run in which no job is admitted after
shutdown. -/
theorem fileOrder_run (machine : MachineConfig α) (config : EngineConfig α)
    (evs : List (Event α)) (hl : (start machine config).NoLateJobs evs) :
    (start machine config).FileOrder evs where
  text := by
    rintro pre post k name text rfl ht
    obtain ⟨hpre, hpost⟩ := noLateJobs_append.mp hl
    exact ((serial_start machine config).run hpre).runsInOrder ht hpost
  noText := by
    rintro pre post k name rfl ht
    obtain ⟨hpre, hpost⟩ := noLateJobs_append.mp hl
    have hs := (serial_start machine config).run hpre
    have hk := Engine.lt_length_of_task? (Option.isSome_iff_exists.mpr ⟨_, ht⟩)
    have hsees (mid rest : List (Event α)) (hmid : post = mid ++ .task k :: rest) (t : Task α)
        (hmidt : (((start machine config).run pre).run mid).engine.task? k = some t) :
        t = .file (.read none) := by
      subst hmid
      refine lasts_unreadable.run hs (noLateJobs_append.mp hpost).1 (fun _ _ => trivial) hk ?_ t
        hmidt
      intro u hu
      rw [ht] at hu
      cases hu
      rfl
    constructor
    · apply started_eq_nil
      intro mid rest hmid
      cases ht : (((start machine config).run pre).run mid).engine.task? k with
      | none => rfl
      | some t =>
        rw [hsees mid rest hmid t ht]
        rfl
    · intro mid rest hmid
      rw [run_append]
      have ht := hsees mid rest hmid
      generalize ((start machine config).run pre).run mid = s at ht
      change (s.engine.stepTask k).machine = s.engine.machine
      cases hk : s.engine.task? k with
      | none => rw [Engine.stepTask_of_none hk]
      | some t =>
        rw [Engine.machine_stepTask hk, ht t hk]
        rfl

/-- A file of two lines, up to where it starts the second. -/
theorem fileOrder_two_lines :
    let s := start (MachineConfig.stock : MachineConfig Float) EngineConfig.stock
    let pre : List (Event Float) := [.call (.file "part.gcode" (.content
      "G92 X1\nG28\n".toUTF8.toList)), .client 0, .client 0]
    let post := List.replicate 12 (.task 0)
    (s.NoLateJobs (pre ++ post) ∧
      (s.run pre).engine.task? 0 = some (Task.ofFile "part" (some "G92 X1\nG28\n")) ∧
      ((s.run pre).started 0 post).map Line.text = ["G92 X1", "G28"]) ∧
      s.FileOrder (pre ++ post) :=
  ⟨by decide +kernel, fileOrder_run _ _ _ (by decide +kernel)⟩

end System

end Gantry
