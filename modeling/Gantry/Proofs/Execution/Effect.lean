import Gantry.Proofs.Execution.Interleaving

/-!
# Effects on tasks and machine

What each effect does to the tasks, the slot, the shutdown flag and the machine. Only an admission
adds a task, only a step moves one on, and a task that is over stays over.
-/

namespace Gantry

variable {α : Type} [Scalar α]

omit [Scalar α] in
theorem Request.exists_flow_of_grant {m n : Machine α} {r : Request} (h : r.grant? m = some n) :
    ∃ f, n = { m with flow := f } := by
  cases r with
  | pause =>
    obtain ⟨f, -, rfl⟩ := Option.map_eq_some_iff.mp h
    exact ⟨f, rfl⟩
  | resume =>
    obtain ⟨f, -, rfl⟩ := Option.map_eq_some_iff.mp h
    exact ⟨f, rfl⟩
  | abort =>
    obtain ⟨f, -, rfl⟩ := Option.map_eq_some_iff.mp h
    exact ⟨f, rfl⟩

namespace Engine

omit [Scalar α] in
theorem task?_eq_some_iff {e : Engine α} {k : Nat} {t : Task α} :
    e.task? k = some t ↔ e.tasks[k]? = some (some t) := by
  unfold task?
  cases e.tasks[k]? <;> simp

omit [Scalar α] in
theorem lt_length_of_task? {e : Engine α} {k : Nat} (h : (e.task? k).isSome) :
    k < e.tasks.length := by
  obtain ⟨t, ht⟩ := Option.isSome_iff_exists.mp h
  exact (List.getElem?_eq_some_iff.mp (task?_eq_some_iff.mp ht)).1

omit [Scalar α] in
theorem isBusy_iff {e : Engine α} :
    e.isBusy = true ↔ ∃ k, e.slot = some k ∧ (e.task? k).isSome := by
  unfold isBusy
  cases e.slot <;> simp

omit [Scalar α] in
theorem submit_eq {e : Engine α} (h : e.isBusy = false) (job : Task α) :
    (e.submit job).1 =
      { e with tasks := e.tasks ++ [some job], slot := some e.tasks.length } := by
  simp [submit, h]

omit [Scalar α] in
theorem task?_submit_self {e : Engine α} (h : e.isBusy = false) (job : Task α) :
    (e.submit job).1.task? e.tasks.length = some job := by
  simp [submit_eq h, task?]

omit [Scalar α] in
theorem task?_submit_of_ne {e : Engine α} (h : e.isBusy = false) (job : Task α) {k : Nat}
    (hk : k ≠ e.tasks.length) : (e.submit job).1.task? k = e.task? k := by
  simp only [submit_eq h, task?]
  rcases Nat.lt_or_gt_of_ne hk with hk | hk
  · rw [List.getElem?_append_left hk]
  · rw [List.getElem?_eq_none (by simp; omega), List.getElem?_eq_none (by omega)]

theorem stepTask_eq {e : Engine α} {k : Nat} {t : Task α} (h : e.task? k = some t) :
    e.stepTask k = e.advance k (t.step e.shutdown e.machine) := by
  simp [stepTask, h]

theorem stepTask_of_none {e : Engine α} {k : Nat} (h : e.task? k = none) :
    e.stepTask k = e := by
  simp [stepTask, h]

theorem task?_stepTask_self {e : Engine α} {k : Nat} {t : Task α} (h : e.task? k = some t) :
    (e.stepTask k).task? k = (t.step e.shutdown e.machine).2 := by
  have hk := lt_length_of_task? (Option.isSome_iff_exists.mpr ⟨t, h⟩)
  simp [stepTask_eq h, advance, task?, hk]

theorem task?_stepTask_of_ne (e : Engine α) {k l : Nat} (h : l ≠ k) :
    (e.stepTask k).task? l = e.task? l := by
  unfold stepTask
  split
  · simp [advance, task?, List.getElem?_set_ne h.symm]
  · rfl

theorem machine_stepTask {e : Engine α} {k : Nat} {t : Task α} (h : e.task? k = some t) :
    (e.stepTask k).machine = (t.step e.shutdown e.machine).1 := by
  simp [stepTask_eq h, advance]

@[simp] theorem shutdown_stepTask (e : Engine α) (k : Nat) :
    (e.stepTask k).shutdown = e.shutdown := by
  unfold stepTask
  split <;> rfl

@[simp] theorem slot_stepTask (e : Engine α) (k : Nat) : (e.stepTask k).slot = e.slot := by
  unfold stepTask
  split <;> rfl

@[simp] theorem length_stepTask (e : Engine α) (k : Nat) :
    (e.stepTask k).tasks.length = e.tasks.length := by
  unfold stepTask
  split
  · simp [advance]
  · rfl

omit [Scalar α] in
@[simp] theorem task?_notify (e : Engine α) (k : Nat) :
    e.notify.task? k = (e.task? k).map Task.notify := by
  simp only [notify, task?, List.getElem?_map]
  cases e.tasks[k]? <;> rfl

/-- An admission meets an engine that is not busy, and a granted request one whose machine grants
it. -/
def Allows (e : Engine α) : Effect α → Prop
  | .accept _ => e.isBusy = false
  | .grant r => (r.grant? e.machine).isSome = true
  | .drift m => e.machine.SameCourse m
  | _ => True

theorem exists_grant {e : Engine α} {r : Request} (ha : e.Allows (.grant r)) :
    ∃ n, r.grant? e.machine = some n ∧ (e.after (.grant r)).machine = n := by
  obtain ⟨n, hn⟩ := Option.isSome_iff_exists.mp ha
  exact ⟨n, hn, by simp [after, hn]⟩

/-- How a task may have changed by an effect: it was admitted, it made a step, it was given notice,
or it is what it was. -/
inductive TaskChange (e : Engine α) (k : Nat) : Effect α → Option (Task α) → Prop where
  | admitted {job : Task α} (hk : k = e.tasks.length) : TaskChange e k (.accept job) (some job)
  | stepped {t : Task α} (ht : e.task? k = some t) :
      TaskChange e k (.step k) (t.step e.shutdown e.machine).2
  | noticed : TaskChange e k .notice ((e.task? k).map Task.notify)
  | same {eff : Effect α} (hs : eff ≠ .step k ∨ e.task? k = none)
      (ha : ∀ job, eff = .accept job → k ≠ e.tasks.length) (hn : eff ≠ .notice) :
      TaskChange e k eff (e.task? k)

theorem taskChange_after {e : Engine α} {eff : Effect α} (ha : e.Allows eff) (k : Nat) :
    TaskChange e k eff ((e.after eff).task? k) := by
  cases eff with
  | accept job =>
    by_cases hk : k = e.tasks.length
    · have := task?_submit_self ha job
      simp only [after, hk, this]
      exact .admitted rfl
    · simp only [after, task?_submit_of_ne ha job hk]
      exact .same (Or.inl (by simp)) (fun _ _ => hk) (by simp)
  | step l =>
    by_cases hk : k = l
    · subst hk
      cases ht : e.task? k with
      | some t =>
        simp only [after, task?_stepTask_self ht]
        exact .stepped ht
      | none =>
        simp only [after, stepTask_of_none ht]
        exact .same (Or.inr ht) (by simp) (by simp)
    · simp only [after, task?_stepTask_of_ne e hk]
      exact .same (Or.inl (by simpa using fun h => hk h.symm)) (by simp) (by simp)
  | notice =>
    simp only [after, task?_notify]
    exact .noticed
  | idle => exact .same (Or.inl (by simp)) (by simp) (by simp)
  | grant r => exact .same (Or.inl (by simp)) (by simp) (by simp)
  | raise => exact .same (Or.inl (by simp)) (by simp) (by simp)
  | letGo => exact .same (Or.inl (by simp)) (by simp) (by simp)
  | drift m => exact .same (Or.inl (by simp)) (by simp) (by simp)

theorem length_after_le (e : Engine α) (eff : Effect α) :
    e.tasks.length ≤ (e.after eff).tasks.length := by
  cases eff with
  | accept job =>
    simp only [after, submit]
    split
    · exact Nat.le_refl _
    · simp
  | step k => simp [after]
  | notice => simp [after, notify]
  | _ => exact Nat.le_refl _

theorem length_after_of_not_accept (e : Engine α) {eff : Effect α} (h : ∀ job, eff ≠ .accept job) :
    (e.after eff).tasks.length = e.tasks.length := by
  cases eff with
  | accept job => exact absurd rfl (h job)
  | step k => simp [after]
  | notice => simp [after, notify]
  | _ => rfl

theorem shutdown_after {e : Engine α} (h : e.shutdown = true) (eff : Effect α) :
    (e.after eff).shutdown = true := by
  cases eff with
  | accept job =>
    simp only [after, submit]
    split <;> exact h
  | step k => simpa [after] using h
  | raise => rfl
  | _ => exact h

theorem over_after {e : Engine α} {eff : Effect α} (ha : e.Allows eff) {k : Nat}
    (hk : k < e.tasks.length) (h : e.task? k = none) : (e.after eff).task? k = none := by
  have := taskChange_after ha k
  generalize (e.after eff).task? k = t at this
  cases this with
  | admitted he => omega
  | stepped ht => simp [h] at ht
  | noticed => simp [h]
  | same => exact h

/-- What steps after shutdown and notices preserve lasts of a task, whatever happens besides. -/
theorem lasts_after {P : Task α → Prop}
    (hstep : ∀ {m : Machine α} {t u : Task α}, P t → (t.step true m).2 = some u → P u)
    (hnotice : ∀ {t : Task α}, P t → P t.notify) {e : Engine α} {eff : Effect α}
    (ha : e.Allows eff) (hs : e.shutdown = true) {k : Nat} (hk : k < e.tasks.length)
    (h : ∀ t, e.task? k = some t → P t) : ∀ t, (e.after eff).task? k = some t → P t := by
  intro u hu
  have hc := taskChange_after ha k
  rw [hu] at hc
  generalize hv : some u = v at hc
  cases hc with
  | admitted hl => omega
  | stepped ht =>
    rw [hs] at hv
    exact hstep (h _ ht) hv.symm
  | noticed =>
    obtain ⟨t, ht, rfl⟩ := Option.map_eq_some_iff.mp hv.symm
    exact hnotice (h t ht)
  | same => exact h u hv.symm

end Engine

namespace Client

/-- A client, what its next section does to an engine, and the client after it. -/
inductive Acts (e : Engine α) : Client α → Effect α → Client α → Prop where
  | pass {job : Task α} {readable : Bool} (h : (e.isBusy || !readable) = false) :
      Acts e (.look job readable) .idle (.submit job)
  | turnAway {job : Task α} {readable : Bool} (h : (e.isBusy || !readable) = true) :
      Acts e (.look job readable) .idle (.refused job)
  | accept {job : Task α} (h : e.isBusy = false) :
      Acts e (.submit job) (.accept job) (.admitted job e.tasks.length)
  | refuse {job : Task α} (h : e.isBusy = true) : Acts e (.submit job) .idle (.refused job)
  | approach {r : Request} (h : e.isBusy = true) : Acts e (.approach r) .idle (.ask r)
  | ignore {r : Request} (h : e.isBusy = false) : Acts e (.approach r) .idle (.answered false)
  | grant {r : Request} (h : (r.grant? e.machine).isSome = true) (hr : r ≠ .resume) :
      Acts e (.ask r) (.grant r) (.answered true)
  | grantResume (h : (Request.resume.grant? e.machine).isSome = true) :
      Acts e (.ask .resume) (.grant .resume) .announce
  | deny {r : Request} (h : r.grant? e.machine = none) : Acts e (.ask r) .idle (.answered false)
  | announce : Acts e .announce .notice (.answered true)
  | raise {closing : Bool} : Acts e (.raise closing) .raise (.alert closing)
  | alert : Acts e (.alert false) .notice (.answered true)
  | alertClosing : Acts e (.alert true) .notice .letGo
  | letGo : Acts e .letGo .letGo (.join e.slot)
  | wait {slot : Option Nat} (h : (slot.bind e.task?).isSome = true) :
      Acts e (.join slot) .idle (.join slot)
  | joined {slot : Option Nat} (h : slot.bind e.task? = none) :
      Acts e (.join slot) .idle (.answered true)
  | admitted {job : Task α} {k : Nat} : Acts e (.admitted job k) .idle (.admitted job k)
  | refused {job : Task α} : Acts e (.refused job) .idle (.refused job)
  | answered {granted : Bool} : Acts e (.answered granted) .idle (.answered granted)

omit [Scalar α] in
theorem acts (e : Engine α) (c : Client α) : c.Acts e (c.effect e) (c.next e) := by
  cases c with
  | look job readable =>
    cases h : e.isBusy || !readable with
    | false => simpa [effect, next, h] using Acts.pass h
    | true => simpa [effect, next, h] using Acts.turnAway h
  | submit job =>
    cases h : e.isBusy with
    | false => simpa [effect, next, h] using Acts.accept h
    | true => simpa [effect, next, h] using Acts.refuse h
  | approach r =>
    cases h : e.isBusy with
    | false => simpa [effect, next, h] using Acts.ignore h
    | true => simpa [effect, next, h] using Acts.approach h
  | ask r =>
    cases h : r.grant? e.machine with
    | none => simpa [effect, next, h] using Acts.deny h
    | some m =>
      by_cases hr : r = .resume
      · subst hr
        simpa [effect, next, h] using Acts.grantResume (by simp [h])
      · simpa [effect, next, h, hr] using Acts.grant (by simp [h]) hr
  | alert closing =>
    cases closing with
    | false => exact .alert
    | true => exact .alertClosing
  | join slot =>
    cases h : slot.bind e.task? with
    | none => simpa [effect, next, h] using Acts.joined h
    | some t => simpa [effect, next, h] using Acts.wait (by simp [h])
  | admitted job k => exact .admitted
  | refused job => exact .refused
  | announce => exact .announce
  | raise closing => exact .raise
  | letGo => exact .letGo
  | answered granted => exact .answered

/-- The client has raised the shutdown flag and is about to go on from there. -/
def HasRaised : Client α → Prop
  | .alert _ => True
  | .letGo => True
  | _ => False

namespace Acts

variable {e : Engine α} {c d : Client α} {eff : Effect α}

omit [Scalar α] in
theorem allows (h : c.Acts e eff d) : e.Allows eff := by
  cases h with
  | accept hb => exact hb
  | grant hg => exact hg
  | grantResume hg => exact hg
  | _ => trivial

omit [Scalar α] in
theorem job?_eq (h : c.Acts e eff d) : d.job? = c.job? := by
  cases h <;> rfl

omit [Scalar α] in
theorem hasRaised (h : c.Acts e eff d) (hd : d.HasRaised) : c.HasRaised ∨ eff = .raise := by
  cases h with
  | raise => exact Or.inr rfl
  | alertClosing => exact Or.inl trivial
  | _ => cases hd

omit [Scalar α] in
theorem of_admitted {job : Task α} {k : Nat} (h : c.Acts e eff (.admitted job k)) :
    c = .admitted job k ∨ eff = .accept job ∧ k = e.tasks.length := by
  cases h with
  | accept hb => exact Or.inr ⟨rfl, rfl⟩
  | admitted => exact Or.inl rfl

omit [Scalar α] in
theorem of_accept {job : Task α} (h : c.Acts e (.accept job) d) :
    c = .submit job ∧ e.isBusy = false := by
  cases h with
  | accept hb => exact ⟨rfl, hb⟩

omit [Scalar α] in
theorem of_letGo (h : c.Acts e .letGo d) : c = .letGo := by
  cases h
  rfl

omit [Scalar α] in
theorem idle_of_refused (h : c.Acts e eff d) (hj : c.job?.isSome)
    (hd : ∀ job k, d ≠ .admitted job k) : eff = .idle := by
  cases h with
  | accept hb => exact absurd rfl (hd _ _)
  | grant hg => cases hj
  | grantResume hg => cases hj
  | announce => cases hj
  | raise => cases hj
  | alert => cases hj
  | alertClosing => cases hj
  | letGo => cases hj
  | _ => rfl

end Acts

end Client

namespace System

theorem allows_effect (s : System α) (ev : Event α) : s.engine.Allows (s.effect ev) := by
  cases ev with
  | call c => trivial
  | client j =>
    simp only [effect]
    split
    · rename_i c hc
      exact (c.acts s.engine).allows
    · trivial
  | task k => trivial
  | tick =>
    simp only [effect]
    split
    · rename_i e he
      obtain ⟨m, hm, he⟩ := ok_of_bind he
      cases he
      exact Machine.sameCourse_of_run hm
    · trivial
  | set x =>
    simp only [effect]
    split
    · rename_i m hm
      exact Setting.sameCourse_of_apply hm
    · trivial

theorem taskChange (s : System α) (ev : Event α) (k : Nat) :
    Engine.TaskChange s.engine k (s.effect ev) ((s.step ev).engine.task? k) :=
  Engine.taskChange_after (s.allows_effect ev) k

theorem shutdown_run {s : System α} (h : s.engine.shutdown = true) (evs : List (Event α)) :
    (s.run evs).engine.shutdown = true :=
  run_induction (P := fun s => s.engine.shutdown = true)
    (fun s ev h => Engine.shutdown_after h (s.effect ev)) h evs

theorem lasts_run {P : Task α → Prop}
    (hstep : ∀ {m : Machine α} {t u : Task α}, P t → (t.step true m).2 = some u → P u)
    (hnotice : ∀ {t : Task α}, P t → P t.notify) {s : System α} (hs : s.engine.shutdown = true)
    {k : Nat} (hk : k < s.engine.tasks.length) (h : ∀ t, s.engine.task? k = some t → P t)
    (evs : List (Event α)) : ∀ t, (s.run evs).engine.task? k = some t → P t := by
  induction evs generalizing s with
  | nil => exact h
  | cons ev evs ih =>
    have hl := Engine.length_after_le s.engine (s.effect ev)
    exact ih (Engine.shutdown_after hs (s.effect ev)) (Nat.lt_of_lt_of_le hk hl)
      (Engine.lasts_after hstep hnotice (s.allows_effect ev) hs hk h)

theorem length_run_le (s : System α) (evs : List (Event α)) :
    s.engine.tasks.length ≤ (s.run evs).engine.tasks.length :=
  run_induction (P := fun u => s.engine.tasks.length ≤ u.engine.tasks.length)
    (fun u ev h => Nat.le_trans h (Engine.length_after_le u.engine (u.effect ev)))
    (Nat.le_refl _) evs

theorem over_run {s : System α} {k : Nat} (hk : k < s.engine.tasks.length)
    (h : s.engine.task? k = none) (evs : List (Event α)) :
    (s.run evs).engine.task? k = none := by
  induction evs generalizing s with
  | nil => exact h
  | cons ev evs ih =>
    have hl := Engine.length_after_le s.engine (s.effect ev)
    exact ih (Nat.lt_of_lt_of_le hk hl) (Engine.over_after (s.allows_effect ev) hk h)

end System

def Task.Fresh : Task α → Prop
  | .line (.enter _) => True
  | .file (.read _) => True
  | _ => False

namespace System

/-- Clients submit the jobs they were called for, and let go of a task only after shutdown. -/
structure Orderly (s : System α) : Prop where
  asked : ∀ c ∈ s.clients, ∀ job, c.job? = some job →
    ∃ call, (Client.ofCall call).job? = some job
  raised : ∀ c ∈ s.clients, c.HasRaised → s.engine.shutdown = true

theorem orderly_start (machine : MachineConfig α) (config : EngineConfig α) :
    (start machine config).Orderly := by
  constructor
  · intro c hc
    cases hc
  · intro c hc
    cases hc

theorem fresh_ofCall {c : Call} {job : Task α} (h : (Client.ofCall c).job? = some job) :
    job.Fresh := by
  cases c with
  | line text =>
    cases h
    trivial
  | file path file =>
    cases h
    trivial
  | _ => cases h

theorem orderly_step {s : System α} (h : s.Orderly) (ev : Event α) : (s.step ev).Orderly := by
  have hup {c : Client α} (hc : c ∈ s.clients) (hr : c.HasRaised) :
      (s.step ev).engine.shutdown = true :=
    Engine.shutdown_after (h.raised c hc hr) (s.effect ev)
  cases ev with
  | call c =>
    refine ⟨fun d hd job hj => ?_, fun d hd hr => ?_⟩
    · rcases List.mem_append.mp hd with hd | hd
      · exact h.asked d hd job hj
      · rw [List.mem_singleton.mp hd] at hj
        exact ⟨c, hj⟩
    · rcases List.mem_append.mp hd with hd | hd
      · exact hup hd hr
      · rw [List.mem_singleton.mp hd] at hr
        cases c <;> cases hr
  | client j =>
    have hmem {d : Client α} (hd : d ∈ (s.step (.client j)).clients) :
        d ∈ s.clients ∨ ∃ c, s.clients[j]? = some c ∧ d = c.next s.engine := by
      obtain ⟨i, hi⟩ := List.mem_iff_getElem?.mp hd
      simp only [step, nextClients, List.getElem?_modify] at hi
      cases hc : s.clients[i]? with
      | none => simp [hc] at hi
      | some c =>
        by_cases hij : j = i
        · subst hij
          exact Or.inr ⟨c, hc, by simpa [hc] using hi.symm⟩
        · left
          have : c = d := by simpa [hc, hij] using hi
          exact this ▸ List.mem_of_getElem? hc
    refine ⟨fun d hd job hj => ?_, fun d hd hr => ?_⟩
    · rcases hmem hd with hd | ⟨c, hc, rfl⟩
      · exact h.asked d hd job hj
      · rw [(c.acts s.engine).job?_eq] at hj
        exact h.asked c (List.mem_of_getElem? hc) job hj
    · rcases hmem hd with hd | ⟨c, hc, rfl⟩
      · exact hup hd hr
      · rcases (c.acts s.engine).hasRaised hr with hr | hr
        · exact hup (List.mem_of_getElem? hc) hr
        · simp [step, effect, hc, hr, Engine.after]
  | task k => exact ⟨h.asked, fun d hd hr => hup hd hr⟩
  | tick => exact ⟨h.asked, fun d hd hr => hup hd hr⟩
  | set x => exact ⟨h.asked, fun d hd hr => hup hd hr⟩

theorem orderly_run {s : System α} (h : s.Orderly) (evs : List (Event α)) : (s.run evs).Orderly :=
  run_induction (P := Orderly) (fun _ ev h => orderly_step h ev) h evs

theorem acts_of_effect {s : System α} {ev : Event α} {eff : Effect α} (h : s.effect ev = eff)
    (hi : eff ≠ .idle) (hs : ∀ k, eff ≠ .step k) (hd : ∀ m, eff ≠ .drift m) :
    ∃ j c, ev = .client j ∧ s.clients[j]? = some c ∧ c.Acts s.engine eff (c.next s.engine) := by
  subst h
  cases ev with
  | call c => exact absurd rfl hi
  | client j =>
    cases hc : s.clients[j]? with
    | some c => exact ⟨j, c, rfl, hc, by simpa [effect, hc] using c.acts s.engine⟩
    | none => exact absurd (by simp [effect, hc]) hi
  | task k => exact absurd rfl (hs k)
  | tick =>
    simp only [effect] at hi hd
    split at hd
    · exact absurd rfl (hd _)
    · rename_i he
      simp [he] at hi
  | set x =>
    simp only [effect] at hi hd
    split at hd
    · exact absurd rfl (hd _)
    · rename_i he
      simp [he] at hi

theorem event_of_effect {s : System α} {ev : Event α} {k : Nat} (h : s.effect ev = .step k) :
    ev = .task k := by
  cases ev with
  | task l =>
    cases h
    rfl
  | call c => cases h
  | client j =>
    simp only [effect] at h
    split at h
    · rename_i c _
      cases (h ▸ c.acts s.engine : c.Acts s.engine (.step k) (c.next s.engine))
    · cases h
  | tick => simp only [effect] at h; split at h <;> cases h
  | set x => simp only [effect] at h; split at h <;> cases h

theorem submit_of_accept {s : System α} {ev : Event α} {job : Task α}
    (h : s.effect ev = .accept job) :
    s.engine.isBusy = false ∧ ∃ j, ev = .client j ∧ s.clients[j]? = some (.submit job) := by
  obtain ⟨j, c, hev, hc, hacts⟩ := acts_of_effect h (by simp) (by simp) (by simp)
  obtain ⟨rfl, hb⟩ := hacts.of_accept
  exact ⟨hb, j, hev, hc⟩

theorem Orderly.exists_call {s : System α} (h : s.Orderly) {ev : Event α} {job : Task α}
    (he : s.effect ev = .accept job) : ∃ call, (Client.ofCall call).job? = some job := by
  obtain ⟨-, j, -, hc⟩ := submit_of_accept he
  exact h.asked _ (List.mem_of_getElem? hc) job rfl

theorem Orderly.fresh_of_accept {s : System α} (h : s.Orderly) {ev : Event α} {job : Task α}
    (he : s.effect ev = .accept job) : job.Fresh := by
  obtain ⟨call, hcall⟩ := h.exists_call he
  exact fresh_ofCall hcall

theorem Orderly.shutdown_of_letGo {s : System α} (h : s.Orderly) {ev : Event α}
    (he : s.effect ev = .letGo) : s.engine.shutdown = true := by
  obtain ⟨j, c, -, hc, hacts⟩ := acts_of_effect he (by simp) (by simp) (by simp)
  exact h.raised c (List.mem_of_getElem? hc) (hacts.of_letGo ▸ trivial)

end System

end Gantry
