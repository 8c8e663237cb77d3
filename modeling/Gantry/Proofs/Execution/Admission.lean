import Gantry.Proofs.Execution.Effect
import Gantry.Proofs.Execution.FileStep
import Mathlib.Data.List.Induction
import Mathlib.Logic.ExistsUnique

/-!
# Admission

An engine takes one task at a time. The slot is what it goes by: as long as nobody empties the
slot over a task that is not over, at most one task is unfinished and the engine is busy while
there is one. A call to close does empty it, and before that task has come to its end. Then the
engine is not busy and admits the next job beside it, but shutdown has been requested by then, so
that no job admitted from there on carries out a command.

Nothing here says when a task is over.
-/

namespace Gantry

variable {α : Type} [Scalar α]

namespace Engine

/-- At most one task is unfinished, and the engine is busy while there is one. -/
structure Exclusive (e : Engine α) : Prop where
  unique : ∀ {k l}, (e.task? k).isSome → (e.task? l).isSome → k = l
  busy : ∀ {k}, (e.task? k).isSome → e.isBusy = true

omit [Scalar α] in
theorem exclusive_iff (e : Engine α) :
    e.Exclusive ↔ ∀ k, (e.task? k).isSome → e.slot = some k := by
  constructor
  · intro h k hk
    obtain ⟨l, hl, hs⟩ := isBusy_iff.mp (h.busy hk)
    rw [hl, h.unique hk hs]
  · intro h
    constructor
    · intro k l hk hl
      exact Option.some.inj ((h k hk).symm.trans (h l hl))
    · intro k hk
      exact isBusy_iff.mpr ⟨k, h k hk, hk⟩

omit [Scalar α] in
theorem Exclusive.none_of_not_busy {e : Engine α} (h : e.Exclusive) (hb : e.isBusy = false)
    (k : Nat) : e.task? k = none := by
  cases ht : e.task? k with
  | none => rfl
  | some t => simp [h.busy (k := k) (by simp [ht])] at hb

omit [Scalar α] in
/-- Emptying the slot does no harm where the task in it is over, and breaks exclusion where it is
not. -/
theorem exclusive_letGo_iff {e : Engine α} (h : e.Exclusive) :
    Exclusive { e with slot := none } ↔ e.isBusy = false := by
  constructor
  · intro hx
    cases hb : e.isBusy with
    | false => rfl
    | true =>
      obtain ⟨k, -, hk⟩ := isBusy_iff.mp hb
      cases hx.busy (k := k) hk
  · intro hb
    have hn := h.none_of_not_busy hb
    constructor
    · intro k l hk
      rw [show Engine.task? { e with slot := none } k = none from hn k] at hk
      cases hk
    · intro k hk
      rw [show Engine.task? { e with slot := none } k = none from hn k] at hk
      cases hk

theorem slot_after {e : Engine α} {eff : Effect α} (ha : ∀ job, eff ≠ .accept job)
    (hl : eff ≠ .letGo) : (e.after eff).slot = e.slot := by
  cases eff with
  | accept job => exact absurd rfl (ha job)
  | letGo => exact absurd rfl hl
  | step k => simp [after]
  | _ => rfl

theorem isSome_of_after {e : Engine α} {eff : Effect α} (h : e.Allows eff)
    (ha : ∀ job, eff ≠ .accept job) {k : Nat} (hk : ((e.after eff).task? k).isSome) :
    (e.task? k).isSome := by
  cases ht : e.task? k with
  | some t => rfl
  | none =>
    by_cases hl : k < e.tasks.length
    · simp [over_after h hl ht] at hk
    · rw [← length_after_of_not_accept e ha] at hl
      exact absurd (lt_length_of_task? hk) hl

theorem exclusive_after {e : Engine α} (h : e.Exclusive) {eff : Effect α} (ha : e.Allows eff)
    (hl : eff = .letGo → e.isBusy = false) : (e.after eff).Exclusive := by
  cases eff with
  | letGo => exact (exclusive_letGo_iff h).mpr (hl rfl)
  | accept job =>
    rw [exclusive_iff]
    intro k hk
    have hslot : (e.after (.accept job)).slot = some e.tasks.length := by
      simp [after, submit_eq ha]
    by_cases hkl : k = e.tasks.length
    · rw [hslot, hkl]
    · simp [after, task?_submit_of_ne ha job hkl, h.none_of_not_busy ha k] at hk
  | _ =>
    rw [exclusive_iff] at h ⊢
    intro k hk
    rw [slot_after (by simp) (by simp)]
    exact h k (isSome_of_after ha (by simp) hk)

end Engine

def LineWork.chore? : LineWork α → Option (Chore α)
  | .busy chore _ => some chore
  | _ => none

def Task.chore? : Task α → Option (Chore α)
  | .line w => w.chore?
  | .file (.run _ _ _ (.line w)) => w.chore?
  | _ => none

namespace LineWork

omit [Scalar α] in
theorem chore?_ofCommands (cs : List (Gcode.Command α)) : (ofCommands cs).chore? = none := by
  cases cs <;> rfl

theorem chore?_step {w v : LineWork α} (h : w.chore? = none) {m : Machine α}
    (hv : (w.step true m).2 = some v) : v.chore? = none := by
  cases w with
  | enter line =>
    cases hv
    exact chore?_ofCommands line.commands
  | next c rest =>
    cases hv
    rfl
  | busy chore rest => cases h
  | leave => cases hv

end LineWork

namespace Task

omit [Scalar α] in
theorem chore?_of_fresh {t : Task α} (h : t.Fresh) : t.chore? = none := by
  cases t with
  | line w =>
    cases w with
    | enter l => rfl
    | _ => cases h
  | file w =>
    cases w with
    | read job => rfl
    | _ => cases h

omit [Scalar α] in
theorem chore?_notify (t : Task α) : t.notify.chore? = t.chore? :=
  t.notify_eq (f := chore?) fun _ _ _ _ => rfl

theorem chore?_step {t u : Task α} (h : t.chore? = none) {m : Machine α}
    (hu : (t.step true m).2 = some u) : u.chore? = none := by
  cases t with
  | line w =>
    simp only [step, Option.map_eq_some_iff] at hu
    obtain ⟨v, hv, rfl⟩ := hu
    exact LineWork.chore?_step h hv
  | file w =>
    simp only [step, Option.map_eq_some_iff] at hu
    obtain ⟨v, hv, rfl⟩ := hu
    cases w with
    | read job =>
      obtain ⟨j, -, rfl⟩ := Option.map_eq_some_iff.mp hv
      rfl
    | enter job =>
      cases hv
      cases job.lines <;> rfl
    | leave => cases hv
    | run i n rest stage =>
      cases stage with
      | mark l =>
        cases hv
        rfl
      | line w =>
        rw [FileWork.step_line] at hv
        cases hv
        split
        · rename_i v hv
          exact LineWork.chore?_step h hv
        · rfl
      | askPause =>
        rw [FileWork.step_askPause] at hv
        cases hv
        split <;> rfl
      | hold k =>
        rw [FileWork.step_hold] at hv
        cases hv
        split <;> rfl
      | askAbort =>
        rw [FileWork.step_askAbort] at hv
        cases hv
        split <;> rfl
      | askShutdown =>
        cases hv
        rfl

end Task

namespace System

/-- What an event makes of task `k`: the step that it has it take, if any, or notice. -/
def turn (s : System α) (k : Nat) (ev : Event α) (t : Task α) : Option (Task α) :=
  match s.effect ev with
  | .step l => if l = k then (t.step s.engine.shutdown s.engine.machine).2 else some t
  | .notice => some t.notify
  | _ => some t

/-- What becomes of task `k` in a run. -/
def course (s : System α) (k : Nat) (t : Option (Task α)) : List (Event α) → Option (Task α)
  | [] => t
  | ev :: evs => (s.step ev).course k (t.bind (s.turn k ev)) evs

theorem task?_step {s : System α} {k : Nat} (hk : k < s.engine.tasks.length) (ev : Event α) :
    (s.step ev).engine.task? k = (s.engine.task? k).bind (s.turn k ev) := by
  have hc := s.taskChange ev k
  generalize hv : (s.step ev).engine.task? k = v at hc
  generalize he : s.effect ev = eff at hc
  cases hc with
  | admitted hl => omega
  | stepped ht => simp [turn, he, ht]
  | noticed =>
    cases ht : s.engine.task? k with
    | none => rfl
    | some t => simp [turn, he]
  | same hsame _ hnotice =>
    cases ht : s.engine.task? k with
    | none => rfl
    | some t =>
      rw [ht] at hsame
      have hstep : eff ≠ .step k := hsame.resolve_right nofun
      cases eff with
      | step l =>
        have hl : l ≠ k := fun h => hstep (congrArg Effect.step h)
        simp [turn, he, hl]
      | notice => exact absurd rfl hnotice
      | _ => simp [turn, he]

theorem task?_run {s : System α} {k : Nat} (hk : k < s.engine.tasks.length)
    (evs : List (Event α)) : (s.run evs).engine.task? k = s.course k (s.engine.task? k) evs := by
  induction evs generalizing s with
  | nil => rfl
  | cons ev evs ih =>
    have hlater : k < (s.step ev).engine.tasks.length :=
      Nat.lt_of_lt_of_le hk (Engine.length_after_le s.engine (s.effect ev))
    rw [run_cons, course, ih hlater, task?_step hk]

/-- Every admitted job has the number of a task, and every task is the job of exactly one client. -/
structure Accounts (s : System α) : Prop where
  bound : ∀ {j k : Nat} {job : Task α}, s.clients[j]? = some (.admitted job k) →
    k < s.engine.tasks.length
  owned : ∀ k, k < s.engine.tasks.length →
    ∃ (j : Nat) (job : Task α), s.clients[j]? = some (.admitted job k)
  unique : ∀ {i j k : Nat} {job job' : Task α}, s.clients[i]? = some (.admitted job k) →
    s.clients[j]? = some (.admitted job' k) → i = j

theorem accounts_start (machine : MachineConfig α) (config : EngineConfig α) :
    (start machine config).Accounts :=
  ⟨fun h => by simp [start] at h, fun k hk => by simp [start, Engine.ofParts] at hk,
    fun h => by simp [start] at h⟩

theorem admitted_next {s : System α} {ev : Event α} {j k : Nat} {job : Task α}
    (h : s.clients[j]? = some (.admitted job k)) :
    (s.step ev).clients[j]? = some (.admitted job k) := by
  cases ev with
  | call c =>
    have hj := (List.getElem?_eq_some_iff.mp h).1
    simp only [step, nextClients]
    rw [List.getElem?_append_left hj, h]
  | client i =>
    simp only [step, nextClients, List.getElem?_modify, h]
    by_cases hij : i = j
    · simp [hij, Client.next]
    · simp [hij]
  | _ => exact h

theorem admitted_of_next {s : System α} {ev : Event α} {j k : Nat} {job : Task α}
    (h : (s.step ev).clients[j]? = some (.admitted job k)) :
    s.clients[j]? = some (.admitted job k) ∨
      ev = .client j ∧ s.effect ev = .accept job ∧ k = s.engine.tasks.length := by
  cases ev with
  | call c =>
    simp only [step, nextClients] at h
    by_cases hj : j < s.clients.length
    · rw [List.getElem?_append_left hj] at h
      exact Or.inl h
    · rw [List.getElem?_append_right (by omega)] at h
      have := List.mem_singleton.mp (List.mem_of_getElem? h)
      cases c <;> cases this
  | client i =>
    simp only [step, nextClients, List.getElem?_modify] at h
    cases hc : s.clients[j]? with
    | none => simp [hc] at h
    | some c =>
      by_cases hij : i = j
      · subst hij
        have hn : c.next s.engine = .admitted job k := by simpa [hc] using h
        rcases (hn ▸ c.acts s.engine).of_admitted with rfl | ⟨he, hk⟩
        · exact Or.inl rfl
        · exact Or.inr ⟨rfl, by simpa [effect, hc] using he, hk⟩
      · left
        simpa [hc, hij] using h
  | _ => exact Or.inl h

theorem accept_next {s : System α} {ev : Event α} {job : Task α} (h : s.effect ev = .accept job) :
    s.engine.isBusy = false ∧
      ∃ j : Nat, (s.step ev).clients[j]? = some (.admitted job s.engine.tasks.length) := by
  obtain ⟨hb, j, rfl, hc⟩ := submit_of_accept h
  refine ⟨hb, j, ?_⟩
  simp [step, nextClients, hc, Client.next, hb]

theorem accounts_step {s : System α} (h : s.Accounts) (ev : Event α) : (s.step ev).Accounts := by
  have hle := Engine.length_after_le s.engine (s.effect ev)
  refine ⟨fun {j k job} hj => ?_, fun k hk => ?_, fun {i j k job job'} hi hj => ?_⟩
  · rcases admitted_of_next hj with hj | ⟨-, he, rfl⟩
    · exact Nat.lt_of_lt_of_le (h.bound hj) hle
    · have hb := (accept_next he).1
      simp [step, he, Engine.after, Engine.submit_eq hb]
  · by_cases hk' : k < s.engine.tasks.length
    · obtain ⟨j, job, hj⟩ := h.owned k hk'
      exact ⟨j, job, admitted_next hj⟩
    · by_cases hadm : ∃ job, s.effect ev = .accept job
      · obtain ⟨job, he⟩ := hadm
        obtain ⟨hb, j, hj⟩ := accept_next he
        have hkl : k = s.engine.tasks.length := by
          simp only [step, he, Engine.after, Engine.submit_eq hb, List.length_append,
            List.length_singleton] at hk
          omega
        exact ⟨j, job, hkl ▸ hj⟩
      · have hl : (s.engine.after (s.effect ev)).tasks.length = s.engine.tasks.length :=
          Engine.length_after_of_not_accept s.engine fun job he => hadm ⟨job, he⟩
        simp only [step] at hk
        omega
  · rcases admitted_of_next hi with hi | ⟨hei, -, hk⟩
    · rcases admitted_of_next hj with hj | ⟨-, -, hk⟩
      · exact h.unique hi hj
      · exact absurd (h.bound hi) (by omega)
    · rcases admitted_of_next hj with hj | ⟨hej, -, -⟩
      · exact absurd (h.bound hj) (by omega)
      · exact Event.client.inj (hei.symm.trans hej)

theorem accounts_run {s : System α} (h : s.Accounts) (evs : List (Event α)) :
    (s.run evs).Accounts :=
  run_induction (P := Accounts) (fun _ ev h => accounts_step h ev) h evs

theorem exists_accept {s : System α} {evs : List (Event α)} {j k : Nat} {job : Task α}
    (hstart : s.clients[j]? ≠ some (.admitted job k))
    (h : (s.run evs).clients[j]? = some (.admitted job k)) :
    ∃ pre post, evs = pre ++ .client j :: post ∧
      (s.run pre).effect (.client j) = .accept job ∧ (s.run pre).engine.tasks.length = k := by
  induction evs using List.reverseRecOn with
  | nil => exact absurd h hstart
  | append_singleton evs ev ih =>
    rw [run_concat] at h
    rcases admitted_of_next h with h | ⟨rfl, he, hk⟩
    · obtain ⟨pre, post, rfl, hpre⟩ := ih h
      exact ⟨pre, post ++ [ev], by simp, hpre⟩
    · exact ⟨evs, [], rfl, he, hk.symm⟩

/-- A call to close empties the slot over a task that is not over. -/
def Abandons (s : System α) (ev : Event α) : Prop :=
  s.effect ev = .letGo ∧ s.engine.isBusy = true

theorem exclusive_run {s : System α} (h : s.engine.Exclusive) (evs : List (Event α))
    (hn : ∀ pre ev, pre ++ [ev] <+: evs → ¬ (s.run pre).Abandons ev) :
    (s.run evs).engine.Exclusive := by
  induction evs using List.reverseRecOn with
  | nil => exact h
  | append_singleton evs ev ih =>
    rw [run_concat]
    have hx := ih fun pre fv hp => hn pre fv (hp.trans (List.prefix_append evs [ev]))
    refine Engine.exclusive_after hx ((s.run evs).allows_effect ev) fun he => ?_
    have := hn evs ev (List.prefix_refl _)
    simpa [Abandons, he] using this

/-- While shutdown is not requested, nothing was ever let go of. -/
theorem exclusive_of_not_shutdown {s : System α} (ho : s.Orderly) (h : s.engine.Exclusive)
    (evs : List (Event α)) (hs : (s.run evs).engine.shutdown = false) :
    (s.run evs).engine.Exclusive := by
  refine exclusive_run h evs fun pre ev hp hab => ?_
  obtain ⟨post, rfl⟩ := hp
  have hup := (orderly_run ho pre).shutdown_of_letGo hab.1
  rw [List.append_assoc, run_append] at hs
  rw [shutdown_run hup] at hs
  cases hs

theorem Orderly.exclusive_step {s : System α} (ho : s.Orderly) (hs : s.engine.shutdown = false)
    (h : s.engine.Exclusive) (ev : Event α) : (s.step ev).engine.Exclusive := by
  refine Engine.exclusive_after h (s.allows_effect ev) fun he => ?_
  have := ho.shutdown_of_letGo he
  rw [hs] at this
  cases this

theorem exclusive_start (machine : MachineConfig α) (config : EngineConfig α) :
    (start machine config).engine.Exclusive :=
  ⟨fun h => by simp [start, Engine.ofParts, Engine.task?] at h,
    fun h => by simp [start, Engine.ofParts, Engine.task?] at h⟩

end System

/-- Admission over a run of an engine that is shared by any number of clients. -/
structure System.Admission (s : System α) (evs : List (Event α)) : Prop where
  /-- At every moment at most one task is unfinished and the engine is busy while there is one,
  exactly where no call to close ever empties the slot over an unfinished task. -/
  exclusive : (∀ pre, pre <+: evs → (s.run pre).engine.Exclusive) ↔
    ∀ pre ev, pre ++ [ev] <+: evs → ¬ (s.run pre).Abandons ev
  /-- So it is until shutdown is requested. -/
  exclusiveBefore : ∀ pre, pre <+: evs → (s.run pre).engine.shutdown = false →
    (s.run pre).engine.Exclusive
  /-- A call that returned true has its job run: the section that admits the job makes it the task
  of the number that the call is told, and from there on the task takes the steps of the run. -/
  carried : ∀ (j k : Nat) (job : Task α), (s.run evs).clients[j]? = some (.admitted job k) →
    k < (s.run evs).engine.tasks.length ∧ ∃ pre post, evs = pre ++ .client j :: post ∧
      (s.run pre).engine.tasks.length = k ∧
      (s.run (pre ++ [.client j])).engine.task? k = some job ∧
      (s.run evs).engine.task? k = (s.run (pre ++ [.client j])).course k (some job) post
  /-- It is run once: every task is the job of exactly one such call. -/
  once : ∀ k, k < (s.run evs).engine.tasks.length →
    ∃! j : Nat, ∃ job : Task α, (s.run evs).clients[j]? = some (.admitted job k)
  /-- A task that is over is not begun again. -/
  gone : ∀ pre, pre <+: evs → ∀ k, k < (s.run pre).engine.tasks.length →
    (s.run pre).engine.task? k = none → (s.run evs).engine.task? k = none
  /-- A call that returned false did nothing in any of its sections. -/
  refused : ∀ (pre : List (Event α)) (j : Nat) (c : Client α), pre ++ [.client j] <+: evs →
    (s.run pre).clients[j]? = some c → c.job?.isSome →
    (∀ job k, c.next (s.run pre).engine ≠ .admitted job k) →
    (s.run (pre ++ [.client j])).engine = (s.run pre).engine
  /-- A job that is admitted after shutdown was requested carries out no command. -/
  commandless : ∀ pre ev job post, pre ++ ev :: post <+: evs →
    (s.run pre).engine.shutdown = true → (s.run pre).effect ev = .accept job →
    ((s.run (pre ++ ev :: post)).engine.task? (s.run pre).engine.tasks.length).bind
      Task.chore? = none

namespace System

theorem chore?_run {s : System α} (hs : s.engine.shutdown = true) {k : Nat}
    (hk : k < s.engine.tasks.length) (h : ∀ t, s.engine.task? k = some t → t.chore? = none)
    (evs : List (Event α)) : ((s.run evs).engine.task? k).bind Task.chore? = none := by
  apply Option.bind_eq_none_iff.mpr
  exact lasts_run (P := fun t => t.chore? = none) (fun h hu => Task.chore?_step h hu)
    (fun {t} h => (Task.chore?_notify t).trans h) hs hk h evs

theorem exclusive_run_iff {s : System α} (h : s.engine.Exclusive) (evs : List (Event α)) :
    (∀ pre, pre <+: evs → (s.run pre).engine.Exclusive) ↔
      ∀ pre ev, pre ++ [ev] <+: evs → ¬ (s.run pre).Abandons ev := by
  constructor
  · intro hx pre ev hp hab
    have h1 := hx pre ((List.prefix_append pre [ev]).trans hp)
    have h2 := hx (pre ++ [ev]) hp
    rw [run_concat] at h2
    simp only [step, hab.1, Engine.after] at h2
    have := (Engine.exclusive_letGo_iff h1).mp h2
    rw [hab.2] at this
    cases this
  · intro hn pre hp
    exact exclusive_run h pre fun pre' ev hp' => hn pre' ev (hp'.trans hp)

/-- Admission in every interleaving of calls and tasks, on any engine from its beginning. -/
theorem admission_run (machine : MachineConfig α) (config : EngineConfig α)
    (evs : List (Event α)) : (start machine config).Admission evs where
  exclusive := exclusive_run_iff (exclusive_start machine config) evs
  exclusiveBefore := fun pre _ hs =>
    exclusive_of_not_shutdown (orderly_start machine config) (exclusive_start machine config) pre hs
  carried := by
    intro j k job hj
    refine ⟨(accounts_run (accounts_start machine config) evs).bound hj, ?_⟩
    obtain ⟨pre, post, rfl, he, rfl⟩ := exists_accept (by simp [start]) hj
    have hb := (accept_next he).1
    have hjob : ((start machine config).run (pre ++ [.client j])).engine.task?
        ((start machine config).run pre).engine.tasks.length = some job := by
      rw [run_concat]
      simp [step, he, Engine.after, Engine.task?_submit_self hb]
    refine ⟨pre, post, rfl, rfl, hjob, ?_⟩
    have hk := Engine.lt_length_of_task? (Option.isSome_iff_exists.mpr ⟨job, hjob⟩)
    have hrun := task?_run hk post
    rwa [← run_append, List.append_assoc, List.singleton_append, hjob] at hrun
  once := by
    intro k hk
    have ha := accounts_run (accounts_start machine config) evs
    obtain ⟨j, job, hj⟩ := ha.owned k hk
    refine ⟨j, ⟨job, hj⟩, ?_⟩
    rintro i ⟨job', hi⟩
    exact ha.unique hi hj
  gone := by
    rintro pre ⟨post, rfl⟩ k hk hn
    rw [run_append]
    exact over_run hk hn post
  refused := by
    intro pre j c _ hc hj hn
    rw [run_concat]
    simp [step, effect, hc, (c.acts _).idle_of_refused hj hn, Engine.after]
  commandless := by
    intro pre ev job post _ hs he
    have hb := (accept_next he).1
    have hf := (orderly_run (orderly_start machine config) pre).fresh_of_accept he
    rw [run_append, run_cons]
    refine chore?_run (Engine.shutdown_after hs _) ?_ (fun t ht => ?_) post
    · simp [step, he, Engine.after, Engine.submit_eq hb]
    · simp only [step, he, Engine.after, Engine.task?_submit_self hb, Option.some.injEq] at ht
      exact ht ▸ Task.chore?_of_fresh hf

/-- While a client waits in a call to close, the engine is not busy although the task it waits for
is unfinished, and takes a second one. -/
theorem second_task_while_closing :
    let s := (start (MachineConfig.stock : MachineConfig Float) EngineConfig.stock).run
      [.call (.line "M109 S200"), .client 0, .task 0, .task 0, .call .close, .client 1, .client 1,
        .client 1]
    let u := s.run [.call (.line "G28"), .client 2]
    ((s.engine.task? 0).isSome = true ∧ s.engine.isBusy = false) ∧
      (u.engine.task? 0).isSome = true ∧ (u.engine.task? 1).isSome = true := by
  decide +kernel

end System

end Gantry
