import Gantry.Proofs.Execution.LineCommands
import Gantry.Proofs.Execution.Shutdown

/-!
# The modal feed

The default speed of the machine is the feed of the last move that named a usable one. Homing
borrows it for its legs and gives it back at its end, also where it is interrupted; the feed
override scales a move and is never written to it. What a command in execution may have done to
the default speed is known from the command alone, and there is never more than one. Which
commands are carried out is known from the lines of the jobs that were admitted.

Nothing here looks at where the axes go: a move that comes to nothing still sets the feed.
-/

namespace Gantry

variable {α : Type} [Scalar α]

/-- The speed that a command leaves to the moves after it, in metres and seconds. -/
def Gcode.Command.feed? : Gcode.Command α → Option α
  | .move _ feed => (feed.map (· / 1000.0 / 60.0)).filter Scalar.isPositive
  | _ => none

def feedAfter (initial : α) (commands : List (Gcode.Command α)) : α :=
  (commands.filterMap Gcode.Command.feed?).getLast?.getD initial

namespace System

def chore? (s : System α) (k : Nat) : Option (Chore α) :=
  (s.engine.task? k).bind Task.chore?

def Idles (s : System α) : Prop :=
  ∀ k, s.chore? k = none

/-- The default speed of a machine in a run. -/
structure ModalFeed (s : System α) (initial : α) (evs : List (Event α)) : Prop where
  /-- Between two commands it is the last feed, of all commands from the start. -/
  last : ∀ pre post, evs = pre ++ post → (s.run pre).Idles →
    (s.run pre).engine.machine.defaultSpeed = feedAfter initial (s.executed pre)
  /-- Commands without a usable feed do not change it, however many. -/
  kept : ∀ pre mid post, evs = pre ++ (mid ++ post) → (s.run pre).Idles →
    (s.run (pre ++ mid)).Idles → (∀ c ∈ (s.run pre).executed mid, c.feed? = none) →
    (s.run (pre ++ mid)).engine.machine.defaultSpeed = (s.run pre).engine.machine.defaultSpeed
  /-- The lines that are begun are lines of jobs that were admitted. -/
  admitted : ∀ pre post, evs = pre ++ post → ∀ text ∈ s.entered pre,
    ∃ (j k : Nat) (job : Task α), (s.run pre).clients[j]? = some (.admitted job k) ∧
      ∃ l ∈ job.lines, l.text = text
  /-- What is carried out is what these lines say, in order and as far as it goes; a line that is
  not made of words says nothing. -/
  spelled : ∀ pre post, evs = pre ++ post →
    s.executed pre <+: (s.entered pre).flatMap fun text => (Gcode.parseLine α text).getD []
  /-- Until shutdown is requested it is all of it, whenever no line is in execution. -/
  whole : ∀ pre post, evs = pre ++ post → (s.run pre).engine.shutdown = false →
    (s.run pre).engine.machine.flow.line = none →
    s.executed pre = (s.entered pre).flatMap fun text => (Gcode.parseLine α text).getD []

end System

theorem feedAfter_toList (initial : α) (commands : List (Gcode.Command α))
    (c : Option (Gcode.Command α)) : feedAfter initial (commands ++ c.toList) =
      (c.bind Gcode.Command.feed?).getD (feedAfter initial commands) := by
  unfold feedAfter
  rw [List.filterMap_append]
  cases c with
  | none => simp
  | some c =>
    cases hc : c.feed? with
    | none => simp [hc]
    | some v => simp [hc]

theorem feedAfter_append_of_none (initial : α) {before later : List (Gcode.Command α)}
    (h : ∀ c ∈ later, c.feed? = none) :
    feedAfter initial (before ++ later) = feedAfter initial before := by
  have hnone : later.filterMap Gcode.Command.feed? = [] := by
    rw [List.filterMap_eq_nil_iff]
    exact h
  unfold feedAfter
  rw [List.filterMap_append, hnone, List.append_nil]

/-- What a command in execution makes of the default speed: `v` once it is over, where the machine
has `current` by now. -/
def Chore.Yields (v current : α) : Chore α → Prop
  | .move _ speed _ => v = (speed.filter Scalar.isPositive).getD current
  | .homing saved _ _ _ => saved = v
  | .homed saved => saved = v
  | .restore saved _ => saved = v
  | _ => current = v

theorem Machine.defaultSpeed_setTarget (m : Machine α) (target : Target α) (speed : Option α) :
    (m.setTarget target speed).1.defaultSpeed =
      (speed.filter Scalar.isPositive).getD m.defaultSpeed := by
  have hplan (n : Machine α) : (if n.pathLength target == 0.0 then (n, false) else
      (n.planMove target (n.pathLength target / (n.defaultSpeed * n.feedOverride)),
        true)).1.defaultSpeed = n.defaultSpeed := by
    split <;> rfl
  unfold setTarget withFeed?
  cases speed with
  | none => exact hplan m
  | some s =>
    cases hs : Scalar.isPositive s with
    | true =>
      have hfilter : (some s).filter Scalar.isPositive = some s := by simp [Option.filter, hs]
      rw [hfilter]
      simp only [hs, if_true]
      exact hplan (m.setDefaultSpeed s)
    | false => simp [hs, Option.filter]

namespace Chore

theorem yields_ofCommand (c : Gcode.Command α) (current : α) :
    (ofCommand c).Yields (c.feed?.getD current) current := by
  cases c <;> rfl

theorem yields_homeAxes (saved current : α) (is : List AxisId) :
    (homeAxes saved is).Yields saved current := by
  cases is <;> rfl

theorem yields_afterHoming (saved current : α) (i : AxisId) (rest : List AxisId)
    (o : Homing.Outcome α) : (afterHoming saved i rest o).Yields saved current := by
  cases o with
  | done => exact yields_homeAxes saved current rest
  | _ => rfl

theorem yields_step {c : Chore α} {v : α} {m : Machine α} (h : c.Yields v m.defaultSpeed)
    (shutdown : Bool) :
    (c.step shutdown m).2.elim ((c.step shutdown m).1.defaultSpeed = v)
      (Yields v (c.step shutdown m).1.defaultSpeed) := by
  cases c with
  | move target speed blocking =>
    have hspeed := (m.defaultSpeed_setTarget target speed).trans h.symm
    cases blocking <;> exact hspeed
  | offset target => exact h
  | heat k celsius blocking =>
    simp only [step]
    split <;> exact h
  | await goal wait =>
    simp only [step]
    cases wait.step goal shutdown m <;> exact h
  | home =>
    have hsaved : m.defaultSpeed = v := h
    rw [← hsaved]
    exact yields_homeAxes m.defaultSpeed m.defaultSpeed AxisId.cartesian
  | homing saved i rest k =>
    have hsaved : saved = v := h
    rw [← hsaved]
    exact yields_afterHoming saved _ i rest _
  | homed saved => exact h
  | restore saved completed => exact h

end Chore

namespace LineWork

/-- Without a command in execution a line leaves the default speed alone, and comes to the command
it is about to carry out. -/
theorem step_of_no_chore {w : LineWork α} (h : w.chore? = none) (shutdown : Bool)
    (m : Machine α) : (w.step shutdown m).1.defaultSpeed = m.defaultSpeed ∧
      (w.step shutdown m).2.bind chore? =
        (if shutdown then none else w.upcoming?).map Chore.ofCommand := by
  cases w with
  | enter line =>
    have hnone := chore?_ofCommands line.commands
    cases shutdown <;> exact ⟨rfl, hnone⟩
  | next c rest => cases shutdown <;> exact ⟨rfl, rfl⟩
  | busy chore rest => cases h
  | leave => cases shutdown <;> exact ⟨rfl, rfl⟩

end LineWork

namespace Task

omit [Scalar α] in
theorem upcoming?_of_chore {t : Task α} {c : Chore α} (h : t.chore? = some c) :
    t.upcoming? = none := by
  obtain ⟨cs, rfl | ⟨i, n, rest, rfl⟩⟩ := eq_of_chore? h
  · rfl
  · rfl

theorem chore?_of_step_none {t : Task α} {c : Chore α} (h : t.chore? = some c) {shutdown : Bool}
    {m : Machine α} (hd : (c.step shutdown m).2 = none) :
    (t.step shutdown m).2.bind chore? = none := by
  obtain ⟨cs, rfl | ⟨i, n, rest, rfl⟩⟩ := eq_of_chore? h
  · simp [step, LineWork.step, hd, chore?, LineWork.chore?_ofCommands]
  · simp [step, FileWork.step_line, LineWork.step, hd, chore?, LineWork.chore?_ofCommands]

theorem step_of_no_chore {t : Task α} (h : t.chore? = none) (shutdown : Bool)
    (m : Machine α) : (t.step shutdown m).1.defaultSpeed = m.defaultSpeed ∧
      (t.step shutdown m).2.bind chore? =
        (if shutdown then none else t.upcoming?).map Chore.ofCommand := by
  cases t with
  | line w =>
    obtain ⟨hspeed, hchore⟩ := LineWork.step_of_no_chore (w := w) h shutdown m
    refine ⟨hspeed, Eq.trans ?_ hchore⟩
    simp only [step]
    cases (w.step shutdown m).2 <;> rfl
  | file w =>
    have hquiet : (if shutdown then none else (none : Option (Gcode.Command α))).map
        Chore.ofCommand = none := by
      rw [ite_self]
      rfl
    cases w with
    | read job =>
      refine ⟨rfl, Eq.trans ?_ hquiet.symm⟩
      cases job <;> rfl
    | enter job =>
      refine ⟨rfl, Eq.trans ?_ hquiet.symm⟩
      simp only [step, FileWork.step_enter]
      cases job.lines <;> rfl
    | leave => exact ⟨rfl, hquiet.symm⟩
    | run i n rest stage =>
      cases stage with
      | line w =>
        obtain ⟨hspeed, hchore⟩ := LineWork.step_of_no_chore (w := w) h shutdown m
        refine ⟨hspeed, Eq.trans ?_ hchore⟩
        simp only [step, FileWork.step_line]
        cases (w.step shutdown m).2 <;> rfl
      | mark l => exact ⟨rfl, hquiet.symm⟩
      | askPause =>
        refine ⟨rfl, Eq.trans ?_ hquiet.symm⟩
        simp only [step, FileWork.step_askPause]
        split <;> rfl
      | hold k =>
        have hspeed : (k.step shutdown m).1.defaultSpeed = m.defaultSpeed := by
          cases k <;> rfl
        refine ⟨hspeed, Eq.trans ?_ hquiet.symm⟩
        simp only [step, FileWork.step_hold]
        cases (k.step shutdown m).2 <;> rfl
      | askAbort =>
        refine ⟨rfl, Eq.trans ?_ hquiet.symm⟩
        simp only [step, FileWork.step_askAbort]
        split <;> rfl
      | askShutdown =>
        refine ⟨rfl, Eq.trans ?_ hquiet.symm⟩
        simp only [step, FileWork.step_askShutdown]
        cases rest <;> split <;> rfl

end Task

namespace System

/-- The default speed is `v`, or will be once the command in execution is over. -/
structure Feeds (s : System α) (v : α) : Prop where
  busy : ∀ k c, s.chore? k = some c → c.Yields v s.engine.machine.defaultSpeed
  idle : s.Idles → s.engine.machine.defaultSpeed = v

variable {s : System α} {v : α}

theorem Feeds.congr {r : System α} (h : s.Feeds v) (hchore : ∀ k, r.chore? k = s.chore? k)
    (hspeed : r.engine.machine.defaultSpeed = s.engine.machine.defaultSpeed) : r.Feeds v := by
  constructor
  · intro k c hc
    rw [hspeed]
    exact h.busy k c ((hchore k).symm.trans hc)
  · intro hidle
    rw [hspeed]
    exact h.idle fun k => (hchore k).symm.trans (hidle k)

theorem feeds_of_sole {k : Nat} {c : Chore α} (hk : s.chore? k = some c)
    (hothers : ∀ l, l ≠ k → s.chore? l = none) (h : c.Yields v s.engine.machine.defaultSpeed) :
    s.Feeds v := by
  constructor
  · intro l d hd
    by_cases hlk : l = k
    · rw [hlk, hk] at hd
      cases hd
      exact h
    · rw [hothers l hlk] at hd
      cases hd
  · intro hidle
    rw [hidle k] at hk
    cases hk

theorem feeds_of_idle (hidle : s.Idles) (h : s.engine.machine.defaultSpeed = v) : s.Feeds v := by
  constructor
  · intro k c hc
    rw [hidle k] at hc
    cases hc
  · intro _
    exact h

theorem defaultSpeed_of_ne {ev : Event α} (hne : ∀ k, s.effect ev ≠ .step k) :
    (s.step ev).engine.machine.defaultSpeed = s.engine.machine.defaultSpeed := by
  have ha := s.allows_effect ev
  change (s.engine.after (s.effect ev)).machine.defaultSpeed = _
  generalize s.effect ev = eff at ha hne ⊢
  cases eff with
  | accept job => rw [Engine.after, Engine.submit_eq ha]
  | step k => exact absurd rfl (hne k)
  | grant r =>
    obtain ⟨n, hn, hmachine⟩ := Engine.exists_grant ha
    obtain ⟨f, rfl⟩ := Request.exists_flow_of_grant hn
    rw [hmachine]
  | drift m => exact ha.defaultSpeed
  | _ => rfl

theorem Orderly.chore?_of_ne (ho : s.Orderly) {ev : Event α} (hne : ∀ k, s.effect ev ≠ .step k)
    (k : Nat) : (s.step ev).chore? k = s.chore? k :=
  ho.eq_of_ne (f := (·.bind Task.chore?)) Task.chore?_of_fresh Task.chore?_notify hne k

theorem chore?_step_of_ne {k l : Nat} (h : l ≠ k) :
    (s.step (.task k)).chore? l = s.chore? l :=
  congrArg (Option.bind · Task.chore?) (Engine.task?_stepTask_of_ne s.engine h)

theorem Feeds.step_of_chore (h : s.Feeds v) (hsole : s.SoleWorker) {k : Nat} {t : Task α}
    {c : Chore α} (ht : s.engine.task? k = some t) (hc : t.chore? = some c) :
    (s.step (.task k)).Feeds v := by
  have hothers (l : Nat) (hlk : l ≠ k) : (s.step (.task k)).chore? l = none := by
    rw [chore?_step_of_ne hlk]
    cases hd : s.chore? l with
    | none => rfl
    | some d =>
      obtain ⟨u, hu, hud⟩ := Option.bind_eq_some_iff.mp hd
      have hboth := hsole l k u t hu ht (Or.inl (by rw [hud]; rfl)) (Or.inl (by rw [hc]; rfl))
      exact absurd hboth hlk
  have hmachine : (s.step (.task k)).engine.machine =
      (c.step s.engine.shutdown s.engine.machine).1 :=
    (Engine.machine_stepTask ht).trans (Task.step_of_chore hc _ _)
  have htask : (s.step (.task k)).engine.task? k =
      (t.step s.engine.shutdown s.engine.machine).2 := Engine.task?_stepTask_self ht
  have hck : s.chore? k = some c := Option.bind_eq_some_iff.mpr ⟨t, ht, hc⟩
  have hyields := Chore.yields_step (h.busy k c hck) s.engine.shutdown
  rw [← hmachine] at hyields
  cases hd : (c.step s.engine.shutdown s.engine.machine).2 with
  | none =>
    rw [hd] at hyields
    refine feeds_of_idle (fun l => ?_) hyields
    by_cases hlk : l = k
    · rw [hlk, chore?, htask]
      exact Task.chore?_of_step_none hc hd
    · exact hothers l hlk
  | some d =>
    rw [hd] at hyields
    obtain ⟨u, hu, hud⟩ := Task.chore?_of_step hc hd
    refine feeds_of_sole ?_ hothers hyields
    rw [chore?, htask, hu]
    exact hud

theorem Feeds.step_of_no_chore (h : s.Feeds v)
    (hx : s.engine.shutdown = false → s.engine.Exclusive) {k : Nat} {t : Task α}
    (ht : s.engine.task? k = some t) (hc : t.chore? = none) :
    (s.step (.task k)).Feeds (((s.upcoming? k).bind Gcode.Command.feed?).getD v) := by
  obtain ⟨hspeed, hchore⟩ := Task.step_of_no_chore hc s.engine.shutdown s.engine.machine
  have hmachine : (s.step (.task k)).engine.machine.defaultSpeed =
      s.engine.machine.defaultSpeed :=
    (congrArg Machine.defaultSpeed (Engine.machine_stepTask ht)).trans hspeed
  have hafter : (s.step (.task k)).chore? k = (s.upcoming? k).map Chore.ofCommand := by
    have htask : (s.step (.task k)).engine.task? k =
        (t.step s.engine.shutdown s.engine.machine).2 := Engine.task?_stepTask_self ht
    rw [chore?, htask, hchore, upcoming?, ht]
    rfl
  have hbefore : s.chore? k = none := by
    rw [chore?, ht]
    exact hc
  cases hup : s.upcoming? k with
  | none =>
    rw [hup] at hafter
    refine h.congr (fun l => ?_) hmachine
    by_cases hlk : l = k
    · rw [hlk, hafter, hbefore]
      rfl
    · exact chore?_step_of_ne hlk
  | some c =>
    -- Shutdown is not requested, so that this is the only task.
    have hdown : s.engine.shutdown = false := by
      cases hs : s.engine.shutdown with
      | false => rfl
      | true => simp [upcoming?, hs] at hup
    have halone (l : Nat) (hlk : l ≠ k) : s.chore? l = none := by
      rw [chore?, Engine.Unique.none_of_ne (hx hdown).unique ht hlk]
      rfl
    have hidle : s.Idles := fun l => by
      by_cases hlk : l = k
      · rw [hlk, hbefore]
      · exact halone l hlk
    rw [hup] at hafter
    refine feeds_of_sole hafter (fun l hlk => ?_) ?_
    · rw [chore?_step_of_ne hlk]
      exact halone l hlk
    · rw [hmachine, h.idle hidle, Option.bind_some]
      exact Chore.yields_ofCommand c v

theorem Feeds.step_task (h : s.Feeds v) (hsole : s.SoleWorker)
    (hx : s.engine.shutdown = false → s.engine.Exclusive) (k : Nat) :
    (s.step (.task k)).Feeds (((s.upcoming? k).bind Gcode.Command.feed?).getD v) := by
  cases ht : s.engine.task? k with
  | none =>
    have hengine : (s.step (.task k)).engine = s.engine := Engine.stepTask_of_none ht
    have hnote : s.upcoming? k = none := by
      rw [upcoming?, ht]
      exact ite_self _
    rw [hnote]
    refine h.congr (fun l => ?_) ?_
    · rw [chore?, chore?, hengine]
    · rw [hengine]
  | some t =>
    cases hc : t.chore? with
    | none => exact h.step_of_no_chore hx ht hc
    | some c =>
      have hnote : s.upcoming? k = none := by
        rw [upcoming?, ht, Option.bind_some, Task.upcoming?_of_chore hc]
        exact ite_self _
      rw [hnote]
      exact h.step_of_chore hsole ht hc

/-- After every run the default speed is that of the commands carried out, or will be. -/
theorem feeds_run (machine : MachineConfig α) (config : EngineConfig α)
    (evs : List (Event α)) : ((start machine config).run evs).Feeds
      (feedAfter machine.defaultSpeed ((start machine config).executed evs)) := by
  induction evs using List.reverseRecOn with
  | nil =>
    apply feeds_of_idle
    · intro k
      simp [chore?, start, Engine.ofParts, Engine.task?]
    · rfl
  | append_singleton evs ev ih =>
    have ho := orderly_run (orderly_start machine config) evs
    have hsole := soleWorker_run machine config evs
    have hx := exclusive_of_not_shutdown (orderly_start machine config)
      (exclusive_start machine config) evs
    rw [executed_concat, run_concat]
    generalize (start machine config).run evs = s at ih ho hsole hx ⊢
    by_cases hev : ∃ k, ev = .task k
    · obtain ⟨k, rfl⟩ := hev
      rw [feedAfter_toList]
      exact ih.step_task hsole hx k
    · have hne (k : Nat) : s.effect ev ≠ .step k := fun hstep => hev ⟨k, event_of_effect hstep⟩
      have hnote : ev.task?.bind s.upcoming? = none := by
        cases ev with
        | task k => exact absurd ⟨k, rfl⟩ hev
        | _ => rfl
      rw [hnote, Option.toList_none, List.append_nil]
      exact ih.congr (ho.chore?_of_ne hne) (defaultSpeed_of_ne hne)

/-- The default speed follows the commands in every run. -/
theorem modalFeed_run (machine : MachineConfig α) (config : EngineConfig α)
    (evs : List (Event α)) :
    (start machine config).ModalFeed machine.defaultSpeed evs where
  last := by
    intro pre post _ hidle
    exact (feeds_run machine config pre).idle hidle
  kept := by
    intro pre mid post _ hpre hmid hnone
    rw [(feeds_run machine config (pre ++ mid)).idle hmid, (feeds_run machine config pre).idle hpre,
      executed, notes_append]
    exact feedAfter_append_of_none machine.defaultSpeed hnone
  admitted := by
    intro pre post _ text htext
    exact exists_job_of_entered machine config htext
  spelled := by
    intro pre post _
    exact (follows_run machine config pre).inOrder
  whole := by
    intro pre post _ hdown hline
    exact executed_eq machine config hdown hline

/-- A move that names no axis sets the feed, and a line with a bad word after its feed does not. -/
theorem modalFeed_rejected_line :
    let s := start (MachineConfig.stock : MachineConfig Float) EngineConfig.stock
    let evs := [.call (.line "G1 F1200"), .client 0] ++ List.replicate 6 (.task 0) ++
      [.call (.line "G1 F600 ?"), .client 1, .task 1, .task 1]
    (s.entered evs = ["G1 F1200", "G1 F600 ?"] ∧ (s.executed evs).length = 1 ∧
      (s.run evs).engine.tasks = [none, none] ∧ s.engine.machine.defaultSpeed = 0.01 ∧
      (s.run evs).engine.machine.defaultSpeed = 0.02) ∧
      s.ModalFeed s.engine.machine.defaultSpeed evs :=
  ⟨by decide +kernel, modalFeed_run _ _ _⟩

end System

end Gantry
