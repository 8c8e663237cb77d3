import Gantry.Proofs.Execution.WindDown

/-!
# Shutdown

What shutdown means for a task that is in a nap when it is requested, in every interleaving of
what follows: the task takes no further nap, begins no line and is over after a bounded number of
its steps, and the aims of the machine stay what they were. The one exception is the axis that
homing backs off at that moment, which still gets the target of the leg to follow.

Nothing here assumes that the steps of the task are uninterrupted.
-/

namespace Gantry

variable {α : Type} [Scalar α]

/-- A task that carries out a command or takes a nap. -/
def Task.Engaged (t : Task α) : Prop :=
  t.chore?.isSome ∨ t.nap?.isSome

omit [Scalar α] in
theorem LineWork.not_isAsleep {w : LineWork α} (h : w.chore? = none) : w.isAsleep = false := by
  cases w with
  | busy c rest => cases h
  | _ => rfl

theorem FileWork.not_isHeld_step {w v : FileWork α} {m : Machine α}
    (hv : (w.step true m).2 = some v) : v.isHeld = false := by
  cases w with
  | read job =>
    obtain ⟨j, -, rfl⟩ := Option.map_eq_some_iff.mp hv
    rfl
  | enter job =>
    cases hv
    cases job.lines <;> rfl
  | leave => cases hv
  | run i n rest stage =>
    cases stage with
    | mark l =>
      cases hv
      rfl
    | line w =>
      rw [step_line] at hv
      cases hv
      split <;> rfl
    | askPause =>
      rw [step_askPause] at hv
      cases hv
      split <;> rfl
    | hold k =>
      rw [step_hold] at hv
      cases hv
      cases hx : (k.step true m).2 with
      | some x =>
        have := (Hold.windDown_step hx).2
        cases x with
        | nap => exact absurd rfl this
        | _ => rfl
      | none => rfl
    | askAbort =>
      rw [step_askAbort] at hv
      cases hv
      split <;> rfl
    | askShutdown =>
      cases hv
      rfl

namespace Task

theorem not_engaged_step {t u : Task α} (h : ¬ t.Engaged) {m : Machine α}
    (hu : (t.step true m).2 = some u) : ¬ u.Engaged := by
  have ht : t.chore? = none := by
    cases hc : t.chore? with
    | none => rfl
    | some c => exact absurd (Or.inl (by simp [hc])) h
  have huc := chore?_step ht hu
  rintro (hc | hn)
  · simp [huc] at hc
  · cases t with
    | line w =>
      obtain ⟨v, hv, rfl⟩ := Option.map_eq_some_iff.mp hu
      simp [nap?, LineWork.not_isAsleep huc] at hn
    | file w =>
      obtain ⟨v, hv, rfl⟩ := Option.map_eq_some_iff.mp hu
      have hp : v.isPolling = false := by
        cases v with
        | run i n rest stage =>
          cases stage with
          | line w => exact LineWork.not_isAsleep huc
          | _ => rfl
        | _ => rfl
      simp [nap?, hp, FileWork.not_isHeld_step hv] at hn

omit [Scalar α] in
theorem not_engaged_of_fresh {t : Task α} (h : t.Fresh) : ¬ t.Engaged := by
  cases t with
  | line w =>
    cases w with
    | enter l => rintro (h | h) <;> cases h
    | _ => cases h
  | file w =>
    cases w with
    | read job => rintro (h | h) <;> cases h
    | _ => cases h

omit [Scalar α] in
theorem engaged_of_notify {t : Task α} (h : t.notify.Engaged) : t.Engaged := by
  rcases t.notify_cases with hsame | ⟨i, n, rest, k, rfl, -⟩
  · rwa [hsame] at h
  · -- A pause that was given notice takes no nap.
    exfalso
    cases k <;> rcases h with h | h <;> cases h

end Task

namespace System

/-- At most one task is engaged. -/
def SoleWorker (s : System α) : Prop :=
  ∀ k l t u, s.engine.task? k = some t → s.engine.task? l = some u → t.Engaged → u.Engaged → k = l

theorem engaged_before {e : Engine α} {eff : Effect α} (ha : e.Allows eff) (hs : e.shutdown = true)
    (hf : ∀ job, eff = .accept job → job.Fresh) {k : Nat} {u : Task α}
    (hu : (e.after eff).task? k = some u) (hw : u.Engaged) :
    ∃ t, e.task? k = some t ∧ t.Engaged := by
  have hc := Engine.taskChange_after ha k
  rw [hu] at hc
  generalize hv : some u = v at hc
  cases hc with
  | admitted hk =>
    cases hv
    exact absurd hw (Task.not_engaged_of_fresh (hf u rfl))
  | stepped ht =>
    rename_i t
    rw [hs] at hv
    refine ⟨t, ht, ?_⟩
    by_contra hn
    exact Task.not_engaged_step hn hv.symm hw
  | noticed =>
    obtain ⟨t, ht, rfl⟩ := Option.map_eq_some_iff.mp hv.symm
    exact ⟨t, ht, Task.engaged_of_notify hw⟩
  | same => exact ⟨u, hv.symm, hw⟩

theorem soleWorker_step {s : System α} (ho : s.Orderly)
    (hx : s.engine.shutdown = false → s.engine.Exclusive) (h : s.SoleWorker) (ev : Event α) :
    (s.step ev).SoleWorker := by
  have ha := s.allows_effect ev
  intro k l t u ht hu hwt hwu
  cases hs : s.engine.shutdown with
  | false =>
    have hex : (s.step ev).engine.Exclusive := ho.exclusive_step hs (hx hs) ev
    exact hex.unique (by simp [ht]) (by simp [hu])
  | true =>
    obtain ⟨t', ht', hwt'⟩ := engaged_before ha hs (fun job => ho.fresh_of_accept) ht hwt
    obtain ⟨u', hu', hwu'⟩ := engaged_before ha hs (fun job => ho.fresh_of_accept) hu hwu
    exact h k l t' u' ht' hu' hwt' hwu'

theorem soleWorker_run (machine : MachineConfig α) (config : EngineConfig α)
    (evs : List (Event α)) : ((start machine config).run evs).SoleWorker := by
  induction evs using List.reverseRecOn with
  | nil =>
    intro k l t u ht
    simp [start, Engine.ofParts, Engine.task?] at ht
  | append_singleton evs ev ih =>
    rw [run_concat]
    exact soleWorker_step (orderly_run (orderly_start machine config) evs)
      (exclusive_of_not_shutdown (orderly_start machine config) (exclusive_start machine config)
        evs) ih ev

end System

namespace Machine

/-- The aims of two machines are the same, the target of one axis apart. -/
structure SameAimsBut (i : Option AxisId) (m n : Machine α) : Prop where
  target : ∀ j, i ≠ some j → (n.axis j).target = (m.axis j).target
  offset : ∀ j, (n.axis j).offset = (m.axis j).offset
  setPoint : ∀ h, (n.heater h).setPoint = (m.heater h).setPoint

omit [Scalar α] in
theorem SameAims.but {m n : Machine α} (h : SameAims m n) (i : Option AxisId) :
    SameAimsBut i m n :=
  ⟨fun j _ => h.target j, h.offset, h.setPoint⟩

omit [Scalar α] in
theorem SameAimsBut.trans {i : Option AxisId} {m n o : Machine α} (h : SameAimsBut i m n)
    (k : SameAimsBut i n o) : SameAimsBut i m o :=
  ⟨fun j hj => (k.target j hj).trans (h.target j hj),
    fun j => (k.offset j).trans (h.offset j), fun j => (k.setPoint j).trans (h.setPoint j)⟩

omit [Scalar α] in
theorem SameParts.sameAims {m n : Machine α} (h : SameParts m n) : SameAims m n := by
  refine ⟨fun i => ?_, fun i => ?_, fun k => ?_⟩
  · rw [axis, h.axes, axis]
  · rw [axis, h.axes, axis]
  · rw [heater, h.heaters, heater]

theorem sameAimsBut_planMove (m : Machine α) (i : AxisId) (v t : α) :
    SameAimsBut (some i) m (m.planMove (PerAxis.single i v) t) := by
  have hoff (j : AxisId) : ((m.planMove (PerAxis.single i v) t).axis j).offset =
      (m.axis j).offset := by
    simp only [axis, planMove, PerAxis.get_ofFn]
    split
    · rfl
    · split
      · rfl
      · exact Axis.planTo_offset _ _ _
  refine ⟨fun j hj => ?_, hoff, fun _ => rfl⟩
  have hji : j ≠ i := fun e => hj (by rw [e])
  simp [axis, planMove, PerAxis.get_single_of_ne v hji]

theorem sameAimsBut_creep (m : Machine α) (i : AxisId) (v : α) :
    SameAimsBut (some i) m (m.creep i v) := by
  have href (n : Machine α) (hn : m.SameParts n) : SameAimsBut (some i) m n :=
    hn.sameAims.but (some i)
  unfold creep setTarget
  cases hf : m.withFeed? (some Leg.creep.speed) with
  | none => exact href m ⟨rfl, rfl⟩
  | some n =>
    have hn : m.SameParts n := by
      simp only [withFeed?] at hf
      split at hf
      · cases hf
        exact ⟨rfl, rfl⟩
      · cases hf
    simp only
    split
    · exact href n hn
    · exact (href n hn).trans (sameAimsBut_planMove n i v _)

end Machine

theorem Engine.sameAims_after {e : Engine α} {eff : Effect α} (ha : e.Allows eff)
    (hs : ∀ k, eff ≠ .step k) : e.machine.SameAims (e.after eff).machine := by
  cases eff with
  | accept job =>
    rw [after, submit_eq ha]
    exact Machine.SameAims.refl _
  | step k => exact absurd rfl (hs k)
  | grant r =>
    obtain ⟨n, hn, hm⟩ := exists_grant ha
    obtain ⟨f, rfl⟩ := Request.exists_flow_of_grant hn
    rw [hm]
    exact ⟨fun _ => rfl, fun _ => rfl, fun _ => rfl⟩
  | drift m => exact ha.toSameAims
  | _ => exact Machine.SameAims.refl _

def Event.isStepOf (k : Nat) : Event α → Bool
  | .task l => l == k
  | _ => false

namespace System

/-- Shutdown was requested, and of all tasks only `k`, which winds down, may have a command to
carry out. -/
structure Winding (s : System α) (k : Nat) : Prop where
  orderly : s.Orderly
  shutdown : s.engine.shutdown = true
  lt : k < s.engine.tasks.length
  winds : ∀ t, s.engine.task? k = some t → t.windDown?.isSome
  others : ∀ l t, l ≠ k → s.engine.task? l = some t → t.chore? = none

namespace Winding

variable {s : System α} {k : Nat}

theorem step (h : s.Winding k) (ev : Event α) : (s.step ev).Winding k := by
  have ha := s.allows_effect ev
  refine ⟨orderly_step h.orderly ev, Engine.shutdown_after h.shutdown _,
    Nat.lt_of_lt_of_le h.lt (Engine.length_after_le _ _), ?_, ?_⟩
  · refine Engine.lasts_after (P := fun t => t.windDown?.isSome) ?_ ?_ ha h.shutdown h.lt h.winds
    · intro m t u ht hu
      exact (Task.shrinks_step ht hu).isSome ht
    · intro t ht
      exact Task.isSome_windDown?_notify ht
  · intro l u hl hu
    have hc := s.taskChange ev l
    rw [hu] at hc
    generalize hv : some u = v at hc
    generalize he : s.effect ev = eff at hc
    cases hc with
    | admitted hk =>
      cases hv
      exact Task.chore?_of_fresh (h.orderly.fresh_of_accept he)
    | stepped ht =>
      rw [h.shutdown] at hv
      exact Task.chore?_step (h.others l _ hl ht) hv.symm
    | noticed =>
      obtain ⟨t, ht, rfl⟩ := Option.map_eq_some_iff.mp hv.symm
      exact (Task.chore?_notify t).trans (h.others l t hl ht)
    | same => exact h.others l u hl hv.symm

theorem run (h : s.Winding k) (evs : List (Event α)) : (s.run evs).Winding k :=
  run_induction (P := fun s => s.Winding k) (fun _ ev h => h.step ev) h evs

theorem awake (h : s.Winding k) {u : Task α}
    (hu : (s.step (.task k)).engine.task? k = some u) : u.nap? = none := by
  cases ht : s.engine.task? k with
  | none =>
    have : (s.step (.task k)).engine.task? k = none := by
      rw [← ht]
      exact congrArg (Engine.task? · k) (Engine.stepTask_of_none ht)
    rw [this] at hu
    cases hu
  | some t =>
    have hs := (Engine.task?_stepTask_self ht).symm.trans hu
    rw [h.shutdown] at hs
    have := (Task.shrinks_step (h.winds t ht) hs).awake
    simpa [Task.outlook] using this

theorem begun_eq_nil (h : s.Winding k) (evs : List (Event α)) : s.begun k evs = [] := by
  induction evs generalizing s with
  | nil => rfl
  | cons ev evs ih =>
    have hb : s.beginning? k ev = none := by
      cases ev with
      | task l =>
        by_cases hl : l = k
        · cases ht : s.engine.task? k with
          | none => exact beginning?_of_none ht _
          | some t =>
            simp [beginning?, hl, ht, Task.beginning?_of_windDown? (h.winds t ht)]
        · simp [beginning?, hl]
      | _ => rfl
    simp [begun, hb, ih (h.step ev)]

theorem over_of_count (h : s.Winding k) (evs : List (Event α))
    (hn : ∀ t, s.engine.task? k = some t →
      ∃ n, t.windDown? = some n ∧ n ≤ evs.countP (Event.isStepOf k)) :
    (s.run evs).engine.task? k = none := by
  induction evs generalizing s with
  | nil =>
    cases ht : s.engine.task? k with
    | none => exact ht
    | some t =>
      obtain ⟨n, hw, hle⟩ := hn t ht
      have := Task.pos_of_windDown? hw
      simp only [List.countP_nil] at hle
      omega
  | cons ev evs ih =>
    apply ih (h.step ev)
    intro u hu
    have hc := s.taskChange ev k
    rw [hu] at hc
    generalize hv : some u = v at hc
    generalize he : s.effect ev = eff at hc
    have hcount (hne : eff ≠ .step k) :
        (ev :: evs).countP (Event.isStepOf k) = evs.countP (Event.isStepOf k) := by
      apply List.countP_cons_of_neg
      cases ev with
      | task l =>
        have : l ≠ k := fun e => hne (by rw [← he, e]; rfl)
        simpa [Event.isStepOf] using this
      | _ => simp [Event.isStepOf]
    cases hc with
    | admitted hk => exact absurd hk (Nat.ne_of_lt h.lt)
    | stepped ht =>
      obtain ⟨n, hw, hle⟩ := hn _ ht
      rw [h.shutdown] at hv
      obtain ⟨j, hj, hlt⟩ := (Task.shrinks_step (h.winds _ ht) hv.symm).steps hw
      refine ⟨j, hj, ?_⟩
      have hev := event_of_effect he
      subst hev
      rw [List.countP_cons_of_pos (by simp [Event.isStepOf])] at hle
      omega
    | noticed =>
      obtain ⟨t, ht, rfl⟩ := Option.map_eq_some_iff.mp hv.symm
      obtain ⟨n, hw, hle⟩ := hn t ht
      obtain ⟨j, hj, hle'⟩ := Task.windDown?_notify hw
      rw [hcount (by simp)] at hle
      exact ⟨j, hj, by omega⟩
    | same hsame =>
      rcases hsame with hne | hnone
      · obtain ⟨n, hw, hle⟩ := hn u hv.symm
        rw [hcount hne] at hle
        exact ⟨n, hw, hle⟩
      · rw [hnone] at hv
        cases hv

/-- A step leaves axes and heaters alone, unless it sends the axis that the task owes a leg. -/
theorem task_step (h : s.Winding k) (l : Nat) :
    s.engine.machine.SameParts (s.step (.task l)).engine.machine ∨
      l = k ∧ ∃ t i v, s.engine.task? k = some t ∧ t.outlook.sends = some (i, v) ∧
        (s.step (.task l)).engine.machine = s.engine.machine.creep i v := by
  cases ht : s.engine.task? l with
  | none =>
    left
    rw [show (s.step (.task l)).engine = s.engine from Engine.stepTask_of_none ht]
    exact ⟨rfl, rfl⟩
  | some t =>
    have hm : (s.step (.task l)).engine.machine =
        (t.step s.engine.shutdown s.engine.machine).1 := Engine.machine_stepTask ht
    rw [hm, h.shutdown]
    cases hc : t.chore? with
    | none => exact Or.inl (Task.sameParts_step hc _ _)
    | some c =>
      have hl : l = k := by
        by_contra hl
        rw [h.others l t hl ht] at hc
        cases hc
      rw [hl] at ht
      have hw := Task.windDown?_of_chore (h.winds t ht) hc
      rw [Task.step_of_chore hc]
      cases hs : c.sends? with
      | none => exact Or.inl (Chore.sameParts_step hw hs _)
      | some p =>
        refine Or.inr ⟨hl, t, p.1, p.2, ht, ?_, Chore.creep_of_sends hs _ _⟩
        simp [Task.outlook, hc, hs]

end Winding

/-- The legs that task `k` may still owe. -/
def Owes (s : System α) (k : Nat) (o : Option (AxisId × α)) : Prop :=
  ∀ t, s.engine.task? k = some t → t.outlook.owed = o ∨ t.outlook.owed = none

namespace Winding

variable {s : System α} {k : Nat} {o : Option (AxisId × α)}

theorem owes_step (h : s.Winding k) (ho : s.Owes k o) (ev : Event α) : (s.step ev).Owes k o := by
  have hlast := Engine.lasts_after
    (P := fun t => t.windDown?.isSome ∧ (t.outlook.owed = o ∨ t.outlook.owed = none)) ?_ ?_
    (s.allows_effect ev) h.shutdown h.lt fun t ht => ⟨h.winds t ht, ho t ht⟩
  · exact fun t ht => (hlast t ht).2
  · rintro m t u ⟨hw, hot⟩ hu
    have hs := Task.shrinks_step hw hu
    refine ⟨hs.isSome hw, ?_⟩
    rcases hs.owed with he | he
    · rwa [he]
    · exact Or.inr he
  · rintro t ⟨hw, hot⟩
    refine ⟨Task.isSome_windDown?_notify hw, ?_⟩
    simpa only [Task.outlook, Task.chore?_notify] using hot

theorem owes_none_of_sends (h : s.Winding k) {t : Task α} (ht : s.engine.task? k = some t)
    (hs : t.outlook.sends.isSome) : (s.step (.task k)).Owes k none := by
  intro u hu
  have hu' := (Engine.task?_stepTask_self ht).symm.trans hu
  rw [h.shutdown] at hu'
  exact Or.inl ((Task.shrinks_step (h.winds t ht) hu').sent hs)

/-- All steps but one leave axes and heaters alone, and that one sends the axis that was owed a
leg. -/
theorem parts_run (h : s.Winding k) (ho : s.Owes k o) (evs : List (Event α)) :
    ∃ n, ∀ mid l post, evs = mid ++ .task l :: post →
      (s.run mid).engine.machine.SameParts (s.run (mid ++ [.task l])).engine.machine ∨
        mid.length = n ∧ l = k ∧ ∃ i v, o = some (i, v) ∧
          (s.run (mid ++ [.task l])).engine.machine = (s.run mid).engine.machine.creep i v := by
  induction evs generalizing s o with
  | nil =>
    refine ⟨0, fun mid l post hm => ?_⟩
    cases mid <;> cases hm
  | cons ev evs ih =>
    by_cases hs : ∃ l, ev = .task l ∧
        ¬ s.engine.machine.SameParts (s.step (.task l)).engine.machine
    · obtain ⟨l, rfl, hne⟩ := hs
      rcases h.task_step l with hp | ⟨rfl, t, i, v, ht, hsends, hm⟩
      · exact absurd hp hne
      · have howed : o = some (i, v) := by
          have := ho t ht
          rw [Task.owed_of_sends hsends] at this
          rcases this with ho | ho
          · exact ho.symm
          · cases ho
        obtain ⟨n, hn⟩ := ih (h.step _) (h.owes_none_of_sends ht (by simp [hsends]))
        refine ⟨0, fun mid l' post hmid => ?_⟩
        cases mid with
        | nil =>
          cases hmid
          exact Or.inr ⟨rfl, rfl, i, v, howed, hm⟩
        | cons ev' mid =>
          cases hmid
          rcases hn mid l' post rfl with hp | ⟨-, -, i', v', hno, -⟩
          · exact Or.inl hp
          · cases hno
    · obtain ⟨n, hn⟩ := ih (h.step ev) (h.owes_step ho ev)
      refine ⟨n + 1, fun mid l post hmid => ?_⟩
      cases mid with
      | nil =>
        cases hmid
        left
        by_contra hne
        exact hs ⟨l, rfl, hne⟩
      | cons ev' mid =>
        cases hmid
        rcases hn mid l post rfl with hp | ⟨hlen, hrest⟩
        · exact Or.inl hp
        · exact Or.inr ⟨by rw [List.length_cons, hlen], hrest⟩

theorem aims_run (h : s.Winding k) (ho : s.Owes k o) (evs : List (Event α)) :
    s.engine.machine.SameAimsBut (o.map (·.1)) (s.run evs).engine.machine := by
  induction evs generalizing s with
  | nil => exact (Machine.SameAims.refl _).but _
  | cons ev evs ih =>
    refine Machine.SameAimsBut.trans ?_ (ih (h.step ev) (h.owes_step ho ev))
    by_cases he : ∃ l, s.effect ev = .step l
    · obtain ⟨l, he⟩ := he
      have hev := event_of_effect he
      subst hev
      rcases h.task_step l with hp | ⟨-, t, i, v, ht, hsends, hm⟩
      · exact hp.sameAims.but _
      · have := ho t ht
        rw [Task.owed_of_sends hsends] at this
        rcases this with ho | ho
        · rw [hm, ← ho]
          exact Machine.sameAimsBut_creep _ i v
        · cases ho
    · refine Machine.SameAims.but ?_ _
      exact Engine.sameAims_after (s.allows_effect ev) fun l hl => he ⟨l, hl⟩

theorem step_chore (h : s.Winding k) {t : Task α} (ht : s.engine.task? k = some t)
    {c d : Chore α} (hc : t.chore? = some c) (hd : (c.step true s.engine.machine).2 = some d) :
    ∃ u, (s.step (.task k)).engine.task? k = some u ∧ u.chore? = some d ∧
      (s.step (.task k)).engine.machine = (c.step true s.engine.machine).1 := by
  obtain ⟨u, hu, hcu⟩ := Task.chore?_of_step hc hd
  have h1 : (s.step (.task k)).engine.task? k =
      (t.step s.engine.shutdown s.engine.machine).2 := Engine.task?_stepTask_self ht
  have h2 : (s.step (.task k)).engine.machine =
      (t.step s.engine.shutdown s.engine.machine).1 := Engine.machine_stepTask ht
  rw [h.shutdown] at h1 h2
  exact ⟨u, h1.trans hu, hcu, h2.trans (Task.step_of_chore hc true _)⟩

/-- Three steps from its nap a task that backs off has sent the axis to creep. -/
theorem creep_of_backsOff (h : s.Winding k) {t : Task α} (ht : s.engine.task? k = some t)
    (hn : t.nap?.isSome) {i : AxisId} (hi : t.backsOff? = some i) :
    (s.run [.task k, .task k, .task k]).engine.machine = s.engine.machine.creep i 0.0 := by
  have hc : ∃ saved rest, t.chore? = some (.homing saved i rest (.travel .backOff .nap)) := by
    unfold Task.backsOff? at hi
    split at hi
    · rename_i saved j rest w hc
      cases hi
      have ha := Task.isAsleep_of_nap hn hc
      cases w with
      | nap => exact ⟨saved, rest, hc⟩
      | _ => cases ha
    · cases hi
  obtain ⟨saved, rest, hc⟩ := hc
  obtain ⟨t1, ht1, hc1, hm1⟩ := h.step_chore ht hc rfl
  obtain ⟨t2, ht2, hc2, hm2⟩ := (h.step _).step_chore ht1 hc1 rfl
  obtain ⟨t3, -, -, hm3⟩ := ((h.step _).step _).step_chore ht2 hc2 rfl
  refine hm3.trans ?_
  rw [hm2, hm1]
  rfl

end Winding

/-- What follows for task `k`, in a nap as `t`, in a run of a system where shutdown was requested
just now. -/
structure WindsDown (s : System α) (k : Nat) (t : Task α) (evs : List (Event α)) : Prop where
  /-- The task takes no further nap. -/
  awake : ∀ mid post u, evs = mid ++ .task k :: post →
    (s.run (mid ++ [.task k])).engine.task? k = some u → u.nap? = none
  /-- It begins no line of its file. -/
  lines : s.begun k evs = []
  /-- It is over after a fixed number of steps. -/
  ends : 17 ≤ evs.countP (Event.isStepOf k) → (s.run evs).engine.task? k = none
  /-- No step touches axes or heaters, apart from one that sends the axis that backs off to
  creep. -/
  parts : ∃ n, ∀ mid l post, evs = mid ++ .task l :: post →
    (s.run mid).engine.machine.SameParts (s.run (mid ++ [.task l])).engine.machine ∨
      mid.length = n ∧ l = k ∧ ∃ i, t.backsOff? = some i ∧
        (s.run (mid ++ [.task l])).engine.machine = (s.run mid).engine.machine.creep i 0.0
  /-- The aims stay what they were, apart from the target of the axis that backs off. -/
  aims : s.engine.machine.SameAimsBut t.backsOff? (s.run evs).engine.machine
  /-- That axis is sent indeed. -/
  creeps : ∀ i, t.backsOff? = some i → evs = [.task k, .task k, .task k] →
    (s.run evs).engine.machine = s.engine.machine.creep i 0.0

theorem Winding.windsDown {s : System α} {k : Nat} (h : s.Winding k) {t : Task α}
    (ht : s.engine.task? k = some t) (hn : t.nap?.isSome) (evs : List (Event α)) :
    s.WindsDown k t evs := by
  have ho : s.Owes k (t.backsOff?.map fun i => (i, 0.0)) := by
    intro u hu
    rw [ht] at hu
    cases hu
    exact Or.inl (Task.owed_of_nap hn)
  refine ⟨?_, h.begun_eq_nil evs, ?_, ?_, ?_, ?_⟩
  · rintro mid post u - hu
    rw [run_concat] at hu
    exact (h.run mid).awake hu
  · intro hcount
    refine h.over_of_count evs fun u hu => ?_
    rw [ht] at hu
    cases hu
    obtain ⟨n, hw, hle⟩ := Task.windDown?_of_nap hn
    exact ⟨n, hw, Nat.le_trans hle hcount⟩
  · obtain ⟨n, hparts⟩ := h.parts_run ho evs
    refine ⟨n, fun mid l post hm => ?_⟩
    rcases hparts mid l post hm with hp | ⟨hlen, hl, i, v, hi, hcreep⟩
    · exact Or.inl hp
    · obtain ⟨j, hj, he⟩ := Option.map_eq_some_iff.mp hi
      cases he
      exact Or.inr ⟨hlen, hl, i, hj, hcreep⟩
  · have := h.aims_run ho evs
    rwa [Option.map_map, show ((·.1) ∘ fun i => ((i, 0.0) : AxisId × α)) = id from rfl,
      Option.map_id] at this
  · rintro i hi rfl
    exact h.creep_of_backsOff ht hn hi

theorem winding_of_raise {machine : MachineConfig α} {config : EngineConfig α}
    {pre : List (Event α)} {ev : Event α} {k : Nat} {t : Task α}
    (hr : ((start machine config).run pre).effect ev = .raise)
    (ht : ((start machine config).run pre).engine.task? k = some t) (hn : t.nap?.isSome) :
    (((start machine config).run pre).step ev).Winding k := by
  have hsole := soleWorker_run machine config pre
  have htask (l : Nat) : (((start machine config).run pre).step ev).engine.task? l =
      ((start machine config).run pre).engine.task? l := by
    simp [step, hr, Engine.after, Engine.task?]
  refine ⟨orderly_step (orderly_run (orderly_start machine config) pre) ev, ?_, ?_, ?_, ?_⟩
  · simp [step, hr, Engine.after]
  · exact Engine.lt_length_of_task? (by simp [htask, ht])
  · intro u hu
    rw [htask, ht] at hu
    cases hu
    obtain ⟨n, hw, -⟩ := Task.windDown?_of_nap hn
    simp [hw]
  · intro l u hl hu
    rw [htask] at hu
    cases hc : u.chore? with
    | none => rfl
    | some c =>
      have : l = k := hsole l k u t hu ht (Or.inl (by simp [hc])) (Or.inr hn)
      exact absurd this hl

/-- Shutdown while a task is in a nap, over every run. -/
theorem windsDown_run (machine : MachineConfig α) (config : EngineConfig α)
    (pre : List (Event α)) (ev : Event α) (k : Nat) (t : Task α) (post : List (Event α))
    (hr : ((start machine config).run pre).effect ev = .raise)
    (ht : ((start machine config).run pre).engine.task? k = some t) (hn : t.nap?.isSome) :
    (((start machine config).run pre).step ev).WindsDown k t post := by
  refine (winding_of_raise hr ht hn).windsDown ?_ hn post
  simpa [step, hr, Engine.after, Engine.task?] using ht

/-- A heater that is being waited for when shutdown is requested. -/
theorem windsDown_heating :
    let s := start (MachineConfig.stock : MachineConfig Float) EngineConfig.stock
    let pre := [.call (.line "M109 S200"), .client 0, .task 0, .task 0, .task 0, .task 0, .task 0,
      .call .shutdown]
    ∃ t, ((s.run pre).effect (.client 1) = .raise ∧ (s.run pre).engine.task? 0 = some t ∧
      t.nap?.isSome) ∧ ((s.run pre).step (.client 1)).WindsDown 0 t [.task 0, .task 0] := by
  intro s pre
  have hr : (s.run pre).effect (.client 1) = .raise := rfl
  have ht : (s.run pre).engine.task? 0 =
      some (.line (.busy (.await (.settled .nozzle) .nap) [])) := by decide +kernel
  exact ⟨_, ⟨hr, ht, rfl⟩, windsDown_run _ _ _ _ _ _ _ hr ht rfl⟩

/-- Homing that is interrupted while the first axis backs off: the axis still gets a new target. -/
theorem creep_after_shutdown :
    let s := (start (MachineConfig.stock : MachineConfig Float) EngineConfig.stock).run
      ([.call (.line "G28"), .client 0] ++ List.replicate 12 (.task 0) ++
        [.tick, .tick, .call .shutdown, .client 1])
    let u := s.run [.task 0, .task 0, .task 0]
    (s.engine.shutdown = true ∧ (s.engine.task? 0).bind Task.backsOff? = some .x ∧
      ((s.engine.task? 0).bind Task.nap?).isSome = true) ∧
      ((s.engine.machine.axis .x).target == 0.002) = true ∧
      ((u.engine.machine.axis .x).target == 0.0) = true := by
  decide +kernel

end System

end Gantry
