import Gantry.Proofs.Execution.FlowState

/-!
# Lines that begin

The lines of its file that a task begins in a run, against what lasts of the task meanwhile: a
property of the shutdown flag, the flow and the task that every step, notice and granted request
preserves.

Nothing here says how soon a line begins.
-/

namespace Gantry

variable {α : Type} [Scalar α]

variable {α : Type} [Scalar α]

namespace Task

/-- The line of the file that the task has turned to. -/
def index? : Task α → Option Nat
  | .file (.run i _ _ _) => some i
  | _ => none

/-- The line of the file that the next step of the task begins. -/
def beginning? : Task α → Option Nat
  | .file (.run i _ _ (.line (.enter _))) => some i
  | _ => none

omit [Scalar α] in
theorem chore?_of_beginning? {t : Task α} {i : Nat} (h : t.beginning? = some i) :
    t.chore? = none := by
  unfold beginning? at h
  split at h
  · rfl
  · cases h

end Task

namespace System

def beginning? (s : System α) (k : Nat) : Event α → Option Nat
  | .task l => if l = k then (s.engine.task? k).bind Task.beginning? else none
  | _ => none

/-- The lines of its file that task `k` begins in a run, in order. -/
def begun (s : System α) (k : Nat) : List (Event α) → List Nat
  | [] => []
  | ev :: evs => (s.beginning? k ev).toList ++ begun (s.step ev) k evs

/-- Task `k` is executing line `i` of its file. -/
def Executes (s : System α) (k i : Nat) : Prop :=
  s.engine.machine.flow.line.isSome ∧ (s.engine.task? k).bind Task.index? = some i

omit [Scalar α] in
theorem beginning?_of_none {s : System α} {k : Nat} (h : s.engine.task? k = none) (ev : Event α) :
    s.beginning? k ev = none := by
  cases ev with
  | task l => simp [beginning?, h]
  | _ => rfl

theorem beginning?_of_ne {s : System α} {k : Nat} {ev : Event α} (h : s.effect ev ≠ .step k) :
    s.beginning? k ev = none := by
  cases ev with
  | task l =>
    have hl : l ≠ k := fun e => h (by rw [e]; rfl)
    simp [beginning?, hl]
  | _ => rfl

omit [Scalar α] in
theorem task?_of_beginning? {s : System α} {k i : Nat} {ev : Event α}
    (h : s.beginning? k ev = some i) :
    ∃ t, s.engine.task? k = some t ∧ t.beginning? = some i := by
  cases ev with
  | task l =>
    by_cases hl : l = k
    · simpa [beginning?, hl, Option.bind_eq_some_iff] using h
    · simp [beginning?, hl] at h
  | _ => cases h

theorem lt_length_step {s : System α} {k : Nat} (hk : k < s.engine.tasks.length) (ev : Event α) :
    k < (s.step ev).engine.tasks.length :=
  Nat.lt_of_lt_of_le hk (Engine.length_after_le s.engine (s.effect ev))

theorem lt_length_run {s : System α} {k : Nat} (hk : k < s.engine.tasks.length)
    (evs : List (Event α)) : k < (s.run evs).engine.tasks.length :=
  Nat.lt_of_lt_of_le hk (s.length_run_le evs)

end System

/-- A property of the shutdown flag, the flow and a task that lasts while the task goes on, as
long as no other requests are granted than those allowed. -/
structure Lasts (allowed : Request → Prop) (P : Bool → Flow → Task α → Prop) : Prop where
  step : ∀ {shutdown : Bool} {m : Machine α} {t u : Task α}, P shutdown m.flow t →
    (t.step shutdown m).2 = some u → P shutdown (t.step shutdown m).1.flow u
  notice : ∀ {shutdown : Bool} {f : Flow} {t : Task α}, P shutdown f t → P shutdown f t.notify
  grant : ∀ {shutdown : Bool} {m n : Machine α} {t : Task α} {r : Request}, allowed r →
    P shutdown m.flow t → r.grant? m = some n → P shutdown n.flow t
  raise : ∀ {shutdown : Bool} {f : Flow} {t : Task α}, P shutdown f t → P true f t

def Engine.Sees (e : Engine α) (k : Nat) (P : Bool → Flow → Task α → Prop) : Prop :=
  ∀ t, e.task? k = some t → P e.shutdown e.machine.flow t

namespace Lasts

variable {allowed : Request → Prop} {P : Bool → Flow → Task α → Prop}

theorem after (hP : Lasts allowed P) {e : Engine α} (hu : e.Unique) {eff : Effect α}
    (ha : e.Allows eff) (hg : ∀ r, eff = .grant r → allowed r) {k : Nat}
    (hk : k < e.tasks.length) (h : e.Sees k P) : (e.after eff).Sees k P := by
  intro t ht
  cases eff with
  | accept job =>
    have hb : e.isBusy = false := ha
    have hkl : k ≠ e.tasks.length := Nat.ne_of_lt hk
    have ht' : e.task? k = some t := by
      rwa [Engine.after, Engine.task?_submit_of_ne hb job hkl] at ht
    simpa [Engine.after, Engine.submit_eq hb] using h t ht'
  | step l =>
    cases hl : e.task? l with
    | none =>
      rw [Engine.after, Engine.stepTask_of_none hl] at ht ⊢
      exact h t ht
    | some v =>
      -- Only the unfinished task can make a step, so that `l` is `k`.
      have hkl : k = l := by
        by_cases hkl : k = l
        · exact hkl
        · rw [Engine.after, Engine.task?_stepTask_of_ne e hkl, hu.none_of_ne hl hkl] at ht
          cases ht
      subst hkl
      rw [Engine.after, Engine.task?_stepTask_self hl] at ht
      rw [Engine.after, Engine.shutdown_stepTask, Engine.machine_stepTask hl]
      exact hP.step (h v hl) ht
  | notice =>
    simp only [Engine.after, Engine.task?_notify, Option.map_eq_some_iff] at ht
    obtain ⟨v, hv, rfl⟩ := ht
    exact hP.notice (h v hv)
  | grant r =>
    obtain ⟨n, hn, hm⟩ := Engine.exists_grant ha
    rw [hm]
    exact hP.grant (hg r rfl) (h t ht) hn
  | raise => exact hP.raise (h t ht)
  | drift m =>
    have hm : m.flow = e.machine.flow := ha.flow
    show P e.shutdown m.flow t
    rw [hm]
    exact h t ht
  | idle => exact h t ht
  | letGo => exact h t ht

theorem run (hP : Lasts allowed P) {s : System α} (hs : s.Serial) {evs : List (Event α)}
    (hl : s.NoLateJobs evs) (hg : ∀ r, .grant r ∈ s.effects evs → allowed r) {k : Nat}
    (hk : k < s.engine.tasks.length) (h : s.engine.Sees k P) : (s.run evs).engine.Sees k P := by
  induction evs generalizing s with
  | nil => exact h
  | cons ev evs ih =>
    have hnext : (s.step ev).engine.Sees k P :=
      hP.after hs.unique (s.allows_effect ev) (fun r hr => hg r (by simp [System.effects, hr])) hk h
    refine ih (hs.step hl.1) hl.2 (fun r hr => ?_) (System.lt_length_step hk ev) hnext
    exact hg r (List.mem_cons_of_mem _ hr)

/-- What begins is the first of what lies ahead, as long as a step takes off what it begins. -/
theorem begun_prefix (hP : Lasts allowed P) {ahead : Task α → Option Nat}
    (hstep : ∀ {shutdown : Bool} {m : Machine α} {t : Task α}, P shutdown m.flow t →
      t.beginning?.toList ++ ((t.step shutdown m).2.bind ahead).toList <+: (ahead t).toList)
    (hnotice : ∀ t, ahead t.notify = ahead t)
    {s : System α} (hs : s.Serial) {evs : List (Event α)} (hl : s.NoLateJobs evs)
    (hg : ∀ r, .grant r ∈ s.effects evs → allowed r) {k : Nat}
    (hk : k < s.engine.tasks.length) (h : s.engine.Sees k P) :
    s.begun k evs <+: ((s.engine.task? k).bind ahead).toList := by
  induction evs generalizing s with
  | nil => exact List.nil_prefix
  | cons ev evs ih =>
    have hnext : (s.step ev).engine.Sees k P :=
      hP.after hs.unique (s.allows_effect ev) (fun r hr => hg r (by simp [System.effects, hr])) hk h
    have hrest := ih (hs.step hl.1) hl.2 (fun r hr => hg r (List.mem_cons_of_mem _ hr))
      (System.lt_length_step hk ev) hnext
    have hone : (s.beginning? k ev).toList ++ (((s.step ev).engine.task? k).bind ahead).toList
        <+: ((s.engine.task? k).bind ahead).toList := by
      have hc := s.taskChange ev k
      generalize hv : (s.step ev).engine.task? k = v at hc
      generalize he : s.effect ev = eff at hc
      cases hc with
      | admitted hkl => omega
      | @stepped t ht =>
        have hb : s.beginning? k ev = t.beginning? := by
          rw [System.event_of_effect he]
          simp [System.beginning?, ht]
        rw [hb, ht]
        exact hstep (h t ht)
      | noticed =>
        rw [System.beginning?_of_ne (by simp [he])]
        cases s.engine.task? k with
        | none => exact List.prefix_rfl
        | some t =>
          rw [Option.map_some, Option.bind_some, hnotice]
          exact List.prefix_rfl
      | same hsame =>
        have hb : s.beginning? k ev = none := by
          rcases hsame with hsame | hsame
          · exact System.beginning?_of_ne (he ▸ hsame)
          · exact System.beginning?_of_none hsame ev
        rw [hb]
        exact List.prefix_rfl
    exact ((List.prefix_append_right_inj _).mpr hrest).trans hone

theorem forall_mem_begun (hP : Lasts allowed P) {R : Nat → Prop}
    (hR : ∀ {shutdown : Bool} {f : Flow} {t : Task α} {j : Nat}, P shutdown f t →
      t.beginning? = some j → R j)
    {s : System α} (hs : s.Serial) {evs : List (Event α)} (hl : s.NoLateJobs evs)
    (hg : ∀ r, .grant r ∈ s.effects evs → allowed r) {k : Nat}
    (hk : k < s.engine.tasks.length) (h : s.engine.Sees k P) : ∀ j ∈ s.begun k evs, R j := by
  induction evs generalizing s with
  | nil => simp [System.begun]
  | cons ev evs ih =>
    have hnext : (s.step ev).engine.Sees k P :=
      hP.after hs.unique (s.allows_effect ev) (fun r hr => hg r (by simp [System.effects, hr])) hk h
    have hrest := ih (hs.step hl.1) hl.2 (fun r hr => hg r (List.mem_cons_of_mem _ hr))
      (System.lt_length_step hk ev) hnext
    intro j hj
    rcases List.mem_append.mp hj with hj | hj
    · obtain ⟨t, ht, hb⟩ := System.task?_of_beginning? (Option.mem_toList.mp hj)
      exact hR (h t ht) hb
    · exact hrest j hj

end Lasts

end Gantry
