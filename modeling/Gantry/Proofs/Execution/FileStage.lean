import Gantry.Proofs.Execution.Beginning

/-!
# Stages of a file

How a file goes on from each stage of its line, and what lasts of a file by the stage that it is at
and the requests that are pending.

Nothing here says how soon a file comes to the end of its line.
-/

namespace Gantry

variable {α : Type} [Scalar α]

/-- How a file goes on from a stage of its line, with the requests of the flow `f`. -/
inductive FileStage.Goes (shutdown : Bool) (f : Flow) (i n : Nat) (rest : List (Line α)) :
    FileStage α → FileWork α → Prop where
  | entering (l : Line α) : Goes shutdown f i n rest (.mark l) (.run i n rest (.line (.enter l)))
  | within {w v : LineWork α} (hv : v.isExecuting = true) :
      Goes shutdown f i n rest (.line w) (.run i n rest (.line v))
  | finished {w : LineWork α} (hw : w.isExecuting = true) :
      Goes shutdown f i n rest (.line w) (.run i n rest .askPause)
  | pausing (hp : f.pauseRequested = true) :
      Goes shutdown f i n rest .askPause (.run i n rest (.hold .enter))
  | unpaused (hp : f.pauseRequested = false) :
      Goes shutdown f i n rest .askPause (.run i n rest .askAbort)
  | holding {h k : Hold} (hk : k = .leave → f.pauseRequested = false ∨ shutdown = true)
      (hh : h ≠ .leave) : Goes shutdown f i n rest (.hold h) (.run i n rest (.hold k))
  | released : Goes shutdown f i n rest (.hold .leave) (.run i n rest .askAbort)
  | aborted (ha : f.abortRequested = true) : Goes shutdown f i n rest .askAbort .leave
  | unaborted (ha : f.abortRequested = false) :
      Goes shutdown f i n rest .askAbort (.run i n rest .askShutdown)
  | stopped (hs : shutdown = true) : Goes shutdown f i n rest .askShutdown .leave
  | turned (hs : shutdown = false) :
      Goes shutdown f i n rest .askShutdown (FileWork.ofLines (i + 1) n rest)

namespace FileWork

theorem goes_step (shutdown : Bool) (m : Machine α) (i n : Nat) (rest : List (Line α))
    (stage : FileStage α) :
    ∃ v, ((FileWork.run i n rest stage).step shutdown m).2 = some v ∧
      stage.Goes shutdown m.flow i n rest v := by
  refine ⟨_, rfl, ?_⟩
  cases stage with
  | mark l => exact .entering l
  | line w =>
    cases w with
    | enter line => exact .within (LineWork.isExecuting_ofCommands line.commands)
    | next c cs => cases shutdown <;> exact .within rfl
    | busy chore cs =>
      simp only [LineWork.step, afterStage]
      cases (chore.step shutdown m).2 with
      | some d => exact .within rfl
      | none => exact .within (LineWork.isExecuting_ofCommands cs)
    | leave => exact .finished rfl
  | askPause =>
    cases hp : m.flow.pauseRequested
    · simpa [FileStage.step, afterStage, hp] using .unpaused hp
    · simpa [FileStage.step, afterStage, hp] using .pausing hp
  | hold h =>
    cases h with
    | enter => exact .holding (fun hk => by cases hk) (by simp)
    | look noticed =>
      refine .holding (k := if m.flow.pauseRequested then .flag noticed else .leave) ?_ (by simp)
      intro hk
      split at hk
      · cases hk
      · rename_i hp
        exact Or.inl (Bool.not_eq_true _ ▸ hp)
    | flag noticed =>
      refine .holding (k := if shutdown then .leave else if noticed then .look false else .nap)
        ?_ (by simp)
      intro hk
      split at hk
      · exact Or.inr ‹_›
      · split at hk <;> cases hk
    | nap => exact .holding (fun hk => by cases hk) (by simp)
    | leave => exact .released
  | askAbort =>
    cases ha : m.flow.abortRequested
    · simpa [FileStage.step, Flow.takeAbort, afterStage, ha] using .unaborted ha
    · simpa [FileStage.step, Flow.takeAbort, afterStage, ha] using .aborted ha
  | askShutdown =>
    cases shutdown
    · exact .turned rfl
    · exact .stopped rfl

theorem pauseRequested_step (shutdown : Bool) (m : Machine α) (i n : Nat) (rest : List (Line α))
    (stage : FileStage α) :
    ((FileWork.run i n rest stage).step shutdown m).1.flow.pauseRequested =
      m.flow.pauseRequested := by
  cases stage with
  | line w =>
    cases w with
    | busy chore cs => exact congrArg Flow.pauseRequested (chore.flow_step shutdown m)
    | _ => rfl
  | hold h => cases h <;> rfl
  | _ => rfl

theorem abortRequested_step (shutdown : Bool) (m : Machine α) (i n : Nat) (rest : List (Line α))
    (stage : FileStage α) (hs : stage ≠ .askAbort) :
    ((FileWork.run i n rest stage).step shutdown m).1.flow.abortRequested =
      m.flow.abortRequested := by
  cases stage with
  | line w =>
    cases w with
    | busy chore cs => exact congrArg Flow.abortRequested (chore.flow_step shutdown m)
    | _ => rfl
  | hold h => cases h <;> rfl
  | askAbort => exact absurd rfl hs
  | _ => rfl

end FileWork

/-- A property of a line's index and the stage it is at, for a file that has turned to a line. One
that is about to end has any. -/
def Task.Within (Q : Nat → FileStage α → Prop) : Task α → Prop
  | .file (.run i _ _ stage) => Q i stage
  | .file .leave => True
  | _ => False

omit [Scalar α] in
theorem Task.Within.mono {Q R : Nat → FileStage α → Prop} (h : ∀ i stage, Q i stage → R i stage)
    {t : Task α} (ht : t.Within Q) : t.Within R := by
  cases t with
  | line w => exact ht
  | file w =>
    cases w with
    | run i n rest stage => exact h i stage ht
    | _ => exact ht

omit [Scalar α] in
theorem Task.Within.of_beginning? {Q : Nat → FileStage α → Prop} {t : Task α} (h : t.Within Q)
    {i : Nat} (hi : t.beginning? = some i) : ∃ l, Q i (.line (.enter l)) := by
  unfold beginning? at hi
  split at hi
  · cases hi
    exact ⟨_, h⟩
  · cases hi

theorem lasts_within {allowed : Request → Prop} {Q : Bool → Flow → Nat → FileStage α → Prop}
    (hstep : ∀ {shutdown : Bool} {m : Machine α} {i n : Nat} {rest : List (Line α)}
      {stage : FileStage α} {v : FileWork α}, Q shutdown m.flow i stage →
      stage.Goes shutdown m.flow i n rest v →
      (Task.file v).Within
        (Q shutdown ((FileWork.run i n rest stage).step shutdown m).1.flow))
    (hnotice : ∀ {shutdown : Bool} {f : Flow} {i : Nat} {h : Hold},
      Q shutdown f i (.hold h) → Q shutdown f i (.hold h.notify))
    (hgrant : ∀ {shutdown : Bool} {f : Flow} {i : Nat} {stage : FileStage α} {r : Request},
      allowed r → Q shutdown f i stage → Q shutdown (r.granted f) i stage)
    (hraise : ∀ {shutdown : Bool} {f : Flow} {i : Nat} {stage : FileStage α},
      Q shutdown f i stage → Q true f i stage) :
    Lasts allowed fun shutdown f t => t.Within (Q shutdown f) where
  step := by
    intro shutdown m t u h hu
    cases t with
    | line w => cases h
    | file w =>
      cases w with
      | run i n rest stage =>
        obtain ⟨v, hv, hgo⟩ := FileWork.goes_step shutdown m i n rest stage
        have : u = .file v := by simpa [Task.step, hv] using hu.symm
        rw [this]
        exact hstep h hgo
      | leave => cases hu
      | read job => cases h
      | enter job => cases h
  notice := by
    intro shutdown f t h
    rcases t.notify_cases with hsame | ⟨i, n, rest, k, rfl, -⟩
    · rw [hsame]
      exact h
    · exact hnotice h
  grant := by
    intro shutdown m n t r hr h hn
    rw [Request.flow_of_grant hn]
    exact h.mono fun i stage => hgrant hr
  raise := fun h => h.mono fun _ _ => hraise

namespace FileStage

def isPast : FileStage α → Bool
  | mark _ => false
  | line w => w.isExecuting
  | _ => true

def isHold : FileStage α → Bool
  | hold _ => true
  | _ => false

/-- The file is past the question whether a pause is requested. -/
def isReleased : FileStage α → Bool
  | hold .leave => true
  | askAbort => true
  | askShutdown => true
  | _ => false

/-- A pause is pending over a line that has begun, and only shutdown gets past it. -/
structure Held (shutdown : Bool) (f : Flow) (stage : FileStage α) : Prop where
  past : stage.isPast = true
  pending : stage.isReleased = false → f.pauseRequested = true
  released : stage.isReleased = true → shutdown = true

theorem lasts_held :
    Lasts (α := α) (· ≠ .resume) fun shutdown f t => t.Within fun _ => Held shutdown f := by
  apply lasts_within
  · intro shutdown m i n rest stage v h hgo
    have hf := FileWork.pauseRequested_step shutdown m i n rest stage
    cases hgo with
    | entering l => cases h.past
    | within hv => exact ⟨hv, fun _ => hf.trans (h.pending rfl), fun hr => by cases hr⟩
    | finished hw => exact ⟨rfl, fun _ => hf.trans (h.pending rfl), fun hr => by cases hr⟩
    | pausing hp => exact ⟨rfl, fun _ => hf.trans hp, fun hr => by cases hr⟩
    | unpaused hp =>
      rw [h.pending rfl] at hp
      cases hp
    | @holding j k hk hj =>
      have hp : m.flow.pauseRequested = true := h.pending (by cases j <;> simp [isReleased] at hj ⊢)
      refine ⟨rfl, fun _ => hf.trans hp, fun hr => ?_⟩
      have : k = .leave := by cases k <;> simp [isReleased] at hr ⊢
      rcases hk this with hn | hs
      · rw [hp] at hn
        cases hn
      · exact hs
    | released => exact ⟨rfl, (fun hr => by cases hr), fun _ => h.released rfl⟩
    | aborted ha => trivial
    | unaborted ha => exact ⟨rfl, (fun hr => by cases hr), fun _ => h.released rfl⟩
    | stopped hs => trivial
    | turned hs =>
      rw [h.released rfl] at hs
      cases hs
  · intro shutdown f i k h
    cases k with
    | leave => exact h
    | _ => exact ⟨rfl, fun _ => h.pending rfl, fun hr => by cases hr⟩
  · intro shutdown f i stage r hr h
    refine ⟨h.past, fun hs => ?_, h.released⟩
    cases r with
    | pause => rfl
    | resume => exact absurd rfl hr
    | abort => exact h.pending hs
  · intro shutdown f i stage h
    exact ⟨h.past, h.pending, fun _ => rfl⟩

theorem lasts_file :
    Lasts (α := α) (fun _ => True) fun _ _ t => t.Within fun _ _ => True := by
  apply lasts_within
  · intro shutdown m i n rest stage v _ hgo
    cases hgo with
    | turned hs => cases rest <;> trivial
    | _ => trivial
  · intro shutdown f i k h
    exact h
  · intro shutdown f i stage r _ h
    exact h
  · intro shutdown f i stage h
    exact h

theorem lasts_stopping :
    Lasts (α := α) (fun _ => True) fun shutdown _ t => t.Within fun _ _ => shutdown = true := by
  apply lasts_within
  · intro shutdown m i n rest stage v h hgo
    cases hgo with
    | turned hs =>
      rw [h] at hs
      cases hs
    | aborted ha => trivial
    | stopped hs => trivial
    | _ => exact h
  · intro shutdown f i k h
    exact h
  · intro shutdown f i stage r _ h
    exact h
  · intro shutdown f i stage h
    rfl

/-- After shutdown a line that has begun is the last one. -/
theorem lasts_past :
    Lasts (α := α) (fun _ => True) fun shutdown _ t =>
      t.Within fun _ stage => shutdown = true ∧ stage.isPast = true := by
  apply lasts_within
  · intro shutdown m i n rest stage v h hgo
    cases hgo with
    | entering l => cases h.2
    | within hv => exact ⟨h.1, hv⟩
    | aborted ha => trivial
    | stopped hs => trivial
    | turned hs =>
      rw [h.1] at hs
      cases hs
    | _ => exact ⟨h.1, rfl⟩
  · intro shutdown f i k h
    exact h
  · intro shutdown f i stage r _ h
    exact h
  · intro shutdown f i stage h
    exact ⟨rfl, h.2⟩

theorem lasts_aborting :
    Lasts (α := α) (fun _ => True) fun _ f t => t.Within fun _ _ => f.abortRequested = true := by
  apply lasts_within
  · intro shutdown m i n rest stage v h hgo
    have hf := FileWork.abortRequested_step shutdown m i n rest stage
    cases hgo with
    | aborted ha => trivial
    | unaborted ha =>
      rw [h] at ha
      cases ha
    | stopped hs => trivial
    | turned hs =>
      cases rest with
      | nil => trivial
      | cons l rest => exact (hf (by simp)).trans h
    | _ => exact (hf (by simp)).trans h
  · intro shutdown f i k h
    exact h
  · intro shutdown f i stage r _ h
    cases r with
    | abort => rfl
    | _ => exact h
  · intro shutdown f i stage h
    exact h

theorem lasts_unpaused :
    Lasts (α := α) (· ≠ .pause) fun _ f t =>
      t.Within fun _ stage => f.pauseRequested = false ∧ stage.isHold = false := by
  apply lasts_within
  · intro shutdown m i n rest stage v h hgo
    have hf := (FileWork.pauseRequested_step shutdown m i n rest stage).trans h.1
    cases hgo with
    | pausing hp =>
      rw [h.1] at hp
      cases hp
    | holding hk hh => cases h.2
    | aborted ha => trivial
    | stopped hs => trivial
    | turned hs =>
      cases rest with
      | nil => trivial
      | cons l rest => exact ⟨hf, rfl⟩
    | _ => exact ⟨hf, rfl⟩
  · intro shutdown f i k h
    exact h
  · intro shutdown f i stage r hr h
    cases r with
    | pause => exact absurd rfl hr
    | resume => exact ⟨rfl, h.2⟩
    | abort => exact h
  · intro shutdown f i stage h
    exact h

theorem lasts_unaborted :
    Lasts (α := α) (· ≠ .abort) fun _ f t => t.Within fun _ _ => f.abortRequested = false := by
  apply lasts_within
  · intro shutdown m i n rest stage v h hgo
    have hf := FileWork.abortRequested_step shutdown m i n rest stage
    cases hgo with
    | aborted ha => trivial
    | unaborted ha => rfl
    | stopped hs => trivial
    | turned hs =>
      cases rest with
      | nil => trivial
      | cons l rest => exact (hf (by simp)).trans h
    | _ => exact (hf (by simp)).trans h
  · intro shutdown f i k h
    exact h
  · intro shutdown f i stage r hr h
    cases r with
    | abort => exact absurd rfl hr
    | _ => exact h
  · intro shutdown f i stage h
    exact h

end FileStage

namespace Task

/-- The line that a file has turned to and has not begun. -/
def turned? : Task α → Option Nat
  | .file (.run i _ _ (.mark _)) => some i
  | .file (.run i _ _ (.line (.enter _))) => some i
  | _ => none

/-- The line that a file may still begin while an abort is pending. -/
def ahead? : Task α → Option Nat
  | .file (.run i _ _ .askShutdown) => some (i + 1)
  | t => t.turned?

omit [Scalar α] in
theorem turned?_of_isExecuting {i n : Nat} {rest : List (Line α)} {w : LineWork α}
    (h : w.isExecuting = true) : (Task.file (.run i n rest (.line w))).turned? = none := by
  cases w with
  | enter l => cases h
  | _ => rfl

omit [Scalar α] in
theorem turned?_notify (t : Task α) : t.notify.turned? = t.turned? :=
  t.notify_eq (f := turned?) fun _ _ _ _ => rfl

omit [Scalar α] in
theorem ahead?_notify (t : Task α) : t.notify.ahead? = t.ahead? :=
  t.notify_eq (f := ahead?) fun _ _ _ _ => rfl

end Task

omit [Scalar α] in
/-- A step that begins a line takes it off the line that the file had turned to, and only the
question about shutdown turns to another. -/
theorem FileStage.Goes.turned?_prefix {shutdown : Bool} {f : Flow} {i n : Nat}
    {rest : List (Line α)} {stage : FileStage α} {v : FileWork α}
    (h : stage.Goes shutdown f i n rest v) (hstage : stage ≠ .askShutdown) :
    (Task.file (.run i n rest stage)).beginning?.toList ++ (Task.file v).turned?.toList <+:
      (Task.file (.run i n rest stage)).turned?.toList := by
  cases h with
  | @within w u hu =>
    rw [Task.turned?_of_isExecuting hu, Option.toList_none, List.append_nil]
    cases w <;> exact List.prefix_rfl
  | @finished w hw =>
    rw [Task.turned?_of_isExecuting hw]
    cases w with
    | enter l => cases hw
    | _ => exact List.prefix_rfl
  | stopped hs => exact absurd rfl hstage
  | turned hs => exact absurd rfl hstage
  | _ => exact List.prefix_rfl

namespace Task

variable {shutdown : Bool} {m : Machine α} {t : Task α}

theorem Within.step_cases {Q : Nat → FileStage α → Prop} (h : t.Within Q) (shutdown : Bool)
    (m : Machine α) :
    (t.step shutdown m).2 = none ∧ t.beginning? = none ∨
      ∃ i n rest stage v, t = .file (.run i n rest stage) ∧ Q i stage ∧
        (t.step shutdown m).2 = some (.file v) ∧ stage.Goes shutdown m.flow i n rest v := by
  cases t with
  | line w => cases h
  | file w =>
    cases w with
    | read job => cases h
    | enter job => cases h
    | leave => exact Or.inl ⟨rfl, rfl⟩
    | run i n rest stage =>
      obtain ⟨v, hv, hgo⟩ := FileWork.goes_step shutdown m i n rest stage
      refine Or.inr ⟨i, n, rest, stage, v, rfl, h, ?_, hgo⟩
      simp [Task.step, hv]

theorem turned?_step (h : t.Within fun _ _ => shutdown = true) :
    t.beginning?.toList ++ ((t.step shutdown m).2.bind turned?).toList <+: t.turned?.toList := by
  rcases h.step_cases shutdown m with
    ⟨hover, hb⟩ | ⟨i, n, rest, stage, v, rfl, hs, hstep, hgo⟩
  · rw [hover, hb]
    exact List.nil_prefix
  · rw [hstep, Option.bind_some]
    by_cases hstage : stage = .askShutdown
    · subst hstage
      cases hgo with
      | stopped => exact List.prefix_rfl
      | turned hno =>
        rw [hs] at hno
        cases hno
    · exact hgo.turned?_prefix hstage

theorem ahead?_step (h : t.Within fun _ _ => m.flow.abortRequested = true) :
    t.beginning?.toList ++ ((t.step shutdown m).2.bind ahead?).toList <+: t.ahead?.toList := by
  rcases h.step_cases shutdown m with
    ⟨hover, hb⟩ | ⟨i, n, rest, stage, v, rfl, ha, hstep, hgo⟩
  · rw [hover, hb]
    exact List.nil_prefix
  · rw [hstep, Option.bind_some]
    have hsame := hgo.turned?_prefix
    cases hgo with
    | unaborted hno =>
      rw [ha] at hno
      cases hno
    | stopped hs => exact List.nil_prefix
    | turned hs => cases rest <;> simp [FileWork.ofLines, beginning?, ahead?, turned?]
    | _ => exact hsame (by simp)

end Task

end Gantry
