import Gantry.Proofs.Execution.FileStage

/-!
# Winding down

After shutdown a task that was waiting winds down: each of its steps lowers the number of steps
that are left, none leads into a nap, and none touches axes and heaters, with one exception. An
axis that homing was backing off is still sent to creep back to zero, because the flag is not read
between these two legs.

Nothing here looks at what happens between the steps of a task.
-/

namespace Gantry

variable {α : Type} [Scalar α]

/-- Steps left at most after shutdown, of a wait that does not nap any more. -/
def Wait.windDown? : Wait → Option Nat
  | nap => some 2
  | flag => some 1
  | look => none

namespace Homing

/-- Steps left of homing after a leg: the flag is read, or the axis creeps first. -/
def afterLegSteps : Leg → Nat
  | .backOff => 5
  | _ => 3

/-- Steps left at most after shutdown, the end of homing included; none where the axis may still
be sent on its way or lose its offset. -/
def windDown? : Homing α → Option Nat
  | travel leg w => w.windDown?.map (· + afterLegSteps leg)
  | check _ => some 3
  | start .creep _ => some 5
  | _ => none

end Homing

def Chore.windDown? : Chore α → Option Nat
  | await _ w => w.windDown?
  | homing _ _ _ h => h.windDown?
  | homed _ => some 2
  | restore _ _ => some 1
  | _ => none

def LineWork.windDown? : LineWork α → Option Nat
  | enter _ => none
  | next _ _ => some 2
  | busy c _ => c.windDown?.map (· + 2)
  | leave => some 1

def Hold.windDown : Hold → Nat
  | leave => 1
  | flag _ => 2
  | look _ => 3
  | nap => 4
  | enter => 4

def FileStage.windDown? : FileStage α → Option Nat
  | mark _ => none
  | line w => w.windDown?.map (· + 8)
  | askPause => some 8
  | hold h => some (h.windDown + 3)
  | askAbort => some 3
  | askShutdown => some 2

def Task.windDown? : Task α → Option Nat
  | .line w => w.windDown?
  | .file (.run _ _ _ stage) => stage.windDown?
  | .file .leave => some 1
  | _ => none

/-- The axis that backs off, or is about to be sent to creep, with where it is sent. -/
def Chore.owed? : Chore α → Option (AxisId × α)
  | homing _ i _ (.travel .backOff _) => some (i, 0.0)
  | homing _ i _ (.start .creep target) => some (i, target)
  | _ => none

/-- The axis that the next step sends to creep, with where it is sent. -/
def Chore.sends? : Chore α → Option (AxisId × α)
  | homing _ i _ (.start .creep target) => some (i, target)
  | _ => none

/-- The axis that a task is waiting for while it backs off. -/
def Task.backsOff? (t : Task α) : Option AxisId :=
  match t.chore? with
  | some (.homing _ i _ (.travel .backOff _)) => some i
  | _ => none

/-- What there is to expect of a chore, a line or a task after shutdown. -/
structure Outlook (α : Type) where
  steps : Option Nat
  asleep : Bool
  owed : Option (AxisId × α)
  sends : Option (AxisId × α)

/-- The outlook after a step: no nap, fewer steps left, and no leg owed that was not owed before. -/
structure Outlook.Shrinks (o p : Outlook α) : Prop where
  steps : ∀ {n}, o.steps = some n → ∃ k, p.steps = some k ∧ k < n
  awake : p.asleep = false
  owed : p.owed = o.owed ∨ p.owed = none
  sent : o.sends.isSome → p.owed = none

namespace Outlook.Shrinks

variable {o p : Outlook α}

omit [Scalar α] in
theorem isSome (h : o.Shrinks p) (ho : o.steps.isSome) : p.steps.isSome := by
  obtain ⟨n, hn⟩ := Option.isSome_iff_exists.mp ho
  obtain ⟨k, hk, -⟩ := h.steps hn
  exact Option.isSome_iff_exists.mpr ⟨k, hk⟩

omit [Scalar α] in
theorem of_steps {k : Nat} (hk : p.steps = some k) (hlt : ∀ n, o.steps = some n → k < n)
    (ha : p.asleep = false) (ho : p.owed = none) : o.Shrinks p :=
  ⟨fun hn => ⟨k, hk, hlt _ hn⟩, ha, Or.inr ho, fun _ => ho⟩

omit [Scalar α] in
theorem add (h : o.Shrinks p) (k : Nat) :
    Shrinks { o with steps := o.steps.map (· + k) } { p with steps := p.steps.map (· + k) } := by
  refine ⟨fun hn => ?_, h.awake, h.owed, h.sent⟩
  obtain ⟨m, hm, rfl⟩ := Option.map_eq_some_iff.mp hn
  obtain ⟨l, hl, hlt⟩ := h.steps hm
  exact ⟨l + k, congrArg (Option.map (· + k)) hl, Nat.add_lt_add_right hlt k⟩

end Outlook.Shrinks

def Chore.outlook (c : Chore α) : Outlook α :=
  ⟨c.windDown?, c.isAsleep, c.owed?, c.sends?⟩

def LineWork.outlook (w : LineWork α) : Outlook α :=
  ⟨w.windDown?, w.isAsleep, w.chore?.bind Chore.owed?, w.chore?.bind Chore.sends?⟩

def Task.outlook (t : Task α) : Outlook α :=
  ⟨t.windDown?, t.nap?.isSome, t.chore?.bind Chore.owed?, t.chore?.bind Chore.sends?⟩

def Machine.creep (m : Machine α) (i : AxisId) (target : α) : Machine α :=
  (m.setTarget (PerAxis.single i target) (some Leg.creep.speed)).1

structure Machine.SameParts (m n : Machine α) : Prop where
  axes : n.axes = m.axes
  heaters : n.heaters = m.heaters

namespace Chore

omit [Scalar α] in
theorem pos_of_windDown? {c : Chore α} {n : Nat} (h : c.windDown? = some n) : 0 < n := by
  cases c with
  | await g w => cases w <;> cases h <;> omega
  | homing saved i rest k =>
    cases k with
    | travel leg w => cases w <;> cases leg <;> cases h <;> decide
    | check leg => cases h; omega
    | start leg target => cases leg <;> cases h; omega
    | _ => cases h
  | homed saved => cases h; omega
  | restore saved completed => cases h; omega
  | _ => cases h

theorem shrinks_step {c d : Chore α} (h : c.windDown?.isSome) {m : Machine α}
    (hd : (c.step true m).2 = some d) : c.outlook.Shrinks d.outlook := by
  cases c with
  | await g w =>
    cases w with
    | nap =>
      cases hd
      exact .of_steps (k := 1) rfl (fun n hn => by cases hn; omega) rfl rfl
    | flag => cases hd
    | look => cases h
  | homing saved i rest k =>
    cases k with
    | travel leg w =>
      cases w with
      | nap =>
        cases hd
        refine ⟨fun hn => ⟨1 + Homing.afterLegSteps leg, rfl, ?_⟩, rfl, ?_, fun hs => by cases hs⟩
        · cases hn
          exact Nat.add_lt_add_right (by omega) _
        · cases leg <;> exact Or.inl rfl
      | flag =>
        cases hd
        cases leg with
        -- The flag is not read again after this leg, and the axis is still owed the next one.
        | backOff =>
          exact ⟨fun hn => ⟨5, rfl, by cases hn; decide⟩, rfl, Or.inl rfl, fun hs => by cases hs⟩
        | _ => exact .of_steps (k := 3) rfl (fun n hn => by cases hn; decide) rfl rfl
      | look => cases h
    | check leg =>
      cases hd
      exact .of_steps (k := 2) rfl (fun n hn => by cases hn; omega) rfl rfl
    | start leg target =>
      cases leg with
      | creep =>
        cases hd
        exact .of_steps (k := 4) rfl (fun n hn => by cases hn; omega) rfl rfl
      | _ => cases h
    | _ => cases h
  | homed saved =>
    cases hd
    exact .of_steps (k := 1) rfl (fun n hn => by cases hn; omega) rfl rfl
  | restore saved completed => cases hd
  | _ => cases h

theorem sameParts_step {c : Chore α} (h : c.windDown?.isSome) (hs : c.sends? = none)
    (m : Machine α) : m.SameParts (c.step true m).1 := by
  cases c with
  | homing saved i rest k =>
    cases k with
    | start leg target =>
      cases leg with
      | creep => cases hs
      | _ => cases h
    | release => cases h
    | _ => exact ⟨rfl, rfl⟩
  | move target speed blocking => cases h
  | offset target => cases h
  | heat i celsius blocking => cases h
  | _ => exact ⟨rfl, rfl⟩

theorem creep_of_sends {c : Chore α} {i : AxisId} {target : α}
    (h : c.sends? = some (i, target)) (shutdown : Bool) (m : Machine α) :
    (c.step shutdown m).1 = m.creep i target := by
  cases c with
  | homing saved j rest k =>
    cases k with
    | start leg v =>
      cases leg with
      | creep =>
        cases h
        rfl
      | _ => cases h
    | _ => cases h
  | _ => cases h

end Chore

namespace LineWork

omit [Scalar α] in
theorem windDown?_ofCommands (cs : List (Gcode.Command α)) :
    ∃ k, (ofCommands cs).windDown? = some k ∧ k ≤ 2 := by
  cases cs with
  | nil => exact ⟨1, rfl, by omega⟩
  | cons c cs => exact ⟨2, rfl, by omega⟩

omit [Scalar α] in
theorem pos_of_windDown? {w : LineWork α} {n : Nat} (h : w.windDown? = some n) : 0 < n := by
  cases w with
  | enter line => cases h
  | next c rest => cases h; omega
  | busy c rest =>
    obtain ⟨k, -, rfl⟩ := Option.map_eq_some_iff.mp h
    omega
  | leave => cases h; omega

theorem shrinks_step {w v : LineWork α} (h : w.windDown?.isSome) {m : Machine α}
    (hv : (w.step true m).2 = some v) : w.outlook.Shrinks v.outlook := by
  cases w with
  | enter line => cases h
  | next c rest =>
    cases hv
    exact .of_steps (k := 1) rfl (fun n hn => by cases hn; omega) rfl rfl
  | busy c rest =>
    have hc : c.windDown?.isSome := by simpa [windDown?] using h
    simp only [step, Option.some.injEq] at hv
    cases hd : (c.step true m).2 with
    | some d =>
      rw [hd] at hv
      cases hv
      exact (Chore.shrinks_step hc hd).add 2
    | none =>
      rw [hd] at hv
      cases hv
      obtain ⟨k, hk, hle⟩ := windDown?_ofCommands rest
      refine .of_steps hk (fun n hn => ?_) ?_ ?_
      · obtain ⟨j, hj, rfl⟩ := Option.map_eq_some_iff.mp hn
        have := Chore.pos_of_windDown? hj
        omega
      · cases rest <;> rfl
      · simp [outlook, chore?_ofCommands]
  | leave => cases hv

end LineWork

namespace Hold

omit [Scalar α] in
theorem windDown_step {h k : Hold} {m : Machine α} (hk : (h.step true m).2 = some k) :
    k.windDown < h.windDown ∧ k ≠ .nap := by
  cases h with
  | enter =>
    cases hk
    exact ⟨by decide, by simp⟩
  | look noticed =>
    rw [step_look] at hk
    cases hk
    split <;> exact ⟨by simp [windDown], by simp⟩
  | flag noticed =>
    cases hk
    exact ⟨by simp [windDown], by simp⟩
  | nap =>
    cases hk
    exact ⟨by decide, by simp⟩
  | leave => cases hk

theorem windDown_notify_le (h : Hold) : h.notify.windDown ≤ h.windDown := by
  cases h <;> simp [notify, windDown]

end Hold

namespace Task

theorem outlook_line (w : LineWork α) : (Task.line w).outlook = w.outlook := by
  have hn : (Task.line w).nap?.isSome = w.isAsleep := by
    cases ha : w.isAsleep <;> simp [nap?, ha]
  simp only [outlook, hn]
  rfl

theorem outlook_file (i n : Nat) (rest : List (Line α)) (w : LineWork α) :
    (Task.file (.run i n rest (.line w))).outlook =
      { w.outlook with steps := w.outlook.steps.map (· + 8) } := by
  have hn : (Task.file (.run i n rest (.line w))).nap?.isSome = w.isAsleep := by
    cases ha : w.isAsleep <;> simp [nap?, FileWork.isPolling, FileWork.isHeld, ha]
  simp only [outlook, hn]
  rfl

omit [Scalar α] in
theorem pos_of_windDown? {t : Task α} {n : Nat} (h : t.windDown? = some n) : 0 < n := by
  cases t with
  | line w => exact LineWork.pos_of_windDown? h
  | file w =>
    cases w with
    | run i n rest stage =>
      cases stage with
      | line w =>
        obtain ⟨k, -, rfl⟩ := Option.map_eq_some_iff.mp h
        omega
      | mark l => cases h
      | hold k => cases h; omega
      | _ => cases h; omega
    | leave => cases h; omega
    | _ => cases h

theorem shrinks_step {t u : Task α} (h : t.windDown?.isSome) {m : Machine α}
    (hu : (t.step true m).2 = some u) : t.outlook.Shrinks u.outlook := by
  cases t with
  | line w =>
    simp only [step, Option.map_eq_some_iff] at hu
    obtain ⟨v, hv, rfl⟩ := hu
    rw [outlook_line, outlook_line]
    exact LineWork.shrinks_step h hv
  | file w =>
    simp only [step, Option.map_eq_some_iff] at hu
    obtain ⟨v, hv, rfl⟩ := hu
    cases w with
    | read job => cases h
    | enter job => cases h
    | leave => cases hv
    | run i n rest stage =>
      cases stage with
      | mark l => cases h
      | line w =>
        have hw : w.windDown?.isSome := by simpa [windDown?, FileStage.windDown?] using h
        rw [FileWork.step_line] at hv
        cases hv
        cases hx : (w.step true m).2 with
        | some x =>
          rw [outlook_file, outlook_file]
          exact (LineWork.shrinks_step hw hx).add 8
        | none =>
          refine .of_steps (k := 8) rfl (fun n hn => ?_) rfl rfl
          obtain ⟨j, hj, rfl⟩ := Option.map_eq_some_iff.mp hn
          have := LineWork.pos_of_windDown? hj
          omega
      | askPause =>
        rw [FileWork.step_askPause] at hv
        cases hv
        split
        · exact .of_steps (k := 7) rfl (fun n hn => by cases hn; omega) rfl rfl
        · exact .of_steps (k := 3) rfl (fun n hn => by cases hn; omega) rfl rfl
      | hold k =>
        rw [FileWork.step_hold] at hv
        cases hv
        cases hx : (k.step true m).2 with
        | some x =>
          obtain ⟨hlt, hne⟩ := Hold.windDown_step hx
          refine .of_steps (k := x.windDown + 3) rfl (fun n hn => ?_) ?_ rfl
          · cases hn
            exact Nat.add_lt_add_right hlt 3
          · cases x with
            | nap => exact absurd rfl hne
            | _ => rfl
        | none =>
          refine .of_steps (k := 3) rfl (fun n hn => ?_) rfl rfl
          cases hn
          cases k <;> simp [Hold.windDown]
      | askAbort =>
        rw [FileWork.step_askAbort] at hv
        cases hv
        split
        · exact .of_steps (k := 1) rfl (fun n hn => by cases hn; omega) rfl rfl
        · exact .of_steps (k := 2) rfl (fun n hn => by cases hn; omega) rfl rfl
      | askShutdown =>
        cases hv
        exact .of_steps (k := 1) rfl (fun n hn => by cases hn; omega) rfl rfl

omit [Scalar α] in
theorem windDown?_notify {t : Task α} {n : Nat} (h : t.windDown? = some n) :
    ∃ k, t.notify.windDown? = some k ∧ k ≤ n := by
  rcases t.notify_cases with hsame | ⟨i, m, rest, k, rfl, -⟩
  · rw [hsame]
    exact ⟨n, h, Nat.le_refl n⟩
  · cases h
    exact ⟨_, rfl, Nat.add_le_add_right k.windDown_notify_le 3⟩

omit [Scalar α] in
theorem isSome_windDown?_notify {t : Task α} (h : t.windDown?.isSome) :
    t.notify.windDown?.isSome := by
  obtain ⟨n, hn⟩ := Option.isSome_iff_exists.mp h
  obtain ⟨k, hk, -⟩ := windDown?_notify hn
  exact Option.isSome_iff_exists.mpr ⟨k, hk⟩

omit [Scalar α] in
/-- A nap is in a command or in a pause, and whoever takes one can wind down. -/
theorem windDown?_of_nap {t : Task α} (h : t.nap?.isSome) :
    ∃ n, t.windDown? = some n ∧ n ≤ 17 := by
  have hline {w : LineWork α} (hw : w.isAsleep = true) :
      ∃ n, w.windDown? = some n ∧ n ≤ 9 := by
    cases w with
    | busy c rest =>
      cases c with
      | await g w =>
        cases w with
        | nap => exact ⟨4, rfl, by omega⟩
        | _ => cases hw
      | homing saved i is k =>
        cases k with
        | travel leg w =>
          cases w with
          | nap => cases leg <;> exact ⟨_, rfl, by decide⟩
          | _ => cases hw
        | _ => cases hw
      | _ => cases hw
    | _ => cases hw
  cases t with
  | line w =>
    cases hw : w.isAsleep with
    | true =>
      obtain ⟨n, hn, hle⟩ := hline hw
      exact ⟨n, hn, by omega⟩
    | false => simp [nap?, hw] at h
  | file w =>
    cases w with
    | run i n rest stage =>
      cases stage with
      | line w =>
        cases hw : w.isAsleep with
        | true =>
          obtain ⟨n, hn, hle⟩ := hline hw
          exact ⟨n + 8, congrArg (Option.map (· + 8)) hn, by omega⟩
        | false => simp [nap?, FileWork.isPolling, FileWork.isHeld, hw] at h
      | hold k =>
        cases k with
        | nap => exact ⟨7, rfl, by omega⟩
        | _ => cases h
      | _ => cases h
    | _ => cases h

omit [Scalar α] in
theorem eq_of_chore? {t : Task α} {c : Chore α} (h : t.chore? = some c) :
    ∃ cs, t = .line (.busy c cs) ∨ ∃ i n rest, t = .file (.run i n rest (.line (.busy c cs))) := by
  have hline {w : LineWork α} (hw : w.chore? = some c) : ∃ cs, w = .busy c cs := by
    cases w with
    | busy d cs =>
      cases hw
      exact ⟨cs, rfl⟩
    | _ => cases hw
  cases t with
  | line w =>
    obtain ⟨cs, rfl⟩ := hline h
    exact ⟨cs, Or.inl rfl⟩
  | file w =>
    cases w with
    | run i n rest stage =>
      cases stage with
      | line w =>
        obtain ⟨cs, rfl⟩ := hline h
        exact ⟨cs, Or.inr ⟨i, n, rest, rfl⟩⟩
      | _ => cases h
    | _ => cases h

theorem step_of_chore {t : Task α} {c : Chore α} (h : t.chore? = some c) (shutdown : Bool)
    (m : Machine α) : (t.step shutdown m).1 = (c.step shutdown m).1 := by
  obtain ⟨cs, rfl | ⟨i, n, rest, rfl⟩⟩ := eq_of_chore? h
  · rfl
  · rfl

theorem chore?_of_step {t : Task α} {c d : Chore α} (h : t.chore? = some c) {shutdown : Bool}
    {m : Machine α} (hd : (c.step shutdown m).2 = some d) :
    ∃ u, (t.step shutdown m).2 = some u ∧ u.chore? = some d := by
  obtain ⟨cs, rfl | ⟨i, n, rest, rfl⟩⟩ := eq_of_chore? h
  · exact ⟨.line (.busy d cs), by simp [step, LineWork.step, hd], rfl⟩
  · refine ⟨.file (.run i n rest (.line (.busy d cs))), ?_, rfl⟩
    simp [step, FileWork.step_line, LineWork.step, hd]

theorem sameParts_step {t : Task α} (h : t.chore? = none) (shutdown : Bool) (m : Machine α) :
    m.SameParts (t.step shutdown m).1 := by
  have hline {w : LineWork α} (hw : w.chore? = none) : m.SameParts (w.step shutdown m).1 := by
    cases w with
    | busy c rest => cases hw
    | _ => exact ⟨rfl, rfl⟩
  cases t with
  | line w => exact hline h
  | file w =>
    cases w with
    | run i n rest stage =>
      cases stage with
      | line w => exact hline h
      | hold k => cases k <;> exact ⟨rfl, rfl⟩
      | _ => exact ⟨rfl, rfl⟩
    | _ => exact ⟨rfl, rfl⟩

theorem isAsleep_of_nap {t : Task α} (h : t.nap?.isSome) {c : Chore α} (hc : t.chore? = some c) :
    c.isAsleep = true := by
  obtain ⟨cs, rfl | ⟨i, n, rest, rfl⟩⟩ := eq_of_chore? hc
  · exact (congrArg Outlook.asleep (outlook_line _)).symm.trans h
  · exact (congrArg Outlook.asleep (outlook_file i n rest _)).symm.trans h

omit [Scalar α] in
theorem windDown?_of_chore {t : Task α} (h : t.windDown?.isSome) {c : Chore α}
    (hc : t.chore? = some c) : c.windDown?.isSome := by
  obtain ⟨cs, rfl | ⟨i, n, rest, rfl⟩⟩ := eq_of_chore? hc
  · simpa [windDown?, LineWork.windDown?] using h
  · simpa [windDown?, FileStage.windDown?, LineWork.windDown?] using h

omit [Scalar α] in
theorem beginning?_of_windDown? {t : Task α} (h : t.windDown?.isSome) : t.beginning? = none := by
  cases hb : t.beginning? with
  | none => rfl
  | some i =>
    unfold beginning? at hb
    split at hb
    · cases h
    · cases hb

theorem owed_of_sends {t : Task α} {p : AxisId × α} (h : t.outlook.sends = some p) :
    t.outlook.owed = some p := by
  obtain ⟨c, hc, hs⟩ := Option.bind_eq_some_iff.mp h
  simp only [outlook, hc, Option.bind_some]
  cases c with
  | homing saved i rest k =>
    cases k with
    | start leg v =>
      cases leg with
      | creep => exact hs
      | _ => cases hs
    | _ => cases hs
  | _ => cases hs

/-- A task that naps owes a leg exactly where it backs off. -/
theorem owed_of_nap {t : Task α} (h : t.nap?.isSome) :
    t.outlook.owed = t.backsOff?.map fun i => (i, 0.0) := by
  simp only [outlook, backsOff?]
  cases hc : t.chore? with
  | none => rfl
  | some c =>
    have ha := isAsleep_of_nap h hc
    cases c with
    | homing saved i rest k =>
      cases k with
      | travel leg w => cases leg <;> rfl
      | _ => cases ha
    | _ => rfl

end Task

end Gantry
