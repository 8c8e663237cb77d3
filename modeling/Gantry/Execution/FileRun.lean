import Gantry.Execution.Line
import Gantry.Text.Lines

/-!
# Execution of a file

The lines of a file are executed in order. Between two lines a pause is honoured first, then an
abort, then shutdown. However the file ends, the machine is idle afterwards.
-/

namespace Gantry

variable {α : Type} [Scalar α]

/-- A pause, by what is done next. A notice given after the machine was last looked at spares the
nap. -/
inductive Hold where
  /-- Shows that the file is paused. -/
  | enter
  /-- Looks whether the pause goes on. -/
  | look (noticed : Bool)
  /-- Reads the shutdown flag. -/
  | flag (noticed : Bool)
  /-- Wakes up from a nap. -/
  | nap
  /-- Shows that the file goes on. -/
  | leave
deriving DecidableEq, Repr

namespace Hold

def step (shutdown : Bool) (m : Machine α) : Hold → Machine α × Option Hold
  | enter => (m.mapFlow (·.setStatus .paused), some (.look false))
  | look noticed => (m, some (if m.flow.pauseRequested then .flag noticed else .leave))
  | flag noticed => (m, some (if shutdown then .leave else if noticed then .look false else .nap))
  | nap => (m, some (.look false))
  | leave => (m.mapFlow (·.setStatus .working), none)

def notify : Hold → Hold
  | look _ => .look true
  | flag _ => .flag true
  | nap => .look false
  | enter => .enter
  | leave => .leave

def rank : Hold → Nat
  | leave => 0
  | nap => 0
  | flag false => 1
  | look false => 2
  | flag true => 3
  | look true => 4
  | enter => 3

omit [Scalar α] in
theorem rank_of_step {shutdown : Bool} {m n : Machine α} {h k : Hold} (ha : h ≠ nap)
    (hs : h.step shutdown m = (n, some k)) : k.rank < h.rank := by
  cases h with
  | nap => exact absurd rfl ha
  | leave => simp [step] at hs
  | enter =>
    simp only [step, Prod.mk.injEq, Option.some.injEq] at hs
    simp [← hs.2, rank]
  | look noticed =>
    simp only [step, Prod.mk.injEq, Option.some.injEq] at hs
    rw [← hs.2]
    cases noticed <;> split <;> simp [rank]
  | flag noticed =>
    simp only [step, Prod.mk.injEq, Option.some.injEq] at hs
    rw [← hs.2]
    cases noticed <;> cases shutdown <;> simp [rank]

end Hold

structure FileJob (α : Type) where
  name : String
  lines : List (Line α)
deriving DecidableEq, Repr

/-- The file of a text. -/
def FileJob.ofText (name text : String) : FileJob α where
  name := name
  lines := (Text.lines text).map Line.ofText

/-- What is done next about a line of a file. -/
inductive FileStage (α : Type) where
  /-- Shows how far the file is. -/
  | mark (line : Line α)
  | line (w : LineWork α)
  /-- Looks whether a pause is requested. -/
  | askPause
  | hold (h : Hold)
  /-- Takes note of an abort. -/
  | askAbort
  /-- Reads the shutdown flag. -/
  | askShutdown
deriving DecidableEq, Repr

namespace FileStage

inductive Outcome (α : Type) where
  | going (s : FileStage α)
  /-- The line is done. -/
  | done
  /-- No further line is executed. -/
  | stop

/-- The progress at a line, in percent. -/
def percent (index total : Nat) : Nat :=
  10 + index * 80 / total

def step (shutdown : Bool) (m : Machine α) (index total : Nat) :
    FileStage α → Machine α × Outcome α
  | mark l => (m.mapFlow (·.setProgress (percent index total)), .going (.line (.enter l)))
  | line w =>
    let (n, more) := w.step shutdown m
    (n, .going (match more with
      | some w => .line w
      | none => .askPause))
  | askPause => (m, .going (if m.flow.pauseRequested then .hold .enter else .askAbort))
  | hold h =>
    let (n, more) := h.step shutdown m
    (n, .going (match more with
      | some h => .hold h
      | none => .askAbort))
  | askAbort =>
    let (flow, aborted) := m.flow.takeAbort
    ({ m with flow := flow }, if aborted then .stop else .going .askShutdown)
  | askShutdown => (m, if shutdown then .stop else .done)

/-- How many steps are left at most before a nap, the last one not counted. -/
def rank : FileStage α → Nat
  | mark l => 64 * l.commands.length + 10
  | line w => w.rank + 8
  | askPause => 7
  | hold h => h.rank + 2
  | askAbort => 1
  | askShutdown => 0

theorem rank_of_step {shutdown : Bool} {m n : Machine α} {index total : Nat} {s r : FileStage α}
    (hl : ∀ w, s = .line w → w.isAsleep = false) (hh : s ≠ .hold .nap)
    (hs : s.step shutdown m index total = (n, .going r)) : r.rank < s.rank := by
  cases s with
  | mark l =>
    simp only [step, Prod.mk.injEq, Outcome.going.injEq] at hs
    simp +arith [← hs.2, rank, LineWork.rank]
  | line w =>
    simp only [step, Prod.mk.injEq, Outcome.going.injEq] at hs
    rw [← hs.2]
    cases hw : (w.step shutdown m).2 with
    | some v =>
      have := LineWork.rank_of_step (hl w rfl) (Prod.ext rfl hw)
      simp [rank, this]
    | none => simp +arith [rank]
  | askPause =>
    simp only [step, Prod.mk.injEq, Outcome.going.injEq] at hs
    rw [← hs.2]
    split <;> simp [rank, Hold.rank]
  | hold h =>
    simp only [step, Prod.mk.injEq, Outcome.going.injEq] at hs
    rw [← hs.2]
    cases hk : (h.step shutdown m).2 with
    | some k =>
      have := Hold.rank_of_step (fun e => hh (e ▸ rfl)) (Prod.ext rfl hk)
      simp [rank, this]
    | none => simp +arith [rank]
  | askAbort =>
    simp only [step] at hs
    cases ha : (m.flow.takeAbort).2 <;> simp [ha] at hs
    simp [← hs.2, rank]
  | askShutdown => cases shutdown <;> simp [step] at hs

end FileStage

/-- Execution of a file, by what is done next. -/
inductive FileWork (α : Type) where
  /-- Reads the file; there is none in it that can be executed where it is not text. -/
  | read (job : Option (FileJob α))
  /-- Shows that the file has begun. -/
  | enter (job : FileJob α)
  /-- Goes on with the line at `index` of `total`; `rest` are the lines after it. -/
  | run (index total : Nat) (rest : List (Line α)) (stage : FileStage α)
  /-- Shows that the file is over. -/
  | leave
deriving DecidableEq, Repr

namespace FileWork

def ofLines (index total : Nat) : List (Line α) → FileWork α
  | [] => .leave
  | l :: rest => .run index total rest (.mark l)

def afterStage (index total : Nat) (rest : List (Line α)) : FileStage.Outcome α → FileWork α
  | .going s => .run index total rest s
  | .done => ofLines (index + 1) total rest
  | .stop => .leave

def step (shutdown : Bool) (m : Machine α) : FileWork α → Machine α × Option (FileWork α)
  | read job => (m, job.map .enter)
  | enter job =>
    (m.mapFlow (·.beginFile job.name), some (ofLines 0 job.lines.length job.lines))
  | run index total rest stage =>
    let (n, outcome) := stage.step shutdown m index total
    (n, some (afterStage index total rest outcome))
  | leave => (m.mapFlow (·.finishFile), none)

/-- Asleep until the next look at the machine for a goal. -/
def isPolling : FileWork α → Bool
  | run _ _ _ (.line w) => w.isAsleep
  | _ => false

/-- Asleep in a pause. -/
def isHeld : FileWork α → Bool
  | run _ _ _ (.hold .nap) => true
  | _ => false

def notify : FileWork α → FileWork α
  | run index total rest (.hold h) => .run index total rest (.hold h.notify)
  | w => w

/-- How many steps a line takes at most. -/
def cost (l : Line α) : Nat :=
  64 * l.commands.length + 11

def costs (lines : List (Line α)) : Nat :=
  lines.foldr (fun l n => cost l + n) 0

def rank : FileWork α → Nat
  | read none => 0
  | read (some job) => costs job.lines + 2
  | enter job => costs job.lines + 1
  | run _ _ rest stage => costs rest + stage.rank + 1
  | leave => 0

omit [Scalar α] in
theorem rank_ofLines (index n : Nat) (lines : List (Line α)) :
    (ofLines index n lines).rank = costs lines := by
  cases lines with
  | nil => rfl
  | cons l lines => simp +arith [ofLines, rank, costs, cost, FileStage.rank]

theorem rank_of_step {shutdown : Bool} {m n : Machine α} {w v : FileWork α}
    (hp : w.isPolling = false) (hh : w.isHeld = false)
    (hs : w.step shutdown m = (n, some v)) : v.rank < w.rank := by
  cases w with
  | read job =>
    cases job <;> simp only [step, Option.map_none, Option.map_some, Prod.mk.injEq, reduceCtorEq,
      and_false, Option.some.injEq] at hs
    simp [← hs.2, rank]
  | enter job =>
    simp only [step, Prod.mk.injEq, Option.some.injEq] at hs
    rw [← hs.2, rank_ofLines]
    exact Nat.lt_succ_self _
  | run index n rest stage =>
    simp only [step, Prod.mk.injEq, Option.some.injEq] at hs
    rw [← hs.2]
    cases ho : (stage.step shutdown m index n).2 with
    | going s =>
      have := FileStage.rank_of_step (fun w e => by simpa [e, isPolling] using hp)
        (fun e => by simp [e, isHeld] at hh) (Prod.ext rfl ho)
      simp [afterStage, rank, this]
    | done =>
      rw [afterStage, rank_ofLines, rank]
      omega
    | stop =>
      simp only [afterStage, rank]
      omega
  | leave => simp [step] at hs

end FileWork

end Gantry
