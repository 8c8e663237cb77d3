import Gantry.Execution.FileRun

/-!
# Tasks

A task executes one line or one file. It runs without waiting from one nap to the next; that it
comes to a nap or to its end is the rank of a task, which falls with every step.
-/

namespace Gantry

variable {α : Type} [Scalar α]

/-- A task that is not over. -/
inductive Task (α : Type) where
  | line (w : LineWork α)
  | file (w : FileWork α)
deriving DecidableEq, Repr

/-- A nap between two looks at the machine. -/
inductive Nap where
  /-- In a blocking command. -/
  | poll
  /-- In a pause. -/
  | pause
deriving DecidableEq, Repr

namespace Task

def ofLine (text : String) : Task α :=
  .line (.enter (Line.ofText text))

/-- The task of a file of this name and text; one that is not text ends without a trace. -/
def ofFile (name : String) (text : Option String) : Task α :=
  .file (.read (text.map (FileJob.ofText name)))

def step (shutdown : Bool) (m : Machine α) : Task α → Machine α × Option (Task α)
  | line w =>
    let (n, more) := w.step shutdown m
    (n, more.map .line)
  | file w =>
    let (n, more) := w.step shutdown m
    (n, more.map .file)

/-- The nap that a task is in. -/
def nap? : Task α → Option Nap
  | line w => if w.isAsleep then some .poll else none
  | file w => if w.isPolling then some .poll else if w.isHeld then some .pause else none

def notify : Task α → Task α
  | line w => .line w
  | file w => .file w.notify

def rank : Task α → Nat
  | line w => w.rank
  | file w => w.rank

theorem rank_of_step {shutdown : Bool} {m n : Machine α} {t u : Task α} (ha : t.nap? = none)
    (hs : t.step shutdown m = (n, some u)) : u.rank < t.rank := by
  cases t with
  | line w =>
    simp only [step, Prod.mk.injEq, Option.map_eq_some_iff] at hs
    obtain ⟨-, v, hv, rfl⟩ := hs
    have hw : w.isAsleep = false := by
      cases h : w.isAsleep <;> simp [nap?, h] at ha ⊢
    exact LineWork.rank_of_step hw (Prod.ext rfl hv)
  | file w =>
    simp only [step, Prod.mk.injEq, Option.map_eq_some_iff] at hs
    obtain ⟨-, v, hv, rfl⟩ := hs
    have hp : w.isPolling = false := by
      cases h : w.isPolling <;> simp [nap?, h] at ha ⊢
    have hh : w.isHeld = false := by
      cases h : w.isHeld <;> simp [nap?, hp, h] at ha ⊢
    exact FileWork.rank_of_step hp hh (Prod.ext rfl hv)

def settle (shutdown : Bool) (m : Machine α) (t : Task α) : Machine α × Option (Task α) :=
  match _hn : t.nap? with
  | some _ => (m, some t)
  | none =>
    match _hs : t.step shutdown m with
    | (n, none) => (n, none)
    | (n, some u) => settle shutdown n u
termination_by t.rank
decreasing_by exact rank_of_step _hn _hs

end Task

end Gantry
