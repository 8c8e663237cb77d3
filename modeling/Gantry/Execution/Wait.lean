import Gantry.Machine.Basic

/-!
# Waits

A blocking command waits for a goal by looking at the machine from time to time. Each look is
preceded by one at the shutdown flag, and shutdown ends the wait whatever the goal.
-/

namespace Gantry

variable {α : Type} [Scalar α]

inductive Goal where
  /-- Every axis is on its target. -/
  | stopped
  /-- A heater holds its set point. -/
  | settled (h : HeaterId)
deriving DecidableEq, Repr

def Goal.isMet (g : Goal) (m : Machine α) : Bool :=
  match g with
  | stopped => !m.isMoving
  | settled h => (m.heater h).reached

/-- A wait, by what it does next. -/
inductive Wait where
  /-- Reads the shutdown flag. -/
  | flag
  /-- Looks at the machine. -/
  | look
  /-- Wakes up from a nap. -/
  | nap
deriving DecidableEq, Repr

namespace Wait

def step (g : Goal) (shutdown : Bool) (m : Machine α) : Wait → Option Wait
  | flag => if shutdown then none else some look
  | look => if g.isMet m then none else some nap
  | nap => some flag

def rank : Wait → Nat
  | flag => 2
  | look => 1
  | nap => 0

theorem rank_of_step {g : Goal} {shutdown : Bool} {m : Machine α} {w v : Wait} (hw : w ≠ nap)
    (h : w.step g shutdown m = some v) : v.rank < w.rank := by
  cases w with
  | flag =>
    cases shutdown <;> simp [step] at h
    simp [← h, rank]
  | look =>
    simp only [step, Option.ite_none_left_eq_some, Option.some.injEq] at h
    simp [← h.2, rank]
  | nap => exact absurd rfl hw

end Wait

end Gantry
