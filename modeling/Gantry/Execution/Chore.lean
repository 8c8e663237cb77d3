import Gantry.Execution.Homing
import Gantry.Gcode.Command

/-!
# Chores

A chore is a command as it is carried out: a sequence of steps, each of which looks at the machine
or changes it once, or reads the shutdown flag. Between two steps anything else may happen to the
machine.
-/

namespace Gantry

variable {α : Type} [Scalar α]

/-- A chore, by what is done next. -/
inductive Chore (α : Type) where
  /-- Plans a move, and may wait for its end. -/
  | move (target : Target α) (speed : Option α) (blocking : Bool)
  /-- Declares the present positions to be the given ones. -/
  | offset (target : Target α)
  /-- Changes a set point, and may wait until it is held. -/
  | heat (h : HeaterId) (celsius : α) (blocking : Bool)
  | await (goal : Goal) (wait : Wait)
  /-- Notes the default speed and begins to home X, Y and Z. -/
  | home
  /-- Homes an axis, and then the rest. -/
  | homing (saved : α) (i : AxisId) (rest : List AxisId) (h : Homing α)
  /-- Reads the shutdown flag to tell whether homing was completed. -/
  | homed (saved : α)
  /-- Restores the default speed. -/
  | restore (saved : α) (completed : Bool)
deriving DecidableEq, Repr

namespace Chore

/-- The chore of a command, in metres and seconds. -/
def ofCommand : Gcode.Command α → Chore α
  | .move target feed => .move target.inMetres (feed.map (· / 1000.0 / 60.0)) true
  | .offset target => .offset target.inMetres
  | .home => .home
  | .heat h celsius wait => .heat h celsius wait

def homeAxes (saved : α) : List AxisId → Chore α
  | [] => .homed saved
  | i :: rest => .homing saved i rest .locate

/-- How homing goes on after a step on one axis. -/
def afterHoming (saved : α) (i : AxisId) (rest : List AxisId) : Homing.Outcome α → Chore α
  | .going h => .homing saved i rest h
  | .done => homeAxes saved rest
  | .interrupted => .homed saved

/-- The default speed from before homing is back, and a completed homing is noted. -/
def restored (m : Machine α) (saved : α) (completed : Bool) : Machine α :=
  { m.setDefaultSpeed saved with homed := completed || m.homed }

/-- The next step of a chore; none follows where it is over. A heater that is switched off is not
waited for. -/
def step (shutdown : Bool) (m : Machine α) : Chore α → Machine α × Option (Chore α)
  | move target speed blocking =>
    ((m.setTarget target speed).1, if blocking then some (.await .stopped .flag) else none)
  | offset target => (m.applyOffset target, none)
  | heat h celsius blocking =>
    (m.setTemperature h celsius,
      if blocking && celsius != 0.0 then some (.await (.settled h) .flag) else none)
  | await goal wait => (m, (wait.step goal shutdown m).map (.await goal))
  | home => (m, some (homeAxes m.defaultSpeed AxisId.cartesian))
  | homing saved i rest h =>
    let (n, outcome) := h.step shutdown m i
    (n, some (afterHoming saved i rest outcome))
  | homed saved => (m, some (.restore saved !shutdown))
  | restore saved completed => (restored m saved completed, none)

/-- Asleep until the next look at the machine. -/
def isAsleep : Chore α → Bool
  | await _ .nap => true
  | homing _ _ _ h => h.isAsleep
  | _ => false

/-- How many steps are left at most before a nap. -/
def rank : Chore α → Nat
  | restore _ _ => 1
  | homed _ => 2
  | homing _ _ rest h => 2 + 17 * rest.length + h.rank
  | home => 54
  | offset _ => 1
  | await _ w => 1 + w.rank
  | move _ _ _ => 4
  | heat _ _ _ => 4

theorem rank_ofCommand_le (c : Gcode.Command α) : (ofCommand c).rank ≤ 54 := by
  cases c <;> simp [ofCommand, rank]

omit [Scalar α] in
theorem rank_homeAxes_le (saved : α) (is : List AxisId) :
    (homeAxes saved is).rank ≤ 2 + 17 * is.length := by
  cases is <;> simp [homeAxes, rank, Homing.rank]
  omega

theorem rank_of_step {shutdown : Bool} {m n : Machine α} {c d : Chore α}
    (ha : c.isAsleep = false) (hs : c.step shutdown m = (n, some d)) : d.rank < c.rank := by
  cases c with
  | move target speed blocking =>
    simp only [step, Prod.mk.injEq, Option.ite_none_right_eq_some, Option.some.injEq] at hs
    simp [← hs.2.2, rank, Wait.rank]
  | offset target => simp [step] at hs
  | heat h celsius blocking =>
    simp only [step, Prod.mk.injEq, Option.ite_none_right_eq_some, Option.some.injEq] at hs
    simp [← hs.2.2, rank, Wait.rank]
  | await goal wait =>
    simp only [step, Prod.mk.injEq, Option.map_eq_some_iff] at hs
    obtain ⟨-, v, hv, rfl⟩ := hs
    have hw : wait ≠ .nap := fun hw => by simp [hw, isAsleep] at ha
    have := Wait.rank_of_step hw hv
    simp [rank, this]
  | home =>
    simp only [step, Prod.mk.injEq, Option.some.injEq] at hs
    rw [← hs.2]
    exact Nat.lt_of_le_of_lt (rank_homeAxes_le _ _) (by simp [AxisId.cartesian, rank])
  | homing saved i rest h =>
    simp only [step, Prod.mk.injEq, Option.some.injEq] at hs
    rw [← hs.2]
    cases ho : (h.step shutdown m i).2 with
    | going k =>
      have := Homing.rank_of_step ha (Prod.ext rfl ho)
      simp [afterHoming, rank, this]
    | done =>
      exact Nat.lt_of_le_of_lt (rank_homeAxes_le _ _) (by simp [rank, h.rank_pos])
    | interrupted =>
      have := h.rank_pos
      simp only [afterHoming, rank]
      omega
  | homed saved =>
    simp only [step, Prod.mk.injEq, Option.some.injEq] at hs
    simp [← hs.2, rank]
  | restore saved completed => simp [step] at hs

def settle (shutdown : Bool) (m : Machine α) (c : Chore α) : Machine α × Option (Chore α) :=
  match _ha : c.isAsleep with
  | true => (m, some c)
  | false =>
    match _hs : c.step shutdown m with
    | (n, none) => (n, none)
    | (n, some d) => settle shutdown n d
termination_by c.rank
decreasing_by exact rank_of_step _ha _hs

def resume (shutdown : Bool) (m : Machine α) (c : Chore α) : Machine α × Option (Chore α) :=
  match c.step shutdown m with
  | (n, none) => (n, none)
  | (n, some d) => d.settle shutdown n

end Chore

end Gantry
