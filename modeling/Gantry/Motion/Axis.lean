import Gantry.Motion.Plan

/-!
# One axis

An axis follows its plan in physical coordinates. Motion control speaks in virtual ones, which
differ by an offset; changing the offset never moves the axis.
-/

namespace Gantry

variable {α : Type} [Scalar α]

structure AxisConfig (α : Type) where
  /-- Lower travel bound, reported and not enforced. -/
  minPos : α
  /-- Upper travel bound, reported and not enforced. -/
  maxPos : α
  maxSpeed : α
  maxAcc : α
  mass : α
  friction : α
deriving Repr, DecidableEq

structure Axis (α : Type) where
  config : AxisConfig α
  /-- Virtual minus physical coordinates. -/
  offset : α
  motion : Kinematics α
  plan : Plan α
  /-- The time at which the axis began to follow its plan. -/
  startTime : Option α
  /-- The reaction force on the frame. -/
  thrust : α
  /-- The mechanical power; below zero while braking. -/
  power : α
deriving Repr, DecidableEq

namespace Axis

def ofConfig (config : AxisConfig α) : Axis α where
  config := config
  offset := 0.0
  motion := { position := 0.0, speed := 0.0, acc := 0.0 }
  plan := Plan.rest
  startTime := none
  thrust := 0.0
  power := 0.0

def limits (a : Axis α) : Limits α where
  maxSpeed := a.config.maxSpeed
  maxAcc := a.config.maxAcc

def position (a : Axis α) : α :=
  a.motion.position

def target (a : Axis α) : α :=
  a.plan.target

/-- A physical coordinate as motion control sees it. -/
def toVirtual (a : Axis α) (physical : α) : α :=
  physical + a.offset

def toPhysical (a : Axis α) (virtual : α) : α :=
  virtual - a.offset

def virtualPosition (a : Axis α) : α :=
  a.toVirtual a.position

def virtualTarget (a : Axis α) : α :=
  a.toVirtual a.target

/-- The present position is declared to be `virtual`. -/
def setOffset (a : Axis α) (virtual : α) : Axis α :=
  { a with offset := virtual - a.position }

def clearOffset (a : Axis α) : Axis α :=
  { a with offset := 0.0 }

/-- Takes up the plan to a physical target, if there is one; otherwise the present plan stays. -/
def planTo (a : Axis α) (target : α) (requested : Option α) : Axis α :=
  match Plan.toward? a.limits a.position target requested with
  | some plan => { a with plan := plan, startTime := none }
  | none => a

def setTarget (a : Axis α) (virtual : α) (requested : Option α) : Axis α :=
  a.planTo (a.toPhysical virtual) requested

def replan (a : Axis α) : Axis α :=
  a.planTo a.target a.plan.requested

/-- Other limits, in force for the move under way as well. -/
def setLimits (a : Axis α) (limits : Limits α) : Axis α :=
  { a with
    config := { a.config with maxSpeed := limits.maxSpeed, maxAcc := limits.maxAcc } }.replan

def Moving (a : Axis α) : Prop :=
  ¬ Scalar.Near a.target a.position

instance (a : Axis α) : Decidable a.Moving :=
  inferInstanceAs (Decidable (¬ Scalar.Near a.target a.position))

/-- At rest on the target. -/
def arrive (a : Axis α) : Axis α :=
  { a with motion := { position := a.target, speed := 0.0, acc := 0.0 }, startTime := none }

/-- The phase at a simulation time. An axis that has not begun to follow its plan counts as
accelerating. -/
def phase (a : Axis α) (time : α) : Phase :=
  if a.Moving then
    match a.startTime with
    | some start => a.plan.phaseAt (time - start)
    | none => .accelerating
  else .idle

/-- Moves along the plan; its clock starts at the first call. -/
def follow (a : Axis α) (time : α) : Axis α :=
  let start := a.startTime.getD time
  let t := time - start
  if a.plan.phaseAt t = .idle then a.arrive
  else { a with motion := a.plan.motionAt a.config.maxAcc t, startTime := some start }

def withDynamics (a : Axis α) : Axis α :=
  { a with
    thrust := -a.motion.acc * a.config.mass
    power := (a.motion.acc * a.config.mass + a.config.friction * a.plan.direction)
      * a.motion.speed }

def run (a : Axis α) (time : α) : Axis α :=
  (if a.Moving then a.follow time else a.arrive).withDynamics

end Axis

end Gantry
