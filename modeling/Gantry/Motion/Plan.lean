import Gantry.Scalar

/-!
# Planned moves

A move along one axis with a symmetric velocity profile: a ramp up at the acceleration limit, a
cruise, a ramp down of the same length. A trip too short for both ramps has no cruise, and its
peak is the speed reached at half the trip.

A plan knows where it starts and what it was asked for. It does not know when it starts: time is
counted from the first instant at which the axis follows it.
-/

namespace Gantry

variable {α : Type} [Scalar α]

structure Limits (α : Type) where
  maxSpeed : α
  maxAcc : α
deriving Repr, DecidableEq

/-- A stage of a move, by the time since its start. -/
inductive Phase where
  | accelerating
  | cruising
  | decelerating
  /-- The move is over. -/
  | idle
deriving DecidableEq, Repr

def Phase.name : Phase → String
  | accelerating => "Accelerating"
  | cruising => "Cruising"
  | decelerating => "Decelerating"
  | idle => "Idle"

structure Kinematics (α : Type) where
  position : α
  speed : α
  acc : α
deriving Repr, DecidableEq

/-- A planned move along one axis. -/
structure Plan (α : Type) where
  start : α
  target : α
  /-- One towards larger positions, minus one towards smaller ones. -/
  direction : α
  /-- The speed asked for, before the limit and the short trip lower it. -/
  requested : Option α
  /-- The cruise speed, or the peak of a move without a cruise. -/
  speed : α
  trip : α
  /-- The length of one ramp. -/
  accTrip : α
  /-- The way covered when the ramp down begins. -/
  decTrip : α
  /-- The duration of one ramp. -/
  accTime : α
  /-- The time at which the ramp down begins. -/
  decTime : α
  /-- The duration of the whole move. -/
  moveTime : α
deriving Repr, DecidableEq

/-- One ramp of a move: how long it takes, how far it goes, the speed it reaches. -/
structure Ramp (α : Type) where
  time : α
  trip : α
  speed : α

/-- The ramp to `speed`, or to the speed reached at half of `trip` where two ramps do not fit. -/
@[specialize] def Ramp.within (maxAcc speed trip : α) : Ramp α :=
  let time := speed / maxAcc
  let rampTrip := 0.5 * maxAcc * time * time
  if trip < 2.0 * rampTrip ∧ ¬ Scalar.Near (2.0 * rampTrip) trip then
    let time := Scalar.sqrt (trip / maxAcc)
    { time := time, trip := trip / 2.0, speed := maxAcc * time }
  else
    { time := time, trip := rampTrip, speed := speed }

namespace Plan

def rest : Plan α where
  start := 0.0
  target := 0.0
  direction := 1.0
  requested := none
  speed := 0.0
  trip := 0.0
  accTrip := 0.0
  decTrip := 0.0
  accTime := 0.0
  decTime := 0.0
  moveTime := 0.0

/-- The plan made of one ramp, a cruise over what two ramps leave of the trip, and the same ramp
downwards. -/
@[specialize] def ofRamp (start target : α) (requested : Option α) (trip : α) (ramp : Ramp α) :
    Plan α :=
  let cruiseTrip := Scalar.larger (trip - 2.0 * ramp.trip) 0.0
  let cruiseTime := cruiseTrip / ramp.speed
  { start := start
    target := target
    direction := if start ≤ target then 1.0 else -1.0
    requested := requested
    speed := ramp.speed
    trip := trip
    accTrip := ramp.trip
    decTrip := ramp.trip + cruiseTrip
    accTime := ramp.time
    decTime := ramp.time + cruiseTime
    moveTime := 2.0 * ramp.time + cruiseTime }

/-- The plan from `start` to `target` within the limits, at the requested speed if there is one.
There is none without a way to go, and none where speed or acceleration is not above zero. -/
@[specialize] def toward? (limits : Limits α) (start target : α) (requested : Option α) :
    Option (Plan α) :=
  let speed := Scalar.smaller (requested.getD limits.maxSpeed) limits.maxSpeed
  let trip := Scalar.abs (target - start)
  if trip == 0.0 then none
  else if 0.0 < speed ∧ 0.0 < limits.maxAcc then
    some (ofRamp start target requested trip (Ramp.within limits.maxAcc speed trip))
  else none

/-- The phase at a time since the start. -/
@[specialize] def phaseAt (p : Plan α) (t : α) : Phase :=
  if t < p.accTime then .accelerating
  else if t < p.decTime then .cruising
  else if t < p.moveTime then .decelerating
  else .idle

@[specialize] def motionAt (p : Plan α) (maxAcc t : α) : Kinematics α :=
  match p.phaseAt t with
  | .accelerating =>
    { position := p.start + p.direction * 0.5 * maxAcc * t * t
      speed := p.direction * maxAcc * t
      acc := p.direction * maxAcc }
  | .cruising =>
    let sinceRamp := t - p.accTime
    { position := p.start + p.direction * (p.accTrip + p.speed * sinceRamp)
      speed := p.direction * p.speed
      acc := 0.0 }
  | .decelerating =>
    let sinceCruise := t - p.decTime
    { position := p.start + p.direction *
        (p.decTrip + p.speed * sinceCruise - 0.5 * maxAcc * sinceCruise * sinceCruise)
      speed := p.direction * (p.speed - maxAcc * sinceCruise)
      acc := -p.direction * maxAcc }
  | .idle => { position := p.target, speed := 0.0, acc := 0.0 }

end Plan

end Gantry
