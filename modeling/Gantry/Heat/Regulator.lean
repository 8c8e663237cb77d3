import Gantry.Scalar

/-!
# Proportional-integral control

A regulator integrates its error by the trapezoidal rule over the simulation time between two
calls. The first call after a reset only establishes the time and integrates nothing.
-/

namespace Gantry

variable {α : Type} [Scalar α]

/-- A control law was asked for a value inside bounds that enclose none. -/
inductive BoundsFault where
  /-- The bound of the integral is undefined. -/
  | windUp
  /-- The power limit of a heater is undefined or below zero. -/
  | heaterPower
deriving DecidableEq, Repr

/-- A proportional-integral controller. -/
structure Regulator (α : Type) where
  kp : α
  ki : α
  setPoint : α
  /-- Lower bound of the output. -/
  minOut : Option α
  /-- Upper bound of the output. -/
  maxOut : Option α
  /-- Bound of the integral in both directions. -/
  windUp : Option α
  integral : α
  lastError : α
  lastTime : Option α
deriving Repr, DecidableEq

namespace Regulator

def ofGains (kp ki setPoint : α) : Regulator α where
  kp := kp
  ki := ki
  setPoint := setPoint
  minOut := none
  maxOut := none
  windUp := none
  integral := 0.0
  lastError := 0.0
  lastTime := none

/-- Forgets the past; gains, bounds and set point stay. -/
def reset (r : Regulator α) : Regulator α :=
  { r with integral := 0.0, lastError := 0.0, lastTime := none }

def error (r : Regulator α) (measured : α) : α :=
  r.setPoint - measured

def elapsed (r : Regulator α) (time : α) : α :=
  match r.lastTime with
  | some last => time - last
  | none => 0.0

/-- The integral carried on to `time`, inside its bound. -/
def integrate (r : Regulator α) (time measured : α) : Except BoundsFault α :=
  let free := r.integral + (r.lastError + r.error measured) * r.elapsed time / 2.0
  match r.windUp with
  | none => .ok free
  | some bound =>
    match Scalar.clamp? free (-Scalar.abs bound) (Scalar.abs bound) with
    | some held => .ok held
    | none => .error .windUp

def raised (r : Regulator α) (out : α) : α :=
  match r.minOut with
  | some lo => if out < lo then lo else out
  | none => out

/-- The output inside the bounds that are set; the upper one is looked at first. -/
def bounded (r : Regulator α) (out : α) : α :=
  match r.maxOut with
  | some hi => if hi < out then hi else r.raised out
  | none => r.raised out

def run (r : Regulator α) (time measured : α) : Except BoundsFault (Regulator α × α) :=
  match r.integrate time measured with
  | .error fault => .error fault
  | .ok integral =>
    let error := r.error measured
    .ok ({ r with integral := integral, lastError := error, lastTime := some time },
      r.bounded (r.kp * error + r.ki * integral))

end Regulator

end Gantry
