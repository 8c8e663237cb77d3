import Gantry.Machine.Basic

/-!
# Coordinated moves

A move names a target for some of the axes. Its length is taken over X, Y and Z together, or over
the extruder where none of them is named; with the feed it gives the time of the move, and each
axis is commanded at its own share of the way in that time. Where a share is above the limit of
its axis, all are slowed down by the same factor.
-/

namespace Gantry

variable {α : Type} [Scalar α]

/-- A value for some of the axes. -/
abbrev Target (α : Type) := PerAxis (Option α)

namespace PerAxis

def single (i : AxisId) (v : α) : Target α :=
  (PerAxis.replicate none).set i (some v)

def isEmpty (t : Target α) : Bool :=
  AxisId.all.all fun i => (t.get i).isNone

def hasCartesian (t : Target α) : Bool :=
  AxisId.cartesian.any fun i => (t.get i).isSome

def inMetres (t : Target α) : Target α :=
  t.map (·.map (· / 1000.0))

end PerAxis

namespace Machine

/-- The way an axis has to go; none where it is not named or already there. -/
def distance (m : Machine α) (target : Target α) (i : AxisId) : α :=
  match target.get i with
  | none => 0.0
  | some v =>
    let current := (m.axis i).virtualPosition
    if Scalar.Near v current then 0.0 else Scalar.abs (v - current)

def pathLength (m : Machine α) (target : Target α) : α :=
  if target.hasCartesian then
    Scalar.sqrt (Scalar.sum
      (AxisId.cartesian.map fun i => m.distance target i * m.distance target i))
  else
    m.distance target .e

/-- The share of its speed limit that an axis needs to make its way in time `t`. -/
def fraction (m : Machine α) (target : Target α) (t : α) (i : AxisId) : α :=
  m.distance target i / t / (m.axis i).config.maxSpeed

/-- The factor by which the move has to slow down, at least one. -/
def rate (m : Machine α) (target : Target α) (t : α) : α :=
  (AxisId.all.map (m.fraction target t)).foldl Scalar.larger 1.0

/-- The speed that an axis is commanded to move at. -/
def commandedSpeed (m : Machine α) (target : Target α) (t : α) (i : AxisId) : α :=
  m.fraction target t i * (m.axis i).config.maxSpeed / m.rate target t

/-- Each named axis that has a way to go plans it, for a move of time `t`. -/
def planMove (m : Machine α) (target : Target α) (t : α) : Machine α :=
  { m with
    axes := PerAxis.ofFn fun i =>
      match target.get i with
      | none => m.axis i
      | some v =>
        if m.distance target i == 0.0 then m.axis i
        else (m.axis i).setTarget v (some (m.commandedSpeed target t i)) }

/-- A feed that is named stays in force; one that is not positive is refused. -/
def withFeed? (m : Machine α) (speed : Option α) : Option (Machine α) :=
  match speed with
  | none => some m
  | some s => if Scalar.isPositive s then some (m.setDefaultSpeed s) else none

/-- Plans a move, and tells whether anything was planned. -/
def setTarget (m : Machine α) (target : Target α) (speed : Option α) : Machine α × Bool :=
  match m.withFeed? speed with
  | none => (m, false)
  | some m =>
    let path := m.pathLength target
    if path == 0.0 then (m, false)
    else (m.planMove target (path / (m.defaultSpeed * m.feedOverride)), true)

/-- The present positions of the named axes are declared to be the given ones. -/
def applyOffset (m : Machine α) (target : Target α) : Machine α :=
  { m with
    axes := PerAxis.ofFn fun i =>
      match target.get i with
      | none => m.axis i
      | some v => (m.axis i).setOffset v }

def clearOffset (m : Machine α) (i : AxisId) : Machine α :=
  m.setAxis i (m.axis i).clearOffset

end Machine

end Gantry
