import Gantry.Machine.Basic

/-!
# Snapshots

A copy of what can be observed of the machine at one instant.
-/

namespace Gantry

variable {α : Type} [Scalar α]

/-- What can be observed of an axis; coordinates are virtual. -/
structure AxisSnapshot (α : Type) where
  position : α
  target : α
  speed : α
  acc : α
  targetSpeed : α
  power : α
  maxSpeed : α
  maxAcc : α
deriving DecidableEq, Repr

structure HeaterSnapshot (α : Type) where
  temperature : α
  target : α
  power : α
  powerIn : α
  kp : α
  ki : α
  windUp : Option α
  settleWindow : α
  settleTime : α
  reached : Bool
deriving DecidableEq, Repr

structure Snapshot (α : Type) where
  time : α
  axes : PerAxis (AxisSnapshot α)
  heaters : PerHeater (HeaterSnapshot α)
  status : Status
  progress : UInt8
  file : Option String
  line : Option String
  feedOverride : α
  homed : Bool
  totalPower : α
deriving DecidableEq, Repr

def Axis.snapshot (a : Axis α) : AxisSnapshot α where
  position := a.virtualPosition
  target := a.virtualTarget
  speed := a.motion.speed
  acc := a.motion.acc
  targetSpeed := a.plan.speed
  power := a.power
  maxSpeed := a.config.maxSpeed
  maxAcc := a.config.maxAcc

def Body.snapshot (b : Body α) : HeaterSnapshot α where
  temperature := b.temperature
  target := b.setPoint
  power := b.power
  powerIn := b.powerIn
  kp := b.control.kp
  ki := b.control.ki
  windUp := b.control.windUp
  settleWindow := b.config.settleWindow
  settleTime := b.config.settleTime
  reached := b.reached

def Machine.snapshot (m : Machine α) : Snapshot α where
  time := m.time
  axes := m.axes.map (·.snapshot)
  heaters := PerHeater.ofFn fun h => (m.heater h).snapshot
  status := m.flow.status
  progress := m.flow.progress.toUInt8
  file := m.flow.file
  line := m.flow.line
  feedOverride := m.feedOverride
  homed := m.homed
  totalPower := m.totalPower

end Gantry
