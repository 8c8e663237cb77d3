import Gantry.Heat.Body
import Gantry.Machine.Flow
import Gantry.Motion.Axis

/-!
# The machine

Four axes, two heaters, a feed, and the flow of the file in execution. One tick advances every
axis and every heater to the same simulation time.
-/

namespace Gantry

variable {α : Type} [Scalar α]

structure MachineConfig (α : Type) where
  /-- The temperature of the surroundings. -/
  envTemp : α
  /-- The feed of moves that name none, until one is named. -/
  defaultSpeed : α
  axes : PerAxis (AxisConfig α)
  heaters : PerHeater (HeaterConfig α)
deriving Repr, DecidableEq

structure Machine (α : Type) where
  axes : PerAxis (Axis α)
  heaters : PerHeater (Body α)
  /-- A factor on every feed. -/
  feedOverride : α
  defaultSpeed : α
  /-- A homing was completed. -/
  homed : Bool
  /-- The simulation time of the last tick. -/
  time : α
  flow : Flow
deriving Repr, DecidableEq

namespace Machine

def ofConfig (c : MachineConfig α) : Machine α where
  axes := PerAxis.ofFn fun i => Axis.ofConfig (c.axes.get i)
  heaters := PerHeater.ofFn fun h => Body.ofConfig c.envTemp (c.heaters.get h)
  feedOverride := 1.0
  defaultSpeed := c.defaultSpeed
  homed := false
  time := 0.0
  flow := Flow.initial

def axis (m : Machine α) (i : AxisId) : Axis α :=
  m.axes.get i

def heater (m : Machine α) (h : HeaterId) : Body α :=
  m.heaters.get h

def setAxis (m : Machine α) (i : AxisId) (a : Axis α) : Machine α :=
  { m with axes := m.axes.set i a }

def setHeater (m : Machine α) (h : HeaterId) (b : Body α) : Machine α :=
  { m with heaters := m.heaters.set h b }

/-- One tick: every axis and heater at a simulation time. -/
def run (m : Machine α) (time : α) : Except BoundsFault (Machine α) :=
  match m.heaters.nozzle.run time, m.heaters.plate.run time with
  | .ok nozzle, .ok plate =>
    .ok { m with
      axes := m.axes.map (·.run time)
      heaters := ⟨nozzle, plate⟩
      time := time }
  | .error fault, _ => .error fault
  | _, .error fault => .error fault

def tick (m : Machine α) (step : α) : Except BoundsFault (Machine α) :=
  m.run (m.time + step)

def isMoving (m : Machine α) : Bool :=
  AxisId.all.any fun i => decide (m.axis i).Moving

def positions (m : Machine α) : PerAxis α :=
  m.axes.map (·.virtualPosition)

def totalPower (m : Machine α) : α :=
  Scalar.sum (m.axes.toList.map (·.power)) + m.heaters.nozzle.power + m.heaters.plate.power

def setTemperature (m : Machine α) (h : HeaterId) (celsius : α) : Machine α :=
  m.setHeater h ((m.heater h).setTemperature celsius)

/-- A remembered feed comes back into force. -/
def setDefaultSpeed (m : Machine α) (speed : α) : Machine α :=
  { m with defaultSpeed := speed }

def mapFlow (m : Machine α) (f : Flow → Flow) : Machine α :=
  { m with flow := f m.flow }

def pause? (m : Machine α) : Option (Machine α) :=
  m.flow.pause?.map fun flow => { m with flow := flow }

def resume? (m : Machine α) : Option (Machine α) :=
  m.flow.resume?.map fun flow => { m with flow := flow }

def abort? (m : Machine α) : Option (Machine α) :=
  m.flow.abort?.map fun flow => { m with flow := flow }

end Machine

end Gantry
