import Gantry.Heat.Regulator

/-!
# A heated body

A body is heated by an electric heater under proportional-integral control and loses heat to its
surroundings by conduction and radiation. It counts as settled once its temperature has stayed
inside a band around the set point for longer than a given time. A set point of zero switches the
heater off.
-/

namespace Gantry

variable {α : Type} [Scalar α]

structure HeaterConfig (α : Type) where
  mass : α
  surface : α
  /-- The largest power of the heater. -/
  hPower : α
  /-- The specific heat capacity. -/
  cHeat : α
  /-- The coefficient of conduction and convection. -/
  kHeat : α
  kp : α
  ki : α
  /-- The bound of the integral; none leaves it free. -/
  windUp : Option α
  /-- Half the width of the band around the set point. -/
  settleWindow : α
  /-- How long the temperature has to stay in the band. -/
  settleTime : α
deriving Repr, DecidableEq

structure BodyConfig (α : Type) where
  envTemp : α
  mass : α
  surface : α
  hPower : α
  cHeat : α
  kHeat : α
  settleWindow : α
  settleTime : α
deriving Repr, DecidableEq

structure Body (α : Type) where
  config : BodyConfig α
  control : Regulator α
  temperature : α
  /-- The wanted temperature; zero is off. -/
  setPoint : α
  /-- The net power into the body. -/
  power : α
  /-- The power of the heater. -/
  powerIn : α
  /-- The power lost to the surroundings. -/
  powerOut : α
  lastPower : α
  lastTime : Option α
  /-- The set point is reached and held. -/
  reached : Bool
  /-- How long the temperature has been in the band. -/
  settleTimer : α
deriving Repr, DecidableEq

def stefanBoltzmann : α :=
  5.670367e-8

def kelvin (celsius : α) : α :=
  celsius + 273.15

def fourth (x : α) : α :=
  x * x * (x * x)

namespace Body

def ofConfig (envTemp : α) (c : HeaterConfig α) : Body α where
  config :=
    { envTemp := envTemp
      mass := c.mass
      surface := c.surface
      hPower := c.hPower
      cHeat := c.cHeat
      kHeat := c.kHeat
      settleWindow := c.settleWindow
      settleTime := c.settleTime }
  control :=
    { Regulator.ofGains c.kp c.ki 0.0 with
      minOut := some 0.0
      maxOut := some c.hPower
      windUp := c.windUp }
  temperature := envTemp
  setPoint := 0.0
  power := 0.0
  powerIn := 0.0
  powerOut := 0.0
  lastPower := 0.0
  lastTime := none
  reached := false
  settleTimer := 0.0

/-- The power lost at a temperature. -/
def heatLoss (b : BodyConfig α) (temp : α) : α :=
  let conduction := (temp - b.envTemp) * b.kHeat
  let radiation := (fourth (kelvin temp) - fourth (kelvin b.envTemp)) * stefanBoltzmann
  b.surface * (conduction + radiation)

/-- Another set point; settling starts over even where the value is the same. -/
def setTemperature (b : Body α) (celsius : α) : Body α :=
  { b with
    setPoint := celsius
    control := { b.control with setPoint := celsius }
    reached := false
    settleTimer := 0.0 }

/-- The controller and the power of the heater at a time. A heater that is off keeps its
controller free of any past. -/
def heat (b : Body α) (time : α) : Except BoundsFault (Regulator α × α) :=
  if b.setPoint == 0.0 then .ok (b.control.reset, 0.0)
  else
    match b.control.run time b.temperature with
    | .error fault => .error fault
    | .ok (control, out) =>
      match Scalar.clamp? out 0.0 b.config.hPower with
      | some power => .ok (control, power)
      | none => .error .heaterPower

/-- The band is left, stayed in, or stayed in long enough. -/
def settle (b : Body α) (elapsed : α) : Body α :=
  if Scalar.abs (b.temperature - b.setPoint) < b.config.settleWindow then
    let timer := b.settleTimer + elapsed
    { b with
      settleTimer := timer
      reached := b.reached || decide (b.config.settleTime < timer) }
  else
    { b with reached := false, settleTimer := 0.0 }

/-- The time since the last call, zero at the first. -/
def elapsed (b : Body α) (time : α) : α :=
  match b.lastTime with
  | some last => time - last
  | none => 0.0

/-- The body at a simulation time: the net power is averaged with that of the last call. -/
def run (b : Body α) (time : α) : Except BoundsFault (Body α) :=
  match b.heat time with
  | .error fault => .error fault
  | .ok (control, powerIn) =>
    let elapsed := b.elapsed time
    let powerOut := heatLoss b.config b.temperature
    let power := powerIn - powerOut
    let temperature := b.temperature
      + (power + b.lastPower) * elapsed / 2.0 / (b.config.cHeat * b.config.mass)
    let heated : Body α :=
      { b with
        control := control
        powerIn := powerIn
        powerOut := powerOut
        power := power
        temperature := temperature
        lastPower := power }
    .ok { heated.settle elapsed with lastTime := some time }

end Body

end Gantry
