import Gantry.Config.Basic
import Gantry.Number.Layout
import Gantry.Text.Blank

/-!
# Valid configurations

A configuration that was read is checked field by field; the first violation is reported. Travel
bounds, the gains of a controller and the conduction of a body are free.
-/

namespace Gantry

variable {α : Type} [Scalar α]

inductive Violation (α : Type) where
  | emptyServiceName
  /-- A value that is not finite and positive. -/
  | notPositive (name : String) (value : α)
  /-- A value that is below zero or not finite. -/
  | negative (name : String) (value : α)
  /-- A temperature that is not finite. -/
  | notFinite (name : String)
  /-- A tick period of less than a nanosecond, or of more than the clock can count. -/
  | tickPeriod (seconds : α)
  /-- A wait of no time. -/
  | zeroInterval (name : String)
deriving DecidableEq, Repr

inductive ConfigError (α : Type) where
  | fileNotFound
  /-- A file that cannot be read, or a document of the wrong form. -/
  | malformed
  | invalid (violation : Violation α)
deriving DecidableEq, Repr

def Violation.text : Violation Float → String
  | emptyServiceName => "service_name cannot be empty"
  | notPositive name value =>
    name ++ " must be a positive number (got " ++ Number.plain value ++ ")"
  | negative name value =>
    name ++ " must be a non-negative number (got " ++ Number.plain value ++ ")"
  | notFinite name => name ++ " must be finite"
  | tickPeriod seconds =>
    "engine.time_step / engine.time_mult must give a tick period of at least 1ns (got "
      ++ Number.plain seconds ++ "s)"
  | zeroInterval name => name ++ " must be greater than 0"

def ConfigError.message : ConfigError Float → String
  | fileNotFound => "Configuration file not found"
  | malformed => "Failed to parse configuration"
  | invalid violation => "Configuration validation failed: " ++ violation.text

def requirePositive (name : String) (value : α) : Except (Violation α) Unit :=
  if Scalar.isPositive value then .ok () else .error (.notPositive name value)

def requireNonNegative (name : String) (value : α) : Except (Violation α) Unit :=
  if Scalar.isNonNegative value then .ok () else .error (.negative name value)

def SharedConfig.validate (c : SharedConfig) : Except (Violation α) Unit :=
  if Text.isAllBlank c.serviceName then .error .emptyServiceName else .ok ()

namespace EngineConfig

def validate (c : EngineConfig α) : Except (Violation α) Unit := do
  requirePositive "engine.time_step" c.timeStep
  requirePositive "engine.time_mult" c.timeMult
  if c.tickPeriod?.isNone then
    throw (.tickPeriod (c.timeStep / c.timeMult))
  if c.pollMs = 0 then
    throw (.zeroInterval "engine.poll_interval_ms")
  if c.pauseMs = 0 then
    throw (.zeroInterval "engine.pause_poll_ms")

end EngineConfig

def AxisConfig.validate (c : AxisConfig α) (i : AxisId) : Except (Violation α) Unit := do
  let name (field : String) := "machine." ++ i.text ++ "." ++ field
  requirePositive (name "max_speed") c.maxSpeed
  requirePositive (name "max_acc") c.maxAcc
  requireNonNegative (name "mass") c.mass
  requireNonNegative (name "friction") c.friction

/-- Accepts a heater with mass, heat capacity and power, and no negative surface, settle band,
settle time or bound of the integral. -/
def HeaterConfig.validate (c : HeaterConfig α) (h : HeaterId) : Except (Violation α) Unit := do
  let name (field : String) := "machine." ++ h.name ++ "." ++ field
  requirePositive (name "mass") c.mass
  requirePositive (name "c_heat") c.cHeat
  requirePositive (name "h_power") c.hPower
  requireNonNegative (name "surface") c.surface
  requireNonNegative (name "settle_window") c.settleWindow
  requireNonNegative (name "settle_time") c.settleTime
  match c.windUp with
  | some bound => requireNonNegative (name "wind_up") bound
  | none => pure ()

def MachineConfig.validate (c : MachineConfig α) : Except (Violation α) Unit := do
  if !Scalar.isFinite c.envTemp then
    throw (.notFinite "machine.env_temp")
  requirePositive "machine.default_speed" c.defaultSpeed
  AxisId.all.forM fun i => (c.axes.get i).validate i
  HeaterId.all.forM fun h => (c.heaters.get h).validate h

def SimConfig.validate (c : SimConfig α) : Except (Violation α) Unit := do
  c.shared.validate
  c.engine.validate
  c.machine.validate

end Gantry
