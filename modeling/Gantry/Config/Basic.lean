import Gantry.Machine.Basic

/-!
# Configuration

What a simulator is configured with: its name and log level, the timing of its engine, and its
machine. Every part has a default, and together the defaults are the stock machine.
-/

namespace Gantry

variable {α : Type} [Scalar α]

inductive LogLevel where
  | trace
  | debug
  | info
  | warn
  | error
deriving DecidableEq, Repr

namespace LogLevel

def all : List LogLevel :=
  [.trace, .debug, .info, .warn, .error]

def name : LogLevel → String
  | trace => "trace"
  | debug => "debug"
  | info => "info"
  | warn => "warn"
  | error => "error"

def label : LogLevel → String
  | trace => "TRACE"
  | debug => "DEBUG"
  | info => "INFO"
  | warn => "WARN"
  | error => "ERROR"

def ofName? (s : String) : Option LogLevel :=
  all.find? (·.name == s)

end LogLevel

structure SharedConfig where
  logLevel : LogLevel
  serviceName : String
deriving DecidableEq, Repr

structure EngineConfig (α : Type) where
  /-- Simulated seconds to a tick. -/
  timeStep : α
  /-- How many times faster than the clock the simulation runs. -/
  timeMult : α
  /-- Milliseconds between two looks of a blocking wait. -/
  pollMs : Nat
  /-- Milliseconds between two looks of a paused file. -/
  pauseMs : Nat
deriving DecidableEq, Repr

structure SimConfig (α : Type) where
  shared : SharedConfig
  engine : EngineConfig α
  machine : MachineConfig α
deriving DecidableEq, Repr

namespace EngineConfig

/-- Nanoseconds on the clock between two ticks, where that is at least one. -/
def tickPeriod? (c : EngineConfig α) : Option Nat :=
  match Scalar.nanoseconds? (c.timeStep / c.timeMult) with
  | some 0 => none
  | period => period

end EngineConfig

def SharedConfig.stock : SharedConfig where
  logLevel := .info
  serviceName := "cnc_sim"

def EngineConfig.stock : EngineConfig α where
  timeStep := 0.05
  timeMult := 1.0
  pollMs := 10
  pauseMs := 500

def AxisConfig.stock : AxisId → AxisConfig α
  | .x =>
    { minPos := 0.0, maxPos := 0.2, maxSpeed := 0.1, maxAcc := 1.0, mass := 0.5, friction := 15.0 }
  | .y =>
    { minPos := 0.0, maxPos := 0.2, maxSpeed := 0.1, maxAcc := 1.0, mass := 0.5, friction := 13.0 }
  | .z =>
    { minPos := 0.0, maxPos := 0.2, maxSpeed := 0.01, maxAcc := 0.05, mass := 1.5,
      friction := 30.0 }
  | .e =>
    { minPos := 0.0, maxPos := 0.0, maxSpeed := 0.01, maxAcc := 0.05, mass := 0.1,
      friction := 100.0 }

def HeaterConfig.stock : HeaterId → HeaterConfig α
  | .nozzle =>
    { mass := 0.02
      surface := 0.001
      hPower := 120.0
      cHeat := 420.0
      kHeat := 25.0
      kp := 20.0
      ki := 1.0
      windUp := some 10.0
      settleWindow := 0.1
      settleTime := 0.1 }
  | .plate =>
    { mass := 0.3
      surface := 0.04
      hPower := 240.0
      cHeat := 420.0
      kHeat := 15.0
      kp := 20.0
      ki := 2.0
      windUp := some 30.0
      settleWindow := 0.1
      settleTime := 0.1 }

def MachineConfig.stock : MachineConfig α where
  envTemp := 25.0
  defaultSpeed := 0.01
  axes := PerAxis.ofFn AxisConfig.stock
  heaters := PerHeater.ofFn HeaterConfig.stock

def SimConfig.stock : SimConfig α where
  shared := SharedConfig.stock
  engine := EngineConfig.stock
  machine := MachineConfig.stock

end Gantry
