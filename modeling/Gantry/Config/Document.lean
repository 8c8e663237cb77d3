import Gantry.Config.Validation
import Gantry.Number.Reading
import Gantry.Text.File
import Gantry.Toml.Document
import Gantry.Toml.Record

/-!
# Configuration documents

Configurations are read from TOML. A field that is missing keeps its default, and in the section
of an axis or a heater that is the value of the stock part.
-/

namespace Gantry

open Toml (Record)

def numberOfInt (n : Int) : Float :=
  Number.signed (decide (n < 0)) (Number.ofDecimal n.natAbs 0)

def number? : Toml → Option Float :=
  Toml.toFloat? numberOfInt

namespace SharedConfig

def fields : List String :=
  ["log_level", "service_name"]

def ofToml? (v : Toml) : Option SharedConfig := do
  let r ← Toml.record? fields v
  return {
    logLevel := ← r.getD? (Toml.toChoice? LogLevel.ofName?) "log_level" stock.logLevel
    serviceName := ← r.getD? Toml.toString? "service_name" stock.serviceName }

end SharedConfig

namespace EngineConfig

def fields : List String :=
  ["time_step", "time_mult", "poll_interval_ms", "pause_poll_ms"]

def ofToml? (v : Toml) : Option (EngineConfig Float) := do
  let r ← Toml.record? fields v
  return {
    timeStep := ← r.getD? number? "time_step" stock.timeStep
    timeMult := ← r.getD? number? "time_mult" stock.timeMult
    pollMs := ← r.getD? Toml.toNat? "poll_interval_ms" (stock : EngineConfig Float).pollMs
    pauseMs := ← r.getD? Toml.toNat? "pause_poll_ms" (stock : EngineConfig Float).pauseMs }

end EngineConfig

namespace AxisConfig

def fields : List String :=
  ["min_pos", "max_pos", "max_speed", "max_acc", "mass", "friction"]

def over? (base : AxisConfig Float) (v : Toml) : Option (AxisConfig Float) := do
  let r ← Toml.record? fields v
  return {
    minPos := ← r.getD? number? "min_pos" base.minPos
    maxPos := ← r.getD? number? "max_pos" base.maxPos
    maxSpeed := ← r.getD? number? "max_speed" base.maxSpeed
    maxAcc := ← r.getD? number? "max_acc" base.maxAcc
    mass := ← r.getD? number? "mass" base.mass
    friction := ← r.getD? number? "friction" base.friction }

def ofToml? (v : Toml) : Option (AxisConfig Float) := do
  let r ← Toml.record? fields v
  return {
    minPos := ← r.require? number? "min_pos"
    maxPos := ← r.require? number? "max_pos"
    maxSpeed := ← r.require? number? "max_speed"
    maxAcc := ← r.require? number? "max_acc"
    mass := ← r.require? number? "mass"
    friction := ← r.require? number? "friction" }

end AxisConfig

namespace HeaterConfig

def fields : List String :=
  ["mass", "surface", "h_power", "c_heat", "k_heat", "kp", "ki", "wind_up", "settle_window",
    "settle_time"]

/-- The section of a value over the parameters of another heater. -/
def over? (base : HeaterConfig Float) (v : Toml) : Option (HeaterConfig Float) := do
  let r ← Toml.record? fields v
  return {
    mass := ← r.getD? number? "mass" base.mass
    surface := ← r.getD? number? "surface" base.surface
    hPower := ← r.getD? number? "h_power" base.hPower
    cHeat := ← r.getD? number? "c_heat" base.cHeat
    kHeat := ← r.getD? number? "k_heat" base.kHeat
    kp := ← r.getD? number? "kp" base.kp
    ki := ← r.getD? number? "ki" base.ki
    windUp := (← r.get? number? "wind_up").or base.windUp
    settleWindow := ← r.getD? number? "settle_window" base.settleWindow
    settleTime := ← r.getD? number? "settle_time" base.settleTime }

/-- The parameters of a value that gives all of them; only the bound of the integral may be
missing, and not from an array. -/
def ofToml? (v : Toml) : Option (HeaterConfig Float) := do
  let r ← Toml.record? fields v
  return {
    mass := ← r.require? number? "mass"
    surface := ← r.require? number? "surface"
    hPower := ← r.require? number? "h_power"
    cHeat := ← r.require? number? "c_heat"
    kHeat := ← r.require? number? "k_heat"
    kp := ← r.require? number? "kp"
    ki := ← r.require? number? "ki"
    windUp := ← r.get? number? "wind_up"
    settleWindow := ← r.require? number? "settle_window"
    settleTime := ← r.require? number? "settle_time" }

end HeaterConfig

namespace MachineConfig

def fields : List String :=
  ["env_temp", "default_speed", "x", "y", "z", "e", "nozzle", "plate"]

def ofToml? (v : Toml) : Option (MachineConfig Float) := do
  let r ← Toml.record? fields v
  let base : MachineConfig Float := stock
  let axis (i : AxisId) : Option (AxisConfig Float) :=
    r.getD? (base.axes.get i).over? i.name (base.axes.get i)
  let heater (h : HeaterId) : Option (HeaterConfig Float) :=
    r.getD? (base.heaters.get h).over? h.name (base.heaters.get h)
  return {
    envTemp := ← r.getD? number? "env_temp" base.envTemp
    defaultSpeed := ← r.getD? number? "default_speed" base.defaultSpeed
    axes := ⟨← axis .x, ← axis .y, ← axis .z, ← axis .e⟩
    heaters := ⟨← heater .nozzle, ← heater .plate⟩ }

end MachineConfig

namespace SimConfig

def fields : List String :=
  ["shared", "engine", "machine"]

def ofToml? (v : Toml) : Option (SimConfig Float) := do
  let r ← Toml.record? fields v
  return {
    shared := ← r.getD? SharedConfig.ofToml? "shared" SharedConfig.stock
    engine := ← r.getD? EngineConfig.ofToml? "engine" EngineConfig.stock
    machine := ← r.getD? MachineConfig.ofToml? "machine" MachineConfig.stock }

end SimConfig

def LogLevel.ofToml? (v : Toml) : Option LogLevel := do
  let r ← Toml.record? ["level"] v
  r.require? (Toml.toChoice? ofName?) "level"

def loadText {β : Type} (decode : Toml → Option β) (text : String) : Except (ConfigError Float) β :=
  match (Toml.ofText? text).bind decode with
  | some config => .ok config
  | none => .error .malformed

def loadFile {β : Type} (decode : Toml → Option β) (file : File) : Except (ConfigError Float) β :=
  match file with
  | .missing => .error .fileNotFound
  | file =>
    match file.text? with
    | some text => loadText decode text
    | none => .error .malformed

end Gantry
