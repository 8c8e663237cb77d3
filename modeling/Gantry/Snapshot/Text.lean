import Gantry.Json.Record
import Gantry.Snapshot.Basic

/-!
# Snapshots in JSON

A snapshot is written with every field in the order of declaration. Only what may be absent, the
bound of an integral, the file and the line, may be missing from an object that is read.
-/

namespace Gantry

open Json (Field NumberReading)

namespace AxisSnapshot

def fields : List Field :=
  ["position", "target", "speed", "acc", "target_speed", "power", "max_speed", "max_acc"].map
    (⟨·, .required⟩)

def toJson (a : AxisSnapshot Float) : Json :=
  Json.ofFields
    [("position", Json.ofFloat a.position),
     ("target", Json.ofFloat a.target),
     ("speed", Json.ofFloat a.speed),
     ("acc", Json.ofFloat a.acc),
     ("target_speed", Json.ofFloat a.targetSpeed),
     ("power", Json.ofFloat a.power),
     ("max_speed", Json.ofFloat a.maxSpeed),
     ("max_acc", Json.ofFloat a.maxAcc)]

def ofJson? (reading : NumberReading) (j : Json) : Option (AxisSnapshot Float) := do
  let r ← Json.record? fields j
  let number (name : String) : Option Float := Json.Record.get? r (Json.toFloat? reading) name
  return {
    position := ← number "position"
    target := ← number "target"
    speed := ← number "speed"
    acc := ← number "acc"
    targetSpeed := ← number "target_speed"
    power := ← number "power"
    maxSpeed := ← number "max_speed"
    maxAcc := ← number "max_acc" }

end AxisSnapshot

namespace HeaterSnapshot

def fields : List Field :=
  [⟨"temperature", .required⟩,
   ⟨"target", .required⟩,
   ⟨"power", .required⟩,
   ⟨"power_in", .required⟩,
   ⟨"kp", .required⟩,
   ⟨"ki", .required⟩,
   ⟨"wind_up", .optional⟩,
   ⟨"settle_window", .required⟩,
   ⟨"settle_time", .required⟩,
   ⟨"temp_reached", .required⟩]

def toJson (h : HeaterSnapshot Float) : Json :=
  Json.ofFields
    [("temperature", Json.ofFloat h.temperature),
     ("target", Json.ofFloat h.target),
     ("power", Json.ofFloat h.power),
     ("power_in", Json.ofFloat h.powerIn),
     ("kp", Json.ofFloat h.kp),
     ("ki", Json.ofFloat h.ki),
     ("wind_up", Json.ofOption Json.ofFloat h.windUp),
     ("settle_window", Json.ofFloat h.settleWindow),
     ("settle_time", Json.ofFloat h.settleTime),
     ("temp_reached", .bool h.reached)]

def ofJson? (reading : NumberReading) (j : Json) : Option (HeaterSnapshot Float) := do
  let r ← Json.record? fields j
  let number (name : String) : Option Float := Json.Record.get? r (Json.toFloat? reading) name
  return {
    temperature := ← number "temperature"
    target := ← number "target"
    power := ← number "power"
    powerIn := ← number "power_in"
    kp := ← number "kp"
    ki := ← number "ki"
    windUp := ← Json.Record.getOption? r (Json.toFloat? reading) "wind_up"
    settleWindow := ← number "settle_window"
    settleTime := ← number "settle_time"
    reached := ← Json.Record.get? r Json.toBool? "temp_reached" }

end HeaterSnapshot

namespace Snapshot

def fields : List Field :=
  [⟨"time", .required⟩,
   ⟨"axes", .required⟩,
   ⟨"nozzle", .required⟩,
   ⟨"plate", .required⟩,
   ⟨"status", .required⟩,
   ⟨"progress", .required⟩,
   ⟨"current_file", .optional⟩,
   ⟨"current_line", .optional⟩,
   ⟨"feedrate_override", .required⟩,
   ⟨"homed", .required⟩,
   ⟨"total_power", .required⟩]

def toJson (s : Snapshot Float) : Json :=
  Json.ofFields
    [("time", Json.ofFloat s.time),
     ("axes", .array (s.axes.toList.map (·.toJson))),
     ("nozzle", s.heaters.nozzle.toJson),
     ("plate", s.heaters.plate.toJson),
     ("status", Json.ofString s.status.name),
     ("progress", Json.ofNat s.progress.toNat),
     ("current_file", Json.ofOption Json.ofString s.file),
     ("current_line", Json.ofOption Json.ofString s.line),
     ("feedrate_override", Json.ofFloat s.feedOverride),
     ("homed", .bool s.homed),
     ("total_power", Json.ofFloat s.totalPower)]

def axesOfJson? (reading : NumberReading) : Json → Option (PerAxis (AxisSnapshot Float))
  | .array items => do PerAxis.ofList? (← items.mapM (AxisSnapshot.ofJson? reading))
  | _ => none

def ofJson? (reading : NumberReading) (j : Json) : Option (Snapshot Float) := do
  let r ← Json.record? fields j
  let number (name : String) : Option Float := Json.Record.get? r (Json.toFloat? reading) name
  return {
    time := ← number "time"
    axes := ← Json.Record.get? r (axesOfJson? reading) "axes"
    heaters :=
      { nozzle := ← Json.Record.get? r (HeaterSnapshot.ofJson? reading) "nozzle"
        plate := ← Json.Record.get? r (HeaterSnapshot.ofJson? reading) "plate" }
    status := ← Json.Record.get? r (Json.toChoice? Status.ofName?) "status"
    progress := ← Json.Record.get? r Json.toByte? "progress"
    file := ← Json.Record.getOption? r Json.toString? "current_file"
    line := ← Json.Record.getOption? r Json.toString? "current_line"
    feedOverride := ← number "feedrate_override"
    homed := ← Json.Record.get? r Json.toBool? "homed"
    totalPower := ← number "total_power" }

def toText (s : Snapshot Float) : String :=
  s.toJson.toText

def ofText? (reading : NumberReading) (text : String) : Option (Snapshot Float) :=
  (Json.ofText? text).bind (ofJson? reading)

end Snapshot

end Gantry
