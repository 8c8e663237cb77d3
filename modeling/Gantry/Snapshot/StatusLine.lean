import Gantry.Number.Layout
import Gantry.Snapshot.Basic

/-!
# Status lines

One line about a snapshot: the time, positions and targets in millimetres, temperatures, the
status, and the file and line in execution.
-/

namespace Gantry

namespace Snapshot

def pair (value target : Float) : String :=
  Number.oneDecimal value ++ "/" ++ Number.oneDecimal target

def axisPart (s : Snapshot Float) (i : AxisId) : String :=
  let a := s.axes.get i
  " " ++ i.name ++ ":" ++ pair (a.position * 1000.0) (a.target * 1000.0)

def filePart (s : Snapshot Float) : String :=
  match s.file with
  | some file => " - " ++ file ++ " - " ++ toString s.progress.toNat ++ "%"
  | none => ""

def linePart (s : Snapshot Float) : String :=
  match s.line with
  | some line => " - " ++ line
  | none => ""

def statusLine (s : Snapshot Float) : String :=
  let nozzle := s.heaters.nozzle
  let plate := s.heaters.plate
  "t:" ++ Number.oneDecimal s.time
    ++ String.join (AxisId.all.map s.axisPart)
    ++ " Nozzle:" ++ pair nozzle.temperature nozzle.target
    ++ " Plate:" ++ pair plate.temperature plate.target
    ++ " Status: " ++ s.status.name
    ++ s.filePart ++ s.linePart

end Snapshot

end Gantry
