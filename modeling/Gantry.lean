import Gantry.CommandLine
import Gantry.Config.Document
import Gantry.Execution.Timeline
import Gantry.Main
import Gantry.Settings.Blob
import Gantry.Settings.Text
import Gantry.Snapshot.StatusLine
import Gantry.Snapshot.Text
import Gantry.Proofs.Config.Document
import Gantry.Proofs.Execution.Admission
import Gantry.Proofs.Execution.Beginning
import Gantry.Proofs.Execution.Bookkeeping
import Gantry.Proofs.Execution.FileOrder
import Gantry.Proofs.Execution.FileStage
import Gantry.Proofs.Execution.FlowControl
import Gantry.Proofs.Execution.FlowState
import Gantry.Proofs.Execution.Homecoming
import Gantry.Proofs.Execution.LineCommands
import Gantry.Proofs.Execution.LineEnd
import Gantry.Proofs.Execution.LineStep
import Gantry.Proofs.Execution.ModalFeed
import Gantry.Proofs.Execution.Reach
import Gantry.Proofs.Execution.Session
import Gantry.Proofs.Execution.Shutdown
import Gantry.Proofs.Execution.Unfailing
import Gantry.Proofs.Execution.WindDown
import Gantry.Proofs.Gcode.Grammar
import Gantry.Proofs.Gcode.Meaning
import Gantry.Proofs.Gcode.Spacing
import Gantry.Proofs.Heat.Carry
import Gantry.Proofs.Heat.Coasting
import Gantry.Proofs.Heat.Conductance
import Gantry.Proofs.Heat.Control
import Gantry.Proofs.Heat.Cooling
import Gantry.Proofs.Heat.Equilibrium
import Gantry.Proofs.Heat.Guard
import Gantry.Proofs.Heat.Independence
import Gantry.Proofs.Heat.Power
import Gantry.Proofs.Heat.Range
import Gantry.Proofs.Heat.Residency
import Gantry.Proofs.Heat.Step
import Gantry.Proofs.Heat.Waiting
import Gantry.Proofs.Json.Decimal
import Gantry.Proofs.Json.Member
import Gantry.Proofs.Json.Nearest
import Gantry.Proofs.Json.Reread
import Gantry.Proofs.Json.RoundTrip
import Gantry.Proofs.Machine.BlockingMove
import Gantry.Proofs.Machine.Coordination
import Gantry.Proofs.Machine.Frame
import Gantry.Proofs.Machine.LimitChange
import Gantry.Proofs.Machine.MotionLimits
import Gantry.Proofs.Machine.MoveTime
import Gantry.Proofs.Machine.Operation
import Gantry.Proofs.Machine.Reachable
import Gantry.Proofs.Machine.Restart
import Gantry.Proofs.Machine.Rezeroing
import Gantry.Proofs.Machine.Setting
import Gantry.Proofs.Machine.Trace
import Gantry.Proofs.Motion.Arrival
import Gantry.Proofs.Motion.PlannedMove
import Gantry.Proofs.Motion.Range
import Gantry.Proofs.Motion.Sampling
import Gantry.Proofs.Motion.Tracking
import Gantry.Proofs.Number.Arithmetic
import Gantry.Proofs.Number.Binary32
import Gantry.Proofs.Number.Decimal
import Gantry.Proofs.Number.Enclosure
import Gantry.Proofs.Number.Grid
import Gantry.Proofs.Number.Magnitude
import Gantry.Proofs.Number.Rounding
import Gantry.Proofs.Number.Shortest
import Gantry.Proofs.Number.Special
import Gantry.Proofs.Number.Value
import Gantry.Proofs.Settings.AllOrNothing
import Gantry.Proofs.Settings.BlobExchange
import Gantry.Proofs.Settings.BlobReading
import Gantry.Proofs.Settings.Composition
import Gantry.Proofs.Settings.InPlace
import Gantry.Proofs.Settings.TextExchange
import Gantry.Proofs.Snapshot.RoundTrip
