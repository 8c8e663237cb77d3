import Gantry.Config.Validation
import Gantry.Execution.Task
import Gantry.Text.File

/-!
# The engine

An engine has one machine, a shutdown flag, and the tasks it was ever given. A slot holds the
number of the last task; while that task is not over, the engine is busy and takes no other. A
request changes the machine at once; what it asks of a file is honoured by the task.
-/

namespace Gantry

variable {α : Type} [Scalar α]

/-- A machine and the tasks that execute G-code on it. -/
structure Engine (α : Type) where
  config : EngineConfig α
  machine : Machine α
  shutdown : Bool
  /-- The tasks by number, none for one that is over. -/
  tasks : List (Option (Task α))
  /-- The number of the task that makes the engine busy, if that is not over. -/
  slot : Option Nat

namespace Engine

def ofParts (machine : MachineConfig α) (engine : EngineConfig α) : Engine α where
  config := engine
  machine := Machine.ofConfig machine
  shutdown := false
  tasks := []
  slot := none

/-- An engine with a machine at rest, once the configuration is accepted. -/
def ofConfig (c : SimConfig α) : Except (Violation α) (Engine α) := do
  c.validate
  return ofParts c.machine c.engine

def task? (e : Engine α) (k : Nat) : Option (Task α) :=
  e.tasks[k]?.getD none

/-- The last task is not over. -/
def isBusy (e : Engine α) : Bool :=
  match e.slot with
  | some k => (e.task? k).isSome
  | none => false

/-- Takes a task if there is no other to do. -/
def submit (e : Engine α) (t : Task α) : Engine α × Bool :=
  if e.isBusy then (e, false)
  else ({ e with tasks := e.tasks ++ [some t], slot := some e.tasks.length }, true)

def executeLine (e : Engine α) (text : String) : Engine α × Bool :=
  e.submit (Task.ofLine text)

def executeFile (e : Engine α) (path : String) (file : File) : Engine α × Bool :=
  if e.isBusy || !file.isReadable then (e, false)
  else e.submit (Task.ofFile (File.stem path) file.text?)

def notify (e : Engine α) : Engine α :=
  { e with tasks := e.tasks.map (·.map Task.notify) }

def request (e : Engine α) (f : Machine α → Option (Machine α)) : Engine α × Bool :=
  if e.isBusy then
    match f e.machine with
    | some m => ({ e with machine := m }, true)
    | none => (e, false)
  else (e, false)

def pause (e : Engine α) : Engine α × Bool :=
  e.request Machine.pause?

def resume (e : Engine α) : Engine α × Bool :=
  match e.request Machine.resume? with
  | (e, true) => (e.notify, true)
  | (e, false) => (e, false)

def abort (e : Engine α) : Engine α × Bool :=
  e.request Machine.abort?

def requestShutdown (e : Engine α) : Engine α :=
  { e.notify with shutdown := true }

/-- Every task is to end, and the engine lets go of the last one. -/
def release (e : Engine α) : Engine α :=
  { e.requestShutdown with slot := none }

def change {ε : Type} (e : Engine α) (f : Machine α → Except ε (Machine α)) :
    Except ε (Engine α) := do
  return { e with machine := ← f e.machine }

def tick (e : Engine α) : Except BoundsFault (Engine α) := do
  return { e with machine := ← e.machine.tick e.config.timeStep }

/-- The machine and a task after the task went on. -/
def advance (e : Engine α) (k : Nat) (after : Machine α × Option (Task α)) : Engine α :=
  { e with machine := after.1, tasks := e.tasks.set k after.2 }

def stepTask (e : Engine α) (k : Nat) : Engine α :=
  match e.task? k with
  | some t => e.advance k (t.step e.shutdown e.machine)
  | none => e

/-- A task up to its next nap or to its end. -/
def settleTask (e : Engine α) (k : Nat) : Engine α :=
  match e.task? k with
  | some t => e.advance k (t.settle e.shutdown e.machine)
  | none => e

end Engine

end Gantry
