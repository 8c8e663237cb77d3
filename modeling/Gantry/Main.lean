import Gantry.CommandLine
import Gantry.Config.Document
import Gantry.Execution.Timeline
import Gantry.Settings.Text
import Gantry.Snapshot.StatusLine
import Gantry.Snapshot.Text

/-!
# The program

Runs an engine in real time: reads the configuration and the settings, executes the lines and the
file of the command line one after the other, and writes a status every second. Everything that is
computed is computed elsewhere.
-/

namespace Gantry

def usage : String :=
  String.intercalate "\n"
    ["Multi-axis machine simulator",
     "",
     "Options:",
     "  -c, --config FILE        configuration, the stock machine when omitted",
     "      --settings FILE      axis settings to apply at the start",
     "  -l, --line LINE          a line to execute, may be repeated",
     "  -f, --file FILE          a file to execute after the lines",
     "      --exit-when-done     exit once all lines and the file are done",
     "      --time-mult FACTOR   how many times faster than the clock to run",
     "  -v, --verbose            tell what is executed",
     "      --json               write the status as JSON",
     "  -h, --help               this text",
     "  -V, --version            the version"]

def CommandLine.Refusal.text : CommandLine.Refusal → String
  | help => usage
  | version => "0.1.0"
  | unknownArgument => "unexpected argument"
  | missingValue => "a value is required"
  | unexpectedValue => "a flag takes no value"
  | malformedNumber => "not a number"
  | repeated => "an argument cannot be used multiple times"

def File.read (path : String) : IO File := do
  try
    return .content (← IO.FS.readBinFile ⟨path⟩).toList
  catch
    | .noFileOrDirectory .. => return .missing
    | _ => return .directory

/-- What is executed for a command line, in order. -/
inductive Job where
  | line (text : String)
  | file (path : String)

def CommandLine.jobs (c : CommandLine) : List Job :=
  c.lines.map .line ++ c.file.toList.map .file

def Job.submit (t : Timeline Float) : Job → IO (Timeline Float)
  | line text => return (t.ask (·.executeLine text)).1
  | file path => do
    let content ← File.read path
    return (t.ask (·.executeFile path content)).1

def statusText (json : Bool) (m : Machine Float) : String :=
  if json then m.snapshot.toText else m.snapshot.statusLine

def failWith (message : String) : IO UInt32 := do
  IO.eprintln message
  return 1

/-- Keeps the timeline at the time of the clock, and the jobs coming. -/
partial def keepTime (c : CommandLine) (epoch second : Nat) (jobs : List Job)
    (t : Timeline Float) : IO UInt32 := do
  let elapsed := (← IO.monoNanosNow) - epoch
  match t.advanceTo elapsed with
  | .error _ => failWith "a control law has lost its bounds"
  | .ok t =>
    if second * Number.tenTo 9 ≤ elapsed then
      IO.println (statusText c.json t.engine.machine)
    let second := elapsed / Number.tenTo 9 + 1
    let (jobs, t) ← match t.engine.isBusy, jobs with
      | false, job :: rest => pure (rest, ← job.submit t)
      | _, jobs => pure (jobs, t)
    if c.exitWhenDone && jobs.isEmpty && !t.engine.isBusy then
      IO.println (statusText c.json t.engine.machine)
      return 0
    IO.sleep 5
    keepTime c epoch second jobs t

def CommandLine.engine (c : CommandLine) : IO (Except String (Engine Float)) := do
  let loaded ← match c.config with
    | some path => pure (loadFile SimConfig.ofToml? (← File.read path))
    | none => pure (.ok SimConfig.stock)
  match loaded with
  | .error e => return .error e.message
  | .ok config =>
    let timeMult := c.timeMult.getD config.engine.timeMult
    match Engine.ofConfig { config with engine := { config.engine with timeMult := timeMult } } with
    | .error v => return .error (ConfigError.invalid v).message
    | .ok engine =>
      match c.settings with
      | none => return .ok engine
      | some path =>
        match (← File.read path).text? with
        | none => return .error "settings cannot be read"
        | some text => return (engine.change (·.applyText text)).mapError Rejection.message

end Gantry

open Gantry in
def main (args : List String) : IO UInt32 := do
  match CommandLine.ofArgs args with
  | .error .help =>
    IO.println usage
    return 0
  | .error .version =>
    IO.println CommandLine.Refusal.version.text
    return 0
  | .error refusal =>
    IO.eprintln refusal.text
    return 2
  | .ok c =>
    match ← c.engine with
    | .error message => failWith message
    | .ok engine =>
      match Timeline.start engine with
      | .error _ => failWith "a control law has lost its bounds"
      | .ok t => keepTime c (← IO.monoNanosNow) 1 c.jobs t
