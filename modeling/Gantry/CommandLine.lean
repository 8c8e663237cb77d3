import Gantry.Number.Reading

/-!
# Command line

The arguments of the program. A setting takes a value, attached to it or in the next argument; a
flag takes none. A setting is settled when the next known argument is met, or the end; so an
argument that is not known at all is reported before a fault of the setting that stands before it.
-/

namespace Gantry

structure CommandLine where
  config : Option String
  settings : Option String
  /-- Lines to execute, in order. -/
  lines : List String
  /-- A file to execute after the lines. -/
  file : Option String
  exitWhenDone : Bool
  timeMult : Option Float
  verbose : Bool
  json : Bool
deriving Repr

namespace CommandLine

/-- Why there is nothing to do, or no saying what. -/
inductive Refusal where
  | help
  | version
  | unknownArgument
  /-- A setting without a value, or an empty path. -/
  | missingValue
  | unexpectedValue
  /-- A value that is not a number where a number is due. -/
  | malformedNumber
  | repeated
deriving DecidableEq, Repr

inductive Setting where
  | config
  | settings
  | line
  | file
  | timeMult
deriving DecidableEq, Repr

inductive Flag where
  | exitWhenDone
  | verbose
  | json
  | help
  | version
deriving DecidableEq, Repr

inductive Item where
  | setting (s : Setting)
  | flag (f : Flag)
deriving DecidableEq, Repr

def Item.ofLong? : String → Option Item
  | "config" => some (.setting .config)
  | "settings" => some (.setting .settings)
  | "line" => some (.setting .line)
  | "file" => some (.setting .file)
  | "time-mult" => some (.setting .timeMult)
  | "exit-when-done" => some (.flag .exitWhenDone)
  | "verbose" => some (.flag .verbose)
  | "json" => some (.flag .json)
  | "help" => some (.flag .help)
  | "version" => some (.flag .version)
  | _ => none

def Item.ofShort? : Char → Option Item
  | 'c' => some (.setting .config)
  | 'l' => some (.setting .line)
  | 'f' => some (.setting .file)
  | 'v' => some (.flag .verbose)
  | 'h' => some (.flag .help)
  | 'V' => some (.flag .version)
  | _ => none

def empty : CommandLine where
  config := none
  settings := none
  lines := []
  file := none
  exitWhenDone := false
  timeMult := none
  verbose := false
  json := false

def path? (present : Option String) (value : String) : Except Refusal (Option String) :=
  if present.isSome then .error .repeated
  else if value = "" then .error .missingValue
  else .ok (some value)

def turnOn? (present : Bool) : Except Refusal Bool :=
  if present then .error .repeated else .ok true

def withSetting? (c : CommandLine) (s : Setting) (value : String) : Except Refusal CommandLine :=
  match s with
  | .config => (path? c.config value).map fun v => { c with config := v }
  | .settings => (path? c.settings value).map fun v => { c with settings := v }
  | .line => .ok { c with lines := c.lines ++ [value] }
  | .file => (path? c.file value).map fun v => { c with file := v }
  | .timeMult =>
    if c.timeMult.isSome then .error .repeated
    else
      match Number.read? value with
      | some x => .ok { c with timeMult := some x }
      | none => .error .malformedNumber

def withFlag? (c : CommandLine) : Flag → Except Refusal CommandLine
  | .exitWhenDone => (turnOn? c.exitWhenDone).map fun v => { c with exitWhenDone := v }
  | .verbose => (turnOn? c.verbose).map fun v => { c with verbose := v }
  | .json => (turnOn? c.json).map fun v => { c with json := v }
  | .help => .error .help
  | .version => .error .version

structure Progress where
  settled : CommandLine
  /-- A setting that is not settled yet, and its value if that was met. -/
  pending : Option (Setting × Option String)
  /-- Two dashes alone were met: no setting or flag may follow. -/
  closed : Bool

namespace Progress

def initial : Progress where
  settled := empty
  pending := none
  closed := false

/-- What the arguments so far ask for, the pending setting included. -/
def settle (p : Progress) : Except Refusal CommandLine :=
  match p.pending with
  | none => .ok p.settled
  | some (s, some value) => p.settled.withSetting? s value
  | some (_, none) => .error .missingValue

def done (p : Progress) (c : CommandLine) : Progress :=
  { p with settled := c, pending := none }

def meet (p : Progress) (s : Setting) (value : Option String) : Except Refusal Progress := do
  let c ← p.settle
  match value with
  | some v => return p.done (← c.withSetting? s v)
  | none => return { p.done c with pending := some (s, none) }

def turn (p : Progress) (f : Flag) : Except Refusal Progress := do
  return p.done (← (← p.settle).withFlag? f)

/-- The value that is attached to a letter, if anything is. An equals sign may stand between. -/
def attached : List Char → Option String
  | [] => none
  | '=' :: r => some (String.ofList r)
  | r => some (String.ofList r)

/-- Letters after one dash: flags, up to the first setting and its value. -/
def letters (p : Progress) : List Char → Except Refusal Progress
  | [] => .ok p
  | c :: r =>
    match Item.ofShort? c with
    | none => .error .unknownArgument
    | some (.setting s) => p.meet s (attached r)
    | some (.flag f) => do (← p.turn f).letters r

def named (p : Progress) (s : List Char) : Except Refusal Progress :=
  let name := String.ofList (s.takeWhile (· != '='))
  let value := (s.dropWhile (· != '=')).tail?.map String.ofList
  match Item.ofLong? name, value with
  | none, _ => .error .unknownArgument
  | some (.setting s), value => p.meet s value
  | some (.flag _), some _ => .error .unexpectedValue
  | some (.flag f), none => p.turn f

/-- An argument that names nothing: the value that a setting waits for. -/
def value (p : Progress) (arg : String) : Except Refusal Progress :=
  match p.pending with
  | some (s, none) => .ok { p with pending := some (s, some arg) }
  | _ => .error .unknownArgument

def next (p : Progress) (arg : String) : Except Refusal Progress :=
  if p.closed then .error .unknownArgument
  else
    match arg.toList with
    | ['-', '-'] => .ok { p with closed := true }
    | '-' :: '-' :: r => p.named r
    | ['-'] => p.value arg
    | '-' :: r => p.letters r
    | _ => p.value arg

end Progress

def ofArgs (args : List String) : Except Refusal CommandLine := do
  (← args.foldlM Progress.next Progress.initial).settle

end CommandLine

end Gantry
