import Gantry.Execution.Engine

/-!
# Timelines

An engine in time. Ticks come at equal distances until the first one after shutdown. A task runs
without taking any time up to its next nap, and an alarm is set for the end of the nap. A task that
a client lets begin or go on runs as soon as the client lets time pass. So time passes from one
event to the next, and the state at an instant depends on nothing else.

Times are in nanoseconds since the first tick.
-/

namespace Gantry

variable {α : Type} [Scalar α]

def millisecond : Nat :=
  Number.tenTo 6

/-- An engine in time. -/
structure Timeline (α : Type) where
  engine : Engine α
  now : Nat
  /-- The time from one tick to the next. -/
  period : Nat
  /-- The instant of the next tick, none where there are no more. -/
  nextTick : Option Nat
  /-- The number of ticks so far. -/
  ticks : Nat
  /-- Tasks by number, each with the instant at which its nap ends. -/
  alarms : List (Nat × Nat)

namespace Timeline

def napLength (c : EngineConfig α) : Nap → Nat
  | .poll => c.pollMs * millisecond
  | .pause => c.pauseMs * millisecond

def tick (t : Timeline α) : Except BoundsFault (Timeline α) := do
  let engine ← t.engine.tick
  return { t with
    engine := engine
    ticks := t.ticks + 1
    nextTick := if engine.shutdown then none else some (t.now + t.period) }

def start (e : Engine α) : Except BoundsFault (Timeline α) :=
  tick
    { engine := e
      now := 0
      period := e.config.tickPeriod?.getD millisecond
      nextTick := some 0
      ticks := 0
      alarms := [] }

/-- The alarms after a task came to a nap or to its end. -/
def setAlarm (t : Timeline α) (k : Nat) (nap : Option Nap) : List (Nat × Nat) :=
  let others := t.alarms.filter (·.1 != k)
  match nap with
  | some nap => (k, t.now + napLength t.engine.config nap) :: others
  | none => others

/-- Runs a task that is not asleep up to its next nap or to its end. -/
def runTask (t : Timeline α) (k : Nat) : Timeline α :=
  match t.engine.task? k with
  | none => t
  | some task =>
    if task.nap?.isSome then t
    else
      let engine := t.engine.settleTask k
      { t with
        engine := engine
        alarms := t.setAlarm k ((engine.task? k).bind Task.nap?) }

def wakeTask (t : Timeline α) (k : Nat) : Timeline α :=
  { t with engine := t.engine.stepTask k }.runTask k

/-- What happens now: a tick if one is due, and the naps that are over. -/
def fire (t : Timeline α) : Except BoundsFault (Timeline α) := do
  let t ← if t.nextTick = some t.now then t.tick else pure t
  return ((t.alarms.filter (·.2 == t.now)).map (·.1)).foldl wakeTask t

/-- The instant of the next event. -/
def nextEvent? (t : Timeline α) : Option Nat :=
  (t.nextTick.toList ++ t.alarms.map (·.2)).min?

/-- Lets time pass up to an instant, from one event to the next. -/
def passTo (t : Timeline α) (instant : Nat) : Except BoundsFault (Timeline α) :=
  match t.nextEvent? with
  | none => .ok { t with now := max t.now instant }
  | some due =>
    if t.now < due ∧ due ≤ instant then
      match { t with now := due }.fire with
      | .ok u => { u with now := due }.passTo instant
      | .error fault => .error fault
    else .ok { t with now := max t.now instant }
termination_by instant - t.now

def runTasks (t : Timeline α) : Timeline α :=
  (List.range t.engine.tasks.length).foldl runTask t

def advanceTo (t : Timeline α) (instant : Nat) : Except BoundsFault (Timeline α) :=
  t.runTasks.passTo instant

def advance (t : Timeline α) (span : Nat) : Except BoundsFault (Timeline α) :=
  t.advanceTo (t.now + span)

theorem now_of_passTo {t u : Timeline α} {instant : Nat} (h : t.passTo instant = .ok u) :
    u.now = max t.now instant := by
  fun_induction passTo t instant with
  | case1 t _ =>
    cases h
    rfl
  | case2 t due _ hd v _ ih =>
    have := ih h
    simp only at this
    omega
  | case3 => simp at h
  | case4 =>
    cases h
    rfl

theorem now_runTask (t : Timeline α) (k : Nat) : (t.runTask k).now = t.now := by
  unfold runTask
  split
  · rfl
  · split <;> rfl

theorem now_runTasks (t : Timeline α) : t.runTasks.now = t.now := by
  unfold runTasks
  generalize List.range t.engine.tasks.length = ks
  induction ks generalizing t with
  | nil => rfl
  | cons k ks ih => rw [List.foldl_cons, ih, now_runTask]

theorem now_of_advance {t u : Timeline α} {span : Nat} (h : t.advance span = .ok u) :
    u.now = t.now + span := by
  have := now_of_passTo h
  rw [now_runTasks] at this
  omega

/-- A time to go on at, before a limit. -/
def CanNap (t : Timeline α) (span limit : Nat) : Prop :=
  0 < span ∧ t.now + span ≤ limit

instance (t : Timeline α) (span limit : Nat) : Decidable (t.CanNap span limit) :=
  inferInstanceAs (Decidable (0 < span ∧ t.now + span ≤ limit))

theorem CanNap.advance {t u : Timeline α} {span limit : Nat} (hn : t.CanNap span limit)
    (hu : t.advance span = .ok u) : limit - u.now < limit - t.now := by
  have hnow := now_of_advance hu
  unfold CanNap at hn
  omega

def ask {β : Type} (t : Timeline α) (f : Engine α → Engine α × β) : Timeline α × β :=
  let (engine, answer) := f t.engine
  ({ t with engine := engine }, answer)

def setMachine (t : Timeline α) (m : Machine α) : Timeline α :=
  { t with engine := { t.engine with machine := m } }

def pollSpan (t : Timeline α) : Nat :=
  napLength t.engine.config .poll

/-- Waits until the engine is not busy or shutdown is requested, looks again after every `span`,
and gives up at an instant. -/
def waitIdle (t : Timeline α) (span limit : Nat) : Except BoundsFault (Timeline α × Bool) :=
  if !t.engine.isBusy || t.engine.shutdown then .ok (t, true)
  else if _hn : t.CanNap span limit then
    match _hu : t.advance span with
    | .ok u => u.waitIdle span limit
    | .error fault => .error fault
  else (t.advanceTo limit).map (·, false)
termination_by limit - t.now
decreasing_by exact _hn.advance _hu

/-- Goes on with a chore that a client carries out itself, with naps of length `span`, and gives it
up at an instant. -/
def carryOn (t : Timeline α) (span limit : Nat) : Option (Chore α) →
    Except BoundsFault (Timeline α × Bool)
  | none => .ok (t, true)
  | some c =>
    if _hn : t.CanNap span limit then
      match _hu : t.advance span with
      | .ok u =>
        let (m, more) := c.resume u.engine.shutdown u.engine.machine
        (u.setMachine m).carryOn span limit more
      | .error fault => .error fault
    else (t.advanceTo limit).map (·, false)
termination_by limit - t.now
decreasing_by
  have := _hn.advance _hu
  exact this

def carryOut (t : Timeline α) (limit : Nat) (c : Chore α) :
    Except BoundsFault (Timeline α × Bool) :=
  let (m, more) := c.settle t.engine.shutdown t.engine.machine
  (t.setMachine m).carryOn t.pollSpan limit more

/-- Requests shutdown and waits for the task in the slot. After shutdown a task takes no further
nap, so it ends with the one it is in. -/
def close (t : Timeline α) : Except BoundsFault (Timeline α) :=
  let released := { t with engine := t.engine.release }
  match t.engine.slot with
  | none => .ok released
  | some k =>
    let ran := released.runTasks
    match List.lookup k ran.alarms with
    | some due => ran.advanceTo due
    | none => .ok ran

/-- Waits for the last tick, after shutdown. -/
def awaitTicks (t : Timeline α) : Except BoundsFault (Timeline α) :=
  match t.nextTick with
  | some due => t.advanceTo due
  | none => .ok t

end Timeline

end Gantry
