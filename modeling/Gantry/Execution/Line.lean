import Gantry.Execution.Chore
import Gantry.Text.Blank

/-!
# Execution of a line

The text of a line is made known, its commands are carried out one after the other, and then there
is no line in execution any more. The shutdown flag is read before each command.
-/

namespace Gantry

variable {α : Type} [Scalar α]

structure Line (α : Type) where
  /-- The text without the blanks at its end. -/
  text : String
  commands : List (Gcode.Command α)
deriving DecidableEq, Repr

/-- The line of a text. What is not made of words has no commands. -/
def Line.ofText (raw : String) : Line α :=
  let text := Text.trimEnd raw
  { text := text, commands := (Gcode.parseLine α text).getD [] }

/-- Execution of a line, by what is done next. -/
inductive LineWork (α : Type) where
  /-- Makes the text known. -/
  | enter (line : Line α)
  /-- Reads the shutdown flag before a command. -/
  | next (c : Gcode.Command α) (rest : List (Gcode.Command α))
  /-- Goes on with the chore of a command. -/
  | busy (chore : Chore α) (rest : List (Gcode.Command α))
  /-- Withdraws the text. -/
  | leave
deriving DecidableEq, Repr

namespace LineWork

def ofCommands : List (Gcode.Command α) → LineWork α
  | [] => .leave
  | c :: rest => .next c rest

def step (shutdown : Bool) (m : Machine α) : LineWork α → Machine α × Option (LineWork α)
  | enter line => (m.mapFlow (·.setLine (some line.text)), some (ofCommands line.commands))
  | next c rest => (m, some (if shutdown then .leave else .busy (.ofCommand c) rest))
  | busy chore rest =>
    let (n, more) := chore.step shutdown m
    (n, some (match more with
      | some chore => .busy chore rest
      | none => ofCommands rest))
  | leave => (m.mapFlow (·.setLine none), none)

def isAsleep : LineWork α → Bool
  | busy chore _ => chore.isAsleep
  | _ => false

def rank : LineWork α → Nat
  | enter line => 64 * line.commands.length + 1
  | next _ rest => 64 * rest.length + 64
  | busy chore rest => 64 * rest.length + chore.rank + 1
  | leave => 0

omit [Scalar α] in
theorem rank_ofCommands (cs : List (Gcode.Command α)) :
    (ofCommands cs).rank = 64 * cs.length := by
  cases cs with
  | nil => rfl
  | cons c cs => simp +arith [ofCommands, rank]

theorem rank_of_step {shutdown : Bool} {m n : Machine α} {w v : LineWork α}
    (ha : w.isAsleep = false) (hs : w.step shutdown m = (n, some v)) : v.rank < w.rank := by
  cases w with
  | enter line =>
    simp only [step, Prod.mk.injEq, Option.some.injEq] at hs
    rw [← hs.2, rank_ofCommands]
    exact Nat.lt_succ_self _
  | next c rest =>
    simp only [step, Prod.mk.injEq, Option.some.injEq] at hs
    rw [← hs.2]
    split
    · simp [rank]
    · have := Chore.rank_ofCommand_le c
      simp only [rank]
      omega
  | busy chore rest =>
    simp only [step, Prod.mk.injEq, Option.some.injEq] at hs
    rw [← hs.2]
    cases hc : (chore.step shutdown m).2 with
    | some d =>
      have := Chore.rank_of_step ha (Prod.ext rfl hc)
      simp [rank, this]
    | none =>
      rw [rank_ofCommands, rank]
      omega
  | leave => simp [step] at hs

end LineWork

end Gantry
