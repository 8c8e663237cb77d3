import Gantry.Gcode.Word
import Gantry.Machine.Move

/-!
# Commands of a line

The words of a line fall into blocks: a code word, `G` or `M`, and the parameter words up to the
next code word. A block whose code is known is a command, any other block is passed over, and so
are words before the first code word. Codes are compared as numbers.
-/

namespace Gantry.Gcode

variable {α : Type} [Scalar α]

/-- A command, in the units of the line: millimetres, millimetres per minute, degrees Celsius. -/
inductive Command (α : Type) where
  /-- A linear move to the given axis positions, at a feed if one is given. -/
  | move (target : Target α) (feed : Option α)
  | offset (target : Target α)
  /-- Homing of X, Y and Z. -/
  | home
  /-- Another set point of a heater, waited for or not. -/
  | heat (heater : HeaterId) (celsius : α) (wait : Bool)
deriving DecidableEq, Repr

structure Block where
  code : Word
  params : List Word
deriving DecidableEq, Repr

def Word.isCode (w : Word) : Bool :=
  w.letter == 'G' || w.letter == 'M'

def blocks : List Word → List Block
  | [] => []
  | w :: ws =>
    if w.isCode then ⟨w, ws.takeWhile fun v => !v.isCode⟩ :: blocks ws else blocks ws

namespace Block

def hasCode (α : Type) [Scalar α] (b : Block) (letter : Char) (code : α) : Bool :=
  b.code.letter == letter && b.code.number.value == code

/-- The value of a parameter; the last one counts. -/
def param? (b : Block) (letter : Char) : Option α :=
  (b.params.filter (·.letter == letter)).getLast?.map (·.number.value)

def target (b : Block) : Target α :=
  PerAxis.ofFn fun i => b.param? i.letter

/-- The command for a heater; there is none without a temperature. -/
def heat? (b : Block) (h : HeaterId) (wait : Bool) : Option (Command α) :=
  (b.param? 'S').map fun celsius => .heat h celsius wait

def command? (b : Block) : Option (Command α) :=
  if b.hasCode α 'G' 1.0 then some (.move b.target (b.param? 'F'))
  else if b.hasCode α 'G' 92.0 then some (.offset b.target)
  else if b.hasCode α 'G' 28.0 then some .home
  else if b.hasCode α 'M' 104.0 then b.heat? .nozzle false
  else if b.hasCode α 'M' 109.0 then b.heat? .nozzle true
  else if b.hasCode α 'M' 140.0 then b.heat? .plate false
  else if b.hasCode α 'M' 190.0 then b.heat? .plate true
  else none

end Block

/-- The commands of a line in order; none where the line is not made of words. -/
def parseLine (α : Type) [Scalar α] (line : String) : Option (List (Command α)) :=
  (words? line.toList).map fun ws => (blocks ws).filterMap Block.command?

end Gantry.Gcode
