/-!
# Scalars

The numbers a machine computes with. The laws of motion, heat and control are written once, over
any type with the operations below. The program runs them in binary64, see
`Gantry.Number.Binary64`; nothing here assumes that an operation is exact.
-/

namespace Gantry

/-- The arithmetic a machine computes in. -/
class Scalar (α : Type) extends Add α, Sub α, Mul α, Div α, Neg α, LT α, LE α, BEq α,
    OfScientific α where
  decLt : DecidableLT α
  decLe : DecidableLE α
  /-- The magnitude of a number. -/
  abs : α → α
  /-- The square root. -/
  sqrt : α → α
  /-- Neither infinite nor undefined. -/
  isFinite : α → Bool
  /-- A span of seconds in whole nanoseconds, to the nearest with ties to even; none for a
  negative or undefined span and for one of `2 ^ 64` seconds or more. -/
  nanoseconds? : α → Option Nat

attribute [reducible, instance] Scalar.decLt Scalar.decLe

namespace Scalar

variable {α : Type} [Scalar α]

/-- The larger of two numbers; the other one where one of them is undefined. -/
@[specialize] def larger (a b : α) : α :=
  if a ≤ b then b else if b ≤ a then a else if a ≤ a then a else b

@[specialize] def smaller (a b : α) : α :=
  if a ≤ b then a else if b ≤ a then b else if a ≤ a then a else b

/-- The number of `[lo, hi]` nearest to `x`. There is none when the bounds are out of order or
undefined; an undefined `x` stays as it is. -/
@[specialize] def clamp? (x lo hi : α) : Option α :=
  if lo ≤ hi then
    let raised := if x < lo then lo else x
    some (if hi < raised then hi else raised)
  else
    none

/-- The sum of a list, taken from the left and from negative zero, the unit of addition. -/
@[specialize] def sum (xs : List α) : α :=
  xs.foldl (· + ·) (-0.0)

@[specialize] def isPositive (x : α) : Bool :=
  isFinite x && decide (0.0 < x)

@[specialize] def isNonNegative (x : α) : Bool :=
  isFinite x && decide (0.0 ≤ x)

/-- Equal up to a relative tolerance of `1e-9`, and to `1e-12` near zero. -/
def Near (a b : α) : Prop :=
  abs (a - b) ≤ larger (1e-9 * larger (abs a) (abs b)) 1e-12

instance (a b : α) : Decidable (Near a b) :=
  inferInstanceAs (Decidable (abs (a - b) ≤ larger (1e-9 * larger (abs a) (abs b)) 1e-12))

end Scalar

end Gantry
