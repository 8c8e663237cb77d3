import Gantry.Number.Binary64

/-!
# Shortest decimals

The decimal with the fewest digits among those that read back as a given binary64 number; of
several that short, the nearest. A decimal reads back when it lies in the interval of the reals
that round to the number. The ends are halfway to the two neighbours, the lower one only a quarter
of a step away below a power of two, and they belong to the interval when the mantissa is even.

All comparisons are exact, over naturals.
-/

namespace Gantry.Number

/-- A magnitude in decimal: `mantissa * 10 ^ exponent`. -/
structure Decimal where
  mantissa : Nat
  exponent : Int
deriving DecidableEq, Repr

/-- Which of two equally near decimals is taken. -/
inductive Tie where
  | even
  | up
deriving DecidableEq, Repr

/-- The reals that round to a number, in units of a quarter of its last binary place: between
`low / scale` and `high / scale` times the decimal grid, around `value / scale`. -/
structure Interval where
  low : Nat
  value : Nat
  high : Nat
  scale : Nat
  /-- The ends belong to the interval. -/
  closed : Bool
deriving Repr

def Interval.around (d : Dyadic) (s : Int) : Interval :=
  let unit := d.exponent - 2
  let up := tenTo (-s).toNat * twoTo unit.toNat
  let narrow := d.mantissa = twoTo 52 ∧ -1074 < d.exponent
  { low := (4 * d.mantissa - if narrow then 1 else 2) * up
    value := 4 * d.mantissa * up
    high := (4 * d.mantissa + 2) * up
    scale := tenTo s.toNat * twoTo (-unit).toNat
    closed := d.mantissa % 2 = 0 }

/-- A multiple of the grid reads back. -/
def Interval.contains (v : Interval) (n : Nat) : Bool :=
  let x := n * v.scale
  if v.closed then decide (v.low ≤ x) && decide (x ≤ v.high)
  else decide (v.low < x) && decide (x < v.high)

def Interval.pick? (v : Interval) (tie : Tie) : Option Nat :=
  let below := v.value / v.scale
  let above := below + 1
  match v.contains below, v.contains above with
  | true, true =>
    let middle := (below + above) * v.scale
    if 2 * v.value < middle then some below
    else if middle < 2 * v.value then some above
    else match tie with
      | .even => some (if below % 2 = 0 then below else above)
      | .up => some above
  | true, false => some below
  | false, true => some above
  | false, false => none

/-- Tries ever finer grids, from `10 ^ s` on, until a decimal reads back. -/
def searchGrid (d : Dyadic) (tie : Tie) : Nat → Int → Decimal
  | 0, s => { mantissa := (Interval.around d s).value / (Interval.around d s).scale, exponent := s }
  | n + 1, s =>
    match (Interval.around d s).pick? tie with
    | some m => { mantissa := m, exponent := s }
    | none => searchGrid d tie n (s - 1)

/-- The shortest decimal of a magnitude. The search starts above the leading digit, which is
estimated from the binary order of magnitude, and ends after seventeen digits at the latest. -/
def shortest (d : Dyadic) (tie : Tie) : Decimal :=
  if d.mantissa = 0 then { mantissa := 0, exponent := 0 }
  else
    let order : Int := (Nat.log2 d.mantissa : Int) + d.exponent
    searchGrid d tie 22 (order * 1233 / 4096 + 2)

end Gantry.Number
