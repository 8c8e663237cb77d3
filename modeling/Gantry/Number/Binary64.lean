import Gantry.Scalar
import Gantry.Number.Power
import Gantry.Number.Rounding

/-!
# Binary64

The exact value of a finite binary64 number, and binary64 as the scalars of a running machine.
-/

namespace Gantry.Number

/-- A finite binary number: `mantissa * 2 ^ exponent`, below zero where `negative`. -/
structure Dyadic where
  negative : Bool
  mantissa : Nat
  exponent : Int
deriving DecidableEq, Repr

namespace Dyadic

def ofFloat (x : Float) : Dyadic :=
  let bits : Nat := x.toBits.toNat
  let field : Nat := bits / twoTo 52 % twoTo 11
  let fraction : Nat := bits % twoTo 52
  { negative := decide (twoTo 63 ≤ bits)
    mantissa := if field = 0 then fraction else twoTo 52 + fraction
    exponent := (if field = 0 then 1 else (field : Int)) - 1075 }

def num (d : Dyadic) : Nat :=
  d.mantissa * twoTo d.exponent.toNat

def den (d : Dyadic) : Nat :=
  twoTo (-d.exponent).toNat

end Dyadic

def nanoseconds? (seconds : Float) : Option Nat :=
  if seconds.isFinite && !decide (seconds < 0.0) then
    let exact := Dyadic.ofFloat seconds
    let count := roundEven (exact.num * tenTo 9) exact.den
    if count < twoTo 64 * tenTo 9 then some count else none
  else
    none

/-- The magnitude `num / den` would read back from this decimal, for instance `12` and `-1`
for `1.2`. -/
def ofDecimal (mantissa : Nat) (exponent : Int) : Float :=
  match exponent with
  | .ofNat e => Float.ofScientific mantissa false e
  | .negSucc e => Float.ofScientific mantissa true (e + 1)

end Gantry.Number

namespace Gantry

/-- A running machine computes in binary64, one rounding to each operation. -/
instance : Scalar Float where
  decLt := inferInstance
  decLe := inferInstance
  abs := Float.abs
  sqrt := Float.sqrt
  isFinite := Float.isFinite
  nanoseconds? := Number.nanoseconds?

end Gantry
