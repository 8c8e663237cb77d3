import Gantry.Number.Binary64

/-!
# Binary32

Narrowing a binary64 number to binary32, to the nearest with ties to even, and widening it back.
Numbers too large become infinite, numbers too small become zero. All of it is arithmetic on the
bits.
-/

namespace Gantry.Number

/-- The magnitude `mantissa * 2 ^ exponent` in units of the last place that binary32 keeps,
rounded, and that place. Below the smallest normal number the place is `-149`. -/
def roundPlaces (d : Dyadic) : Nat × Int :=
  let order : Int := (Nat.log2 d.mantissa : Int) + d.exponent
  let place : Int := max (order - 23) (-149)
  let shift := place - d.exponent
  (roundEven (d.mantissa * twoTo (-shift).toNat) (twoTo shift.toNat), place)

/-- The bits of the magnitude of a finite number in binary32. A count that reaches `2 ^ 24` moves
into the next binade by itself, and past the last one it becomes infinite. -/
def narrowMagnitude (d : Dyadic) : Nat :=
  if d.mantissa = 0 then 0
  else
    let (count, place) := roundPlaces d
    let field : Int := place + 149
    min 0x7F800000 ((field * twoTo 23).toNat + count)

def narrow (x : Float) : UInt32 :=
  if x.isNaN then 0x7FC00000
  else
    let negative := decide (twoTo 63 ≤ x.toBits.toNat)
    let magnitude := if x.isInf then 0x7F800000 else narrowMagnitude (Dyadic.ofFloat x)
    ((if negative then twoTo 31 else 0) + magnitude).toUInt32

/-- The binary64 number of binary32 bits; every binary32 number is one. -/
def widen (b : UInt32) : Float :=
  let bits : Nat := b.toNat
  let sign := if twoTo 31 ≤ bits then twoTo 63 else 0
  let field := bits / twoTo 23 % twoTo 8
  let fraction := bits % twoTo 23
  let magnitude : Nat :=
    if field = 255 then 0x7FF0000000000000 + fraction * twoTo 29
    else if field = 0 then
      if fraction = 0 then 0
      else
        let order := Nat.log2 fraction
        (order + 874) * twoTo 52 + (fraction * twoTo (52 - order) - twoTo 52)
    else (field + 896) * twoTo 52 + fraction * twoTo 29
  Float.ofBits (sign + magnitude).toUInt64

def littleEndian (b : UInt32) : List UInt8 :=
  [b.toNat, b.toNat / twoTo 8, b.toNat / twoTo 16, b.toNat / twoTo 24].map (·.toUInt8)

def ofLittleEndian (a b c d : UInt8) : UInt32 :=
  (a.toNat + b.toNat * twoTo 8 + c.toNat * twoTo 16 + d.toNat * twoTo 24).toUInt32

end Gantry.Number
