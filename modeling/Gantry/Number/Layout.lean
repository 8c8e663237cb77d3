import Gantry.Number.Shortest

/-!
# Decimals in text

The texts of numbers in messages and status lines: the shortest digits in full, or one decimal
place of the exact value.
-/

namespace Gantry.Number

def digits (n : Nat) : List Char :=
  Nat.toDigits 10 n

/-- A decimal in positional notation: the digits before the point and those after it. -/
structure Positional where
  whole : List Char
  fraction : List Char
deriving DecidableEq, Repr

/-- A decimal in positional notation, with a zero before the point where nothing else stands. -/
def Decimal.positional (d : Decimal) : Positional :=
  let ds := digits d.mantissa
  match d.exponent with
  | .ofNat e => { whole := if d.mantissa = 0 then ['0'] else ds ++ List.replicate e '0'
                  fraction := [] }
  | .negSucc e =>
    let places := e + 1
    let padded := List.replicate (places + 1 - ds.length) '0' ++ ds
    { whole := padded.take (padded.length - places)
      fraction := padded.drop (padded.length - places) }

/-- The text of a number in messages: the shortest digits that read back, never an exponent, and
no point without digits after it. -/
def plain (x : Float) : String :=
  if x.isNaN then "NaN"
  else
    let exact := Dyadic.ofFloat x
    let sign := if exact.negative then ['-'] else []
    if x.isInf then String.ofList (sign ++ "inf".toList)
    else
      let text := (shortest exact .up).positional
      let tail := if text.fraction = [] then [] else '.' :: text.fraction
      String.ofList (sign ++ text.whole ++ tail)

/-- The text of a number in status lines: the exact value to one decimal place, a half to the
even neighbour. Zero keeps its sign. -/
def oneDecimal (x : Float) : String :=
  if x.isNaN then "NaN"
  else
    let exact := Dyadic.ofFloat x
    let sign := if exact.negative then ['-'] else []
    if x.isInf then String.ofList (sign ++ "inf".toList)
    else
      let tenths := roundEven (exact.num * 10) exact.den
      String.ofList (sign ++ digits (tenths / 10) ++ '.' :: digits (tenths % 10))

end Gantry.Number
