import Gantry.Number.Binary64

/-!
# Reading decimals

The binary64 number nearest to a decimal given by its digits and a power of ten, and decimals as
they are typed on a command line. An exponent far outside the range of binary64 is decided by the
place of the leading digit, without computing the power.
-/

namespace Gantry.Number

def natOfDigits (ds : List Char) : Nat :=
  ds.foldl (fun n c => 10 * n + (c.toNat - '0'.toNat)) 0

def ofDigits (digits : List Char) (exponent : Int) : Float :=
  let significant := digits.dropWhile (· == '0')
  let order : Int := significant.length + exponent
  if significant = [] ∨ order < -330 then 0.0
  else if 310 < order then Float.ofBits 0x7FF0000000000000
  else ofDecimal (natOfDigits significant) exponent

def signed (negative : Bool) (x : Float) : Float :=
  if negative then -x else x

def allDigits? (s : List Char) : Option Nat :=
  if s = [] ∨ ¬ s.all Char.isDigit then none else some (natOfDigits s)

def power? : List Char → Option Int
  | '+' :: r => (allDigits? r).map (↑·)
  | '-' :: r => (allDigits? r).map (-↑·)
  | r => (allDigits? r).map (↑·)

/-- The value of the text of a decimal after its sign: digits with at most one point and at least
one digit, then possibly `e` and a power of ten; or a word for infinity or for no number. -/
def magnitude? (s : List Char) : Option Float :=
  let word := String.ofList (s.map Char.toLower)
  if word = "inf" ∨ word = "infinity" then some (Float.ofBits 0x7FF0000000000000)
  else if word = "nan" then some (Float.ofBits 0x7FF8000000000000)
  else
    let whole := s.takeWhile Char.isDigit
    let afterWhole := s.dropWhile Char.isDigit
    let (fraction, tail) := match afterWhole with
      | '.' :: r => (r.takeWhile Char.isDigit, r.dropWhile Char.isDigit)
      | r => ([], r)
    let digits := whole ++ fraction
    let places : Int := fraction.length
    if digits = [] then none
    else match tail with
      | [] => some (ofDigits digits (-places))
      | c :: r =>
        if c = 'e' ∨ c = 'E' then (power? r).map fun e => ofDigits digits (e - places)
        else none

def read? (text : String) : Option Float :=
  match text.toList with
  | '+' :: r => magnitude? r
  | '-' :: r => (magnitude? r).map (signed true)
  | r => magnitude? r

end Gantry.Number
