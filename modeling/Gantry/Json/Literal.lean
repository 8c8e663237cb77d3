import Gantry.Number.Layout

/-!
# Number literals

Number literals as JSON writes them, with the two conversions between a literal and binary64.

Writing takes the shortest digits that read back. Reading is quick and not always exact: the
leading digits that fit 64 bits are read as one whole number, which is then scaled by a power of
ten in binary64, with a rounding of its own. So what is written need not be what is read.
-/

namespace Gantry.Json

open Number (digits twoTo)

structure Exponent where
  negative : Bool
  digits : List Char
deriving DecidableEq, Repr

/-- A number literal: decimal digits, at least one wherever there is a list of them. -/
structure Literal where
  negative : Bool
  whole : List Char
  /-- The digits after the point, if there is a point. -/
  fraction : Option (List Char)
  exponent : Option Exponent
deriving DecidableEq, Repr

namespace Literal

def ofNat (n : Nat) : Literal where
  negative := false
  whole := digits n
  fraction := none
  exponent := none

def renderExponent (e : Exponent) : List Char :=
  'e' :: (if e.negative then '-' else '+') :: e.digits

def render (l : Literal) : List Char :=
  (if l.negative then ['-'] else [])
    ++ l.whole
    ++ (match l.fraction with
      | some ds => '.' :: ds
      | none => [])
    ++ (match l.exponent with
      | some e => renderExponent e
      | none => [])

/-- Powers of ten from `10 ^ -5` on and below `10 ^ 16` are written without an exponent. -/
def isPositional (order : Int) : Bool :=
  decide (-5 ≤ order) && decide (order < 16)

/-- The literal of a decimal: positional with at least one digit after the point, or one digit
before the point and an exponent. -/
def ofDecimal (negative : Bool) (d : Number.Decimal) : Literal :=
  let ds := digits d.mantissa
  let order : Int := (ds.length : Int) - 1 + d.exponent
  if d.mantissa = 0 ∨ isPositional order then
    let text := d.positional
    { negative := negative
      whole := text.whole
      fraction := some (if text.fraction = [] then ['0'] else text.fraction)
      exponent := none }
  else
    { negative := negative
      whole := ds.take 1
      fraction := if ds.length ≤ 1 then none else some (ds.drop 1)
      exponent := some { negative := decide (order < 0), digits := digits order.natAbs } }

/-- The literal of a finite number: the shortest digits that read back, of two equally near ones
the even one. -/
def ofFloat (x : Float) : Literal :=
  let exact := Number.Dyadic.ofFloat x
  ofDecimal exact.negative (Number.shortest exact .even)

def spanDigits (s : List Char) : List Char × List Char :=
  s.span Char.isDigit

def whole? : List Char → Option (List Char × List Char)
  | [] => none
  | c :: r =>
    if c = '0' then some (['0'], r)
    else if c.isDigit then
      let (ds, rest) := spanDigits r
      some (c :: ds, rest)
    else none

def fraction? : List Char → Option (Option (List Char) × List Char)
  | '.' :: r =>
    match spanDigits r with
    | ([], _) => none
    | (ds, rest) => some (some ds, rest)
  | s => some (none, s)

def exponentDigits? (negative : Bool) (s : List Char) : Option (Option Exponent × List Char) :=
  match spanDigits s with
  | ([], _) => none
  | (ds, rest) => some (some { negative := negative, digits := ds }, rest)

def exponent? : List Char → Option (Option Exponent × List Char)
  | [] => some (none, [])
  | c :: r =>
    if c = 'e' ∨ c = 'E' then
      match r with
      | '-' :: t => exponentDigits? true t
      | '+' :: t => exponentDigits? false t
      | t => exponentDigits? false t
    else some (none, c :: r)

def unsigned? (negative : Bool) (s : List Char) : Option (Literal × List Char) := do
  let (whole, s) ← whole? s
  let (fraction, s) ← fraction? s
  let (exponent, s) ← exponent? s
  return ({ negative := negative, whole := whole, fraction := fraction, exponent := exponent }, s)

def read? : List Char → Option (Literal × List Char)
  | '-' :: r => unsigned? true r
  | s => unsigned? false s

def digitValue (c : Char) : Nat :=
  c.toNat - '0'.toNat

def fits (n : Nat) : Bool :=
  decide (n < twoTo 64)

def natValue (ds : List Char) : Nat :=
  ds.foldl (fun n c => 10 * n + digitValue c) 0

/-- The leading digits that fit 64 bits, and the number of digits left out. -/
def leading (significand : Nat) : List Char → Nat × Nat
  | [] => (significand, 0)
  | c :: r =>
    let next := 10 * significand + digitValue c
    if fits next then leading next r else (significand, (c :: r).length)

/-- The significand of a literal and its power of ten, before the exponent. Whole digits that are
left out count, digits after the point that are left out do not. -/
def significand (l : Literal) : Nat × Int :=
  let (whole, dropped) := leading 0 l.whole
  match l.fraction with
  | none => (whole, dropped)
  | some ds =>
    let (all, unread) := leading whole ds
    (all, (dropped : Int) - (ds.length - unread : Nat))

def powerOfTen (n : Nat) : Float :=
  Number.ofDecimal 1 n

/-- Division by `1e308`, again and again while anything is left. -/
def shrink : Nat → Float → Float
  | 0, f => f
  | n + 1, f => if f == 0.0 then f else shrink n (f / 1e308)

/-- A whole number times a power of ten, in binary64 and rounded at each step; none where it
overflows. -/
def scale? (n : Nat) (exponent : Int) : Option Float :=
  let f := Number.ofDecimal n 0
  match exponent with
  | .ofNat e =>
    if e ≤ 308 then
      let scaled := f * powerOfTen e
      if scaled.isInf then none else some scaled
    else if f == 0.0 then some f
    else none
  | .negSucc e => some (shrink (e / 308) f / powerOfTen (e % 308 + 1))

def saturate (e : Int) : Int :=
  max (-twoTo 31) (min e (twoTo 31 - 1))

def magnitude? (l : Literal) : Option Float :=
  let (n, before) := l.significand
  match l.exponent with
  | none => scale? n before
  | some e =>
    let size := natValue e.digits
    if twoTo 31 ≤ size then
      if n ≠ 0 ∧ ¬ e.negative then none else some 0.0
    else
      scale? n (saturate (if e.negative then before - size else before + size))

def toFloat? (l : Literal) : Option Float :=
  l.magnitude?.map fun x => if l.negative then -x else x

def toByte? (l : Literal) : Option UInt8 :=
  if l.negative ∨ l.fraction.isSome ∨ l.exponent.isSome then none
  else
    let n := natValue l.whole
    if n < 256 then some n.toUInt8 else none

end Literal

end Gantry.Json
