import Gantry.Number.Reading
import Gantry.Toml.Value

/-!
# Bare scalars

Values that are written without quotes: truth values, integers of four bases, floats, dates and
times. Digits may be grouped by single underscores.
-/

namespace Gantry.Toml

/-- Digits of a base with single underscores between them, the underscores left out. -/
def grouped? (isDigit : Char → Bool) : List Char → Option (List Char)
  | [] => none
  | [c] => if isDigit c then some [c] else none
  | c :: '_' :: r => if isDigit c then (grouped? isDigit r).map (c :: ·) else none
  | c :: d :: r => if isDigit c then (grouped? isDigit (d :: r)).map (c :: ·) else none

def decimalDigits? (s : List Char) : Option (List Char) := do
  let ds ← grouped? Char.isDigit s
  match ds with
  | '0' :: _ :: _ => none
  | ds => some ds

def digitValue (c : Char) : Nat :=
  if c.isDigit then c.toNat - '0'.toNat
  else if 'a' ≤ c ∧ c ≤ 'f' then c.toNat - 'a'.toNat + 10
  else c.toNat - 'A'.toNat + 10

def isHexDigit (c : Char) : Bool :=
  c.isDigit || decide ('a' ≤ c ∧ c ≤ 'f') || decide ('A' ≤ c ∧ c ≤ 'F')

def isOctalDigit (c : Char) : Bool :=
  decide ('0' ≤ c ∧ c ≤ '7')

def isBinaryDigit (c : Char) : Bool :=
  c == '0' || c == '1'

def ofBase? (base : Nat) (isDigit : Char → Bool) (s : List Char) : Option Int :=
  (grouped? isDigit s).map fun ds => (ds.foldl (fun n c => base * n + digitValue c) 0 : Nat)

/-- An integer: decimal with an optional sign, or with the mark of another base. -/
def integer? : List Char → Option Int
  | '0' :: 'x' :: r => ofBase? 16 isHexDigit r
  | '0' :: 'o' :: r => ofBase? 8 isOctalDigit r
  | '0' :: 'b' :: r => ofBase? 2 isBinaryDigit r
  | '+' :: r => (decimalDigits? r).map fun ds => (Number.natOfDigits ds : Int)
  | '-' :: r => (decimalDigits? r).map fun ds => -(Number.natOfDigits ds : Int)
  | r => (decimalDigits? r).map fun ds => (Number.natOfDigits ds : Int)

def power? : List Char → Option Int
  | '+' :: r => (grouped? Char.isDigit r).map fun ds => (Number.natOfDigits ds : Int)
  | '-' :: r => (grouped? Char.isDigit r).map fun ds => -(Number.natOfDigits ds : Int)
  | r => (grouped? Char.isDigit r).map fun ds => (Number.natOfDigits ds : Int)

def isPowerMark (c : Char) : Bool :=
  c == 'e' || c == 'E'

/-- The magnitude of a float with a point or a power of ten; none inside where it overflows. -/
def decimalFloat? (negative : Bool) (s : List Char) : Option (Option Float) := do
  let mantissa := s.takeWhile fun c => !isPowerMark c
  let exponent ← match s.dropWhile fun c => !isPowerMark c with
    | [] => some none
    | _ :: r => (power? r).map some
  let whole ← decimalDigits? (mantissa.takeWhile (· != '.'))
  let fraction ← match mantissa.dropWhile (· != '.') with
    | [] => if exponent.isSome then some [] else none
    | _ :: r => grouped? Char.isDigit r
  let x := Number.ofDigits (whole ++ fraction) (exponent.getD 0 - fraction.length)
  return if x.isInf then none else some (Number.signed negative x)

def specialFloat? (negative : Bool) (s : List Char) : Option (Option Float) :=
  if s = ['i', 'n', 'f'] then
    some (some (Number.signed negative (Float.ofBits 0x7FF0000000000000)))
  else if s = ['n', 'a', 'n'] then some (some (Float.ofBits 0x7FF8000000000000))
  else none

def unsignedFloat? (negative : Bool) (s : List Char) : Option (Option Float) :=
  (specialFloat? negative s).or (decimalFloat? negative s)

def float? : List Char → Option (Option Float)
  | '+' :: r => unsignedFloat? false r
  | '-' :: r => unsignedFloat? true r
  | r => unsignedFloat? false r

def twoDigits? (a b : Char) : Option Nat :=
  if a.isDigit && b.isDigit then some (digitValue a * 10 + digitValue b) else none

def daysOfMonth (year month : Nat) : Nat :=
  if month = 2 then
    if year % 4 = 0 ∧ (year % 100 ≠ 0 ∨ year % 400 = 0) then 29 else 28
  else if month = 4 ∨ month = 6 ∨ month = 9 ∨ month = 11 then 30
  else 31

def date? : List Char → Option (List Char)
  | a :: b :: c :: d :: '-' :: e :: f :: '-' :: g :: h :: r => do
    let century ← twoDigits? a b
    let year ← twoDigits? c d
    let month ← twoDigits? e f
    let day ← twoDigits? g h
    if 1 ≤ month ∧ month ≤ 12 ∧ 1 ≤ day ∧ day ≤ daysOfMonth (century * 100 + year) month then
      some r
    else none
  | _ => none

def seconds? : List Char → Option (List Char)
  | ':' :: a :: b :: r => do
    let second ← twoDigits? a b
    if 60 < second then none
    else match r with
      | '.' :: t =>
        if (t.takeWhile Char.isDigit) = [] then none else some (t.dropWhile Char.isDigit)
      | t => some t
  | ':' :: _ => none
  | r => some r

/-- A time of the day at the head of a text, and what follows. -/
def time? : List Char → Option (List Char)
  | a :: b :: ':' :: c :: d :: r => do
    let hour ← twoDigits? a b
    let minute ← twoDigits? c d
    if 23 < hour ∨ 59 < minute then none else seconds? r
  | _ => none

def isOffset : List Char → Bool
  | [] => true
  | ['Z'] => true
  | ['z'] => true
  | [s, a, b, ':', c, d] =>
    (s == '+' || s == '-')
      && (match twoDigits? a b, twoDigits? c d with
        | some hour, some minute => decide (hour ≤ 23) && decide (minute ≤ 59)
        | _, _ => false)
  | _ => false

/-- A date, a time, or both with an optional offset. -/
def isDatetime (s : List Char) : Bool :=
  match date? s with
  | some [] => true
  | some (c :: r) =>
    (c == 'T' || c == 't' || c == ' ')
      && (match time? r with
        | some rest => isOffset rest
        | none => false)
  | none =>
    match time? s with
    | some rest => rest.isEmpty
    | none => false

def scalar? (s : List Char) : Option Toml :=
  if s = "true".toList then some (.bool true)
  else if s = "false".toList then some (.bool false)
  else if isDatetime s then some .datetime
  else ((integer? s).map .integer).or ((float? s).map .float)

end Gantry.Toml
