import Gantry.Json.Value

/-!
# Reading JSON

A text is read as one value with nothing but blanks around it. The reader accepts every well-formed
text, however deep; what a value has to be is decided where it is used.
-/

namespace Gantry.Json

def isBlank (c : Char) : Bool :=
  c == ' ' || c == '\n' || c == '\t' || c == '\r'

def skipBlanks (s : List Char) : List Char :=
  s.dropWhile isBlank

def hexValue? (c : Char) : Option Nat :=
  if c.isDigit then some (c.toNat - '0'.toNat)
  else if 'a' ≤ c ∧ c ≤ 'f' then some (c.toNat - 'a'.toNat + 10)
  else if 'A' ≤ c ∧ c ≤ 'F' then some (c.toNat - 'A'.toNat + 10)
  else none

def hex4? (a b c d : Char) : Option Nat := do
  let a ← hexValue? a
  let b ← hexValue? b
  let c ← hexValue? c
  let d ← hexValue? d
  return ((a * 16 + b) * 16 + c) * 16 + d

def isHighSurrogate (n : Nat) : Bool :=
  decide (0xD800 ≤ n) && decide (n < 0xDC00)

def isLowSurrogate (n : Nat) : Bool :=
  decide (0xDC00 ≤ n) && decide (n < 0xE000)

def pairChar (high low : Nat) : Char :=
  Char.ofNat (0x10000 + (high - 0xD800) * 0x400 + (low - 0xDC00))

def shortEscape? (c : Char) : Option Char :=
  if c = '"' then some '"'
  else if c = '\\' then some '\\'
  else if c = '/' then some '/'
  else if c = 'b' then some '\x08'
  else if c = 'f' then some '\x0c'
  else if c = 'n' then some '\n'
  else if c = 'r' then some '\r'
  else if c = 't' then some '\t'
  else none

/-- The codes of a string after its opening quote, and what follows the closing one. An escape may
name half a surrogate pair, a character never does. -/
def codes? : List Char → Option (List Nat × List Char)
  | [] => none
  | '"' :: r => some ([], r)
  | '\\' :: 'u' :: a :: b :: c :: d :: r => do
    let n ← hex4? a b c d
    (codes? r).map fun (ns, rest) => (n :: ns, rest)
  | '\\' :: e :: r => do
    let c ← shortEscape? e
    (codes? r).map fun (ns, rest) => (c.toNat :: ns, rest)
  | c :: r =>
    if c.toNat < 32 ∨ c = '\\' then none
    else (codes? r).map fun (ns, rest) => (c.toNat :: ns, rest)

/-- The characters of a list of codes; none where half a surrogate pair has no partner. -/
def joinCodes? : List Nat → Option (List Char)
  | [] => some []
  | [n] => if isHighSurrogate n || isLowSurrogate n then none else some [Char.ofNat n]
  | n :: m :: r =>
    if isHighSurrogate n then
      if isLowSurrogate m then (joinCodes? r).map (pairChar n m :: ·) else none
    else if isLowSurrogate n then none
    else (joinCodes? (m :: r)).map (Char.ofNat n :: ·)

def stringTail? (s : List Char) : Option (Option String × List Char) :=
  (codes? s).map fun (ns, rest) => ((joinCodes? ns).map String.ofList, rest)

def string? (s : List Char) : Option (Option String × List Char) :=
  match skipBlanks s with
  | '"' :: r => stringTail? r
  | _ => none

def afterColon? (s : List Char) : Option (List Char) :=
  match skipBlanks s with
  | ':' :: r => some r
  | _ => none

mutual

/-- A value, and what follows; the first argument bounds the depth of the reading. -/
def value? : Nat → List Char → Option (Json × List Char)
  | 0, _ => none
  | n + 1, s =>
    match skipBlanks s with
    | 'n' :: 'u' :: 'l' :: 'l' :: r => some (.null, r)
    | 't' :: 'r' :: 'u' :: 'e' :: r => some (.bool true, r)
    | 'f' :: 'a' :: 'l' :: 's' :: 'e' :: r => some (.bool false, r)
    | '"' :: r => (stringTail? r).map fun (t, rest) => (.text t, rest)
    | '[' :: r =>
      match skipBlanks r with
      | ']' :: r => some (.array [], r)
      | r => do
        let (j, r) ← value? n r
        let (js, r) ← items? n r
        return (.array (j :: js), r)
    | '\x7b' :: r =>
      match skipBlanks r with
      | '\x7d' :: r => some (.object [], r)
      | r => do
        let (f, r) ← field? n r
        let (fs, r) ← fields? n r
        return (.object (f :: fs), r)
    | r => (Literal.read? r).map fun (l, rest) => (.number l, rest)

def items? : Nat → List Char → Option (List Json × List Char)
  | 0, _ => none
  | n + 1, s =>
    match skipBlanks s with
    | ']' :: r => some ([], r)
    | ',' :: r => do
      let (j, r) ← value? n r
      let (js, r) ← items? n r
      return (j :: js, r)
    | _ => none

def field? : Nat → List Char → Option ((Option String × Json) × List Char)
  | 0, _ => none
  | n + 1, s => do
    let (k, r) ← string? s
    let r ← afterColon? r
    let (j, r) ← value? n r
    return ((k, j), r)

def fields? : Nat → List Char → Option (List (Option String × Json) × List Char)
  | 0, _ => none
  | n + 1, s =>
    match skipBlanks s with
    | '\x7d' :: r => some ([], r)
    | ',' :: r => do
      let (f, r) ← field? n r
      let (fs, r) ← fields? n r
      return (f :: fs, r)
    | _ => none

end

/-- The value of a whole text. Every level of the reading takes at least one character, so twice
the length of the text bounds its depth. -/
def ofText? (text : String) : Option Json :=
  let s := text.toList
  match value? (2 * s.length + 2) s with
  | some (j, rest) => if skipBlanks rest = [] then some j else none
  | none => none

end Gantry.Json
