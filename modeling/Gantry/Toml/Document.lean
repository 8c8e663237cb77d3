import Gantry.Toml.Scalar
import Gantry.Toml.Table
import Gantry.Toml.Text

/-!
# Documents

A document is a list of lines, each of them blank, a header or an entry, with a comment at its end
if need be. Brackets and braces may extend over several lines. The lines are read into statements,
and the statements build the tables.
-/

namespace Gantry.Toml

/-- A dotted key: what leads to it and its last part. -/
structure Key where
  path : List String
  last : String
deriving DecidableEq, Repr

inductive Statement where
  | header (key : Key)
  | item (key : Key)
  | entry (key : Key) (value : Toml)

def maxDepth : Nat :=
  80

def skipBlanks (s : List Char) : List Char :=
  s.dropWhile isSpace

def skipComment? : List Char → Option (List Char)
  | '#' :: r => some (r.dropWhile isPlain)
  | s => some s

def endLine? (s : List Char) : Option (List Char) := do
  let s ← skipComment? (skipBlanks s)
  match s with
  | [] => some []
  | s => (newline? s).map (·.2)

def skipLines : Nat → List Char → List Char
  | 0, s => s
  | n + 1, s =>
    match skipSpace s with
    | '#' :: r => skipLines n (r.dropWhile isPlain)
    | s => s

def isKeyChar (c : Char) : Bool :=
  c.isAlphanum || c == '_' || c == '-'

def keyPart? (s : List Char) : Option (String × List Char) :=
  match lineString? s with
  | some part => some part
  | none =>
    match s.takeWhile isKeyChar with
    | [] => none
    | cs => some (String.ofList cs, s.dropWhile isKeyChar)

def keyParts? : Nat → List Char → Option (List String × List Char)
  | 0, _ => none
  | n + 1, s => do
    let (part, r) ← keyPart? (skipBlanks s)
    match skipBlanks r with
    | '.' :: r => do
      let (parts, rest) ← keyParts? n r
      return (part :: parts, rest)
    | rest => some ([part], rest)

def key? (s : List Char) : Option (Key × List Char) := do
  let (parts, rest) ← keyParts? (s.length + 1) s
  let last ← parts.getLast?
  return (⟨parts.dropLast, last⟩, rest)

def isScalarChar (c : Char) : Bool :=
  c.isAlphanum || c == '_' || c == '-' || c == '+' || c == '.' || c == ':'

/-- The characters of a value without quotes, and what follows. One blank may stand between a date
and a time. -/
def scalarSpan (s : List Char) : List Char × List Char :=
  let run := s.takeWhile isScalarChar
  let rest := s.dropWhile isScalarChar
  match rest with
  | ' ' :: c :: r =>
    if date? run = some [] ∧ c.isDigit then
      (run ++ ' ' :: (c :: r).takeWhile isScalarChar, (c :: r).dropWhile isScalarChar)
    else (run, rest)
  | _ => (run, rest)

def ofEntries? (entries : List (Key × Toml)) : Option Toml :=
  (entries.foldlM (fun es e => insertAt? e.1.path e.1.last e.2 es) []).map inlineTable

mutual

/-- A value inside `depth` brackets and braces, and what follows; the first argument bounds the
reading. -/
def value? : Nat → Nat → List Char → Option (Toml × List Char)
  | 0, _, _ => none
  | n + 1, depth, s =>
    match s with
    | '"' :: _ => (string? s).map fun (t, rest) => (.text t, rest)
    | '\'' :: _ => (string? s).map fun (t, rest) => (.text t, rest)
    | '[' :: r =>
      if maxDepth ≤ depth then none
      else (items? n (depth + 1) r).map fun (vs, rest) => (.array false vs, rest)
    | '\x7b' :: r =>
      if maxDepth ≤ depth then none
      else do
        let (entries, rest) ← entries? n (depth + 1) r
        let t ← ofEntries? entries
        return (t, rest)
    | _ => do
      let (run, rest) := scalarSpan s
      let v ← scalar? run
      return (v, rest)

def items? : Nat → Nat → List Char → Option (List Toml × List Char)
  | 0, _, _ => none
  | n + 1, depth, s =>
    match skipLines s.length s with
    | ']' :: r => some ([], r)
    | s => do
      let (v, r) ← value? n depth s
      match skipLines r.length r with
      | ']' :: r => some ([v], r)
      | ',' :: r => do
        let (vs, rest) ← items? n depth r
        return (v :: vs, rest)
      | _ => none

def entries? : Nat → Nat → List Char → Option (List (Key × Toml) × List Char)
  | 0, _, _ => none
  | n + 1, depth, s =>
    match skipLines s.length s with
    | '\x7d' :: r => some ([], r)
    | s => do
      let (k, r) ← key? s
      match r with
      | '=' :: r => do
        let (v, r) ← value? n depth (skipBlanks r)
        match skipLines r.length r with
        | '\x7d' :: r => some ([(k, v)], r)
        | ',' :: r => do
          let (es, rest) ← entries? n depth r
          return ((k, v) :: es, rest)
        | _ => none
      | _ => none

end

/-- A header after its opening bracket, and what follows its closing one. -/
def headerTail? (s : List Char) : Option (Key × List Char) := do
  let (k, r) ← key? s
  match r with
  | ']' :: r => some (k, r)
  | _ => none

def statement? : List Char → Option (Statement × List Char)
  | '[' :: '[' :: r => do
    let (k, r) ← headerTail? r
    match r with
    | ']' :: r => some (.item k, r)
    | _ => none
  | '[' :: r => (headerTail? r).map fun (k, rest) => (.header k, rest)
  | s => do
    let (k, r) ← key? s
    match r with
    | '=' :: r => do
      let (v, rest) ← value? (2 * r.length + 2) 0 (skipBlanks r)
      return (.entry k v, rest)
    | _ => none

/-- The statements of a text; the first argument bounds the number of lines. -/
def statements? : Nat → List Char → Option (List Statement)
  | 0, _ => none
  | n + 1, s =>
    match skipLines s.length s with
    | [] => some []
    | s => do
      let (statement, r) ← statement? s
      let r ← endLine? r
      let rest ← statements? n r
      return statement :: rest

/-- A document in the making: where entries go, and what is there already. -/
structure Draft where
  /-- The header in force, empty at the top. -/
  location : List String
  entries : Entries

def Draft.add? (d : Draft) : Statement → Option Draft
  | .header k => do
    let es ← changeAt? (openTable? k.last) k.path d.entries
    return { location := k.path ++ [k.last], entries := es }
  | .item k => do
    let es ← changeAt? (openItem? k.last) k.path d.entries
    return { location := k.path ++ [k.last], entries := es }
  | .entry k v => do
    let es ← changeAt? (insertAt? k.path k.last v) d.location d.entries
    return { d with entries := es }

def dropMark : List Char → List Char
  | '\uFEFF' :: r => r
  | s => s

def ofText? (text : String) : Option Toml := do
  let s := dropMark text.toList
  let statements ← statements? (s.length + 1) s
  let draft ← statements.foldlM Draft.add? { location := [], entries := [] }
  return .table .header draft.entries

end Gantry.Toml
