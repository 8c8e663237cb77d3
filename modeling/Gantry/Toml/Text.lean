/-!
# Strings

The four kinds of strings, on one line or on several, with escapes or taken as they are. Each
function gives the content and what follows the closing quotes.
-/

namespace Gantry.Toml

def isPlain (c : Char) : Bool :=
  c == '\t' || (decide (0x20 ≤ c.toNat) && c.toNat != 0x7F)

def hexValue? (c : Char) : Option Nat :=
  if c.isDigit then some (c.toNat - '0'.toNat)
  else if 'a' ≤ c ∧ c ≤ 'f' then some (c.toNat - 'a'.toNat + 10)
  else if 'A' ≤ c ∧ c ≤ 'F' then some (c.toNat - 'A'.toNat + 10)
  else none

def hexNumber? (ds : List Char) : Option Nat :=
  ds.foldlM (fun n c => (hexValue? c).map (16 * n + ·)) 0

def charOf? (n : Nat) : Option Char :=
  if h : n.isValidChar then some (Char.ofNatAux n h) else none

def hexEscape? (count : Nat) (s : List Char) : Option (Char × List Char) :=
  if s.length < count then none
  else do
    let n ← hexNumber? (s.take count)
    let c ← charOf? n
    return (c, s.drop count)

def escape? : List Char → Option (Char × List Char)
  | 'b' :: r => some ('\x08', r)
  | 't' :: r => some ('\t', r)
  | 'n' :: r => some ('\n', r)
  | 'f' :: r => some ('\x0c', r)
  | 'r' :: r => some ('\r', r)
  | 'e' :: r => some ('\x1b', r)
  | '"' :: r => some ('"', r)
  | '\\' :: r => some ('\\', r)
  | 'x' :: r => hexEscape? 2 r
  | 'u' :: r => hexEscape? 4 r
  | 'U' :: r => hexEscape? 8 r
  | _ => none

def newline? : List Char → Option (List Char × List Char)
  | '\n' :: r => some (['\n'], r)
  | '\r' :: '\n' :: r => some (['\r', '\n'], r)
  | _ => none

def isSpace (c : Char) : Bool :=
  c == ' ' || c == '\t'

def skipSpace : List Char → List Char
  | [] => []
  | '\r' :: '\n' :: r => skipSpace r
  | c :: r => if isSpace c || c == '\n' then skipSpace r else c :: r

/-- What follows a backslash at the end of a line: blanks and ends of lines, at least one. -/
def joinLines? (s : List Char) : Option (List Char) :=
  match newline? (s.dropWhile isSpace) with
  | some (_, r) => some (skipSpace r)
  | none => none

def basicTail? : Nat → List Char → Option (List Char × List Char)
  | 0, _ => none
  | _, [] => none
  | n + 1, c :: r =>
    if c = '"' then some ([], r)
    else if c = '\\' then do
      let (e, r) ← escape? r
      let (t, rest) ← basicTail? n r
      return (e :: t, rest)
    else if isPlain c then do
      let (t, rest) ← basicTail? n r
      return (c :: t, rest)
    else none

def literalTail? : List Char → Option (List Char × List Char)
  | [] => none
  | c :: r =>
    if c = '\'' then some ([], r)
    else if isPlain c then (literalTail? r).map fun (t, rest) => (c :: t, rest)
    else none

/-- Three closing quotes, with up to two quotes of content before them. -/
def closing? (q : Char) (s : List Char) : Option (List Char × List Char) :=
  let quotes := (s.takeWhile (· == q)).length
  if 3 ≤ quotes ∧ quotes ≤ 5 then some (List.replicate (quotes - 3) q, s.drop quotes)
  else if 5 < quotes then some (List.replicate 2 q, s.drop 5)
  else none

def multiBasicTail? : Nat → List Char → Option (List Char × List Char)
  | 0, _ => none
  | _, [] => none
  | n + 1, c :: r =>
    if c = '"' then
      match closing? '"' (c :: r) with
      | some done => some done
      | none => (multiBasicTail? n r).map fun (t, rest) => (c :: t, rest)
    else if c = '\\' then
      match joinLines? r with
      | some r => multiBasicTail? n r
      | none => do
        let (e, r) ← escape? r
        let (t, rest) ← multiBasicTail? n r
        return (e :: t, rest)
    else if isPlain c then (multiBasicTail? n r).map fun (t, rest) => (c :: t, rest)
    else
      match newline? (c :: r) with
      | some (eol, r) => (multiBasicTail? n r).map fun (t, rest) => (eol ++ t, rest)
      | none => none

def multiLiteralTail? : Nat → List Char → Option (List Char × List Char)
  | 0, _ => none
  | _, [] => none
  | n + 1, c :: r =>
    if c = '\'' then
      match closing? '\'' (c :: r) with
      | some done => some done
      | none => (multiLiteralTail? n r).map fun (t, rest) => (c :: t, rest)
    else if isPlain c then (multiLiteralTail? n r).map fun (t, rest) => (c :: t, rest)
    else
      match newline? (c :: r) with
      | some (eol, r) => (multiLiteralTail? n r).map fun (t, rest) => (eol ++ t, rest)
      | none => none

def dropNewline (s : List Char) : List Char :=
  match newline? s with
  | some (_, r) => r
  | none => s

def string? (s : List Char) : Option (String × List Char) :=
  let content := match s with
    | '"' :: '"' :: '"' :: r => multiBasicTail? (r.length + 1) (dropNewline r)
    | '\'' :: '\'' :: '\'' :: r => multiLiteralTail? (r.length + 1) (dropNewline r)
    | '"' :: r => basicTail? (r.length + 1) r
    | '\'' :: r => literalTail? r
    | _ => none
  content.map fun (t, rest) => (String.ofList t, rest)

def lineString? (s : List Char) : Option (String × List Char) :=
  let content := match s with
    | '"' :: r => basicTail? (r.length + 1) r
    | '\'' :: r => literalTail? r
    | _ => none
  content.map fun (t, rest) => (String.ofList t, rest)

end Gantry.Toml
