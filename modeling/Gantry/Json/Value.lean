import Gantry.Json.Literal

/-!
# JSON values

Values as a text spells them: numbers stay literals, and the fields of an object keep their order
and their repetitions. A string escape may name half a surrogate pair. Such a string is well
formed and stands for no text; it is kept as a value of its own.
-/

namespace Gantry

inductive Json where
  | null
  | bool (b : Bool)
  | number (literal : Json.Literal)
  /-- The content of a string, none for one with a surrogate that has no partner. -/
  | text (content : Option String)
  | array (items : List Json)
  | object (fields : List (Option String × Json))
deriving Repr

namespace Json

def ofString (s : String) : Json :=
  .text (some s)

/-- A number; infinities and NaN have no literal and become null. -/
def ofFloat (x : Float) : Json :=
  if x.isFinite then .number (Literal.ofFloat x) else .null

def ofNat (n : Nat) : Json :=
  .number (Literal.ofNat n)

def ofOption {β : Type} (encode : β → Json) : Option β → Json
  | some b => encode b
  | none => .null

def ofFields (fields : List (String × Json)) : Json :=
  .object (fields.map fun f => (some f.1, f.2))

def hexDigit (n : Nat) : Char :=
  Nat.digitChar n

def escape (c : Char) : List Char :=
  if c = '"' then ['\\', '"']
  else if c = '\\' then ['\\', '\\']
  else if c = '\x08' then ['\\', 'b']
  else if c = '\x0c' then ['\\', 'f']
  else if c = '\n' then ['\\', 'n']
  else if c = '\r' then ['\\', 'r']
  else if c = '\t' then ['\\', 't']
  else if c.toNat < 32 then ['\\', 'u', '0', '0', hexDigit (c.toNat / 16), hexDigit (c.toNat % 16)]
  else [c]

/-- A string in quotes. What stands for no text is written as half a surrogate pair. -/
def quote : Option String → List Char
  | some s => '"' :: s.toList.flatMap escape ++ ['"']
  | none => "\"\\ud800\"".toList

mutual

def render : Json → List Char
  | .null => "null".toList
  | .bool true => "true".toList
  | .bool false => "false".toList
  | .number l => l.render
  | .text s => quote s
  | .array [] => ['[', ']']
  | .array (j :: js) => '[' :: render j ++ renderItems js
  | .object [] => ['\x7b', '\x7d']
  | .object ((k, j) :: fs) => '\x7b' :: quote k ++ ':' :: render j ++ renderFields fs

def renderItems : List Json → List Char
  | [] => [']']
  | j :: js => ',' :: render j ++ renderItems js

def renderFields : List (Option String × Json) → List Char
  | [] => ['\x7d']
  | (k, j) :: fs => ',' :: quote k ++ ':' :: render j ++ renderFields fs

end

def toText (j : Json) : String :=
  String.ofList j.render

end Json

end Gantry
