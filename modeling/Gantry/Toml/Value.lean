/-!
# TOML values

The values of a configuration document. A table remembers how it came about, because that decides
which later statements may still add to it.
-/

namespace Gantry

inductive Toml.Origin where
  /-- In braces, and closed with them. -/
  | inline
  /-- By a header of its own. -/
  | header
  /-- On the way to a header further down. -/
  | super
  /-- By a dotted key. -/
  | dotted
deriving DecidableEq, Repr

inductive Toml where
  | text (s : String)
  | integer (n : Int)
  /-- A number, none for a literal that overflows. -/
  | float (x : Option Float)
  | bool (b : Bool)
  | datetime
  /-- An array; one made of headers may grow, one in brackets may not. -/
  | array (growing : Bool) (items : List Toml)
  | table (origin : Toml.Origin) (entries : List (String × Toml))

namespace Toml

/-- The entries of a table, in the order in which they came. -/
abbrev Entries := List (String × Toml)

def inlineTable (entries : Entries) : Toml :=
  .table .inline entries

def replace (key : String) (v : Toml) : Entries → Entries
  | [] => []
  | (k, w) :: es => if k = key then (k, v) :: es else (k, w) :: replace key v es

def append (key : String) (v : Toml) (es : Entries) : Entries :=
  es ++ [(key, v)]

end Toml

end Gantry
