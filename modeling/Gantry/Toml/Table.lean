import Gantry.Toml.Value

/-!
# Building tables

How statements add to the tables of a document. A key is given once. A table is opened by one
header, or comes about by dotted keys under one header, and a table in braces is closed for good.
-/

namespace Gantry.Toml

def find? (key : String) (es : Entries) : Option Toml :=
  es.lookup key

def insert? (key : String) (v : Toml) (es : Entries) : Option Entries :=
  match find? key es with
  | some _ => none
  | none => some (append key v es)

def changeLast? (f : Entries → Option Entries) : List Toml → Option (List Toml)
  | [] => none
  | [.table origin es] => (f es).map fun es => [.table origin es]
  | [_] => none
  | v :: vs => (changeLast? f vs).map (v :: ·)

/-- Adds a value under a dotted key. The tables on the way must come from dotted keys, or lie on
the way to a header, and the last one must come from dotted keys. -/
def insertDotted? : List String → String → Toml → Bool → Entries → Option Entries
  | [], key, v, isOwn, es => if isOwn then insert? key v es else none
  | k :: path, key, v, _, es =>
    match find? k es with
    | none => do
      let inner ← insertDotted? path key v true []
      return append k (.table .dotted inner) es
    | some (.table .dotted inner) => do
      let inner ← insertDotted? path key v true inner
      return replace k (.table .dotted inner) es
    | some (.table .super inner) => do
      let inner ← insertDotted? path key v false inner
      return replace k (.table .super inner) es
    | some (.array true items) => do
      let items ← changeLast? (insertDotted? path key v false) items
      return replace k (.array true items) es
    | some _ => none

def insertAt? (path : List String) (key : String) (v : Toml) (es : Entries) : Option Entries :=
  insertDotted? path key v true es

def openTable? (key : String) (es : Entries) : Option Entries :=
  match find? key es with
  | none => some (append key (.table .header []) es)
  | some (.table .super inner) => some (replace key (.table .header inner) es)
  | some _ => none

def openItem? (key : String) (es : Entries) : Option Entries :=
  match find? key es with
  | none => some (append key (.array true [.table .header []]) es)
  | some (.array true items) => some (replace key (.array true (items ++ [.table .header []])) es)
  | some _ => none

/-- Changes the entries of the table at a path of a header; tables on the way come about where
there are none. -/
def changeAt? (f : Entries → Option Entries) : List String → Entries → Option Entries
  | [], es => f es
  | k :: path, es =>
    match find? k es with
    | none => do
      let inner ← changeAt? f path []
      return append k (.table .super inner) es
    | some (.table .inline _) => none
    | some (.table origin inner) => do
      let inner ← changeAt? f path inner
      return replace k (.table origin inner) es
    | some (.array true items) => do
      let items ← changeLast? (changeAt? f path) items
      return replace k (.array true items) es
    | some _ => none

end Gantry.Toml
