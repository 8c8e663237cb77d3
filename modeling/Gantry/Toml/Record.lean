import Gantry.Number.Power
import Gantry.Toml.Value

/-!
# Records in TOML

A record is read from a table of named fields or from an array of its values in the order of
declaration. Fields that are missing are none; what a missing field means is decided where the
record is used. Unknown fields are passed over as long as their numbers are in range, and so are
the items of an array after the last field.
-/

namespace Gantry.Toml

abbrev Record := Entries

def bound (bits : Nat) : Int :=
  Number.twoTo bits

mutual

/-- A value that may stand in an unknown field: integers have at most 128 bits, floats do not
overflow. -/
def isReadable : Toml → Bool
  | .integer n => decide (-bound 127 ≤ n) && decide (n < bound 128)
  | .float x => x.isSome
  | .array _ items => areReadable items
  | .table _ entries => entriesReadable entries
  | _ => true

def areReadable : List Toml → Bool
  | [] => true
  | v :: vs => isReadable v && areReadable vs

def entriesReadable : List (String × Toml) → Bool
  | [] => true
  | (_, v) :: es => isReadable v && entriesReadable es

end

def record? (names : List String) : Toml → Option Record
  | .table _ entries =>
    if entries.all fun e => names.contains e.1 || isReadable e.2 then
      some (entries.filter fun e => names.contains e.1)
    else none
  | .array _ items => some (names.zip items)
  | _ => none

def toFloat? (ofInt : Int → Float) : Toml → Option Float
  | .float x => x
  | .integer n => if -bound 63 ≤ n ∧ n < bound 64 then some (ofInt n) else none
  | _ => none

def toNat? : Toml → Option Nat
  | .integer n => if 0 ≤ n ∧ n < bound 64 then some n.toNat else none
  | _ => none

def toString? : Toml → Option String
  | .text s => some s
  | _ => none

def isEmpty : Toml → Bool
  | .table _ entries => entries.isEmpty
  | .array _ items => items.isEmpty
  | _ => false

/-- A choice among names: the name itself, or a table with an empty value under that name alone. -/
def toChoice? {β : Type} (ofName? : String → Option β) : Toml → Option β
  | .text s => ofName? s
  | .table _ [(s, v)] => if v.isEmpty then ofName? s else none
  | _ => none

namespace Record

variable {β : Type}

def get? (r : Record) (decode : Toml → Option β) (name : String) : Option (Option β) :=
  match r.lookup name with
  | none => some none
  | some v => (decode v).map some

def require? (r : Record) (decode : Toml → Option β) (name : String) : Option β :=
  (r.lookup name).bind decode

def getD? (r : Record) (decode : Toml → Option β) (name : String) (default : β) : Option β :=
  (r.get? decode name).map (·.getD default)

end Record

end Gantry.Toml
