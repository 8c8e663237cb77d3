import Gantry.Json.Reader

/-!
# Records in JSON

A record is read from an object of named fields or from an array of its values in the order of
declaration. Unknown fields are passed over, a known one may not occur twice. Whether a field may
be missing depends on the field, and for the array also on the form.
-/

namespace Gantry.Json

/-- Whether a field of a record may be missing. -/
inductive Presence where
  /-- It may not. -/
  | required
  /-- It may be missing from an object, not from an array. -/
  | optional
  /-- It may be missing from both. -/
  | defaulted
deriving DecidableEq, Repr

structure Field where
  name : String
  presence : Presence
deriving DecidableEq, Repr

abbrev Record := List (String × Json)

def noRepeat : List String → Bool
  | [] => true
  | a :: r => !r.contains a && noRepeat r

def knownFields? (spec : List Field) (fields : List (Option String × Json)) : Option Record := do
  let named ← fields.mapM fun (k, j) => k.map (·, j)
  let known := named.filter fun f => spec.any (·.name == f.1)
  if noRepeat (known.map Prod.fst) then some known else none

def record? (spec : List Field) : Json → Option Record
  | .object fields => do
    let known ← knownFields? spec fields
    if spec.all fun f => f.presence != .required || known.any (·.1 == f.name) then some known
    else none
  | .array items =>
    if items.length ≤ spec.length ∧ (spec.drop items.length).all (·.presence == .defaulted) then
      some ((spec.map (·.name)).zip items)
    else none
  | _ => none

abbrev NumberReading := Literal → Option Float

def toFloat? (reading : NumberReading) : Json → Option Float
  | .number l => reading l
  | _ => none

def toBool? : Json → Option Bool
  | .bool b => some b
  | _ => none

def toString? : Json → Option String
  | .text s => s
  | _ => none

def toByte? : Json → Option UInt8
  | .number l => l.toByte?
  | _ => none

/-- A choice among names: the name itself, or an object with null under that name alone. -/
def toChoice? {β : Type} (ofName? : String → Option β) : Json → Option β
  | .text (some s) => ofName? s
  | .object [(some s, .null)] => ofName? s
  | _ => none

def toOption? {β : Type} (decode : Json → Option β) : Json → Option (Option β)
  | .null => some none
  | j => (decode j).map some

namespace Record

variable {β : Type}

def get? (r : Record) (decode : Json → Option β) (name : String) : Option β :=
  (r.lookup name).bind decode

def getOption? (r : Record) (decode : Json → Option β) (name : String) : Option (Option β) :=
  match r.lookup name with
  | none => some none
  | some j => toOption? decode j

end Record

end Gantry.Json
