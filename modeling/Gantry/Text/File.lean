/-!
# Files

What a path leads to, as far as it matters for reading it, and the name of a file without its
extension.
-/

namespace Gantry

inductive File where
  | missing
  | directory
  | content (bytes : List UInt8)
deriving DecidableEq, Repr

namespace File

def isReadable : File → Bool
  | content _ => true
  | _ => false

def text? : File → Option String
  | content bytes => String.fromUTF8? ⟨bytes.toArray⟩
  | _ => none

def beforeDot? (name : List Char) : Option (List Char) :=
  match (name.reverse.dropWhile (· != '.')).tail? with
  | none => none
  | some r => if r = [] then none else some r.reverse

/-- The last part of a path without its extension. A dot at the start opens no extension. -/
def stem (path : String) : String :=
  let name := (path.toList.reverse.takeWhile (· != '/')).reverse
  String.ofList ((beforeDot? name).getD name)

end File

end Gantry
