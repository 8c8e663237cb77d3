import Gantry.Number.Binary32
import Gantry.Settings.Document

/-!
# Binary settings

The limits of all axes as 32 bytes: four speeds and then four accelerations in the order of the
axes, each a binary32 number with its lowest byte first.
-/

namespace Gantry

namespace Settings

def blobLength : Nat :=
  32

def decodeFloats : List UInt8 → List Float
  | a :: b :: c :: d :: r => Number.widen (Number.ofLittleEndian a b c d) :: decodeFloats r
  | _ => []

def encodeFloats (xs : List Float) : List UInt8 :=
  xs.flatMap fun x => Number.littleEndian (Number.narrow x)

/-- The limits of eight numbers, speeds before accelerations. -/
def limitsOfFloats? : List Float → Option (PerAxis (Limits Float))
  | [sx, sy, sz, se, ax, ay, az, ae] => some ⟨⟨sx, ax⟩, ⟨sy, ay⟩, ⟨sz, az⟩, ⟨se, ae⟩⟩
  | _ => none

def decodeBlob? (bytes : List UInt8) : Option (PerAxis (Limits Float)) :=
  if bytes.length = blobLength then limitsOfFloats? (decodeFloats bytes) else none

end Settings

namespace Machine

def settingsBlob (m : Machine Float) : List UInt8 :=
  Settings.encodeFloats
    (AxisId.all.map (fun i => (m.axis i).limits.maxSpeed)
      ++ AxisId.all.map (fun i => (m.axis i).limits.maxAcc))

def applyBlob (m : Machine Float) (bytes : List UInt8) :
    Except (Rejection Float) (Machine Float) :=
  match Settings.decodeBlob? bytes with
  | some limits => m.applyLimits (AxisId.all.map fun i => (i, limits.get i))
  | none => .error (.blobLength Settings.blobLength bytes.length)

end Machine

end Gantry
