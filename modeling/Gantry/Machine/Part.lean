/-!
# Parts of the machine

The four axes, the two heaters and the execution status, with the names each of them goes by, and
records that hold one thing for each axis or heater.
-/

namespace Gantry

inductive AxisId where
  | x
  | y
  | z
  | e
deriving DecidableEq, Repr

inductive HeaterId where
  | nozzle
  | plate
deriving DecidableEq, Repr

inductive Status where
  | idle
  | working
  | paused
deriving DecidableEq, Repr

namespace AxisId

def all : List AxisId :=
  [.x, .y, .z, .e]

/-- The axes that homing moves, in its order. -/
def cartesian : List AxisId :=
  [.x, .y, .z]

theorem mem_all (i : AxisId) : i ∈ all := by
  cases i <;> simp [all]

def index : AxisId → Nat
  | x => 0
  | y => 1
  | z => 2
  | e => 3

def letter : AxisId → Char
  | x => 'X'
  | y => 'Y'
  | z => 'Z'
  | e => 'E'

def text (i : AxisId) : String :=
  String.singleton i.letter

def name : AxisId → String
  | x => "x"
  | y => "y"
  | z => "z"
  | e => "e"

def settingsKey : AxisId → String
  | x => "x-axis"
  | y => "y-axis"
  | z => "z-axis"
  | e => "e-axis"

def ofName? (s : String) : Option AxisId :=
  all.find? (·.name == s)

theorem ofName?_name (i : AxisId) : ofName? i.name = some i := by
  cases i <;> decide

end AxisId

namespace HeaterId

def all : List HeaterId :=
  [.nozzle, .plate]

def name : HeaterId → String
  | nozzle => "nozzle"
  | plate => "plate"

def ofName? (s : String) : Option HeaterId :=
  all.find? (·.name == s)

theorem ofName?_name (h : HeaterId) : ofName? h.name = some h := by
  cases h <;> decide

end HeaterId

namespace Status

def initial : Status :=
  idle

def all : List Status :=
  [.idle, .working, .paused]

def code : Status → Nat
  | idle => 0
  | working => 1
  | paused => 2

def name : Status → String
  | idle => "IDLE"
  | working => "WORKING"
  | paused => "PAUSED"

def ofName? (s : String) : Option Status :=
  all.find? (·.name == s)

theorem ofName?_name (s : Status) : ofName? s.name = some s := by
  cases s <;> decide

end Status

structure PerAxis (β : Type) where
  x : β
  y : β
  z : β
  e : β
deriving DecidableEq, Repr

namespace PerAxis

variable {β γ : Type}

def get (p : PerAxis β) : AxisId → β
  | .x => p.x
  | .y => p.y
  | .z => p.z
  | .e => p.e

def set (p : PerAxis β) (i : AxisId) (v : β) : PerAxis β :=
  match i with
  | .x => { p with x := v }
  | .y => { p with y := v }
  | .z => { p with z := v }
  | .e => { p with e := v }

def ofFn (f : AxisId → β) : PerAxis β :=
  ⟨f .x, f .y, f .z, f .e⟩

def replicate (v : β) : PerAxis β :=
  ⟨v, v, v, v⟩

def map (f : β → γ) (p : PerAxis β) : PerAxis γ :=
  ofFn fun i => f (p.get i)

def toList (p : PerAxis β) : List β :=
  [p.x, p.y, p.z, p.e]

def ofList? : List β → Option (PerAxis β)
  | [x, y, z, e] => some ⟨x, y, z, e⟩
  | _ => none

theorem get_inj {p q : PerAxis β} (h : ∀ i, p.get i = q.get i) : p = q := by
  cases p
  cases q
  have hx := h .x
  have hy := h .y
  have hz := h .z
  have he := h .e
  simp only [get] at hx hy hz he
  simp [hx, hy, hz, he]

@[simp] theorem get_ofFn (f : AxisId → β) (i : AxisId) : (ofFn f).get i = f i := by
  cases i <;> rfl

@[simp] theorem get_replicate (v : β) (i : AxisId) : (replicate v).get i = v := by
  cases i <;> rfl

@[simp] theorem get_map (f : β → γ) (p : PerAxis β) (i : AxisId) :
    (p.map f).get i = f (p.get i) := by
  simp [map]

@[simp] theorem get_set_self (p : PerAxis β) (i : AxisId) (v : β) : (p.set i v).get i = v := by
  cases i <;> rfl

theorem get_set_of_ne (p : PerAxis β) {i j : AxisId} (v : β) (h : j ≠ i) :
    (p.set i v).get j = p.get j := by
  cases i <;> cases j <;> first | rfl | exact absurd rfl h

theorem ofList?_toList (p : PerAxis β) : ofList? p.toList = some p := rfl

end PerAxis

structure PerHeater (β : Type) where
  nozzle : β
  plate : β
deriving DecidableEq, Repr

namespace PerHeater

variable {β : Type}

def get (p : PerHeater β) : HeaterId → β
  | .nozzle => p.nozzle
  | .plate => p.plate

def set (p : PerHeater β) (h : HeaterId) (v : β) : PerHeater β :=
  match h with
  | .nozzle => { p with nozzle := v }
  | .plate => { p with plate := v }

def ofFn (f : HeaterId → β) : PerHeater β :=
  ⟨f .nozzle, f .plate⟩

@[simp] theorem get_ofFn (f : HeaterId → β) (h : HeaterId) : (ofFn f).get h = f h := by
  cases h <;> rfl

@[simp] theorem get_set_self (p : PerHeater β) (h : HeaterId) (v : β) : (p.set h v).get h = v := by
  cases h <;> rfl

theorem get_set_of_ne (p : PerHeater β) {h k : HeaterId} (v : β) (hk : k ≠ h) :
    (p.set h v).get k = p.get k := by
  cases h <;> cases k <;> first | rfl | exact absurd rfl hk

end PerHeater

end Gantry
