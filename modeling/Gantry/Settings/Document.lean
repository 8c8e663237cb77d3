import Gantry.Machine.Tuning

/-!
# Settings documents

A settings document gives limits for some of the axes, and for an axis one or both of its limits.
A document is checked as a whole before any axis is touched; a limit that is not given keeps its
value.
-/

namespace Gantry

variable {α : Type} [Scalar α]

/-- New limits of one axis; none keeps the present value. -/
structure LimitChange (α : Type) where
  maxSpeed : Option α
  maxAcc : Option α
deriving DecidableEq, Repr

abbrev SettingsDocument (α : Type) := PerAxis (Option (LimitChange α))

def LimitChange.over (c : LimitChange α) (l : Limits α) : Limits α where
  maxSpeed := c.maxSpeed.getD l.maxSpeed
  maxAcc := c.maxAcc.getD l.maxAcc

namespace Machine

def settings (m : Machine α) : SettingsDocument α :=
  PerAxis.ofFn fun i =>
    let limits := (m.axis i).limits
    some { maxSpeed := some limits.maxSpeed, maxAcc := some limits.maxAcc }

/-- Gives some axes new limits, once all of them are accepted. -/
def applyLimits (m : Machine α) (updates : List (AxisId × Limits α)) :
    Except (Rejection α) (Machine α) := do
  updates.forM fun u => checkLimits u.1 u.2
  return updates.foldl (fun m u => m.withLimits u.1 u.2) m

def limitUpdates (m : Machine α) (doc : SettingsDocument α) : List (AxisId × Limits α) :=
  AxisId.all.filterMap fun i => (doc.get i).map fun c => (i, c.over (m.axis i).limits)

def applySettings (m : Machine α) (doc : SettingsDocument α) : Except (Rejection α) (Machine α) :=
  m.applyLimits (m.limitUpdates doc)

end Machine

end Gantry
