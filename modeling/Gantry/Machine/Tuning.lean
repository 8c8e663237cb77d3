import Gantry.Machine.Basic
import Gantry.Machine.Rejection

/-!
# Limits and tuning

The settings that may change while the machine runs. Each one is checked before anything changes.
-/

namespace Gantry

variable {α : Type} [Scalar α]

def checkLimit (i : AxisId) (field : LimitField) (value : α) : Except (Rejection α) Unit :=
  if Scalar.isPositive value then .ok () else .error (.axisLimit i field value)

/-- Accepts limits of an axis, the speed first. -/
def checkLimits (i : AxisId) (limits : Limits α) : Except (Rejection α) Unit := do
  checkLimit i .maxSpeed limits.maxSpeed
  checkLimit i .maxAcc limits.maxAcc

def checkTuning (h : HeaterId) (field : TuningField) (value : α) : Except (Rejection α) Unit :=
  if Scalar.isNonNegative value then .ok () else .error (.heaterTuning h field value)

namespace Machine

/-- Other limits of one axis, whose move is planned anew. -/
def withLimits (m : Machine α) (i : AxisId) (limits : Limits α) : Machine α :=
  m.setAxis i ((m.axis i).setLimits limits)

def setAxisLimits (m : Machine α) (i : AxisId) (limits : Limits α) :
    Except (Rejection α) (Machine α) := do
  checkLimits i limits
  return m.withLimits i limits

def setFeedOverride (m : Machine α) (value : α) : Except (Rejection α) (Machine α) :=
  if Scalar.isPositive value then .ok { m with feedOverride := value }
  else .error (.feedOverride value)

def setHeaterGains (m : Machine α) (h : HeaterId) (kp ki : α) (windUp : Option α) :
    Except (Rejection α) (Machine α) := do
  checkTuning h .kp kp
  checkTuning h .ki ki
  match windUp with
  | some bound => checkTuning h .windUp bound
  | none => pure ()
  let body := m.heater h
  return m.setHeater h
    { body with control := { body.control with kp := kp, ki := ki, windUp := windUp } }

def setHeaterSettle (m : Machine α) (h : HeaterId) (window time : α) :
    Except (Rejection α) (Machine α) := do
  checkTuning h .settleWindow window
  checkTuning h .settleTime time
  let body := m.heater h
  return m.setHeater h
    { body with config := { body.config with settleWindow := window, settleTime := time } }

end Machine

end Gantry
