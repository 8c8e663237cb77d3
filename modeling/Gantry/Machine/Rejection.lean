import Gantry.Machine.Part
import Gantry.Number.Layout

/-!
# Rejected values

Why the machine refuses a setting. A refused setting changes nothing.
-/

namespace Gantry

inductive LimitField where
  | maxSpeed
  | maxAcc
deriving DecidableEq, Repr

def LimitField.name : LimitField → String
  | maxSpeed => "max_speed"
  | maxAcc => "max_acc"

inductive TuningField where
  | kp
  | ki
  | windUp
  | settleWindow
  | settleTime
deriving DecidableEq, Repr

def TuningField.name : TuningField → String
  | kp => "kp"
  | ki => "ki"
  | windUp => "wind_up"
  | settleWindow => "settle_window"
  | settleTime => "settle_time"

inductive Rejection (α : Type) where
  /-- A settings document that is malformed or has the wrong shape. -/
  | malformedDocument
  /-- A binary settings blob of another length than it has to have. -/
  | blobLength (expected actual : Nat)
  /-- An axis limit that is not finite and positive. -/
  | axisLimit (axis : AxisId) (field : LimitField) (value : α)
  /-- A tuning value that is below zero or not finite. -/
  | heaterTuning (heater : HeaterId) (field : TuningField) (value : α)
  /-- A feedrate override that is not finite and positive. -/
  | feedOverride (value : α)
deriving DecidableEq, Repr

def Rejection.message : Rejection Float → String
  | malformedDocument => "Invalid settings document"
  | blobLength expected actual => s!"Binary settings must be {expected} bytes, got {actual}"
  | axisLimit axis field value =>
    "Axis " ++ axis.text ++ ": " ++ field.name ++ " must be a positive number (got "
      ++ Number.plain value ++ ")"
  | heaterTuning heater field value =>
    "Heater " ++ heater.name ++ ": " ++ field.name ++ " must be a non-negative number (got "
      ++ Number.plain value ++ ")"
  | feedOverride value =>
    "Feedrate override must be a positive number (got " ++ Number.plain value ++ ")"

end Gantry
