import Gantry.Json.Record
import Gantry.Settings.Document

/-!
# Settings documents in JSON

A document has a section for each axis it changes, and a section a field for each limit it changes.
Missing and null are the same. The present settings are written with all sections and fields.
-/

namespace Gantry

namespace LimitChange

def fields : List Json.Field :=
  [⟨LimitField.maxSpeed.name, .defaulted⟩, ⟨LimitField.maxAcc.name, .defaulted⟩]

/-- A section as JSON, without the limits that it keeps. -/
def toJson (c : LimitChange Float) : Json :=
  Json.ofFields
    ((c.maxSpeed.map fun v => (LimitField.maxSpeed.name, Json.ofFloat v)).toList
      ++ (c.maxAcc.map fun v => (LimitField.maxAcc.name, Json.ofFloat v)).toList)

def ofJson? (reading : Json.NumberReading) (j : Json) : Option (LimitChange Float) := do
  let r ← Json.record? fields j
  return {
    maxSpeed := ← Json.Record.getOption? r (Json.toFloat? reading) LimitField.maxSpeed.name
    maxAcc := ← Json.Record.getOption? r (Json.toFloat? reading) LimitField.maxAcc.name }

end LimitChange

namespace Settings

def sections : List Json.Field :=
  AxisId.all.map fun i => ⟨i.settingsKey, .defaulted⟩

def toJson (doc : SettingsDocument Float) : Json :=
  Json.ofFields (AxisId.all.filterMap fun i => (doc.get i).map fun c => (i.settingsKey, c.toJson))

def ofJson? (reading : Json.NumberReading) (j : Json) : Option (SettingsDocument Float) := do
  let r ← Json.record? sections j
  let change (i : AxisId) : Option (Option (LimitChange Float)) :=
    Json.Record.getOption? r (LimitChange.ofJson? reading) i.settingsKey
  return ⟨← change .x, ← change .y, ← change .z, ← change .e⟩

def ofText? (text : String) : Option (SettingsDocument Float) :=
  (Json.ofText? text).bind (ofJson? Json.Literal.toFloat?)

end Settings

namespace Machine

def settingsText (m : Machine Float) : String :=
  (Settings.toJson m.settings).toText

def applyText (m : Machine Float) (text : String) : Except (Rejection Float) (Machine Float) :=
  match Settings.ofText? text with
  | some doc => m.applySettings doc
  | none => .error .malformedDocument

end Machine

end Gantry
