import Mathlib
import Gantry.Config.Basic
import Gantry.Proofs.Json.Decimal
import Gantry.Proofs.Json.Member
import Gantry.Proofs.Json.Nearest
import Gantry.Snapshot.Text

/-!
# Snapshots written and read

The text of a snapshot is read as the same snapshot, whatever the names of its file and its line
hold, as long as its floats are finite and the number reader restores each of them. No other text
stands for a snapshot unless it gives all fields, but for those that may be absent.

This does NOT assume of the number reader that it is exact for any other number.
-/

namespace Gantry

open Json

variable {reading : NumberReading} {j : Json}

namespace AxisSnapshot

variable {a : AxisSnapshot Float}

def numbers (a : AxisSnapshot Float) : List Float :=
  [a.position, a.target, a.speed, a.acc, a.targetSpeed, a.power, a.maxSpeed, a.maxAcc]

theorem wellFormed_toJson (a : AxisSnapshot Float) : WellFormed a.toJson := by
  apply wellFormed_ofFields
  simp [wellFormed_ofFloat]

theorem ofJson?_toJson (h : ∀ x ∈ a.numbers, toFloat? reading (Json.ofFloat x) = some x) :
    ofJson? reading a.toJson = some a := by
  obtain ⟨r, hrecord, hr⟩ := exists_record fields (rfl : a.toJson = ofFields _) rfl (by decide)
  simp only [numbers, List.forall_mem_cons] at h hr
  unfold ofJson?
  simp [hrecord, Record.get?, hr, h]

end AxisSnapshot

namespace HeaterSnapshot

variable {h : HeaterSnapshot Float}

def numbers (h : HeaterSnapshot Float) : List Float :=
  [h.temperature, h.target, h.power, h.powerIn, h.kp, h.ki] ++ h.windUp.toList
    ++ [h.settleWindow, h.settleTime]

theorem wellFormed_toJson (h : HeaterSnapshot Float) : WellFormed h.toJson := by
  apply wellFormed_ofFields
  simp [wellFormed_ofFloat, wellFormed_ofOption, WellFormed.bool]

theorem ofJson?_toJson (hn : ∀ x ∈ h.numbers, toFloat? reading (Json.ofFloat x) = some x) :
    ofJson? reading h.toJson = some h := by
  obtain ⟨r, hrecord, hr⟩ := exists_record fields (rfl : h.toJson = ofFields _) rfl (by decide)
  simp only [numbers, List.forall_mem_append, List.forall_mem_cons] at hn hr
  have hbound : toOption? (toFloat? reading) (ofOption Json.ofFloat h.windUp) = some h.windUp :=
    toOption?_ofOption rfl fun x hx => hn.1.2 x (Option.mem_toList.mpr hx)
  unfold ofJson?
  simp [hrecord, Record.get?, Record.getOption?, hr, hn, hbound, toBool?]

end HeaterSnapshot

namespace Snapshot

variable {s : Snapshot Float}

def numbers (s : Snapshot Float) : List Float :=
  [s.time, s.feedOverride, s.totalPower] ++ s.axes.toList.flatMap (·.numbers)
    ++ (s.heaters.nozzle.numbers ++ s.heaters.plate.numbers)

theorem wellFormed_toJson (s : Snapshot Float) : WellFormed s.toJson := by
  have haxes : WellFormed (.array (s.axes.toList.map (·.toJson))) := by
    apply WellFormed.array
    intro j hj
    obtain ⟨a, -, rfl⟩ := List.mem_map.mp hj
    exact a.wellFormed_toJson
  have hprogress : WellFormed (Json.ofNat s.progress.toNat) :=
    .number (Literal.wellFormed_ofNat _)
  have htext (t : String) : WellFormed (Json.ofString t) := .text _
  apply wellFormed_ofFields
  simp [wellFormed_ofFloat, wellFormed_ofOption, WellFormed.bool, haxes, hprogress, htext,
    HeaterSnapshot.wellFormed_toJson]

theorem axesOfJson?_array {axes : PerAxis (AxisSnapshot Float)}
    (h : ∀ a ∈ axes.toList, AxisSnapshot.ofJson? reading a.toJson = some a) :
    axesOfJson? reading (.array (axes.toList.map (·.toJson))) = some axes := by
  unfold axesOfJson?
  simp only [mapM_encoded h]
  exact PerAxis.ofList?_toList axes

theorem ofJson?_toJson (h : ∀ x ∈ s.numbers, toFloat? reading (Json.ofFloat x) = some x) :
    ofJson? reading s.toJson = some s := by
  obtain ⟨r, hrecord, hr⟩ := exists_record fields (rfl : s.toJson = ofFields _) rfl (by decide)
  simp only [numbers, List.forall_mem_append, List.forall_mem_cons, List.forall_mem_flatMap] at h hr
  obtain ⟨⟨⟨htime, hfeed, htotal, -⟩, haxes⟩, hnozzle, hplate⟩ := h
  have haxes := axesOfJson?_array fun a ha => AxisSnapshot.ofJson?_toJson (haxes a ha)
  have hnozzle := HeaterSnapshot.ofJson?_toJson hnozzle
  have hplate := HeaterSnapshot.ofJson?_toJson hplate
  have hstatus : toChoice? Status.ofName? (Json.ofString s.status.name) = some s.status :=
    Status.ofName?_name s.status
  have hprogress := toByte?_ofNat s.progress
  have htext (w : Option String) : toOption? Json.toString? (ofOption Json.ofString w) = some w :=
    toOption?_ofOption rfl fun _ _ => rfl
  unfold ofJson?
  simp [hrecord, Record.get?, Record.getOption?, hr, htime, hfeed, htotal, haxes, hnozzle, hplate,
    hstatus, hprogress, htext, toBool?]

/-- The numbers of a snapshot are finite, and read from their literals. -/
structure Restorable (reading : NumberReading) (s : Snapshot Float) : Prop where
  finite : ∀ x ∈ s.numbers, x.isFinite = true
  read : ∀ x ∈ s.numbers, reading (Literal.ofFloat x) = some x

theorem ofText?_toText (h : s.Restorable reading) : ofText? reading s.toText = some s := by
  have hback : ∀ x ∈ s.numbers, toFloat? reading (Json.ofFloat x) = some x := by
    intro x hx
    unfold Json.ofFloat
    rw [if_pos (h.finite x hx)]
    exact h.read x hx
  unfold ofText? toText
  rw [Json.ofText?_toText s.wellFormed_toJson, Option.bind_some]
  exact ofJson?_toJson hback

theorem ofText?_nearest (hfinite : ∀ x ∈ s.numbers, x.isFinite = true) :
    ofText? Literal.nearest? s.toText = some s := by
  apply ofText?_toText
  constructor
  · exact hfinite
  · intro x hx
    exact Literal.nearest?_ofFloat (hfinite x hx)

end Snapshot

/-- A field in the document of a snapshot: its own, or one of an axis or of a heater in it. -/
inductive SnapshotField where
  | own (name : String)
  | axis (i : AxisId) (name : String)
  | heater (h : HeaterId) (name : String)

namespace SnapshotField

/-- All fields but the file, the line and the bounds of the integrals. -/
def Mandatory : SnapshotField → Prop
  | own name =>
    name ∈ Snapshot.fields.map (·.name) ∧ name ≠ "current_file" ∧ name ≠ "current_line"
  | axis _ name => name ∈ AxisSnapshot.fields.map (·.name)
  | heater _ name => name ∈ HeaterSnapshot.fields.map (·.name) ∧ name ≠ "wind_up"

def value? (f : SnapshotField) (j : Json) : Option Json :=
  let top (name : String) : Option Json := j.member? (Snapshot.fields.map (·.name)) name
  match f with
  | own name => top name
  | axis i name => do
    let axis ← (← top "axes").item? i.index
    axis.member? (AxisSnapshot.fields.map (·.name)) name
  | heater h name => do
    (← top h.name).member? (HeaterSnapshot.fields.map (·.name)) name

end SnapshotField

theorem AxisSnapshot.exists_value {a : AxisSnapshot Float} (h : ofJson? reading j = some a)
    {name : String} (hname : name ∈ fields.map (·.name)) :
    ∃ v, j.member? (fields.map (·.name)) name = some v := by
  have hall : ∀ name ∈ fields.map (·.name), (⟨name, .required⟩ : Field) ∈ fields := by decide
  obtain ⟨r, hr, -⟩ := Option.bind_eq_some_iff.mp h
  obtain ⟨v, hv, -⟩ := exists_member? hr (hall name hname) (by decide)
  exact ⟨v, hv⟩

theorem HeaterSnapshot.exists_value {s : HeaterSnapshot Float} (h : ofJson? reading j = some s)
    {name : String} (hname : name ∈ fields.map (·.name)) (hbound : name ≠ "wind_up") :
    ∃ v, j.member? (fields.map (·.name)) name = some v := by
  have hall : ∀ name ∈ fields.map (·.name), name ≠ "wind_up" →
      (⟨name, .required⟩ : Field) ∈ fields := by decide
  obtain ⟨r, hr, -⟩ := Option.bind_eq_some_iff.mp h
  obtain ⟨v, hv, -⟩ := exists_member? hr (hall name hname hbound) (by decide)
  exact ⟨v, hv⟩

namespace Snapshot

variable {s : Snapshot Float}

theorem parts_of_ofJson? (h : ofJson? reading j = some s) :
    ∃ r, record? fields j = some r ∧
      (List.lookup "axes" r).bind (axesOfJson? reading) = some s.axes ∧
      ∀ k : HeaterId, (List.lookup k.name r).bind (HeaterSnapshot.ofJson? reading) =
        some (s.heaters.get k) := by
  simp only [ofJson?, Option.bind_eq_bind, Option.bind_eq_some_iff] at h
  obtain ⟨r, hr, time, -, axes, haxes, nozzle, hnozzle, plate, hplate, h⟩ := h
  obtain ⟨status, -, progress, -, file, -, line, -, feed, -, homed, -, total, -, h⟩ := h
  cases h
  refine ⟨r, hr, haxes, fun k => ?_⟩
  cases k with
  | nozzle => exact hnozzle
  | plate => exact hplate

theorem item?_of_axesOfJson? {axes : PerAxis (AxisSnapshot Float)}
    (h : axesOfJson? reading j = some axes) (i : AxisId) :
    ∃ v, j.item? i.index = some v ∧ AxisSnapshot.ofJson? reading v = some (axes.get i) := by
  cases j with
  | array items =>
    obtain ⟨l, hl, h⟩ := Option.bind_eq_some_iff.mp h
    have hget : l[i.index]? = some (axes.get i) := by
      unfold PerAxis.ofList? at h
      split at h
      · cases h
        cases i <;> rfl
      · cases h
    rw [getElem?_mapM hl] at hget
    exact Option.bind_eq_some_iff.mp hget
  | null => cases h
  | bool b => cases h
  | number l => cases h
  | text s => cases h
  | object fields => cases h

theorem exists_value (h : ofJson? reading j = some s) {f : SnapshotField} (hf : f.Mandatory) :
    ∃ v, f.value? j = some v := by
  obtain ⟨r, hr, haxes, hheaters⟩ := parts_of_ofJson? h
  have hmember (name : String) (hname : (SnapshotField.own name).Mandatory) :
      ∃ v, j.member? (fields.map (·.name)) name = some v ∧ List.lookup name r = some v := by
    have hall : ∀ name ∈ fields.map (·.name), name ≠ "current_file" → name ≠ "current_line" →
        (⟨name, .required⟩ : Field) ∈ fields := by decide
    exact exists_member? hr (hall name hname.1 hname.2.1 hname.2.2) (by decide)
  cases f with
  | own name =>
    obtain ⟨v, hv, -⟩ := hmember name hf
    exact ⟨v, hv⟩
  | axis i name =>
    obtain ⟨items, hitems, hlookup⟩ := hmember "axes" ⟨by decide, by decide, by decide⟩
    rw [hlookup] at haxes
    obtain ⟨a, ha, haxis⟩ := item?_of_axesOfJson? haxes i
    obtain ⟨v, hv⟩ := AxisSnapshot.exists_value haxis hf
    refine ⟨v, ?_⟩
    simp [SnapshotField.value?, hitems, ha, hv]
  | heater k name =>
    have hown : (SnapshotField.own k.name).Mandatory := by
      cases k <;> exact ⟨by decide, by decide, by decide⟩
    obtain ⟨heater, hvalue, hlookup⟩ := hmember k.name hown
    have hheater := hheaters k
    rw [hlookup] at hheater
    obtain ⟨v, hv⟩ := HeaterSnapshot.exists_value hheater hf.1 hf.2
    refine ⟨v, ?_⟩
    simp [SnapshotField.value?, hvalue, hv]

/-- A text that lacks a mandatory field is not read, whatever the number reader. -/
theorem ofText?_eq_none {text : String} {f : SnapshotField} (hf : f.Mandatory)
    (hnone : (Json.ofText? text).bind f.value? = none) : ofText? reading text = none := by
  apply Option.eq_none_iff_forall_ne_some.mpr
  intro s hs
  obtain ⟨j, hj, hs⟩ := Option.bind_eq_some_iff.mp hs
  obtain ⟨v, hv⟩ := exists_value hs hf
  rw [hj, Option.bind_some, hv] at hnone
  cases hnone

/-- What is restored from its own text is whole, and so is written as the same text; what lacks a
mandatory field is not restored at all. -/
theorem restored_whole (reading : NumberReading) :
    (∀ s : Snapshot Float, s.Restorable reading →
      ofText? reading s.toText = some s ∧
        (ofText? reading s.toText).map toText = some s.toText) ∧
    ∀ (text : String) (f : SnapshotField), f.Mandatory →
      (Json.ofText? text).bind f.value? = none → ofText? reading text = none := by
  constructor
  · intro s hs
    have hback := ofText?_toText hs
    refine ⟨hback, ?_⟩
    rw [hback]
    rfl
  · intro text f hf hnone
    exact ofText?_eq_none hf hnone

/-- The stock machine, with a file and a line whose characters have to be escaped, and a text that
gives an axis without its limits. -/
theorem restored_whole_stock :
    let s : Snapshot Float := { (Machine.ofConfig MachineConfig.stock).snapshot with
      file := some "pi\u00e8ces\\\"lid\".gcode"
      line := some "G1 X0.5 ; \u6e2c\u8a66\t\x07\n" }
    let text := "\x7b\"time\":0.5,\"axes\":[\x7b\"position\":0.25\x7d]\x7d"
    (s.Restorable Literal.toFloat? ∧ ofText? Literal.toFloat? s.toText = some s ∧
      (ofText? Literal.toFloat? s.toText).map toText = some s.toText) ∧
    (Json.ofText? text).isSome = true ∧
      (Json.ofText? text).bind (SnapshotField.axis .x "max_acc").value? = none ∧
      ofText? Literal.toFloat? text = none := by
  intro s text
  obtain ⟨hwhole, hnone⟩ := restored_whole Literal.toFloat?
  have hs : s.Restorable Literal.toFloat? := ⟨by decide +kernel, by decide +kernel⟩
  have hlacking : (Json.ofText? text).bind (SnapshotField.axis .x "max_acc").value? = none := by
    apply Option.isNone_iff_eq_none.mp
    decide +kernel
  have hmandatory : (SnapshotField.axis .x "max_acc").Mandatory := by
    unfold SnapshotField.Mandatory
    decide
  exact ⟨⟨hs, hwhole s hs⟩, by decide +kernel, hlacking, hnone text _ hmandatory hlacking⟩

end Snapshot
end Gantry
