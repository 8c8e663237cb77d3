import Mathlib
import Gantry.Proofs.Json.Reread
import Gantry.Proofs.Machine.LimitChange
import Gantry.Proofs.Settings.AllOrNothing
import Gantry.Proofs.Settings.BlobExchange

/-!
# Exchange of settings in JSON

The settings text of a machine holds each limit as a decimal. Every machine accepts it and has the
limits that are read from it. Reading is not exact: a limit is reproduced where its decimal is
short, and may otherwise end up a few units in the last place away.
-/

namespace Gantry

open Json Number

/-- A number is written, and read as another one. -/
structure Reread (x y : Float) : Prop where
  read : (Literal.ofFloat x).toFloat? = some y
  close : Literal.CloseTo y x
  short : (shortest (Dyadic.ofFloat x) .even).Short → y = x

structure Limits.Reread (l k : Limits Float) : Prop where
  maxSpeed : Gantry.Reread l.maxSpeed k.maxSpeed
  maxAcc : Gantry.Reread l.maxAcc k.maxAcc

theorem exists_reread {x : Float} (hx : Scalar.isPositive x = true) : ∃ y, Reread x y := by
  obtain ⟨y, hy, hclose⟩ := Literal.exists_closeTo hx
  refine ⟨y, hy, hclose, fun hshort => ?_⟩
  have hsame := Literal.toFloat?_ofFloat hx hshort
  rw [hy] at hsame
  exact Option.some.inj hsame

structure Limits.Positive (l : Limits Float) : Prop where
  maxSpeed : Scalar.isPositive l.maxSpeed = true
  maxAcc : Scalar.isPositive l.maxAcc = true

theorem Limits.Positive.exists_reread {l : Limits Float} (h : l.Positive) : ∃ k, l.Reread k := by
  obtain ⟨v, hv⟩ := Gantry.exists_reread h.maxSpeed
  obtain ⟨a, ha⟩ := Gantry.exists_reread h.maxAcc
  exact ⟨⟨v, a⟩, hv, ha⟩

theorem Limits.Reread.positive {l k : Limits Float} (h : l.Reread k) : k.Positive :=
  ⟨h.maxSpeed.close.isPositive, h.maxAcc.close.isPositive⟩

theorem ofFloat_of_isPositive {x : Float} (hx : Scalar.isPositive x = true) :
    Json.ofFloat x = .number (Literal.ofFloat x) :=
  if_pos (isPositive_iff.mp hx).1

namespace LimitChange

variable {l k : Limits Float}

theorem toJson_ofLimits (l : Limits Float) : (LimitChange.ofLimits l).toJson =
    Json.ofFields [(LimitField.maxSpeed.name, Json.ofFloat l.maxSpeed),
      (LimitField.maxAcc.name, Json.ofFloat l.maxAcc)] := rfl

theorem wellFormed_toJson (l : Limits Float) :
    Json.WellFormed (LimitChange.ofLimits l).toJson := by
  rw [toJson_ofLimits]
  apply wellFormed_ofFields
  intro f hf
  rcases List.mem_pair.mp hf with rfl | rfl
  · exact wellFormed_ofFloat l.maxSpeed
  · exact wellFormed_ofFloat l.maxAcc

theorem ofJson?_toJson (hl : l.Positive) (h : l.Reread k) :
    ofJson? Literal.toFloat? (LimitChange.ofLimits l).toJson = some (.ofLimits k) := by
  have hrecord : record? fields (LimitChange.ofLimits l).toJson =
      some [(LimitField.maxSpeed.name, Json.ofFloat l.maxSpeed),
        (LimitField.maxAcc.name, Json.ofFloat l.maxAcc)] :=
    record?_ofFields [LimitField.maxSpeed.name, LimitField.maxAcc.name] rfl (by decide) (by decide)
      (by decide)
  rw [ofFloat_of_isPositive hl.maxSpeed, ofFloat_of_isPositive hl.maxAcc] at hrecord
  have hspeed : Record.getOption? [(LimitField.maxSpeed.name, .number (Literal.ofFloat l.maxSpeed)),
      (LimitField.maxAcc.name, .number (Literal.ofFloat l.maxAcc))]
      (toFloat? Literal.toFloat?) LimitField.maxSpeed.name =
      ((Literal.ofFloat l.maxSpeed).toFloat?).map some := rfl
  have hacc : Record.getOption? [(LimitField.maxSpeed.name, .number (Literal.ofFloat l.maxSpeed)),
      (LimitField.maxAcc.name, .number (Literal.ofFloat l.maxAcc))]
      (toFloat? Literal.toFloat?) LimitField.maxAcc.name =
      ((Literal.ofFloat l.maxAcc).toFloat?).map some := rfl
  rw [ofJson?, hrecord]
  simp only [bind, Option.bind, hspeed, hacc, h.maxSpeed.read, h.maxAcc.read, Option.map_some]
  rfl

end LimitChange

namespace Settings

variable {doc : AxisId → Json}

theorem record?_sections (doc : AxisId → Json) :
    record? sections (Json.ofFields (AxisId.all.map fun i => (i.settingsKey, doc i))) =
      some (AxisId.all.map fun i => (i.settingsKey, doc i)) :=
  record?_ofFields (AxisId.all.map AxisId.settingsKey) rfl (by decide) (by decide) (by decide)

theorem lookup_sections (doc : AxisId → Json) (i : AxisId) :
    (AxisId.all.map fun i => (i.settingsKey, doc i)).lookup i.settingsKey = some (doc i) := by
  cases i <;> rfl

end Settings

namespace Machine

variable {m n o : Machine Float} {read : AxisId → Limits Float}

theorem toJson_settings (m : Machine Float) : Settings.toJson m.settings =
    Json.ofFields (AxisId.all.map fun i =>
      (i.settingsKey, (LimitChange.ofLimits (m.axis i).limits).toJson)) := rfl

theorem ofText?_settingsText (hm : ∀ i, (m.axis i).limits.Positive)
    (hread : ∀ i, (m.axis i).limits.Reread (read i)) :
    Settings.ofText? m.settingsText = some (PerAxis.ofFn fun i => some (.ofLimits (read i))) := by
  have hwellFormed : Json.WellFormed (Settings.toJson m.settings) := by
    rw [toJson_settings]
    apply wellFormed_ofFields
    intro f hf
    obtain ⟨i, -, rfl⟩ := List.mem_map.mp hf
    exact LimitChange.wellFormed_toJson _
  have hsection (i : AxisId) : Record.getOption?
      (AxisId.all.map fun i => (i.settingsKey, (LimitChange.ofLimits (m.axis i).limits).toJson))
      (LimitChange.ofJson? Literal.toFloat?) i.settingsKey = some (some (.ofLimits (read i))) := by
    rw [Record.getOption?, Settings.lookup_sections]
    show (LimitChange.ofJson? Literal.toFloat? _).map some = _
    rw [LimitChange.ofJson?_toJson (hm i) (hread i)]
    rfl
  rw [Settings.ofText?, settingsText, ofText?_toText hwellFormed, Option.bind_some,
    toJson_settings, Settings.ofJson?, Settings.record?_sections]
  simp only [bind, Option.bind, hsection]
  rfl

theorem applyText_of_reread (n : Machine Float) (hm : ∀ i, (m.axis i).limits.Positive)
    (hread : ∀ i, (m.axis i).limits.Reread (read i)) :
    ∃ o, n.applyText m.settingsText = .ok o ∧ ∀ i, (o.axis i).limits = read i := by
  have happly : n.applyText m.settingsText =
      n.applyLimits (AxisId.all.map fun i => (i, read i)) := by
    rw [applyText, ofText?_settingsText hm hread]
    rfl
  have hcheck : ∀ u ∈ AxisId.all.map fun i => (i, read i), checkLimits u.1 u.2 = .ok () := by
    intro u hu
    obtain ⟨i, -, rfl⟩ := List.mem_map.mp hu
    exact checkLimits_eq_ok_iff.mpr ⟨(hread i).positive.maxSpeed, (hread i).positive.maxAcc⟩
  obtain ⟨o, ho⟩ : ∃ o, n.applyLimits (AxisId.all.map fun i => (i, read i)) = .ok o :=
    exists_applyLimits_iff.mpr hcheck
  exact ⟨o, happly.trans ho, limits_of_applyLimits ho⟩

/-- The settings text of a machine whose limits are all above zero is accepted by any machine, which
then has the limits that are read from it. -/
theorem exists_applyText (hm : ∀ i, (m.axis i).limits.Positive) (n : Machine Float) :
    ∃ o, n.applyText m.settingsText = .ok o ∧
      ∀ i, (m.axis i).limits.Reread (o.axis i).limits := by
  choose read hread using fun i => (hm i).exists_reread
  obtain ⟨o, ho, hlimits⟩ := applyText_of_reread n hm hread
  refine ⟨o, ho, fun i => ?_⟩
  rw [hlimits i]
  exact hread i

/-- The stock machine, once an axis was given limits with short decimals. -/
theorem exists_applyText_stock :
    let m := (ofConfig MachineConfig.stock).withLimits .x (⟨0.3, 2.1⟩ : Limits Float)
    (∀ i, (m.axis i).limits.Positive) ∧
      ∃ o, (ofConfig MachineConfig.stock).applyText m.settingsText = .ok o ∧
        ∀ i, (m.axis i).limits.Reread (o.axis i).limits := by
  intro m
  have hm (i : AxisId) : (m.axis i).limits.Positive := by
    cases i <;> exact ⟨by decide +kernel, by decide +kernel⟩
  exact ⟨hm, exists_applyText hm _⟩

/-- A limit of sixteen digits is read as its neighbour, by every machine. -/
theorem applyText_of_long_limit :
    let c : MachineConfig Float := { MachineConfig.stock with
      axes := MachineConfig.stock.axes.set .x
        { AxisConfig.stock .x with maxAcc := 9.040000000000001 } }
    c.validate = .ok () ∧ (∀ i, ((ofConfig c).axis i).limits.Positive) ∧
      ∀ n : Machine Float, ¬ ∃ o, n.applyText (ofConfig c).settingsText = .ok o ∧
        ∀ i, (o.axis i).limits = ((ofConfig c).axis i).limits := by
  intro c
  have hm (i : AxisId) : ((ofConfig c).axis i).limits.Positive := by
    cases i <;> exact ⟨by decide +kernel, by decide +kernel⟩
  refine ⟨by decide +kernel, hm, fun n h => ?_⟩
  obtain ⟨o, ho, hsame⟩ := h
  choose read hread using fun i => (hm i).exists_reread
  obtain ⟨p, hp, hlimits⟩ := applyText_of_reread n hm hread
  obtain rfl : o = p := Except.ok.inj (ho.symm.trans hp)
  have hnext : (Literal.ofFloat ((ofConfig c).axis .x).limits.maxAcc).toFloat? = some 9.04 := by
    decide +kernel
  have hx := (hread .x).maxAcc.read
  rw [← hlimits .x, hsame .x, hnext] at hx
  exact absurd (Option.some.inj hx) (by decide +kernel)

end Machine

end Gantry
