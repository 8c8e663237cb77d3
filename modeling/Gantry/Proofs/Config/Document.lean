import Mathlib
import Gantry.Config.Document
import Gantry.Proofs.Toml.Fields
import Gantry.Proofs.Toml.Sections

/-!
# Machines as configuration files

A machine is written as a document that spells out its fields, each number with its shortest
digits, and the bound of an integral only where there is one. Any document that gives the same
fields, in whatever order and by whatever kind of table, loads as the same machine, but for a
bound that it does not give: that one is the bound of the stock heater.

This does NOT cover tables that are written as arrays.
-/

namespace Gantry

open Toml (Bare Entries Fields Gives Line Numbers Outline Origin Record)

variable {es : Entries} {origin : Origin} {name : String}

namespace Toml

def Numbers.fields (numbers : Numbers) : Fields :=
  numbers.map fun f => (f.1, fun v => number? v = some f.2)

def Numbers.Spelled (numbers : Numbers) (v : Toml) : Prop :=
  ∃ origin es, v = .table origin es ∧ Gives es numbers.fields

def Outline.fields (o : Outline) : Fields :=
  o.numbers.fields ++ o.sections.map fun s => (s.1, s.2.Spelled)

def Outline.Spelled (o : Outline) (v : Toml) : Prop :=
  ∃ origin es, v = .table origin es ∧ Gives es o.fields

theorem Numbers.names_fields (numbers : Numbers) :
    numbers.fields.map Prod.fst = numbers.map Prod.fst := by
  unfold Numbers.fields
  rw [List.map_map]
  rfl

theorem Outline.names_fields (o : Outline) : o.fields.map Prod.fst = o.names := by
  unfold Outline.fields Outline.names
  rw [List.map_append, Numbers.names_fields, List.map_map]
  rfl

theorem Numbers.forall₂_entries (numbers : Numbers) :
    List.Forall₂ (fun e f => e.1 = f.1 ∧ f.2 e.2) numbers.entries numbers.fields := by
  unfold Numbers.entries Numbers.fields
  rw [List.forall₂_map_left_iff, List.forall₂_map_right_iff, List.forall₂_same]
  intro f _
  exact ⟨rfl, rfl⟩

theorem Numbers.spelled_entries (numbers : Numbers) (origin : Origin) :
    numbers.Spelled (.table origin numbers.entries) :=
  ⟨origin, numbers.entries, rfl, gives_of_forall₂ numbers.forall₂_entries⟩

theorem Outline.spelled_entries (o : Outline) (origin : Origin) :
    o.Spelled (.table origin o.entries) := by
  refine ⟨origin, o.entries, rfl, gives_of_forall₂ ?_⟩
  refine List.rel_append o.numbers.forall₂_entries ?_
  rw [List.forall₂_map_left_iff, List.forall₂_map_right_iff, List.forall₂_same]
  intro s _
  exact ⟨rfl, s.2.spelled_entries .header⟩

theorem Numbers.lookup_fields (numbers : Numbers) (name : String) :
    numbers.fields.lookup name = (numbers.lookup name).map fun x v => number? v = some x := by
  unfold Numbers.fields
  induction numbers with
  | nil => rfl
  | cons f numbers ih =>
    rw [List.map_cons, List.lookup_cons, List.lookup_cons]
    cases name == f.1 with
    | true => rfl
    | false => exact ih

theorem Gives.numbers_record? {numbers : Numbers} (h : Gives es numbers.fields)
    {known : List String} (hknown : (numbers.map Prod.fst).Sublist known) :
    record? known (.table origin es) = some es := by
  refine h.record?_eq ?_
  rw [numbers.names_fields]
  exact hknown.subset

theorem Gives.number {numbers : Numbers} (h : Gives es numbers.fields) (name : String) {x : Float}
    (hx : numbers.lookup name = some x) (default : Float) :
    Record.getD? es number? name default = some x := by
  have hfield := numbers.lookup_fields name
  rw [hx] at hfield
  exact h.getD?_eq hfield (fun _ hv => hv) default

end Toml

namespace AxisConfig

def numbers (c : AxisConfig Float) : Numbers :=
  [("min_pos", c.minPos), ("max_pos", c.maxPos), ("max_speed", c.maxSpeed), ("max_acc", c.maxAcc),
    ("mass", c.mass), ("friction", c.friction)]

theorem over?_of_gives {c : AxisConfig Float} (h : Gives es c.numbers.fields)
    (base : AxisConfig Float) : base.over? (.table origin es) = some c := by
  unfold over?
  rw [h.numbers_record? (List.Sublist.refl AxisConfig.fields)]
  simp only [bind, Option.bind]
  rw [h.number "min_pos" rfl, h.number "max_pos" rfl, h.number "max_speed" rfl,
    h.number "max_acc" rfl, h.number "mass" rfl,
    h.number "friction" rfl]
  rfl

end AxisConfig

namespace HeaterConfig

def numbers (c : HeaterConfig Float) : Numbers :=
  [("mass", c.mass), ("surface", c.surface), ("h_power", c.hPower), ("c_heat", c.cHeat),
    ("k_heat", c.kHeat), ("kp", c.kp), ("ki", c.ki)]
    ++ (c.windUp.map fun x => ("wind_up", x)).toList
    ++ [("settle_window", c.settleWindow), ("settle_time", c.settleTime)]

theorem names_numbers (c : HeaterConfig Float) : c.numbers.map Prod.fst =
    HeaterConfig.fields.filter fun name => name != "wind_up" || c.windUp.isSome := by
  unfold numbers
  cases c.windUp <;> rfl

theorem names_sublist (c : HeaterConfig Float) :
    (c.numbers.map Prod.fst).Sublist HeaterConfig.fields := by
  rw [names_numbers]
  exact List.filter_sublist

/-- The heater with the bound of another where it has none. -/
def withBound (base c : HeaterConfig Float) : HeaterConfig Float :=
  { c with windUp := c.windUp.or base.windUp }

theorem over?_of_gives {c : HeaterConfig Float} (h : Gives es c.numbers.fields)
    (base : HeaterConfig Float) : base.over? (.table origin es) = some (withBound base c) := by
  have hbound : Record.get? es number? "wind_up" = some c.windUp := by
    have hlookup := c.numbers.lookup_fields "wind_up"
    cases hw : c.windUp with
    | none =>
      have hnone : c.numbers.lookup "wind_up" = none := by
        unfold numbers
        rw [hw]
        rfl
      rw [hnone] at hlookup
      exact h.get?_missing hlookup
    | some x =>
      have hsome : c.numbers.lookup "wind_up" = some x := by
        unfold numbers
        rw [hw]
        rfl
      rw [hsome] at hlookup
      exact h.get?_eq hlookup fun _ hv => hv
  have hwindow : c.numbers.lookup "settle_window" = some c.settleWindow := by
    unfold numbers
    cases c.windUp <;> rfl
  have htime : c.numbers.lookup "settle_time" = some c.settleTime := by
    unfold numbers
    cases c.windUp <;> rfl
  unfold over?
  rw [h.numbers_record? c.names_sublist]
  simp only [bind, Option.bind]
  rw [h.number "mass" rfl, h.number "surface" rfl,
    h.number "h_power" rfl, h.number "c_heat" rfl,
    h.number "k_heat" rfl, h.number "kp" rfl, h.number "ki" rfl,
    hbound, h.number _ hwindow, h.number _ htime]
  rfl

end HeaterConfig

namespace MachineConfig

variable {c : MachineConfig Float} {v : Toml}

def outline (c : MachineConfig Float) : Outline where
  numbers := [("env_temp", c.envTemp), ("default_speed", c.defaultSpeed)]
  sections := (AxisId.all.map fun i => (i.name, (c.axes.get i).numbers))
    ++ HeaterId.all.map fun h => (h.name, (c.heaters.get h).numbers)

structure Finite (c : MachineConfig Float) : Prop where
  numbers : ∀ f ∈ c.outline.numbers, f.2.isFinite = true
  sections : ∀ s ∈ c.outline.sections, ∀ f ∈ s.2, f.2.isFinite = true

/-- The machine with the bounds of the stock heaters where its own heaters have none. -/
def withBounds (c : MachineConfig Float) : MachineConfig Float :=
  { c with
    heaters := .ofFn fun h => HeaterConfig.withBound (HeaterConfig.stock h) (c.heaters.get h) }

theorem lookup_axis (c : MachineConfig Float) (i : AxisId) :
    c.outline.fields.lookup i.name = some (c.axes.get i).numbers.Spelled := by
  cases i <;> rfl

theorem lookup_heater (c : MachineConfig Float) (h : HeaterId) :
    c.outline.fields.lookup h.name = some (c.heaters.get h).numbers.Spelled := by
  cases h <;> rfl

theorem ofToml?_of_spelled (h : c.outline.Spelled v) : ofToml? v = some c.withBounds := by
  obtain ⟨origin, es, rfl, h⟩ := h
  have hrecord : Toml.record? MachineConfig.fields (.table origin es) = some es := by
    refine h.record?_eq ?_
    rw [c.outline.names_fields]
    exact List.Subset.refl MachineConfig.fields
  have hnumber {name : String} {x : Float} (default : Float)
      (hx : c.outline.fields.lookup name = some fun v => number? v = some x) :
      Record.getD? es number? name default = some x :=
    h.getD?_eq hx (fun _ hv => hv) default
  have haxis (i : AxisId) (base : AxisConfig Float) :
      Record.getD? es base.over? i.name base = some (c.axes.get i) := by
    refine h.getD?_eq (c.lookup_axis i) ?_ base
    rintro - ⟨origin, es, rfl, haxis⟩
    exact AxisConfig.over?_of_gives haxis base
  have hheater (i : HeaterId) (base : HeaterConfig Float) :
      Record.getD? es base.over? i.name base =
        some (HeaterConfig.withBound base (c.heaters.get i)) := by
    refine h.getD?_eq (c.lookup_heater i) ?_ base
    rintro - ⟨origin, es, rfl, hheater⟩
    exact HeaterConfig.over?_of_gives hheater base
  unfold ofToml?
  rw [hrecord]
  simp only [bind, Option.bind]
  rw [hnumber (x := c.envTemp) _ rfl, hnumber (x := c.defaultSpeed) _ rfl, haxis, haxis, haxis,
    haxis, hheater, hheater]
  rfl

/-- Only a bound that is missing comes back as another. -/
theorem withBounds_eq_self_iff :
    c.withBounds = c ↔ ∀ h, (c.heaters.get h).windUp.isSome = true := by
  have hget (h : HeaterId) : c.withBounds.heaters.get h =
      HeaterConfig.withBound (HeaterConfig.stock h) (c.heaters.get h) :=
    PerHeater.get_ofFn _ h
  constructor
  · intro heq h
    have hheater := hget h
    rw [heq] at hheater
    have hbound := congrArg HeaterConfig.windUp hheater
    cases hw : (c.heaters.get h).windUp with
    | some x => rfl
    | none =>
      have hstock : (HeaterConfig.withBound (HeaterConfig.stock h) (c.heaters.get h)).windUp =
          (HeaterConfig.stock h).windUp := by
        unfold HeaterConfig.withBound
        rw [hw]
        rfl
      rw [hw, hstock] at hbound
      cases h <;> cases hbound
  · intro hsome
    have hkeep (h : HeaterId) :
        HeaterConfig.withBound (HeaterConfig.stock h) (c.heaters.get h) = c.heaters.get h := by
      obtain ⟨x, hx⟩ := Option.isSome_iff_exists.mp (hsome h)
      unfold HeaterConfig.withBound
      rw [hx, Option.some_or, ← hx]
    show { c with heaters := ⟨HeaterConfig.withBound _ (c.heaters.get .nozzle),
      HeaterConfig.withBound _ (c.heaters.get .plate)⟩ } = c
    rw [hkeep .nozzle, hkeep .plate]
    rfl

theorem Finite.wellFormed (h : c.Finite) : c.outline.WellFormed := by
  obtain ⟨hnumbers, hsections⟩ := h
  have hbare : ∀ name ∈ MachineConfig.fields, Bare name := by decide
  have hknown : (c.outline.numbers.map Prod.fst).Sublist MachineConfig.fields :=
    List.sublist_append_left _ (c.outline.sections.map Prod.fst)
  refine ⟨.of_sublist hknown hbare (by decide) hnumbers, fun s hs => ⟨?_, ?_⟩, ?_⟩
  · exact hbare s.1
      (List.mem_append_right (c.outline.numbers.map Prod.fst) (List.mem_map_of_mem hs))
  · have hfinite := hsections s hs
    rcases List.mem_append.mp hs with hs | hs
    · obtain ⟨i, -, rfl⟩ := List.mem_map.mp hs
      exact .of_sublist (List.Sublist.refl AxisConfig.fields) (by decide) (by decide) hfinite
    · obtain ⟨i, -, rfl⟩ := List.mem_map.mp hs
      exact .of_sublist (HeaterConfig.names_sublist _) (by decide) (by decide) hfinite
  · show MachineConfig.fields.Nodup
    decide

def document (c : MachineConfig Float) : String :=
  String.ofList (Toml.textOf (c.outline.lines []))

def sectionText (c : MachineConfig Float) : String :=
  String.ofList (Toml.textOf (.header ⟨[], "machine"⟩ :: c.outline.lines ["machine"]))

end MachineConfig

def File.ofText (text : String) : File :=
  .content text.toByteArray.data.toList

/-- The text is a document of these fields and no others. -/
def Toml.Document (text : String) (fields : Fields) : Prop :=
  ∃ origin es, Toml.ofText? text = some (.table origin es) ∧ Gives es fields

section Loading

variable {c : MachineConfig Float} {text : String} {fields : Fields} {β : Type}
  {decode : Toml → Option β} {x : β}

theorem File.text?_ofText (text : String) : (File.ofText text).text? = some text := by
  show String.fromUTF8? ⟨text.toByteArray.data.toList.toArray⟩ = some text
  rw [Array.toArray_toList, String.fromUTF8?, dif_pos text.isValidUTF8]
  rfl

theorem loadFile_of_document (h : Toml.Document text fields)
    (hdecode : ∀ {origin es}, Gives es fields → decode (.table origin es) = some x) :
    loadFile decode (.ofText text) = .ok x := by
  obtain ⟨origin, es, hread, hgives⟩ := h
  have htext := File.text?_ofText text
  unfold loadFile
  unfold File.ofText at *
  simp only [htext]
  rw [loadText, hread, Option.bind_some, hdecode hgives]

theorem SimConfig.ofToml?_of_gives (h : Gives es [("machine", c.outline.Spelled)]) :
    SimConfig.ofToml? (.table origin es) = some { stock with machine := c.withBounds } := by
  unfold SimConfig.ofToml?
  rw [h.record?_eq (show ["machine"] ⊆ SimConfig.fields by decide)]
  simp only [bind, Option.bind]
  rw [h.getD?_missing rfl, h.getD?_missing rfl,
    h.getD?_eq rfl fun _ hv => MachineConfig.ofToml?_of_spelled hv]
  rfl

theorem MachineConfig.Finite.document (h : c.Finite) :
    Toml.Document c.document c.outline.fields := by
  obtain ⟨origin, es, htable, hgives⟩ := c.outline.spelled_entries .header
  exact ⟨origin, es, (Toml.ofText?_outline h.wellFormed).trans (congrArg some htable), hgives⟩

theorem MachineConfig.Finite.sectionText (h : c.Finite) :
    Toml.Document c.sectionText [("machine", c.outline.Spelled)] := by
  refine ⟨.header, _, Toml.ofText?_section (by decide) h.wellFormed, Toml.gives_of_forall₂ ?_⟩
  exact .cons ⟨rfl, c.outline.spelled_entries .header⟩ .nil

/-- A machine of finite numbers is loaded from the file that it is written as, be it the section of
a simulator's file or a file of its own, and from every file that gives the same fields. It is the
same machine where each heater has a bound of its integral; a bound that the machine does not have,
and that no field gives therefore, is the stock one afterwards. -/
theorem MachineConfig.loaded_as_written (c : MachineConfig Float) (h : c.Finite) :
    loadFile SimConfig.ofToml? (.ofText c.sectionText) =
        .ok { SimConfig.stock with machine := c.withBounds } ∧
      loadFile MachineConfig.ofToml? (.ofText c.document) = .ok c.withBounds ∧
      (c.withBounds = c ↔ ∀ h, (c.heaters.get h).windUp.isSome = true) ∧
      (∀ text, Toml.Document text [("machine", c.outline.Spelled)] →
        loadFile SimConfig.ofToml? (.ofText text) =
          .ok { SimConfig.stock with machine := c.withBounds }) ∧
      ∀ text, Toml.Document text c.outline.fields →
        loadFile MachineConfig.ofToml? (.ofText text) = .ok c.withBounds := by
  have hsection (text : String) (hdoc : Toml.Document text [("machine", c.outline.Spelled)]) :
      loadFile SimConfig.ofToml? (.ofText text) =
        .ok { SimConfig.stock with machine := c.withBounds } :=
    loadFile_of_document hdoc SimConfig.ofToml?_of_gives
  have hdocument (text : String) (hdoc : Toml.Document text c.outline.fields) :
      loadFile MachineConfig.ofToml? (.ofText text) = .ok c.withBounds :=
    loadFile_of_document hdoc fun hgives =>
      MachineConfig.ofToml?_of_spelled ⟨_, _, rfl, hgives⟩
  exact ⟨hsection _ h.sectionText, hdocument _ h.document, c.withBounds_eq_self_iff, hsection,
    hdocument⟩

/-- The stock machine with numbers that are hard to write: a zero with a sign, and the least and the
largest of all. -/
def MachineConfig.extreme : MachineConfig Float :=
  { stock with
    envTemp := -0.0
    defaultSpeed := 5e-324
    axes := PerAxis.ofFn fun i => { AxisConfig.stock i with maxPos := 1.7976931348623157e308 } }

theorem MachineConfig.loaded_extreme : extreme.Finite ∧
    loadFile SimConfig.ofToml? (.ofText extreme.sectionText) =
      .ok { SimConfig.stock with machine := extreme } := by
  have hfinite : extreme.Finite := ⟨by decide +kernel, by decide +kernel⟩
  obtain ⟨hload, -, hsame, -⟩ := MachineConfig.loaded_as_written extreme hfinite
  have hextreme : extreme.withBounds = extreme := hsame.mpr fun h => by cases h <;> rfl
  rw [hextreme] at hload
  exact ⟨hfinite, hload⟩

/-- The stock machine, with no bound of the integral in its nozzle. -/
def MachineConfig.unboundedNozzle : MachineConfig Float :=
  { stock with heaters := ⟨{ HeaterConfig.stock .nozzle with windUp := none },
      HeaterConfig.stock .plate⟩ }

/-- The nozzle that has no bound of its integral has the stock one afterwards. -/
theorem MachineConfig.bound_comes_back : unboundedNozzle.Finite ∧
    loadFile SimConfig.ofToml? (.ofText unboundedNozzle.sectionText) = .ok SimConfig.stock ∧
      (SimConfig.stock : SimConfig Float).machine ≠ unboundedNozzle := by
  have hfinite : unboundedNozzle.Finite := ⟨by decide +kernel, by decide +kernel⟩
  refine ⟨hfinite, loadFile_of_document hfinite.sectionText SimConfig.ofToml?_of_gives,
    fun heq => ?_⟩
  have hbound := congrArg (fun c : MachineConfig Float => (c.heaters.get .nozzle).windUp) heq
  cases hbound

end Loading

end Gantry
