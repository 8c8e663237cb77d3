import Mathlib
import Gantry.Toml.Record

/-!
# Fields of a table

A record is read from a table by the names of its fields. What the table gives decides what is
read; the order of its entries and the way in which it came about do not matter.
-/

namespace Gantry.Toml

variable {es : Entries} {origin : Origin} {name : String}

abbrev Fields := List (String × (Toml → Prop))

/-- A table has these fields and no others, in any order. -/
def Gives (es : Entries) (fields : Fields) : Prop :=
  ∀ name, Option.Rel (fun v field => field v) (es.lookup name) (fields.lookup name)

variable {fields : Fields} {field : Toml → Prop} {β : Type} {decode : Toml → Option β} {x : β}

theorem gives_of_forall₂ (h : List.Forall₂ (fun e f => e.1 = f.1 ∧ f.2 e.2) es fields) :
    Gives es fields := by
  intro name
  induction h with
  | nil => exact .none
  | @cons e f es fields hef _ ih =>
    obtain ⟨k, v⟩ := e
    obtain ⟨l, field⟩ := f
    obtain ⟨rfl, hv⟩ : k = l ∧ field v := hef
    rw [List.lookup_cons, List.lookup_cons]
    cases name == k with
    | true => exact .some hv
    | false => exact ih

theorem Gives.record?_eq (h : Gives es fields) {known : List String}
    (hknown : fields.map Prod.fst ⊆ known) : record? known (.table origin es) = some es := by
  -- The table has no other names than the fields, so nothing is passed over.
  have hall : ∀ e ∈ es, known.contains e.1 = true := by
    intro e he
    have hname := h e.1
    cases hlookup : fields.lookup e.1 with
    | none =>
      rw [hlookup] at hname
      cases hes : es.lookup e.1 with
      | none => exact absurd rfl (bne_iff_ne.mp (List.lookup_eq_none_iff.mp hes e he))
      | some v =>
        rw [hes] at hname
        cases hname
    | some field =>
      obtain ⟨l₁, l₂, rfl, -⟩ := List.lookup_eq_some_iff.mp hlookup
      exact List.contains_iff_mem.mpr (hknown (by simp))
  have hread : (es.all fun e => known.contains e.1 || isReadable e.2) = true := by
    rw [List.all_eq_true]
    intro e he
    rw [hall e he, Bool.true_or]
  rw [record?, if_pos hread, List.filter_eq_self.mpr hall]

theorem Gives.get?_eq (h : Gives es fields) (hfield : fields.lookup name = some field)
    (hdecode : ∀ v, field v → decode v = some x) :
    Record.get? es decode name = some (some x) := by
  have hname := h name
  rw [hfield] at hname
  cases hes : es.lookup name with
  | none =>
    rw [hes] at hname
    cases hname
  | some v =>
    rw [hes] at hname
    cases hname with
    | some hv =>
      rw [Record.get?, hes]
      simp only [hdecode v hv, Option.map_some]

theorem Gives.get?_missing (h : Gives es fields) (hfield : fields.lookup name = none) :
    Record.get? es decode name = some none := by
  have hname := h name
  rw [hfield] at hname
  cases hes : es.lookup name with
  | none => rw [Record.get?, hes]
  | some v =>
    rw [hes] at hname
    cases hname

theorem Gives.getD?_eq (h : Gives es fields) (hfield : fields.lookup name = some field)
    (hdecode : ∀ v, field v → decode v = some x) (default : β) :
    Record.getD? es decode name default = some x := by
  rw [Record.getD?, h.get?_eq hfield hdecode]
  rfl

theorem Gives.getD?_missing (h : Gives es fields) (hfield : fields.lookup name = none)
    (default : β) : Record.getD? es decode name default = some default := by
  rw [Record.getD?, h.get?_missing hfield]
  rfl

end Gantry.Toml
