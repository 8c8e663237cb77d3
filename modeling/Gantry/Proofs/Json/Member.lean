import Mathlib
import Gantry.Proofs.Json.RoundTrip

/-!
# Fields of records

An object that holds every field of a record once is read as that record, and every record that is
read, from an object or from an array, has a value for each field that may not be missing.

This does NOT say whether the values are of the kind that is wanted.
-/

namespace Gantry.Json

variable {spec : List Field} {fields : List (String × Json)} {names : List String} {r : Record}
  {j : Json} {name : String} {β γ : Type} {decode : Json → Option β}

theorem wellFormed_ofOption {encode : β → Json} (h : ∀ b, WellFormed (encode b)) (w : Option β) :
    WellFormed (ofOption encode w) := by
  cases w with
  | none => exact .null
  | some b => exact h b

theorem toOption?_ofOption {encode : β → Json} {w : Option β} (hnull : decode .null = none)
    (h : ∀ b ∈ w, decode (encode b) = some b) :
    toOption? decode (ofOption encode w) = some w := by
  cases w with
  | none => rfl
  | some b =>
    have hb := h b rfl
    have hsome : ofOption encode (some b) = encode b := rfl
    rw [hsome]
    unfold toOption?
    split
    · rename_i heq
      rw [heq, hnull] at hb
      cases hb
    · rw [hb]
      rfl

theorem any_of_mem (h : name ∈ names) : names.any (· == name) = true :=
  List.any_eq_true.mpr ⟨name, h, beq_self_eq_true name⟩

theorem any_name_of_mem (h : name ∈ spec.map (·.name)) : spec.any (·.name == name) = true := by
  have hany := any_of_mem h
  rwa [List.any_map] at hany

theorem lookup_of_mem (hrepeat : noRepeat (r.map Prod.fst) = true) {f : String × Json}
    (hf : f ∈ r) : r.lookup f.1 = some f.2 := by
  induction r with
  | nil => cases hf
  | cons g r ih =>
    rw [List.map_cons, noRepeat, Bool.and_eq_true, Bool.not_eq_true'] at hrepeat
    obtain ⟨hfirst, hothers⟩ := hrepeat
    rcases List.mem_cons.mp hf with rfl | hf
    · exact List.lookup_cons_self
    · have hne : (f.1 == g.1) = false := by
        apply beq_false_of_ne
        intro heq
        rw [← heq, List.contains_eq_mem, decide_eq_false_iff_not] at hfirst
        exact hfirst (List.mem_map_of_mem hf)
      rw [List.lookup_cons, hne]
      exact ih hothers hf

theorem lookup_named {fields : List (Option String × Json)} {named : Record}
    (h : (fields.mapM fun (k, j) => k.map (·, j)) = some named) (name : String) :
    fields.lookup (some name) = named.lookup name := by
  induction fields generalizing named with
  | nil =>
    cases h
    rfl
  | cons f fields ih =>
    obtain ⟨k, v⟩ := f
    rw [List.mapM_cons] at h
    obtain ⟨g, hg, h⟩ := Option.bind_eq_some_iff.mp h
    obtain ⟨gs, hgs, h⟩ := Option.bind_eq_some_iff.mp h
    obtain ⟨k, rfl, rfl⟩ := Option.map_eq_some_iff.mp hg
    cases h
    rw [List.lookup_cons, List.lookup_cons, ih hgs]
    rfl

theorem lookup_filter {p : String × Json → Bool} (hp : ∀ v, p (name, v) = true) (r : Record) :
    (r.filter p).lookup name = r.lookup name := by
  induction r with
  | nil => rfl
  | cons f r ih =>
    rw [List.filter_cons, List.lookup_cons]
    cases hname : name == f.1 with
    | true =>
      have hf : p f = true := by
        have := hp f.2
        rwa [eq_of_beq hname] at this
      rw [if_pos hf, List.lookup_cons, hname]
    | false =>
      split
      · rw [List.lookup_cons, hname]
        exact ih
      · exact ih

theorem exists_lookup_zip {items : List Json} (hlength : names.length ≤ items.length)
    (hname : name ∈ names) : ∃ v, (names.zip items).lookup name = some v := by
  induction names generalizing items with
  | nil => cases hname
  | cons k names ih =>
    cases items with
    | nil => cases hlength
    | cons v items =>
      rw [List.zip_cons_cons, List.lookup_cons]
      cases hk : name == k with
      | true => exact ⟨v, rfl⟩
      | false =>
        have hne : name ≠ k := ne_of_beq_false hk
        have hmem : name ∈ names := (List.mem_cons.mp hname).resolve_left hne
        exact ih (Nat.le_of_succ_le_succ hlength) hmem

theorem getElem?_mapM {f : β → Option γ} {l : List β} {ys : List γ} (h : l.mapM f = some ys)
    (i : ℕ) : ys[i]? = (l[i]?).bind f := by
  induction l generalizing ys i with
  | nil =>
    cases h
    rfl
  | cons x l ih =>
    rw [List.mapM_cons] at h
    obtain ⟨y, hy, h⟩ := Option.bind_eq_some_iff.mp h
    obtain ⟨zs, hzs, h⟩ := Option.bind_eq_some_iff.mp h
    cases h
    cases i with
    | zero => exact hy.symm
    | succ i => exact ih hzs i

theorem mapM_encoded {encode : β → Json} {l : List β}
    (h : ∀ b ∈ l, decode (encode b) = some b) : (l.map encode).mapM decode = some l := by
  induction l with
  | nil => rfl
  | cons b l ih =>
    rw [List.map_cons, List.mapM_cons, h b List.mem_cons_self,
      ih fun c hc => h c (List.mem_cons_of_mem b hc)]
    rfl

theorem exists_record (spec : List Field) (hj : j = ofFields fields)
    (hnames : fields.map Prod.fst = spec.map (·.name))
    (hrepeat : noRepeat (spec.map (·.name)) = true) :
    ∃ r, record? spec j = some r ∧ ∀ f ∈ fields, List.lookup f.1 r = some f.2 := by
  subst hj
  refine ⟨fields, record?_ofFields _ hnames ?_ hrepeat ?_, fun f hf => ?_⟩
  · intro name hname
    exact any_name_of_mem hname
  · apply List.all_eq_true.mpr
    intro f hf
    rw [any_of_mem (List.mem_map_of_mem hf), Bool.or_true]
  · rw [← hnames] at hrepeat
    exact lookup_of_mem hrepeat hf

/-- The value of a field of a record, which is an object, or an array of its values in the order of
their names. -/
def member? (names : List String) (name : String) : Json → Option Json
  | .object fields => fields.lookup (some name)
  | .array items => (names.zip items).lookup name
  | _ => none

def item? (i : ℕ) : Json → Option Json
  | .array items => items[i]?
  | _ => none

theorem member?_of_record? (h : record? spec j = some r) (hname : name ∈ spec.map (·.name)) :
    j.member? (spec.map (·.name)) name = r.lookup name := by
  cases j with
  | object fields =>
    obtain ⟨known, hknown, h⟩ := Option.bind_eq_some_iff.mp h
    obtain ⟨named, hnamed, hknown⟩ := Option.bind_eq_some_iff.mp hknown
    have hkept (v : Json) : (spec.any (·.name == (name, v).1)) = true := any_name_of_mem hname
    simp only [Option.ite_none_right_eq_some, Option.some.injEq] at h hknown
    rw [← h.2, ← hknown.2, lookup_filter hkept]
    exact lookup_named hnamed name
  | array items =>
    unfold record? at h
    simp only [Option.ite_none_right_eq_some, Option.some.injEq] at h
    rw [← h.2]
    rfl
  | null => cases h
  | bool b => cases h
  | number l => cases h
  | text s => cases h

theorem exists_lookup (h : record? spec j = some r) (hf : ⟨name, .required⟩ ∈ spec)
    (hspec : ∀ f ∈ spec, f.presence ≠ .defaulted) : ∃ v, r.lookup name = some v := by
  cases j with
  | object fields =>
    obtain ⟨known, -, h⟩ := Option.bind_eq_some_iff.mp h
    simp only [Option.ite_none_right_eq_some, Option.some.injEq] at h
    obtain ⟨hall, rfl⟩ := h
    have hpresent : known.any (·.1 == name) = true := List.all_eq_true.mp hall _ hf
    obtain ⟨f, hf, hkey⟩ := List.any_eq_true.mp hpresent
    apply Option.isSome_iff_exists.mp
    exact List.lookup_isSome_iff.mpr ⟨f, hf, BEq.symm hkey⟩
  | array items =>
    unfold record? at h
    simp only [Option.ite_none_right_eq_some, Option.some.injEq] at h
    obtain ⟨⟨-, hdrop⟩, rfl⟩ := h
    -- Without defaults an array has all values, those included that an object may leave out.
    have hall : spec.length ≤ items.length := by
      apply List.drop_eq_nil_iff.mp
      apply List.eq_nil_iff_forall_not_mem.mpr
      intro f hf
      exact hspec f (List.mem_of_mem_drop hf) (eq_of_beq (List.all_eq_true.mp hdrop f hf))
    refine exists_lookup_zip ?_ (List.mem_map_of_mem hf)
    rwa [List.length_map]
  | null => cases h
  | bool b => cases h
  | number l => cases h
  | text s => cases h

/-- A record has a value for each field that may not be missing. -/
theorem exists_member? (h : record? spec j = some r) (hf : ⟨name, .required⟩ ∈ spec)
    (hspec : ∀ f ∈ spec, f.presence ≠ .defaulted) :
    ∃ v, j.member? (spec.map (·.name)) name = some v ∧ r.lookup name = some v := by
  obtain ⟨v, hv⟩ := exists_lookup h hf hspec
  exact ⟨v, (member?_of_record? h (List.mem_map_of_mem hf)).trans hv, hv⟩

end Gantry.Json
