import Mathlib
import Gantry.Proofs.Toml.Writing

/-!
# Sections of a document

Numbers by name, and sections of numbers by name, are written as a document and read as tables.
The header in force marks a place in the tables of the document; what comes under it is added at
that place and changes nothing else.

This does NOT cover names that come twice, which are refused.
-/

namespace Gantry.Toml

variable {es inner : Entries} {key name : String} {v w : Toml} {path location : List String}
  {plug : Entries → Entries}

abbrev names (es : Entries) : List String :=
  es.map Prod.fst

theorem find?_eq_none (h : key ∉ names es) : find? key es = none := by
  rw [find?, List.lookup_eq_none_iff]
  intro e he
  rw [bne_iff_ne]
  rintro rfl
  exact h (List.mem_map_of_mem he)

theorem find?_append (h : key ∉ names es) : find? key (es ++ [(key, v)]) = some v := by
  have hnone := find?_eq_none h
  rw [find?] at hnone ⊢
  rw [List.lookup_append, hnone, Option.none_or, List.lookup_cons_self]

theorem replace_append (h : key ∉ names es) :
    replace key w (es ++ [(key, v)]) = es ++ [(key, w)] := by
  induction es with
  | nil => exact if_pos rfl
  | cons e es ih =>
    obtain ⟨hne, hes⟩ := not_or.mp (mt List.mem_cons.mpr h)
    rw [List.cons_append, replace, if_neg (Ne.symm hne), ih hes]
    rfl

/-- What is changed under the header is what the place holds, and nothing around it. -/
def Place (path : List String) (plug : Entries → Entries) : Prop :=
  ∀ f inner, changeAt? f path (plug inner) = (f inner).map plug

theorem place_root : Place [] id := by
  intro f inner
  rw [Option.map_id, changeAt?]
  rfl

theorem changeAt?_append (f : Entries → Option Entries) (p q : List String) :
    changeAt? f (p ++ q) = changeAt? (changeAt? f q) p := by
  induction p with
  | nil => rfl
  | cons k p ih =>
    funext es
    rw [List.cons_append, changeAt?, changeAt?, ih]

/-- The place of a table that was opened last. -/
theorem Place.opened (h : Place path plug) (es : Entries) (hkey : key ∉ names es) :
    Place (path ++ [key]) fun inner => plug (es ++ [(key, .table .header inner)]) := by
  intro f inner
  rw [changeAt?_append, h]
  have hchange : changeAt? f [key] (es ++ [(key, .table .header inner)]) =
      (f inner).map fun inner => es ++ [(key, .table .header inner)] := by
    rw [changeAt?, find?_append hkey]
    simp only [bind, Option.bind, replace_append hkey, changeAt?]
    cases f inner <;> rfl
  rw [hchange, Option.map_map]
  rfl

theorem Place.add_entry (h : Place path plug) (hname : name ∉ names inner) (v : Toml) :
    Draft.add? ⟨path, plug inner⟩ (.entry ⟨[], name⟩ v) =
      some ⟨path, plug (inner ++ [(name, v)])⟩ := by
  have hinsert : insertAt? [] name v inner = some (inner ++ [(name, v)]) := by
    show insert? name v inner = _
    rw [insert?, find?_eq_none hname]
    rfl
  rw [Draft.add?]
  simp only
  rw [h, hinsert]
  rfl

theorem Place.add_header (h : Place path plug) (location : List String) (es : Entries)
    (hkey : key ∉ names es) :
    Draft.add? ⟨location, plug es⟩ (.header ⟨path, key⟩) =
      some ⟨path ++ [key], plug (es ++ [(key, .table .header [])])⟩ := by
  have hopen : openTable? key es = some (es ++ [(key, .table .header [])]) := by
    rw [openTable?, find?_eq_none hkey]
    rfl
  rw [Draft.add?]
  simp only
  rw [h, hopen]
  rfl

abbrev Numbers := List (String × Float)

/-- Numbers by name, and sections of numbers by name. -/
structure Outline where
  numbers : Numbers
  sections : List (String × Numbers)

/-- Names are bare and different from each other, and numbers are finite. -/
structure Numbers.WellFormed (fields : Numbers) : Prop where
  bare : ∀ f ∈ fields, Bare f.1
  nodup : (fields.map Prod.fst).Nodup
  finite : ∀ f ∈ fields, f.2.isFinite = true

namespace Numbers

def lines (fields : Numbers) : List Line :=
  fields.map fun f => .entry f.1 f.2

def entries (fields : Numbers) : Entries :=
  fields.map fun f => (f.1, .float (some f.2))

theorem names_entries (fields : Numbers) : names fields.entries = fields.map Prod.fst := by
  unfold names entries
  rw [List.map_map]
  rfl

theorem WellFormed.of_sublist {numbers : Numbers} {known : List String}
    (hknown : (numbers.map Prod.fst).Sublist known) (hbare : ∀ name ∈ known, Bare name)
    (hnodup : known.Nodup) (hfinite : ∀ f ∈ numbers, f.2.isFinite = true) : numbers.WellFormed :=
  ⟨fun _ hf => hbare _ (hknown.subset (List.mem_map_of_mem hf)), hnodup.sublist hknown, hfinite⟩

theorem WellFormed.lines {fields : Numbers} (h : fields.WellFormed) :
    ∀ l ∈ fields.lines, l.WellFormed := by
  intro l hl
  obtain ⟨f, hf, rfl⟩ := List.mem_map.mp hl
  exact .entry (h.bare f hf) (h.finite f hf)

end Numbers

namespace Outline

def names (o : Outline) : List String :=
  o.numbers.map Prod.fst ++ o.sections.map Prod.fst

structure WellFormed (o : Outline) : Prop where
  numbers : o.numbers.WellFormed
  sections : ∀ s ∈ o.sections, Bare s.1 ∧ s.2.WellFormed
  nodup : o.names.Nodup

def sectionLines (path : List String) (s : String × Numbers) : List Line :=
  .blank :: .header ⟨path, s.1⟩ :: s.2.lines

def lines (path : List String) (o : Outline) : List Line :=
  o.numbers.lines ++ o.sections.flatMap (sectionLines path)

def entries (o : Outline) : Entries :=
  o.numbers.entries ++ o.sections.map fun s => (s.1, .table .header s.2.entries)

end Outline

def Builds (lines : List Line) (d d' : Draft) : Prop :=
  (lines.filterMap Line.statement?).foldlM Draft.add? d = some d'

section Building

variable {l : Line} {lines more : List Line} {st : Statement} {d d₁ d₂ : Draft}

theorem Builds.nil : Builds [] d d := rfl

theorem Builds.blank (h : Builds lines d d₁) : Builds (.blank :: lines) d d₁ := h

theorem Builds.cons (hst : l.statement? = some st) (hadd : d.add? st = some d₁)
    (h : Builds lines d₁ d₂) : Builds (l :: lines) d d₂ := by
  unfold Builds
  rw [List.filterMap_cons_some hst, List.foldlM_cons, hadd]
  exact h

theorem Builds.append (h : Builds lines d d₁) (hmore : Builds more d₁ d₂) :
    Builds (lines ++ more) d d₂ := by
  unfold Builds
  rw [List.filterMap_append, List.foldlM_append, h]
  exact hmore

theorem Builds.ofText?_eq (h : Builds lines ⟨[], []⟩ d) (hlines : ∀ l ∈ lines, l.WellFormed) :
    ofText? (String.ofList (textOf lines)) = some (.table .header d.entries) := by
  rw [ofText?_textOf hlines, h]
  rfl

end Building

variable {o : Outline}

theorem Place.builds_numbers (h : Place path plug) (inner : Entries) (fields : Numbers)
    (hnodup : (names inner ++ fields.map Prod.fst).Nodup) :
    Builds fields.lines ⟨path, plug inner⟩ ⟨path, plug (inner ++ fields.entries)⟩ := by
  induction fields generalizing inner with
  | nil =>
    have hnone : inner ++ Numbers.entries [] = inner := List.append_nil inner
    rw [hnone]
    exact .nil
  | cons f fields ih =>
    have hname : f.1 ∉ names inner := by
      intro hmem
      exact List.disjoint_of_nodup_append hnodup hmem List.mem_cons_self
    have hrest : (names (inner ++ [(f.1, .float (some f.2))]) ++ fields.map Prod.fst).Nodup := by
      rw [names, List.map_append, List.append_assoc]
      exact hnodup
    have hfields := ih _ hrest
    rw [List.append_assoc] at hfields
    exact .cons rfl (h.add_entry hname (.float (some f.2))) hfields

theorem Place.builds_sections (h : Place path plug) (location : List String) (es : Entries)
    (sections : List (String × Numbers))
    (hnodup : (names es ++ sections.map Prod.fst).Nodup)
    (hsections : ∀ s ∈ sections, (s.2.map Prod.fst).Nodup) :
    ∃ last, Builds (sections.flatMap (Outline.sectionLines path)) ⟨location, plug es⟩
      ⟨last, plug (es ++ sections.map fun s => (s.1, .table .header s.2.entries))⟩ := by
  induction sections generalizing es location with
  | nil =>
    refine ⟨location, ?_⟩
    rw [List.map_nil, List.append_nil]
    exact .nil
  | cons s sections ih =>
    have hkey : s.1 ∉ names es := by
      intro hmem
      exact List.disjoint_of_nodup_append hnodup hmem List.mem_cons_self
    have hrest : (names (es ++ [(s.1, .table .header s.2.entries)]) ++
        sections.map Prod.fst).Nodup := by
      rw [names, List.map_append, List.append_assoc]
      exact hnodup
    have hfields := (h.opened es hkey).builds_numbers [] s.2 (hsections s List.mem_cons_self)
    -- A header names its place in full, so it does not matter where the entries before it went.
    have hsection : Builds (Outline.sectionLines path s) ⟨location, plug es⟩
        ⟨path ++ [s.1], plug (es ++ [(s.1, .table .header s.2.entries)])⟩ :=
      .blank (.cons rfl (h.add_header location es hkey) hfields)
    obtain ⟨last, hlast⟩ := ih (path ++ [s.1]) _ hrest
      fun t ht => hsections t (List.mem_cons_of_mem _ ht)
    rw [List.append_assoc] at hlast
    exact ⟨last, hsection.append hlast⟩

theorem Place.builds_outline (h : Place path plug) (ho : o.WellFormed) :
    ∃ last, Builds (o.lines path) ⟨path, plug []⟩ ⟨last, plug o.entries⟩ := by
  have hnumbers := h.builds_numbers [] o.numbers ho.numbers.nodup
  have hnodup : (names o.numbers.entries ++ o.sections.map Prod.fst).Nodup := by
    rw [Numbers.names_entries]
    exact ho.nodup
  obtain ⟨last, hsections⟩ := h.builds_sections path o.numbers.entries o.sections hnodup
    fun s hs => (ho.sections s hs).2.nodup
  exact ⟨last, hnumbers.append hsections⟩

theorem Outline.WellFormed.lines (ho : o.WellFormed) (hpath : ∀ part ∈ path, Bare part) :
    ∀ l ∈ o.lines path, l.WellFormed := by
  intro l hl
  rcases List.mem_append.mp hl with hl | hl
  · exact ho.numbers.lines l hl
  · obtain ⟨s, hs, hl⟩ := List.mem_flatMap.mp hl
    obtain ⟨hbare, hfields⟩ := ho.sections s hs
    rcases List.mem_cons.mp hl with rfl | hl
    · exact .blank
    · rcases List.mem_cons.mp hl with rfl | hl
      · refine .header fun part hpart => ?_
        rcases List.mem_append.mp hpart with hpart | hpart
        · exact hpath part hpart
        · rw [List.mem_singleton.mp hpart]
          exact hbare
      · exact hfields.lines l hl

theorem ofText?_outline (ho : o.WellFormed) :
    ofText? (String.ofList (textOf (o.lines []))) = some (.table .header o.entries) := by
  obtain ⟨last, hbuild⟩ := place_root.builds_outline ho
  exact hbuild.ofText?_eq (ho.lines fun _ hpart => absurd hpart List.not_mem_nil)

theorem ofText?_section (hkey : Bare key) (ho : o.WellFormed) :
    ofText? (String.ofList (textOf (.header ⟨[], key⟩ :: o.lines [key]))) =
      some (.table .header [(key, .table .header o.entries)]) := by
  have hlines : ∀ l ∈ .header ⟨[], key⟩ :: o.lines [key], l.WellFormed := by
    intro l hl
    rcases List.mem_cons.mp hl with rfl | hl
    · exact .header (by simpa using hkey)
    · exact ho.lines (by simpa using hkey) l hl
  have hnew : key ∉ names [] := List.not_mem_nil
  obtain ⟨last, hbuild⟩ := (place_root.opened [] hnew).builds_outline ho
  have hall : Builds (.header ⟨[], key⟩ :: o.lines [key]) ⟨[], []⟩
      ⟨last, [(key, .table .header o.entries)]⟩ :=
    .cons rfl (place_root.add_header [] [] hnew) hbuild
  exact hall.ofText?_eq hlines

end Gantry.Toml
