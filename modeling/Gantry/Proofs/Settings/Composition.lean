import Mathlib
import Gantry.Proofs.Settings.BlobExchange

/-!
# Two settings documents in a row

An accepted document plans the axes that it names anew. The new plan does not show whether the old
one was made by an earlier document or not: it starts where the axis is, aims at the same target and
is asked for the same speed. So what two documents do one after the other, one document does that
has the fields of both.
-/

namespace Gantry

open Number

def LimitChange.followedBy (first second : LimitChange Float) : LimitChange Float :=
  ⟨second.maxSpeed.or first.maxSpeed, second.maxAcc.or first.maxAcc⟩

/-- The document that takes every field from the second document, and from the first one what the
second does not give. -/
def Settings.merged (first second : SettingsDocument Float) : SettingsDocument Float :=
  PerAxis.ofFn fun i => (first.get i).merge LimitChange.followedBy (second.get i)

/-- What the documents that a machine accepts make of it. -/
structure Machine.Composes (m : Machine Float) : Prop where
  /-- Two documents in a row do what their merger does at once. -/
  composed : ∀ first second n o, m.applySettings first = .ok n → n.applySettings second = .ok o →
    m.applySettings (Settings.merged first second) = .ok o
  twice : ∀ doc n, m.applySettings doc = .ok n → n.applySettings doc = .ok n
  /-- The settings afterwards are the former ones, with the document over them. -/
  shown : ∀ doc n, m.applySettings doc = .ok n → n.settings = Settings.merged m.settings doc

namespace LimitChange

theorem over_followedBy (c d : LimitChange Float) (l : Limits Float) :
    (c.followedBy d).over l = d.over (c.over l) := by
  unfold LimitChange.followedBy LimitChange.over
  simp only [Option.getD_or]

theorem followedBy_self (c : LimitChange Float) : c.followedBy c = c := by
  unfold LimitChange.followedBy
  rw [Option.or_self, Option.or_self]

end LimitChange

/-- Whether a speed within an accepted limit is above zero does not depend on the limit. -/
theorem zero_lt_smaller_iff {x l : Float} (hl : Usable l) :
    0.0 < Scalar.smaller x l ↔ x.isNaN = true ∨ 0.0 < x := by
  obtain ⟨hzero, hnan⟩ := not_isNaN_of_lt hl.2
  unfold Scalar.smaller
  cases hx : x.isNaN with
  | true =>
    rw [if_neg (not_le_of_isNaN hx l).1, if_neg (not_le_of_isNaN hx l).2,
      if_neg (not_le_of_isNaN hx x).1]
    exact ⟨fun _ => Or.inl rfl, fun _ => hl.2⟩
  | false =>
    by_cases hxl : x ≤ l
    · rw [if_pos hxl]
      exact ⟨Or.inr, fun h => h.resolve_left nofun⟩
    · have hlx : l ≤ x := (le_total_of_not_isNaN hx hnan).resolve_left hxl
      have hpos : 0.0 < x := by
        rw [lt_iff_place hzero hx]
        exact ((lt_iff_place hzero hnan).mp hl.2).trans_le ((le_iff_place hnan hx).mp hlx)
      rw [if_neg hxl, if_pos hlx]
      exact ⟨fun _ => Or.inr hpos, fun _ => hl.2⟩

theorem usable_of_checkLimits {i : AxisId} {l : Limits Float} (h : checkLimits i l = .ok ()) :
    Usable l.maxSpeed ∧ Usable l.maxAcc := by
  rw [Machine.checkLimits_eq_ok_iff, isPositive_iff_usable, isPositive_iff_usable] at h
  exact h

namespace Plan

theorem requested_of_toward? {l : Limits Float} {start target : Float} {requested : Option Float}
    {p : Plan Float} (h : toward? l start target requested = some p) :
    p.requested = requested := by
  unfold toward? at h
  simp only at h
  split at h
  · cases h
  · split at h
    · cases h
      rfl
    · cases h

/-- Accepted limits have a plan made exactly if there is a way to go and the speed asked for, if
any, is not zero or below. -/
theorem exists_toward?_iff {i : AxisId} {l : Limits Float} (hl : checkLimits i l = .ok ())
    {start target : Float} {requested : Option Float} :
    (∃ p, toward? l start target requested = some p) ↔
      (Scalar.abs (target - start) == 0.0) = false ∧
        ∀ v, requested = some v → v.isNaN = true ∨ 0.0 < v := by
  obtain ⟨hspeed, hacc⟩ := usable_of_checkLimits hl
  have hpos : 0.0 < Scalar.smaller (requested.getD l.maxSpeed) l.maxSpeed ↔
      ∀ v, requested = some v → v.isNaN = true ∨ 0.0 < v := by
    rw [zero_lt_smaller_iff hspeed]
    cases requested with
    | none => exact ⟨fun _ => nofun, fun _ => Or.inr hspeed.2⟩
    | some v => simp
  rw [← hpos]
  unfold toward?
  simp only
  cases htrip : Scalar.abs (target - start) == 0.0 with
  | true => simp
  | false => simp [hacc.2]

end Plan

namespace Axis

variable {a : Axis Float} {l k : Limits Float} {i : AxisId}

theorem setLimits_of_none
    (h : Plan.toward? l a.position a.target a.plan.requested = none) :
    a.setLimits l =
      { a with config := { a.config with maxSpeed := l.maxSpeed, maxAcc := l.maxAcc } } := by
  unfold setLimits replan planTo
  split
  · rename_i p hp
    exact absurd (hp.symm.trans h) nofun
  · rfl

theorem setLimits_of_some {p : Plan Float}
    (h : Plan.toward? l a.position a.target a.plan.requested = some p) :
    a.setLimits l =
      { a with
        config := { a.config with maxSpeed := l.maxSpeed, maxAcc := l.maxAcc }
        plan := p
        startTime := none } := by
  unfold setLimits replan planTo
  split
  · rename_i q hq
    cases hq.symm.trans h
    rfl
  · rename_i hq
    exact absurd (hq.symm.trans h) nofun

theorem setLimits_setLimits (hl : checkLimits i l = .ok ()) (hk : checkLimits i k = .ok ()) :
    (a.setLimits l).setLimits k = a.setLimits k := by
  cases hp : Plan.toward? l a.position a.target a.plan.requested with
  | none =>
    rw [setLimits_of_none hp]
    rfl
  | some p =>
    -- The plan in between has the target and the request of the first, and the axis did not move.
    have hway := (Plan.exists_toward?_iff hl).mp ⟨p, hp⟩
    obtain ⟨q, hq⟩ := (Plan.exists_toward?_iff hk).mpr hway
    rw [setLimits_of_some hq, setLimits_of_some hp]
    refine setLimits_of_some ?_
    show Plan.toward? k a.position p.target p.requested = some q
    rw [Plan.target_of_toward? hp, Plan.requested_of_toward? hp]
    exact hq

def change (a : Axis Float) : Option (LimitChange Float) → Axis Float
  | some c => a.setLimits (c.over a.limits)
  | none => a

def Accepts (i : AxisId) (a : Axis Float) (c : Option (LimitChange Float)) : Prop :=
  ∀ x, c = some x → checkLimits i (x.over a.limits) = .ok ()

theorem limits_change_some (a : Axis Float) (c : LimitChange Float) :
    (a.change (some c)).limits = c.over a.limits :=
  limits_setLimits _ _

theorem change_merge {c d : Option (LimitChange Float)} (hc : Accepts i a c)
    (hd : Accepts i (a.change c) d) :
    Accepts i a (c.merge LimitChange.followedBy d) ∧
      a.change (c.merge LimitChange.followedBy d) = (a.change c).change d := by
  cases c with
  | none =>
    cases d with
    | none => exact ⟨hd, rfl⟩
    | some y => exact ⟨hd, rfl⟩
  | some x =>
    cases d with
    | none => exact ⟨hc, rfl⟩
    | some y =>
      have hx := hc x rfl
      have hy := hd y rfl
      have hover : (x.followedBy y).over a.limits = y.over (x.over a.limits) :=
        x.over_followedBy y a.limits
      rw [limits_change_some] at hy
      constructor
      · rintro z ⟨⟩
        rw [hover]
        exact hy
      · show a.setLimits ((x.followedBy y).over a.limits) =
          (a.setLimits (x.over a.limits)).setLimits (y.over (a.change (some x)).limits)
        rw [limits_change_some, hover, setLimits_setLimits hx hy]

end Axis

namespace Machine

variable {m n o : Machine Float} {doc first second : SettingsDocument Float}

theorem exists_applySettings_iff (m : Machine Float) (doc : SettingsDocument Float) :
    (∃ n, m.applySettings doc = .ok n) ↔ ∀ i, Axis.Accepts i (m.axis i) (doc.get i) := by
  unfold applySettings
  rw [exists_applyLimits_iff]
  constructor
  · intro h i c hc
    refine h (i, c.over (m.axis i).limits) (List.mem_filterMap.mpr ⟨i, AxisId.mem_all i, ?_⟩)
    rw [hc]
    rfl
  · intro h u hu
    obtain ⟨i, -, hi⟩ := List.mem_filterMap.mp hu
    obtain ⟨c, hc, rfl⟩ := Option.map_eq_some_iff.mp hi
    exact h i c hc

theorem axis_of_applySettings (h : m.applySettings doc = .ok n) (i : AxisId) :
    n.axis i = (m.axis i).change (doc.get i) := by
  rw [(axis_of_applyLimits h i).2, limitsFor_limitUpdates]
  cases doc.get i <;> rfl

/-- Two machines are the same if they differ in their axes at most, and not in any of them. -/
theorem eq_of_axes {axes : PerAxis (Axis Float)}
    (hrest : { n with axes := axes } = { o with axes := axes })
    (h : ∀ i, n.axis i = o.axis i) : n = o := by
  have haxes : n.axes = o.axes := PerAxis.get_inj h
  cases n
  cases o
  cases haxes
  cases hrest
  rfl

theorem applySettings_merged (hn : m.applySettings first = .ok n)
    (ho : n.applySettings second = .ok o) :
    m.applySettings (Settings.merged first second) = .ok o := by
  have hfirst := (exists_applySettings_iff m first).mp ⟨n, hn⟩
  have hsecond := (exists_applySettings_iff n second).mp ⟨o, ho⟩
  have hmerged (i : AxisId) : Axis.Accepts i (m.axis i) ((Settings.merged first second).get i) ∧
      (m.axis i).change ((Settings.merged first second).get i) = o.axis i := by
    have hi := hsecond i
    rw [axis_of_applySettings hn i] at hi
    rw [axis_of_applySettings ho i, axis_of_applySettings hn i, Settings.merged,
      PerAxis.get_ofFn]
    exact Axis.change_merge (hfirst i) hi
  obtain ⟨p, hp⟩ := (exists_applySettings_iff m _).mpr fun i => (hmerged i).1
  have hrest : { p with axes := m.axes } = { o with axes := m.axes } := calc
    { p with axes := m.axes } = m := (adjusted_of_applySettings hp).rest
    _ = { n with axes := m.axes } := (adjusted_of_applySettings hn).rest.symm
    _ = { o with axes := m.axes } :=
      congrArg (fun x : Machine Float => { x with axes := m.axes })
        (adjusted_of_applySettings ho).rest.symm
  have hpo : p = o := eq_of_axes hrest fun i => (axis_of_applySettings hp i).trans (hmerged i).2
  rw [hp, hpo]

theorem merged_self (doc : SettingsDocument Float) : Settings.merged doc doc = doc := by
  apply PerAxis.get_inj
  intro i
  rw [Settings.merged, PerAxis.get_ofFn]
  cases doc.get i with
  | none => rfl
  | some c => exact congrArg some c.followedBy_self

theorem applySettings_twice (hn : m.applySettings doc = .ok n) : n.applySettings doc = .ok n := by
  have hdoc := (exists_applySettings_iff m doc).mp ⟨n, hn⟩
  have hagain (i : AxisId) : Axis.Accepts i (n.axis i) (doc.get i) := by
    intro c hc
    rw [axis_of_applySettings hn i, hc, Axis.limits_change_some, ← c.over_followedBy c,
      c.followedBy_self]
    exact hdoc i c hc
  obtain ⟨o, ho⟩ := (exists_applySettings_iff n doc).mpr hagain
  have honce := applySettings_merged hn ho
  rw [merged_self, hn] at honce
  cases honce
  exact ho

theorem settings_of_applySettings (hn : m.applySettings doc = .ok n) :
    n.settings = Settings.merged m.settings doc := by
  apply PerAxis.get_inj
  intro i
  rw [Settings.merged, settings, settings, PerAxis.get_ofFn, PerAxis.get_ofFn, PerAxis.get_ofFn,
    axis_of_applySettings hn i]
  cases doc.get i with
  | none => rfl
  | some c =>
    rw [Axis.limits_change_some]
    cases c with
    | mk speed acc => cases speed <;> cases acc <;> rfl

/-- Documents compose, whatever the machine is doing: plans under way are the same as well. -/
theorem documents_compose (m : Machine Float) : Composes m where
  composed _ _ _ _ := applySettings_merged
  twice _ _ := applySettings_twice
  shown _ _ := settings_of_applySettings

end Machine

end Gantry
