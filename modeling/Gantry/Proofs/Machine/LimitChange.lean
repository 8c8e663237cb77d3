import Gantry.Config.Validation
import Gantry.Proofs.Machine.Frame
import Gantry.Proofs.Machine.Setting

/-!
# Changes of limits

An accepted setting gives an axis the limits it has for it, one after the other, and nothing else
happens to the axis. The limits of a valid configuration would be accepted as a setting, too.
-/

namespace Gantry

variable {α : Type} [Scalar α]

def limitsFor (i : AxisId) (updates : List (AxisId × Limits α)) : List (Limits α) :=
  (updates.filter (·.1 = i)).map (·.2)

namespace Machine

@[simp] theorem axis_withLimits_self (m : Machine α) (i : AxisId) (l : Limits α) :
    (m.withLimits i l).axis i = (m.axis i).setLimits l := by
  simp [axis, withLimits, setAxis]

theorem axis_withLimits_of_ne (m : Machine α) {i j : AxisId} (l : Limits α) (h : j ≠ i) :
    (m.withLimits i l).axis j = m.axis j := by
  simp [axis, withLimits, setAxis, PerAxis.get_set_of_ne _ _ h]

theorem axis_foldl_withLimits (m : Machine α) (updates : List (AxisId × Limits α)) (i : AxisId) :
    (updates.foldl (fun m u => m.withLimits u.1 u.2) m).axis i =
      (limitsFor i updates).foldl Axis.setLimits (m.axis i) := by
  induction updates generalizing m with
  | nil => rfl
  | cons u us ih =>
    rw [List.foldl_cons, ih]
    by_cases hu : u.1 = i
    · subst hu
      simp [limitsFor]
    · simp [limitsFor, hu, axis_withLimits_of_ne m u.2 (Ne.symm hu)]

theorem axis_of_applyLimits {m n : Machine α} {updates : List (AxisId × Limits α)}
    (h : m.applyLimits updates = .ok n) (i : AxisId) :
    (∀ l ∈ limitsFor i updates, checkLimits i l = .ok ()) ∧
      n.axis i = (limitsFor i updates).foldl Axis.setLimits (m.axis i) := by
  simp only [applyLimits] at h
  obtain ⟨⟨⟩, hc, h⟩ := ok_of_bind h
  cases h
  refine ⟨fun l hl => ?_, axis_foldl_withLimits m updates i⟩
  obtain ⟨u, hu, rfl⟩ := List.mem_map.mp hl
  obtain ⟨hmem, hi⟩ := List.mem_filter.mp hu
  rw [← of_decide_eq_true hi]
  exact forM_ok hc u hmem

end Machine

/-- An accepted setting gives an axis accepted limits, if any. -/
theorem Setting.axis_of_apply {m n : Machine α} {x : Setting α} (h : x.apply m = .ok n)
    (i : AxisId) : ∃ ls : List (Limits α), (∀ l ∈ ls, checkLimits i l = .ok ()) ∧
      n.axis i = ls.foldl Axis.setLimits (m.axis i) := by
  have hsame (h : n.axis i = m.axis i) : ∃ ls : List (Limits α),
      (∀ l ∈ ls, checkLimits i l = .ok ()) ∧ n.axis i = ls.foldl Axis.setLimits (m.axis i) :=
    ⟨[], by simp, h⟩
  cases x with
  | axisLimits j l =>
    simp only [Setting.apply, Machine.setAxisLimits] at h
    obtain ⟨⟨⟩, hc, h⟩ := ok_of_bind h
    cases h
    by_cases hj : j = i
    · subst hj
      exact ⟨[l], by simpa using hc, m.axis_withLimits_self j l⟩
    · exact hsame (m.axis_withLimits_of_ne l (Ne.symm hj))
  | limits updates => exact ⟨_, Machine.axis_of_applyLimits h i⟩
  | document doc => exact ⟨_, Machine.axis_of_applyLimits h i⟩
  | feedOverride value =>
    simp only [Setting.apply, Machine.setFeedOverride] at h
    split at h
    · cases h
      exact hsame rfl
    · cases h
  | gains k kp ki windUp =>
    simp only [Setting.apply, Machine.setHeaterGains] at h
    obtain ⟨-, -, h⟩ := ok_of_bind h
    obtain ⟨-, -, h⟩ := ok_of_bind h
    cases windUp with
    | some bound =>
      obtain ⟨-, -, h⟩ := ok_of_bind h
      cases h
      exact hsame rfl
    | none =>
      cases h
      exact hsame rfl
  | settle k window time =>
    simp only [Setting.apply, Machine.setHeaterSettle] at h
    obtain ⟨-, -, h⟩ := ok_of_bind h
    obtain ⟨-, -, h⟩ := ok_of_bind h
    cases h
    exact hsame rfl

omit [Scalar α] in
theorem Axis.limits_of_config {a b : Axis α} (h : b.config = a.config) : b.limits = a.limits := by
  rw [limits, limits, h]

theorem Axis.limits_setLimits (a : Axis α) (l : Limits α) : (a.setLimits l).limits = l := by
  rw [limits, setLimits, replan_config]

theorem Machine.limits_of_applyLimits {m n : Machine α} {l : AxisId → Limits α}
    (h : m.applyLimits (AxisId.all.map fun i => (i, l i)) = .ok n) (i : AxisId) :
    (n.axis i).limits = l i := by
  have hupdates : limitsFor i (AxisId.all.map fun j => (j, l j)) = [l i] := by
    cases i <;> rfl
  rw [(axis_of_applyLimits h i).2, hupdates]
  exact Axis.limits_setLimits _ _

theorem MachineConfig.axis_of_validate {c : MachineConfig α} (h : c.validate = .ok ())
    (i : AxisId) : (c.axes.get i).validate i = .ok () := by
  simp only [validate] at h
  split at h
  · cases h
  · obtain ⟨⟨⟩, -, h⟩ := ok_of_bind h
    obtain ⟨⟨⟩, haxes, -⟩ := ok_of_bind h
    exact forM_ok haxes i (AxisId.mem_all i)

theorem AxisConfig.checkLimits_of_validate {c : AxisConfig α} {i : AxisId}
    (h : c.validate i = .ok ()) : checkLimits i (Axis.ofConfig c).limits = .ok () := by
  have hpos {name : String} {field : LimitField} {v : α} (h : requirePositive name v = .ok ()) :
      checkLimit i field v = .ok () := by
    unfold requirePositive at h
    split at h
    · exact if_pos ‹_›
    · cases h
  simp only [validate] at h
  obtain ⟨⟨⟩, hspeed, h⟩ := ok_of_bind h
  obtain ⟨⟨⟩, hacc, -⟩ := ok_of_bind h
  show (checkLimit i .maxSpeed c.maxSpeed >>= fun _ => checkLimit i .maxAcc c.maxAcc) = .ok ()
  rw [hpos hspeed]
  exact hpos hacc

theorem checkLimits_foldl {i : AxisId} {a : Axis α} (ha : checkLimits i a.limits = .ok ())
    {ls : List (Limits α)} (hls : ∀ l ∈ ls, checkLimits i l = .ok ()) :
    checkLimits i (ls.foldl Axis.setLimits a).limits = .ok () := by
  induction ls generalizing a with
  | nil => exact ha
  | cons l ls ih =>
    apply ih
    · rw [Axis.limits_setLimits]
      exact hls l (by simp)
    · exact fun k hk => hls k (by simp [hk])

end Gantry
