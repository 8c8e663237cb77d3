import Mathlib.Analysis.Real.Sqrt
import Gantry.Proofs.Machine.BlockingMove
import Gantry.Proofs.Motion.TimedPlan

/-!
# Coordinated moves

A move gives its axes a common time, in which each of them is to make its own way. The time is the
one that the feed gives, or longer by a factor where some axis would be above its speed limit; then
one axis runs at its limit. The axes come to their targets apart by no more than their ramps differ
in time. They begin to slow down together where each of them has room for its ramps; an axis that
has none does so later.

Nothing here says that an axis comes to its target.
-/

namespace Gantry

namespace Machine

variable {m : Machine ℝ} {target : Target ℝ} {speed : Option ℝ} {i j : AxisId}

noncomputable def feed (m : Machine ℝ) (speed : Option ℝ) : ℝ :=
  speed.getD m.defaultSpeed * m.feedOverride

/-- The time of a move at its feed, ramps apart. -/
noncomputable def nominalTime (m : Machine ℝ) (target : Target ℝ) (speed : Option ℝ) : ℝ :=
  m.pathLength target / m.feed speed

/-- The time of a move that keeps to the limits of speed, ramps apart. -/
noncomputable def commonTime (m : Machine ℝ) (target : Target ℝ) (speed : Option ℝ) : ℝ :=
  m.nominalTime target speed * m.rate target (m.nominalTime target speed)

/-- The speed at which an axis makes its way in the common time. -/
noncomputable def share (m : Machine ℝ) (target : Target ℝ) (speed : Option ℝ) (i : AxisId) : ℝ :=
  m.distance target i / m.commonTime target speed

/-- The time that an axis takes to get up to its share of the speed. -/
noncomputable def rampTime (m : Machine ℝ) (target : Target ℝ) (speed : Option ℝ) (i : AxisId) :
    ℝ :=
  m.share target speed i / (m.axis i).config.maxAcc

/-- The way is long enough to get up to the share of the speed and down again. -/
def HasRoom (m : Machine ℝ) (target : Target ℝ) (speed : Option ℝ) (i : AxisId) : Prop :=
  Ramp.twice (m.axis i).config.maxAcc (m.share target speed i) ≤ m.distance target i

/-- How a move has its axes keep together. -/
structure Coordinated (m n : Machine ℝ) (target : Target ℝ) (speed : Option ℝ) : Prop where
  /-- An axis with a way to go plans it, at its share of the speed. -/
  commanded : ∀ i v, target.get i = some v → m.distance target i ≠ 0 →
    (n.axis i).plan.requested = some (m.share target speed i) ∧
      Axis.Departs (m.axis i) (n.axis i) ((m.axis i).toPhysical v)
        (some (m.share target speed i))
  within : ∀ i, m.share target speed i ≤ (m.axis i).config.maxSpeed
  /-- Where no axis is above its limit, the feed is kept. -/
  nominal : (∀ i, m.distance target i / m.nominalTime target speed ≤ (m.axis i).config.maxSpeed) →
    ∀ i, m.share target speed i = m.distance target i / m.nominalTime target speed
  /-- Otherwise one axis runs at its limit, and all are slowed down by the same factor. -/
  slowed : (∃ i, (m.axis i).config.maxSpeed < m.distance target i / m.nominalTime target speed) →
    (∃ i, m.distance target i ≠ 0 ∧ m.share target speed i = (m.axis i).config.maxSpeed) ∧
      ∃ factor, 1 < factor ∧
        ∀ i, m.share target speed i = m.distance target i / m.nominalTime target speed / factor
  /-- The axes arrive apart by no more than their ramps differ. -/
  spread : ∀ i j, m.distance target i ≠ 0 → m.distance target j ≠ 0 →
    ¬ (n.axis i).plan.Snug → ¬ (n.axis j).plan.Snug →
      |(n.axis i).plan.moveTime - (n.axis j).plan.moveTime| ≤
        |m.rampTime target speed i - m.rampTime target speed j|

/-- When the axes of a move begin to slow down. -/
structure SlowsDown (m : Machine ℝ) (target : Target ℝ) (speed : Option ℝ) : Prop where
  /-- The axes that plan anything. -/
  plans_iff : ∀ i, (m.setTarget target speed).1.axis i ≠ m.axis i ↔
    (m.setTarget target speed).2 = true ∧ 0 < m.feed speed ∧ m.distance target i ≠ 0
  together : ∀ i, (m.setTarget target speed).1.axis i ≠ m.axis i → m.HasRoom target speed i →
    ((m.setTarget target speed).1.axis i).plan.decTime = m.commonTime target speed
  later : ∀ i, (m.setTarget target speed).1.axis i ≠ m.axis i → ¬ m.HasRoom target speed i →
    m.commonTime target speed < ((m.setTarget target speed).1.axis i).plan.decTime

theorem one_le_rate (m : Machine ℝ) (target : Target ℝ) (t : ℝ) : 1 ≤ m.rate target t := by
  have hone : (1.0 : ℝ) = 1 := by norm_num
  unfold rate
  rw [← hone]
  exact (foldl_larger_spec _ _).1

theorem fraction_le_rate (m : Machine ℝ) (target : Target ℝ) (t : ℝ) (i : AxisId) :
    m.fraction target t i ≤ m.rate target t :=
  (foldl_larger_spec _ _).2.1 _ (List.mem_map_of_mem (AxisId.mem_all i))

/-- The factor is one, or as large as the axis needs that is the farthest above its limit. -/
theorem rate_cases (m : Machine ℝ) (target : Target ℝ) (t : ℝ) :
    m.rate target t = 1 ∨ ∃ i, m.fraction target t i = m.rate target t := by
  have hone : (1.0 : ℝ) = 1 := by norm_num
  rcases (foldl_larger_spec (AxisId.all.map (m.fraction target t)) 1.0).2.2 with heq | hin
  · exact Or.inl (heq.trans hone)
  · obtain ⟨i, -, hi⟩ := List.mem_map.mp hin
    exact Or.inr ⟨i, hi⟩

theorem fraction_mul (h : (m.axis i).Able) (t : ℝ) :
    m.fraction target t i * (m.axis i).config.maxSpeed = m.distance target i / t :=
  div_mul_cancel₀ _ h.speed.ne'

theorem share_eq (m : Machine ℝ) (target : Target ℝ) (speed : Option ℝ) (i : AxisId) :
    m.share target speed i = m.distance target i / m.nominalTime target speed /
      m.rate target (m.nominalTime target speed) := by
  unfold share commonTime
  rw [div_div]

theorem commandedSpeed_eq (h : (m.axis i).Able) :
    m.commandedSpeed target (m.nominalTime target speed) i = m.share target speed i := by
  rw [share_eq]
  unfold commandedSpeed
  rw [fraction_mul h]

theorem share_le (h : (m.axis i).Able) :
    m.share target speed i ≤ (m.axis i).config.maxSpeed := by
  have hrate := rate_pos m target (m.nominalTime target speed)
  rw [share_eq, div_le_iff₀ hrate, mul_comm, ← div_le_iff₀ h.speed]
  exact fraction_le_rate m target _ i

theorem rate_eq_one (h : ∀ i, (m.axis i).Able)
    (hle : ∀ i, m.distance target i / m.nominalTime target speed ≤ (m.axis i).config.maxSpeed) :
    m.rate target (m.nominalTime target speed) = 1 := by
  rcases m.rate_cases target (m.nominalTime target speed) with hone | ⟨i, hi⟩
  · exact hone
  · apply le_antisymm _ (m.one_le_rate target _)
    rw [← hi]
    exact (div_le_one (h i).speed).mpr (hle i)

theorem one_lt_rate (h : (m.axis i).Able)
    (hlt : (m.axis i).config.maxSpeed < m.distance target i / m.nominalTime target speed) :
    1 < m.rate target (m.nominalTime target speed) :=
  ((one_lt_div h.speed).mpr hlt).trans_le (m.fraction_le_rate target _ i)

theorem exists_share_eq (h : ∀ i, (m.axis i).Able)
    (hrate : 1 < m.rate target (m.nominalTime target speed)) :
    ∃ i, m.distance target i ≠ 0 ∧ m.share target speed i = (m.axis i).config.maxSpeed := by
  rcases m.rate_cases target (m.nominalTime target speed) with hone | ⟨i, hi⟩
  · exact absurd hone hrate.ne'
  · have hfull : m.share target speed i = (m.axis i).config.maxSpeed := by
      rw [share_eq, ← fraction_mul (h i), hi, mul_comm, mul_div_assoc,
        div_self (one_pos.trans hrate).ne', mul_one]
    refine ⟨i, ?_, hfull⟩
    intro hd
    have hnone : m.share target speed i = 0 := by
      unfold share
      rw [hd, zero_div]
    exact (h i).speed.ne' (hfull.symm.trans hnone)

theorem eq_of_withFeed? {n : Machine ℝ} (h : m.withFeed? speed = some n) :
    n = m.setDefaultSpeed (speed.getD m.defaultSpeed) := by
  unfold withFeed? at h
  cases speed with
  | none =>
    cases h
    rfl
  | some s =>
    simp only at h
    split at h
    · cases h
      rfl
    · cases h

/-- A move that plans anything has a way to go, and plans it in the time that its feed gives. -/
theorem setTarget_of_planned (h : (m.setTarget target speed).2 = true) :
    m.pathLength target ≠ 0 ∧ (m.setTarget target speed).1 =
      (m.setDefaultSpeed (speed.getD m.defaultSpeed)).planMove target
        (m.nominalTime target speed) := by
  have hz : (0.0 : ℝ) = 0 := by norm_num
  cases hk : m.withFeed? speed with
  | none =>
    unfold setTarget at h
    rw [hk] at h
    cases h
  | some k =>
    have hk' := eq_of_withFeed? hk
    subst hk'
    unfold setTarget at h ⊢
    rw [hk] at h ⊢
    simp only at h ⊢
    split at h
    · cases h
    · rename_i hb
      rw [if_neg hb]
      refine ⟨fun hp => hb (Exact.beq_iff.mpr ?_), rfl⟩
      rw [hz]
      exact hp

theorem planned_of_hasFeed (hs : m.HasFeed speed) (hp : m.pathLength target ≠ 0) :
    (m.setTarget target speed).2 = true := by
  have hz : (0.0 : ℝ) = 0 := by norm_num
  have hway : ¬ ((m.setDefaultSpeed (speed.getD m.defaultSpeed)).pathLength target == 0.0) =
      true := by
    rw [Exact.beq_iff, hz]
    exact hp
  unfold setTarget
  rw [withFeed?_of_hasFeed hs]
  simp only
  rw [if_neg hway]

theorem axis_setTarget_of_planned (hn : (m.setTarget target speed).2 = true) {v : ℝ}
    (hi : target.get i = some v) (hd : m.distance target i ≠ 0) (ha : (m.axis i).Able) :
    (m.setTarget target speed).1.axis i =
      (m.axis i).setTarget v (some (m.share target speed i)) := by
  rw [(setTarget_of_planned hn).2, ← commandedSpeed_eq ha]
  exact axis_planMove_of_some (m := m.setDefaultSpeed (speed.getD m.defaultSpeed)) hi hd

theorem commonTime_pos (hn : (m.setTarget target speed).2 = true) (hf : 0 < m.feed speed) :
    0 < m.commonTime target speed := by
  have hpath := lt_of_le_of_ne (m.pathLength_nonneg target) (setTarget_of_planned hn).1.symm
  exact mul_pos (div_pos hpath hf) (m.rate_pos target _)

theorem abs_toPhysical_sub {v : ℝ} (hi : target.get i = some v) (hd : m.distance target i ≠ 0) :
    |(m.axis i).toPhysical v - (m.axis i).position| = m.distance target i := by
  rw [distance_of_some hi] at hd ⊢
  split at hd
  · exact absurd rfl hd
  · rename_i hnear
    rw [if_neg hnear, Axis.toPhysical, Axis.virtualPosition, Axis.toVirtual, sub_sub, add_comm]

/-- An axis with a way to go takes up a plan that keeps the common time. -/
theorem timed_of_planned (hn : (m.setTarget target speed).2 = true) (hf : 0 < m.feed speed)
    {v : ℝ} (hi : target.get i = some v) (hd : m.distance target i ≠ 0) (ha : (m.axis i).Able) :
    ∃ p, Plan.toward? (m.axis i).limits (m.axis i).position ((m.axis i).toPhysical v)
        (some (m.share target speed i)) = some p ∧
      (m.setTarget target speed).1.axis i = { m.axis i with plan := p, startTime := none } ∧
      p.Timed (m.commonTime target speed) (m.rampTime target speed i) := by
  have hT := commonTime_pos hn hf
  have hpos := lt_of_le_of_ne (m.distance_nonneg target i) hd.symm
  have hway := abs_toPhysical_sub hi hd
  have hne : (m.axis i).toPhysical v ≠ (m.axis i).position := by
    rw [← sub_ne_zero, ← abs_pos, hway]
    exact hpos
  have hspeed : 0 < Scalar.smaller ((some (m.share target speed i)).getD
      (m.axis i).limits.maxSpeed) (m.axis i).limits.maxSpeed := by
    rw [Exact.smaller_eq]
    exact lt_min (div_pos hpos hT) ha.speed
  obtain ⟨p, hp⟩ := Plan.toward?_isSome hspeed ha.acc hne
  refine ⟨p, hp, ?_, ?_⟩
  · rw [axis_setTarget_of_planned hn hi hd ha]
    exact Axis.planTo_of_some hp
  · apply Plan.timed_of_toward? hp (share_le ha)
    rw [hway]
    exact (div_mul_cancel₀ _ hT.ne').symm

theorem get_of_distance (hd : m.distance target i ≠ 0) : ∃ v, target.get i = some v := by
  cases hi : target.get i with
  | none => exact absurd (distance_of_none hi) hd
  | some v => exact ⟨v, rfl⟩

def hop {α : Type} [Scalar α] : Target α :=
  ⟨some 0.0003, none, some 0.0004, none⟩

theorem axis_ofConfig (c : MachineConfig ℝ) (i : AxisId) :
    (ofConfig c).axis i = Axis.ofConfig (c.axes.get i) :=
  PerAxis.get_ofFn _ _

theorem atRest_ofConfig (c : MachineConfig ℝ) : (ofConfig c).AtRest := by
  intro i
  rw [axis_ofConfig]
  rfl

theorem not_near_zero {v : ℝ} (hv : 1e-9 ≤ v) : ¬ Scalar.Near v 0 := by
  have hpos : 0 < v := lt_of_lt_of_le (by norm_num) hv
  unfold Scalar.Near
  rw [Exact.larger_eq, Exact.larger_eq, Exact.abs_eq, Exact.abs_eq, Exact.abs_eq, sub_zero,
    abs_zero, abs_of_pos hpos, max_eq_left hpos.le, not_le]
  apply max_lt
  · linarith
  · exact lt_of_lt_of_le (by norm_num) hv

theorem distance_ofConfig (c : MachineConfig ℝ) {v : ℝ} (hi : target.get i = some v)
    (hv : 1e-9 ≤ v) : (ofConfig c).distance target i = v := by
  have hz : (0.0 : ℝ) = 0 := by norm_num
  have hpos : 0 < v := lt_of_lt_of_le (by norm_num) hv
  have hzero : ((ofConfig c).axis i).virtualPosition = 0 := by
    rw [axis_ofConfig]
    change (0.0 : ℝ) + 0.0 = 0
    rw [hz, add_zero]
  rw [distance_of_some hi, hzero, if_neg (not_near_zero hv), sub_zero, abs_of_pos hpos]

theorem distance_stock (i : AxisId) :
    (ofConfig MachineConfig.stock).distance hop i = (hop.get i).getD (0 : ℝ) := by
  have hx : (1e-9 : ℝ) ≤ 0.0003 := by norm_num
  have hz : (1e-9 : ℝ) ≤ 0.0004 := by norm_num
  cases i with
  | x => exact distance_ofConfig _ rfl hx
  | y => exact distance_of_none rfl
  | z => exact distance_ofConfig _ rfl hz
  | e => exact distance_of_none rfl

theorem pathLength_stock : (ofConfig MachineConfig.stock).pathLength hop = (0.0005 : ℝ) := by
  have hsquare : (0.0003 : ℝ) * 0.0003 + 0 * 0 + 0.0004 * 0.0004 = 0.0005 ^ 2 := by norm_num
  have hnonneg : (0 : ℝ) ≤ 0.0005 := by norm_num
  rw [pathLength_of_cartesian rfl, distance_stock, distance_stock, distance_stock]
  exact (congrArg Real.sqrt hsquare).trans (Real.sqrt_sq hnonneg)

theorem feed_stock : (ofConfig MachineConfig.stock).feed none = (0.01 : ℝ) := by
  have hfeed : (0.01 : ℝ) * 1.0 = 0.01 := by norm_num
  exact hfeed

theorem feed_stock_pos : 0 < (ofConfig (MachineConfig.stock : MachineConfig ℝ)).feed none := by
  rw [feed_stock]
  norm_num

theorem nominalTime_stock : (ofConfig MachineConfig.stock).nominalTime hop none = (0.05 : ℝ) := by
  unfold nominalTime
  rw [pathLength_stock, feed_stock]
  norm_num

theorem able_stock (i : AxisId) : ((ofConfig MachineConfig.stock : Machine ℝ).axis i).Able :=
  (able_ofConfig validate_stock).axes i

theorem config_stock (i : AxisId) : ((ofConfig MachineConfig.stock : Machine ℝ).axis i).config =
    AxisConfig.stock i := by
  rw [axis_ofConfig]
  exact PerAxis.get_ofFn _ _

theorem commonTime_stock : (ofConfig MachineConfig.stock).commonTime hop none = (0.05 : ℝ) := by
  unfold commonTime
  rw [rate_eq_one able_stock, nominalTime_stock, mul_one]
  intro i
  rw [nominalTime_stock, distance_stock, config_stock]
  cases i <;>
  · simp only [hop, PerAxis.get, Option.getD, AxisConfig.stock]
    norm_num

theorem planned_stock :
    ((ofConfig (MachineConfig.stock : MachineConfig ℝ)).setTarget hop none).2 = true := by
  apply planned_of_hasFeed
  · have hfeed : (0 : ℝ) < 0.01 := by norm_num
    exact hfeed
  · rw [pathLength_stock]
    norm_num

theorem timed_stock {v : ℝ} (hi : hop.get i = some v) (hv : v ≠ 0) :
    let m : Machine ℝ := ofConfig MachineConfig.stock
    ∃ p, Plan.toward? (m.axis i).limits (m.axis i).position ((m.axis i).toPhysical v)
        (some (v / 0.05)) = some p ∧
      (m.setTarget hop none).1.axis i = { m.axis i with plan := p, startTime := none } ∧
      p.Timed 0.05 (v / 0.05 / (AxisConfig.stock i : AxisConfig ℝ).maxAcc) := by
  intro m
  have hd : m.distance hop i = v := by rw [distance_stock, hi, Option.getD_some]
  have hne : m.distance hop i ≠ 0 := by
    rw [hd]
    exact hv
  have hshare : m.share hop none i = v / 0.05 := by rw [share, commonTime_stock, hd]
  obtain ⟨p, hp, haxis, htimed⟩ :=
    timed_of_planned planned_stock feed_stock_pos hi hne (able_stock i)
  rw [rampTime, config_stock] at htimed
  rw [commonTime_stock, hshare] at htimed
  rw [hshare] at hp
  exact ⟨p, hp, haxis, htimed⟩

/-- A move that plans anything, on axes that can move and at a feed above zero. -/
theorem coordinated_of_planned (ha : ∀ i, (m.axis i).Able) (hf : 0 < m.feed speed)
    (hn : (m.setTarget target speed).2 = true) :
    m.Coordinated (m.setTarget target speed).1 target speed := by
  have hT := commonTime_pos hn hf
  constructor
  · intro i v hi hd
    obtain ⟨p, hp, haxis, -⟩ := timed_of_planned hn hf hi hd (ha i)
    rw [haxis]
    refine ⟨?_, Axis.departs_of_toward? hp⟩
    obtain ⟨-, -, -, rfl⟩ := Plan.eq_of_toward? hp
    rfl
  · intro i
    exact share_le (ha i)
  · intro hle i
    rw [share_eq, rate_eq_one ha hle, div_one]
  · rintro ⟨i, hlt⟩
    have hrate := one_lt_rate (ha i) hlt
    exact ⟨exists_share_eq ha hrate, _, hrate, fun i => m.share_eq target speed i⟩
  · intro i j hi hj hsi hsj
    obtain ⟨v, hv⟩ := get_of_distance hi
    obtain ⟨w, hw⟩ := get_of_distance hj
    obtain ⟨p, -, hpi, hp⟩ := timed_of_planned hn hf hv hi (ha i)
    obtain ⟨q, -, hqj, hq⟩ := timed_of_planned hn hf hw hj (ha j)
    rw [hpi] at hsi ⊢
    rw [hqj] at hsj ⊢
    exact hp.moveTime_sub_le hT hq hsi hsj

theorem coordinated_stock :
    let m : Machine ℝ := ofConfig MachineConfig.stock
    ((∀ i, (m.axis i).Able) ∧ 0 < m.feed none ∧ (m.setTarget hop none).2 = true) ∧
      m.Coordinated (m.setTarget hop none).1 hop none :=
  ⟨⟨able_stock, feed_stock_pos, planned_stock⟩,
    coordinated_of_planned able_stock feed_stock_pos planned_stock⟩

theorem hasRoom_iff (hT : 0 < m.commonTime target speed) (hd : m.distance target i ≠ 0) :
    m.HasRoom target speed i ↔ m.rampTime target speed i ≤ m.commonTime target speed := by
  have hpos := lt_of_le_of_ne (m.distance_nonneg target i) hd.symm
  have hshare : 0 < m.share target speed i := div_pos hpos hT
  have hway : m.distance target i = m.share target speed i * m.commonTime target speed :=
    (div_mul_cancel₀ _ hT.ne').symm
  have hramps : Ramp.twice (m.axis i).config.maxAcc (m.share target speed i) =
      m.share target speed i * m.rampTime target speed i := by
    unfold Ramp.twice rampTime
    ring
  unfold HasRoom
  rw [hramps, hway]
  exact mul_le_mul_iff_of_pos_left hshare

theorem planned_of_axis_ne (h : (m.setTarget target speed).1.axis i ≠ m.axis i) :
    (m.setTarget target speed).2 = true := by
  by_contra hno
  apply h
  unfold setTarget at hno ⊢
  cases hk : m.withFeed? speed with
  | none => rfl
  | some k =>
    rw [hk] at hno
    simp only at hno ⊢
    split at hno
    · rename_i hb
      rw [if_pos hb, eq_of_withFeed? hk]
      rfl
    · exact absurd rfl hno

theorem distance_of_axis_ne (h : (m.setTarget target speed).1.axis i ≠ m.axis i) :
    m.distance target i ≠ 0 := by
  intro hd
  apply h
  rw [(setTarget_of_planned (planned_of_axis_ne h)).2]
  exact axis_planMove_of_distance (m := m.setDefaultSpeed (speed.getD m.defaultSpeed)) hd

/-- At a feed that is not above zero, no axis has a speed to plan at. -/
theorem feed_of_axis_ne (ha : (m.axis i).Able)
    (h : (m.setTarget target speed).1.axis i ≠ m.axis i) : 0 < m.feed speed := by
  by_contra hf
  apply h
  have hn := planned_of_axis_ne h
  have hd := distance_of_axis_ne h
  obtain ⟨v, hi⟩ := get_of_distance hd
  have htime : m.nominalTime target speed ≤ 0 :=
    div_nonpos_of_nonneg_of_nonpos (m.pathLength_nonneg target) (not_lt.mp hf)
  have hshare : m.share target speed i ≤ 0 := by
    apply div_nonpos_of_nonneg_of_nonpos (m.distance_nonneg target i)
    exact mul_nonpos_of_nonpos_of_nonneg htime (m.rate_pos target _).le
  rw [axis_setTarget_of_planned hn hi hd ha]
  apply Axis.planTo_of_none
  cases hp : Plan.toward? (m.axis i).limits (m.axis i).position ((m.axis i).toPhysical v)
      (some (m.share target speed i)) with
  | none => rfl
  | some p =>
    obtain ⟨-, hs, -, -⟩ := Plan.eq_of_toward? hp
    rw [Exact.smaller_eq, Option.getD_some] at hs
    exact absurd hshare (not_le.mpr (hs.trans_le (min_le_left _ _)))

/-- A move from rest, on axes that can move. -/
theorem slowsDown_of_atRest (ha : ∀ i, (m.axis i).Able) (hr : m.AtRest) (target : Target ℝ)
    (speed : Option ℝ) : m.SlowsDown target speed := by
  have hplans {i : AxisId} (h : (m.setTarget target speed).1.axis i ≠ m.axis i) :
      0 < m.commonTime target speed ∧ m.distance target i ≠ 0 ∧
        ((m.setTarget target speed).1.axis i).plan.Timed (m.commonTime target speed)
          (m.rampTime target speed i) := by
    have hn := planned_of_axis_ne h
    have hf := feed_of_axis_ne (ha i) h
    have hd := distance_of_axis_ne h
    obtain ⟨v, hi⟩ := get_of_distance hd
    obtain ⟨p, -, hp, htimed⟩ := timed_of_planned hn hf hi hd (ha i)
    rw [hp]
    exact ⟨commonTime_pos hn hf, hd, htimed⟩
  constructor
  · intro i
    constructor
    · intro h
      exact ⟨planned_of_axis_ne h, feed_of_axis_ne (ha i) h, distance_of_axis_ne h⟩
    · rintro ⟨hn, hf, hd⟩ hsame
      obtain ⟨v, hi⟩ := get_of_distance hd
      obtain ⟨p, hp, haxis, -⟩ := timed_of_planned hn hf hi hd (ha i)
      -- At rest an axis is at its target, and a plan leads away from where the axis is.
      obtain ⟨hne, -, -, -⟩ := Plan.eq_of_toward? hp
      have htarget : (m.axis i).target = p.target := by
        rw [← hsame, haxis]
        rfl
      apply hne
      rw [hr i, htarget]
      exact (Plan.target_of_toward? hp).symm
  · intro i h hroom
    obtain ⟨hT, hd, htimed⟩ := hplans h
    exact htimed.decTime_of_le ((hasRoom_iff hT hd).mp hroom)
  · intro i h hroom
    obtain ⟨hT, hd, htimed⟩ := hplans h
    exact htimed.lt_decTime hT (not_le.mp fun hle => hroom ((hasRoom_iff hT hd).mpr hle))

theorem slowsDown_stock :
    let m : Machine ℝ := ofConfig MachineConfig.stock
    ((∀ i, (m.axis i).Able) ∧ m.AtRest) ∧ m.SlowsDown hop none := by
  intro m
  exact ⟨⟨able_stock, atRest_ofConfig _⟩,
    slowsDown_of_atRest able_stock (atRest_ofConfig _) hop none⟩

/-- X gets up to its share of the speed on its way, and Z does not. -/
theorem slows_down_apart :
    let m : Machine ℝ := ofConfig MachineConfig.stock
    let n := (m.setTarget hop none).1
    ((∀ i, (m.axis i).Able) ∧ m.AtRest ∧ n.axis .x ≠ m.axis .x ∧ n.axis .z ≠ m.axis .z) ∧
      (n.axis .x).plan.decTime ≠ (n.axis .z).plan.decTime := by
  intro m n
  have hz : (0.0 : ℝ) = 0 := by norm_num
  have htimed {i : AxisId} {v : ℝ} (hi : hop.get i = some v) (hv : v ≠ 0) :
      (n.axis i).plan.Timed 0.05 (v / 0.05 / (AxisConfig.stock i : AxisConfig ℝ).maxAcc) := by
    obtain ⟨p, -, hp, htimed⟩ := timed_stock hi hv
    have hplan : (n.axis i).plan = p := congrArg Axis.plan hp
    rw [hplan]
    exact htimed
  have hx : (n.axis .x).plan.decTime = 0.05 := by
    apply (htimed rfl (by norm_num)).decTime_of_le
    rw [AxisConfig.stock]
    norm_num
  have hlater : 0.05 < (n.axis .z).plan.decTime := by
    apply (htimed rfl (by norm_num)).lt_decTime
    · norm_num
    · rw [AxisConfig.stock]
      norm_num
  have hrest (i : AxisId) (h : n.axis i = m.axis i) : (n.axis i).plan.decTime = 0 := by
    rw [h, axis_ofConfig]
    exact hz
  refine ⟨⟨able_stock, atRest_ofConfig _, ?_, ?_⟩, ?_⟩
  · intro h
    have := hrest .x h
    norm_num [hx] at this
  · intro h
    have := hrest .z h
    norm_num [this] at hlater
  · rw [hx]
    exact hlater.ne

end Machine

end Gantry
