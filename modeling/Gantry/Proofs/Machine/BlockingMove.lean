import Gantry.Config.Basic
import Gantry.Number.Binary64
import Gantry.Proofs.Machine.Reachable

/-!
# Blocking moves

A move from rest, waited for until no axis moves any more, and one tick beyond. In exact arithmetic
every axis that was named is then where it was asked to be and every other axis is where it was,
unless the move is overlooked: one of X, Y and Z is named, none of them has a way to go, and the
extruder is named besides and has one. Then the length of the move counts as zero and the extruder
is not moved either.

Nothing here says how long a move takes.
-/

namespace Gantry

theorem AxisId.exists_le (b : AxisId → ℝ) : ∃ t, ∀ i, b i ≤ t := by
  refine ⟨max (max (b .x) (b .y)) (max (b .z) (b .e)), fun i => ?_⟩
  cases i with
  | x => exact (le_max_left _ _).trans (le_max_left _ _)
  | y => exact (le_max_right _ _).trans (le_max_left _ _)
  | z => exact (le_max_left _ _).trans (le_max_right _ _)
  | e => exact (le_max_right _ _).trans (le_max_right _ _)

namespace Machine

def after {α : Type} [Scalar α] (m : Machine α) (times : ℕ → α) :
    ℕ → Except BoundsFault (Machine α)
  | 0 => .ok m
  | n + 1 => m.after times n >>= fun m => m.run (times n)

def AtRest (m : Machine ℝ) : Prop :=
  ∀ i, (m.axis i).AtTarget

def HasFeed (m : Machine ℝ) (speed : Option ℝ) : Prop :=
  0 < speed.getD m.defaultSpeed

/-- Named axes are where they were asked to be, the others where they were. -/
def Reaches (m n : Machine ℝ) (target : Target ℝ) : Prop :=
  ∀ i, match target.get i with
    | some v => Scalar.Near v (n.axis i).virtualPosition
    | none => (n.axis i).position = (m.axis i).position ∧
        (n.axis i).virtualPosition = (m.axis i).virtualPosition

/-- X, Y or Z is named, none of them has a way to go, but the extruder has one. -/
def Overlooks (m : Machine ℝ) (target : Target ℝ) : Prop :=
  target.hasCartesian = true ∧ (∀ i ∈ AxisId.cartesian, m.distance target i = 0) ∧
    m.distance target .e ≠ 0

variable {m n : Machine ℝ} {target : Target ℝ} {speed : Option ℝ}

theorem distance_of_none {i : AxisId} (h : target.get i = none) : m.distance target i = 0 := by
  have hz : (0.0 : ℝ) = 0 := by norm_num
  unfold distance
  rw [h, hz]

theorem distance_of_some {i : AxisId} {v : ℝ} (h : target.get i = some v) :
    m.distance target i = if Scalar.Near v (m.axis i).virtualPosition then 0
      else |v - (m.axis i).virtualPosition| := by
  have hz : (0.0 : ℝ) = 0 := by norm_num
  unfold distance
  rw [h, hz]
  rfl

theorem ne_of_not_near {x y : ℝ} (h : ¬ Scalar.Near x y) : x ≠ y :=
  fun he => h (Exact.near_of_eq he)

theorem distance_eq_zero_iff {i : AxisId} {v : ℝ} (h : target.get i = some v) :
    m.distance target i = 0 ↔ Scalar.Near v (m.axis i).virtualPosition := by
  rw [distance_of_some h]
  constructor
  · intro hd
    by_contra hn
    rw [if_neg hn, abs_eq_zero, sub_eq_zero] at hd
    exact ne_of_not_near hn hd
  · intro hn
    rw [if_pos hn]

theorem distance_nonneg (m : Machine ℝ) (target : Target ℝ) (i : AxisId) :
    0 ≤ m.distance target i := by
  cases h : target.get i with
  | none => exact (distance_of_none h).ge
  | some v =>
    rw [distance_of_some h]
    split
    · exact le_refl 0
    · exact abs_nonneg _

theorem pathLength_of_cartesian (h : target.hasCartesian = true) :
    m.pathLength target = Real.sqrt (m.distance target .x * m.distance target .x +
      m.distance target .y * m.distance target .y +
      m.distance target .z * m.distance target .z) := by
  have hz : (0.0 : ℝ) = 0 := by norm_num
  unfold pathLength
  rw [if_pos h, Exact.sqrt_eq]
  congr 1
  simp [Scalar.sum, AxisId.cartesian, hz]

theorem pathLength_of_not_cartesian (h : ¬ target.hasCartesian = true) :
    m.pathLength target = m.distance target .e := by
  unfold pathLength
  rw [if_neg h]

theorem pathLength_nonneg (m : Machine ℝ) (target : Target ℝ) : 0 ≤ m.pathLength target := by
  by_cases h : target.hasCartesian = true
  · rw [pathLength_of_cartesian h]
    exact Real.sqrt_nonneg _
  · rw [pathLength_of_not_cartesian h]
    exact distance_nonneg m target .e

theorem distance_of_pathLength (h : target.hasCartesian = true) (hp : m.pathLength target = 0) :
    ∀ i ∈ AxisId.cartesian, m.distance target i = 0 := by
  rw [pathLength_of_cartesian h] at hp
  have hx := mul_self_nonneg (m.distance target .x)
  have hy := mul_self_nonneg (m.distance target .y)
  have hz := mul_self_nonneg (m.distance target .z)
  have hsum := (Real.sqrt_eq_zero (by linarith)).mp hp
  intro i hi
  apply mul_self_eq_zero.mp
  cases i with
  | x => linarith
  | y => linarith
  | z => linarith
  | e => simp [AxisId.cartesian] at hi

theorem pathLength_of_distance (h : target.hasCartesian = true)
    (hd : ∀ i ∈ AxisId.cartesian, m.distance target i = 0) : m.pathLength target = 0 := by
  rw [pathLength_of_cartesian h, hd .x (by simp [AxisId.cartesian]),
    hd .y (by simp [AxisId.cartesian]), hd .z (by simp [AxisId.cartesian])]
  simp

/-- A move of no length that is not overlooked has no way to go on any axis. -/
theorem distance_eq_zero (hp : m.pathLength target = 0) (ho : ¬ m.Overlooks target) (i : AxisId) :
    m.distance target i = 0 := by
  by_cases h : target.hasCartesian = true
  · have hd := distance_of_pathLength h hp
    by_cases hi : i ∈ AxisId.cartesian
    · exact hd i hi
    · have he : i = .e := by cases i <;> simp [AxisId.cartesian] at hi ⊢
      by_contra hne
      exact ho ⟨h, hd, he ▸ hne⟩
  · rw [pathLength_of_not_cartesian h] at hp
    cases hi : target.get i with
    | none => exact distance_of_none hi
    | some v =>
      have hc : i ∉ AxisId.cartesian := by
        intro hmem
        exact h (List.any_eq_true.mpr ⟨i, hmem, by simp [hi]⟩)
      have he : i = .e := by cases i <;> simp [AxisId.cartesian] at hc ⊢
      rw [he]
      exact hp

theorem pathLength_of_overlooks (h : m.Overlooks target) : m.pathLength target = 0 :=
  pathLength_of_distance h.1 h.2.1

theorem foldl_larger_spec (xs : List ℝ) (r : ℝ) :
    r ≤ xs.foldl Scalar.larger r ∧ (∀ x ∈ xs, x ≤ xs.foldl Scalar.larger r) ∧
      (xs.foldl Scalar.larger r = r ∨ xs.foldl Scalar.larger r ∈ xs) := by
  induction xs generalizing r with
  | nil => exact ⟨le_refl r, nofun, Or.inl rfl⟩
  | cons x xs ih =>
    rw [List.foldl_cons, Exact.larger_eq]
    obtain ⟨hle, hmem, hcases⟩ := ih (max r x)
    refine ⟨(le_max_left r x).trans hle, ?_, ?_⟩
    · intro y hy
      rcases List.mem_cons.mp hy with rfl | hy
      · exact (le_max_right r y).trans hle
      · exact hmem y hy
    · rcases hcases with heq | hin
      · rw [heq]
        rcases max_choice r x with hr | hx
        · exact Or.inl hr
        · rw [hx]
          exact Or.inr List.mem_cons_self
      · exact Or.inr (List.mem_cons_of_mem x hin)

theorem rate_pos (m : Machine ℝ) (target : Target ℝ) (t : ℝ) : 0 < m.rate target t := by
  have hz : (1.0 : ℝ) = 1 := by norm_num
  unfold rate
  rw [hz]
  exact one_pos.trans_le (foldl_larger_spec _ _).1

theorem Able.commandedSpeed_pos (h : m.Able) {t : ℝ} (ht : 0 < t) {i : AxisId}
    (hd : m.distance target i ≠ 0) : 0 < m.commandedSpeed target t i := by
  have hpos : 0 < m.distance target i := lt_of_le_of_ne (distance_nonneg m target i) hd.symm
  have hmax := (h.axes i).speed
  unfold commandedSpeed fraction
  exact div_pos (mul_pos (div_pos (div_pos hpos ht) hmax) hmax) (rate_pos m target t)

theorem withFeed?_of_hasFeed (h : m.HasFeed speed) :
    m.withFeed? speed = some (m.setDefaultSpeed (speed.getD m.defaultSpeed)) := by
  cases speed with
  | none => rfl
  | some v =>
    have hv : Scalar.isPositive v = true := Exact.isPositive_iff.mpr h
    simp [withFeed?, hv]

theorem axes_setTarget_of_pathLength (hs : m.HasFeed speed) (hp : m.pathLength target = 0) :
    (m.setTarget target speed).1.axes = m.axes := by
  have hz : (0.0 : ℝ) = 0 := by norm_num
  have hb : ((m.setDefaultSpeed (speed.getD m.defaultSpeed)).pathLength target == 0.0) = true :=
    Exact.beq_iff.mpr (Eq.trans hp hz.symm)
  unfold setTarget
  rw [withFeed?_of_hasFeed hs]
  simp only
  rw [if_pos hb]
  rfl

theorem setTarget_of_pathLength (h : m.Able) (hs : m.HasFeed speed)
    (hp : m.pathLength target ≠ 0) :
    ∃ t, 0 < t ∧ (m.setTarget target speed).1 =
      (m.setDefaultSpeed (speed.getD m.defaultSpeed)).planMove target t := by
  have hz : (0.0 : ℝ) = 0 := by norm_num
  have hb : ¬ ((m.setDefaultSpeed (speed.getD m.defaultSpeed)).pathLength target == 0.0) = true :=
    fun hb => hp (Eq.trans (Exact.beq_iff.mp hb) hz)
  have hpos := lt_of_le_of_ne (pathLength_nonneg m target) (Ne.symm hp)
  refine ⟨_, div_pos hpos (mul_pos hs h.feedOverride), ?_⟩
  unfold setTarget
  rw [withFeed?_of_hasFeed hs]
  simp only
  rw [if_neg hb]
  rfl

theorem axis_planMove_of_distance {t : ℝ} {i : AxisId} (hd : m.distance target i = 0) :
    (m.planMove target t).axis i = m.axis i := by
  have hz : (0.0 : ℝ) = 0 := by norm_num
  simp only [planMove, axis, PerAxis.get_ofFn]
  split
  · rfl
  · rw [if_pos (Exact.beq_iff.mpr (hd.trans hz.symm))]

theorem axis_planMove_of_some {t : ℝ} {i : AxisId} {v : ℝ} (hi : target.get i = some v)
    (hd : m.distance target i ≠ 0) : (m.planMove target t).axis i =
      (m.axis i).setTarget v (some (m.commandedSpeed target t i)) := by
  have hz : (0.0 : ℝ) = 0 := by norm_num
  simp only [planMove, axis, PerAxis.get_ofFn, hi]
  rw [if_neg fun hb => hd ((Exact.beq_iff.mp hb).trans hz)]

/-- An axis that has no way to go, or belongs to a move of no length, is left alone. -/
theorem axis_setTarget_of_distance (h : m.Able) (hs : m.HasFeed speed) {i : AxisId}
    (hd : m.pathLength target = 0 ∨ m.distance target i = 0) :
    (m.setTarget target speed).1.axis i = m.axis i := by
  by_cases hp : m.pathLength target = 0
  · rw [axis, axes_setTarget_of_pathLength hs hp, axis]
  · obtain ⟨t, -, he⟩ := setTarget_of_pathLength h hs hp
    rw [he]
    exact axis_planMove_of_distance (hd.resolve_left hp)

/-- An axis that has a way to go takes up a plan to the value it is asked for. -/
theorem axis_setTarget_of_some (h : m.Able) (hs : m.HasFeed speed) {i : AxisId} {v : ℝ}
    (hi : target.get i = some v) (hp : m.pathLength target ≠ 0) (hd : m.distance target i ≠ 0) :
    ((m.setTarget target speed).1.axis i).target = (m.axis i).toPhysical v ∧
      ((m.setTarget target speed).1.axis i).startTime = none ∧
      ((m.setTarget target speed).1.axis i).offset = (m.axis i).offset := by
  obtain ⟨t, ht, he⟩ := setTarget_of_pathLength h hs hp
  have hable : (m.setDefaultSpeed (speed.getD m.defaultSpeed)).Able :=
    ⟨h.axes, h.feedOverride, h.heaters⟩
  have hd' : (m.setDefaultSpeed (speed.getD m.defaultSpeed)).distance target i ≠ 0 := hd
  have hv : v ≠ (m.axis i).virtualPosition :=
    fun hv => hd ((distance_eq_zero_iff hi).mpr (Exact.near_of_eq hv))
  rw [he, axis_planMove_of_some hi hd']
  obtain ⟨htarget, hstart⟩ :=
    Axis.setTarget_of_ne (h.axes i) (hable.commandedSpeed_pos ht hd') hv
  exact ⟨htarget, hstart, Axis.planTo_offset _ _ _⟩

theorem Able.after_ok (h : m.Able) (times : ℕ → ℝ) (k : ℕ) :
    ∃ n, m.after times k = .ok n ∧ n.Able := by
  induction k with
  | zero => exact ⟨m, rfl, h⟩
  | succ k ih =>
    obtain ⟨n, hn, ha⟩ := ih
    obtain ⟨o, ho⟩ := ha.run_ok (times k)
    refine ⟨o, ?_, ha.run ho⟩
    rw [after, hn]
    exact ho

theorem axis_after {times : ℕ → ℝ} {k : ℕ} (hn : m.after times k = .ok n) (i : AxisId) :
    n.axis i = (m.axis i).after times k := by
  induction k generalizing n with
  | zero =>
    cases hn
    rfl
  | succ k ih =>
    obtain ⟨o, ho, hrun⟩ := ok_of_bind hn
    rw [(parts_of_run hrun).1 i, ih ho, Axis.after]

theorem isMoving_eq_false_iff : m.isMoving = false ↔ ∀ i, ¬ (m.axis i).Moving := by
  unfold isMoving
  rw [List.any_eq_false]
  constructor
  · intro h i
    simpa using h i (AxisId.mem_all i)
  · intro h i _
    simpa using h i

theorem atRest_of_not_moving {times : ℕ → ℝ} {k : ℕ} {o : Machine ℝ}
    (hn : m.after times k = .ok n) (hm : n.isMoving = false) (ho : m.after times (k + 1) = .ok o) :
    o.AtRest := by
  intro i
  have hi := isMoving_eq_false_iff.mp hm i
  rw [axis_after hn i] at hi
  rw [axis_after ho i, Axis.AtTarget, Axis.after, Axis.run_target]
  exact Axis.position_run_of_not_moving hi _

theorem exists_stop (h : m.Able) (times : ℕ → ℝ) (ht : ∀ b, ∃ k, b ≤ times k)
    (ha : ∀ i, (m.axis i).startTime = none ∨ (m.axis i).AtTarget) :
    ∃ k n, m.after times k = .ok n ∧ n.isMoving = false := by
  have hex (i : AxisId) := Axis.exists_atTarget times (ha i)
  choose b hb using hex
  obtain ⟨late, hlate⟩ := AxisId.exists_le b
  obtain ⟨k, hk⟩ := ht late
  obtain ⟨n, hn, -⟩ := h.after_ok times (k + 1)
  refine ⟨k + 1, n, hn, isMoving_eq_false_iff.mpr fun i => ?_⟩
  apply Axis.not_moving_of_atTarget
  rw [axis_after hn i]
  exact hb i k ((hlate i).trans hk)

theorem axis_setTarget_ready (h : m.Able) (hr : m.AtRest) (hs : m.HasFeed speed) (i : AxisId) :
    ((m.setTarget target speed).1.axis i).startTime = none ∨
      ((m.setTarget target speed).1.axis i).AtTarget := by
  by_cases hd : m.pathLength target = 0 ∨ m.distance target i = 0
  · right
    rw [axis_setTarget_of_distance h hs hd]
    exact hr i
  · obtain ⟨hp, hd⟩ := not_or.mp hd
    cases hi : target.get i with
    | none => exact absurd (distance_of_none hi) hd
    | some v => exact Or.inl (axis_setTarget_of_some h hs hi hp hd).2.1

/-- A machine that came to rest after a move is where it was asked to be, exactly where the move
is not overlooked. -/
theorem reaches_iff (h : m.Able) (hr : m.AtRest) (hs : m.HasFeed speed) {o : Machine ℝ}
    (ho : o.AtRest)
    (ht : ∀ i, (o.axis i).target = ((m.setTarget target speed).1.axis i).target)
    (hf : ∀ i, (o.axis i).offset = ((m.setTarget target speed).1.axis i).offset) :
    m.Reaches o target ↔ ¬ m.Overlooks target := by
  have hstay {i : AxisId} (hd : m.pathLength target = 0 ∨ m.distance target i = 0) :
      (o.axis i).position = (m.axis i).position ∧
        (o.axis i).virtualPosition = (m.axis i).virtualPosition := by
    have he := axis_setTarget_of_distance h hs hd
    have hpos : (o.axis i).position = (m.axis i).position := by
      rw [ho i, ht, he, hr i]
    refine ⟨hpos, ?_⟩
    rw [Axis.virtualPosition, Axis.toVirtual, hpos, hf, he]
    rfl
  constructor
  · intro hreach hover
    have hp := pathLength_of_overlooks hover
    apply hover.2.2
    cases hi : target.get .e with
    | none => exact distance_of_none hi
    | some v =>
      have he := hreach .e
      rw [hi] at he
      simp only at he
      rw [(hstay (Or.inl hp)).2] at he
      exact (distance_eq_zero_iff hi).mpr he
  · intro hno i
    cases hi : target.get i with
    | none => exact hstay (Or.inr (distance_of_none hi))
    | some v =>
      simp only
      by_cases hd : m.pathLength target = 0 ∨ m.distance target i = 0
      · have hzero : m.distance target i = 0 := by
          rcases hd with hp | hd
          · exact distance_eq_zero hp hno i
          · exact hd
        rw [(hstay hd).2]
        exact (distance_eq_zero_iff hi).mp hzero
      · obtain ⟨hp, hd⟩ := not_or.mp hd
        obtain ⟨htarget, -, hoffset⟩ := axis_setTarget_of_some h hs hi hp hd
        apply Exact.near_of_eq
        rw [Axis.virtualPosition, Axis.toVirtual, ho i, ht, hf, htarget, hoffset, Axis.toPhysical]
        exact (sub_add_cancel _ _).symm

/-- What becomes of a move from `m` under ticks at given times. -/
structure Carries (m : Machine ℝ) (target : Target ℝ) (speed : Option ℝ) (times : ℕ → ℝ) :
    Prop where
  /-- No axis moves any more after finitely many ticks. -/
  stops : ∃ k n, (m.setTarget target speed).1.after times k = .ok n ∧ n.isMoving = false
  /-- One tick beyond, the move has done what it says unless it was overlooked. -/
  reaches : ∀ k n, (m.setTarget target speed).1.after times k = .ok n → n.isMoving = false →
    ∃ o, (m.setTarget target speed).1.after times (k + 1) = .ok o ∧
      (m.Reaches o target ↔ ¬ m.Overlooks target)

/-- A blocking move from rest, on every machine that is reachable from a valid configuration and
under ticks that go on without end. -/
theorem carries_of_atRest {c : MachineConfig ℝ} (hc : c.validate = .ok ()) (hm : Reachable c m)
    (hr : m.AtRest) (target : Target ℝ) (hs : m.HasFeed speed) (times : ℕ → ℝ)
    (ht : ∀ b, ∃ k, b ≤ times k) : m.Carries target speed times := by
  have h := hm.able hc
  have hmove := h.move target speed
  constructor
  · exact exists_stop hmove times ht (axis_setTarget_ready h hr hs)
  · intro k n hn hstop
    obtain ⟨o, ho, -⟩ := hmove.after_ok times (k + 1)
    refine ⟨o, ho, reaches_iff h hr hs (atRest_of_not_moving hn hstop ho) ?_ ?_⟩
    · intro i
      rw [axis_after ho i, Axis.target_after]
    · intro i
      rw [axis_after ho i, Axis.offset_after]

theorem validate_stock : (MachineConfig.stock : MachineConfig ℝ).validate = .ok () := by
  have hpos (name : String) {x : ℝ} (h : 0 < x) : requirePositive name x = .ok () :=
    requirePositive_iff.mpr h
  have hnonneg (name : String) {x : ℝ} (h : 0 ≤ x) : requireNonNegative name x = .ok () :=
    requireNonNegative_iff.mpr h
  have haxis (i : AxisId) : (AxisConfig.stock i : AxisConfig ℝ).validate i = .ok () := by
    cases i <;>
      simp (disch := norm_num) only [AxisConfig.validate, AxisConfig.stock, hpos, hnonneg] <;> rfl
  have hheater (k : HeaterId) : (HeaterConfig.stock k : HeaterConfig ℝ).validate k = .ok () := by
    cases k <;>
      simp (disch := norm_num) only [HeaterConfig.validate, HeaterConfig.stock, hpos, hnonneg] <;>
      rfl
  have hfinite : Scalar.isFinite (25.0 : ℝ) = true := rfl
  have hspeed : requirePositive "machine.default_speed" (0.01 : ℝ) = .ok () :=
    hpos _ (by norm_num)
  simp only [MachineConfig.validate, MachineConfig.stock, AxisId.all, HeaterId.all,
    PerAxis.get_ofFn, PerHeater.get_ofFn, haxis, hheater, hspeed, hfinite]
  rfl

def bead {α : Type} [Scalar α] : Target α :=
  ⟨some 0.01, none, none, some 0.005⟩

/-- The stock machine, sent along a bead from its zero. -/
theorem carries_stock :
    ∃ m : Machine ℝ, ((MachineConfig.stock : MachineConfig ℝ).validate = .ok () ∧
      Reachable MachineConfig.stock m ∧ m.AtRest ∧ m.HasFeed none ∧
      ∀ b : ℝ, ∃ k : ℕ, b ≤ (k : ℝ)) ∧
      m.Carries bead none (fun k => k) := by
  have hm := Reachable.start (c := (MachineConfig.stock : MachineConfig ℝ))
  have hr : (ofConfig (MachineConfig.stock : MachineConfig ℝ)).AtRest := by
    intro i
    simp [axis, ofConfig, Axis.ofConfig, Axis.AtTarget, Axis.position, Axis.target, Plan.rest]
  have hs : (ofConfig (MachineConfig.stock : MachineConfig ℝ)).HasFeed none := by
    show (0 : ℝ) < 0.01
    norm_num
  exact ⟨_, ⟨validate_stock, hm, hr, hs, exists_nat_ge⟩,
    carries_of_atRest validate_stock hm hr _ hs _ exists_nat_ge⟩

/-- An extruder that is named beside an axis already there is not moved; named alone, it is. -/
theorem extruder_overlooked :
    let m := ofConfig (MachineConfig.stock : MachineConfig Float)
    let n := (m.setTarget ⟨some 0.0, none, none, some 0.005⟩ none).1
    (n.isMoving = false ∧ (n.run 0.05).toOption.any (fun o =>
      decide (Scalar.Near 0.005 (o.axis .e).virtualPosition)) = false) ∧
      (m.setTarget ⟨none, none, none, some 0.005⟩ none).1.isMoving = true := by
  decide +kernel

end Machine

end Gantry
