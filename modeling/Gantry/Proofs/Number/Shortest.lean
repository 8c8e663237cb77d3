import Mathlib
import Gantry.Number.Shortest
import Gantry.Proofs.Number.Bits

/-!
# Shortest decimals

The decimal that is written for a number lies in the interval that rounds to it. Where the decimal
has less than 53 binary digits and places after the point it is not an end of that interval, so
that no other number is as near to it.

This does NOT show that no decimal with fewer digits does the same.
-/

namespace Gantry.Number

variable {m : ℕ} {e : ℤ} {y r : ℚ}

theorem le_of_lt_unit {j k : ℤ} (h : (j : ℚ) * 2 ^ e < k * 2 ^ e) :
    ((j + 1 : ℤ) : ℚ) * 2 ^ e ≤ k * 2 ^ e := by
  have hpos : (0 : ℚ) < 2 ^ e := by positivity
  have hlt : j < k := by exact_mod_cast lt_of_mul_lt_mul_right h hpos.le
  have hle : ((j + 1 : ℤ) : ℚ) ≤ k := by exact_mod_cast hlt
  gcongr

theorem OnGrid.cases_unit (h : OnGrid y) (e : ℤ) :
    (∃ k : ℤ, y = k * 2 ^ e) ∨ y ≤ 2 ^ 52 * 2 ^ e ∧ e ≠ -1074 := by
  obtain ⟨n, s, hn, hs, rfl⟩ := h
  rcases le_or_gt e s with hes | hes
  · obtain ⟨d, rfl⟩ : ∃ d : ℕ, s = e + d := ⟨(s - e).toNat, by omega⟩
    refine Or.inl ⟨n * 2 ^ d, ?_⟩
    rw [zpow_add₀ (by norm_num), zpow_natCast]
    push_cast
    ring
  · refine Or.inr ⟨?_, by omega⟩
    have hn53 : (n : ℚ) ≤ 2 ^ (53 : ℤ) := by
      have := (le_abs_self n).trans hn
      exact_mod_cast this
    calc (n : ℚ) * 2 ^ s ≤ 2 ^ (53 : ℤ) * 2 ^ s := by gcongr
      _ = 2 ^ (53 + s) := by rw [← zpow_add₀ (by norm_num)]
      _ ≤ 2 ^ (52 + e) := zpow_le_zpow_right₀ (by norm_num) (by omega)
      _ = 2 ^ 52 * 2 ^ e := by rw [zpow_add₀ (by norm_num)]; norm_num

theorem OnGrid.succ_le (h : OnGrid y) (hfull : 2 ^ 52 ≤ m ∨ e = -1074)
    (hy : m * 2 ^ e < y) : (m + 1) * 2 ^ e ≤ y := by
  rcases h.cases_unit e with ⟨k, rfl⟩ | ⟨hlow, hleast⟩
  · have := le_of_lt_unit (j := m) (by exact_mod_cast hy)
    exact_mod_cast this
  · have hm : (2 : ℚ) ^ 52 ≤ m := by exact_mod_cast hfull.resolve_right hleast
    have hle : (2 : ℚ) ^ 52 * 2 ^ e ≤ m * 2 ^ e := by gcongr
    linarith

/-- The width of the interval below a number, in quarters of the unit. -/
def quartersBelow (m : ℕ) (e : ℤ) : ℕ :=
  if m = 2 ^ 52 ∧ -1074 < e then 1 else 2

theorem OnGrid.le_pred (h : OnGrid y) (he : -1074 ≤ e) (hfull : 2 ^ 52 ≤ m ∨ e = -1074)
    (hy : y < m * 2 ^ e) : y ≤ (m - quartersBelow m e / 2) * 2 ^ e := by
  have hpos : (0 : ℚ) < 2 ^ e := by positivity
  unfold quartersBelow
  split
  · rename_i hpower
    obtain ⟨rfl, hleast⟩ := hpower
    have hhalf : (2 : ℚ) ^ e = 2 * 2 ^ (e - 1) := by
      rw [zpow_sub_one₀ (by norm_num)]
      ring
    rcases h.cases_unit (e - 1) with ⟨k, rfl⟩ | ⟨hlow, -⟩
    · have hunits : (((2 ^ 52 : ℕ) : ℚ)) * 2 ^ e = ((2 ^ 53 : ℤ) : ℚ) * 2 ^ (e - 1) := by
        rw [hhalf]
        push_cast
        ring
      rw [hunits] at hy
      have := le_of_lt_unit hy
      push_cast at this ⊢
      rw [hhalf]
      linarith
    · push_cast
      rw [hhalf]
      have : (0 : ℚ) < 2 ^ (e - 1) := by positivity
      linarith
  · rename_i hpower
    rcases h.cases_unit e with ⟨k, rfl⟩ | ⟨hlow, hleast⟩
    · have := le_of_lt_unit (k := m) (by exact_mod_cast hy)
      push_cast at this ⊢
      linarith
    · have hm : 2 ^ 52 + 1 ≤ m := by
        have := hfull.resolve_right hleast
        omega
      have hm' : ((2 ^ 52 + 1 : ℕ) : ℚ) ≤ m := by exact_mod_cast hm
      push_cast at hm' ⊢
      nlinarith

/-- Strictly inside the interval of a number there is no nearest point but the number. -/
theorem Nearest.eq_of_inside (h : Nearest r y) (he : -1074 ≤ e) (hm53 : m < 2 ^ 53)
    (hfull : 2 ^ 52 ≤ m ∨ e = -1074) (hlo : (m - quartersBelow m e / 4) * 2 ^ e < r)
    (hhi : r < (m + 1 / 2) * 2 ^ e) : y = m * 2 ^ e := by
  have hx : OnGrid (m * 2 ^ e) := by
    refine ⟨m, e, ?_, he, by push_cast; rfl⟩
    rw [abs_of_nonneg (by positivity)]
    exact_mod_cast hm53.le
  have hdist := h.closest _ hx
  rcases lt_trichotomy y (m * 2 ^ e) with hy | hy | hy
  · have hpred := h.onGrid.le_pred he hfull hy
    rw [abs_of_neg (by linarith)] at hdist
    rcases le_total r (m * 2 ^ e) with hr | hr
    · rw [abs_of_nonneg (by linarith)] at hdist
      linarith
    · rw [abs_of_nonpos (by linarith)] at hdist
      linarith
  · exact hy
  · have hsucc := h.onGrid.succ_le hfull hy
    rw [abs_of_pos (by linarith)] at hdist
    rcases le_total r (m * 2 ^ e) with hr | hr
    · rw [abs_of_nonneg (by linarith)] at hdist
      linarith
    · rw [abs_of_nonpos (by linarith)] at hdist
      linarith

variable {d : Dyadic} {s : ℤ} {n : ℕ} {tie : Tie}

theorem Interval.contains_of_pick? {v : Interval} (h : v.pick? tie = some n) :
    v.contains n = true := by
  unfold pick? at h
  simp only at h
  split at h
  · rename_i hbelow habove
    cases tie <;> split_ifs at h <;> rwa [← Option.some.inj h]
  · rwa [← Option.some.inj h]
  · rwa [← Option.some.inj h]
  · cases h

/-- A grid that is finer than half of the interval has a point in it. -/
theorem Interval.pick?_isSome {v : Interval} (tie : Tie) (hscale : 0 < v.scale)
    (hlow : v.low ≤ v.value) (hfine : v.value + v.scale < v.high) :
    ∃ n, v.pick? tie = some n := by
  have hdiv := Nat.div_add_mod v.value v.scale
  have hmod := Nat.mod_lt v.value hscale
  have hpoint : (v.value / v.scale + 1) * v.scale =
      v.scale * (v.value / v.scale) + v.scale := by ring
  have habove : v.contains (v.value / v.scale + 1) = true := by
    unfold contains
    simp only
    rw [hpoint]
    split <;>
    · rw [Bool.and_eq_true, decide_eq_true_iff, decide_eq_true_iff]
      omega
  unfold pick?
  simp only [habove]
  split
  · cases tie <;> split_ifs <;> exact ⟨_, rfl⟩
  · exact ⟨_, rfl⟩
  · exact ⟨_, rfl⟩
  · rename_i hno
    cases hno

/-- The search ends with a decimal in the interval if one of the grids that it tries has one, and
does not go on to finer grids. -/
theorem contains_searchGrid {k : ℕ} (hk : k < n)
    (h : ∃ q, (Interval.around d (s - k)).pick? tie = some q) :
    (Interval.around d (searchGrid d tie n s).exponent).contains
      (searchGrid d tie n s).mantissa = true ∧
    s - k ≤ (searchGrid d tie n s).exponent ∧ (searchGrid d tie n s).exponent ≤ s := by
  induction n generalizing s k with
  | zero => omega
  | succ n ih =>
    unfold searchGrid
    cases hpick : (Interval.around d s).pick? tie with
    | some q =>
      refine ⟨Interval.contains_of_pick? hpick, ?_, le_rfl⟩
      show s - k ≤ s
      omega
    | none =>
      cases k with
      | zero =>
        obtain ⟨q, hq⟩ := h
        rw [Nat.cast_zero, sub_zero, hpick] at hq
        cases hq
      | succ k =>
        have hshift : s - 1 - (k : ℤ) = s - (k + 1 : ℕ) := by
          push_cast
          ring
        rw [← hshift] at h ⊢
        obtain ⟨hcontains, hlow, hhigh⟩ := ih (by omega) h
        refine ⟨hcontains, hlow, ?_⟩
        show (searchGrid d tie n (s - 1)).exponent ≤ s
        omega

/-- In every binade the estimate leads to a grid that is finer than the unit, though not by far. -/
theorem grid_estimate {k : ℕ} (hk : k < 2100) :
    10 ^ ((k * 1233 + 2704989) / 4096) * 2 ^ 1128 < 2 ^ k * 10 ^ 1000 ∧
      2 ^ k * 10 ^ 1000 < 10 ^ ((k * 1233 + 2704989) / 4096) * 2 ^ 1138 := by
  have hall : ((List.range 2100).all fun k =>
      Nat.blt (10 ^ ((k * 1233 + 2704989) / 4096) * 2 ^ 1128) (2 ^ k * 10 ^ 1000) &&
        Nat.blt (2 ^ k * 10 ^ 1000) (10 ^ ((k * 1233 + 2704989) / 4096) * 2 ^ 1138)) = true := by
    decide +kernel
  have hboth := List.all_eq_true.mp hall k (List.mem_range.mpr hk)
  obtain ⟨hlow, hhigh⟩ := Bool.and_eq_true_iff.mp hboth
  exact ⟨Nat.blt_eq.mp hlow, Nat.blt_eq.mp hhigh⟩

theorem ten_zpow_bounds {o : ℤ} (hlo : -1075 ≤ o) (hhi : o ≤ 1024) :
    (10 : ℚ) ^ (o * 1233 / 4096 - 16) < 2 ^ (o - 53) ∧
      (2 : ℚ) ^ (o - 63) < 10 ^ (o * 1233 / 4096 - 16) := by
  obtain ⟨k, rfl⟩ : ∃ k : ℕ, o = k - 1075 := ⟨(o + 1075).toNat, by omega⟩
  have hten : (10 : ℚ) ^ (((k : ℤ) - 1075) * 1233 / 4096 - 16) * 10 ^ (1000 : ℤ) =
      10 ^ (((k * 1233 + 2704989) / 4096 : ℕ) : ℤ) := by
    rw [← zpow_add₀ (by norm_num)]
    congr 1
    omega
  have htwo {i j : ℤ} (h : (k : ℤ) = i + j) : (2 : ℚ) ^ (k : ℤ) = 2 ^ i * 2 ^ j := by
    rw [h, zpow_add₀ (by norm_num)]
  obtain ⟨hlow, hhigh⟩ := grid_estimate (k := k) (by omega)
  have hpos : (0 : ℚ) < 10 ^ (1000 : ℤ) * 2 ^ (1128 : ℤ) := by positivity
  have hpos' : (0 : ℚ) < 10 ^ (1000 : ℤ) * 2 ^ (1138 : ℤ) := by positivity
  constructor
  · have hlow' : (10 : ℚ) ^ (((k * 1233 + 2704989) / 4096 : ℕ) : ℤ) * 2 ^ (1128 : ℤ) <
        2 ^ (k : ℤ) * 10 ^ (1000 : ℤ) := by
      exact_mod_cast hlow
    rw [htwo (i := k - 1075 - 53) (j := 1128) (by ring), ← hten] at hlow'
    apply lt_of_mul_lt_mul_right _ hpos.le
    linarith
  · have hhigh' : (2 : ℚ) ^ (k : ℤ) * 10 ^ (1000 : ℤ) <
        10 ^ (((k * 1233 + 2704989) / 4096 : ℕ) : ℤ) * 2 ^ (1138 : ℤ) := by
      exact_mod_cast hhigh
    rw [htwo (i := k - 1075 - 63) (j := 1138) (by ring), ← hten] at hhigh'
    apply lt_of_mul_lt_mul_right _ hpos'.le
    linarith

theorem around_scale (d : Dyadic) (s : ℤ) : ∃ c : ℚ, 0 < c ∧
    (((tenTo (-s).toNat * twoTo (d.exponent - 2).toNat : ℕ) : ℚ)) = 2 ^ (d.exponent - 2) * c ∧
    ((Interval.around d s).scale : ℚ) = 10 ^ s * c := by
  refine ⟨10 ^ (-s).toNat * 2 ^ (-(d.exponent - 2)).toNat, by positivity, ?_, ?_⟩
  · have htwo : (2 : ℚ) ^ (d.exponent - 2) * 2 ^ (-(d.exponent - 2)).toNat =
        2 ^ (d.exponent - 2).toNat := by
      rw [← zpow_natCast, ← zpow_natCast, ← zpow_add₀ (by norm_num)]
      congr 1
      omega
    have hcast : (((tenTo (-s).toNat * twoTo (d.exponent - 2).toNat : ℕ) : ℚ)) =
        10 ^ (-s).toNat * 2 ^ (d.exponent - 2).toNat := by
      exact_mod_cast rfl
    rw [hcast, ← htwo]
    ring
  · have hten : (10 : ℚ) ^ s * 10 ^ (-s).toNat = 10 ^ s.toNat := by
      rw [← zpow_natCast, ← zpow_natCast, ← zpow_add₀ (by norm_num)]
      congr 1
      omega
    have hcast : ((Interval.around d s).scale : ℚ) =
        10 ^ s.toNat * 2 ^ (-(d.exponent - 2)).toNat := by
      exact_mod_cast rfl
    rw [hcast, ← hten]
    ring

/-- The ends of the interval, as far as they belong to it. -/
structure Inside (d : Dyadic) (r : ℚ) : Prop where
  low : (d.mantissa - quartersBelow d.mantissa d.exponent / 4) * 2 ^ d.exponent ≤ r
  high : r ≤ (d.mantissa + 1 / 2) * 2 ^ d.exponent

theorem Inside.half_le {r : ℚ} (h : Inside d r) : (d.mantissa - 1 / 2) * 2 ^ d.exponent ≤ r := by
  have hquarters : ((quartersBelow d.mantissa d.exponent : ℕ) : ℚ) ≤ 2 := by
    unfold quartersBelow
    split <;> norm_num
  refine le_trans (mul_le_mul_of_nonneg_right ?_ (by positivity)) h.low
  linarith

theorem Inside.pos {r : ℚ} (h : Inside d r) (hm : 0 < d.mantissa) : 0 < r := by
  have hm1 : (1 : ℚ) ≤ d.mantissa := by exact_mod_cast hm
  have hfactor : (0 : ℚ) < d.mantissa - 1 / 2 := by linarith
  exact lt_of_lt_of_le (by positivity) h.half_le

theorem around_eq (hm : 0 < d.mantissa) (s : ℤ) : ∃ c : ℚ, 0 < c ∧
    ((Interval.around d s).low : ℚ) =
      (d.mantissa - quartersBelow d.mantissa d.exponent / 4) * 2 ^ d.exponent * c ∧
    ((Interval.around d s).high : ℚ) = (d.mantissa + 1 / 2) * 2 ^ d.exponent * c ∧
    ((Interval.around d s).scale : ℚ) = 10 ^ s * c := by
  obtain ⟨c, hc, hunit, hscale⟩ := around_scale d s
  have hquarter : (2 : ℚ) ^ d.exponent = 4 * 2 ^ (d.exponent - 2) := by
    rw [zpow_sub₀ (by norm_num)]
    norm_num
    ring
  have hlow : (Interval.around d s).low = (4 * d.mantissa - quartersBelow d.mantissa d.exponent) *
      (tenTo (-s).toNat * twoTo (d.exponent - 2).toNat) := rfl
  have hhigh : (Interval.around d s).high = (4 * d.mantissa + 2) *
      (tenTo (-s).toNat * twoTo (d.exponent - 2).toNat) := rfl
  have hbelow : quartersBelow d.mantissa d.exponent ≤ 4 * d.mantissa := by
    unfold quartersBelow
    split <;> omega
  refine ⟨c, hc, ?_, ?_, hscale⟩
  · rw [hlow, Nat.cast_mul, hunit, hquarter, Nat.cast_sub hbelow]
    push_cast
    ring
  · rw [hhigh, Nat.cast_mul, hunit, hquarter]
    push_cast
    ring

theorem inside_of_contains (hm : 0 < d.mantissa)
    (h : (Interval.around d s).contains n = true) : Inside d (n * 10 ^ s) := by
  obtain ⟨c, hc, hlow, hhigh, hscale⟩ := around_eq hm s
  have hends : (Interval.around d s).low ≤ n * (Interval.around d s).scale ∧
      n * (Interval.around d s).scale ≤ (Interval.around d s).high := by
    unfold Interval.contains at h
    simp only at h
    split at h <;>
    · rw [Bool.and_eq_true, decide_eq_true_iff, decide_eq_true_iff] at h
      omega
  have hpoint : ((n * (Interval.around d s).scale : ℕ) : ℚ) = n * 10 ^ s * c := by
    rw [Nat.cast_mul, hscale, mul_assoc]
  constructor
  · have hle := Nat.cast_le (α := ℚ).mpr hends.1
    rw [hlow, hpoint] at hle
    exact le_of_mul_le_mul_right hle hc
  · have hle := Nat.cast_le (α := ℚ).mpr hends.2
    rw [hhigh, hpoint] at hle
    exact le_of_mul_le_mul_right hle hc

theorem contains_shortest (tie : Tie) (hm : 0 < d.mantissa) {o : ℤ}
    (ho : (Nat.log2 d.mantissa : ℤ) + d.exponent = o) (hlog : Nat.log2 d.mantissa ≤ 52)
    (hlo : -1074 ≤ o) (hhi : o ≤ 1023) :
    (Interval.around d (shortest d tie).exponent).contains (shortest d tie).mantissa = true ∧
      o * 1233 / 4096 - 16 ≤ (shortest d tie).exponent ∧
      (shortest d tie).exponent ≤ o * 1233 / 4096 + 2 := by
  have hsearch : shortest d tie = searchGrid d tie 22 (o * 1233 / 4096 + 2) := by
    rw [shortest, if_neg hm.ne', ← ho]
  have hlast : o * 1233 / 4096 + 2 - ((18 : ℕ) : ℤ) = o * 1233 / 4096 - 16 := by
    push_cast
    ring
  rw [hsearch, ← hlast]
  apply contains_searchGrid (k := 18) (by norm_num)
  rw [hlast]
  obtain ⟨c, hc, hunit, hscale⟩ := around_scale d (o * 1233 / 4096 - 16)
  have hfine : (10 : ℚ) ^ (o * 1233 / 4096 - 16) < 2 * 2 ^ (d.exponent - 2) := by
    calc (10 : ℚ) ^ (o * 1233 / 4096 - 16) < 2 ^ (o - 53) :=
          (ten_zpow_bounds (by omega) (by omega)).1
      _ ≤ 2 ^ (1 + (d.exponent - 2)) := zpow_le_zpow_right₀ (by norm_num) (by omega)
      _ = 2 * 2 ^ (d.exponent - 2) := by rw [zpow_add₀ (by norm_num), zpow_one]
  generalize o * 1233 / 4096 - 16 = s at *
  have hvalue : (Interval.around d s).value =
      4 * d.mantissa * (tenTo (-s).toNat * twoTo (d.exponent - 2).toNat) := rfl
  have hhigh : (Interval.around d s).high = (4 * d.mantissa + 2) *
      (tenTo (-s).toNat * twoTo (d.exponent - 2).toNat) := rfl
  have hstep : (Interval.around d s).scale <
      2 * (tenTo (-s).toNat * twoTo (d.exponent - 2).toNat) := by
    have hrat : ((Interval.around d s).scale : ℚ) <
        2 * ((tenTo (-s).toNat * twoTo (d.exponent - 2).toNat : ℕ) : ℚ) := by
      rw [hscale, hunit, ← mul_assoc]
      exact mul_lt_mul_of_pos_right hfine hc
    exact_mod_cast hrat
  apply Interval.pick?_isSome
  · have hpos : (0 : ℚ) < (Interval.around d s).scale := by
      rw [hscale]
      positivity
    exact_mod_cast hpos
  · exact Nat.mul_le_mul_right _ (Nat.sub_le _ _)
  · rw [hvalue, hhigh, add_mul]
    omega

/-- The decimal of a number reads back, and has digits and a power of ten of moderate size. -/
theorem inside_shortest (tie : Tie) (hm : 0 < d.mantissa) (hm53 : d.mantissa < 2 ^ 53)
    (hlo : -1074 ≤ d.exponent) (hhi : d.exponent ≤ 971) :
    Inside d ((shortest d tie).mantissa * 10 ^ (shortest d tie).exponent) ∧
      (shortest d tie).mantissa < 2 ^ 64 ∧
      -342 ≤ (shortest d tie).exponent ∧ (shortest d tie).exponent ≤ 310 := by
  have hlog : Nat.log2 d.mantissa ≤ 52 := by
    have := (Nat.log2_lt hm.ne').mpr hm53
    omega
  obtain ⟨o, ho⟩ : ∃ o : ℤ, (Nat.log2 d.mantissa : ℤ) + d.exponent = o := ⟨_, rfl⟩
  obtain ⟨hcontains, hlow, hhigh⟩ :=
    contains_shortest tie hm ho hlog (by omega) (by omega)
  have hinside := inside_of_contains hm hcontains
  refine ⟨hinside, ?_, by omega, by omega⟩
  have hbits : (d.mantissa : ℚ) + 1 / 2 ≤ 2 ^ (Nat.log2 d.mantissa + 1) := by
    have hlt : d.mantissa + 1 ≤ 2 ^ (Nat.log2 d.mantissa + 1) := Nat.lt_log2_self
    have : ((d.mantissa + 1 : ℕ) : ℚ) ≤ 2 ^ (Nat.log2 d.mantissa + 1) := by exact_mod_cast hlt
    push_cast at this
    linarith
  have hgrid := (ten_zpow_bounds (o := o) (by omega) (by omega)).2
  have hscale : (0 : ℚ) < 10 ^ (o * 1233 / 4096 - 16) := by positivity
  have hsize : ((shortest d tie).mantissa : ℚ) * 10 ^ (o * 1233 / 4096 - 16) <
      2 ^ (64 : ℤ) * 10 ^ (o * 1233 / 4096 - 16) := by
    calc ((shortest d tie).mantissa : ℚ) * 10 ^ (o * 1233 / 4096 - 16)
        ≤ (shortest d tie).mantissa * 10 ^ (shortest d tie).exponent := by
          gcongr
          norm_num
      _ ≤ (d.mantissa + 1 / 2) * 2 ^ d.exponent := hinside.high
      _ ≤ 2 ^ (Nat.log2 d.mantissa + 1) * 2 ^ d.exponent := by gcongr
      _ = 2 ^ (64 : ℤ) * 2 ^ (o - 63) := by
        rw [← zpow_natCast, ← zpow_add₀ (by norm_num), ← zpow_add₀ (by norm_num), ← ho]
        congr 1
        push_cast
        ring
      _ < 2 ^ (64 : ℤ) * 10 ^ (o * 1233 / 4096 - 16) := by gcongr
  exact_mod_cast lt_of_mul_lt_mul_right hsize hscale.le

theorem decimal_ne {N q j : ℕ} (hN : N < q) (hodd : q % 2 = 1) (t : ℤ) :
    (N : ℚ) / 10 ^ j ≠ q * 2 ^ t := by
  intro h
  have hten : (10 : ℚ) ^ j = 5 ^ j * 2 ^ (j : ℤ) := by
    rw [zpow_natCast, ← mul_pow]
    norm_num
  have hmul : (N : ℚ) = q * 5 ^ j * 2 ^ (t + j) := by
    rw [zpow_add₀ (by norm_num)]
    rw [div_eq_iff (by positivity), hten] at h
    rw [h]
    ring
  rcases le_or_gt 0 (t + j) with hpos | hneg
  · obtain ⟨k, hk⟩ := Int.eq_ofNat_of_zero_le hpos
    rw [hk, zpow_natCast] at hmul
    have hnat : N = q * 5 ^ j * 2 ^ k := by exact_mod_cast hmul
    have hle : q * 1 ≤ q * (5 ^ j * 2 ^ k) :=
      Nat.mul_le_mul_left q (Nat.one_le_iff_ne_zero.mpr (by positivity))
    rw [mul_one, ← mul_assoc, ← hnat] at hle
    omega
  · obtain ⟨k, hk⟩ : ∃ k : ℕ, t + j = -((k : ℤ) + 1) := ⟨(-(t + j) - 1).toNat, by omega⟩
    have hpow : (2 : ℚ) ^ (t + (j : ℤ)) * (2 ^ k * 2) = 1 := by
      rw [hk, zpow_neg, ← pow_succ, ← zpow_natCast]
      push_cast
      exact inv_mul_cancel₀ (by positivity)
    have hclear : (N : ℚ) * (2 ^ k * 2) = q * 5 ^ j := by
      rw [hmul, mul_assoc, hpow, mul_one]
    have hnat : N * 2 ^ k * 2 = q * 5 ^ j := by
      have : N * (2 ^ k * 2) = q * 5 ^ j := by exact_mod_cast hclear
      rw [← this, mul_assoc]
    have hodd' : q * 5 ^ j % 2 = 1 := by
      rw [Nat.mul_mod, hodd, Nat.pow_mod]
      simp
    omega

/-- A number with at most 22 decimal places is not below all full mantissas. -/
theorem Inside.exponent_ne {N j : ℕ} (h : Inside d (N / 10 ^ j)) (hj : j ≤ 22)
    (hm : 0 < d.mantissa) (hm53 : d.mantissa < 2 ^ 53) : d.exponent ≠ -1074 := by
  intro he
  have hpos := h.pos hm
  have hN : (1 : ℚ) ≤ N := by
    have hN0 : (0 : ℚ) < N := by
      by_contra hno
      have hzero : (N : ℚ) = 0 := le_antisymm (not_lt.mp hno) (by positivity)
      rw [hzero, zero_div] at hpos
      exact lt_irrefl _ hpos
    exact_mod_cast hN0
  have hplaces : (1 : ℚ) / 10 ^ 22 ≤ N / 10 ^ j := by
    have hle : (10 : ℚ) ^ j ≤ 10 ^ 22 := pow_le_pow_right₀ (by norm_num) hj
    gcongr
  have hsmall : ((d.mantissa : ℚ) + 1 / 2) * 2 ^ (-1074 : ℤ) ≤ 2 ^ (54 : ℤ) * 2 ^ (-1074 : ℤ) := by
    have hm53' : (d.mantissa : ℚ) ≤ 2 ^ 53 := by exact_mod_cast hm53.le
    gcongr
    calc (d.mantissa : ℚ) + 1 / 2 ≤ 2 ^ 53 + 1 / 2 := by gcongr
      _ ≤ 2 ^ (54 : ℤ) := by norm_num
  have htiny : (2 : ℚ) ^ (54 : ℤ) * 2 ^ (-1074 : ℤ) < 1 / 10 ^ 22 := by
    calc (2 : ℚ) ^ (54 : ℤ) * 2 ^ (-1074 : ℤ) = 2 ^ (-1020 : ℤ) := by
          rw [← zpow_add₀ (by norm_num)]
          norm_num
      _ ≤ 2 ^ (-74 : ℤ) := zpow_le_zpow_right₀ (by norm_num) (by norm_num)
      _ < 1 / 10 ^ 22 := by norm_num
  have hhigh := h.high
  rw [he] at hhigh
  linarith

/-- The ends of the interval have too many binary digits. -/
theorem Inside.strict {N j : ℕ} (h : Inside d (N / 10 ^ j)) (hN : N < 2 ^ 53)
    (hfull : 2 ^ 52 ≤ d.mantissa) (he : -1074 < d.exponent) :
    (d.mantissa - quartersBelow d.mantissa d.exponent / 4) * 2 ^ d.exponent < (N : ℚ) / 10 ^ j ∧
      (N : ℚ) / 10 ^ j < (d.mantissa + 1 / 2) * 2 ^ d.exponent := by
  have hhalf : (2 : ℚ) ^ d.exponent = 2 * 2 ^ (d.exponent - 1) := by
    rw [zpow_sub_one₀ (by norm_num)]
    ring
  have hquarter : (2 : ℚ) ^ d.exponent = 4 * 2 ^ (d.exponent - 2) := by
    rw [zpow_sub₀ (by norm_num)]
    norm_num
    ring
  constructor
  · refine lt_of_le_of_ne h.low fun heq => ?_
    unfold quartersBelow at heq
    split at heq
    · have hend := decimal_ne (N := N) (q := 4 * d.mantissa - 1) (j := j) (by omega) (by omega)
        (d.exponent - 2)
      rw [Nat.cast_sub (by omega)] at hend
      apply hend
      rw [← heq, hquarter]
      push_cast
      ring
    · have hend := decimal_ne (N := N) (q := 2 * d.mantissa - 1) (j := j) (by omega) (by omega)
        (d.exponent - 1)
      rw [Nat.cast_sub (by omega)] at hend
      apply hend
      rw [← heq, hhalf]
      push_cast
      ring
  · refine lt_of_le_of_ne h.high fun heq => ?_
    apply decimal_ne (N := N) (q := 2 * d.mantissa + 1) (j := j) (by omega) (by omega)
      (d.exponent - 1)
    rw [heq, hhalf]
    push_cast
    ring

theorem bounds_of_isPositive {x : Float} (hx : Scalar.isPositive x = true) :
    0 < (Dyadic.ofFloat x).mantissa ∧ (Dyadic.ofFloat x).exponent ≤ 971 ∧
      toRat x = (Dyadic.ofFloat x).mantissa * 2 ^ (Dyadic.ofFloat x).exponent := by
  obtain ⟨h0, hlt⟩ := isPositive_iff_toBits.mp hx
  obtain ⟨hfin, hm, hrat⟩ := toRat_of_toBits h0 hlt
  obtain ⟨-, -, hfull⟩ := full_of_isPositive hx
  obtain ⟨hm', hunpack⟩ := unpack_of_toBits h0 hlt
  have hbound := (canonical_unpack hfin).2
  rw [hunpack] at hbound
  exact ⟨hm, exponent_le hm' hfull hbound, hrat⟩

/-- A number above zero is read from its decimal, if that has less than 53 binary digits and no
more than 22 places, by whatever rounds to a nearest number. -/
theorem nearest_shortest {x : Float} (hx : Scalar.isPositive x = true) {tie : Tie} {N j : ℕ}
    (hN : N < 2 ^ 53) (hj : j ≤ 22)
    (hvalue : ((shortest (Dyadic.ofFloat x) tie).mantissa : ℚ) *
      10 ^ (shortest (Dyadic.ofFloat x) tie).exponent = N / 10 ^ j)
    (hy : Nearest (N / 10 ^ j) y) : y = toRat x := by
  obtain ⟨hm, hlast, hrat⟩ := bounds_of_isPositive hx
  obtain ⟨hm53, hleast, hfull⟩ := full_of_isPositive hx
  have hinside := (inside_shortest tie hm hm53 hleast hlast).1
  rw [hvalue] at hinside
  have hne := hinside.exponent_ne hj hm hm53
  obtain ⟨hlow, hhigh⟩ := hinside.strict hN (hfull.resolve_right hne) (by omega)
  rw [hrat]
  exact hy.eq_of_inside hleast hm53 hfull hlow hhigh

end Gantry.Number
