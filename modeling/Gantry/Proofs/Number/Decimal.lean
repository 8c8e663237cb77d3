import Mathlib
import Gantry.Proofs.Number.Enclosure

/-!
# Decimals in binary64

A decimal becomes the nearest number, which is the decimal itself for whole numbers of 53 bits and
for powers of ten that are not too large. What is computed from numbers that are nearly right is
nearly right as well; how nearly is counted in roundings.
-/

namespace Gantry.Number

open Float.Model Float.Model.UnpackedFloat

variable {x : Float} {y z r s : ℚ} {k l n j : ℕ}

theorem toFloat_rounded (hn : n < 2 ^ 64) : IsRounded n.toUInt64.toFloat n := by
  have hsize : n.toUInt64.toNat = n := by
    rw [Nat.toUInt64_eq, UInt64.toNat_ofNat']
    omega
  refine ⟨UnpackedFloat.normalize Format.binary64 n 0 .positive, ?_, ?_⟩
  · show Float.Model.pack (UnpackedFloat.ofNat _ n.toUInt64.toNat) = _
    rw [hsize]
    rfl
  · have := rounds_normalize n 0 .positive
    rwa [zpow_zero, mul_one] at this

theorem natCast_le (hn : n ≤ 2 ^ 53) : (n : ℚ) ≤ 2 ^ (1023 : ℤ) := by
  calc (n : ℚ) ≤ 2 ^ (53 : ℤ) := by exact_mod_cast hn
    _ ≤ 2 ^ (1023 : ℤ) := zpow_le_zpow_right₀ (by norm_num) (by norm_num)

theorem IsRounded.eq_natCast (h : IsRounded x n) (hn : n ≤ 2 ^ 53) :
    x.isFinite = true ∧ toRat x = n := by
  obtain ⟨hfin, hnear⟩ := h.nearest (by
    rw [abs_of_nonneg (by positivity)]
    exact natCast_le hn)
  refine ⟨hfin, hnear.eq_of_onGrid ?_⟩
  have habs : |(n : ℤ)| ≤ 2 ^ 53 := by
    rw [abs_of_nonneg (by positivity)]
    exact_mod_cast hn
  exact_mod_cast onGrid_intCast habs

theorem full_shiftLeft {m : ℕ} (hm : 0 < m) : 2 ^ 52 ≤ m <<< Format.binary64.mantissaBits := by
  have hbits : 52 ≤ Format.binary64.mantissaBits := by decide
  rw [Nat.shiftLeft_eq]
  exact (Nat.pow_le_pow_right (by norm_num) hbits).trans (Nat.le_mul_of_pos_left _ hm)

theorem shiftLeft_mantissaBits (m : ℕ) : ((m <<< Format.binary64.mantissaBits : ℕ) : ℚ) *
    2 ^ (-(Format.binary64.mantissaBits : ℤ)) = m := by
  rw [Nat.shiftLeft_eq, zpow_neg, zpow_natCast]
  push_cast
  exact mul_inv_cancel_right₀ (by positivity) _

theorem ofScientific_eq {m : ℕ} (hm : 0 < m) {e : ℤ} (hlo : -2048 ≤ e) (hhi : e ≤ 2048) :
    UnpackedFloat.ofScientific Format.binary64 m e =
      if 0 ≤ e then
        UnpackedFloat.mul Format.binary64
          (.finite .positive (m <<< Format.binary64.mantissaBits) (-Format.binary64.mantissaBits)
            (lt_of_lt_of_le (by norm_num) (full_shiftLeft hm)))
          (.finite .positive (10 ^ e.toNat) 0 (by positivity))
      else
        UnpackedFloat.div Format.binary64 (.finite .positive m 0 hm)
          (.finite .positive (10 ^ (-e).toNat) 0 (by positivity)) := by
  have hlarge : ¬ e > 2 ^ Format.binary64.exponentBits := by
    show ¬ e > 2 ^ 11
    omega
  have hsmall : ¬ e < -((2 ^ Format.binary64.exponentBits : ℤ) + m.log2) := by
    show ¬ e < -(2 ^ 11 + (m.log2 : ℤ))
    omega
  unfold UnpackedFloat.ofScientific
  rw [dif_neg hm.ne', if_neg hlarge, if_neg hsmall]

theorem rounds_ofScientific {m : ℕ} (hm : 0 < m) (hj : j ≤ 2048) :
    Rounds (UnpackedFloat.ofScientific Format.binary64 m j) (m * 10 ^ j) := by
  rw [ofScientific_eq hm (by omega) (by omega), if_pos (by positivity)]
  have hfull := full_shiftLeft hm
  have hten : 0 < 10 ^ (j : ℤ).toNat := by positivity
  have hround := rounds_mul_finite .positive .positive (e := -Format.binary64.mantissaBits) (f := 0)
    (by omega) hten (Or.inl (le_log2_mul (by omega) hten (Or.inl hfull)))
  simp only [value, sign, one_mul, shiftLeft_mantissaBits, zpow_zero, mul_one,
    Int.toNat_natCast] at hround
  exact_mod_cast hround

theorem toRat_powerOfTen (hj : j < 23) :
    (Float.exactlyRepresentablePowersOfTen[j]).isFinite = true ∧
      toRat Float.exactlyRepresentablePowersOfTen[j] = 10 ^ j := by
  have htable : ∀ i : Fin 23, (Float.exactlyRepresentablePowersOfTen[i.val]).isFinite = true ∧
      toRat Float.exactlyRepresentablePowersOfTen[i.val] = 10 ^ i.val := by
    decide +kernel
  exact htable ⟨j, hj⟩

theorem ofDecimal_rounded (hj : j ≤ 2048) : IsRounded (ofDecimal n j) (n * 10 ^ j) := by
  show IsRounded (Float.ofScientific n false j) _
  unfold Float.ofScientific
  split
  · rename_i hfast
    obtain ⟨hn, hj22⟩ := hfast
    obtain ⟨hfin, hpower⟩ := toRat_powerOfTen (show j < 23 by omega)
    obtain ⟨hfin', hwhole⟩ := (toFloat_rounded (hn.trans (by norm_num))).eq_natCast hn.le
    have hproduct := mul_rounded hfin' hfin
    rw [hwhole, hpower] at hproduct
    exact hproduct
  · rcases Nat.eq_zero_or_pos n with rfl | hn
    · refine ⟨.zero .positive, rfl, ?_⟩
      rw [Nat.cast_zero, zero_mul]
      exact rounds_self (u := .zero .positive) trivial
    · exact ⟨_, rfl, rounds_ofScientific hn hj⟩

theorem ofDecimal_natural (hn : n ≤ 2 ^ 53) :
    (ofDecimal n 0).isFinite = true ∧ toRat (ofDecimal n 0) = n := by
  have hrounded := ofDecimal_rounded (n := n) (j := 0) (by norm_num)
  rw [pow_zero, mul_one] at hrounded
  exact hrounded.eq_natCast hn

theorem ofDecimal_one (hj : j ≤ 22) :
    (ofDecimal 1 j).isFinite = true ∧ toRat (ofDecimal 1 j) = 10 ^ j := by
  have hrounded := ofDecimal_rounded (n := 1) (j := j) (by omega)
  rw [Nat.cast_one, one_mul] at hrounded
  have hgrid : OnGrid (10 ^ j) := by
    refine ⟨5 ^ j, j, ?_, by omega, ?_⟩
    · rw [abs_of_nonneg (by positivity)]
      exact (pow_le_pow_right₀ (by norm_num) hj).trans (by norm_num)
    · rw [zpow_natCast]
      push_cast
      rw [← mul_pow]
      norm_num
  have hbound : |(10 : ℚ) ^ j| ≤ 2 ^ (1023 : ℤ) := by
    rw [abs_of_nonneg (by positivity)]
    calc (10 : ℚ) ^ j ≤ 10 ^ 22 := pow_le_pow_right₀ (by norm_num) hj
      _ ≤ 2 ^ (74 : ℤ) := by norm_num
      _ ≤ 2 ^ (1023 : ℤ) := zpow_le_zpow_right₀ (by norm_num) (by norm_num)
  obtain ⟨hfin, hnear⟩ := hrounded.nearest hbound
  exact ⟨hfin, hnear.eq_of_onGrid hgrid⟩

/-- Rounding is off by half a unit at most, if there are no more than `2 ^ 53` units. -/
theorem Nearest.abs_sub_le_unit {e : ℤ} (h : Nearest r y) (hr : 0 ≤ r) (he : -1074 ≤ e)
    (hle : r ≤ 2 ^ 53 * 2 ^ e) : |y - r| ≤ 2 ^ e / 2 := by
  have hpos : (0 : ℚ) < 2 ^ e := by positivity
  have hscaled : r / 2 ^ e ≤ 2 ^ 53 := (div_le_iff₀ hpos).mpr hle
  have hscaled0 : 0 ≤ r / 2 ^ e := by positivity
  obtain ⟨n, hn⟩ : ∃ n : ℤ, |r / 2 ^ e - n| ≤ 1 / 2 := ⟨_, abs_sub_round _⟩
  obtain ⟨hlo, hhi⟩ := abs_le.mp hn
  have hgrid : OnGrid (n * 2 ^ e) := by
    refine ⟨n, e, abs_le.mpr ⟨?_, ?_⟩, he, rfl⟩
    · have : (-1 : ℚ) < n := by linarith
      have : -1 < n := by exact_mod_cast this
      omega
    · have : (n : ℚ) < 2 ^ 53 + 1 := by linarith
      have : n < 2 ^ 53 + 1 := by exact_mod_cast this
      omega
  have hscale : |n * 2 ^ e - r| = |r / 2 ^ e - n| * 2 ^ e := by
    rw [abs_sub_comm, ← abs_of_pos hpos, ← abs_mul, abs_of_pos hpos, sub_mul,
      div_mul_cancel₀ _ hpos.ne']
  calc |y - r| ≤ |n * 2 ^ e - r| := h.closest _ hgrid
    _ ≤ 1 / 2 * 2 ^ e := by
      rw [hscale]
      gcongr
    _ = 2 ^ e / 2 := by ring

/-- Where all 53 digits fit, rounding is off by one part in `2 ^ 53` at most. -/
theorem Nearest.abs_sub_le (h : Nearest r y) (hr : 2 ^ (-1022 : ℤ) ≤ r) :
    |y - r| ≤ r * 2 ^ (-53 : ℤ) := by
  have hpos : (0 : ℚ) < r := lt_of_lt_of_le (by positivity) hr
  have hlow := Int.zpow_log_le_self (b := 2) (by norm_num) hpos
  have hhigh := Int.lt_zpow_succ_log_self (b := 2) (by norm_num) r
  have hlog : -1022 ≤ Int.log 2 r :=
    (Int.zpow_le_iff_le_log (by norm_num) hpos).mp (by exact_mod_cast hr)
  obtain ⟨e, he⟩ : ∃ e, Int.log 2 r = e + 52 := ⟨Int.log 2 r - 52, by ring⟩
  rw [he] at hlow hhigh hlog
  push_cast at hlow hhigh
  have hunit := h.abs_sub_le_unit (e := e) hpos.le (by omega) (by
    rw [← zpow_natCast, ← zpow_add₀ (by norm_num)]
    refine hhigh.le.trans (zpow_le_zpow_right₀ (by norm_num) ?_)
    push_cast
    omega)
  calc |y - r| ≤ 2 ^ e / 2 := hunit
    _ = 2 ^ (e + 52) * 2 ^ (-53 : ℤ) := by
      rw [zpow_add₀ (by norm_num), mul_assoc]
      norm_num
      ring
    _ ≤ r * 2 ^ (-53 : ℤ) := by gcongr

/-- Below that it is off by half the least number. -/
theorem Nearest.abs_sub_le_least (h : Nearest r y) (hr0 : 0 ≤ r) (hr : r ≤ 2 ^ (-1021 : ℤ)) :
    |y - r| ≤ 2 ^ (-1075 : ℤ) := by
  have hle : r ≤ 2 ^ 53 * 2 ^ (-1074 : ℤ) := by
    rw [← zpow_natCast, ← zpow_add₀ (by norm_num)]
    exact hr
  calc |y - r| ≤ 2 ^ (-1074 : ℤ) / 2 := h.abs_sub_le_unit hr0 (by norm_num) hle
    _ = 2 ^ (-1075 : ℤ) := by
      rw [show (-1074 : ℤ) = -1075 + 1 by norm_num, zpow_add_one₀ (by norm_num)]
      ring

theorem Nearest.abs_sub_le_add (h : Nearest r y) (hr : 0 ≤ r) :
    |y - r| ≤ r * 2 ^ (-53 : ℤ) + 2 ^ (-1075 : ℤ) := by
  have hrel : 0 ≤ r * 2 ^ (-53 : ℤ) := by positivity
  have habs : (0 : ℚ) ≤ 2 ^ (-1075 : ℤ) := by positivity
  rcases le_total r (2 ^ (-1021 : ℤ)) with hsmall | hlarge
  · have := h.abs_sub_le_least hr hsmall
    linarith
  · have := h.abs_sub_le ((zpow_le_zpow_right₀ (by norm_num) (by norm_num)).trans hlarge)
    linarith

theorem Nearest.pos (h : Nearest r y) (hr : 2 ^ (-1075 : ℤ) < r) : 0 < y := by
  have hleast : OnGrid (2 ^ (-1074 : ℤ)) := onGrid_two_zpow (by norm_num)
  have hhalf : (2 : ℚ) ^ (-1074 : ℤ) = 2 * 2 ^ (-1075 : ℤ) := by
    rw [← zpow_one_add₀ (by norm_num)]
    norm_num
  have hpos : (0 : ℚ) < 2 ^ (-1075 : ℤ) := by positivity
  rcases le_total (2 ^ (-1074 : ℤ)) r with hge | hle
  · have := h.le_of_ge hleast hge
    linarith
  · have hdist := h.closest _ hleast
    rw [abs_of_nonneg (sub_nonneg.mpr hle)] at hdist
    have := (abs_le.mp hdist).1
    linarith

/-- The part of a number that one rounding leaves at the least. -/
def kept : ℚ :=
  1 - 2 ^ (-53 : ℤ)

theorem kept_pos : 0 < kept := by
  unfold kept
  norm_num

/-- Two numbers that differ by no more than `k` roundings. -/
structure Drift (k : ℕ) (y r : ℚ) : Prop where
  low : kept ^ k * r ≤ y
  high : kept ^ k * y ≤ r

theorem drift_of_abs_sub_le {u : ℚ} (hr : 0 < r) (h : |y - r| ≤ r * u)
    (hlow : kept ^ k ≤ 1 - u) (hhigh : kept ^ k * (1 + u) ≤ 1) : Drift k y r := by
  obtain ⟨hlo, hhi⟩ := abs_le.mp h
  have hk : (0 : ℚ) < kept ^ k := pow_pos kept_pos k
  constructor
  · calc kept ^ k * r ≤ (1 - u) * r := by gcongr
      _ ≤ y := by linarith
  · calc kept ^ k * y ≤ kept ^ k * ((1 + u) * r) := by gcongr; linarith
      _ = kept ^ k * (1 + u) * r := by ring
      _ ≤ 1 * r := by gcongr
      _ = r := one_mul r

theorem drift_of_nearest (h : Nearest r y) (hr : 2 ^ (-1022 : ℤ) ≤ r) : Drift 1 y r := by
  apply drift_of_abs_sub_le (lt_of_lt_of_le (by positivity) hr) (h.abs_sub_le hr)
  · rw [pow_one, kept]
  · rw [pow_one, kept]
    norm_num

/-- With two digits less than all a rounding is off like five. -/
theorem drift_of_nearest_small (h : Nearest r y) (hr : 2 ^ (-1024 : ℤ) ≤ r) : Drift 5 y r := by
  have hpos : (0 : ℚ) < r := lt_of_lt_of_le (by positivity) hr
  have herror : |y - r| ≤ r * 2 ^ (-51 : ℤ) := by
    rcases le_total r (2 ^ (-1021 : ℤ)) with hsmall | hlarge
    · calc |y - r| ≤ 2 ^ (-1075 : ℤ) := h.abs_sub_le_least hpos.le hsmall
        _ = 2 ^ (-1024 : ℤ) * 2 ^ (-51 : ℤ) := by rw [← zpow_add₀ (by norm_num)]; norm_num
        _ ≤ r * 2 ^ (-51 : ℤ) := by gcongr
    · calc |y - r| ≤ r * 2 ^ (-53 : ℤ) :=
          h.abs_sub_le ((zpow_le_zpow_right₀ (by norm_num) (by norm_num)).trans hlarge)
        _ ≤ r * 2 ^ (-51 : ℤ) := by gcongr <;> norm_num
  apply drift_of_abs_sub_le hpos herror
  · unfold kept
    norm_num
  · unfold kept
    norm_num

namespace Drift

theorem pos (h : Drift k y r) (hr : 0 < r) : 0 < y :=
  (mul_pos (pow_pos kept_pos k) hr).trans_le h.low

theorem trans (h : Drift k z y) (h' : Drift l y r) : Drift (k + l) z r := by
  constructor
  · calc kept ^ (k + l) * r
        = kept ^ k * (kept ^ l * r) := by ring
      _ ≤ kept ^ k * y := mul_le_mul_of_nonneg_left h'.low (pow_pos kept_pos k).le
      _ ≤ z := h.low
  · calc kept ^ (k + l) * z
        = kept ^ l * (kept ^ k * z) := by ring
      _ ≤ kept ^ l * y := mul_le_mul_of_nonneg_left h.high (pow_pos kept_pos l).le
      _ ≤ r := h'.high

theorem mul (h : Drift k y r) (h' : Drift l z s) (hr : 0 < r) (hs : 0 < s) :
    Drift (k + l) (y * z) (r * s) := by
  have hy := h.pos hr
  have hz := h'.pos hs
  have hk := pow_pos kept_pos k
  have hl := pow_pos kept_pos l
  constructor
  · calc kept ^ (k + l) * (r * s)
        = (kept ^ k * r) * (kept ^ l * s) := by ring
      _ ≤ y * z := mul_le_mul h.low h'.low (by positivity) hy.le
  · calc kept ^ (k + l) * (y * z)
        = (kept ^ k * y) * (kept ^ l * z) := by ring
      _ ≤ r * s := mul_le_mul h.high h'.high (by positivity) hr.le

theorem div (h : Drift k y r) (h' : Drift l z s) (hr : 0 < r) (hs : 0 < s) :
    Drift (k + l) (y / z) (r / s) := by
  have hz := h'.pos hs
  have hinv : Drift l z⁻¹ s⁻¹ := by
    constructor
    · rw [← div_eq_mul_inv, div_le_iff₀ hs, inv_mul_eq_div, le_div_iff₀ hz]
      exact h'.high
    · rw [← div_eq_mul_inv, div_le_iff₀ hz, inv_mul_eq_div, le_div_iff₀ hs]
      exact h'.low
  rw [div_eq_mul_inv, div_eq_mul_inv]
  exact h.mul hinv hr (inv_pos.mpr hs)

theorem half_le_kept (hk : k ≤ 8) : 1 / 2 ≤ kept ^ k := by
  calc (1 : ℚ) / 2 ≤ kept ^ 8 := by unfold kept; norm_num
    _ ≤ kept ^ k := pow_le_pow_of_le_one kept_pos.le (by unfold kept; norm_num) hk

theorem le_two_mul (h : Drift k y r) (hk : k ≤ 8) (hy : 0 ≤ y) : y ≤ 2 * r := by
  have := mul_le_mul_of_nonneg_right (half_le_kept hk) hy
  linarith [h.high]

theorem abs_sub_le (h : Drift 8 y r) (hr : 0 ≤ r) (hy : 0 ≤ y) :
    |y - r| ≤ r * (9 * 2 ^ (-53 : ℤ)) := by
  have hlow : 1 - 9 * 2 ^ (-53 : ℤ) ≤ kept ^ 8 := by
    unfold kept
    norm_num
  have hhigh : 1 ≤ kept ^ 8 * (1 + 9 * 2 ^ (-53 : ℤ)) := by
    unfold kept
    norm_num
  have hu : (0 : ℚ) ≤ 1 + 9 * 2 ^ (-53 : ℤ) := by positivity
  rw [abs_le]
  constructor
  · have := mul_le_mul_of_nonneg_right hlow hr
    linarith [h.low]
  · have hy' := mul_le_mul_of_nonneg_right hhigh hy
    have hr' := mul_le_mul_of_nonneg_right h.high hu
    linarith

theorem mono (h : Drift k y r) (hkl : k ≤ l) (hr : 0 ≤ r) (hy : 0 ≤ y) : Drift l y r := by
  have hpow : kept ^ l ≤ kept ^ k := pow_le_pow_of_le_one kept_pos.le (by unfold kept; norm_num) hkl
  exact ⟨(mul_le_mul_of_nonneg_right hpow hr).trans h.low,
    (mul_le_mul_of_nonneg_right hpow hy).trans h.high⟩

end Drift

/-- The largest number. -/
def largest : ℚ :=
  (2 ^ 53 - 1) * 2 ^ (971 : ℤ)

theorem IsRounded.nearest_of_le_largest (h : IsRounded x r) (hr0 : 0 ≤ r) (hr : r ≤ largest) :
    x.isFinite = true ∧ Nearest r (toRat x) := by
  apply h.nearest_of_le (c := largest)
  · exact ⟨2 ^ 53 - 1, 971, by norm_num, by norm_num, by unfold largest; norm_num⟩
  · calc largest < 2 ^ (53 : ℤ) * 2 ^ (971 : ℤ) :=
          mul_lt_mul_of_pos_right (by norm_num) (by positivity)
      _ = 2 ^ (1024 : ℤ) := by rw [← zpow_add₀ (by norm_num)]; norm_num
  · rwa [abs_of_nonneg hr0]

theorem ofDecimal_drift (hn : 0 < n) (hj : j ≤ 2048) (hle : (n : ℚ) * 10 ^ j ≤ largest) :
    (ofDecimal n j).isFinite = true ∧ Drift 1 (toRat (ofDecimal n j)) (n * 10 ^ j) := by
  have hone : (1 : ℚ) ≤ n * 10 ^ j := by
    have : 1 ≤ n * 10 ^ j := Nat.mul_pos hn (by positivity)
    exact_mod_cast this
  obtain ⟨hfin, hnear⟩ := (ofDecimal_rounded hj).nearest_of_le_largest (by positivity) hle
  refine ⟨hfin, drift_of_nearest hnear (le_trans ?_ hone)⟩
  exact zpow_le_one_of_nonpos₀ (by norm_num) (by norm_num)

end Gantry.Number
