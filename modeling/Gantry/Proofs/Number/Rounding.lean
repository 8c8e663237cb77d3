import Mathlib
import Gantry.Proofs.Number.Grid

/-!
# Rounding to nearest

The arithmetic of `Float.Model` computes a mantissa that may be too long, shifts it right while it
keeps a round bit and a sticky bit, and rounds it to nearest with ties to even. The outcome is a
nearest point of the grid, in the one form that can be packed.

This does NOT look at overflow: the exponent of an outcome has no upper bound here.
-/

namespace Gantry.Number

open Float.Model Float.Model.UnpackedFloat

def sign : Sign → ℚ
  | .negative => -1
  | .positive => 1

/-- The value of an unpacked number; infinities and NaN have none and count as zero. -/
def value : UnpackedFloat → ℚ
  | .finite s m e _ => sign s * (m * 2 ^ e)
  | _ => 0

/-- A number as it is unpacked: the mantissa has 53 digits unless the exponent is the least one. -/
def Canonical : UnpackedFloat → Prop
  | .finite _ m e _ => m < 2 ^ 53 ∧ -1074 ≤ e ∧ (2 ^ 52 ≤ m ∨ e = -1074)
  | .zero _ => True
  | _ => False

/-- The number is `r` after rounding. -/
structure Rounds (u : UnpackedFloat) (r : ℚ) : Prop where
  canonical : Canonical u
  nearest : Nearest r (value u)

theorem sign_apply (s : Sign) (n : ℕ) : ((s.apply n : ℤ) : ℚ) = sign s * n := by
  cases s <;> simp [Sign.apply, sign]

theorem sign_mul (s t : Sign) : sign (s * t) = sign s * sign t := by
  cases s <;> cases t <;> decide +kernel

theorem sign_div (s t : Sign) : sign (s / t) = sign s * sign t := by
  cases s <;> cases t <;> decide +kernel

theorem sign_neg (s : Sign) : sign (-s) = -sign s := by
  cases s <;> rfl

theorem Nearest.sign_mul {r x : ℚ} (h : Nearest r x) (s : Sign) :
    Nearest (sign s * r) (sign s * x) := by
  cases s with
  | negative => simpa [sign] using h.neg
  | positive => simpa [sign] using h

theorem onGrid_value {u : UnpackedFloat} (h : Canonical u) : OnGrid (value u) := by
  cases u with
  | finite s m e hm =>
    have hgrid : OnGrid (m * 2 ^ e) := by
      refine ⟨m, e, ?_, h.2.1, by push_cast; rfl⟩
      rw [abs_of_nonneg (by positivity)]
      exact_mod_cast h.1.le
    cases s with
    | negative => simpa [value, sign] using hgrid.neg
    | positive => simpa [value, sign] using hgrid
  | _ => exact onGrid_zero

/-- The mantissa with its two bits stands for a number between it and the next one. -/
def Represents (em : ExtendedMantissa) (q : ℚ) : Prop :=
  match em.roundBit, em.stickyBit with
  | false, false => q = em.mantissa
  | false, true => em.mantissa < q ∧ q < em.mantissa + 1 / 2
  | true, false => q = em.mantissa + 1 / 2
  | true, true => em.mantissa + 1 / 2 < q ∧ q < em.mantissa + 1

theorem Represents.mantissa_le {em : ExtendedMantissa} {q : ℚ} (h : Represents em q) :
    (em.mantissa : ℚ) ≤ q := by
  obtain ⟨m, round, sticky⟩ := em
  cases round <;> cases sticky <;> simp only [Represents] at h ⊢ <;> linarith

theorem Represents.shiftRightOne {em : ExtendedMantissa} {q : ℚ} (h : Represents em q) :
    Represents em.shiftRightOne (q / 2) := by
  obtain ⟨m, round, sticky⟩ := em
  obtain ⟨k, rfl | rfl⟩ := Nat.even_or_odd' m
  · have hdiv : 2 * k / 2 = k := by omega
    have hmod : (2 * k % 2 != 0) = false := by simp
    simp only [Represents, ExtendedMantissa.shiftRightOne, hdiv, hmod] at h ⊢
    push_cast at h
    cases round <;> cases sticky <;> simp only [Bool.or_false, Bool.or_true] at h ⊢ <;>
      first | linarith | exact ⟨by linarith, by linarith⟩
  · have hdiv : (2 * k + 1) / 2 = k := by omega
    have hmod : ((2 * k + 1) % 2 != 0) = true := by simp
    simp only [Represents, ExtendedMantissa.shiftRightOne, hdiv, hmod] at h ⊢
    push_cast at h
    cases round <;> cases sticky <;> simp only [Bool.or_false, Bool.or_true] at h ⊢ <;>
      first | linarith | exact ⟨by linarith, by linarith⟩

theorem shiftRight_zero (em : ExtendedMantissa) : em >>> 0 = em := rfl

theorem shiftRight_succ (em : ExtendedMantissa) (k : ℕ) :
    em >>> (k + 1) = (em >>> k).shiftRightOne := rfl

theorem Represents.shiftRight {em : ExtendedMantissa} {q : ℚ} (h : Represents em q) (k : ℕ) :
    Represents (em >>> k) (q / 2 ^ k) := by
  induction k with
  | zero => simpa [shiftRight_zero] using h
  | succ k ih =>
    rw [shiftRight_succ, pow_succ, ← div_div]
    exact ih.shiftRightOne

theorem mantissa_shiftRight (em : ExtendedMantissa) (k : ℕ) :
    (em >>> k).mantissa = em.mantissa / 2 ^ k := by
  induction k with
  | zero => simp [shiftRight_zero]
  | succ k ih =>
    rw [shiftRight_succ]
    simp only [ExtendedMantissa.shiftRightOne]
    rw [ih, Nat.div_div_eq_div_mul, pow_succ]

theorem Represents.abs_roundedMantissa_sub_le {em : ExtendedMantissa} {q : ℚ}
    (h : Represents em q) : |(em.roundedMantissa : ℚ) - q| ≤ 1 / 2 := by
  obtain ⟨m, round, sticky⟩ := em
  cases round <;> cases sticky <;>
    simp only [Represents, ExtendedMantissa.roundedMantissa, ExtendedMantissa.accuracy,
      Accuracy.roundToNearestEven] at h ⊢
  · simp [h]
  · rw [abs_of_nonpos] <;> linarith
  · -- A tie goes up or down by one half, as the mantissa is odd or even.
    rcases Nat.mod_two_eq_zero_or_one m with hm | hm <;> rw [hm, h] <;> push_cast <;>
      rw [abs_le] <;> constructor <;> linarith
  · push_cast
    rw [abs_of_nonneg] <;> linarith

theorem mantissa_le_rounded (em : ExtendedMantissa) : em.mantissa ≤ em.roundedMantissa := by
  obtain ⟨m, round, sticky⟩ := em
  cases round <;> cases sticky <;>
    simp [ExtendedMantissa.roundedMantissa, ExtendedMantissa.accuracy, Accuracy.roundToNearestEven]

theorem rounded_le_mantissa (em : ExtendedMantissa) : em.roundedMantissa ≤ em.mantissa + 1 := by
  obtain ⟨m, round, sticky⟩ := em
  cases round <;> cases sticky <;>
    simp [ExtendedMantissa.roundedMantissa, ExtendedMantissa.accuracy, Accuracy.roundToNearestEven]
  omega

theorem mantissa_ofAccuracy (m : ℕ) (a : Accuracy) :
    (ExtendedMantissa.ofMantissaAndAccuracy m a).mantissa = m := by
  rcases a with _ | _ | _ | _ <;> rfl

theorem represents_exact (m : ℕ) :
    Represents (ExtendedMantissa.ofMantissaAndAccuracy m .exact) m := rfl

theorem targetExponent_eq (m : ℕ) (e : ℤ) :
    Format.binary64.targetExponent (totalExponent m e) = max ((m.log2 : ℤ) + e - 52) (-1074) := by
  simp only [Format.targetExponent, totalExponent, Format.mantissaBits, Format.minExponent]
  norm_num
  omega

theorem div_two_pow_lt {m k : ℕ} (h : m.log2 ≤ 52 + k) : m / 2 ^ k < 2 ^ 53 := by
  rw [Nat.div_lt_iff_lt_mul (by positivity), ← pow_add]
  exact Nat.lt_log2_self.trans_le (Nat.pow_le_pow_right (by norm_num) (by omega))

theorem le_div_two_pow {m k : ℕ} (hm : m ≠ 0) (h : m.log2 = 52 + k) : 2 ^ 52 ≤ m / 2 ^ k := by
  rw [Nat.le_div_iff_mul_le (by positivity), ← pow_add, ← h]
  exact Nat.log2_self_le hm

theorem shiftToTargetExponent_eq (m : ℕ) (e : ℤ) (a : Accuracy) :
    shiftToTargetExponent Format.binary64 m e a =
      (ExtendedMantissa.ofMantissaAndAccuracy m a >>>
        (max ((m.log2 : ℤ) + e - 52) (-1074) - e).toNat,
        e + (max ((m.log2 : ℤ) + e - 52) (-1074) - e).toNat) := by
  rw [shiftToTargetExponent, targetExponent_eq]
  rfl

theorem shift_of_lt {n : ℕ} {t : ℤ} (hn : n < 2 ^ 53) (ht : -1074 ≤ t) :
    shiftToTargetExponent Format.binary64 n t .exact = (⟨n, false, false⟩, t) := by
  have hlog : n.log2 ≤ 52 := by
    rcases Nat.eq_zero_or_pos n with rfl | hpos
    · simp
    · have := (Nat.log2_lt hpos.ne').mpr hn
      omega
  have hk : (max ((n.log2 : ℤ) + t - 52) (-1074) - t).toNat = 0 := by omega
  rw [shiftToTargetExponent_eq, hk, shiftRight_zero]
  simp [ExtendedMantissa.ofMantissaAndAccuracy]

theorem shift_two_pow {t : ℤ} (ht : -1074 ≤ t) :
    shiftToTargetExponent Format.binary64 (2 ^ 53) t .exact =
      (⟨2 ^ 52, false, false⟩, t + 1) := by
  have hk : (max (((2 ^ 53 : ℕ).log2 : ℤ) + t - 52) (-1074) - t).toNat = 1 := by
    rw [Nat.log2_two_pow]
    omega
  rw [shiftToTargetExponent_eq, hk]
  rfl

/-- The last step of rounding carries a mantissa of `2 ^ 53` over into the exponent. -/
theorem rounds_of_shift {s : Sign} {m n : ℕ} {e t : ℤ} {a : Accuracy} {em : ExtendedMantissa}
    {q : ℚ} (hshift : shiftToTargetExponent Format.binary64 m e a = (em, t))
    (hr : em.roundedMantissa = n) (hn : n ≤ 2 ^ 53) (ht : -1074 ≤ t)
    (hfull : 2 ^ 52 ≤ n ∨ t = -1074) (hq : Nearest q (n * 2 ^ t)) :
    Rounds (roundWithAccuracy Format.binary64 s m e a) (sign s * q) := by
  have hround : roundWithAccuracy Format.binary64 s m e a =
      let final := shiftToTargetExponent Format.binary64 n t .exact
      if h : final.1.mantissa = 0 then .zero s
      else .finite s final.1.mantissa final.2 (Nat.pos_of_ne_zero h) := by
    rw [roundWithAccuracy, hshift]
    simp only [hr]
  rw [hround]
  rcases hn.lt_or_eq with hlt | rfl
  · rw [shift_of_lt hlt ht]
    simp only
    split
    · rename_i hz
      refine ⟨trivial, ?_⟩
      have := hq.sign_mul s
      simpa [value, hz] using this
    · exact ⟨⟨hlt, ht, hfull⟩, hq.sign_mul s⟩
  · rw [shift_two_pow ht]
    refine ⟨⟨by norm_num, by show -1074 ≤ t + 1; omega, Or.inl le_rfl⟩, ?_⟩
    have hcarry : ((2 ^ 52 : ℕ) : ℚ) * 2 ^ (t + 1) = ((2 ^ 53 : ℕ) : ℚ) * 2 ^ t := by
      rw [zpow_add₀ (by norm_num)]
      push_cast
      ring
    have := hq.sign_mul s
    rw [← hcarry] at this
    exact this

theorem exists_shift {m : ℕ} {e : ℤ} {a : Accuracy} {q : ℚ}
    (hq : Represents (ExtendedMantissa.ofMantissaAndAccuracy m a) q)
    (hc : 52 ≤ m.log2 ∨ e ≤ -1074) : ∃ em t,
      shiftToTargetExponent Format.binary64 m e a = (em, t) ∧ Represents em (q * 2 ^ e / 2 ^ t) ∧
      -1074 ≤ t ∧ em.mantissa < 2 ^ 53 ∧ (2 ^ 52 ≤ em.mantissa ∨ t = -1074) := by
  have hshift := shiftToTargetExponent_eq m e a
  generalize hk : (max ((m.log2 : ℤ) + e - 52) (-1074) - e).toNat = k at hshift
  have ht : e + k = max ((m.log2 : ℤ) + e - 52) (-1074) := by omega
  have hfloor : (ExtendedMantissa.ofMantissaAndAccuracy m a >>> k).mantissa = m / 2 ^ k := by
    rw [mantissa_shiftRight, mantissa_ofAccuracy]
  have hscale : q * 2 ^ e / 2 ^ (e + (k : ℤ)) = q / 2 ^ k := by
    have hpos : (2 : ℚ) ^ e ≠ 0 := by positivity
    rw [zpow_add₀ (by norm_num), zpow_natCast, mul_comm q, mul_div_mul_left _ _ hpos]
  refine ⟨_, _, hshift, ?_, by omega, ?_, ?_⟩
  · rw [hscale]
    exact hq.shiftRight k
  · rw [hfloor]
    exact div_two_pow_lt (by omega)
  · rw [hfloor]
    by_cases hmin : e + (k : ℤ) = -1074
    · exact Or.inr hmin
    · have hlog : m.log2 = 52 + k := by omega
      have hm : m ≠ 0 := by
        rintro rfl
        rw [Nat.log2_zero] at hlog
        omega
      exact Or.inl (le_div_two_pow hm hlog)

/-- Rounding an inexact mantissa of all 53 digits, or of any length at the least exponent. -/
theorem rounds_roundWithAccuracy (s : Sign) {m : ℕ} {e : ℤ} {a : Accuracy} {q : ℚ}
    (hq : Represents (ExtendedMantissa.ofMantissaAndAccuracy m a) q)
    (hc : 52 ≤ m.log2 ∨ e ≤ -1074) :
    Rounds (roundWithAccuracy Format.binary64 s m e a) (sign s * (q * 2 ^ e)) := by
  obtain ⟨em, t, hshift, hem, hleast, hlt, hfull⟩ := exists_shift hq hc
  have hlo := mantissa_le_rounded em
  have hhi := rounded_le_mantissa em
  have hscale : q * 2 ^ e / 2 ^ t * 2 ^ t = q * 2 ^ e := div_mul_cancel₀ _ (by positivity)
  rw [← hscale]
  refine rounds_of_shift hshift rfl (by omega) hleast (hfull.imp_left (by omega)) ?_
  refine nearest_of_half hleast (by omega) hem.abs_roundedMantissa_sub_le ?_
  rcases hfull with hfull | hmin
  · refine Or.inr (le_trans ?_ hem.mantissa_le)
    exact_mod_cast hfull
  · exact Or.inl hmin

end Gantry.Number
