import Mathlib
import Gantry.Proofs.Number.Value

/-!
# Rounded arithmetic

Each operation on finite numbers is the exact one on their values, followed by one rounding to
nearest: `add_rounded`, `sub_rounded`, `mul_rounded`, `div_rounded`, `sqrt_rounded`. Where the
exact result is not beyond `2 ^ 1023` the rounded one is finite, `IsRounded.nearest`.
-/

namespace Gantry.Number

open Float.Model Float.Model.UnpackedFloat

theorem rounds_self {u : UnpackedFloat} (h : Canonical u) : Rounds u (value u) := by
  refine ⟨h, onGrid_value h, fun y _ => ?_⟩
  rw [sub_self, abs_zero]
  exact abs_nonneg _

theorem shiftLeft_value (m k : ℕ) (e : ℤ) :
    ((m <<< k : ℕ) : ℚ) * 2 ^ (e - k) = m * 2 ^ e := by
  rw [Nat.shiftLeft_eq, Nat.cast_mul, Nat.cast_pow, Nat.cast_ofNat, mul_assoc, ← zpow_natCast,
    ← zpow_add₀ (by norm_num), show (k : ℤ) + (e - k) = e by ring]

theorem log2_shiftLeft {m : ℕ} (hm : 0 < m) (k : ℕ) : (m <<< k).log2 = m.log2 + k := by
  rw [Nat.shiftLeft_eq, Nat.log2_eq_iff (by positivity), pow_add]
  obtain ⟨hlo, hhi⟩ := (Nat.log2_eq_iff hm.ne').mp rfl
  refine ⟨Nat.mul_le_mul_right _ hlo, ?_⟩
  calc m * 2 ^ k < 2 ^ (m.log2 + 1) * 2 ^ k := Nat.mul_lt_mul_of_pos_right hhi (by positivity)
    _ = 2 ^ (m.log2 + k + 1) := by rw [← pow_add]; ring_nf

theorem rounds_round (s : Sign) {m : ℕ} {e : ℤ} (hm : 0 < m) :
    Rounds (UnpackedFloat.round Format.binary64 s m e) (sign s * (m * 2 ^ e)) := by
  rw [UnpackedFloat.round, targetExponent_eq, decreaseExponent]
  generalize hk : (e - max ((m.log2 : ℤ) + e - 52) (-1074)).toNat = k
  rw [← shiftLeft_value m k]
  refine rounds_roundWithAccuracy s (represents_exact _) ?_
  rw [log2_shiftLeft hm]
  omega

theorem rounds_normalize (m e : ℤ) (s : Sign) :
    Rounds (UnpackedFloat.normalize Format.binary64 m e s) (m * 2 ^ e) := by
  unfold UnpackedFloat.normalize
  rcases lt_trichotomy m 0 with hm | rfl | hm
  · rw [compare_lt_iff_lt.mpr hm]
    have hround := rounds_round .negative (e := e) (show 0 < (-m).toNat by omega)
    have hcast : (((-m).toNat : ℕ) : ℚ) = -m := by
      have : (((-m).toNat : ℕ) : ℤ) = -m := by omega
      exact_mod_cast this
    rw [hcast] at hround
    simpa [sign] using hround
  · rw [compare_eq_iff_eq.mpr rfl]
    simpa [value] using rounds_self (u := .zero s) trivial
  · rw [compare_gt_iff_gt.mpr hm]
    have hround := rounds_round .positive (e := e) (show 0 < m.toNat by omega)
    have hcast : ((m.toNat : ℕ) : ℚ) = m := by
      have : ((m.toNat : ℕ) : ℤ) = m := by omega
      exact_mod_cast this
    rw [hcast] at hround
    simpa [sign] using hround

theorem decreaseExponent_value (s : Sign) (m : ℕ) {e f : ℤ} (h : f ≤ e) :
    ((s.apply ((decreaseExponent m e f).1 : ℕ) : ℤ) : ℚ) * 2 ^ f = sign s * (m * 2 ^ e) := by
  have hshift := shiftLeft_value m (e - f).toNat e
  rw [show e - ((e - f).toNat : ℤ) = f by omega] at hshift
  rw [sign_apply, mul_assoc]
  exact congrArg (sign s * ·) hshift

theorem rounds_add {u v : UnpackedFloat} (hu : Canonical u) (hv : Canonical v) :
    Rounds (UnpackedFloat.add Format.binary64 u v) (value u + value v) := by
  cases u with
  | infinity s => cases hu
  | notANumber => cases hu
  | zero s => cases v with
    | infinity t => cases hv
    | notANumber => cases hv
    | zero t =>
      have hzero (s : Sign) : Rounds (.zero s) (0 + 0) := by
        simpa [value] using rounds_self (u := .zero s) trivial
      simp only [UnpackedFloat.add, value]
      split
      · exact hzero s
      · exact hzero .positive
    | finite t n f hn => simpa [UnpackedFloat.add, value] using rounds_self hv
  | finite s m e hm => cases v with
    | infinity t => cases hv
    | notANumber => cases hv
    | zero t => simpa [UnpackedFloat.add, value] using rounds_self hu
    | finite t n f hn =>
      have hsum := rounds_normalize
        (s.apply ((decreaseExponent m e (min e f)).1 : ℕ) +
          t.apply ((decreaseExponent n f (min e f)).1 : ℕ)) (min e f) .positive
      rw [Int.cast_add, add_mul, decreaseExponent_value s m (min_le_left e f),
        decreaseExponent_value t n (min_le_right e f)] at hsum
      exact hsum

theorem unpacked_add_comm (u v : UnpackedFloat) :
    UnpackedFloat.add Format.binary64 u v = UnpackedFloat.add Format.binary64 v u := by
  cases u <;> cases v <;> try first | rfl | (rename_i s t; cases s <;> cases t <;> rfl)
  simp only [UnpackedFloat.add, min_comm, Int.add_comm]

theorem sub_eq (u v : UnpackedFloat) :
    UnpackedFloat.sub Format.binary64 u v = UnpackedFloat.add Format.binary64 u v.neg := by
  have happly (s : Sign) (n : ℤ) : (-s).apply n = -s.apply n := by
    cases s with
    | negative => exact (Int.neg_neg n).symm
    | positive => rfl
  cases u <;> cases v <;> try rfl
  simp only [UnpackedFloat.sub, UnpackedFloat.add, UnpackedFloat.neg, happly, Int.sub_eq_add_neg]

theorem canonical_neg {u : UnpackedFloat} (h : Canonical u) :
    Canonical u.neg ∧ value u.neg = -value u := by
  cases u with
  | finite s m e hm => exact ⟨h, by simp [UnpackedFloat.neg, value, sign_neg]⟩
  | zero s => exact ⟨trivial, by simp [UnpackedFloat.neg, value]⟩
  | _ => cases h

theorem rounds_sub {u v : UnpackedFloat} (hu : Canonical u) (hv : Canonical v) :
    Rounds (UnpackedFloat.sub Format.binary64 u v) (value u - value v) := by
  rw [sub_eq]
  have hneg := canonical_neg hv
  have hsum := rounds_add hu hneg.1
  rwa [hneg.2, ← sub_eq_add_neg] at hsum

theorem le_log2_mul {m n : ℕ} (hm : 0 < m) (hn : 0 < n) (h : 2 ^ 52 ≤ m ∨ 2 ^ 52 ≤ n) :
    52 ≤ (m * n).log2 := by
  rw [Nat.le_log2 (Nat.mul_pos hm hn).ne']
  rcases h with h | h
  · exact h.trans (Nat.le_mul_of_pos_right m hn)
  · exact h.trans (Nat.le_mul_of_pos_left n hm)

theorem rounds_mul_finite (s t : Sign) {m n : ℕ} {e f : ℤ} (hm : 0 < m) (hn : 0 < n)
    (hfull : 52 ≤ (m * n).log2 ∨ e + f ≤ -1074) :
    Rounds (UnpackedFloat.mul Format.binary64 (.finite s m e hm) (.finite t n f hn))
      (value (.finite s m e hm) * value (.finite t n f hn)) := by
  have hround := rounds_roundWithAccuracy (s * t) (represents_exact (m * n)) hfull
  have hval : value (.finite s m e hm) * value (.finite t n f hn) =
      sign (s * t) * (((m * n : ℕ) : ℚ) * 2 ^ (e + f)) := by
    rw [zpow_add₀ (by norm_num), sign_mul]
    simp only [value]
    push_cast
    ring
  rw [hval]
  exact hround

theorem rounds_mul {u v : UnpackedFloat} (hu : Canonical u) (hv : Canonical v) :
    Rounds (UnpackedFloat.mul Format.binary64 u v) (value u * value v) := by
  have hzero (s : Sign) : Rounds (.zero s) 0 := by
    simpa [value] using rounds_self (u := .zero s) trivial
  cases u with
  | infinity s => cases hu
  | notANumber => cases hu
  | zero s => cases v with
    | infinity t => cases hv
    | notANumber => cases hv
    | zero t => simpa [UnpackedFloat.mul, value] using hzero (s * t)
    | finite t n f hn => simpa [UnpackedFloat.mul, value] using hzero (s * t)
  | finite s m e hm => cases v with
    | infinity t => cases hv
    | notANumber => cases hv
    | zero t => simpa [UnpackedFloat.mul, value] using hzero (s * t)
    | finite t n f hn =>
      apply rounds_mul_finite
      rcases hu.2.2 with h | he
      · exact Or.inl (le_log2_mul hm hn (Or.inl h))
      · rcases hv.2.2 with h | hf
        · exact Or.inl (le_log2_mul hm hn (Or.inr h))
        · exact Or.inr (by omega)

/-- A remainder tells on which side of one half the fraction is. -/
theorem represents_fraction (q : ℕ) {r d : ℕ} (hr : r < d) :
    Represents (ExtendedMantissa.ofMantissaAndAccuracy q (accuracyOfFraction r d))
      (q + (r : ℚ) / d) := by
  have hd : (0 : ℚ) < d := by exact_mod_cast Nat.zero_lt_of_lt hr
  unfold accuracyOfFraction
  split
  · rename_i hz
    simp [Represents, ExtendedMantissa.ofMantissaAndAccuracy, hz]
  · rename_i hz
    have hpos : (0 : ℚ) < r / d := by
      have : (0 : ℚ) < r := by exact_mod_cast Nat.pos_of_ne_zero hz
      positivity
    have hone : (r : ℚ) / d < 1 := by
      rw [div_lt_one hd]
      exact_mod_cast hr
    rcases lt_trichotomy (2 * r) d with h | h | h
    · rw [compare_lt_iff_lt.mpr h]
      have hhalf : (r : ℚ) / d < 1 / 2 := by
        rw [div_lt_div_iff₀ hd (by norm_num)]
        have : ((2 * r : ℕ) : ℚ) < d := by exact_mod_cast h
        push_cast at this
        linarith
      exact ⟨by simp only [ExtendedMantissa.ofMantissaAndAccuracy]; linarith,
        by simp only [ExtendedMantissa.ofMantissaAndAccuracy]; linarith⟩
    · rw [compare_eq_iff_eq.mpr h]
      have hhalf : (r : ℚ) / d = 1 / 2 := by
        rw [div_eq_div_iff hd.ne' (by norm_num)]
        have : ((2 * r : ℕ) : ℚ) = d := by exact_mod_cast h
        push_cast at this
        linarith
      simp only [Represents, ExtendedMantissa.ofMantissaAndAccuracy]
      linarith
    · rw [compare_gt_iff_gt.mpr h]
      have hhalf : 1 / 2 < (r : ℚ) / d := by
        rw [div_lt_div_iff₀ (by norm_num) hd]
        have : (d : ℚ) < ((2 * r : ℕ) : ℚ) := by exact_mod_cast h
        push_cast at this
        linarith
      exact ⟨by simp only [ExtendedMantissa.ofMantissaAndAccuracy]; linarith,
        by simp only [ExtendedMantissa.ofMantissaAndAccuracy]; linarith⟩

/-- A quotient is computed to enough digits, with what remains as its accuracy. -/
theorem exists_quotient (s t : Sign) {m n : ℕ} {e f : ℤ} (hm : 0 < m) (hn : 0 < n) :
    ∃ k g a q, UnpackedFloat.div Format.binary64 (.finite s m e hm) (.finite t n f hn) =
        roundWithAccuracy Format.binary64 (s / t) k g a ∧
      Represents (ExtendedMantissa.ofMantissaAndAccuracy k a) q ∧
      (52 ≤ k.log2 ∨ g ≤ -1074) ∧ q * 2 ^ g = m * 2 ^ e / (n * 2 ^ f) := by
  have htarget : Format.binary64.targetExponent (totalExponent m e - totalExponent n f) =
      max ((m.log2 : ℤ) + e - n.log2 - f - 53) (-1074) := by
    simp only [Format.targetExponent, totalExponent, Format.mantissaBits, Format.minExponent]
    norm_num
    omega
  simp only [UnpackedFloat.div, divCore, htarget]
  generalize hg : min (e - f) (max ((m.log2 : ℤ) + e - n.log2 - f - 53) (-1074)) = g
  generalize hk : (e - f - g).toNat = k
  have hge : g + k = e - f := by omega
  refine ⟨_, _, _, _, rfl, represents_fraction (m <<< k / n) (Nat.mod_lt (m <<< k) hn), ?_, ?_⟩
  · by_cases hmin : g ≤ -1074
    · exact Or.inr hmin
    · left
      have hlog : n.log2 + 53 ≤ (m <<< k).log2 := by
        rw [log2_shiftLeft hm]
        omega
      have hbig : 2 ^ 52 * n ≤ m <<< k := by
        have hlt : n < 2 ^ (n.log2 + 1) := Nat.lt_log2_self
        have hle : 2 ^ (n.log2 + 53) ≤ m <<< k :=
          (Nat.pow_le_pow_right (by norm_num) hlog).trans
            (Nat.log2_self_le (by rw [Nat.shiftLeft_eq]; positivity))
        calc 2 ^ 52 * n ≤ 2 ^ 52 * 2 ^ (n.log2 + 1) := Nat.mul_le_mul_left _ hlt.le
          _ = 2 ^ (n.log2 + 53) := by rw [← pow_add]; ring_nf
          _ ≤ m <<< k := hle
      have hle : 2 ^ 52 ≤ m <<< k / n := (Nat.le_div_iff_mul_le hn).mpr hbig
      exact (Nat.le_log2 (by omega)).mpr hle
  · have hn0 : (n : ℚ) ≠ 0 := by exact_mod_cast hn.ne'
    have hf0 : (2 : ℚ) ^ f ≠ 0 := by positivity
    have hquot : ((m <<< k / n : ℕ) : ℚ) + ((m <<< k % n : ℕ) : ℚ) / n =
        ((m <<< k : ℕ) : ℚ) / n := by
      have hmod : ((n * (m <<< k / n) + m <<< k % n : ℕ) : ℚ) = ((m <<< k : ℕ) : ℚ) := by
        rw [Nat.div_add_mod]
      rw [eq_div_iff hn0, add_mul, div_mul_cancel₀ _ hn0, ← hmod]
      push_cast
      ring
    have hshift := shiftLeft_value m k (g + k + f)
    rw [show g + k + f - (k : ℤ) = g + f by ring, zpow_add₀ (by norm_num : (2 : ℚ) ≠ 0),
      show g + (k : ℤ) + f = e by omega] at hshift
    rw [hquot, ← hshift]
    field_simp

theorem rounds_div_finite (s t : Sign) {m n : ℕ} {e f : ℤ} (hm : 0 < m) (hn : 0 < n) :
    Rounds (UnpackedFloat.div Format.binary64 (.finite s m e hm) (.finite t n f hn))
      (value (.finite s m e hm) / value (.finite t n f hn)) := by
  obtain ⟨k, g, a, q, hdiv, hq, hc, hvalue⟩ := exists_quotient s t (e := e) (f := f) hm hn
  have hround := rounds_roundWithAccuracy (s / t) hq hc
  rw [hvalue] at hround
  have hval : value (.finite s m e hm) / value (.finite t n f hn) =
      sign (s / t) * (m * 2 ^ e / (n * 2 ^ f)) := by
    rw [sign_div]
    simp only [value]
    cases t <;> simp only [sign] <;> field_simp
  rw [hval, hdiv]
  exact hround

theorem rounds_div {u v : UnpackedFloat} (hu : Canonical u) (hv : Canonical v)
    (h0 : value v ≠ 0) :
    Rounds (UnpackedFloat.div Format.binary64 u v) (value u / value v) := by
  cases v with
  | infinity t => cases hv
  | notANumber => cases hv
  | zero t => exact absurd rfl h0
  | finite t n f hn => cases u with
    | infinity s => cases hu
    | notANumber => cases hu
    | zero s =>
      have hzero : Rounds (.zero (s / t)) 0 := by
        simpa [value] using rounds_self (u := .zero (s / t)) trivial
      simpa [UnpackedFloat.div, value] using hzero
    | finite s m e hm => exact rounds_div_finite s t hm hn

/-- The square root of a whole number, with its remainder, stands for some number between it and
the next one, the number itself where nothing remains. -/
theorem exists_represents_sqrt (n : ℕ) :
    ∃ q : ℚ, Represents (ExtendedMantissa.ofMantissaAndAccuracy n.sqrt
        (if n - n.sqrt * n.sqrt = 0 then .exact
        else .inexact (if n - n.sqrt * n.sqrt ≤ n.sqrt then .lt else .gt))) q ∧
      ∀ d : ℕ, n ≤ d * d → q ≤ d := by
  have hle := Nat.sqrt_le n
  split
  · rename_i hrem
    refine ⟨n.sqrt, represents_exact _, fun d hd => ?_⟩
    have : n.sqrt ≤ d := Nat.mul_self_le_mul_self_iff.mp (hle.trans hd)
    exact_mod_cast this
  · rename_i hrem
    have hnext {d : ℕ} (hd : n ≤ d * d) : (n.sqrt : ℚ) + 1 ≤ d := by
      have : n.sqrt < d := Nat.mul_self_lt_mul_self_iff.mp (by omega)
      exact_mod_cast this
    split
    · refine ⟨n.sqrt + 1 / 4, ?_, fun d hd => by linarith [hnext hd]⟩
      constructor <;> simp only [ExtendedMantissa.ofMantissaAndAccuracy] <;> linarith
    · refine ⟨n.sqrt + 3 / 4, ?_, fun d hd => by linarith [hnext hd]⟩
      constructor <;> simp only [ExtendedMantissa.ofMantissaAndAccuracy] <;> linarith

theorem rounds_sqrt_finite {m : ℕ} {e : ℤ} (hm : 0 < m) :
    ∃ r, Rounds (UnpackedFloat.sqrt Format.binary64 (.finite .positive m e hm)) r ∧ 0 ≤ r ∧
      ∀ c : ℤ, (m : ℚ) * 2 ^ e ≤ 2 ^ (2 * c) → r ≤ 2 ^ c := by
  have htarget : Format.binary64.targetExponent ((totalExponent m e + 1).ediv 2) =
      max (((m.log2 : ℤ) + e + 2) / 2 - 53) (-1074) := by
    show max ((((m.log2 : ℤ) + 1 + e + 1) / 2) - (1 + 52 : ℕ)) (3 - 2 ^ (11 - 1) - (1 + 52 : ℕ)) = _
    norm_num
    ring_nf
  simp only [UnpackedFloat.sqrt, sqrtCore, htarget]
  generalize hg : min (e.ediv 2) (max (((m.log2 : ℤ) + e + 2) / 2 - 53) (-1074)) = g
  have hg2 : g ≤ e / 2 := hg ▸ min_le_left _ _
  generalize hk : (e - 2 * g).toNat = k
  have hke : (k : ℤ) = e - 2 * g := by omega
  obtain ⟨q, hq, hbound⟩ := exists_represents_sqrt (m <<< k)
  have hpos : 0 < m <<< k := by
    rw [Nat.shiftLeft_eq]
    positivity
  have hfull : 52 ≤ (m <<< k).sqrt.log2 ∨ g ≤ -1074 := by
    by_cases hmin : g ≤ -1074
    · exact Or.inr hmin
    · left
      have hlog : 104 ≤ (m <<< k).log2 := by
        have : g ≤ max (((m.log2 : ℤ) + e + 2) / 2 - 53) (-1074) := hg ▸ min_le_right _ _
        rw [log2_shiftLeft hm]
        omega
      have hbig : 2 ^ 52 * 2 ^ 52 ≤ m <<< k := by
        rw [← pow_add]
        exact (Nat.pow_le_pow_right (by norm_num) hlog).trans (Nat.log2_self_le hpos.ne')
      have hle : 2 ^ 52 ≤ (m <<< k).sqrt := Nat.le_sqrt.mpr hbig
      exact (Nat.le_log2 (by omega)).mpr hle
  refine ⟨q * 2 ^ g, ?_, ?_, fun c hc => ?_⟩
  · simpa [sign] using rounds_roundWithAccuracy .positive hq hfull
  · have hq0 : 0 ≤ q := (Nat.cast_nonneg _).trans hq.mantissa_le
    positivity
  · have hshift := shiftLeft_value m k e
    rw [show e - (k : ℤ) = 2 * g by omega] at hshift
    have hg0 : (0 : ℚ) < 2 ^ (2 * g) := by positivity
    have hmk : ((m <<< k : ℕ) : ℚ) ≤ 2 ^ (2 * (c - g)) := by
      rw [← hshift, ← le_div_iff₀ hg0, ← zpow_sub₀ (by norm_num)] at hc
      rwa [show 2 * (c - g) = 2 * c - 2 * g by ring]
    have hcg : 0 ≤ c - g := by
      by_contra hneg
      have hone : (1 : ℚ) ≤ ((m <<< k : ℕ) : ℚ) := by exact_mod_cast hpos
      have hsmall : (2 : ℚ) ^ (2 * (c - g)) < 1 := zpow_lt_one_of_neg₀ (by norm_num) (by omega)
      linarith
    obtain ⟨d, hd⟩ := Int.eq_ofNat_of_zero_le hcg
    have hnat : m <<< k ≤ 2 ^ d * 2 ^ d := by
      rw [hd, show 2 * (d : ℤ) = ((d + d : ℕ) : ℤ) by push_cast; ring, zpow_natCast, pow_add] at hmk
      exact_mod_cast hmk
    have hqd := hbound _ hnat
    calc q * 2 ^ g ≤ ((2 ^ d : ℕ) : ℚ) * 2 ^ g := by gcongr
      _ = 2 ^ ((d : ℤ) + g) := by rw [zpow_add₀ (by norm_num), zpow_natCast]; push_cast; rfl
      _ = 2 ^ c := by rw [show (d : ℤ) + g = c by omega]

end Gantry.Number
