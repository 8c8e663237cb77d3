import Mathlib
import Gantry.Proofs.Number.Decimal
import Gantry.Proofs.Number.Shortest

/-!
# Halves to even

Halfway between two numbers rounding takes the one with the even mantissa. Every real in the
interval of a number therefore rounds to it, the ends too where they belong to the interval, and
every decimal that is written for a number is read as that number.
-/

namespace Gantry.Number

open Float.Model Float.Model.UnpackedFloat

variable {d : Dyadic} {r q : ℚ}

/-- A real in the interval of a number, whose ends belong to it where the mantissa is even. -/
structure ReadsAs (d : Dyadic) (r : ℚ) : Prop extends Inside d r where
  strict : d.mantissa % 2 = 1 →
    (d.mantissa - quartersBelow d.mantissa d.exponent / 4) * 2 ^ d.exponent < r ∧
      r < (d.mantissa + 1 / 2) * 2 ^ d.exponent

/-- A mantissa and an exponent in the one form of binary64. -/
structure Dyadic.Full (d : Dyadic) : Prop where
  pos : 0 < d.mantissa
  lt : d.mantissa < 2 ^ 53
  least : -1074 ≤ d.exponent
  full : 2 ^ 52 ≤ d.mantissa ∨ d.exponent = -1074

/-- A number within one half of a whole one is rounded to it, and so is a half next to an even
one. -/
theorem Represents.roundedMantissa_eq {em : ExtendedMantissa} (h : Represents em q) {m : ℕ}
    (hlo : m - 1 / 2 ≤ q) (hhi : q ≤ m + 1 / 2)
    (hodd : m % 2 = 1 → (m : ℚ) - 1 / 2 < q ∧ q < m + 1 / 2) : em.roundedMantissa = m := by
  obtain ⟨n, round, sticky⟩ := em
  have hle {a b : ℕ} (hab : (a : ℚ) < b + 1) : a ≤ b := by
    have : (a : ℚ) < ((b + 1 : ℕ) : ℚ) := by exact_mod_cast hab
    have := Nat.cast_lt.mp this
    omega
  cases round <;> cases sticky <;>
    simp only [Represents, ExtendedMantissa.roundedMantissa, ExtendedMantissa.accuracy,
      Accuracy.roundToNearestEven] at h ⊢
  · exact le_antisymm (hle (by linarith)) (hle (by linarith))
  · exact le_antisymm (hle (by linarith)) (hle (by linarith))
  · have hnm : n ≤ m := hle (by linarith)
    have hmn : m ≤ n + 1 := hle (by push_cast; linarith)
    have heven : m % 2 = 0 := by
      rcases Nat.mod_two_eq_zero_or_one m with heven | hone
      · exact heven
      · obtain ⟨hlow, hhigh⟩ := hodd hone
        have hlt : n + 1 ≤ m := hle (by push_cast; linarith)
        have hgt : m ≤ n := hle (by linarith)
        omega
    omega
  · exact le_antisymm (hle (by push_cast; linarith)) (hle (by push_cast; linarith))

theorem Dyadic.Full.onGrid (hd : d.Full) : OnGrid (d.mantissa * 2 ^ d.exponent) := by
  refine ⟨d.mantissa, d.exponent, ?_, hd.least, by push_cast; rfl⟩
  rw [abs_of_nonneg (by positivity)]
  exact_mod_cast hd.lt.le

theorem quartersBelow_of_odd {m : ℕ} (h : m % 2 = 1) (e : ℤ) : quartersBelow m e = 2 := by
  refine if_neg fun hpower => ?_
  rw [hpower.1] at h
  norm_num at h

theorem nearest_self (h : OnGrid r) : Nearest r r := by
  refine ⟨h, fun y _ => ?_⟩
  rw [sub_self, abs_zero]
  exact abs_nonneg _

theorem Represents.lt_succ {em : ExtendedMantissa} (h : Represents em q) :
    q < em.mantissa + 1 := by
  obtain ⟨m, round, sticky⟩ := em
  cases round <;> cases sticky <;> simp only [Represents] at h ⊢ <;> linarith

section Rounding

variable {em : ExtendedMantissa} {t : ℤ}

theorem ReadsAs.rounded_self (h : ReadsAs d r) (hem : Represents em (r / 2 ^ d.exponent)) :
    em.roundedMantissa = d.mantissa := by
  have hpos : (0 : ℚ) < 2 ^ d.exponent := by positivity
  apply hem.roundedMantissa_eq
  · exact (le_div_iff₀ hpos).mpr h.half_le
  · exact (div_le_iff₀ hpos).mpr h.high
  · intro hodd
    obtain ⟨hlow, hhigh⟩ := h.strict hodd
    rw [quartersBelow_of_odd hodd] at hlow
    refine ⟨(lt_div_iff₀ hpos).mpr ?_, (div_lt_iff₀ hpos).mpr hhigh⟩
    norm_num at hlow ⊢
    exact hlow

/-- The places below a number are finer than its own only below a power of two, and there only
by one digit. -/
theorem ReadsAs.finer (h : ReadsAs d r) (hd : d.Full) (hbelow : r < 2 ^ 53 * 2 ^ t)
    (hleast : -1074 ≤ t) (ht : t < d.exponent) : t = d.exponent - 1 ∧ d.mantissa = 2 ^ 52 := by
  have hpos : (0 : ℚ) < 2 ^ d.exponent := by positivity
  have hfull : 2 ^ 52 ≤ d.mantissa := hd.full.resolve_right (by omega)
  have hm : (2 : ℚ) ^ 52 ≤ d.mantissa := by exact_mod_cast hfull
  have hhalf := h.half_le
  have hone : t = d.exponent - 1 := by
    by_contra hne
    have hquarter : (2 : ℚ) ^ t ≤ 2 ^ (d.exponent - 2) :=
      zpow_le_zpow_right₀ (by norm_num) (by omega)
    have hunit : (2 : ℚ) ^ d.exponent = 4 * 2 ^ (d.exponent - 2) := by
      rw [zpow_sub₀ (by norm_num)]
      norm_num
      ring
    rw [hunit] at hhalf hpos
    nlinarith
  refine ⟨hone, ?_⟩
  by_contra hne
  have hmore : ((2 ^ 52 + 1 : ℕ) : ℚ) ≤ d.mantissa := by
    exact_mod_cast (show 2 ^ 52 + 1 ≤ d.mantissa by omega)
  have hunit : (2 : ℚ) ^ d.exponent = 2 * 2 ^ t := by
    rw [hone, zpow_sub_one₀ (by norm_num)]
    ring
  push_cast at hmore
  rw [hunit] at hhalf hpos
  nlinarith

theorem ReadsAs.rounded_power (h : ReadsAs d r) (hm : d.mantissa = 2 ^ 52)
    (hleast : -1074 < d.exponent) (hem : Represents em (r / 2 ^ (d.exponent - 1)))
    (hbelow : em.mantissa < 2 ^ 53) : em.roundedMantissa = 2 ^ 53 := by
  have hpos : (0 : ℚ) < 2 ^ (d.exponent - 1) := by positivity
  have hunit : (2 : ℚ) ^ d.exponent = 2 * 2 ^ (d.exponent - 1) := by
    rw [zpow_sub_one₀ (by norm_num)]
    ring
  have hquarters : quartersBelow d.mantissa d.exponent = 1 := if_pos ⟨hm, hleast⟩
  have hlow := h.low
  have hsucc := hem.lt_succ
  have hmantissa : (em.mantissa : ℚ) + 1 ≤ 2 ^ 53 := by
    exact_mod_cast hbelow
  rw [hquarters, hm, hunit] at hlow
  apply hem.roundedMantissa_eq
  · rw [le_div_iff₀ hpos]
    push_cast at hlow ⊢
    linarith
  · push_cast
    linarith
  · intro hodd
    norm_num at hodd

theorem ReadsAs.rounded (h : ReadsAs d r) (hd : d.Full) (hem : Represents em (r / 2 ^ t))
    (hleast : -1074 ≤ t) (hlt : em.mantissa < 2 ^ 53) (hfull : 2 ^ 52 ≤ em.mantissa ∨ t = -1074) :
    (em.roundedMantissa : ℚ) * 2 ^ t = d.mantissa * 2 ^ d.exponent := by
  have hpos : (0 : ℚ) < 2 ^ t := by positivity
  rcases lt_trichotomy t d.exponent with ht | rfl | ht
  · -- Only right below a power of two are the places of `r` finer than those of the number.
    have hsucc := hem.lt_succ
    have hmantissa : (em.mantissa : ℚ) + 1 ≤ 2 ^ 53 := by
      exact_mod_cast hlt
    have hbelow : r < 2 ^ 53 * 2 ^ t := (div_lt_iff₀ hpos).mp (hsucc.trans_le hmantissa)
    obtain ⟨rfl, hm⟩ := h.finer hd hbelow hleast ht
    have hunit : (2 : ℚ) ^ d.exponent = 2 * 2 ^ (d.exponent - 1) := by
      rw [zpow_sub_one₀ (by norm_num)]
      ring
    rw [h.rounded_power hm (by omega) hem hlt, hm, hunit]
    push_cast
    ring
  · rw [h.rounded_self hem]
  · -- With coarser places `r` would be as large as the next power of two.
    exfalso
    have hm : (2 : ℚ) ^ 52 ≤ em.mantissa := by
      exact_mod_cast hfull.resolve_right (by have := hd.least; omega)
    have hge : 2 ^ 52 * 2 ^ t ≤ r := (le_div_iff₀ hpos).mp (hm.trans hem.mantissa_le)
    have hcoarse : (2 : ℚ) ^ (d.exponent + 1) ≤ 2 ^ t :=
      zpow_le_zpow_right₀ (by norm_num) (by omega)
    have hunit : (2 : ℚ) ^ (d.exponent + 1) = 2 * 2 ^ d.exponent := by
      rw [zpow_add_one₀ (by norm_num)]
      ring
    have hlt' : (d.mantissa : ℚ) + 1 ≤ 2 ^ 53 := by
      exact_mod_cast hd.lt
    have hhigh := h.high
    have hpos' : (0 : ℚ) < 2 ^ d.exponent := by positivity
    rw [hunit] at hcoarse
    nlinarith

end Rounding

theorem rounds_of_readsAs (s : Sign) {m : ℕ} {e : ℤ} {a : Accuracy}
    (hq : Represents (ExtendedMantissa.ofMantissaAndAccuracy m a) q)
    (hc : 52 ≤ m.log2 ∨ e ≤ -1074) (hd : d.Full) (h : ReadsAs d (q * 2 ^ e)) :
    Rounds (roundWithAccuracy Format.binary64 s m e a)
      (sign s * (d.mantissa * 2 ^ d.exponent)) := by
  obtain ⟨em, t, hshift, hem, hleast, hlt, hfull⟩ := exists_shift hq hc
  have hlo := mantissa_le_rounded em
  have hhi := rounded_le_mantissa em
  have hvalue := h.rounded hd hem hleast hlt hfull
  rw [← hvalue]
  refine rounds_of_shift hshift rfl (by omega) hleast (hfull.imp_left (by omega)) ?_
  exact nearest_self (hvalue ▸ hd.onGrid)

def RoundsEven (u : UnpackedFloat) (r : ℚ) : Prop :=
  ∀ d : Dyadic, d.Full → ReadsAs d r → Rounds u (d.mantissa * 2 ^ d.exponent)

theorem roundsEven_mul {m n : ℕ} {e f : ℤ} (hm : 0 < m) (hn : 0 < n)
    (hfull : 52 ≤ (m * n).log2 ∨ e + f ≤ -1074) :
    RoundsEven (UnpackedFloat.mul Format.binary64 (.finite .positive m e hm)
      (.finite .positive n f hn)) (m * 2 ^ e * (n * 2 ^ f)) := by
  intro d hd h
  have hproduct : (m : ℚ) * 2 ^ e * (n * 2 ^ f) = ((m * n : ℕ) : ℚ) * 2 ^ (e + f) := by
    rw [zpow_add₀ (by norm_num)]
    push_cast
    ring
  rw [hproduct] at h
  have := rounds_of_readsAs .positive (represents_exact (m * n)) hfull hd h
  rwa [sign, one_mul] at this

theorem roundsEven_div {m n : ℕ} {e f : ℤ} (hm : 0 < m) (hn : 0 < n) :
    RoundsEven (UnpackedFloat.div Format.binary64 (.finite .positive m e hm)
      (.finite .positive n f hn)) (m * 2 ^ e / (n * 2 ^ f)) := by
  intro d hd h
  obtain ⟨k, g, a, q, hdiv, hq, hc, hvalue⟩ :=
    exists_quotient .positive .positive (e := e) (f := f) hm hn
  rw [← hvalue] at h
  have := rounds_of_readsAs (.positive / .positive) hq hc hd h
  rw [hdiv]
  rwa [sign_div, sign, one_mul, one_mul] at this

theorem roundsEven_ofScientific {m : ℕ} {e : ℤ} (hm : 0 < m) (hlo : -2048 ≤ e) (hhi : e ≤ 2048) :
    RoundsEven (UnpackedFloat.ofScientific Format.binary64 m e) (m * 10 ^ e) := by
  rw [ofScientific_eq hm hlo hhi]
  split
  · rename_i hnonneg
    obtain ⟨j, rfl⟩ := Int.eq_ofNat_of_zero_le hnonneg
    have hfull := full_shiftLeft hm
    have hten : 0 < 10 ^ (j : ℤ).toNat := by positivity
    have hround := roundsEven_mul (e := -Format.binary64.mantissaBits) (f := 0) (by omega) hten
      (Or.inl (le_log2_mul (by omega) hten (Or.inl hfull)))
    rw [shiftLeft_mantissaBits, zpow_zero, mul_one] at hround
    exact_mod_cast hround
  · rename_i hneg
    obtain ⟨j, rfl⟩ : ∃ j : ℕ, e = -j := ⟨(-e).toNat, by omega⟩
    have hten : 0 < 10 ^ (-(-(j : ℤ))).toNat := by positivity
    have hround := roundsEven_div (e := 0) (f := 0) hm hten
    have hvalue : (m : ℚ) * 10 ^ (-(j : ℤ)) =
        m * 2 ^ (0 : ℤ) / (((10 ^ (-(-(j : ℤ))).toNat : ℕ) : ℚ) * 2 ^ (0 : ℤ)) := by
      rw [neg_neg, Int.toNat_natCast, zpow_neg, zpow_natCast, zpow_zero]
      push_cast
      ring
    rw [hvalue]
    exact hround

variable {x y : Float}

/-- `r` rounded to the grid with halves to even, and then packed. -/
def IsRoundedEven (x : Float) (r : ℚ) : Prop :=
  ∃ u, x.toModel = Float.Model.pack u ∧ RoundsEven u r

theorem mul_roundedEven (hx : Scalar.isPositive x = true) (hy : Scalar.isPositive y = true) :
    IsRoundedEven (x * y) (toRat x * toRat y) := by
  obtain ⟨hx0, hxlt⟩ := isPositive_iff_toBits.mp hx
  obtain ⟨hy0, hylt⟩ := isPositive_iff_toBits.mp hy
  obtain ⟨hxm, hxunpack⟩ := unpack_of_toBits hx0 hxlt
  obtain ⟨hym, hyunpack⟩ := unpack_of_toBits hy0 hylt
  refine ⟨UnpackedFloat.mul Format.binary64 x.toModel.unpack y.toModel.unpack, rfl, ?_⟩
  rw [(toRat_of_toBits hx0 hxlt).2.2, (toRat_of_toBits hy0 hylt).2.2, hxunpack, hyunpack]
  apply roundsEven_mul
  obtain ⟨-, -, hxfull | hxleast⟩ := full_of_isPositive hx
  · exact Or.inl (le_log2_mul hxm hym (Or.inl hxfull))
  · obtain ⟨-, -, hyfull | hyleast⟩ := full_of_isPositive hy
    · exact Or.inl (le_log2_mul hxm hym (Or.inr hyfull))
    · exact Or.inr (by omega)

theorem div_roundedEven (hx : Scalar.isPositive x = true) (hy : Scalar.isPositive y = true) :
    IsRoundedEven (x / y) (toRat x / toRat y) := by
  obtain ⟨hx0, hxlt⟩ := isPositive_iff_toBits.mp hx
  obtain ⟨hy0, hylt⟩ := isPositive_iff_toBits.mp hy
  obtain ⟨hxm, hxunpack⟩ := unpack_of_toBits hx0 hxlt
  obtain ⟨hym, hyunpack⟩ := unpack_of_toBits hy0 hylt
  refine ⟨UnpackedFloat.div Format.binary64 x.toModel.unpack y.toModel.unpack, rfl, ?_⟩
  rw [(toRat_of_toBits hx0 hxlt).2.2, (toRat_of_toBits hy0 hylt).2.2, hxunpack, hyunpack]
  exact roundsEven_div hxm hym

theorem ofScientific_roundedEven {n j : ℕ} (hn : 0 < n) (hj : j ≤ 2048) :
    IsRoundedEven (Float.ofScientific n false j) (n * 10 ^ (j : ℤ)) ∧
      IsRoundedEven (Float.ofScientific n true j) (n * 10 ^ (-(j : ℤ))) := by
  unfold Float.ofScientific
  split
  · rename_i hfast
    obtain ⟨hn53, hj22⟩ := hfast
    have hj23 : j < 23 := by omega
    obtain ⟨hfin, hpower⟩ := toRat_powerOfTen hj23
    obtain ⟨hfin', hwhole⟩ := (toFloat_rounded (hn53.trans (by norm_num))).eq_natCast hn53.le
    have hpos : Scalar.isPositive n.toUInt64.toFloat = true := by
      rw [isPositive_iff, hwhole]
      exact ⟨hfin', by exact_mod_cast hn⟩
    have hpos' : Scalar.isPositive Float.exactlyRepresentablePowersOfTen[j] = true := by
      rw [isPositive_iff, hpower]
      exact ⟨hfin, by positivity⟩
    have hmul := mul_roundedEven hpos hpos'
    have hdiv := div_roundedEven hpos hpos'
    rw [hwhole, hpower] at hmul hdiv
    rw [zpow_neg, zpow_natCast, ← div_eq_mul_inv]
    exact ⟨hmul, hdiv⟩
  · refine ⟨⟨_, rfl, roundsEven_ofScientific hn ?_ ?_⟩, ⟨_, rfl, ?_⟩⟩
    · show -2048 ≤ (j : ℤ)
      omega
    · show (j : ℤ) ≤ 2048
      omega
    · rw [if_pos rfl, Int.negOfNat_eq]
      have hround := roundsEven_ofScientific (e := -(j : ℤ)) hn (by omega) (by omega)
      exact hround

theorem ofDecimal_roundedEven {n : ℕ} {e : ℤ} (hn : 0 < n) (hlo : -2048 ≤ e) (hhi : e ≤ 2048) :
    IsRoundedEven (ofDecimal n e) (n * 10 ^ e) := by
  cases e with
  | ofNat j => exact (ofScientific_roundedEven hn (Int.ofNat_le.mp hhi)).1
  | negSucc j => exact (ofScientific_roundedEven hn (by omega)).2

theorem IsRoundedEven.eq {d : Dyadic} (h : IsRoundedEven x r) (hd : d.Full) (hr : ReadsAs d r)
    (hbound : (d.mantissa : ℚ) * 2 ^ d.exponent < 2 ^ (1024 : ℤ)) :
    x.isFinite = true ∧ toRat x = d.mantissa * 2 ^ d.exponent := by
  obtain ⟨u, hx, hu⟩ := h
  have hrounds := hu d hd hr
  have hgrid := hd.onGrid
  have hpos : (0 : ℚ) ≤ d.mantissa * 2 ^ d.exponent := mul_nonneg d.mantissa.cast_nonneg
    (zpow_nonneg (by norm_num) _)
  generalize (d.mantissa : ℚ) * 2 ^ d.exponent = v at *
  have hrounded : IsRounded x v := ⟨u, hx, hrounds⟩
  obtain ⟨hfin, hnear⟩ := hrounded.nearest_of_le hgrid hbound (abs_of_nonneg hpos).le
  exact ⟨hfin, hnear.eq_of_onGrid hgrid⟩

theorem readsAs_of_contains {s : ℤ} {n : ℕ} (hm : 0 < d.mantissa)
    (h : (Interval.around d s).contains n = true) : ReadsAs d (n * 10 ^ s) := by
  refine ⟨inside_of_contains hm h, fun hodd => ?_⟩
  obtain ⟨c, hc, hlow, hhigh, hscale⟩ := around_eq hm s
  have hopen : (Interval.around d s).closed = false := by
    apply decide_eq_false
    omega
  have hends : (Interval.around d s).low < n * (Interval.around d s).scale ∧
      n * (Interval.around d s).scale < (Interval.around d s).high := by
    simpa [Interval.contains, hopen] using h
  have hpoint : ((n * (Interval.around d s).scale : ℕ) : ℚ) = n * 10 ^ s * c := by
    rw [Nat.cast_mul, hscale, mul_assoc]
  constructor
  · have hlt := Nat.cast_lt (α := ℚ).mpr hends.1
    rw [hlow, hpoint] at hlt
    exact lt_of_mul_lt_mul_right hlt hc.le
  · have hlt := Nat.cast_lt (α := ℚ).mpr hends.2
    rw [hhigh, hpoint] at hlt
    exact lt_of_mul_lt_mul_right hlt hc.le

theorem readsAs_shortest (tie : Tie) (hd : d.Full) (hhi : d.exponent ≤ 971) :
    ReadsAs d ((shortest d tie).mantissa * 10 ^ (shortest d tie).exponent) := by
  have hlog : Nat.log2 d.mantissa ≤ 52 := by
    have := (Nat.log2_lt hd.pos.ne').mpr hd.lt
    omega
  have hleast := hd.least
  exact readsAs_of_contains hd.pos (contains_shortest tie hd.pos rfl hlog (by omega) (by omega)).1

/-- A number above zero is read from the decimal that is written for it, whatever its power of
ten. -/
theorem ofDecimal_eq (tie : Tie) (hx : Scalar.isPositive x = true) {n : ℕ} {e : ℤ}
    (hlo : -2048 ≤ e) (hhi : e ≤ 2048)
    (hvalue : (n : ℚ) * 10 ^ e = (shortest (Dyadic.ofFloat x) tie).mantissa *
      10 ^ (shortest (Dyadic.ofFloat x) tie).exponent) : ofDecimal n e = x := by
  obtain ⟨hm, hlast, hrat⟩ := bounds_of_isPositive hx
  obtain ⟨hm53, hleast, hfull⟩ := full_of_isPositive hx
  have hd : (Dyadic.ofFloat x).Full := ⟨hm, hm53, hleast, hfull⟩
  have hreads := readsAs_shortest tie hd hlast
  rw [← hvalue] at hreads
  have hn : 0 < n := by
    refine Nat.pos_of_ne_zero fun hzero => (hreads.pos hm).ne ?_
    rw [hzero, Nat.cast_zero, zero_mul]
  have hbound : toRat x < 2 ^ (1024 : ℤ) :=
    lt_of_abs_lt (canonical_unpack (isPositive_iff.mp hx).1).2
  rw [hrat] at hbound
  obtain ⟨hfin, heq⟩ := (ofDecimal_roundedEven hn hlo hhi).eq hd hreads hbound
  rw [← hrat] at heq
  refine eq_of_toRat (isPositive_iff.mpr ⟨hfin, ?_⟩) hx heq
  rw [heq]
  exact (isPositive_iff.mp hx).2

end Gantry.Number
