import Mathlib
import Gantry.Number.Reading
import Gantry.Proofs.Json.Decimal
import Gantry.Proofs.Number.HalfEven

/-!
# Reading decimals

The digits that are written for a number, in full and with places after the point, are read as that
number: leading zeros do not count, and no number is so large or so small that its digits are
passed over.
-/

namespace Gantry.Number

variable {ds : List Char} {e : ℤ} {x : Float}

theorem natOfDigits_eq (ds : List Char) : natOfDigits ds = Nat.ofDigitChars 10 ds 0 :=
  Nat.ofDigitChars_eq_foldl.symm

def significant (ds : List Char) : List Char :=
  ds.dropWhile (· == '0')

theorem natOfDigits_significant (ds : List Char) :
    natOfDigits (significant ds) = natOfDigits ds := by
  unfold significant
  induction ds with
  | nil => rfl
  | cons c ds ih =>
    by_cases hc : c = '0'
    · subst hc
      rw [List.dropWhile_cons_of_pos (by decide), ih]
      rfl
    · rw [List.dropWhile_cons_of_neg (by simpa using hc)]

theorem ofDigitChars_lt (hds : ∀ c ∈ ds, c.isDigit = true) (n : ℕ) :
    Nat.ofDigitChars 10 ds n < (n + 1) * 10 ^ ds.length := by
  induction ds generalizing n with
  | nil => simp
  | cons c ds ih =>
    have hdigit := Char.isDigit_iff_toNat.mp (hds c List.mem_cons_self)
    have hc : c.toNat - '0'.toNat ≤ 9 := Nat.sub_le_iff_le_add.mpr hdigit.2
    rw [Nat.ofDigitChars_cons]
    refine (ih (fun b hb => hds b (List.mem_cons_of_mem _ hb)) _).trans_le ?_
    rw [List.length_cons, pow_succ', ← mul_assoc]
    exact Nat.mul_le_mul_right _ (by omega)

theorem pow_le_natOfDigits (hds : ∀ c ∈ ds, c.isDigit = true) (hne : ds ≠ [])
    (hhead : ds.head? ≠ some '0') : 10 ^ (ds.length - 1) ≤ natOfDigits ds := by
  cases ds with
  | nil => exact absurd rfl hne
  | cons c ds =>
    have hdigit := Char.isDigit_iff_toNat.mp (hds c List.mem_cons_self)
    have hc : 1 ≤ c.toNat - '0'.toNat := by
      have hzero : '0'.toNat ≠ c.toNat := by
        intro h
        exact hhead (congrArg some (Char.toNat_inj.mp h.symm))
      omega
    rw [natOfDigits_eq, Nat.ofDigitChars_cons, Nat.ofDigitChars_eq_ofDigitChars_zero,
      List.length_cons, Nat.add_sub_cancel]
    calc 10 ^ ds.length ≤ 10 ^ ds.length * (10 * 0 + (c.toNat - '0'.toNat)) :=
          Nat.le_mul_of_pos_right _ (by omega)
      _ ≤ _ := Nat.le_add_right _ _

theorem two_pow_lt_ten_pow : 2 * 2 ^ 1074 < 10 ^ 330 ∧ 2 ^ 53 * 2 ^ 971 < 10 ^ 309 := by
  decide +kernel

/-- A number above zero has its digits neither far before the point nor far after it. -/
theorem order_bounds (hx : Scalar.isPositive x = true) (tie : Tie) {v : ℚ}
    (hv : v = (shortest (Dyadic.ofFloat x) tie).mantissa *
      10 ^ (shortest (Dyadic.ofFloat x) tie).exponent) :
    (10 : ℚ) ^ (-330 : ℤ) < v ∧ v < 10 ^ (309 : ℤ) := by
  obtain ⟨hm, hlast, -⟩ := bounds_of_isPositive hx
  obtain ⟨hm53, hleast, -⟩ := full_of_isPositive hx
  obtain ⟨hinside, -⟩ := inside_shortest tie hm hm53 hleast hlast
  rw [← hv] at hinside
  have hhalf := hinside.half_le
  have hhigh := hinside.high
  have hm1 : (1 : ℚ) ≤ (Dyadic.ofFloat x).mantissa := by exact_mod_cast hm
  have hm2 : ((Dyadic.ofFloat x).mantissa : ℚ) + 1 ≤ 2 ^ 53 := by exact_mod_cast hm53
  have hsmall : (2 : ℚ) ^ (-1074 : ℤ) ≤ 2 ^ (Dyadic.ofFloat x).exponent :=
    zpow_le_zpow_right₀ (by norm_num) hleast
  have hlarge : (2 : ℚ) ^ (Dyadic.ofFloat x).exponent ≤ 2 ^ (971 : ℤ) :=
    zpow_le_zpow_right₀ (by norm_num) hlast
  have hpos : (0 : ℚ) < 2 ^ (Dyadic.ofFloat x).exponent := by positivity
  generalize (2 : ℚ) ^ (Dyadic.ofFloat x).exponent = u at *
  constructor
  · have hten : (10 : ℚ) ^ (-330 : ℤ) < 1 / 2 * 2 ^ (-1074 : ℤ) := by
      rw [zpow_neg, zpow_neg, one_div, ← mul_inv]
      exact inv_strictAnti₀ (by positivity) (by exact_mod_cast two_pow_lt_ten_pow.1)
    refine (hten.trans_le ?_).trans_le hhalf
    exact mul_le_mul (by linarith) hsmall (by positivity) (by linarith)
  · have hten : (2 : ℚ) ^ 53 * 2 ^ (971 : ℤ) < 10 ^ (309 : ℤ) := by
      exact_mod_cast two_pow_lt_ten_pow.2
    refine (hhigh.trans ?_).trans_lt hten
    exact mul_le_mul (by linarith) hlarge hpos.le (by norm_num)

theorem order_of_digits (hds : ∀ c ∈ ds, c.isDigit = true) (hne : ds ≠ [])
    (hhead : ds.head? ≠ some '0') (hlow : (10 : ℚ) ^ (-330 : ℤ) < natOfDigits ds * 10 ^ e)
    (hhigh : (natOfDigits ds : ℚ) * 10 ^ e < 10 ^ (309 : ℤ)) :
    -330 < (ds.length : ℤ) + e ∧ (ds.length : ℤ) + e ≤ 309 := by
  have hten : (0 : ℚ) < 10 ^ e := by positivity
  have hmore := pow_le_natOfDigits hds hne hhead
  have hless := ofDigitChars_lt hds 0
  rw [← natOfDigits_eq, zero_add, one_mul] at hless
  have hlength : 1 ≤ ds.length := List.length_pos_iff.mpr hne
  constructor
  · refine (zpow_lt_zpow_iff_right₀ (a := (10 : ℚ)) (by norm_num)).mp (hlow.trans ?_)
    rw [zpow_add₀ (by norm_num), zpow_natCast]
    exact mul_lt_mul_of_pos_right (by exact_mod_cast hless) hten
  · have hbefore : (ds.length - 1 : ℕ) + e < 309 := by
      refine (zpow_lt_zpow_iff_right₀ (a := (10 : ℚ)) (by norm_num)).mp (lt_of_le_of_lt ?_ hhigh)
      rw [zpow_add₀ (by norm_num), zpow_natCast]
      exact mul_le_mul_of_nonneg_right (by exact_mod_cast hmore) hten.le
    omega

theorem head?_significant (ds : List Char) : (significant ds).head? ≠ some '0' := by
  intro h
  have hzero := List.head?_dropWhile_not (· == '0') ds
  unfold significant at h
  rw [h] at hzero
  exact absurd hzero (by decide)

theorem ofDigits_eq (hx : Scalar.isPositive x = true) (tie : Tie)
    (hds : ∀ c ∈ ds, c.isDigit = true) (he : -2048 ≤ e)
    (hvalue : (natOfDigits ds : ℚ) * 10 ^ e = (shortest (Dyadic.ofFloat x) tie).mantissa *
      10 ^ (shortest (Dyadic.ofFloat x) tie).exponent) : ofDigits ds e = x := by
  obtain ⟨hlow, hhigh⟩ := order_bounds hx tie hvalue
  rw [← natOfDigits_significant] at hvalue hlow hhigh
  have hds' : ∀ c ∈ significant ds, c.isDigit = true :=
    fun c hc => hds c ((List.dropWhile_suffix _).subset hc)
  have hne : significant ds ≠ [] := by
    intro hnil
    have hzero : natOfDigits [] = 0 := rfl
    rw [hnil, hzero, Nat.cast_zero, zero_mul] at hlow
    exact absurd hlow (not_lt.mpr (by positivity))
  obtain ⟨hafter, hbefore⟩ := order_of_digits hds' hne (head?_significant ds) hlow hhigh
  have hread : ofDigits ds e = ofDecimal (natOfDigits (significant ds)) e := by
    show (if significant ds = [] ∨ ((significant ds).length : ℤ) + e < -330 then _ else
      if 310 < ((significant ds).length : ℤ) + e then _ else _) = _
    rw [if_neg (not_or.mpr ⟨hne, not_lt.mpr hafter.le⟩), if_neg (by omega)]
    rfl
  have hlength : 1 ≤ (significant ds).length := List.length_pos_iff.mpr hne
  rw [hread]
  exact ofDecimal_eq tie hx he (by omega) hvalue

end Gantry.Number
