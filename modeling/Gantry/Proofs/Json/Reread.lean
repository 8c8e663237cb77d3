import Mathlib
import Gantry.Proofs.Json.Decimal
import Gantry.Proofs.Number.Decimal

/-!
# Numbers read back

A number above zero comes back from its literal as a number above zero, though not always as the
same one. Scaling rounds up to four times, so that it may have moved by a few units in its last
place. It has not where the decimal is short: then only the last step rounds.
-/

namespace Gantry.Json.Literal

open Number

variable {n e i j : ℕ} {p : ℤ} {x : Float}

theorem scale?_of_nonneg (he : e ≤ 308)
    (hfin : (Number.ofDecimal n 0 * powerOfTen e).isFinite = true) :
    scale? n e = some (Number.ofDecimal n 0 * powerOfTen e) := by
  have hinf : ¬ (Number.ofDecimal n 0 * powerOfTen e).isInf = true := by
    rw [isInf_of_isFinite hfin]
    exact Bool.false_ne_true
  have hscale : scale? n e = if e ≤ 308 then
      (if (Number.ofDecimal n 0 * powerOfTen e).isInf then none
        else some (Number.ofDecimal n 0 * powerOfTen e))
      else if Number.ofDecimal n 0 == 0.0 then some (Number.ofDecimal n 0) else none := rfl
  rw [hscale, if_pos he, if_neg hinf]

theorem scale?_of_neg (hi : i < 308) :
    scale? n (Int.negSucc i) = some (Number.ofDecimal n 0 / powerOfTen (i + 1)) := by
  have hdiv : i / 308 = 0 := Nat.div_eq_of_lt hi
  have hmod : i % 308 = i := Nat.mod_eq_of_lt hi
  show some (shrink (i / 308) (Number.ofDecimal n 0) / powerOfTen (i % 308 + 1)) = _
  rw [hdiv, hmod]
  rfl

/-- Below `10 ^ -308` the division is made in two steps. -/
theorem scale?_of_neg_small (hi : i < 308) (h0 : (Number.ofDecimal n 0 == 0.0) = false) :
    scale? n (Int.negSucc (i + 308)) =
      some (Number.ofDecimal n 0 / powerOfTen 308 / powerOfTen (i + 1)) := by
  have hdiv : (i + 308) / 308 = 1 := by omega
  have hmod : (i + 308) % 308 = i := by omega
  show some (shrink ((i + 308) / 308) (Number.ofDecimal n 0) / powerOfTen ((i + 308) % 308 + 1)) = _
  rw [hdiv, hmod, shrink, h0]
  rfl

theorem scale?_of_lt (hn : n < 2 ^ 53) (hj0 : 1 ≤ j) (hj : j ≤ 22) :
    ∃ y, scale? n (-(j : ℤ)) = some y ∧ y.isFinite = true ∧ Nearest (n / 10 ^ j) (toRat y) := by
  obtain ⟨i, rfl⟩ : ∃ i, j = i + 1 := ⟨j - 1, by omega⟩
  obtain ⟨hfin, hval⟩ := ofDecimal_natural hn.le
  obtain ⟨hfin', hval'⟩ := ofDecimal_one hj
  have hquotient := div_rounded hfin hfin' (by rw [hval']; positivity)
  rw [hval, hval'] at hquotient
  have hbound : |(n : ℚ) / 10 ^ (i + 1)| ≤ 2 ^ (1023 : ℤ) := by
    rw [abs_of_nonneg (by positivity)]
    exact (div_le_self (by positivity) (one_le_pow₀ (by norm_num))).trans (natCast_le hn.le)
  exact ⟨_, scale?_of_neg (by omega), hquotient.nearest hbound⟩

theorem largest_eq : largest = (((2 ^ 53 - 1) * 2 ^ 971 : ℕ) : ℚ) := by
  have hm : ((2 ^ 53 - 1 : ℕ) : ℚ) = 2 ^ 53 - 1 := by norm_num
  rw [Nat.cast_mul, hm, Nat.cast_pow]
  rfl

theorem ten_pow_le_largest (he : e ≤ 308) : (10 : ℚ) ^ e ≤ largest := by
  have hnat : 10 ^ 308 ≤ (2 ^ 53 - 1) * 2 ^ 971 := by decide +kernel
  calc (10 : ℚ) ^ e ≤ 10 ^ 308 := pow_le_pow_right₀ (by norm_num) he
    _ ≤ (((2 ^ 53 - 1) * 2 ^ 971 : ℕ) : ℚ) := by exact_mod_cast hnat
    _ = largest := largest_eq.symm

theorem largest_lt : largest < 10 ^ 309 := by
  have hnat : (2 ^ 53 - 1) * 2 ^ 971 < 10 ^ 309 := by decide +kernel
  rw [largest_eq]
  exact_mod_cast hnat

theorem powerOfTen_drift (he : e ≤ 308) :
    (powerOfTen e).isFinite = true ∧ Drift 1 (toRat (powerOfTen e)) (10 ^ e) := by
  have h := ofDecimal_drift (n := 1) (j := e) (by norm_num) (by omega)
    (by rw [Nat.cast_one, one_mul]; exact ten_pow_le_largest he)
  rwa [Nat.cast_one, one_mul] at h

theorem natural_le_largest (hn : n < 2 ^ 64) : (n : ℚ) ≤ largest := by
  calc (n : ℚ) ≤ 10 ^ 20 := by exact_mod_cast hn.le.trans (by norm_num)
    _ ≤ largest := ten_pow_le_largest (by norm_num)

theorem natural_drift (h0 : 0 < n) (hn : n < 2 ^ 64) :
    (Number.ofDecimal n 0).isFinite = true ∧ Drift 1 (toRat (Number.ofDecimal n 0)) n := by
  have h := ofDecimal_drift (j := 0) h0 (by norm_num)
    (by rw [pow_zero, mul_one]; exact natural_le_largest hn)
  rwa [pow_zero, mul_one] at h

/-- What scaling computes before it rounds for the last time. -/
structure Scaled (n : ℕ) (p : ℤ) (y : Float) (q : ℚ) : Prop where
  isFinite : y.isFinite = true
  nearest : Nearest q (toRat y)
  drift : Drift 8 q (n * 10 ^ p)

theorem scaled_of_nonneg (h0 : 0 < n) (hn : n < 2 ^ 64) (he : e ≤ 308)
    (hmax : (n : ℚ) * 10 ^ e ≤ kept ^ 2 * largest) :
    ∃ y q, scale? n e = some y ∧ Scaled n e y q := by
  obtain ⟨hfin, hdrift⟩ := natural_drift h0 hn
  obtain ⟨hfin', hdrift'⟩ := powerOfTen_drift he
  have hn0 : (0 : ℚ) < n := by exact_mod_cast h0
  have hproduct := hdrift.mul hdrift' hn0 (by positivity)
  have hpos := hproduct.pos (by positivity)
  have hle : toRat (Number.ofDecimal n 0) * toRat (powerOfTen e) ≤ largest := by
    have := hproduct.high.trans hmax
    exact le_of_mul_le_mul_left this (pow_pos kept_pos 2)
  obtain ⟨hy, hnear⟩ := (mul_rounded hfin hfin').nearest_of_le_largest hpos.le hle
  refine ⟨_, _, scale?_of_nonneg he hy, hy, hnear, ?_⟩
  rw [zpow_natCast]
  exact hproduct.mono (by norm_num) (by positivity) hpos.le

theorem scaled_of_div {f : Float} {k : ℕ} {r : ℚ} (hfin : f.isFinite = true)
    (hdrift : Drift k (toRat f) r) (hk : k ≤ 7) (hr0 : 0 < r) (hr : r < 2 ^ 64) (he : e ≤ 308) :
    (f / powerOfTen e).isFinite = true ∧
      Nearest (toRat f / toRat (powerOfTen e)) (toRat (f / powerOfTen e)) ∧
      Drift (k + 1) (toRat f / toRat (powerOfTen e)) (r / 10 ^ e) := by
  obtain ⟨hfin', hdrift'⟩ := powerOfTen_drift he
  have hquotient := hdrift.div hdrift' hr0 (by positivity)
  have hpos := hquotient.pos (by positivity)
  have hle : toRat f / toRat (powerOfTen e) ≤ largest := by
    calc toRat f / toRat (powerOfTen e) ≤ 2 * (r / 10 ^ e) :=
          hquotient.le_two_mul (by omega) hpos.le
      _ ≤ 2 * r := by
        gcongr
        exact div_le_self hr0.le (one_le_pow₀ (by norm_num))
      _ ≤ 10 ^ 20 := by linarith
      _ ≤ largest := ten_pow_le_largest (by norm_num)
  have hne := (hdrift'.pos (by positivity)).ne'
  obtain ⟨hy, hnear⟩ := (div_rounded hfin hfin' hne).nearest_of_le_largest hpos.le hle
  exact ⟨hy, hnear, hquotient⟩

theorem scaled_of_neg (h0 : 0 < n) (hn : n < 2 ^ 64) (hi : i < 308) :
    ∃ y q, scale? n (Int.negSucc i) = some y ∧ Scaled n (Int.negSucc i) y q := by
  obtain ⟨hfin, hdrift⟩ := natural_drift h0 hn
  have hn0 : (0 : ℚ) < n := by exact_mod_cast h0
  obtain ⟨hy, hnear, hquotient⟩ :=
    scaled_of_div hfin hdrift (by norm_num) hn0 (by exact_mod_cast hn) (e := i + 1) (by omega)
  refine ⟨_, _, scale?_of_neg hi, hy, hnear, ?_⟩
  rw [zpow_negSucc, ← div_eq_mul_inv]
  exact hquotient.mono (by norm_num) (by positivity) (hquotient.pos (by positivity)).le

theorem scaled_of_neg_small (h0 : 0 < n) (hn : n < 2 ^ 64) (hi : i < 308) :
    ∃ y q, scale? n (Int.negSucc (i + 308)) = some y ∧
      Scaled n (Int.negSucc (i + 308)) y q := by
  obtain ⟨hfin, hdrift⟩ := natural_drift h0 hn
  have hone : (1 : ℚ) ≤ n := by exact_mod_cast h0
  have hn0 : (0 : ℚ) < n := by linarith
  have hn64 : (n : ℚ) < 2 ^ 64 := by exact_mod_cast hn
  have hzero : (Number.ofDecimal n 0 == 0.0) = false := by
    have hfin0 : (0.0 : Float).isFinite = true ∧ toRat 0.0 = 0 := by decide +kernel
    rw [Bool.eq_false_iff, ne_eq, beq_iff hfin hfin0.1, hfin0.2]
    exact (hdrift.pos hn0).ne'
  obtain ⟨hfin1, hnear1, hdrift1⟩ :=
    scaled_of_div hfin hdrift (by norm_num) hn0 hn64 (e := 308) (by norm_num)
  have hsmall : (2 : ℚ) ^ (-1024 : ℤ) ≤ toRat (Number.ofDecimal n 0) / toRat (powerOfTen 308) := by
    have hnat : 5 * 10 ^ 308 ≤ 3 * 2 ^ 1024 := by decide +kernel
    have hrat : (5 : ℚ) * 10 ^ 308 ≤ 3 * 2 ^ (1024 : ℤ) := by exact_mod_cast hnat
    have hkept : (3 : ℚ) / 5 ≤ kept ^ (1 + 1) := by
      unfold kept
      norm_num
    calc (2 : ℚ) ^ (-1024 : ℤ) = 1 / 2 ^ (1024 : ℤ) := by rw [zpow_neg, one_div]
      _ ≤ 3 / 5 * (1 / 10 ^ 308) := by
        have ha : (0 : ℚ) < 2 ^ (1024 : ℤ) := by positivity
        have hb : (0 : ℚ) < 10 ^ 308 := by positivity
        generalize (2 : ℚ) ^ (1024 : ℤ) = a at *
        generalize (10 : ℚ) ^ 308 = b at *
        rw [mul_one_div, div_le_div_iff₀ ha hb]
        linarith
      _ ≤ kept ^ (1 + 1) * (n / 10 ^ 308) := by gcongr
      _ ≤ _ := hdrift1.low
  have hdrift2 := (drift_of_nearest_small hnear1 hsmall).trans hdrift1
  obtain ⟨hy, hnear, hquotient⟩ :=
    scaled_of_div hfin1 hdrift2 (by norm_num) (by positivity)
      ((div_le_self hn0.le (one_le_pow₀ (by norm_num))).trans_lt hn64) (e := i + 1) (by omega)
  refine ⟨_, _, scale?_of_neg_small hi hzero, hy, hnear, ?_⟩
  have hpow : (n : ℚ) * 10 ^ Int.negSucc (i + 308) = n / 10 ^ 308 / 10 ^ (i + 1) := by
    rw [zpow_negSucc, ← div_eq_mul_inv, div_div, ← pow_add]
    congr 2
    ring
  rw [hpow]
  exact hquotient

/-- Scaling does not overflow unless the number is nearly too large, and is off by eight roundings
before the last. -/
theorem exists_scaled (h0 : 0 < n) (hn : n < 2 ^ 64) (hp : -600 ≤ p)
    (hmax : (n : ℚ) * 10 ^ p ≤ kept ^ 2 * largest) :
    ∃ y q, scale? n p = some y ∧ Scaled n p y q := by
  have hone : (1 : ℚ) ≤ n := by exact_mod_cast h0
  cases p with
  | ofNat e =>
    rw [Int.ofNat_eq_natCast, zpow_natCast] at hmax
    have hkept : kept ^ 2 ≤ 1 := by
      unfold kept
      norm_num
    have hlarge : (0 : ℚ) ≤ largest := (by positivity : (0 : ℚ) ≤ 10 ^ 0).trans
      (ten_pow_le_largest (by norm_num))
    have hbelow : (10 : ℚ) ^ e < 10 ^ 309 := by
      calc (10 : ℚ) ^ e ≤ n * 10 ^ e := le_mul_of_one_le_left (by positivity) hone
        _ ≤ kept ^ 2 * largest := hmax
        _ ≤ 1 * largest := by gcongr
        _ < 10 ^ 309 := by rw [one_mul]; exact largest_lt
    have he : e < 309 := (pow_lt_pow_iff_right₀ (by norm_num)).mp hbelow
    exact scaled_of_nonneg h0 hn (by omega) hmax
  | negSucc i =>
    rcases Nat.lt_or_ge i 308 with hi | hi
    · exact scaled_of_neg h0 hn hi
    · obtain ⟨k, rfl⟩ : ∃ k, i = k + 308 := ⟨i - 308, by omega⟩
      exact scaled_of_neg_small h0 hn (by omega)

theorem ofFloat_of_isPositive (hx : Scalar.isPositive x = true) :
    ofFloat x = ofDecimal false (shortest (Dyadic.ofFloat x) .even) := by
  obtain ⟨-, hlt⟩ := isPositive_iff_toBits.mp hx
  have hsign : (Dyadic.ofFloat x).negative = false := by
    have htop : twoTo 63 = 2 ^ 63 := rfl
    unfold infinityBits at hlt
    apply decide_eq_false
    omega
  rw [← hsign]
  rfl

theorem negative_ofDecimal (negative : Bool) (d : Decimal) :
    (ofDecimal negative d).negative = negative := by
  unfold ofDecimal
  simp only
  split <;> rfl

theorem spells_ofFloat (hx : Scalar.isPositive x = true) :
    Spells (shortest (Dyadic.ofFloat x) .even) (ofFloat x) := by
  rw [ofFloat_of_isPositive hx]
  exact spells_ofDecimal false _

theorem toFloat?_ofFloat_eq (hx : Scalar.isPositive x = true) :
    (ofFloat x).toFloat? = scale? (ofFloat x).mantissa ((ofFloat x).power - (ofFloat x).places) ∧
      (ofFloat x).mantissa < 2 ^ 64 ∧ -600 ≤ (ofFloat x).power - (ofFloat x).places ∧
      Inside (Dyadic.ofFloat x)
        ((ofFloat x).mantissa * 10 ^ ((ofFloat x).power - (ofFloat x).places)) := by
  obtain ⟨hm, hlast, -⟩ := bounds_of_isPositive hx
  obtain ⟨hm53, hleast, -⟩ := full_of_isPositive hx
  obtain ⟨hinside, hsize, hlow, hhigh⟩ := inside_shortest .even hm hm53 hleast hlast
  have hspells := spells_ofFloat hx
  obtain ⟨hread, hn, hp, -⟩ := hspells.magnitude?_eq hsize hlow hhigh
  have hplus : (ofFloat x).negative = false := by
    rw [ofFloat_of_isPositive hx, negative_ofDecimal]
  refine ⟨?_, hn, by omega, ?_⟩
  · rw [toFloat?, hplus, hread]
    exact Option.map_id'
  · rw [hspells.value]
    exact hinside

theorem toFloat?_ofFloat (hx : Scalar.isPositive x = true)
    (h : (shortest (Dyadic.ofFloat x) .even).Short) : (ofFloat x).toFloat? = some x := by
  have hspells := spells_ofFloat hx
  obtain ⟨hdigits, j, hj0, hj, hexponent⟩ := hspells.of_short h
  obtain ⟨y, hy, hfin, hnear⟩ := scale?_of_lt hdigits hj0 hj
  have hvalue := hspells.value
  rw [hexponent, zpow_neg, zpow_natCast, ← div_eq_mul_inv] at hvalue
  have heq : toRat y = toRat x := nearest_shortest hx hdigits hj hvalue.symm hnear
  have hy0 : Scalar.isPositive y = true :=
    isPositive_iff.mpr ⟨hfin, heq ▸ (isPositive_iff.mp hx).2⟩
  rw [(toFloat?_ofFloat_eq hx).1, hexponent, hy, eq_of_toRat hy0 hx heq]

/-- A number above zero that has moved by a few units in the last place. -/
structure CloseTo (y x : Float) : Prop where
  isPositive : Scalar.isPositive y = true
  near : |toRat y - toRat x| ≤ toRat x * 2 ^ (-48 : ℤ) + 2 ^ (-1074 : ℤ)

instance (y x : Float) : Decidable (CloseTo y x) :=
  decidable_of_iff (Scalar.isPositive y = true ∧
      |toRat y - toRat x| ≤ toRat x * 2 ^ (-48 : ℤ) + 2 ^ (-1074 : ℤ))
    ⟨fun h => ⟨h.1, h.2⟩, fun h => ⟨h.isPositive, h.near⟩⟩

/-- The bits of the least number and of the largest ones, for which the bounds on roundings leave no
room. -/
def edge : List ℕ :=
  [1, 0x7FEFFFFFFFFFFFFD, 0x7FEFFFFFFFFFFFFE, 0x7FEFFFFFFFFFFFFF]

theorem closeTo_of_edge {b : ℕ} (hb : b ∈ edge) :
    ∃ y, (ofFloat (Float.ofBits b.toUInt64)).toFloat? = some y ∧
      CloseTo y (Float.ofBits b.toUInt64) := by
  have hall : ∀ b ∈ edge, ((ofFloat (Float.ofBits b.toUInt64)).toFloat?.any fun y =>
      decide (CloseTo y (Float.ofBits b.toUInt64))) = true := by
    decide +kernel
  obtain ⟨y, hy, hclose⟩ := (Option.any_eq_true _ _).mp (hall b hb)
  exact ⟨y, hy, of_decide_eq_true hclose⟩

theorem le_kept_largest {m : ℕ} {k : ℤ} (hm : m < 2 ^ 53) (hk : k ≤ 971)
    (h : m + 4 ≤ 2 ^ 53 ∨ k ≤ 970) : ((m : ℚ) + 1 / 2) * 2 ^ k ≤ kept ^ 2 * largest := by
  have hm' : (m : ℚ) + 1 ≤ 2 ^ 53 := by exact_mod_cast hm
  have hlarge : kept ^ 2 * largest = kept ^ 2 * (2 ^ 53 - 1) * 2 ^ (971 : ℤ) := by
    rw [largest]
    ring
  have hkept : (2 : ℚ) ^ 53 - 3 ≤ kept ^ 2 * (2 ^ 53 - 1) := by
    unfold kept
    norm_num
  rw [hlarge]
  rcases h with hfew | hless
  · have hfew' : (m : ℚ) + 4 ≤ 2 ^ 53 := by exact_mod_cast hfew
    calc ((m : ℚ) + 1 / 2) * 2 ^ k ≤ (2 ^ 53 - 3) * 2 ^ (971 : ℤ) := by
          gcongr
          · linarith
          · norm_num
      _ ≤ kept ^ 2 * (2 ^ 53 - 1) * 2 ^ (971 : ℤ) := by gcongr
  · calc ((m : ℚ) + 1 / 2) * 2 ^ k ≤ 2 ^ 53 * 2 ^ (970 : ℤ) := by
          gcongr
          · linarith
          · norm_num
      _ = 2 ^ 52 * 2 ^ (971 : ℤ) := by
        rw [show (971 : ℤ) = 970 + 1 by norm_num, zpow_add_one₀ (by norm_num)]
        ring
      _ ≤ kept ^ 2 * (2 ^ 53 - 1) * 2 ^ (971 : ℤ) := by
        gcongr
        linarith

theorem edge_or_inside (hx : Scalar.isPositive x = true) :
    (∃ b ∈ edge, x = Float.ofBits b.toUInt64) ∨ 2 ≤ (Dyadic.ofFloat x).mantissa ∧
      (((Dyadic.ofFloat x).mantissa : ℚ) + 1 / 2) * 2 ^ (Dyadic.ofFloat x).exponent ≤
        kept ^ 2 * largest := by
  obtain ⟨hm, hlast, hrat⟩ := bounds_of_isPositive hx
  obtain ⟨hm53, hleast, hfull⟩ := full_of_isPositive hx
  generalize (Dyadic.ofFloat x).mantissa = m at *
  generalize (Dyadic.ofFloat x).exponent = k at *
  have hedge {b : ℕ} (hb : b ∈ edge) (h : toRat (Float.ofBits b.toUInt64) = m * 2 ^ k) :
      ∃ b ∈ edge, x = Float.ofBits b.toUInt64 := by
    have hall : ∀ b ∈ edge, Scalar.isPositive (Float.ofBits b.toUInt64) = true := by decide +kernel
    exact ⟨b, hb, eq_of_toRat hx (hall b hb) (hrat.trans h.symm)⟩
  rcases Nat.lt_or_ge m 2 with hone | htwo
  · left
    obtain rfl : m = 1 := by omega
    obtain rfl : k = -1074 := by omega
    exact hedge (b := 1) (by decide) (by decide +kernel)
  · by_cases htop : m + 4 ≤ 2 ^ 53 ∨ k ≤ 970
    · exact Or.inr ⟨htwo, le_kept_largest hm53 hlast htop⟩
    · left
      obtain rfl : k = 971 := by omega
      obtain rfl | rfl | rfl : m = 2 ^ 53 - 3 ∨ m = 2 ^ 53 - 2 ∨ m = 2 ^ 53 - 1 := by omega
      · exact hedge (b := 0x7FEFFFFFFFFFFFFD) (by decide) (by decide +kernel)
      · exact hedge (b := 0x7FEFFFFFFFFFFFFE) (by decide) (by decide +kernel)
      · exact hedge (b := 0x7FEFFFFFFFFFFFFF) (by decide) (by decide +kernel)

/-- The decimal of a number is off by half a unit at most. -/
theorem abs_sub_le_of_inside {r : ℚ} (hx : Scalar.isPositive x = true)
    (h : Inside (Dyadic.ofFloat x) r) :
    |r - toRat x| ≤ toRat x * 2 ^ (-53 : ℤ) + 2 ^ (-1075 : ℤ) := by
  obtain ⟨hm, -, hrat⟩ := bounds_of_isPositive hx
  obtain ⟨-, -, hfull⟩ := full_of_isPositive hx
  have hlow := h.half_le
  have hhigh := h.high
  rw [hrat]
  generalize (Dyadic.ofFloat x).mantissa = m at *
  generalize (Dyadic.ofFloat x).exponent = k at *
  have hrel : (0 : ℚ) ≤ m * 2 ^ k * 2 ^ (-53 : ℤ) := by positivity
  have habs : (0 : ℚ) ≤ 2 ^ (-1075 : ℤ) := by positivity
  have hunit : 1 / 2 * (2 : ℚ) ^ k ≤ m * 2 ^ k * 2 ^ (-53 : ℤ) + 2 ^ (-1075 : ℤ) := by
    rcases hfull with hfull | rfl
    · have hfull' : (2 : ℚ) ^ 52 ≤ m := by exact_mod_cast hfull
      have hhalf : (1 : ℚ) / 2 = 2 ^ 52 * 2 ^ (-53 : ℤ) := by norm_num
      calc 1 / 2 * (2 : ℚ) ^ k = 2 ^ 52 * 2 ^ k * 2 ^ (-53 : ℤ) := by
            rw [hhalf]
            ring
        _ ≤ m * 2 ^ k * 2 ^ (-53 : ℤ) := by gcongr
        _ ≤ m * 2 ^ k * 2 ^ (-53 : ℤ) + 2 ^ (-1075 : ℤ) := le_add_of_nonneg_right habs
    · have hhalf : 1 / 2 * (2 : ℚ) ^ (-1074 : ℤ) = 2 ^ (-1075 : ℤ) := by
        rw [show (-1074 : ℤ) = -1075 + 1 by norm_num, zpow_add_one₀ (by norm_num)]
        ring
      rw [hhalf]
      exact le_add_of_nonneg_left hrel
  refine le_trans (abs_le.mpr ⟨?_, ?_⟩) hunit
  · linarith
  · linarith

theorem abs_sub_le_of_errors {a y q r u c : ℚ} (ha : 0 ≤ a) (hu : 0 ≤ u) (hqr : q ≤ 2 * r)
    (hra : r ≤ 2 * a) (hlast : |y - q| ≤ q * u + c) (hscale : |q - r| ≤ r * (9 * u))
    (hdecimal : |r - a| ≤ a * u + c) : |y - a| ≤ a * (32 * u) + 2 * c := by
  have hq : q * u ≤ 4 * a * u := mul_le_mul_of_nonneg_right (by linarith) hu
  have hr : r * u ≤ 2 * a * u := mul_le_mul_of_nonneg_right hra hu
  have hau : 0 ≤ a * u := mul_nonneg ha hu
  calc |y - a| ≤ |y - r| + |r - a| := abs_sub_le _ _ _
    _ ≤ |y - q| + |q - r| + |r - a| := by gcongr; exact abs_sub_le _ _ _
    _ ≤ a * (32 * u) + 2 * c := by linarith

theorem closeTo_of_scaled {y : Float} {q r : ℚ} (hx : Scalar.isPositive x = true)
    (hm : 2 ≤ (Dyadic.ofFloat x).mantissa) (hinside : Inside (Dyadic.ofFloat x) r)
    (hy : y.isFinite = true) (hnear : Nearest q (toRat y)) (hdrift : Drift 8 q r) :
    CloseTo y x := by
  have hdecimal := abs_sub_le_of_inside hx hinside
  obtain ⟨-, -, hrat⟩ := bounds_of_isPositive hx
  obtain ⟨-, hleast, -⟩ := full_of_isPositive hx
  have hlow := hinside.half_le
  have hhigh := hinside.high
  have hm' : (2 : ℚ) ≤ (Dyadic.ofFloat x).mantissa := by exact_mod_cast hm
  have hunit : (2 : ℚ) ^ (-1074 : ℤ) ≤ 2 ^ (Dyadic.ofFloat x).exponent :=
    zpow_le_zpow_right₀ (by norm_num) hleast
  have hr : 3 / 2 * 2 ^ (-1074 : ℤ) ≤ r :=
    (mul_le_mul (by linarith) hunit (by positivity) (by linarith)).trans hlow
  have hra : r ≤ 2 * toRat x := by
    rw [hrat, ← mul_assoc]
    refine hhigh.trans ?_
    gcongr
    linarith
  have hr0 : 0 < r := lt_of_lt_of_le (by positivity) hr
  have hq : 1 / 2 * r ≤ q :=
    (mul_le_mul_of_nonneg_right (Drift.half_le_kept le_rfl) hr0.le).trans hdrift.low
  have hq0 : 0 ≤ q := le_trans (by positivity) hq
  have hhalf : (2 : ℚ) ^ (-1074 : ℤ) = 2 * 2 ^ (-1075 : ℤ) := by
    rw [← zpow_one_add₀ (by norm_num)]
    norm_num
  have hpos : (2 : ℚ) ^ (-1075 : ℤ) < q := by
    have habs : (0 : ℚ) < 2 ^ (-1075 : ℤ) := by positivity
    rw [hhalf] at hr
    linarith
  refine ⟨isPositive_iff.mpr ⟨hy, hnear.pos hpos⟩, ?_⟩
  have hrel : (2 : ℚ) ^ (-48 : ℤ) = 32 * 2 ^ (-53 : ℤ) := by norm_num
  rw [hhalf, hrel]
  exact abs_sub_le_of_errors (by linarith) (by positivity) (hdrift.le_two_mul le_rfl hq0) hra
    (hnear.abs_sub_le_add hq0) (hdrift.abs_sub_le hr0.le hq0) hdecimal

/-- Every number above zero comes back, close to what it was. -/
theorem exists_closeTo (hx : Scalar.isPositive x = true) :
    ∃ y, (ofFloat x).toFloat? = some y ∧ CloseTo y x := by
  rcases edge_or_inside hx with ⟨b, hb, rfl⟩ | ⟨hm, hmax⟩
  · exact closeTo_of_edge hb
  · obtain ⟨hread, hn, hp, hinside⟩ := toFloat?_ofFloat_eq hx
    have hpos := hinside.pos (by omega)
    have h0 : 0 < (ofFloat x).mantissa := by
      rcases Nat.eq_zero_or_pos (ofFloat x).mantissa with hzero | h0
      · rw [hzero, Nat.cast_zero, zero_mul] at hpos
        exact absurd hpos (lt_irrefl 0)
      · exact h0
    obtain ⟨y, q, hy, hscaled⟩ := exists_scaled h0 hn hp (hinside.high.trans hmax)
    refine ⟨y, hread.trans hy, ?_⟩
    exact closeTo_of_scaled hx hm hinside hscaled.isFinite hscaled.nearest hscaled.drift

end Gantry.Json.Literal
