import Mathlib
import Gantry.Number.Binary32
import Gantry.Proofs.Number.Bits

/-!
# Narrowing to binary32

A positive number of binary64 is narrowed to a positive number of binary32 unless it is at most
half of the smallest one, where it becomes zero, or at least half a unit in the last place beyond
the largest one, where it becomes infinite. What comes out of a narrowing is not changed by
widening it and narrowing it again.

This does NOT say how near the outcome is.
-/

namespace Gantry.Number

/-- A whole number is reached from half a unit below it on; from there exactly, if it is even. -/
theorem le_roundEven_iff {num den k : ℕ} (hden : 0 < den) : k ≤ roundEven num den ↔
    2 * k * den < 2 * num + den ∨ 2 * k * den = 2 * num + den ∧ k % 2 = 0 := by
  have hnum := Nat.div_add_mod num den
  have hrem := Nat.mod_lt num hden
  unfold roundEven
  dsimp only
  generalize num / den = q at *
  generalize num % den = r at *
  subst hnum
  rcases lt_trichotomy k (q + 1) with hk | rfl | hk
  · -- The quotient without its remainder reaches as far.
    have hreach : 2 * k * den ≤ 2 * (den * q) := by nlinarith [Nat.lt_succ_iff.mp hk]
    split_ifs <;> omega
  · have hsplit : 2 * (q + 1) * den = 2 * (den * q) + 2 * den := by ring
    rw [hsplit]
    split_ifs <;> omega
  · have hreach : 2 * (den * q) + 4 * den ≤ 2 * k * den := by nlinarith
    split_ifs <;> omega

def Dyadic.magnitude (d : Dyadic) : ℚ :=
  d.mantissa * 2 ^ d.exponent

variable {d : Dyadic} {k : ℕ}

def Dyadic.order (d : Dyadic) : ℤ :=
  Nat.log2 d.mantissa + d.exponent

theorem Dyadic.two_zpow_order_le (h : 0 < d.mantissa) : 2 ^ d.order ≤ d.magnitude := by
  have hlog : (2 : ℚ) ^ (Nat.log2 d.mantissa : ℤ) ≤ d.mantissa := by
    exact_mod_cast Nat.log2_self_le h.ne'
  unfold order magnitude
  rw [zpow_add₀ (by norm_num)]
  gcongr

theorem Dyadic.lt_two_zpow_order (d : Dyadic) : d.magnitude < 2 ^ (d.order + 1) := by
  have hlog : (d.mantissa : ℚ) < 2 ^ (Nat.log2 d.mantissa + 1 : ℤ) := by
    exact_mod_cast Nat.lt_log2_self (n := d.mantissa)
  unfold order magnitude
  rw [add_right_comm, zpow_add₀ (by norm_num)]
  gcongr

theorem place_roundPlaces (d : Dyadic) : (roundPlaces d).2 = max (d.order - 23) (-149) := rfl

/-- The units of the last place are those nearest to the magnitude. -/
theorem le_roundPlaces_iff : k ≤ (roundPlaces d).1 ↔
    (k - 1 / 2) * 2 ^ (roundPlaces d).2 < d.magnitude ∨
      (k - 1 / 2) * 2 ^ (roundPlaces d).2 = d.magnitude ∧ k % 2 = 0 := by
  have hcount : (roundPlaces d).1 = roundEven (d.mantissa * twoTo (-((roundPlaces d).2 -
      d.exponent)).toNat) (twoTo ((roundPlaces d).2 - d.exponent).toNat) := rfl
  generalize (roundPlaces d).2 = place at *
  rw [hcount, le_roundEven_iff (twoTo_pos _)]
  generalize hup : (-(place - d.exponent)).toNat = up
  generalize hdown : (place - d.exponent).toNat = down
  have hscale : (2 : ℚ) ^ place = 2 ^ d.exponent * 2 ^ down / 2 ^ up := by
    rw [eq_div_iff (by positivity), ← zpow_natCast, ← zpow_natCast, ← zpow_add₀ (by norm_num),
      ← zpow_add₀ (by norm_num)]
    congr 1
    omega
  have hcast : ((twoTo down : ℕ) : ℚ) = 2 ^ down ∧ ((twoTo up : ℕ) : ℚ) = 2 ^ up := by
    constructor <;> exact_mod_cast rfl
  have hpos : (0 : ℚ) < 2 ^ d.exponent / 2 ^ up / 2 := by positivity
  have hleft : ((k : ℚ) - 1 / 2) * 2 ^ place =
      (((2 * k * twoTo down : ℕ) : ℚ) - twoTo down) * (2 ^ d.exponent / 2 ^ up / 2) := by
    rw [hscale]
    push_cast
    rw [hcast.1]
    ring
  have hright : d.magnitude = ((2 * (d.mantissa * twoTo up) : ℕ) : ℚ) *
      (2 ^ d.exponent / 2 ^ up / 2) := by
    have hne : (2 : ℚ) ^ up ≠ 0 := by positivity
    unfold Dyadic.magnitude
    push_cast
    rw [hcast.2]
    field_simp
  rw [hleft, hright, mul_lt_mul_iff_left₀ hpos, mul_left_inj' hpos.ne', sub_lt_iff_lt_add,
    sub_eq_iff_eq_add]
  norm_cast

theorem magnitude_lt_place (d : Dyadic) : d.magnitude < 2 ^ 24 * 2 ^ (roundPlaces d).2 := by
  have hplace := place_roundPlaces d
  calc d.magnitude < 2 ^ (d.order + 1) := d.lt_two_zpow_order
    _ ≤ 2 ^ (24 + (roundPlaces d).2) := zpow_le_zpow_right₀ (by norm_num) (by omega)
    _ = 2 ^ 24 * 2 ^ (roundPlaces d).2 := by rw [zpow_add₀ (by norm_num)]; norm_num

/-- Above the least place there are all 24 digits. -/
theorem place_le_magnitude (h : 0 < d.mantissa) (hplace : (roundPlaces d).2 ≠ -149) :
    2 ^ 23 * 2 ^ (roundPlaces d).2 ≤ d.magnitude := by
  have hmax := place_roundPlaces d
  calc (2 : ℚ) ^ 23 * 2 ^ (roundPlaces d).2 = 2 ^ (23 + (roundPlaces d).2) := by
        rw [zpow_add₀ (by norm_num)]
        norm_num
    _ = 2 ^ d.order := by
        congr 1
        omega
    _ ≤ d.magnitude := Dyadic.two_zpow_order_le h

theorem roundPlaces_le (d : Dyadic) : (roundPlaces d).1 ≤ 2 ^ 24 := by
  have hpos : (0 : ℚ) < 2 ^ (roundPlaces d).2 := by positivity
  have hlt := magnitude_lt_place d
  by_contra hover
  have hreach := le_roundPlaces_iff.mp (not_le.mp hover)
  push_cast at hreach
  rcases hreach with h | ⟨h, -⟩ <;> nlinarith

theorem le_roundPlaces (h : 0 < d.mantissa) (hplace : (roundPlaces d).2 ≠ -149) :
    2 ^ 23 ≤ (roundPlaces d).1 := by
  have hpos : (0 : ℚ) < 2 ^ (roundPlaces d).2 := by positivity
  have hge := place_le_magnitude h hplace
  apply le_roundPlaces_iff.mpr
  left
  push_cast
  nlinarith

theorem narrowMagnitude_eq (h : 0 < d.mantissa) : narrowMagnitude d =
    min 0x7F800000 ((((roundPlaces d).2 + 149) * 2 ^ 23).toNat + (roundPlaces d).1) := by
  unfold narrowMagnitude
  rw [if_neg h.ne']
  rfl

theorem place_ge (d : Dyadic) : -149 ≤ (roundPlaces d).2 := by
  rw [place_roundPlaces]
  exact le_max_right _ _

/-- What becomes zero is at most half of the smallest number of binary32. -/
theorem narrowMagnitude_pos_iff (h : 0 < d.mantissa) :
    0 < narrowMagnitude d ↔ 2 ^ (-150 : ℤ) < d.magnitude := by
  have hge := place_ge d
  rw [narrowMagnitude_eq h]
  by_cases hplace : (roundPlaces d).2 = -149
  · have hhalf : ((1 : ℕ) - 1 / 2 : ℚ) * 2 ^ (-149 : ℤ) = 2 ^ (-150 : ℤ) := by norm_num
    have hcount := le_roundPlaces_iff (d := d) (k := 1)
    rw [hplace, hhalf] at hcount
    rw [hplace]
    constructor
    · intro hpos
      rcases hcount.mp (by omega) with hlt | ⟨-, hodd⟩
      · exact hlt
      · cases hodd
    · intro hlt
      have := hcount.mpr (Or.inl hlt)
      omega
  · have hfull := place_le_magnitude h hplace
    refine ⟨fun _ => lt_of_lt_of_le ?_ hfull, fun _ => by omega⟩
    calc (2 : ℚ) ^ (-150 : ℤ) < 2 ^ 23 * 2 ^ (-149 : ℤ) := by norm_num
      _ ≤ 2 ^ 23 * 2 ^ (roundPlaces d).2 := by
        gcongr
        norm_num

/-- What becomes infinite is at least half a unit beyond the largest number of binary32. -/
theorem narrowMagnitude_lt_iff (h : 0 < d.mantissa) :
    narrowMagnitude d < 0x7F800000 ↔ d.magnitude < 2 ^ 128 - 2 ^ 103 := by
  have hge := place_ge d
  have hcount := roundPlaces_le d
  rw [narrowMagnitude_eq h]
  rcases lt_trichotomy (roundPlaces d).2 104 with hplace | hplace | hplace
  · refine ⟨fun _ => (magnitude_lt_place d).trans_le ?_, fun _ => by omega⟩
    calc (2 : ℚ) ^ 24 * 2 ^ (roundPlaces d).2 ≤ 2 ^ 24 * 2 ^ (103 : ℤ) := by
          gcongr
          · norm_num
          · omega
      _ ≤ 2 ^ 128 - 2 ^ 103 := by norm_num
  · -- The last binade: a count of `2 ^ 24` is carried to the pattern of infinity.
    have htop : ((2 ^ 24 : ℕ) - 1 / 2 : ℚ) * 2 ^ (104 : ℤ) = 2 ^ 128 - 2 ^ 103 := by norm_num
    have hcarry := le_roundPlaces_iff (d := d) (k := 2 ^ 24)
    rw [hplace, htop] at hcarry
    rw [hplace]
    constructor
    · intro hlt
      by_contra hover
      have hreach := hcarry.mpr (by
        rcases (not_lt.mp hover).lt_or_eq with hgt | heq
        · exact Or.inl hgt
        · exact Or.inr ⟨heq, rfl⟩)
      omega
    · intro hlt
      have hno : ¬ 2 ^ 24 ≤ (roundPlaces d).1 := by
        intro hreach
        rcases hcarry.mp hreach with hgt | ⟨heq, -⟩
        · exact lt_asymm hlt hgt
        · exact hlt.ne' heq
      omega
  · have hfull := le_roundPlaces h (by omega)
    have hmag := place_le_magnitude h (by omega)
    refine ⟨fun hlt => by omega, fun hlt => absurd (hmag.trans_lt hlt) (not_lt.mpr ?_)⟩
    calc (2 : ℚ) ^ 128 - 2 ^ 103 ≤ 2 ^ 23 * 2 ^ (105 : ℤ) := by norm_num
      _ ≤ 2 ^ 23 * 2 ^ (roundPlaces d).2 := by
        gcongr
        · norm_num
        · omega

variable {x : Float} {b : UInt32}

def infinityBits32 : ℕ :=
  0x7F800000

theorem toNat_narrow (hx : Scalar.isPositive x = true) :
    (narrow x).toNat = narrowMagnitude (Dyadic.ofFloat x) := by
  obtain ⟨h0, hlt⟩ := isPositive_iff_toBits.mp hx
  have hfin := (toRat_of_toBits h0 hlt).1
  have hnan := isNaN_of_isFinite hfin
  have hinf := isInf_of_isFinite hfin
  have hsign : ¬ twoTo 63 ≤ x.toBits.toNat := by
    have : twoTo 63 = 2 ^ 63 := rfl
    unfold infinityBits at hlt
    omega
  have hle : narrowMagnitude (Dyadic.ofFloat x) ≤ 0x7F800000 := by
    rw [narrowMagnitude_eq (toRat_of_toBits h0 hlt).2.1]
    exact min_le_left _ _
  unfold narrow
  simp only [hnan, hinf, hsign, decide_false, Bool.false_eq_true, if_false, zero_add]
  rw [Nat.toUInt32_eq, UInt32.toNat_ofNat']
  omega

theorem roundPlaces_of_mul {q s : ℕ} (hm : d.mantissa = q * 2 ^ s)
    (hplace : (roundPlaces d).2 = d.exponent + s) : (roundPlaces d).1 = q := by
  have hcount : (roundPlaces d).1 = roundEven (d.mantissa * twoTo (-((roundPlaces d).2 -
      d.exponent)).toNat) (twoTo ((roundPlaces d).2 - d.exponent).toNat) := rfl
  have hup : (-(d.exponent + s - d.exponent)).toNat = 0 := by omega
  have hdown : (d.exponent + s - d.exponent).toNat = s := by omega
  rw [hcount, hplace, hup, hdown, hm, twoTo_zero, mul_one]
  exact roundEven_mul q (2 ^ s) (by positivity)

theorem order_of_full {d : Dyadic} (hlo : 2 ^ 52 ≤ d.mantissa) (hhi : d.mantissa < 2 ^ 53) :
    d.order = 52 + d.exponent := by
  have hlog : Nat.log2 d.mantissa = 52 := (Nat.log2_eq_iff (by omega)).mpr ⟨hlo, hhi⟩
  rw [Dyadic.order, hlog]
  rfl

theorem toBits_widen_normal (hfield : b.toNat / 2 ^ 23 ≠ 0) (hb : b.toNat < infinityBits32) :
    (widen b).toBits.toNat = (b.toNat / 2 ^ 23 + 896) * 2 ^ 52 + b.toNat % 2 ^ 23 * 2 ^ 29 := by
  have hpow : twoTo 31 = 2 ^ 31 ∧ twoTo 23 = 2 ^ 23 ∧ twoTo 8 = 2 ^ 8 ∧ twoTo 52 = 2 ^ 52 ∧
      twoTo 29 = 2 ^ 29 := ⟨rfl, rfl, rfl, rfl, rfl⟩
  unfold infinityBits32 at hb
  have hmod : b.toNat / 2 ^ 23 % 2 ^ 8 = b.toNat / 2 ^ 23 := by omega
  unfold widen
  simp only [hpow]
  rw [if_neg (by omega), hmod, if_neg (by omega), if_neg hfield, zero_add]
  apply toBits_ofBits
  unfold infinityBits
  omega

theorem shift_bounds {f : ℕ} (h0 : 0 < f) (hf : f < 2 ^ 23) : Nat.log2 f ≤ 22 ∧
    2 ^ 52 ≤ f * 2 ^ (52 - Nat.log2 f) ∧ f * 2 ^ (52 - Nat.log2 f) < 2 ^ 53 := by
  have hlog : Nat.log2 f < 23 := (Nat.log2_lt h0.ne').mpr hf
  have hlow := Nat.log2_self_le h0.ne'
  have hhigh := Nat.lt_log2_self (n := f)
  have hfull : 2 ^ 52 = 2 ^ Nat.log2 f * 2 ^ (52 - Nat.log2 f) := by
    rw [← pow_add]
    congr 1
    omega
  have hover : 2 ^ 53 = 2 ^ (Nat.log2 f + 1) * 2 ^ (52 - Nat.log2 f) := by
    rw [← pow_add]
    congr 1
    omega
  refine ⟨by omega, ?_, ?_⟩
  · rw [hfull]
    exact Nat.mul_le_mul_right _ hlow
  · rw [hover]
    exact Nat.mul_lt_mul_of_pos_right hhigh (by positivity)

theorem toBits_widen_subnormal (h0 : 0 < b.toNat) (hb : b.toNat < 2 ^ 23) :
    (widen b).toBits.toNat = (Nat.log2 b.toNat + 874) * 2 ^ 52 +
      (b.toNat * 2 ^ (52 - Nat.log2 b.toNat) - 2 ^ 52) := by
  have hpow : twoTo 31 = 2 ^ 31 ∧ twoTo 23 = 2 ^ 23 ∧ twoTo 8 = 2 ^ 8 ∧ twoTo 52 = 2 ^ 52 :=
    ⟨rfl, rfl, rfl, rfl⟩
  have hshift : twoTo (52 - Nat.log2 b.toNat) = 2 ^ (52 - Nat.log2 b.toNat) := rfl
  obtain ⟨hlog, hlow, hhigh⟩ := shift_bounds h0 hb
  have hfield : b.toNat / 2 ^ 23 % 2 ^ 8 = 0 := by omega
  have hfraction : b.toNat % 2 ^ 23 = b.toNat := Nat.mod_eq_of_lt hb
  unfold widen
  simp only [hpow]
  rw [if_neg (by omega), hfield, hfraction, if_neg (by omega), if_pos rfl, if_neg (by omega),
    zero_add, hshift]
  apply toBits_ofBits
  unfold infinityBits
  omega

theorem isPositive_widen (h0 : 0 < b.toNat) (hb : b.toNat < infinityBits32) :
    Scalar.isPositive (widen b) = true := by
  have hlt := hb
  unfold infinityBits32 at hlt
  apply isPositive_iff_toBits.mpr
  unfold infinityBits
  by_cases hfield : b.toNat / 2 ^ 23 = 0
  · obtain ⟨hlog, hlow, hhigh⟩ := shift_bounds h0 (by omega)
    rw [toBits_widen_subnormal h0 (by omega)]
    omega
  · rw [toBits_widen_normal hfield hb]
    omega

theorem le_toBits_widen (hb : infinityBits32 ≤ b.toNat) :
    infinityBits ≤ (widen b).toBits.toNat := by
  have hpow : twoTo 31 = 2 ^ 31 ∧ twoTo 23 = 2 ^ 23 ∧ twoTo 8 = 2 ^ 8 ∧ twoTo 52 = 2 ^ 52 ∧
      twoTo 29 = 2 ^ 29 ∧ twoTo 63 = 2 ^ 63 := ⟨rfl, rfl, rfl, rfl, rfl, rfl⟩
  have hlt := b.toNat_lt
  have hfraction : b.toNat % 2 ^ 23 < 2 ^ 23 := Nat.mod_lt _ (by norm_num)
  have hshift (h0 : b.toNat % 2 ^ 23 ≠ 0) : Nat.log2 (b.toNat % 2 ^ 23) ≤ 22 ∧
      b.toNat % 2 ^ 23 * twoTo (52 - Nat.log2 (b.toNat % 2 ^ 23)) < 2 ^ 53 := by
    obtain ⟨hlog, -, hhigh⟩ := shift_bounds (Nat.pos_of_ne_zero h0) hfraction
    exact ⟨hlog, hhigh⟩
  unfold infinityBits32 at hb
  unfold widen
  simp only [hpow]
  apply le_toBits_ofBits
  · unfold infinityBits
    split_ifs <;> omega
  · clear hb
    split_ifs with hsign hlast hzero hnone hlast hzero hnone
    · omega
    · omega
    · obtain ⟨hlog, hhigh⟩ := hshift hnone
      omega
    · omega
    · omega
    · omega
    · obtain ⟨hlog, hhigh⟩ := hshift hnone
      omega
    · omega

theorem isPositive_widen_iff :
    Scalar.isPositive (widen b) = true ↔ 0 < b.toNat ∧ b.toNat < infinityBits32 := by
  refine ⟨fun hpositive => ⟨?_, ?_⟩, fun h => isPositive_widen h.1 h.2⟩
  · by_contra hzero
    have hb : b = 0 := UInt32.toNat_inj.mp (Nat.le_zero.mp (not_lt.mp hzero))
    rw [hb] at hpositive
    exact absurd hpositive (by decide +kernel)
  · by_contra hover
    have hbits := le_toBits_widen (not_lt.mp hover)
    have hlt := (isPositive_iff_toBits.mp hpositive).2
    omega

theorem narrow_widen (h0 : 0 < b.toNat) (hb : b.toNat < infinityBits32) :
    narrow (widen b) = b := by
  have hlt := hb
  unfold infinityBits32 at hlt
  apply UInt32.toNat_inj.mp
  rw [toNat_narrow (isPositive_widen h0 hb)]
  by_cases hfield : b.toNat / 2 ^ 23 = 0
  · obtain ⟨hlog, hlow, hhigh⟩ := shift_bounds h0 (by omega)
    obtain ⟨hm, he⟩ := ofFloat_of_fields (by omega) (by omega)
      (toBits_widen_subnormal h0 (by omega))
    rw [if_neg (by omega), Nat.add_sub_cancel' hlow] at hm
    rw [if_neg (by omega)] at he
    have hplace : (roundPlaces (Dyadic.ofFloat (widen b))).2 = -149 := by
      rw [place_roundPlaces, order_of_full (by omega) (by omega)]
      omega
    have hcount := roundPlaces_of_mul hm (by omega)
    rw [narrowMagnitude_eq (by omega), hplace, hcount]
    omega
  · obtain ⟨hm, he⟩ := ofFloat_of_fields (by omega) (by omega) (toBits_widen_normal hfield hb)
    rw [if_neg (by omega)] at hm he
    have hplace : (roundPlaces (Dyadic.ofFloat (widen b))).2 = b.toNat / 2 ^ 23 - 150 := by
      rw [place_roundPlaces, order_of_full (by omega) (by omega)]
      omega
    have hcount := roundPlaces_of_mul (d := Dyadic.ofFloat (widen b))
      (q := 2 ^ 23 + b.toNat % 2 ^ 23) (s := 29) (by omega) (by omega)
    rw [narrowMagnitude_eq (by omega), hplace, hcount]
    omega

/-- The number of a positive pattern of binary32; below `2 ^ 23` the leading digit is no one. -/
def binary32Value (b : UInt32) : ℚ :=
  if b.toNat < 2 ^ 23 then b.toNat * 2 ^ (-149 : ℤ)
  else (2 ^ 23 + (b.toNat % 2 ^ 23 : ℕ)) * 2 ^ ((b.toNat / 2 ^ 23 : ℕ) - 150 : ℤ)

theorem two_pow_mul_zpow {k : ℕ} {e place : ℤ} (h : k + e = place) :
    (2 : ℚ) ^ k * 2 ^ e = 2 ^ place := by
  rw [← zpow_natCast, ← zpow_add₀ (by norm_num), h]

theorem toRat_widen (h0 : 0 < b.toNat) (hb : b.toNat < infinityBits32) :
    toRat (widen b) = binary32Value b := by
  obtain ⟨hbits, hlt⟩ := isPositive_iff_toBits.mp (isPositive_widen h0 hb)
  obtain ⟨-, -, hvalue⟩ := toRat_of_toBits hbits hlt
  have hsize := hb
  unfold infinityBits32 at hsize
  rw [hvalue]
  unfold binary32Value
  by_cases hsmall : b.toNat < 2 ^ 23
  · obtain ⟨hlog, hlow, hhigh⟩ := shift_bounds h0 hsmall
    obtain ⟨hm, he⟩ := ofFloat_of_fields (by omega) (by omega)
      (toBits_widen_subnormal h0 hsmall)
    rw [if_neg (by omega), Nat.add_sub_cancel' hlow] at hm
    rw [if_neg (by omega)] at he
    rw [if_pos hsmall, hm, he, Nat.cast_mul, Nat.cast_pow, mul_assoc]
    exact congrArg _ (two_pow_mul_zpow (by omega))
  · obtain ⟨hm, he⟩ := ofFloat_of_fields (by omega) (by omega)
      (toBits_widen_normal (by omega) hb)
    rw [if_neg (by omega)] at hm he
    have hfull : 2 ^ 52 + b.toNat % 2 ^ 23 * 2 ^ 29 =
        (2 ^ 23 + b.toNat % 2 ^ 23) * 2 ^ 29 := by omega
    rw [if_neg hsmall, hm, he, hfull, Nat.cast_mul, Nat.cast_pow, mul_assoc, Nat.cast_add,
      Nat.cast_pow]
    exact congrArg _ (two_pow_mul_zpow (by omega))

/-- A positive number that narrowing takes neither to zero nor to infinity. -/
def FitsBinary32 (x : Float) : Prop :=
  2 ^ (-150 : ℤ) < toRat x ∧ toRat x < 2 ^ 128 - 2 ^ 103

theorem fitsBinary32_iff (hx : Scalar.isPositive x = true) :
    FitsBinary32 x ↔ 0 < (narrow x).toNat ∧ (narrow x).toNat < infinityBits32 := by
  obtain ⟨h0, hlt⟩ := isPositive_iff_toBits.mp hx
  obtain ⟨-, hm, hvalue⟩ := toRat_of_toBits h0 hlt
  have hmagnitude : toRat x = (Dyadic.ofFloat x).magnitude := hvalue
  unfold FitsBinary32 infinityBits32
  rw [toNat_narrow hx, narrowMagnitude_pos_iff hm, narrowMagnitude_lt_iff hm, hmagnitude]

/-- What does not fit is no longer positive and finite once it is read back. -/
theorem isPositive_widen_narrow_iff (hx : Scalar.isPositive x = true) :
    Scalar.isPositive (widen (narrow x)) = true ↔ FitsBinary32 x := by
  rw [fitsBinary32_iff hx]
  constructor
  · intro h
    have hle : (narrow x).toNat ≤ infinityBits32 := by
      obtain ⟨h0, hlt⟩ := isPositive_iff_toBits.mp hx
      rw [toNat_narrow hx, narrowMagnitude_eq (toRat_of_toBits h0 hlt).2.1]
      exact min_le_left _ _
    have hzero : (narrow x).toNat ≠ 0 := by
      intro h0
      have hb : narrow x = 0 := UInt32.toNat_inj.mp h0
      rw [hb] at h
      exact absurd h (by decide +kernel)
    have hinf : (narrow x).toNat ≠ infinityBits32 := by
      intro htop
      have hb : narrow x = 0x7F800000 := UInt32.toNat_inj.mp htop
      rw [hb] at h
      exact absurd h (by decide +kernel)
    omega
  · rintro ⟨h0, hlt⟩
    exact isPositive_widen h0 hlt

theorem narrow_widen_narrow (hx : Scalar.isPositive x = true) (hfits : FitsBinary32 x) :
    narrow (widen (narrow x)) = narrow x := by
  obtain ⟨h0, hlt⟩ := (fitsBinary32_iff hx).mp hfits
  exact narrow_widen h0 hlt

end Gantry.Number
