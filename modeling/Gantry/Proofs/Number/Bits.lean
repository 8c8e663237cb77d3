import Mathlib
import Gantry.Proofs.Number.Special

/-!
# The bits of a binary64 number

The fields of the bits of a positive number give its mantissa and its exponent, and every pattern
below that of infinity is kept as it is. With the first bit set it is that of the negative.
-/

namespace Gantry.Number

open Float.Model Float.Model.UnpackedFloat

def infinityBits : ℕ :=
  0x7FF0000000000000

variable {x y : Float} {n : ℕ} {s : Sign} {E : BitVec 11} {M : BitVec 52}

theorem eq_of_toBits (h : x.toBits.toNat = y.toBits.toNat) : x = y := by
  obtain ⟨⟨a, ha⟩⟩ := x
  obtain ⟨⟨b, hb⟩⟩ := y
  have hab : a = b := UInt64.toNat_inj.mp h
  subst hab
  rfl

theorem toNat_packComponents (s : Sign) (E : BitVec 11) (M : BitVec 52) :
    (packComponents Format.binary64 s E M).toNat =
      s.toBitVec.toNat * 2 ^ 63 + E.toNat * 2 ^ 52 + M.toNat := by
  unfold packComponents
  rw [BitVec.toNat_append, BitVec.toNat_append, ← Nat.shiftLeft_add_eq_or_of_lt M.isLt,
    ← Nat.shiftLeft_add_eq_or_of_lt E.isLt, Nat.shiftLeft_eq, Nat.shiftLeft_eq]
  ring

theorem exists_components (b : BitVec Format.binary64.numBits) :
    ∃ (s : Sign) (E : BitVec 11) (M : BitVec 52), b = packComponents Format.binary64 s E M :=
  ⟨_, _, _, (packComponents_unpackSign_unpackExponent_unpackMantissa b).symm⟩

theorem components_of_lt {b : BitVec Format.binary64.numBits} (h : b.toNat < infinityBits) :
    ∃ (E : BitVec 11) (M : BitVec 52), E ≠ -1#11 ∧
      b = packComponents Format.binary64 .positive E M := by
  obtain ⟨s, E, M, rfl⟩ := exists_components b
  have hones : (-1#11 : BitVec 11).toNat = 2047 := by decide
  rw [toNat_packComponents] at h
  unfold infinityBits at h
  cases s with
  | negative =>
    have hneg : Sign.negative.toBitVec.toNat = 1 := rfl
    omega
  | positive =>
    refine ⟨E, M, ?_, rfl⟩
    rintro rfl
    omega

theorem pack_unpack_components (s : Sign) {E : BitVec 11} (M : BitVec 52) (hE : E ≠ -1#11) :
    UnpackedFloat.pack Format.binary64
        (UnpackedFloat.unpack Format.binary64 (packComponents Format.binary64 s E M)) =
      packComponents Format.binary64 s E M := by
  have hM := M.isLt
  by_cases hzero : E = 0#11
  · subst hzero
    by_cases hM0 : M = 0#52
    · subst hM0
      have hunpack : UnpackedFloat.unpack Format.binary64
          (packComponents Format.binary64 s 0#11 0#52) = .zero s := unpack_packedZero
      rw [hunpack]
      rfl
    · obtain ⟨hm, hsub⟩ := unpack_subnormal s hM0
      have hlog : M.toNat.log2 ≠ 52 := by
        have := (Nat.log2_lt hm.ne').mpr hM
        omega
      rw [hsub, pack_finite s hm (by omega), if_neg hlog, BitVec.ofNat_toNat, BitVec.setWidth_eq]
  · obtain ⟨hm, hnormal⟩ := unpack_normal s M hE hzero
    have hlast : E.toNat ≠ 2047 := by
      intro h
      exact hE (BitVec.eq_of_toNat_eq h)
    have hlt := E.isLt
    have hlog : (2 ^ 52 + M.toNat).log2 = 52 :=
      (Nat.log2_eq_iff hm.ne').mpr ⟨by omega, by omega⟩
    have hexp : ((E.toNat : ℤ) - 1075 + 1075).toNat = E.toNat := by omega
    have hmantissa : BitVec.ofNat 52 (2 ^ 52 + M.toNat) = M := by
      apply BitVec.eq_of_toNat_eq
      rw [BitVec.toNat_ofNat]
      omega
    rw [hnormal, pack_finite s hm (by omega), if_pos hlog, hexp, hmantissa, BitVec.ofNat_toNat,
      BitVec.setWidth_eq]

theorem toBits_ofBits (h : n < infinityBits) : (Float.ofBits n.toUInt64).toBits.toNat = n := by
  have hn : n.toUInt64.toNat = n := by
    rw [Nat.toUInt64_eq, UInt64.toNat_ofNat']
    unfold infinityBits at h
    omega
  obtain ⟨E, M, hE, hb⟩ := components_of_lt (b := n.toUInt64.toBitVec)
    (show n.toUInt64.toNat < infinityBits by rw [hn]; exact h)
  have hpack := pack_unpack_components .positive M hE
  rw [← hb] at hpack
  show (UnpackedFloat.pack Format.binary64
    (UnpackedFloat.unpack Format.binary64 n.toUInt64.toBitVec)).toNat = n
  rw [hpack]
  exact hn

/-- From the pattern of infinity on, no pattern becomes one below it. -/
theorem le_toBits_ofBits (hn : infinityBits ≤ n) (h : n < 2 ^ 64) :
    infinityBits ≤ (Float.ofBits n.toUInt64).toBits.toNat := by
  have htoNat : n.toUInt64.toBitVec.toNat = n := by
    show n.toUInt64.toNat = n
    rw [Nat.toUInt64_eq, UInt64.toNat_ofNat']
    omega
  obtain ⟨s, E, M, hb⟩ := exists_components n.toUInt64.toBitVec
  show infinityBits ≤ (UnpackedFloat.pack Format.binary64
    (UnpackedFloat.unpack Format.binary64 n.toUInt64.toBitVec)).toNat
  rw [hb]
  by_cases hE : E = -1#11
  · subst hE
    have hunpack : UnpackedFloat.unpack Format.binary64
        (packComponents Format.binary64 s (-1#11) M) = .infinity s ∨
        UnpackedFloat.unpack Format.binary64
        (packComponents Format.binary64 s (-1#11) M) = .notANumber := by
      simp only [UnpackedFloat.unpack, unpackExponent_packComponents, if_true]
      split
      · left
        simp
      · right
        rfl
    rcases hunpack with hinf | hnan
    · rw [hinf]
      cases s <;> decide
    · rw [hnan]
      decide
  · rw [pack_unpack_components s M hE, ← hb, htoNat]
    exact hn

theorem ofFloat_of_parts {S E F : ℕ} (hE : E < 2 ^ 11) (hF : F < 2 ^ 52)
    (h : x.toBits.toNat = S * 2 ^ 63 + E * 2 ^ 52 + F) :
    (Dyadic.ofFloat x).mantissa = (if E = 0 then F else 2 ^ 52 + F) ∧
      (Dyadic.ofFloat x).exponent = (if E = 0 then 1 else (E : ℤ)) - 1075 := by
  have hfield : x.toBits.toNat / 2 ^ 52 % 2 ^ 11 = E := by omega
  have hfraction : x.toBits.toNat % 2 ^ 52 = F := by omega
  constructor
  · rw [← hfield, ← hfraction]
    rfl
  · rw [← hfield]
    rfl

theorem ofFloat_of_fields {E F : ℕ} (hE : E < 2 ^ 11) (hF : F < 2 ^ 52)
    (h : x.toBits.toNat = E * 2 ^ 52 + F) :
    (Dyadic.ofFloat x).mantissa = (if E = 0 then F else 2 ^ 52 + F) ∧
      (Dyadic.ofFloat x).exponent = (if E = 0 then 1 else (E : ℤ)) - 1075 :=
  ofFloat_of_parts (S := 0) hE hF (by rw [h, zero_mul, zero_add])

theorem unpack_of_toBits (h0 : 0 < x.toBits.toNat) (h : x.toBits.toNat < infinityBits) :
    ∃ hm, x.toModel.unpack =
      .finite .positive (Dyadic.ofFloat x).mantissa (Dyadic.ofFloat x).exponent hm := by
  obtain ⟨E, M, hE, hb⟩ := components_of_lt (b := x.toModel.toBits.toBitVec) h
  have hunpack : x.toModel.unpack = UnpackedFloat.unpack Format.binary64
      (packComponents Format.binary64 .positive E M) := by
    rw [← hb]
    rfl
  have hbits : x.toBits.toNat = E.toNat * 2 ^ 52 + M.toNat := by
    show x.toModel.toBits.toBitVec.toNat = _
    rw [hb, toNat_packComponents]
    show 0 * 2 ^ 63 + _ + _ = _
    omega
  obtain ⟨hmantissa, hexponent⟩ := ofFloat_of_fields E.isLt M.isLt hbits
  generalize (Dyadic.ofFloat x).mantissa = m at *
  generalize (Dyadic.ofFloat x).exponent = e at *
  rw [hunpack]
  by_cases hzero : E = 0#11
  · subst hzero
    have hM0 : M ≠ 0#52 := by
      rintro rfl
      exact absurd h0 (by rw [hbits]; decide)
    obtain ⟨hm, hsub⟩ := unpack_subnormal .positive hM0
    subst hmantissa hexponent
    exact ⟨hm, hsub⟩
  · have hne : E.toNat ≠ 0 := fun h => hzero (BitVec.eq_of_toNat_eq h)
    obtain ⟨hm, hnormal⟩ := unpack_normal .positive M hE hzero
    rw [if_neg hne] at hmantissa hexponent
    subst hmantissa hexponent
    exact ⟨hm, hnormal⟩

theorem toRat_of_toBits (h0 : 0 < x.toBits.toNat) (h : x.toBits.toNat < infinityBits) :
    x.isFinite = true ∧ 0 < (Dyadic.ofFloat x).mantissa ∧
      toRat x = (Dyadic.ofFloat x).mantissa * 2 ^ (Dyadic.ofFloat x).exponent := by
  obtain ⟨hm, hunpack⟩ := unpack_of_toBits h0 h
  refine ⟨?_, hm, ?_⟩
  · show x.toModel.unpack.isFinite = true
    rw [hunpack]
    rfl
  · rw [toRat, hunpack, value, sign, one_mul]

theorem isFinite_of_toBits (h : x.toBits.toNat < infinityBits) : x.isFinite = true := by
  rcases Nat.eq_zero_or_pos x.toBits.toNat with hzero | hpos
  · rw [eq_of_toBits (y := 0.0) (hzero.trans (by decide +kernel))]
    decide +kernel
  · exact (toRat_of_toBits hpos h).1

theorem positive_of_value
    (hfin : (UnpackedFloat.unpack Format.binary64
      (packComponents Format.binary64 s E M)).isFinite = true)
    (hpos : 0 < value (UnpackedFloat.unpack Format.binary64
      (packComponents Format.binary64 s E M))) : s = .positive ∧ E ≠ -1#11 := by
  have hsign {t : Sign} {m : ℕ} {e : ℤ} (hm : 0 < m) (h : 0 < value (.finite t m e hm)) :
      t = .positive := by
    cases t with
    | positive => rfl
    | negative =>
      have : (0 : ℚ) < m * 2 ^ e := by positivity
      simp only [value, sign] at h
      linarith
  have hlast : E ≠ -1#11 := exponent_ne_of_isFinite hfin
  refine ⟨?_, hlast⟩
  by_cases hzero : E = 0#11
  · subst hzero
    by_cases hM0 : M = 0#52
    · subst hM0
      have hunpack : UnpackedFloat.unpack Format.binary64
          (packComponents Format.binary64 s 0#11 0#52) = .zero s := unpack_packedZero
      rw [hunpack] at hpos
      exact absurd hpos (lt_irrefl 0)
    · obtain ⟨hm, hsub⟩ := unpack_subnormal s hM0
      rw [hsub] at hpos
      exact hsign hm hpos
  · obtain ⟨hm, hnormal⟩ := unpack_normal s M hlast hzero
    rw [hnormal] at hpos
    exact hsign hm hpos

theorem isPositive_iff_toBits : Scalar.isPositive x = true ↔
    0 < x.toBits.toNat ∧ x.toBits.toNat < infinityBits := by
  rw [isPositive_iff]
  constructor
  · rintro ⟨hfin, hpos⟩
    have hfin' : x.toModel.unpack.isFinite = true := hfin
    obtain ⟨s, E, M, hb⟩ := exists_components x.toModel.toBits.toBitVec
    have hunpack : x.toModel.unpack = UnpackedFloat.unpack Format.binary64
        (packComponents Format.binary64 s E M) := by
      rw [← hb]
      rfl
    have hbits : x.toBits.toNat = s.toBitVec.toNat * 2 ^ 63 + E.toNat * 2 ^ 52 + M.toNat := by
      show x.toModel.toBits.toBitVec.toNat = _
      rw [hb, toNat_packComponents]
    rw [toRat] at hpos
    rw [hunpack] at hfin' hpos
    obtain ⟨rfl, hlast⟩ := positive_of_value hfin' hpos
    have hplus : Sign.positive.toBitVec.toNat = 0 := rfl
    have hones : (-1#11 : BitVec 11).toNat = 2047 := by decide
    have hE : E.toNat ≠ 2047 := fun h => hlast (BitVec.eq_of_toNat_eq (h.trans hones.symm))
    have hlt := E.isLt
    have hM := M.isLt
    unfold infinityBits
    refine ⟨?_, by omega⟩
    by_contra h0
    -- Without a bit set the number is zero.
    have hE0 : E = 0#11 := BitVec.eq_of_toNat_eq (show E.toNat = 0 by omega)
    have hM0 : M = 0#52 := BitVec.eq_of_toNat_eq (show M.toNat = 0 by omega)
    have hzero : UnpackedFloat.unpack Format.binary64
        (packComponents Format.binary64 .positive 0#11 0#52) = .zero .positive := unpack_packedZero
    rw [hE0, hM0, hzero] at hpos
    exact absurd hpos (lt_irrefl 0)
  · rintro ⟨h0, h⟩
    obtain ⟨hfin, hm, hvalue⟩ := toRat_of_toBits h0 h
    refine ⟨hfin, ?_⟩
    rw [hvalue]
    positivity

/-- The mantissa of a number above zero has all its digits, or its exponent is the least one. -/
theorem full_of_isPositive (hx : Scalar.isPositive x = true) :
    (Dyadic.ofFloat x).mantissa < 2 ^ 53 ∧ -1074 ≤ (Dyadic.ofFloat x).exponent ∧
      (2 ^ 52 ≤ (Dyadic.ofFloat x).mantissa ∨ (Dyadic.ofFloat x).exponent = -1074) := by
  obtain ⟨h0, hlt⟩ := isPositive_iff_toBits.mp hx
  obtain ⟨hm, hunpack⟩ := unpack_of_toBits h0 hlt
  have hcanon := (canonical_unpack (toRat_of_toBits h0 hlt).1).1
  rw [hunpack] at hcanon
  exact hcanon

theorem pack_unpack_of_lt (h : x.toBits.toNat < infinityBits) :
    UnpackedFloat.pack Format.binary64 x.toModel.unpack = x.toModel.toBits.toBitVec := by
  obtain ⟨E, M, hE, hb⟩ := components_of_lt (b := x.toModel.toBits.toBitVec) h
  have hpack := pack_unpack_components .positive M hE
  rwa [← hb] at hpack

/-- A number above zero is the only one of its value. -/
theorem eq_of_toRat (hx : Scalar.isPositive x = true) (hy : Scalar.isPositive y = true)
    (h : toRat x = toRat y) : x = y := by
  obtain ⟨hx0, hxlt⟩ := isPositive_iff_toBits.mp hx
  obtain ⟨hy0, hylt⟩ := isPositive_iff_toBits.mp hy
  obtain ⟨-, -, hxvalue⟩ := toRat_of_toBits hx0 hxlt
  obtain ⟨-, -, hyvalue⟩ := toRat_of_toBits hy0 hylt
  obtain ⟨hxm, hxunpack⟩ := unpack_of_toBits hx0 hxlt
  obtain ⟨hym, hyunpack⟩ := unpack_of_toBits hy0 hylt
  obtain ⟨hxlow, hxleast, hxfull⟩ := full_of_isPositive hx
  obtain ⟨hylow, hyleast, hyfull⟩ := full_of_isPositive hy
  have hcompare := compare_magnitude hxlow hylow hxleast hyleast hxfull hyfull
  rw [← hxvalue, ← hyvalue, h, compare_eq_iff_eq.mpr rfl] at hcompare
  obtain ⟨hexponent, hmantissa⟩ := Ordering.then_eq_eq.mp hcompare
  have hunpack : x.toModel.unpack = y.toModel.unpack := by
    rw [hxunpack, hyunpack]
    congr 1
    · exact compare_eq_iff_eq.mp hmantissa
    · exact compare_eq_iff_eq.mp hexponent
  have hbits : x.toModel.toBits.toBitVec = y.toModel.toBits.toBitVec := by
    rw [← pack_unpack_of_lt hxlt, ← pack_unpack_of_lt hylt, hunpack]
  exact eq_of_toBits (congrArg BitVec.toNat hbits)

theorem neg_unpack (M : BitVec 52) (hE : E ≠ -1#11) :
    (UnpackedFloat.unpack Format.binary64 (packComponents Format.binary64 .positive E M)).neg =
      UnpackedFloat.unpack Format.binary64 (packComponents Format.binary64 .negative E M) := by
  by_cases hzero : E = 0#11
  · subst hzero
    by_cases hM0 : M = 0#52
    · subst hM0
      have hunpack (s : Sign) : UnpackedFloat.unpack Format.binary64
          (packComponents Format.binary64 s 0#11 0#52) = .zero s := unpack_packedZero
      rw [hunpack, hunpack]
      rfl
    · obtain ⟨hm, hplus⟩ := unpack_subnormal .positive hM0
      obtain ⟨hm', hminus⟩ := unpack_subnormal .negative hM0
      rw [hplus, hminus]
      rfl
  · obtain ⟨hm, hplus⟩ := unpack_normal .positive M hE hzero
    obtain ⟨hm', hminus⟩ := unpack_normal .negative M hE hzero
    rw [hplus, hminus]
    rfl

theorem toBits_neg (h : x.toBits.toNat < infinityBits) :
    (-x).toBits.toNat = 2 ^ 63 + x.toBits.toNat := by
  obtain ⟨E, M, hE, hb⟩ := components_of_lt (b := x.toModel.toBits.toBitVec) h
  have hunpack : x.toModel.unpack = UnpackedFloat.unpack Format.binary64
      (packComponents Format.binary64 .positive E M) := by
    rw [← hb]
    rfl
  have hneg : (-x).toModel.toBits.toBitVec = packComponents Format.binary64 .negative E M := by
    show UnpackedFloat.pack Format.binary64 x.toModel.unpack.neg = _
    rw [hunpack, neg_unpack M hE, pack_unpack_components .negative M hE]
  show (-x).toModel.toBits.toBitVec.toNat = 2 ^ 63 + x.toModel.toBits.toBitVec.toNat
  rw [hneg, hb, toNat_packComponents, toNat_packComponents]
  show 1 * 2 ^ 63 + _ + _ = 2 ^ 63 + (0 * 2 ^ 63 + _ + _)
  omega

/-- A finite number has its pattern below that of infinity, or it is the negative of one that
has. -/
theorem exists_neg_of_isFinite (h : x.isFinite = true) :
    x.toBits.toNat < infinityBits ∨ ∃ y : Float, y.toBits.toNat < infinityBits ∧ x = -y := by
  have hfin : x.toModel.unpack.isFinite = true := h
  obtain ⟨s, E, M, hb⟩ := exists_components x.toModel.toBits.toBitVec
  have hunpack : x.toModel.unpack = UnpackedFloat.unpack Format.binary64
      (packComponents Format.binary64 s E M) := by
    rw [← hb]
    rfl
  have hbits : x.toBits.toNat = s.toBitVec.toNat * 2 ^ 63 + E.toNat * 2 ^ 52 + M.toNat := by
    show x.toModel.toBits.toBitVec.toNat = _
    rw [hb, toNat_packComponents]
  rw [hunpack] at hfin
  have hlast : E.toNat ≠ 2047 := by
    intro hE
    exact exponent_ne_of_isFinite hfin (BitVec.eq_of_toNat_eq hE)
  have hE := E.isLt
  have hM := M.isLt
  have hlt : E.toNat * 2 ^ 52 + M.toNat < infinityBits := by
    unfold infinityBits
    omega
  cases s with
  | positive =>
    left
    have hplus : Sign.positive.toBitVec.toNat = 0 := rfl
    rwa [hbits, hplus, zero_mul, zero_add]
  | negative =>
    right
    have hminus : Sign.negative.toBitVec.toNat = 1 := rfl
    have hy := toBits_ofBits hlt
    refine ⟨Float.ofBits (E.toNat * 2 ^ 52 + M.toNat).toUInt64, by rwa [hy], eq_of_toBits ?_⟩
    rw [toBits_neg (by rwa [hy]), hy, hbits, hminus]
    omega

/-- The negative has the same digits. -/
theorem ofFloat_neg (h : x.toBits.toNat < infinityBits) :
    Dyadic.ofFloat (-x) = { Dyadic.ofFloat x with negative := true } := by
  have hneg := toBits_neg h
  obtain ⟨E, F, hE, hF, hbits⟩ : ∃ E F : ℕ, E < 2 ^ 11 ∧ F < 2 ^ 52 ∧
      x.toBits.toNat = E * 2 ^ 52 + F := by
    unfold infinityBits at h
    exact ⟨x.toBits.toNat / 2 ^ 52, x.toBits.toNat % 2 ^ 52, by omega, by omega, by omega⟩
  have hbits' : (-x).toBits.toNat = 1 * 2 ^ 63 + E * 2 ^ 52 + F := by
    omega
  have hfirst : (Dyadic.ofFloat (-x)).negative = true := by
    apply decide_eq_true
    show 2 ^ 63 ≤ (-x).toBits.toNat
    omega
  obtain ⟨hm, he⟩ := ofFloat_of_fields hE hF hbits
  obtain ⟨hm', he'⟩ := ofFloat_of_parts hE hF hbits'
  rw [← hm] at hm'
  rw [← he] at he'
  generalize Dyadic.ofFloat (-x) = d at *
  cases d
  subst hfirst hm' he'
  rfl

theorem negative_of_lt (h : x.toBits.toNat < infinityBits) :
    (Dyadic.ofFloat x).negative = false := by
  unfold infinityBits at h
  apply decide_eq_false
  show ¬ 2 ^ 63 ≤ x.toBits.toNat
  omega

end Gantry.Number
