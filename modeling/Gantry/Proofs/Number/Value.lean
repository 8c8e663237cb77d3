import Mathlib
import Gantry.Number.Binary64
import Gantry.Proofs.Number.Rounding

/-!
# The value of a binary64 number

A finite number stands for a rational one, and its comparisons are those of the values. Whatever
stays below `2 ^ 1024` comes back from its bits unchanged.
-/

namespace Gantry.Number

open Float.Model Float.Model.UnpackedFloat

/-- The rational number that a finite float stands for; any other one counts as zero. -/
def toRat (x : Float) : ℚ :=
  value x.toModel.unpack

theorem unpack_normal (s : Sign) {E : BitVec 11} (M : BitVec 52) (h : E ≠ -1#11) (h0 : E ≠ 0#11) :
    ∃ hm, unpack Format.binary64 (packComponents Format.binary64 s E M) =
      .finite s (2 ^ 52 + M.toNat) (E.toNat - 1075) hm := by
  have hM : (1#1 ++ M).toNat = 2 ^ 52 + M.toNat := by
    rw [BitVec.toNat_append, ← Nat.shiftLeft_add_eq_or_of_lt M.isLt]
    rfl
  refine ⟨by omega, ?_⟩
  simp only [UnpackedFloat.unpack, unpackExponent_packComponents, unpackMantissa_packComponents,
    unpackSign_packComponents, if_neg h, if_neg h0, Sign.ofBitVec_toBitVec, hM]
  rfl

theorem unpack_subnormal (s : Sign) {M : BitVec 52} (h : M ≠ 0#52) :
    ∃ hm, unpack Format.binary64 (packComponents Format.binary64 s 0#11 M) =
      .finite s M.toNat (-1074) hm := by
  have hpos : 0 < M.toNat := Nat.pos_of_ne_zero fun h0 => h (BitVec.eq_of_toNat_eq h0)
  have hones : (0#11 : BitVec 11) ≠ -1#11 := by decide
  refine ⟨hpos, ?_⟩
  simp only [UnpackedFloat.unpack, unpackExponent_packComponents, unpackMantissa_packComponents,
    unpackSign_packComponents, if_neg hones, if_true, dif_neg h, Sign.ofBitVec_toBitVec]
  rfl

theorem pack_finite (s : Sign) {m : ℕ} {e : ℤ} (hm : 0 < m) (he' : e ≤ 971) :
    UnpackedFloat.pack Format.binary64 (.finite s m e hm) =
      packComponents Format.binary64 s
        (if m.log2 = 52 then BitVec.ofNat 11 (e + 1075).toNat else 0#11) (BitVec.ofNat 52 m) := by
  have hbias : e + (Format.binary64.exponentBias : ℤ) + (52 : ℕ) = e + 1075 := by
    norm_num [Format.exponentBias]
    ring
  have hfits : ¬ 2 ^ 11 ≤ (e + 1075).toNat + 1 := by omega
  simp only [UnpackedFloat.pack, hbias, if_neg hfits]
  by_cases hlog : m.log2 = 52
  · rw [if_pos hlog, if_pos (by rw [hlog]; rfl)]
  · have hbits : ¬ m.log2 + 1 = Format.binary64.mantissaBits := by
      show ¬ m.log2 + 1 = 53
      omega
    rw [if_neg hlog, if_neg hbits]

theorem abs_value_finite (s : Sign) {m : ℕ} {e : ℤ} (hm : 0 < m) :
    |value (.finite s m e hm)| = m * 2 ^ e := by
  cases s <;> simp [value, sign, abs_mul]

theorem exponent_le {s : Sign} {m : ℕ} {e : ℤ} (hm : 0 < m) (hfull : 2 ^ 52 ≤ m ∨ e = -1074)
    (hu : |value (.finite s m e hm)| < 2 ^ (1024 : ℤ)) : e ≤ 971 := by
  rcases hfull with hfull | rfl
  · by_contra hgt
    have hm52 : (2 : ℚ) ^ (52 : ℤ) ≤ m := by exact_mod_cast hfull
    have hbig : (2 : ℚ) ^ (1024 : ℤ) ≤ m * 2 ^ e := by
      calc (2 : ℚ) ^ (1024 : ℤ) ≤ 2 ^ (52 + e) := zpow_le_zpow_right₀ (by norm_num) (by omega)
        _ = 2 ^ (52 : ℤ) * 2 ^ e := by rw [zpow_add₀ (by norm_num)]
        _ ≤ m * 2 ^ e := by gcongr
    rw [abs_value_finite] at hu
    exact absurd hu (not_lt.mpr hbig)
  · norm_num

/-- What is below the overflow threshold comes back from its bits. -/
theorem unpack_pack {u : UnpackedFloat} (h : Canonical u) (hu : |value u| < 2 ^ (1024 : ℤ)) :
    (Float.Model.pack u).unpack = u := by
  cases u with
  | infinity s => cases h
  | notANumber => cases h
  | zero s => exact unpack_packedZero
  | finite s m e hm =>
    obtain ⟨hhi, hlo, hfull⟩ := h
    have he := exponent_le hm hfull hu
    have hmod (h52 : 2 ^ 52 ≤ m) : 2 ^ 52 + (BitVec.ofNat 52 m).toNat = m := by
      rw [BitVec.toNat_ofNat]
      omega
    show unpack Format.binary64 (UnpackedFloat.pack Format.binary64 (.finite s m e hm)) = _
    rw [pack_finite s hm he]
    by_cases h52 : 2 ^ 52 ≤ m
    · have hexp : (BitVec.ofNat 11 (e + 1075).toNat).toNat = (e + 1075).toNat := by
        rw [BitVec.toNat_ofNat]
        exact Nat.mod_eq_of_lt (by omega)
      have hne {E : BitVec 11} (hE : (e + 1075).toNat ≠ E.toNat) :
          BitVec.ofNat 11 (e + 1075).toNat ≠ E := by
        intro h
        exact hE (by rw [← hexp, h])
      have hones : (-1#11 : BitVec 11).toNat = 2047 := by decide
      obtain ⟨_, hunpack⟩ := unpack_normal s (BitVec.ofNat 52 m) (hne (E := -1#11) (by omega))
        (hne (E := 0#11) (by show _ ≠ 0; omega))
      rw [if_pos ((Nat.log2_eq_iff hm.ne').mpr ⟨h52, hhi⟩), hunpack]
      congr 1
      · exact hmod h52
      · omega
    · obtain rfl := hfull.resolve_left h52
      have hM : (BitVec.ofNat 52 m).toNat = m := by
        rw [BitVec.toNat_ofNat]
        omega
      have hzero : BitVec.ofNat 52 m ≠ 0#52 := by
        intro h
        rw [h] at hM
        exact hm.ne hM
      have hlog : m.log2 ≠ 52 := by
        have := (Nat.log2_lt hm.ne').mpr (show m < 2 ^ 52 by omega)
        omega
      obtain ⟨_, hunpack⟩ := unpack_subnormal s hzero
      rw [if_neg hlog, hunpack]
      congr 1

theorem unpack_eq (x : Float) : ∃ (s : Sign) (E : BitVec 11) (M : BitVec 52), x.toModel.unpack =
    UnpackedFloat.unpack Format.binary64 (packComponents Format.binary64 s E M) := by
  let b : BitVec Format.binary64.numBits := x.toModel.toBits.toBitVec
  refine ⟨Sign.ofBitVec (unpackSign b), unpackExponent b, unpackMantissa b, ?_⟩
  rw [packComponents_unpackSign_unpackExponent_unpackMantissa]
  rfl

/-- The last exponent is that of infinities and of no numbers. -/
theorem exponent_ne_of_isFinite {s : Sign} {E : BitVec 11} {M : BitVec 52}
    (h : (UnpackedFloat.unpack Format.binary64
      (packComponents Format.binary64 s E M)).isFinite = true) : E ≠ -1#11 := by
  intro hlast
  simp only [UnpackedFloat.unpack, unpackExponent_packComponents, hlast, if_true] at h
  split at h <;> cases h

theorem canonical_unpack {x : Float} (h : x.isFinite = true) :
    Canonical x.toModel.unpack ∧ |value x.toModel.unpack| < 2 ^ (1024 : ℤ) := by
  have hfin : x.toModel.unpack.isFinite = true := h
  obtain ⟨s, E, M, hx⟩ := unpack_eq x
  rw [hx] at hfin ⊢
  have hM := M.isLt
  have hones : E ≠ -1#11 := exponent_ne_of_isFinite hfin
  by_cases hzero : E = 0#11
  · subst hzero
    by_cases hM0 : M = 0#52
    · subst hM0
      have hunpack : UnpackedFloat.unpack Format.binary64
          (packComponents Format.binary64 s 0#11 0#52) = .zero s := unpack_packedZero
      rw [hunpack]
      refine ⟨trivial, ?_⟩
      show |(0 : ℚ)| < _
      rw [abs_zero]
      positivity
    · obtain ⟨hm, hunpack⟩ := unpack_subnormal s hM0
      rw [hunpack, abs_value_finite]
      refine ⟨⟨by omega, le_rfl, Or.inr rfl⟩, ?_⟩
      have hlt : (M.toNat : ℚ) < 2 ^ (52 : ℤ) := by exact_mod_cast hM
      calc (M.toNat : ℚ) * 2 ^ (-1074 : ℤ) ≤ M.toNat * 1 := by
            gcongr
            exact zpow_le_one_of_nonpos₀ (by norm_num) (by norm_num)
        _ < 2 ^ (52 : ℤ) := by rwa [mul_one]
        _ ≤ 2 ^ (1024 : ℤ) := zpow_le_zpow_right₀ (by norm_num) (by norm_num)
  · obtain ⟨hm, hunpack⟩ := unpack_normal s M hones hzero
    have hE : E.toNat ≤ 2046 ∧ 1 ≤ E.toNat := by
      have hne : E.toNat ≠ (-1#11 : BitVec 11).toNat := fun h => hones (BitVec.eq_of_toNat_eq h)
      have hne0 : E.toNat ≠ 0 := fun h => hzero (BitVec.eq_of_toNat_eq h)
      have h2047 : (-1#11 : BitVec 11).toNat = 2047 := by decide
      have hlt := E.isLt
      omega
    rw [hunpack, abs_value_finite]
    refine ⟨⟨by omega, by omega, Or.inl (by omega)⟩, ?_⟩
    have hlt : ((2 ^ 52 + M.toNat : ℕ) : ℚ) < 2 ^ (53 : ℤ) := by
      have : 2 ^ 52 + M.toNat < 2 ^ 53 := by omega
      exact_mod_cast this
    calc ((2 ^ 52 + M.toNat : ℕ) : ℚ) * 2 ^ ((E.toNat : ℤ) - 1075)
        < 2 ^ (53 : ℤ) * 2 ^ ((E.toNat : ℤ) - 1075) := by gcongr
      _ = 2 ^ (53 + ((E.toNat : ℤ) - 1075)) := by rw [zpow_add₀ (by norm_num)]
      _ ≤ 2 ^ (1024 : ℤ) := zpow_le_zpow_right₀ (by norm_num) (by omega)

theorem onGrid_toRat (x : Float) : OnGrid (toRat x) := by
  by_cases h : x.isFinite = true
  · exact onGrid_value (canonical_unpack h).1
  · have hz : toRat x = 0 := by
      unfold toRat
      have hfin : ¬ x.toModel.unpack.isFinite = true := h
      cases hu : x.toModel.unpack <;> rw [hu] at hfin <;>
        first | rfl | exact absurd rfl hfin
    rw [hz]
    exact onGrid_zero

theorem compare_magnitude {m n : ℕ} {e f : ℤ} (hm : m < 2 ^ 53) (hn : n < 2 ^ 53)
    (he : -1074 ≤ e) (hf : -1074 ≤ f) (hm' : 2 ^ 52 ≤ m ∨ e = -1074)
    (hn' : 2 ^ 52 ≤ n ∨ f = -1074) :
    (compare e f).then (compare m n) = compare ((m : ℚ) * 2 ^ e) (n * 2 ^ f) := by
  have hless {m n : ℕ} {e f : ℤ} (hm : m < 2 ^ 53) (he : -1074 ≤ e)
      (hn' : 2 ^ 52 ≤ n ∨ f = -1074) (hef : e < f) : (m : ℚ) * 2 ^ e < n * 2 ^ f := by
    have hm53 : (m : ℚ) < 2 ^ (53 : ℤ) := by exact_mod_cast hm
    have hn52 : (2 : ℚ) ^ (52 : ℤ) ≤ n := by
      have := hn'.resolve_right (by omega)
      exact_mod_cast this
    calc (m : ℚ) * 2 ^ e < 2 ^ (53 : ℤ) * 2 ^ e := by gcongr
      _ = 2 ^ (53 + e) := by rw [zpow_add₀ (by norm_num)]
      _ ≤ 2 ^ (52 + f) := zpow_le_zpow_right₀ (by norm_num) (by omega)
      _ = 2 ^ (52 : ℤ) * 2 ^ f := by rw [zpow_add₀ (by norm_num)]
      _ ≤ n * 2 ^ f := by gcongr
  rcases lt_trichotomy e f with hef | rfl | hef
  · rw [compare_lt_iff_lt.mpr hef, compare_lt_iff_lt.mpr (hless hm he hn' hef)]
    rfl
  · have hpow : (0 : ℚ) < 2 ^ e := by positivity
    rw [compare_eq_iff_eq.mpr rfl]
    show compare m n = _
    rcases lt_trichotomy m n with hmn | rfl | hmn
    · rw [compare_lt_iff_lt.mpr hmn, eq_comm, compare_lt_iff_lt]
      gcongr
    · rw [compare_eq_iff_eq.mpr rfl, compare_eq_iff_eq.mpr rfl]
    · rw [compare_gt_iff_gt.mpr hmn, eq_comm, compare_gt_iff_gt]
      gcongr
  · rw [compare_gt_iff_gt.mpr hef, compare_gt_iff_gt.mpr (hless hn hf hm' hef)]
    rfl

theorem compare_canonical {u v : UnpackedFloat} (hu : Canonical u) (hv : Canonical v) :
    u.compare v = some (compare (value u) (value v)) := by
  have hpos (m : ℕ) (e : ℤ) (hm : 0 < m) : (0 : ℚ) < m * 2 ^ e := by positivity
  cases u with
  | infinity s => cases hu
  | notANumber => cases hu
  | zero s =>
    cases v with
    | infinity t => cases hv
    | notANumber => cases hv
    | zero t =>
      simp only [UnpackedFloat.compare, value]
      rw [compare_eq_iff_eq.mpr rfl]
    | finite t n f hn =>
      have := hpos n f hn
      cases t <;> simp only [UnpackedFloat.compare, value, sign, Option.some.injEq]
      · rw [eq_comm, compare_gt_iff_gt]
        linarith
      · rw [eq_comm, compare_lt_iff_lt]
        linarith
  | finite s m e hm =>
    have hm' := hpos m e hm
    cases v with
    | infinity t => cases hv
    | notANumber => cases hv
    | zero t =>
      cases s <;> simp only [UnpackedFloat.compare, value, sign, Option.some.injEq]
      · rw [eq_comm, compare_lt_iff_lt]
        linarith
      · rw [eq_comm, compare_gt_iff_gt]
        linarith
    | finite t n f hn =>
      have hn' := hpos n f hn
      have hmag := compare_magnitude hu.1 hv.1 hu.2.1 hv.2.1 hu.2.2 hv.2.2
      cases s <;> cases t <;>
        simp only [UnpackedFloat.compare, value, sign, Option.some.injEq, one_mul, neg_one_mul]
      · rw [hmag, ← Std.OrientedOrd.eq_swap]
        rcases lt_trichotomy ((m : ℚ) * 2 ^ e) (n * 2 ^ f) with h | h | h
        · rw [compare_gt_iff_gt.mpr h, eq_comm, compare_gt_iff_gt]
          linarith
        · rw [h, compare_eq_iff_eq.mpr rfl, compare_eq_iff_eq.mpr rfl]
        · rw [compare_lt_iff_lt.mpr h, eq_comm, compare_lt_iff_lt]
          linarith
      · rw [eq_comm, compare_lt_iff_lt]
        linarith
      · rw [eq_comm, compare_gt_iff_gt]
        linarith
      · exact hmag

section Order

/-- The place of a number in the order, infinities included. -/
def place : UnpackedFloat → WithBot (WithTop ℚ)
  | .infinity .positive => ⊤
  | .infinity .negative => ⊥
  | u => ((value u : WithTop ℚ) : WithBot (WithTop ℚ))

theorem place_positive : place (.infinity .positive) = ⊤ := rfl

theorem place_negative : place (.infinity .negative) = ⊥ := rfl

theorem place_of_canonical {u : UnpackedFloat} (h : Canonical u) :
    place u = ((value u : WithTop ℚ) : WithBot (WithTop ℚ)) := by
  cases u with
  | infinity s => cases h
  | notANumber => cases h
  | _ => rfl

theorem compare_place {u v : UnpackedFloat} (hu : u ≠ .notANumber) (hv : v ≠ .notANumber)
    (hcu : u.isFinite = true → Canonical u) (hcv : v.isFinite = true → Canonical v) :
    u.compare v = some (compare (place u) (place v)) := by
  have hcases (w : UnpackedFloat) (hw : w ≠ .notANumber) :
      w.isFinite = true ∨ ∃ s, w = .infinity s := by
    cases w with
    | notANumber => exact absurd rfl hw
    | infinity s => exact Or.inr ⟨s, rfl⟩
    | _ => exact Or.inl rfl
  rcases hcases u hu with hfu | ⟨s, rfl⟩ <;> rcases hcases v hv with hfv | ⟨t, rfl⟩
  · have hcompare := compare_canonical (hcu hfu) (hcv hfv)
    rw [hcompare, place_of_canonical (hcu hfu), place_of_canonical (hcv hfv)]
    congr 1
    rcases lt_trichotomy (value u) (value v) with h | h | h
    · rw [compare_lt_iff_lt.mpr h, eq_comm, compare_lt_iff_lt, WithBot.coe_lt_coe,
        WithTop.coe_lt_coe]
      exact h
    · rw [h, compare_eq_iff_eq.mpr rfl, compare_eq_iff_eq.mpr rfl]
    · rw [compare_gt_iff_gt.mpr h, eq_comm, compare_gt_iff_gt, WithBot.coe_lt_coe,
        WithTop.coe_lt_coe]
      exact h
  · rw [place_of_canonical (hcu hfu)]
    cases t with
    | positive =>
      rw [place_positive,
        compare_lt_iff_lt.mpr (by exact WithBot.coe_lt_coe.mpr (WithTop.coe_lt_top _))]
      cases u <;> first | rfl | cases hfu
    | negative =>
      rw [place_negative,
        compare_gt_iff_gt.mpr (WithBot.bot_lt_coe _)]
      cases u <;> first | rfl | cases hfu
  · rw [place_of_canonical (hcv hfv)]
    cases s with
    | positive =>
      rw [place_positive,
        compare_gt_iff_gt.mpr (by exact WithBot.coe_lt_coe.mpr (WithTop.coe_lt_top _))]
      cases v <;> first | rfl | cases hfv
    | negative =>
      rw [place_negative,
        compare_lt_iff_lt.mpr (WithBot.bot_lt_coe _)]
      cases v <;> first | rfl | cases hfv
  · cases s <;> cases t
    · rw [compare_eq_iff_eq.mpr rfl]
      rfl
    · rw [place_positive, place_negative, compare_lt_iff_lt.mpr bot_lt_top]
      rfl
    · rw [place_positive, place_negative, compare_gt_iff_gt.mpr bot_lt_top]
      rfl
    · rw [compare_eq_iff_eq.mpr rfl]
      rfl

variable {x y : Float}

theorem isNaN_iff_unpack : x.isNaN = true ↔ x.toModel.unpack = .notANumber :=
  isNaN_iff

theorem isNaN_of_isFinite (h : x.isFinite = true) : x.isNaN = false := by
  have hfin : x.toModel.unpack.isFinite = true := h
  show x.toModel.unpack.isNaN = false
  cases hu : x.toModel.unpack <;> rw [hu] at hfin <;> first | rfl | cases hfin

theorem isInf_of_isFinite (h : x.isFinite = true) : x.isInf = false := by
  have hfin : x.toModel.unpack.isFinite = true := h
  show x.toModel.unpack.isInf = false
  cases hu : x.toModel.unpack <;> rw [hu] at hfin <;> first | rfl | cases hfin

theorem compare_of_not_isNaN (hx : x.isNaN = false) (hy : y.isNaN = false) :
    x.toModel.unpack.compare y.toModel.unpack =
      some (compare (place x.toModel.unpack) (place y.toModel.unpack)) := by
  have hne {z : Float} (hz : z.isNaN = false) : z.toModel.unpack ≠ .notANumber := fun hn => by
    rw [isNaN_iff_unpack.mpr hn] at hz
    cases hz
  exact compare_place (hne hx) (hne hy) (fun h => (canonical_unpack h).1)
    fun h => (canonical_unpack h).1

theorem lt_iff_compare : x < y ↔ x.toModel.unpack.compare y.toModel.unpack = some .lt := by
  show x.lt y = true ↔ _
  unfold Float.lt
  rw [decide_eq_true_iff]
  exact beq_iff_eq

theorem le_iff_compare :
    x ≤ y ↔ (x.toModel.unpack.compare y.toModel.unpack).any Ordering.isLE = true := by
  show x.le y = true ↔ _
  unfold Float.le
  rw [decide_eq_true_iff]
  rfl

theorem beq_iff_compare :
    (x == y) = true ↔ x.toModel.unpack.compare y.toModel.unpack = some .eq := by
  show (x.toModel.unpack.compare y.toModel.unpack == some .eq) = true ↔ _
  exact beq_iff_eq

theorem lt_iff_place (hx : x.isNaN = false) (hy : y.isNaN = false) :
    x < y ↔ place x.toModel.unpack < place y.toModel.unpack := by
  rw [lt_iff_compare, compare_of_not_isNaN hx hy, Option.some.injEq, compare_lt_iff_lt]

theorem le_iff_place (hx : x.isNaN = false) (hy : y.isNaN = false) :
    x ≤ y ↔ place x.toModel.unpack ≤ place y.toModel.unpack := by
  rw [le_iff_compare, compare_of_not_isNaN hx hy, Option.any_some, Ordering.isLE_iff_ne_gt,
    compare_gt_iff_gt, not_lt]

theorem not_isNaN_of_compare {o : Ordering}
    (h : x.toModel.unpack.compare y.toModel.unpack = some o) :
    x.isNaN = false ∧ y.isNaN = false := by
  constructor
  · show x.toModel.unpack.isNaN = false
    cases hu : x.toModel.unpack with
    | notANumber => simp [hu, UnpackedFloat.compare] at h
    | _ => rfl
  · show y.toModel.unpack.isNaN = false
    cases hv : y.toModel.unpack with
    | notANumber => cases hu : x.toModel.unpack <;> simp [hu, hv, UnpackedFloat.compare] at h
    | _ => rfl

theorem not_isNaN_of_lt (h : x < y) : x.isNaN = false ∧ y.isNaN = false :=
  not_isNaN_of_compare (lt_iff_compare.mp h)

theorem not_isNaN_of_le (h : x ≤ y) : x.isNaN = false ∧ y.isNaN = false := by
  obtain ⟨o, ho, -⟩ := (Option.any_eq_true _ _).mp (le_iff_compare.mp h)
  exact not_isNaN_of_compare ho

theorem not_lt_of_isNaN (hx : x.isNaN = true) (y : Float) : ¬ x < y ∧ ¬ y < x := by
  constructor
  · intro hlt
    rw [(not_isNaN_of_lt hlt).1] at hx
    cases hx
  · intro hlt
    rw [(not_isNaN_of_lt hlt).2] at hx
    cases hx

theorem not_le_of_isNaN (hx : x.isNaN = true) (y : Float) : ¬ x ≤ y ∧ ¬ y ≤ x := by
  constructor
  · intro hle
    rw [(not_isNaN_of_le hle).1] at hx
    cases hx
  · intro hle
    rw [(not_isNaN_of_le hle).2] at hx
    cases hx

/-- Numbers that are not NaN are ordered, infinities included. -/
theorem le_of_not_lt (hx : x.isNaN = false) (hy : y.isNaN = false) (h : ¬ y < x) : x ≤ y := by
  rw [lt_iff_place hy hx, not_lt] at h
  exact (le_iff_place hx hy).mpr h

theorem le_of_lt (h : x < y) : x ≤ y := by
  obtain ⟨hx, hy⟩ := not_isNaN_of_lt h
  exact (le_iff_place hx hy).mpr ((lt_iff_place hx hy).mp h).le

theorem place_of_isFinite (hx : x.isFinite = true) :
    place x.toModel.unpack = ((toRat x : WithTop ℚ) : WithBot (WithTop ℚ)) :=
  place_of_canonical (canonical_unpack hx).1

theorem lt_iff (hx : x.isFinite = true) (hy : y.isFinite = true) : x < y ↔ toRat x < toRat y := by
  rw [lt_iff_place (isNaN_of_isFinite hx) (isNaN_of_isFinite hy), place_of_isFinite hx,
    place_of_isFinite hy, WithBot.coe_lt_coe, WithTop.coe_lt_coe]

theorem le_iff (hx : x.isFinite = true) (hy : y.isFinite = true) : x ≤ y ↔ toRat x ≤ toRat y := by
  rw [le_iff_place (isNaN_of_isFinite hx) (isNaN_of_isFinite hy), place_of_isFinite hx,
    place_of_isFinite hy, WithBot.coe_le_coe, WithTop.coe_le_coe]

theorem beq_iff (hx : x.isFinite = true) (hy : y.isFinite = true) :
    (x == y) = true ↔ toRat x = toRat y := by
  rw [beq_iff_compare, compare_canonical (canonical_unpack hx).1 (canonical_unpack hy).1,
    Option.some.injEq, compare_eq_iff_eq]
  rfl

end Order

end Gantry.Number
