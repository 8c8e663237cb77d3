import Mathlib
import Gantry.Proofs.Number.Arithmetic

/-!
# Enclosures

A float that is finite and lies between two rational numbers. As rounding does not cross a point of
the grid, an operation keeps an enclosure whose ends are such points and enclose the exact result.
-/

namespace Gantry.Number

open Float.Model Float.Model.UnpackedFloat

variable {x y : Float} {r a b c d lo hi : ℚ}

/-- `r` rounded to the grid, and then packed. -/
def IsRounded (x : Float) (r : ℚ) : Prop :=
  ∃ u, x.toModel = Float.Model.pack u ∧ Rounds u r

theorem isFinite_of_canonical {u : UnpackedFloat} (h : Canonical u) : u.isFinite = true := by
  cases u with
  | finite s m e hm => rfl
  | zero s => rfl
  | _ => cases h

theorem unpack_of_eq_pack {u : UnpackedFloat} (hx : x.toModel = Float.Model.pack u)
    (h : Canonical u) (hu : |value u| < 2 ^ (1024 : ℤ)) :
    x.isFinite = true ∧ toRat x = value u := by
  have hunpack : x.toModel.unpack = u := by
    rw [hx]
    exact unpack_pack h hu
  constructor
  · show x.toModel.unpack.isFinite = true
    rw [hunpack]
    exact isFinite_of_canonical h
  · rw [toRat, hunpack]

theorem IsRounded.nearest_of_le (h : IsRounded x r) (hc : OnGrid c) (hlt : c < 2 ^ (1024 : ℤ))
    (hr : |r| ≤ c) : x.isFinite = true ∧ Nearest r (toRat x) := by
  obtain ⟨u, hx, hcanon, hnear⟩ := h
  obtain ⟨hlo, hhi⟩ := abs_le.mp hr
  have hval : |value u| ≤ c := abs_le.mpr ⟨hnear.le_of_ge hc.neg hlo, hnear.le_of_le hc hhi⟩
  obtain ⟨hfin, heq⟩ := unpack_of_eq_pack hx hcanon (hval.trans_lt hlt)
  exact ⟨hfin, heq ▸ hnear⟩

theorem IsRounded.nearest (h : IsRounded x r) (hr : |r| ≤ 2 ^ (1023 : ℤ)) :
    x.isFinite = true ∧ Nearest r (toRat x) :=
  h.nearest_of_le (onGrid_two_zpow (by norm_num))
    (zpow_lt_zpow_right₀ (by norm_num) (by norm_num)) hr

section Operations

variable (hx : x.isFinite = true) (hy : y.isFinite = true)
include hx

theorem neg_finite : (-x).isFinite = true ∧ toRat (-x) = -toRat x := by
  obtain ⟨hcanon, hlt⟩ := canonical_unpack hx
  obtain ⟨hneg, hval⟩ := canonical_neg hcanon
  have := unpack_of_eq_pack (x := -x) rfl hneg (by rwa [hval, abs_neg])
  rwa [hval] at this

theorem abs_finite : x.abs.isFinite = true ∧ toRat x.abs = |toRat x| := by
  obtain ⟨hcanon, hlt⟩ := canonical_unpack hx
  have habs : Canonical x.toModel.unpack.abs ∧
      value x.toModel.unpack.abs = |value x.toModel.unpack| := by
    cases hu : x.toModel.unpack with
    | finite s m e hm =>
      rw [hu] at hcanon
      refine ⟨hcanon, ?_⟩
      rw [abs_value_finite]
      simp [UnpackedFloat.abs, value, sign]
    | zero s => exact ⟨trivial, by simp [UnpackedFloat.abs, value]⟩
    | infinity s => simp [hu, Canonical] at hcanon
    | notANumber => simp [hu, Canonical] at hcanon
  have := unpack_of_eq_pack (x := x.abs) rfl habs.1 (by rwa [habs.2, abs_abs])
  rwa [habs.2] at this

include hy

theorem add_rounded : IsRounded (x + y) (toRat x + toRat y) :=
  ⟨_, rfl, rounds_add (canonical_unpack hx).1 (canonical_unpack hy).1⟩

theorem sub_rounded : IsRounded (x - y) (toRat x - toRat y) :=
  ⟨_, rfl, rounds_sub (canonical_unpack hx).1 (canonical_unpack hy).1⟩

theorem mul_rounded : IsRounded (x * y) (toRat x * toRat y) :=
  ⟨_, rfl, rounds_mul (canonical_unpack hx).1 (canonical_unpack hy).1⟩

theorem div_rounded (h0 : toRat y ≠ 0) : IsRounded (x / y) (toRat x / toRat y) :=
  ⟨_, rfl, rounds_div (canonical_unpack hx).1 (canonical_unpack hy).1 h0⟩

end Operations

/-- The square root of a number that is not below zero is not below zero either, and no larger than
a power of two whose square is no smaller. -/
theorem sqrt_rounded (hx : x.isFinite = true) (h0 : 0 ≤ toRat x) :
    ∃ r, IsRounded x.sqrt r ∧ 0 ≤ r ∧ ∀ k : ℤ, toRat x ≤ 2 ^ (2 * k) → r ≤ 2 ^ k := by
  have hroot {u : UnpackedFloat} (hu : Canonical u) (h0 : 0 ≤ value u) :
      ∃ r, Rounds (UnpackedFloat.sqrt Format.binary64 u) r ∧ 0 ≤ r ∧
        ∀ k : ℤ, value u ≤ 2 ^ (2 * k) → r ≤ 2 ^ k := by
    cases u with
    | infinity s => cases hu
    | notANumber => cases hu
    | zero s =>
      refine ⟨0, ?_, le_rfl, fun k _ => by positivity⟩
      simpa [UnpackedFloat.sqrt, value] using rounds_self (u := .zero s) trivial
    | finite s m e hm =>
      cases s with
      | positive =>
        obtain ⟨r, hr, hr0, hbound⟩ := rounds_sqrt_finite (e := e) hm
        exact ⟨r, hr, hr0, fun k hk => hbound k (by simpa [value, sign] using hk)⟩
      | negative =>
        have : (0 : ℚ) < m * 2 ^ e := by positivity
        simp only [value, sign] at h0
        linarith
  obtain ⟨r, hr, hr0, hbound⟩ := hroot (canonical_unpack hx).1 h0
  exact ⟨r, ⟨_, rfl, hr⟩, hr0, hbound⟩

/-- A point of the grid that is no larger than half of what overflows. -/
structure Endpoint (c : ℚ) : Prop where
  onGrid : OnGrid c
  abs_le : |c| ≤ 2 ^ (1023 : ℤ)

theorem Endpoint.neg (h : Endpoint c) : Endpoint (-c) :=
  ⟨h.onGrid.neg, by rw [abs_neg]; exact h.abs_le⟩

theorem endpoint_two_zpow {k : ℤ} (hlo : -1074 ≤ k) (hhi : k ≤ 1023) : Endpoint (2 ^ k) := by
  refine ⟨onGrid_two_zpow hlo, ?_⟩
  rw [abs_of_pos (by positivity)]
  exact zpow_le_zpow_right₀ (by norm_num) hhi

theorem endpoint_int (n : ℤ) (hn : |n| ≤ 2 ^ 53) : Endpoint n := by
  refine ⟨onGrid_intCast hn, ?_⟩
  have hn53 : |(n : ℚ)| ≤ 2 ^ (53 : ℤ) := by exact_mod_cast hn
  exact hn53.trans (zpow_le_zpow_right₀ (by norm_num) (by norm_num))

theorem endpoint_zero : Endpoint 0 := by
  simpa using endpoint_int 0 (by norm_num)

/-- The float is finite and lies between `lo` and `hi`. -/
structure Within (x : Float) (lo hi : ℚ) : Prop where
  isFinite : x.isFinite = true
  ge : lo ≤ toRat x
  le : toRat x ≤ hi

theorem IsRounded.within (h : IsRounded x r) (hlo : Endpoint lo) (hhi : Endpoint hi)
    (hge : lo ≤ r) (hle : r ≤ hi) : Within x lo hi := by
  have hr : |r| ≤ 2 ^ (1023 : ℤ) := by
    have hlo' := (abs_le.mp hlo.abs_le).1
    have hhi' := (abs_le.mp hhi.abs_le).2
    exact abs_le.mpr ⟨hlo'.trans hge, hle.trans hhi'⟩
  obtain ⟨hfin, hnear⟩ := h.nearest hr
  exact ⟨hfin, hnear.le_of_ge hlo.onGrid hge, hnear.le_of_le hhi.onGrid hle⟩

namespace Within

theorem mono (h : Within x a b) (hlo : lo ≤ a) (hhi : b ≤ hi) : Within x lo hi :=
  ⟨h.isFinite, hlo.trans h.ge, h.le.trans hhi⟩

theorem add (hx : Within x a b) (hy : Within y c d) (hlo : Endpoint lo) (hhi : Endpoint hi)
    (hge : lo ≤ a + c) (hle : b + d ≤ hi) : Within (x + y) lo hi :=
  (add_rounded hx.isFinite hy.isFinite).within hlo hhi
    (hge.trans (add_le_add hx.ge hy.ge)) ((add_le_add hx.le hy.le).trans hle)

theorem sub (hx : Within x a b) (hy : Within y c d) (hlo : Endpoint lo) (hhi : Endpoint hi)
    (hge : lo ≤ a - d) (hle : b - c ≤ hi) : Within (x - y) lo hi :=
  (sub_rounded hx.isFinite hy.isFinite).within hlo hhi
    (hge.trans (sub_le_sub hx.ge hy.le)) ((sub_le_sub hx.le hy.ge).trans hle)

theorem mul_rounded_within {z : Float} (hz : IsRounded z (toRat x * toRat y)) (hx : Within x a b)
    (hy : Within y c d) (hc : 0 ≤ c) (hlo : Endpoint lo) (hhi : Endpoint hi)
    (hge : lo ≤ a * c ∧ lo ≤ a * d) (hle : b * c ≤ hi ∧ b * d ≤ hi) : Within z lo hi := by
  have hy0 : 0 ≤ toRat y := hc.trans hy.ge
  refine hz.within hlo hhi ?_ ?_
  · have hend : lo ≤ a * toRat y := by
      rcases le_total 0 a with ha | ha
      · exact hge.1.trans (mul_le_mul_of_nonneg_left hy.ge ha)
      · exact hge.2.trans (mul_le_mul_of_nonpos_left hy.le ha)
    exact hend.trans (mul_le_mul_of_nonneg_right hx.ge hy0)
  · have hend : b * toRat y ≤ hi := by
      rcases le_total 0 b with hb | hb
      · exact (mul_le_mul_of_nonneg_left hy.le hb).trans hle.2
      · exact (mul_le_mul_of_nonpos_left hy.ge hb).trans hle.1
    exact (mul_le_mul_of_nonneg_right hx.le hy0).trans hend

theorem mul (hx : Within x a b) (hy : Within y c d) (hc : 0 ≤ c) (hlo : Endpoint lo)
    (hhi : Endpoint hi) (hge : lo ≤ a * c ∧ lo ≤ a * d) (hle : b * c ≤ hi ∧ b * d ≤ hi) :
    Within (x * y) lo hi :=
  mul_rounded_within (mul_rounded hx.isFinite hy.isFinite) hx hy hc hlo hhi hge hle

theorem mul_left (hy : Within y c d) (hx : Within x a b) (hc : 0 ≤ c) (hlo : Endpoint lo)
    (hhi : Endpoint hi) (hge : lo ≤ a * c ∧ lo ≤ a * d) (hle : b * c ≤ hi ∧ b * d ≤ hi) :
    Within (y * x) lo hi :=
  mul_rounded_within (mul_comm (toRat y) (toRat x) ▸ mul_rounded hy.isFinite hx.isFinite) hx hy hc
    hlo hhi hge hle

theorem sqrt {k : ℤ} (hx : Within x 0 (2 ^ (2 * k))) (hlo : -1074 ≤ k) (hhi : k ≤ 1023) :
    Within x.sqrt 0 (2 ^ k) := by
  obtain ⟨r, hr, hr0, hbound⟩ := sqrt_rounded hx.isFinite hx.ge
  exact hr.within endpoint_zero (endpoint_two_zpow hlo hhi) hr0 (hbound k hx.le)

end Within

end Gantry.Number
