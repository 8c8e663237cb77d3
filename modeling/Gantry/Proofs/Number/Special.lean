import Mathlib
import Gantry.Proofs.Number.Enclosure

/-!
# Infinities and NaN

Where operations leave the finite numbers: a finite result comes from finite operands, what is too
large becomes infinite, and a number that is held between two bounds lies between them unless it
is NaN.
-/

namespace Gantry.Number

open Float.Model Float.Model.UnpackedFloat

variable {x y s d lo hi : Float}

theorem isFinite_of_pack {u : UnpackedFloat} (h : (Float.Model.pack u).unpack.isFinite = true) :
    u.isFinite = true := by
  cases u with
  | infinity s => cases s <;> exact absurd h (by decide +kernel)
  | notANumber => exact absurd h (by decide +kernel)
  | _ => rfl

theorem isFinite_add {u v : UnpackedFloat}
    (h : (UnpackedFloat.add Format.binary64 u v).isFinite = true) :
    u.isFinite = true ∧ v.isFinite = true := by
  cases u <;> cases v <;> try first | exact ⟨rfl, rfl⟩ | cases h
  simp only [UnpackedFloat.add] at h
  split at h <;> cases h

theorem isFinite_of_add (h : (x + y).isFinite = true) : x.isFinite = true ∧ y.isFinite = true :=
  isFinite_add (isFinite_of_pack h)

theorem isFinite_of_sub (h : (x - y).isFinite = true) : x.isFinite = true ∧ y.isFinite = true := by
  have hsub : (UnpackedFloat.sub Format.binary64 x.toModel.unpack y.toModel.unpack).isFinite =
      true := isFinite_of_pack h
  rw [sub_eq] at hsub
  obtain ⟨hx, hy⟩ := isFinite_add hsub
  refine ⟨hx, ?_⟩
  show y.toModel.unpack.isFinite = true
  cases hu : y.toModel.unpack <;> rw [hu] at hy <;> first | rfl | cases hy

theorem isFinite_of_mul (h : (x * y).isFinite = true) : x.isFinite = true ∧ y.isFinite = true := by
  have hmul {u v : UnpackedFloat} (h : (UnpackedFloat.mul Format.binary64 u v).isFinite = true) :
      u.isFinite = true ∧ v.isFinite = true := by
    cases u <;> cases v <;> first | exact ⟨rfl, rfl⟩ | cases h
  exact hmul (isFinite_of_pack h)

theorem ne_zero_of_div (h : (x / y).isFinite = true) (hy : y.isFinite = true) : toRat y ≠ 0 := by
  have hdiv : (UnpackedFloat.div Format.binary64 x.toModel.unpack y.toModel.unpack).isFinite =
      true := isFinite_of_pack h
  have hfin : y.toModel.unpack.isFinite = true := hy
  unfold toRat
  cases hv : y.toModel.unpack with
  | zero s =>
    rw [hv] at hdiv
    cases hu : x.toModel.unpack <;> rw [hu] at hdiv <;> cases hdiv
  | finite s m e hm =>
    have : (0 : ℚ) < m * 2 ^ e := by positivity
    cases s <;> simp only [value, sign] <;> linarith
  | infinity s =>
    rw [hv] at hfin
    cases hfin
  | notANumber =>
    rw [hv] at hfin
    cases hfin

theorem isFinite_of_div (h : (x / y).isFinite = true) : x.isFinite = true := by
  have hdiv {u v : UnpackedFloat} (h : (UnpackedFloat.div Format.binary64 u v).isFinite = true) :
      u.isFinite = true := by
    cases u <;> cases v <;> first | rfl | cases h
  exact hdiv (isFinite_of_pack h)

theorem unpack_pack_infinity (s : Sign) :
    (Float.Model.pack (.infinity s)).unpack = .infinity s := by
  cases s <;> rfl

theorem unpack_pack_overflow {u : UnpackedFloat} (h : Canonical u)
    (hu : 2 ^ (1024 : ℤ) ≤ value u) : (Float.Model.pack u).unpack = .infinity .positive := by
  have hbig : (0 : ℚ) < 2 ^ (1024 : ℤ) := by positivity
  cases u with
  | infinity s => cases h
  | notANumber => cases h
  | zero s => exact absurd hu (not_le.mpr hbig)
  | finite s m e hm =>
    have hs : s = .positive := by
      cases s with
      | positive => rfl
      | negative =>
        have hneg : value (.finite .negative m e hm) ≤ 0 := by
          have : (0 : ℚ) ≤ m * 2 ^ e := by positivity
          simp only [value, sign]
          linarith
        exact absurd (hu.trans hneg) (not_le.mpr hbig)
    subst hs
    have he : 972 ≤ e := by
      by_contra hlt
      have hm53 : (m : ℚ) < 2 ^ (53 : ℤ) := by exact_mod_cast h.1
      have : value (.finite .positive m e hm) < 2 ^ (1024 : ℤ) := by
        simp only [value, sign, one_mul]
        calc (m : ℚ) * 2 ^ e < 2 ^ (53 : ℤ) * 2 ^ e := by gcongr
          _ = 2 ^ (53 + e) := by rw [zpow_add₀ (by norm_num)]
          _ ≤ 2 ^ (1024 : ℤ) := zpow_le_zpow_right₀ (by norm_num) (by omega)
      exact absurd hu (not_le.mpr this)
    have hbias : e + (Format.binary64.exponentBias : ℤ) + (52 : ℕ) = e + 1075 := by
      norm_num [Format.exponentBias]
      ring
    have hpack : UnpackedFloat.pack Format.binary64 (.finite .positive m e hm) =
        packedInfinity Format.binary64 .positive := by
      have hover : 2 ^ 11 ≤ (e + 1075).toNat + 1 := by omega
      simp only [UnpackedFloat.pack, hbias, if_pos hover]
    show UnpackedFloat.unpack Format.binary64 (UnpackedFloat.pack Format.binary64 _) = _
    rw [hpack]
    rfl

/-- A rounded number that has not overflowed does not fall below a point of the grid that the
exact one reaches. -/
theorem IsRounded.ge {r c : ℚ} (h : IsRounded x r) (hx : x.isFinite = true) (hc : OnGrid c)
    (hc0 : 0 ≤ c) (hr : c ≤ r) : c ≤ toRat x := by
  obtain ⟨u, hu, hcanon, hnear⟩ := h
  have hge : c ≤ value u := hnear.le_of_ge hc hr
  rcases le_or_gt (2 ^ (1024 : ℤ)) (value u) with hbig | hsmall
  · have hinf := unpack_pack_overflow hcanon hbig
    rw [← hu] at hinf
    have hfin : x.toModel.unpack.isFinite = true := hx
    rw [hinf] at hfin
    cases hfin
  · obtain ⟨-, hval⟩ := unpack_of_eq_pack hu hcanon (by rwa [abs_of_nonneg (hc0.trans hge)])
    rw [hval]
    exact hge

theorem sub_nonneg (h : y ≤ x) (hfin : (x - y).isFinite = true) : 0 ≤ toRat (x - y) := by
  obtain ⟨hx, hy⟩ := isFinite_of_sub hfin
  have hle := (le_iff hy hx).mp h
  exact (sub_rounded hx hy).ge hfin onGrid_zero le_rfl (by linarith)

/-- A number that is not finite is at the end of the order in magnitude. -/
theorem place_abs (hx : x.abs.isNaN = false) (h : x.isFinite = false) :
    place x.abs.toModel.unpack = ⊤ := by
  have hfin : x.toModel.unpack.isFinite = false := h
  have hnan : (Float.Model.pack x.toModel.unpack.abs).unpack.isNaN = false := hx
  show place (Float.Model.pack x.toModel.unpack.abs).unpack = ⊤
  cases hu : x.toModel.unpack with
  | infinity s =>
    have hpack : (Float.Model.pack (UnpackedFloat.infinity s).abs).unpack = .infinity .positive :=
      unpack_pack_infinity .positive
    rw [hpack, place_positive]
  | notANumber =>
    rw [hu] at hnan
    exact absurd hnan (by decide +kernel)
  | _ =>
    rw [hu] at hfin
    cases hfin

theorem isFinite_of_abs_lt (h : x.abs < y) : x.isFinite = true := by
  obtain ⟨hx, hy⟩ := not_isNaN_of_lt h
  cases hfin : x.isFinite with
  | true => rfl
  | false =>
    rw [lt_iff_place hx hy, place_abs hx hfin] at h
    exact absurd h not_top_lt

theorem isFinite_of_abs_le (hy : y.isFinite = true) (h : x.abs ≤ y) : x.isFinite = true := by
  obtain ⟨hx, hyn⟩ := not_isNaN_of_le h
  cases hfin : x.isFinite with
  | true => rfl
  | false =>
    rw [le_iff_place hx hyn, place_abs hx hfin, place_of_isFinite hy, top_le_iff] at h
    exact absurd (WithBot.coe_inj.mp h) (WithTop.coe_ne_top)

theorem lt_of_infinity (hxs : x < s) (hy : y.toModel.unpack = .infinity .positive) : x < y := by
  obtain ⟨hx, hs⟩ := not_isNaN_of_lt hxs
  have hyn : y.isNaN = false := by
    show y.toModel.unpack.isNaN = false
    rw [hy]
    rfl
  rw [lt_iff_place hx hyn, hy, place_positive]
  exact ((lt_iff_place hx hs).mp hxs).trans_le le_top

/-- A sum with a number that is not finite is that number. -/
theorem unpack_add_of_not_isFinite (hs : s.isFinite = false) (hd : d.isFinite = true) :
    (s + d).toModel.unpack = s.toModel.unpack := by
  have hfs : s.toModel.unpack.isFinite = false := hs
  have hfd : d.toModel.unpack.isFinite = true := hd
  have hadd : UnpackedFloat.add Format.binary64 s.toModel.unpack d.toModel.unpack =
      s.toModel.unpack := by
    cases hu : s.toModel.unpack <;> rw [hu] at hfs <;> try cases hfs
    all_goals cases hv : d.toModel.unpack <;> rw [hv] at hfd <;> first | rfl | cases hfd
  show (Float.Model.pack (UnpackedFloat.add Format.binary64 _ _)).unpack = _
  rw [hadd]
  cases hu : s.toModel.unpack with
  | infinity t => exact unpack_pack_infinity t
  | notANumber => rfl
  | _ =>
    rw [hu] at hfs
    cases hfs

theorem float_add_comm (x y : Float) : x + y = y + x := by
  have hcomm := unpacked_add_comm x.toModel.unpack y.toModel.unpack
  exact congrArg (fun u => Float.ofModel (Float.Model.pack u)) hcomm

theorem lt_add (hxs : x < s) (hd : d.isFinite = true) (hd0 : 0 ≤ toRat d) : x < s + d := by
  obtain ⟨hx, hs⟩ := not_isNaN_of_lt hxs
  by_cases hfin : s.isFinite = true
  · obtain ⟨u, hu, hcanon, hnear⟩ := add_rounded hfin hd
    have hge : toRat s ≤ value u := hnear.le_of_ge (onGrid_toRat s) (by linarith)
    rcases le_or_gt (2 ^ (1024 : ℤ)) (value u) with hbig | hsmall
    · apply lt_of_infinity hxs
      rw [hu]
      exact unpack_pack_overflow hcanon hbig
    · have hlow : -2 ^ (1024 : ℤ) < value u :=
        (neg_lt_of_abs_lt (canonical_unpack hfin).2).trans_le hge
      obtain ⟨hfin', hval⟩ := unpack_of_eq_pack hu hcanon (abs_lt.mpr ⟨hlow, hsmall⟩)
      rw [lt_iff_place hx (isNaN_of_isFinite hfin'), place_of_isFinite hfin', hval]
      refine ((lt_iff_place hx hs).mp hxs).trans_le ?_
      rw [place_of_isFinite hfin, WithBot.coe_le_coe, WithTop.coe_le_coe]
      exact hge
  · cases hu : s.toModel.unpack with
    | infinity t =>
      cases t with
      | positive =>
        exact lt_of_infinity hxs ((unpack_add_of_not_isFinite (by simpa using hfin) hd).trans hu)
      | negative =>
        have hlt := (lt_iff_place hx hs).mp hxs
        rw [hu, place_negative] at hlt
        exact absurd hlt not_lt_bot
    | notANumber =>
      rw [isNaN_iff_unpack.mpr hu] at hs
      cases hs
    | zero t => exact absurd (show s.toModel.unpack.isFinite = true by rw [hu]; rfl) hfin
    | finite t m e hm => exact absurd (show s.toModel.unpack.isFinite = true by rw [hu]; rfl) hfin

theorem isFinite_zero : (0.0 : Float).isFinite = true := by decide +kernel

theorem toRat_zero : toRat 0.0 = 0 := by decide +kernel

theorem isPositive_iff : Scalar.isPositive x = true ↔ x.isFinite = true ∧ 0 < toRat x := by
  unfold Scalar.isPositive
  rw [Bool.and_eq_true, decide_eq_true_iff]
  refine and_congr_right fun hx => ?_
  rw [lt_iff isFinite_zero hx, toRat_zero]

theorem isNonNegative_iff : Scalar.isNonNegative x = true ↔ x.isFinite = true ∧ 0 ≤ toRat x := by
  unfold Scalar.isNonNegative
  rw [Bool.and_eq_true, decide_eq_true_iff]
  refine and_congr_right fun hx => ?_
  rw [le_iff isFinite_zero hx, toRat_zero]

theorem isFinite_of_mem (hlo : lo.isFinite = true) (hhi : hi.isFinite = true) (hge : lo ≤ x)
    (hle : x ≤ hi) : x.isFinite = true := by
  obtain ⟨hlon, hx⟩ := not_isNaN_of_le hge
  rw [le_iff_place hlon hx, place_of_isFinite hlo] at hge
  rw [le_iff_place hx (isNaN_of_isFinite hhi), place_of_isFinite hhi] at hle
  show x.toModel.unpack.isFinite = true
  cases hu : x.toModel.unpack with
  | infinity s =>
    rw [hu] at hge hle
    cases s with
    | positive =>
      rw [place_positive, top_le_iff] at hle
      exact absurd (WithBot.coe_inj.mp hle) WithTop.coe_ne_top
    | negative =>
      rw [place_negative, le_bot_iff] at hge
      exact absurd hge WithBot.coe_ne_bot
  | notANumber =>
    rw [isNaN_iff_unpack.mpr hu] at hx
    cases hx
  | _ => rfl

theorem within_of_mem (hlo : lo.isFinite = true) (hhi : hi.isFinite = true) (hge : lo ≤ x)
    (hle : x ≤ hi) : Within x (toRat lo) (toRat hi) := by
  have hx := isFinite_of_mem hlo hhi hge hle
  exact ⟨hx, (le_iff hlo hx).mp hge, (le_iff hx hhi).mp hle⟩

theorem exists_infinity (hx : x.isNaN = false) (hfin : x.isFinite = false) :
    ∃ s, x.toModel.unpack = .infinity s := by
  have hnan : x.toModel.unpack.isNaN = false := hx
  have hinf : x.toModel.unpack.isFinite = false := hfin
  cases hu : x.toModel.unpack with
  | infinity s => exact ⟨s, rfl⟩
  | _ => simp [hu, UnpackedFloat.isNaN, UnpackedFloat.isFinite] at hnan hinf

theorem not_isNaN_abs (hx : x.isNaN = false) : x.abs.isNaN = false := by
  cases hfin : x.isFinite with
  | true => exact isNaN_of_isFinite (abs_finite hfin).1
  | false =>
    obtain ⟨s, hs⟩ := exists_infinity hx hfin
    show (Float.Model.pack x.toModel.unpack.abs).unpack.isNaN = false
    rw [hs]
    exact congrArg UnpackedFloat.isNaN (unpack_pack_infinity .positive)

theorem not_isNaN_neg (hx : x.isNaN = false) : (-x).isNaN = false := by
  cases hfin : x.isFinite with
  | true => exact isNaN_of_isFinite (neg_finite hfin).1
  | false =>
    obtain ⟨s, hs⟩ := exists_infinity hx hfin
    show (Float.Model.pack x.toModel.unpack.neg).unpack.isNaN = false
    rw [hs]
    exact congrArg UnpackedFloat.isNaN (unpack_pack_infinity (-s))

theorem le_abs_of_not_isFinite (hx : x.isNaN = false) (hy : y.isNaN = false)
    (hfin : y.isFinite = false) : x ≤ y.abs := by
  have habs := not_isNaN_abs hy
  rw [le_iff_place hx habs, place_abs habs hfin]
  exact le_top

theorem neg_abs_le_abs (hx : x.isNaN = false) : -Scalar.abs x ≤ Scalar.abs x := by
  have habs := not_isNaN_abs hx
  cases hfin : x.isFinite with
  | false => exact le_abs_of_not_isFinite (not_isNaN_neg habs) hx hfin
  | true =>
    obtain ⟨hafin, hval⟩ := abs_finite hfin
    obtain ⟨hnfin, hval'⟩ := neg_finite hafin
    have hpos := abs_nonneg (toRat x)
    show -x.abs ≤ x.abs
    rw [le_iff hnfin hafin, hval', hval]
    linarith

theorem abs_le_abs_of_mem (hy : y.isNaN = false) (hge : -Scalar.abs y ≤ x)
    (hle : x ≤ Scalar.abs y) : Scalar.abs x ≤ Scalar.abs y := by
  have hx := (not_isNaN_of_le hle).1
  cases hfin : y.isFinite with
  | false => exact le_abs_of_not_isFinite (not_isNaN_abs hx) hy hfin
  | true =>
    obtain ⟨hafin, hval⟩ := abs_finite hfin
    obtain ⟨hnfin, hval'⟩ := neg_finite hafin
    have hxfin := isFinite_of_mem hnfin hafin hge hle
    obtain ⟨hxafin, hxval⟩ := abs_finite hxfin
    have hlow := (le_iff hnfin hxfin).mp hge
    have hhigh := (le_iff hxfin hafin).mp hle
    show x.abs ≤ y.abs
    rw [hval', hval] at hlow
    rw [hval] at hhigh
    rw [le_iff hxafin hafin, hval, hxval]
    exact abs_le.mpr ⟨hlow, hhigh⟩

theorem le_self (hx : x.isNaN = false) : x ≤ x :=
  (le_iff_place hx hx).mpr le_rfl

theorem le_total_of_not_isNaN (hx : x.isNaN = false) (hy : y.isNaN = false) : x ≤ y ∨ y ≤ x := by
  rw [le_iff_place hx hy, le_iff_place hy hx]
  exact le_total _ _

theorem smaller_le (hy : y.isNaN = false) : Scalar.smaller x y ≤ y := by
  unfold Scalar.smaller
  split
  · assumption
  · split
    · exact le_self hy
    · split
      · rename_i hxy hyx hxx
        rcases le_total_of_not_isNaN (not_isNaN_of_le hxx).1 hy with h | h
        · exact absurd h hxy
        · exact absurd h hyx
      · exact le_self hy

theorem le_larger (hy : y.isNaN = false) : y ≤ Scalar.larger x y := by
  unfold Scalar.larger
  split
  · exact le_self hy
  · split
    · assumption
    · split
      · rename_i hxy hyx hxx
        rcases le_total_of_not_isNaN (not_isNaN_of_le hxx).1 hy with h | h
        · exact absurd h hxy
        · exact absurd h hyx
      · exact le_self hy

theorem clamp?_of_le (h : lo ≤ hi) (x : Float) : ∃ y, Scalar.clamp? x lo hi = some y := by
  unfold Scalar.clamp?
  rw [if_pos h]
  exact ⟨_, rfl⟩

/-- A number that is held between two bounds is one of them, or is left as it is. -/
theorem clamp?_cases (h : Scalar.clamp? x lo hi = some y) :
    lo ≤ hi ∧ (y = lo ∨ y = hi ∨ y = x) := by
  unfold Scalar.clamp? at h
  split at h
  · rename_i hle
    refine ⟨hle, ?_⟩
    simp only [Option.some.injEq] at h
    subst h
    by_cases hxlo : x < lo
    · rw [if_pos hxlo]
      split
      · exact Or.inr (Or.inl rfl)
      · exact Or.inl rfl
    · rw [if_neg hxlo]
      split
      · exact Or.inr (Or.inl rfl)
      · exact Or.inr (Or.inr rfl)
  · cases h

theorem clamp?_mem (h : Scalar.clamp? x lo hi = some y) (hx : x.isNaN = false) :
    lo ≤ y ∧ y ≤ hi := by
  obtain ⟨hle, -⟩ := clamp?_cases h
  obtain ⟨hlo, hhi⟩ := not_isNaN_of_le hle
  unfold Scalar.clamp? at h
  simp only [if_pos hle, Option.some.injEq] at h
  subst h
  by_cases hxlo : x < lo
  · rw [if_pos hxlo]
    split
    · exact ⟨hle, le_self hhi⟩
    · exact ⟨le_self hlo, hle⟩
  · rw [if_neg hxlo]
    split
    · exact ⟨hle, le_self hhi⟩
    · rename_i hxhi
      exact ⟨le_of_not_lt hlo hx hxlo, le_of_not_lt hx hhi hxhi⟩

theorem clamp?_of_isNaN (h : Scalar.clamp? x lo hi = some y) (hx : x.isNaN = true) : y = x := by
  obtain ⟨hle, -⟩ := clamp?_cases h
  unfold Scalar.clamp? at h
  simp only [if_pos hle, if_neg (not_lt_of_isNaN hx lo).1,
    if_neg (not_lt_of_isNaN hx hi).2, Option.some.injEq] at h
  exact h.symm

end Gantry.Number
