import Mathlib
import Gantry.Proofs.Json.RoundTrip
import Gantry.Proofs.Number.Decimal
import Gantry.Proofs.Number.Shortest

/-!
# Decimals in JSON

The literal of a decimal is in proper form and stands for the decimal. It is read by scaling its
digits, which are read as a whole number, by a power of ten.

This does NOT say how well scaling is done.
-/

namespace Gantry.Number

/-- A decimal with few digits, and few places before or after the point. -/
structure Decimal.Short (d : Decimal) : Prop where
  places : -22 ≤ d.exponent
  digits : d.mantissa * 10 ^ (d.exponent + 1).toNat < 2 ^ 53

end Gantry.Number

namespace Gantry.Json

open Number

theorem natValue_eq (ds : List Char) : Literal.natValue ds = Nat.ofDigitChars 10 ds 0 :=
  Nat.ofDigitChars_eq_foldl.symm

theorem natValue_digits (n : ℕ) : Literal.natValue (digits n) = n := by
  rw [natValue_eq]
  exact Nat.ofDigitChars_ten_toDigits

theorem run_digits (n : ℕ) : Literal.Run (digits n) :=
  ⟨Nat.toDigits_ne_nil, fun _ hc => Nat.isDigit_of_mem_toDigits (by decide) (by decide) hc⟩

theorem digits_head {n : ℕ} (hn : n ≠ 0) : (digits n).head? ≠ some '0' := by
  induction n using Nat.strong_induction_on with
  | _ n ih =>
    unfold digits at *
    rcases Nat.lt_or_ge n 10 with hlt | hge
    · rw [Nat.toDigits_of_lt_base hlt]
      intro h
      exact hn (Nat.digitChar_eq_zero.mp (Option.some.inj h))
    · rw [Nat.toDigits_of_base_le (by decide) hge,
        List.head?_append_of_ne_nil _ Nat.toDigits_ne_nil]
      exact ih (n / 10) (by omega) (by omega)

theorem lt_pow_length (n : ℕ) : n < 10 ^ (digits n).length := by
  have hpos : 0 < (digits n).length := List.length_pos_iff.mpr Nat.toDigits_ne_nil
  exact (Nat.length_toDigits_le_iff (by decide) hpos).mp le_rfl

theorem pow_length_le {n : ℕ} (hn : n ≠ 0) : 10 ^ ((digits n).length - 1) ≤ n := by
  by_contra hlt
  rcases Nat.eq_zero_or_pos ((digits n).length - 1) with hone | hpos
  · rw [hone, pow_zero] at hlt
    omega
  · have := (Nat.length_toDigits_le_iff (by decide) hpos).mpr (not_le.mp hlt)
    have hlength : (digits n).length ≤ (digits n).length - 1 := this
    omega

theorem le_ofDigitChars (ds : List Char) (n : ℕ) : n ≤ Nat.ofDigitChars 10 ds n := by
  rw [Nat.ofDigitChars_eq_ofDigitChars_zero]
  have hone : 1 ≤ 10 ^ ds.length := Nat.one_le_pow _ _ (by decide)
  exact (Nat.le_mul_of_pos_left n hone).trans (Nat.le_add_right _ _)

namespace Literal

variable {ds : List Char} {n : ℕ} {l : Literal}

def mantissa (l : Literal) : ℕ :=
  natValue (l.whole ++ l.fraction.getD [])

def places (l : Literal) : ℕ :=
  (l.fraction.getD []).length

def power (l : Literal) : ℤ :=
  match l.exponent with
  | none => 0
  | some e => if e.negative then -natValue e.digits else natValue e.digits

theorem leading_of_lt (h : Nat.ofDigitChars 10 ds n < 2 ^ 64) :
    leading n ds = (Nat.ofDigitChars 10 ds n, 0) := by
  induction ds generalizing n with
  | nil => rfl
  | cons c ds ih =>
    rw [Nat.ofDigitChars_cons] at h ⊢
    have hfits : fits (10 * n + digitValue c) = true :=
      decide_eq_true (lt_of_le_of_lt (le_ofDigitChars ds _) h)
    rw [leading, hfits, if_pos rfl]
    exact ih h

theorem significand_of_lt (h : l.mantissa < 2 ^ 64) :
    l.significand = (l.mantissa, -(l.places : ℤ)) := by
  obtain ⟨negative, whole, fraction, exponent⟩ := l
  unfold mantissa places at *
  rw [natValue_eq, Nat.ofDigitChars_append] at *
  have hwhole := leading_of_lt (lt_of_le_of_lt (le_ofDigitChars (fraction.getD []) _) h)
  cases fraction with
  | none =>
    unfold significand
    simp only [hwhole]
    rfl
  | some ds =>
    have hall := leading_of_lt h
    unfold significand
    simp only [hwhole]
    rw [Option.getD_some] at hall
    simp only [hall, Option.getD_some, Nat.cast_zero, Nat.sub_zero, zero_sub]

theorem magnitude?_of_lt (h : l.mantissa < 2 ^ 64) (hplaces : l.places < 2 ^ 30)
    (hpower : |l.power| < 2 ^ 30) : l.magnitude? = scale? l.mantissa (l.power - l.places) := by
  unfold magnitude?
  rw [significand_of_lt h]
  unfold power at *
  cases he : l.exponent with
  | none =>
    simp only [zero_sub]
  | some e =>
    have htwo : (twoTo 31 : ℕ) = 2 ^ 31 := rfl
    simp only [he] at hpower ⊢
    have hsize : (natValue e.digits : ℤ) < 2 ^ 30 := by
      split at hpower
      · rwa [abs_neg, abs_of_nonneg (by positivity)] at hpower
      · rwa [abs_of_nonneg (by positivity)] at hpower
    rw [if_neg (by rw [htwo]; omega)]
    congr 1
    unfold saturate
    rw [htwo]
    push_cast
    split <;> omega

theorem natValue_append_zeros (ds : List Char) (k : ℕ) :
    natValue (ds ++ List.replicate k '0') = natValue ds * 10 ^ k := by
  rw [natValue_eq, natValue_eq, Nat.ofDigitChars_append, Nat.ofDigitChars_replicate_zero, mul_comm]

theorem natValue_zeros_append (ds : List Char) (k : ℕ) :
    natValue (List.replicate k '0' ++ ds) = natValue ds := by
  rw [natValue_eq, natValue_eq, Nat.ofDigitChars_append, Nat.ofDigitChars_replicate_zero, mul_zero]

variable {d : Decimal}

theorem positional_of_natCast {e : ℕ} (h : d.exponent = e) : d.positional =
    ⟨if d.mantissa = 0 then ['0'] else digits d.mantissa ++ List.replicate e '0', []⟩ := by
  obtain ⟨m, exponent⟩ := d
  subst h
  rfl

/-- The digits of a decimal below one place, with zeros in front as far as they are needed. -/
theorem positional_of_neg {k : ℕ} (h : d.exponent = -((k + 1 : ℕ) : ℤ)) :
    d.positional.whole ++ d.positional.fraction =
        List.replicate (k + 2 - (digits d.mantissa).length) '0' ++ digits d.mantissa ∧
      d.positional.fraction.length = k + 1 := by
  obtain ⟨m, exponent⟩ := d
  subst h
  constructor
  · exact List.take_append_drop _ _
  · show (List.drop _ (_ ++ digits m)).length = _
    rw [List.length_drop, List.length_append, List.length_replicate]
    show (_ + 1 + 1 - (digits m).length + (digits m).length) -
      ((_ + 1 + 1 - (digits m).length + (digits m).length) - (k + 1)) = k + 1
    omega

theorem natValue_positional_of_natCast {e : ℕ} (h : d.exponent = e) :
    natValue (d.positional.whole ++ ['0']) = d.mantissa * 10 ^ (e + 1) := by
  rw [positional_of_natCast h]
  simp only
  split
  · rename_i hm
    rw [hm, zero_mul]
    rfl
  · have hzero : ['0'] = List.replicate 1 '0' := rfl
    rw [hzero, natValue_append_zeros, natValue_append_zeros, natValue_digits, mul_assoc, ← pow_add]

theorem natValue_positional_of_neg {k : ℕ} (h : d.exponent = -((k + 1 : ℕ) : ℤ)) :
    natValue (d.positional.whole ++ d.positional.fraction) = d.mantissa := by
  rw [(positional_of_neg h).1, natValue_zeros_append, natValue_digits]

theorem ofDecimal_of_positional (negative : Bool) {order : ℤ}
    (horder : ((digits d.mantissa).length : ℤ) - 1 + d.exponent = order)
    (h : d.mantissa = 0 ∨ isPositional order = true) : ofDecimal negative d =
      ⟨negative, d.positional.whole,
        some (if d.positional.fraction = [] then ['0'] else d.positional.fraction), none⟩ := by
  subst horder
  exact if_pos h

theorem ofDecimal_of_exponent (negative : Bool) {order : ℤ}
    (horder : ((digits d.mantissa).length : ℤ) - 1 + d.exponent = order)
    (h : ¬ (d.mantissa = 0 ∨ isPositional order = true)) : ofDecimal negative d =
      ⟨negative, (digits d.mantissa).take 1,
        if (digits d.mantissa).length ≤ 1 then none else some ((digits d.mantissa).drop 1),
        some ⟨decide (order < 0), digits order.natAbs⟩⟩ := by
  subst horder
  exact if_neg h

/-- How a literal spells a decimal. -/
inductive Spells (d : Decimal) (l : Literal) : Prop where
  /-- In full, with a zero after the point. -/
  | whole (he : 0 ≤ d.exponent) (hm : l.mantissa = d.mantissa * 10 ^ (d.exponent + 1).toNat)
      (hpower : l.power = 0) (hplaces : l.places = 1) (hsmall : l.mantissa < 10 ^ 17)
  /-- In full, with digits of its own after the point. -/
  | point (he : d.exponent < 0) (hm : l.mantissa = d.mantissa) (hpower : l.power = 0)
      (hplaces : (l.places : ℤ) = -d.exponent)
  /-- With one digit before the point and a power of ten. -/
  | scientific (hm0 : d.mantissa ≠ 0) (hm : l.mantissa = d.mantissa)
      (hpower : l.power = l.places + d.exponent)
      (hplaces : l.places + 1 = (digits d.mantissa).length)
      (horder : l.power < -5 ∨ 16 ≤ l.power)

section Spelling

variable (negative : Bool) {order : ℤ}
  (horder : ((digits d.mantissa).length : ℤ) - 1 + d.exponent = order)
include horder

theorem spells_whole (hpos : d.mantissa = 0 ∨ isPositional order = true) (he : 0 ≤ d.exponent) :
    Spells d (ofDecimal negative d) := by
  rw [ofDecimal_of_positional negative horder hpos]
  obtain ⟨e, he'⟩ := Int.eq_ofNat_of_zero_le he
  have hmantissa : mantissa ⟨negative, d.positional.whole,
      some (if d.positional.fraction = [] then ['0'] else d.positional.fraction), none⟩ =
      d.mantissa * 10 ^ (e + 1) := by
    have hfraction : d.positional.fraction = [] := by
      rw [positional_of_natCast he']
    unfold mantissa
    rw [Option.getD_some, if_pos hfraction]
    exact natValue_positional_of_natCast he'
  have hsmall : d.mantissa * 10 ^ (e + 1) < 10 ^ 17 := by
    rcases hpos with hm | hpos
    · rw [hm, zero_mul]
      positivity
    · unfold isPositional at hpos
      have hbelow := of_decide_eq_true (Bool.and_eq_true_iff.mp hpos).2
      calc d.mantissa * 10 ^ (e + 1)
          < 10 ^ (digits d.mantissa).length * 10 ^ (e + 1) :=
            Nat.mul_lt_mul_of_pos_right (lt_pow_length _) (by positivity)
        _ = 10 ^ ((digits d.mantissa).length + (e + 1)) := (pow_add _ _ _).symm
        _ ≤ 10 ^ 17 := Nat.pow_le_pow_right (by norm_num) (by omega)
  rw [← hmantissa] at hsmall
  refine .whole he ?_ rfl ?_ hsmall
  · rw [he']
    exact hmantissa
  · rw [positional_of_natCast he']
    rfl

theorem spells_point (hpos : d.mantissa = 0 ∨ isPositional order = true) (he : d.exponent < 0) :
    Spells d (ofDecimal negative d) := by
  rw [ofDecimal_of_positional negative horder hpos]
  obtain ⟨k, he'⟩ : ∃ k : ℕ, d.exponent = -((k + 1 : ℕ) : ℤ) :=
    ⟨(-d.exponent - 1).toNat, by omega⟩
  obtain ⟨-, hlength⟩ := positional_of_neg he'
  have hne : d.positional.fraction ≠ [] := by
    intro h
    rw [h] at hlength
    cases hlength
  rw [if_neg hne]
  refine .point he ?_ rfl ?_
  · unfold mantissa
    rw [Option.getD_some]
    exact natValue_positional_of_neg he'
  · unfold places
    rw [Option.getD_some, hlength, he', neg_neg]

theorem spells_scientific (hpos : ¬ (d.mantissa = 0 ∨ isPositional order = true)) :
    Spells d (ofDecimal negative d) := by
  have hlength : 1 ≤ (digits d.mantissa).length := List.length_pos_iff.mpr Nat.toDigits_ne_nil
  have hfraction : (if (digits d.mantissa).length ≤ 1 then none
      else some ((digits d.mantissa).drop 1)).getD [] = (digits d.mantissa).drop 1 := by
    split
    · rename_i hone
      exact (List.drop_eq_nil_of_le hone).symm
    · rfl
  have hpower : (ofDecimal negative d).power = order := by
    rw [ofDecimal_of_exponent negative horder hpos]
    unfold power
    simp only [natValue_digits, decide_eq_true_iff]
    split <;> omega
  have hplaces : (ofDecimal negative d).places + 1 = (digits d.mantissa).length := by
    rw [ofDecimal_of_exponent negative horder hpos]
    unfold places
    rw [hfraction, List.length_drop]
    omega
  obtain ⟨hm0, hlarge⟩ := not_or.mp hpos
  refine .scientific hm0 ?_ (by omega) hplaces ?_
  · rw [ofDecimal_of_exponent negative horder hpos]
    unfold mantissa
    rw [hfraction, List.take_append_drop, natValue_digits]
  · rw [hpower]
    simp only [isPositional, Bool.and_eq_true, decide_eq_true_iff] at hlarge
    omega

end Spelling

theorem spells_ofDecimal (negative : Bool) (d : Decimal) : Spells d (ofDecimal negative d) := by
  obtain ⟨order, horder⟩ : ∃ order, ((digits d.mantissa).length : ℤ) - 1 + d.exponent = order :=
    ⟨_, rfl⟩
  by_cases hpos : d.mantissa = 0 ∨ isPositional order = true
  · rcases le_or_gt 0 d.exponent with he | he
    · exact spells_whole negative horder hpos he
    · exact spells_point negative horder hpos he
  · exact spells_scientific negative horder hpos

theorem Spells.value (h : Spells d l) :
    (l.mantissa : ℚ) * 10 ^ (l.power - l.places) = d.mantissa * 10 ^ d.exponent := by
  cases h with
  | whole he hm hpower hplaces _ =>
    obtain ⟨e, he⟩ := Int.eq_ofNat_of_zero_le he
    have hnat : ((e : ℤ) + 1).toNat = e + 1 := by omega
    have htenth : (10 : ℚ) ^ ((0 : ℤ) - (1 : ℕ)) = 1 / 10 := by norm_num
    rw [hm, hpower, hplaces, he, hnat, htenth, zpow_natCast]
    push_cast
    ring
  | point he hm hpower hplaces =>
    rw [hm, hpower, hplaces, zero_sub, neg_neg]
  | scientific _ hm hpower _ _ =>
    rw [hm, hpower, add_sub_cancel_left]

/-- A literal of moderate size is read by scaling its digits. -/
theorem Spells.magnitude?_eq (h : Spells d l) (hm64 : d.mantissa < 2 ^ 64)
    (hlow : -342 ≤ d.exponent) (hhigh : d.exponent ≤ 310) :
    l.magnitude? = scale? l.mantissa (l.power - l.places) ∧ l.mantissa < 2 ^ 64 ∧
      -342 ≤ l.power - l.places ∧ l.power - l.places ≤ 310 := by
  have hread (hm : l.mantissa < 2 ^ 64) (hplaces : l.places < 1000) (hpower : |l.power| < 2000) :
      l.magnitude? = scale? l.mantissa (l.power - l.places) :=
    magnitude?_of_lt hm (hplaces.trans (by norm_num)) (hpower.trans (by norm_num))
  cases h with
  | whole he hm hpower hplaces hsmall =>
    have h64 : l.mantissa < 2 ^ 64 := hsmall.trans (by norm_num)
    refine ⟨hread h64 (by omega) ?_, h64, by omega, by omega⟩
    rw [hpower]
    norm_num
  | point he hm hpower hplaces =>
    rw [← hm] at hm64
    refine ⟨hread hm64 (by omega) ?_, hm64, by omega, by omega⟩
    rw [hpower]
    norm_num
  | scientific hm0 hm hpower hplaces _ =>
    have hfew : l.places < 20 := by
      by_contra hno
      have hleast := pow_length_le hm0
      rw [← hplaces, Nat.add_sub_cancel] at hleast
      have : 2 ^ 64 < 10 ^ l.places := by
        calc 2 ^ 64 < 10 ^ 20 := by norm_num
          _ ≤ 10 ^ l.places := Nat.pow_le_pow_right (by norm_num) (not_lt.mp hno)
      omega
    rw [← hm] at hm64
    refine ⟨hread hm64 (by omega) ?_, hm64, by omega, by omega⟩
    rw [abs_lt]
    omega

theorem run_zero : Run ['0'] :=
  run_digits 0

theorem Run.append_zeros {ds : List Char} (h : Run ds) (k : ℕ) :
    Run (ds ++ List.replicate k '0') := by
  refine ⟨List.append_ne_nil_of_left_ne_nil h.nonempty _, fun c hc => ?_⟩
  rcases List.mem_append.mp hc with hc | hc
  · exact h.digits c hc
  · rw [List.eq_of_mem_replicate hc]
    decide

theorem Run.zeros_append {ds : List Char} (h : Run ds) (k : ℕ) :
    Run (List.replicate k '0' ++ ds) := by
  refine ⟨List.append_ne_nil_of_right_ne_nil _ h.nonempty, fun c hc => ?_⟩
  rcases List.mem_append.mp hc with hc | hc
  · rw [List.eq_of_mem_replicate hc]
    decide
  · exact h.digits c hc

theorem whole_of_neg {k : ℕ} (h : d.exponent = -((k + 1 : ℕ) : ℤ)) :
    d.positional.whole ≠ [] ∧
      (d.positional.whole.head? = some '0' → d.positional.whole = ['0']) := by
  obtain ⟨hdigits, hfraction⟩ := positional_of_neg h
  have hlength := congrArg List.length hdigits
  rw [List.length_append, List.length_append, List.length_replicate, hfraction] at hlength
  have hne : d.positional.whole ≠ [] := by
    intro hnil
    rw [hnil, List.length_nil] at hlength
    omega
  refine ⟨hne, fun hhead => ?_⟩
  have hfull := hhead
  rw [← List.head?_append_of_ne_nil _ hne, hdigits] at hfull
  rcases Nat.lt_or_ge (digits d.mantissa).length (k + 2) with hshort | hlong
  · -- With a zero in front the digits before the point are that zero.
    obtain ⟨c, hc⟩ := List.length_eq_one_iff.mp (show d.positional.whole.length = 1 by omega)
    rw [hc] at hhead ⊢
    rw [Option.some.inj hhead]
  · rw [Nat.sub_eq_zero_of_le hlong] at hfull
    have hm : d.mantissa ≠ 0 := by
      intro hzero
      rw [hzero] at hlong
      have hone : (digits 0).length = 1 := rfl
      omega
    exact absurd hfull (digits_head hm)

theorem run_positional (d : Decimal) : Run d.positional.whole ∧
    (d.positional.whole.head? = some '0' → d.positional.whole = ['0']) ∧
      ∀ c ∈ d.positional.fraction, c.isDigit = true := by
  rcases le_or_gt 0 d.exponent with he | he
  · obtain ⟨e, he⟩ := Int.eq_ofNat_of_zero_le he
    rw [positional_of_natCast he]
    by_cases hm : d.mantissa = 0
    · simp only [if_pos hm]
      exact ⟨run_zero, fun _ => trivial, nofun⟩
    · simp only [if_neg hm]
      refine ⟨(run_digits _).append_zeros e, fun hhead => ?_, nofun⟩
      rw [List.head?_append_of_ne_nil _ (run_digits _).nonempty] at hhead
      exact absurd hhead (digits_head hm)
  · obtain ⟨k, he⟩ : ∃ k : ℕ, d.exponent = -((k + 1 : ℕ) : ℤ) :=
      ⟨(-d.exponent - 1).toNat, by omega⟩
    obtain ⟨hne, hleading⟩ := whole_of_neg he
    have hrun := (run_digits d.mantissa).zeros_append (k + 2 - (digits d.mantissa).length)
    rw [← (positional_of_neg he).1] at hrun
    exact ⟨⟨hne, fun c hc => hrun.digits c (List.mem_append_left _ hc)⟩, hleading,
      fun c hc => hrun.digits c (List.mem_append_right _ hc)⟩

theorem wellFormed_ofDecimal (negative : Bool) (d : Decimal) :
    (ofDecimal negative d).WellFormed := by
  obtain ⟨order, horder⟩ : ∃ order, ((digits d.mantissa).length : ℤ) - 1 + d.exponent = order :=
    ⟨_, rfl⟩
  by_cases hpos : d.mantissa = 0 ∨ isPositional order = true
  · obtain ⟨hwhole, hleading, hfraction⟩ := run_positional d
    rw [ofDecimal_of_positional negative horder hpos]
    refine ⟨hwhole, hleading, ?_, nofun⟩
    rintro ds hds
    cases hds
    split
    · exact run_zero
    · rename_i hne
      exact ⟨hne, hfraction⟩
  · obtain ⟨hne, hrun⟩ := run_digits d.mantissa
    rw [ofDecimal_of_exponent negative horder hpos]
    generalize digits d.mantissa = ds at *
    cases ds with
    | nil => exact absurd rfl hne
    | cons c ds =>
      refine ⟨⟨List.cons_ne_nil _ _, ?_⟩, ?_, ?_, ?_⟩
      · intro b hb
        exact hrun b (List.mem_of_mem_take hb)
      · intro hc
        cases hc
        rfl
      · intro fs hfs
        simp only at hfs
        split at hfs
        · cases hfs
        · rename_i hlong
          cases hfs
          cases ds with
          | nil => exact absurd (Nat.le_refl 1) hlong
          | cons b ds =>
            exact ⟨List.cons_ne_nil _ _, fun a ha => hrun a (List.mem_cons_of_mem _ ha)⟩
      · intro e he
        cases he
        exact run_digits _

/-- A short decimal is spelled by a number of 53 bits, over a power of ten. -/
theorem Spells.of_short (h : Spells d l) (hd : d.Short) : l.mantissa < 2 ^ 53 ∧
    ∃ j : ℕ, 1 ≤ j ∧ j ≤ 22 ∧ l.power - l.places = -(j : ℤ) := by
  obtain ⟨hlow, hdigits⟩ := hd
  have hbelow (he : d.exponent < 0) : d.mantissa < 2 ^ 53 := by
    have hnat : (d.exponent + 1).toNat = 0 := by omega
    rwa [hnat, pow_zero, mul_one] at hdigits
  cases h with
  | whole he hm hpower hplaces _ =>
    rw [hm, hpower, hplaces]
    exact ⟨hdigits, 1, by norm_num, by norm_num, by norm_num⟩
  | point he hm hpower hplaces =>
    rw [hm, hpower]
    exact ⟨hbelow he, l.places, by omega, by omega, by ring⟩
  | scientific hm0 hm hpower hplaces horder =>
    have hneg : d.exponent < 0 := by
      by_contra hno
      -- Without places after the point the number has more than 53 bits.
      have hleast := pow_length_le hm0
      rw [← hplaces, Nat.add_sub_cancel] at hleast
      have hall : 10 ^ (l.places + (d.exponent + 1).toNat) ≤
          d.mantissa * 10 ^ (d.exponent + 1).toNat := by
        rw [pow_add]
        exact Nat.mul_le_mul_right _ hleast
      have : 2 ^ 53 < 10 ^ (l.places + (d.exponent + 1).toNat) := by
        calc 2 ^ 53 < 10 ^ 16 := by norm_num
          _ ≤ 10 ^ (l.places + (d.exponent + 1).toNat) :=
            Nat.pow_le_pow_right (by norm_num) (by omega)
      omega
    rw [hm]
    exact ⟨hbelow hneg, (-d.exponent).toNat, by omega, by omega, by omega⟩

theorem wellFormed_ofNat (n : ℕ) : (ofNat n).WellFormed := by
  refine ⟨run_digits n, fun hhead => ?_, nofun, nofun⟩
  rcases eq_or_ne n 0 with rfl | hn
  · rfl
  · exact absurd hhead (digits_head hn)

end Literal

theorem wellFormed_ofFloat (x : Float) : WellFormed (ofFloat x) := by
  unfold ofFloat
  split
  · exact .number (Literal.wellFormed_ofDecimal _ _)
  · exact .null

theorem toByte?_ofNat (b : UInt8) : toByte? (ofNat b.toNat) = some b := by
  have hvalue : Literal.natValue (Literal.ofNat b.toNat).whole = b.toNat := natValue_digits _
  have hbyte : b.toNat.toUInt8 = b := UInt8.ofNat_toNat
  unfold toByte? ofNat Literal.toByte?
  simp only
  rw [hvalue, hbyte, if_pos b.toNat_lt]
  rfl

end Gantry.Json
