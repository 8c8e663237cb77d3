import Mathlib
import Gantry.Number.Layout
import Gantry.Toml.Scalar
import Gantry.Proofs.Number.Reading
import Gantry.Proofs.Text.Run

/-!
# Floats in TOML

A finite number is written with its shortest digits in full, and with a point whether or not
digits are left after it. It is read as the same number: as a float, not as an integer and not as
a date, and with its sign even where it is zero.
-/

namespace Gantry.Toml

open Number
open Json.Literal (Run)

variable {s ws fs : List Char} {c : Char} {x : Float}

theorem grouped?_of_run (h : Run s) : grouped? Char.isDigit s = some s := by
  obtain ⟨hne, hdigits⟩ := h
  induction s with
  | nil => exact absurd rfl hne
  | cons c s ih =>
    have hc : c.isDigit = true := hdigits c List.mem_cons_self
    cases s with
    | nil => exact if_pos hc
    | cons d s =>
      have hd : d ≠ '_' := by
        rintro rfl
        exact absurd (hdigits '_' (by simp)) (by decide)
      rw [grouped?, if_pos hc, ih (List.cons_ne_nil _ _)
        (fun b hb => hdigits b (List.mem_cons_of_mem _ hb))]
      · rfl
      · exact hd

theorem grouped?_of_mem {isDigit : Char → Bool} (hc : isDigit c = false) (hblank : c ≠ '_')
    (h : c ∈ s) : grouped? isDigit s = none := by
  fun_induction grouped? isDigit s with
  | case1 => rfl
  | case2 d hd => exact absurd (List.mem_singleton.mp h).symm (Text.ne_of_kind hd hc)
  | case3 => rfl
  | case4 d r hd ih =>
    have hcd : c ≠ d := (Text.ne_of_kind hd hc).symm
    have hr : c ∈ r := by simpa [hcd, hblank] using h
    rw [ih hr]
    rfl
  | case5 => rfl
  | case6 d e r _ hd ih =>
    have hcd : c ≠ d := (Text.ne_of_kind hd hc).symm
    have hr : c ∈ e :: r := by simpa [hcd] using h
    rw [ih hr]
    rfl
  | case7 => rfl

theorem decimalDigits?_of_run (h : Run s) (hleading : s.head? = some '0' → s = ['0']) :
    decimalDigits? s = some s := by
  unfold decimalDigits?
  rw [grouped?_of_run h]
  simp only [bind, Option.bind]
  split
  · exact absurd (hleading rfl) (by simp)
  · rfl

theorem decimalDigits?_of_point (h : '.' ∈ s) : decimalDigits? s = none := by
  unfold decimalDigits?
  rw [grouped?_of_mem (by decide) (by decide) h]
  rfl

theorem integer?_of_point (h : '.' ∈ s) : integer? s = none := by
  have hbase (base : ℕ) (isDigit : Char → Bool) (hpoint : isDigit '.' = false) {r : List Char}
      (hr : '.' ∈ r) : ofBase? base isDigit r = none := by
    unfold ofBase?
    rw [grouped?_of_mem hpoint (by decide) hr]
    rfl
  unfold integer?
  split
  · exact hbase 16 isHexDigit (by decide) (by simpa using h)
  · exact hbase 8 isOctalDigit (by decide) (by simpa using h)
  · exact hbase 2 isBinaryDigit (by decide) (by simpa using h)
  · rw [decimalDigits?_of_point (by simpa using h)]
    rfl
  · rw [decimalDigits?_of_point (by simpa using h)]
    rfl
  · rw [decimalDigits?_of_point h]
    rfl

theorem isDatetime_eq_false (hminus : '-' ∉ s.tail) (hcolon : ':' ∉ s) : isDatetime s = false := by
  have hdate : date? s = none := by
    unfold date?
    split
    · exact absurd (by simp) hminus
    · rfl
  have htime : time? s = none := by
    unfold time?
    split
    · exact absurd (by simp) hcolon
    · rfl
  rw [isDatetime, hdate, htime]

/-- Digits with a point. -/
structure Pointed (ws fs : List Char) : Prop where
  whole : Run ws
  leading : ws.head? = some '0' → ws = ['0']
  fraction : Run fs

theorem Pointed.mem (h : Pointed ws fs) (hc : c ∈ ws ++ '.' :: fs) :
    c.isDigit = true ∨ c = '.' := by
  rcases List.mem_append.mp hc with hc | hc
  · exact Or.inl (h.whole.digits c hc)
  · rcases List.mem_cons.mp hc with hc | hc
    · exact Or.inr hc
    · exact Or.inl (h.fraction.digits c hc)

theorem Pointed.not_mem (h : Pointed ws fs) (hdigit : c.isDigit = false) (hpoint : c ≠ '.') :
    c ∉ ws ++ '.' :: fs := by
  intro hc
  rcases h.mem hc with hc | hc
  · rw [hdigit] at hc
    cases hc
  · exact hpoint hc

theorem decimalFloat?_of_pointed (h : Pointed ws fs) (negative : Bool)
    (hfin : (ofDigits (ws ++ fs) (-(fs.length : ℤ))).isInf = false) :
    decimalFloat? negative (ws ++ '.' :: fs) =
      some (some (signed negative (ofDigits (ws ++ fs) (-(fs.length : ℤ))))) := by
  have hmark : ∀ c ∈ ws ++ '.' :: fs, (!isPowerMark c) = true := by
    intro c hc
    have he : c ≠ 'e' := by
      rintro rfl
      exact h.not_mem (by decide) (by decide) hc
    have hE : c ≠ 'E' := by
      rintro rfl
      exact h.not_mem (by decide) (by decide) hc
    simp [isPowerMark, he, hE]
  have hpoint : ∀ c ∈ ws, (c != '.') = true := by
    intro c hc
    rw [bne_iff_ne]
    rintro rfl
    exact absurd (h.whole.digits '.' hc) (by decide)
  unfold decimalFloat?
  simp only [List.takeWhile_eq_self_iff.mpr hmark, List.dropWhile_eq_nil_iff.mpr hmark,
    List.takeWhile_append_of_pos hpoint, List.dropWhile_append_of_pos hpoint]
  rw [List.takeWhile_cons_of_neg (by decide), List.dropWhile_cons_of_neg (by decide),
    List.append_nil, decimalDigits?_of_run h.whole h.leading]
  simp only [bind, Option.bind, grouped?_of_run h.fraction, Option.getD_none, zero_sub]
  rw [if_neg (by rw [hfin]; decide)]
  rfl

theorem unsignedFloat?_of_pointed (h : Pointed ws fs) (negative : Bool)
    (hfin : (ofDigits (ws ++ fs) (-(fs.length : ℤ))).isInf = false) :
    unsignedFloat? negative (ws ++ '.' :: fs) =
      some (some (signed negative (ofDigits (ws ++ fs) (-(fs.length : ℤ))))) := by
  have hpoint : '.' ∈ ws ++ '.' :: fs := by simp
  have hspecial : specialFloat? negative (ws ++ '.' :: fs) = none := by
    unfold specialFloat?
    rw [if_neg (fun hinf => absurd (hinf ▸ hpoint) (by decide)),
      if_neg (fun hnan => absurd (hnan ▸ hpoint) (by decide))]
  rw [unsignedFloat?, hspecial, Option.none_or, decimalFloat?_of_pointed h negative hfin]

theorem float?_of_pointed (h : Pointed ws fs) (negative : Bool)
    (hfin : (ofDigits (ws ++ fs) (-(fs.length : ℤ))).isInf = false) :
    float? ((if negative then ['-'] else []) ++ (ws ++ '.' :: fs)) =
      some (some (signed negative (ofDigits (ws ++ fs) (-(fs.length : ℤ))))) := by
  have hread := unsignedFloat?_of_pointed h negative hfin
  cases negative with
  | true => exact hread
  | false =>
    rw [if_neg (by decide), List.nil_append]
    unfold float?
    split
    · rename_i heq
      exact absurd (heq ▸ List.mem_cons_self) (h.not_mem (c := '+') (by decide) (by decide))
    · rename_i heq
      exact absurd (heq ▸ List.mem_cons_self) (h.not_mem (c := '-') (by decide) (by decide))
    · exact hread

theorem scalar?_of_pointed (h : Pointed ws fs) (negative : Bool)
    (hfin : (ofDigits (ws ++ fs) (-(fs.length : ℤ))).isInf = false) :
    scalar? ((if negative then ['-'] else []) ++ (ws ++ '.' :: fs)) =
      some (.float (some (signed negative
        (ofDigits (ws ++ fs) (-(fs.length : ℤ)))))) := by
  have hfloat := float?_of_pointed h negative hfin
  have hpoint : '.' ∈ (if negative then ['-'] else []) ++ (ws ++ '.' :: fs) := by simp
  have hdate : isDatetime ((if negative then ['-'] else []) ++ (ws ++ '.' :: fs)) =
      false := by
    apply isDatetime_eq_false
    · cases negative with
      | true => exact h.not_mem (by decide) (by decide)
      | false =>
        exact fun hmem => h.not_mem (c := '-') (by decide) (by decide) (List.mem_of_mem_tail hmem)
    · have hcolon := h.not_mem (c := ':') (by decide) (by decide)
      cases negative <;> simpa using hcolon
  generalize (if negative then ['-'] else []) ++ (ws ++ '.' :: fs) = s at *
  unfold scalar?
  rw [if_neg (fun htrue => absurd (htrue ▸ hpoint) (by decide)),
    if_neg (fun hfalse => absurd (hfalse ▸ hpoint) (by decide)), if_neg (by rw [hdate]; decide),
    integer?_of_point hpoint, hfloat]
  rfl

def places (text : Positional) : List Char :=
  if text.fraction = [] then ['0'] else text.fraction

def numeral (x : Float) : List Char :=
  let exact := Dyadic.ofFloat x
  let text := (shortest exact .up).positional
  (if exact.negative then ['-'] else []) ++ (text.whole ++ '.' :: places text)

theorem pointed_positional (d : Decimal) : Pointed d.positional.whole (places d.positional) := by
  obtain ⟨hwhole, hleading, hfraction⟩ := Json.Literal.run_positional d
  refine ⟨hwhole, hleading, ?_⟩
  unfold places
  split
  · exact Json.Literal.run_zero
  · rename_i hne
    exact ⟨hne, hfraction⟩

/-- The digits stand for the decimal, and there are only as many places as it has. -/
theorem value_positional (d : Decimal) :
    (natOfDigits (d.positional.whole ++ places d.positional) : ℚ) *
        10 ^ (-((places d.positional).length : ℤ)) = d.mantissa * 10 ^ d.exponent ∧
      ((places d.positional).length : ℤ) ≤ max 1 (-d.exponent) := by
  rcases le_or_gt 0 d.exponent with he | he
  · obtain ⟨e, he⟩ := Int.eq_ofNat_of_zero_le he
    have hplaces : places d.positional = ['0'] := by
      rw [Json.Literal.positional_of_natCast he]
      rfl
    have hdigits : natOfDigits (d.positional.whole ++ ['0']) = d.mantissa * 10 ^ (e + 1) :=
      Json.Literal.natValue_positional_of_natCast he
    rw [hplaces, hdigits, he, zpow_natCast]
    refine ⟨?_, le_max_left _ _⟩
    rw [List.length_singleton, Nat.cast_one, zpow_neg_one]
    push_cast
    ring
  · obtain ⟨k, he⟩ : ∃ k : ℕ, d.exponent = -((k + 1 : ℕ) : ℤ) :=
      ⟨(-d.exponent - 1).toNat, by omega⟩
    obtain ⟨-, hlength⟩ := Json.Literal.positional_of_neg he
    have hplaces : places d.positional = d.positional.fraction := by
      refine if_neg fun hnil => ?_
      rw [hnil] at hlength
      cases hlength
    have hdigits : natOfDigits (d.positional.whole ++ d.positional.fraction) = d.mantissa :=
      Json.Literal.natValue_positional_of_neg he
    rw [hplaces, hdigits, hlength, he, neg_neg]
    exact ⟨rfl, le_max_right _ _⟩

theorem ofDigits_positional (h : x.toBits.toNat < infinityBits) {text : Positional}
    (htext : (shortest (Dyadic.ofFloat x) .up).positional = text) :
    ofDigits (text.whole ++ places text) (-((places text).length : ℤ)) = x := by
  subst htext
  rcases Nat.eq_zero_or_pos x.toBits.toNat with hzero | hpos
  · have hx : x = 0.0 := eq_of_toBits (hzero.trans (by decide +kernel))
    subst hx
    decide +kernel
  · have hx := isPositive_iff_toBits.mpr ⟨hpos, h⟩
    obtain ⟨hm, hlast, -⟩ := bounds_of_isPositive hx
    obtain ⟨hm53, hleast, -⟩ := full_of_isPositive hx
    obtain ⟨-, -, hlow, -⟩ := inside_shortest .up hm hm53 hleast hlast
    have hpointed := pointed_positional (shortest (Dyadic.ofFloat x) .up)
    obtain ⟨hvalue, hplaces⟩ := value_positional (shortest (Dyadic.ofFloat x) .up)
    refine ofDigits_eq hx .up (fun c hc => ?_) (by omega) hvalue
    rcases List.mem_append.mp hc with hc | hc
    · exact hpointed.whole.digits c hc
    · exact hpointed.fraction.digits c hc

theorem scalar?_numeral (h : x.isFinite = true) : scalar? (numeral x) = some (.float (some x)) := by
  have hread {y : Float} (hy : y.toBits.toNat < infinityBits) (negative : Bool) {text : Positional}
      (htext : (shortest (Dyadic.ofFloat y) .up).positional = text) :
      scalar? ((if negative then ['-'] else []) ++ (text.whole ++ '.' :: places text)) =
        some (.float (some (signed negative y))) := by
    have hvalue := ofDigits_positional hy htext
    have hpointed := pointed_positional (shortest (Dyadic.ofFloat y) .up)
    rw [htext] at hpointed
    have hfin : (ofDigits (text.whole ++ places text) (-((places text).length : ℤ))).isInf =
        false := by
      rw [hvalue]
      exact isInf_of_isFinite (isFinite_of_toBits hy)
    rw [scalar?_of_pointed hpointed negative hfin, hvalue]
  -- A number with a sign is written with the digits of its negative, zero included.
  rcases exists_neg_of_isFinite h with hlt | ⟨y, hlt, rfl⟩
  · unfold numeral
    simp only [negative_of_lt hlt]
    exact hread hlt false rfl
  · unfold numeral
    rw [ofFloat_neg hlt]
    exact hread hlt true rfl

example : numeral (-1.5e-3) = "-0.0015".toList ∧ numeral 3e5 = "300000.0".toList := by
  decide +kernel

end Gantry.Toml
