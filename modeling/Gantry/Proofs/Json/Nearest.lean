import Mathlib
import Gantry.Proofs.Json.Reread
import Gantry.Proofs.Number.Reading

/-!
# Literals read exactly

A reader that takes the number nearest to the decimal of a literal restores every finite number from
the literal that is written for it, the sign of a zero included.
-/

namespace Gantry.Json.Literal

open Number

variable {l : Literal} {x : Float}

/-- The number nearest to the decimal that a literal stands for; none where it overflows. -/
def nearest? (l : Literal) : Option Float :=
  let x := signed l.negative (ofDigits (l.whole ++ l.fraction.getD []) (l.power - l.places))
  if x.isInf then none else some x

theorem WellFormed.digits (h : l.WellFormed) :
    ∀ c ∈ l.whole ++ l.fraction.getD [], c.isDigit = true := by
  intro c hc
  rcases List.mem_append.mp hc with hc | hc
  · exact h.whole.digits c hc
  · cases hf : l.fraction with
    | none =>
      rw [hf] at hc
      cases hc
    | some ds =>
      rw [hf] at hc
      exact (h.fraction ds hf).digits c hc

theorem ofDigits_ofDecimal (hx : x.toBits.toNat < infinityBits) (negative : Bool)
    (hl : ofDecimal negative (shortest (Dyadic.ofFloat x) .even) = l) :
    ofDigits (l.whole ++ l.fraction.getD []) (l.power - l.places) = x := by
  subst hl
  rcases Nat.eq_zero_or_pos x.toBits.toNat with hzero | hpos
  · have hx : x = 0.0 := eq_of_toBits (hzero.trans (by decide +kernel))
    subst hx
    cases negative <;> decide +kernel
  · have hx := isPositive_iff_toBits.mpr ⟨hpos, hx⟩
    obtain ⟨hm, hlast, -⟩ := bounds_of_isPositive hx
    obtain ⟨hm53, hleast, -⟩ := full_of_isPositive hx
    obtain ⟨-, hsize, hlow, hhigh⟩ := inside_shortest .even hm hm53 hleast hlast
    have hspells := spells_ofDecimal negative (shortest (Dyadic.ofFloat x) .even)
    obtain ⟨-, -, hplaces, -⟩ := hspells.magnitude?_eq hsize hlow hhigh
    exact ofDigits_eq hx .even (wellFormed_ofDecimal _ _).digits (by omega) hspells.value

theorem nearest?_ofFloat (h : x.isFinite = true) : nearest? (ofFloat x) = some x := by
  have hread {y : Float} (hy : y.toBits.toNat < infinityBits) (negative : Bool)
      (hfinite : (signed negative y).isFinite = true) :
      nearest? (ofDecimal negative (shortest (Dyadic.ofFloat y) .even)) =
        some (signed negative y) := by
    have hinf : ¬ (signed negative y).isInf = true := by
      rw [isInf_of_isFinite hfinite]
      exact Bool.false_ne_true
    unfold nearest?
    rw [ofDigits_ofDecimal hy negative rfl, negative_ofDecimal]
    exact if_neg hinf
  -- A number with a sign is written with the digits of its negative, zero included.
  rcases exists_neg_of_isFinite h with hlt | ⟨y, hlt, rfl⟩
  · unfold ofFloat
    simp only [negative_of_lt hlt]
    exact hread hlt false h
  · unfold ofFloat
    rw [ofFloat_neg hlt]
    exact hread hlt true h

end Gantry.Json.Literal
