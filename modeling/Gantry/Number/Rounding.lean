/-!
# Rounding a quotient

A quotient of naturals rounded to the nearest whole number, a half to the even neighbour.
-/

namespace Gantry.Number

/-- `num / den` to the nearest whole number, a half to the even neighbour. -/
def roundEven (num den : Nat) : Nat :=
  let q := num / den
  let r := num % den
  if 2 * r < den then q
  else if den < 2 * r then q + 1
  else if q % 2 = 0 then q else q + 1

@[simp] theorem roundEven_mul (q den : Nat) (h : 0 < den) : roundEven (q * den) den = q := by
  simp [roundEven, h]

end Gantry.Number
