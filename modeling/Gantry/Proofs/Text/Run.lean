import Mathlib.Data.List.TakeWhile

/-!
# Runs at the head of a text

What is read as far as characters of one kind go is read up to the first character of another kind.
-/

namespace Gantry.Text

variable {α : Type} {p : α → Bool} {cs rest : List α}

theorem ne_of_kind {c d : α} (hc : p c = true) (hd : p d = false) : c ≠ d := by
  rintro rfl
  rw [hd] at hc
  cases hc

/-- No run of these characters goes on with this text. -/
def Stops (p : α → Bool) (rest : List α) : Prop :=
  ∀ c r, rest = c :: r → p c = false

theorem stops_nil : Stops p [] := nofun

theorem stops_cons {c : α} (h : p c = false) (r : List α) : Stops p (c :: r) := by
  intro d t hd
  cases hd
  exact h

theorem run_append (hp : ∀ c ∈ cs, p c = true) (hr : Stops p rest) :
    (cs ++ rest).takeWhile p = cs ∧ (cs ++ rest).dropWhile p = rest := by
  rw [List.takeWhile_append_of_pos hp, List.dropWhile_append_of_pos hp]
  cases rest with
  | nil => exact ⟨List.append_nil cs, rfl⟩
  | cons c r =>
    have hc : ¬ p c = true := by
      rw [hr c r rfl]
      decide
    rw [List.takeWhile_cons_of_neg hc, List.dropWhile_cons_of_neg hc, List.append_nil]
    exact ⟨rfl, rfl⟩

end Gantry.Text
