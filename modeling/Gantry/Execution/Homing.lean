import Gantry.Execution.Wait
import Gantry.Machine.Move

/-!
# Homing of one axis

The axis travels to physical zero, gives up its offset, backs off, and creeps back to zero. The
shutdown flag is read after the first and after the last leg.
-/

namespace Gantry

variable {α : Type} [Scalar α]

/-- A move of homing. -/
inductive Leg where
  /-- To physical zero. -/
  | approach
  /-- A little away from it. -/
  | backOff
  /-- Slowly back. -/
  | creep
deriving DecidableEq, Repr

def Leg.speed : Leg → α
  | approach => 0.01
  | backOff => 0.01
  | creep => 0.001

def backOffDistance : α :=
  0.002

/-- Homing of an axis, by what is done next. -/
inductive Homing (α : Type) where
  /-- Looks where physical zero is in virtual coordinates. -/
  | locate
  /-- Plans a leg. -/
  | start (leg : Leg) (target : α)
  /-- Waits until a leg is done. -/
  | travel (leg : Leg) (wait : Wait)
  /-- Reads the shutdown flag after a leg. -/
  | check (leg : Leg)
  /-- Clears the offset. -/
  | release
deriving DecidableEq, Repr

namespace Homing

inductive Outcome (α : Type) where
  | going (h : Homing α)
  /-- The axis is homed. -/
  | done
  /-- Shutdown was requested. -/
  | interrupted

def afterLeg : Leg → Homing α
  | .approach => .check .approach
  | .backOff => .start .creep 0.0
  | .creep => .check .creep

/-- What follows where shutdown is not requested after a leg. -/
def afterCheck : Leg → Outcome α
  | .approach => .going .release
  | .backOff => .going (.start .creep 0.0)
  | .creep => .done

def step (shutdown : Bool) (m : Machine α) (i : AxisId) : Homing α → Machine α × Outcome α
  | locate => (m, .going (.start .approach ((m.axis i).toVirtual 0.0)))
  | start leg target =>
    ((m.setTarget (PerAxis.single i target) (some leg.speed)).1, .going (.travel leg .flag))
  | travel leg wait =>
    (m, .going (match wait.step .stopped shutdown m with
      | some wait => .travel leg wait
      | none => afterLeg leg))
  | check leg => (m, if shutdown then .interrupted else afterCheck leg)
  | release => (m.clearOffset i, .going (.start .backOff backOffDistance))

def isAsleep : Homing α → Bool
  | travel _ .nap => true
  | _ => false

/-- How many steps are left at most. -/
def rank : Homing α → Nat
  | check .creep => 1
  | travel .creep w => 2 + w.rank
  | start .creep _ => 5
  | check .backOff => 6
  | travel .backOff w => 6 + w.rank
  | start .backOff _ => 9
  | release => 10
  | check .approach => 11
  | travel .approach w => 12 + w.rank
  | start .approach _ => 15
  | locate => 16

omit [Scalar α] in
theorem rank_pos (h : Homing α) : 0 < h.rank := by
  cases h with
  | travel leg w => cases leg <;> simp only [rank] <;> omega
  | check leg => cases leg <;> simp [rank]
  | start leg _ => cases leg <;> simp [rank]
  | _ => simp [rank]

theorem rank_of_step {shutdown : Bool} {m n : Machine α} {i : AxisId} {h k : Homing α}
    (ha : h.isAsleep = false) (hs : h.step shutdown m i = (n, .going k)) : k.rank < h.rank := by
  cases h with
  | locate =>
    simp only [step, Prod.mk.injEq, Outcome.going.injEq] at hs
    simp [← hs.2, rank]
  | start leg target =>
    simp only [step, Prod.mk.injEq, Outcome.going.injEq] at hs
    cases leg <;> simp [← hs.2, rank, Wait.rank]
  | release =>
    simp only [step, Prod.mk.injEq, Outcome.going.injEq] at hs
    simp [← hs.2, rank]
  | check leg =>
    cases shutdown <;> cases leg <;>
      simp only [step, afterCheck, Bool.false_eq_true, ite_true, ite_false, Prod.mk.injEq,
        Outcome.going.injEq, reduceCtorEq, and_false] at hs <;>
      simp [← hs.2, rank]
  | travel leg w =>
    simp only [step, Prod.mk.injEq, Outcome.going.injEq] at hs
    have hw : w ≠ .nap := fun hw => by simp [hw, isAsleep] at ha
    rw [← hs.2]
    cases hv : w.step .stopped shutdown m with
    | none => cases leg <;> simp +arith [afterLeg, rank]
    | some v =>
      have := Wait.rank_of_step hw hv
      cases leg <;> simp [rank, this]

end Homing

end Gantry
