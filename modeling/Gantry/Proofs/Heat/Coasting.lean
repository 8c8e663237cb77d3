import Mathlib
import Gantry.Proofs.Heat.Carry
import Gantry.Proofs.Machine.Reachable

/-!
# Ticks without heating

A body that is switched off keeps to its surroundings or falls below them, by the length of its
ticks. Where they are brief at the highest temperature that it carries on to, they are brief at all
that it still gets to. Where no tick is brief, the part of its excess that a body carries on to
lose grows by a least amount in every tick, until a tick takes more than there is.
-/

namespace Gantry

namespace Body

open BodyConfig

/-- The body after some more ticks, the first of them at `now`. -/
noncomputable def coast (b : Body ℝ) (step now : ℝ) : ℕ → Except BoundsFault (Body ℝ)
  | 0 => .ok b
  | n + 1 => do
    let d ← b.coast step now n
    d.run (now + n * step)

variable {b d e : Body ℝ} {step now : ℝ}

structure Follows (d b : Body ℝ) (step later : ℝ) : Prop where
  ticking : d.Ticking step later
  config : d.config = b.config
  setPoint : d.setPoint = 0

theorem Follows.run (hd : d.Follows b step now) (he : d.run now = .ok e) :
    e.Follows b step (now + step) := by
  obtain ⟨control, power, hadv⟩ := advances_of_run he
  exact ⟨hd.ticking.run he, hadv.config.trans hd.config, hadv.setPoint.trans hd.setPoint⟩

theorem coast_succ {n : ℕ} (h : b.coast step now (n + 1) = .ok e) :
    ∃ d, b.coast step now n = .ok d ∧ d.run (now + n * step) = .ok e :=
  ok_of_bind h

theorem coast_of_run {n : ℕ} (h : b.coast step now n = .ok d)
    (he : d.run (now + n * step) = .ok e) : b.coast step now (n + 1) = .ok e := by
  unfold coast
  rw [h]
  exact he

theorem next_tick (now step : ℝ) (n : ℕ) : now + n * step + step = now + (n + 1 : ℕ) * step := by
  push_cast
  ring

theorem Ticking.follows (h : b.Ticking step now) (hoff : b.setPoint = 0) (n : ℕ)
    (hd : b.coast step now n = .ok d) : d.Follows b step (now + n * step) := by
  induction n generalizing d with
  | zero =>
    cases hd
    simpa using Follows.mk h rfl hoff
  | succ n ih =>
    obtain ⟨c, hc, hrun⟩ := coast_succ hd
    have := (ih hc).run hrun
    rwa [next_tick] at this

theorem Ticking.exists_next (h : b.Ticking step now) (hoff : b.setPoint = 0) {n : ℕ}
    (hd : b.coast step now n = .ok d) :
    ∃ e, d.run (now + n * step) = .ok e ∧ b.coast step now (n + 1) = .ok e := by
  have hpower : 0 ≤ d.config.hPower := (h.follows hoff n hd).ticking.physical.hPower
  obtain ⟨e, he⟩ := run_ok hpower (now + n * step)
  exact ⟨e, he, coast_of_run hd he⟩

theorem Ticking.exists_coast (h : b.Ticking step now) (hoff : b.setPoint = 0) (n : ℕ) :
    ∃ d, b.coast step now n = .ok d := by
  induction n with
  | zero => exact ⟨b, rfl⟩
  | succ n ih =>
    obtain ⟨d, hd⟩ := ih
    obtain ⟨e, -, he⟩ := h.exists_next hoff hd
    exact ⟨e, he⟩

theorem Follows.excess_eq (hd : d.Follows b step now) :
    d.excess = d.temperature - b.config.envTemp := by
  unfold excess
  rw [hd.config]

theorem Carried.coast (hb : b.Carried step) (h : b.Ticking step now) (hoff : b.setPoint = 0)
    (n : ℕ) (hbrief : ∀ m < n, ∀ e, b.coast step now m = .ok e →
      b.config.Brief step e.temperature) (hd : b.coast step now n = .ok d) : d.Carried step := by
  induction n generalizing d with
  | zero =>
    cases hd
    exact hb
  | succ n ih =>
    obtain ⟨c, hc, hrun⟩ := coast_succ hd
    have hfollows := h.follows hoff n hc
    have hcarried := ih (fun m hm => hbrief m (Nat.lt_succ_of_lt hm)) hc
    refine hcarried.run hfollows.ticking ?_ hrun
    rw [hfollows.config]
    exact hbrief n (Nat.lt_succ_self n) c hc

theorem Carried.settles {hot : ℝ} (hb : b.Carried step) (hu : b.Under step hot)
    (h : b.Ticking step now) (hoff : b.setPoint = 0) (henv : -273.15 ≤ b.config.envTemp)
    (hbrief : b.config.Brief step hot) (n : ℕ) (hd : b.coast step now n = .ok d) :
    d.Carried step ∧ d.Under step hot := by
  induction n generalizing d with
  | zero =>
    cases hd
    exact ⟨hb, hu⟩
  | succ n ih =>
    obtain ⟨c, hc, hrun⟩ := coast_succ hd
    obtain ⟨hcarried, hunder⟩ := ih hc
    have hfollows := h.follows hoff n hc
    have hwarm : b.config.envTemp ≤ c.temperature := by
      rw [← hfollows.config]
      exact hcarried.warm
    have hstep := h.step_pos.le
    have hloss : 0 ≤ c.config.lossRatio step c.temperature * c.excess := by
      apply mul_nonneg _ hcarried.excess
      rw [hfollows.config]
      exact h.physical.lossRatio_nonneg hstep henv hwarm
    have hshort : c.config.Brief step c.temperature := by
      rw [hfollows.config]
      exact (h.physical.lossRatio_le hstep henv hwarm hunder.temperature).trans hbrief
    exact ⟨hcarried.run hfollows.ticking hshort hrun,
      hunder.run hfollows.ticking hfollows.setPoint hloss hrun⟩

/-- The body is above its surroundings and loses at least a part `w` of what it is above them. -/
structure Sinking (b : Body ℝ) (step w : ℝ) : Prop where
  excess : 0 < b.excess
  part : 0 ≤ w
  carry : w * b.excess ≤ -b.carry step

/-- A body that is still above its surroundings after a tick that is not brief loses a larger
part. -/
theorem Sinking.run {w r : ℝ} (hb : b.Sinking step w) (h : b.Ticking step now)
    (hoff : b.setPoint = 0) (hr : r ≤ b.config.lossRatio step b.temperature)
    (hgrowth : 0 ≤ growth r) (hd : b.run now = .ok d) (hwarm : 0 < d.excess) :
    d.Sinking step (w + growth r) := by
  obtain ⟨hcarry, hexcess⟩ := h.idle hoff hd (Or.inl hb.excess.ne')
  have hgrown := grown_of_lossy hb.excess hb.part hb.carry hr hgrowth (hexcess ▸ hwarm.le)
  rw [← hexcess] at hgrown
  refine ⟨hwarm, add_nonneg hb.part hgrowth, ?_⟩
  rw [hcarry, neg_neg]
  exact hgrown

theorem Sinking.part_lt {w : ℝ} (hb : b.Sinking step w) (h : b.Ticking step now)
    (hoff : b.setPoint = 0) (hd : b.run now = .ok d) (hwarm : 0 < d.excess) :
    w + b.config.lossRatio step b.temperature < 1 := by
  obtain ⟨-, hexcess⟩ := h.idle hoff hd (Or.inl hb.excess.ne')
  have hcarry := hb.carry
  have hless : (w + b.config.lossRatio step b.temperature) * b.excess < 1 * b.excess := by
    linarith
  exact lt_of_mul_lt_mul_right hless hb.excess.le

section Falls

variable {r : ℝ}

/-- A body that is never below its surroundings is never at them where half a tick loses some of
what it is above them. -/
theorem Ticking.excess_pos (h : b.Ticking step now) (hoff : b.setPoint = 0) (hr : 0 < r)
    (hlossy : ∀ n d, b.coast step now n = .ok d → r ≤ d.config.lossRatio step d.temperature)
    (hnever : ∀ n d, b.coast step now n = .ok d → 0 ≤ d.excess) (hwarm : 0 < b.excess) (n : ℕ)
    (hd : b.coast step now n = .ok d) : 0 < d.excess := by
  induction n generalizing d with
  | zero =>
    cases hd
    exact hwarm
  | succ n ih =>
    obtain ⟨c, hc, hrun⟩ := coast_succ hd
    have hbefore := h.follows hoff n hc
    have hcarry := (hbefore.ticking.idle hbefore.setPoint hrun (Or.inl (ih hc).ne')).1
    have hneg : d.carry step < 0 := by
      rw [hcarry]
      exact neg_neg_of_pos (mul_pos (hr.trans_le (hlossy n c hc)) (ih hc))
    -- at its surroundings the body would still carry a loss into the next tick
    refine lt_of_le_of_ne (hnever (n + 1) d hd) fun hzero => ?_
    have hlast := h.follows hoff (n + 1) hd
    obtain ⟨e, hrun', he⟩ := h.exists_next hoff hd
    have hnext := (hlast.ticking.idle hlast.setPoint hrun' (Or.inr hneg.ne)).2
    rw [← hzero, mul_zero, zero_add, sub_zero] at hnext
    exact (hnever (n + 2) e he).not_gt (hnext ▸ hneg)

theorem Ticking.sinking (h : b.Ticking step now) (hoff : b.setPoint = 0) (hwarm : 0 < b.excess)
    (hloss : 0 ≤ b.config.lossRatio step b.temperature) (hd : b.run now = .ok d)
    (hnext : 0 < d.excess) : d.Sinking step 0 := by
  have hcarry := (h.idle hoff hd (Or.inl hwarm.ne')).1
  refine ⟨hnext, le_refl 0, ?_⟩
  rw [zero_mul, hcarry, neg_neg]
  exact mul_nonneg hloss hwarm.le

/-- A body that is always above its surroundings loses a larger part in every tick. -/
theorem Ticking.sinks (h : b.Ticking step now) (hoff : b.setPoint = 0) (hr : 0 < r)
    (hgrowth : 0 ≤ growth r)
    (hlossy : ∀ n d, b.coast step now n = .ok d → r ≤ d.config.lossRatio step d.temperature)
    (habove : ∀ n d, b.coast step now n = .ok d → 0 < d.excess) (n : ℕ)
    (hd : b.coast step now (n + 1) = .ok d) : d.Sinking step (n * growth r) := by
  obtain ⟨c, hc, hrun⟩ := coast_succ hd
  have hfollows := h.follows hoff n hc
  induction n generalizing c d with
  | zero =>
    have hloss := hr.le.trans (hlossy 0 c hc)
    have hsinking :=
      hfollows.ticking.sinking hfollows.setPoint (habove 0 c hc) hloss hrun (habove 1 d hd)
    simpa using hsinking
  | succ n ih =>
    obtain ⟨a, ha, hrun'⟩ := coast_succ hc
    have hbefore := ih hc a ha hrun' (h.follows hoff n ha)
    have hafter :=
      hbefore.run hfollows.ticking hfollows.setPoint (hlossy _ c hc) hgrowth hrun (habove _ d hd)
    have hpart : (n : ℝ) * growth r + growth r = (n + 1 : ℕ) * growth r := by
      push_cast
      ring
    rwa [hpart] at hafter

theorem Ticking.falls (h : b.Ticking step now) (hoff : b.setPoint = 0)
    (henv : -273.15 ≤ b.config.envTemp) (hlong : ¬ b.config.Brief step b.config.envTemp)
    (hwarm : b.config.envTemp < b.temperature) :
    ∃ n d, b.coast step now n = .ok d ∧ d.temperature < b.config.envTemp := by
  by_contra hno
  have hstays (n : ℕ) (d : Body ℝ) (hd : b.coast step now n = .ok d) :
      b.config.envTemp ≤ d.temperature := by
    by_contra hlt
    exact hno ⟨n, d, hd, not_le.mp hlt⟩
  have hnever (n : ℕ) (d : Body ℝ) (hd : b.coast step now n = .ok d) : 0 ≤ d.excess := by
    rw [(h.follows hoff n hd).excess_eq]
    exact sub_nonneg.mpr (hstays n d hd)
  have hlossy (n : ℕ) (d : Body ℝ) (hd : b.coast step now n = .ok d) :
      b.config.lossRatio step b.config.envTemp ≤ d.config.lossRatio step d.temperature := by
    rw [(h.follows hoff n hd).config]
    exact h.physical.lossRatio_le h.step_pos.le henv (le_refl _) (hstays n d hd)
  have hlarge : carryRatio * carryRatio < b.config.lossRatio step b.config.envTemp :=
    not_le.mp hlong
  generalize b.config.lossRatio step b.config.envTemp = r at hlossy hlarge
  have hr : 0 < r := (mul_pos carryRatio_pos carryRatio_pos).trans hlarge
  have habove (n : ℕ) (d : Body ℝ) (hd : b.coast step now n = .ok d) : 0 < d.excess :=
    h.excess_pos hoff hr hlossy hnever (sub_pos.mpr hwarm) n hd
  -- no body at all loses more than it has, so the part that is lost does not grow for ever
  have hpart {n : ℕ} {w : ℝ} {d : Body ℝ} (hd : b.coast step now n = .ok d)
      (hsinking : d.Sinking step w) : w + r < 1 := by
    have hfollows := h.follows hoff n hd
    obtain ⟨e, hrun, he⟩ := h.exists_next hoff hd
    have := hsinking.part_lt hfollows.ticking hfollows.setPoint hrun (habove _ e he)
    linarith [hlossy n d hd]
  have hone : r < 1 := by
    obtain ⟨d, hrun, hd⟩ := h.exists_next hoff (d := b) (n := 0) rfl
    have hloss := hr.le.trans (hlossy 0 b rfl)
    have hsinking :=
      h.sinking hoff (sub_pos.mpr hwarm) hloss (by simpa using hrun) (habove 1 d hd)
    linarith [hpart hd hsinking]
  have hgrowth : 0 < growth r := growth_pos hlarge hone.le
  obtain ⟨n, hn⟩ := exists_nat_gt (1 / growth r)
  obtain ⟨d, hd⟩ := h.exists_coast hoff (n + 1)
  have hall : 1 < n * growth r := (div_lt_iff₀ hgrowth).mp hn
  have := hpart hd (h.sinks hoff hr hgrowth.le hlossy habove n hd)
  linarith

end Falls

end Body

end Gantry
