import Mathlib.Analysis.Real.Sqrt
import Gantry.Proofs.Machine.BlockingMove
import Gantry.Proofs.Machine.Frame
import Gantry.Proofs.Machine.LimitChange
import Gantry.Proofs.Motion.Tracking

/-!
# Motion limits

A machine that was built from a valid configuration is run by ticks at times that do not fall, and
between them anything is done to it that it offers, in any order. Every tick leaves each axis within
the limits in force, and takes it no farther than its speed limit allows since the tick before, up
to the tolerance of its plan. Nothing that is asked between two ticks moves an axis.

Nothing here says where a machine is going.
-/

namespace Gantry

variable {last : Option ℝ}

theorem Axis.OnCourse.foldl_setLimits {i : AxisId} {a : Axis ℝ} (h : a.OnCourse last)
    {ls : List (Limits ℝ)} (hl : ∀ l ∈ ls, checkLimits i l = .ok ()) :
    (ls.foldl Axis.setLimits a).OnCourse last := by
  refine List.foldlRecOn (motive := fun b => b.OnCourse last) ls Axis.setLimits h ?_
  intro b hb l hmem
  obtain ⟨hs, ha⟩ := limits_of_check (hl l hmem)
  exact hb.setLimits hs ha

theorem Axis.Touch.onCourse {i : AxisId} {a b : Axis ℝ} (h : Axis.Touch i a b)
    (ha : a.OnCourse last) : b.OnCourse last := by
  cases h with
  | keep => exact ha
  | plan target requested => exact ha.planTo target requested
  | offset offset => exact ha.withOffset offset
  | limits ls hls => exact ha.foldl_setLimits hls

namespace Machine

open Operation

structure Steers (m : Machine ℝ) (last : Option ℝ) : Prop where
  able : m.Able
  course : ∀ i, (m.axis i).OnCourse last

variable {m n : Machine ℝ} {op : Operation ℝ (Setting ℝ)} {ops : List (Operation ℝ (Setting ℝ))}

theorem steers_ofConfig {c : MachineConfig ℝ} (h : c.validate = .ok ()) :
    (ofConfig c).Steers none := by
  refine ⟨able_ofConfig h, fun i => ?_⟩
  rw [axis, ofConfig, PerAxis.get_ofFn]
  exact Axis.onCourse_ofConfig _

/-- An axis that something is asked of keeps its place and its course. -/
structure Undisturbed (m n : Machine ℝ) (last : Option ℝ) : Prop where
  steers : n.Steers last
  position : ∀ i, (n.axis i).position = (m.axis i).position

namespace Steers

theorem perform_of_not_tick (h : m.Steers last) (hop : op.isOffered = true)
    (ht : op.time? = none) : m.Undisturbed (op.after m) last := by
  have hn := perform_after ht m
  refine ⟨⟨h.able.perform op hop hn, fun i => ?_⟩, fun i => ?_⟩
  · exact (touch_perform hop ht hn i).onCourse (h.course i)
  · exact (touch_perform hop ht hn i).position_eq

theorem performAll_of_no_tick (h : m.Steers last) (hops : ∀ op ∈ ops, op.isOffered = true)
    (ht : times ops = []) : m.Undisturbed (m.performAll ops) last := by
  have hall := List.filterMap_eq_nil_iff.mp ht
  apply performAll_induction (P := fun n => m.Undisturbed n last)
  · intro n op hop hn
    have hnext := hn.steers.perform_of_not_tick (hops op hop) (hall op hop)
    exact ⟨hnext.steers, fun i => (hnext.position i).trans (hn.position i)⟩
  · exact ⟨h, fun _ => rfl⟩

end Steers

/-- An axis after a tick is within its limits and not far from where it was. -/
structure Advanced (m n : Machine ℝ) (last : Option ℝ) (u : ℝ) : Prop where
  steers : n.Steers (some u)
  limits : ∀ i, (n.axis i).WithinLimits
  step : ∀ i, |(n.axis i).position - (m.axis i).position| ≤
    (n.axis i).config.maxSpeed * last.elim 0 (u - ·) + (n.axis i).plan.tolerance

theorem exists_tick (h : m.Able) (u : ℝ) :
    ∃ n, m.run u = .ok n ∧ (.tick u : Operation ℝ (Setting ℝ)).after m = n := by
  obtain ⟨n, hn⟩ := h.run_ok u
  refine ⟨n, hn, ?_⟩
  rw [Operation.after, Operation.perform, hn]
  rfl

theorem Steers.tick (h : m.Steers last) {u : ℝ} (hu : ∀ t, last = some t → t ≤ u) :
    m.Advanced ((.tick u : Operation ℝ (Setting ℝ)).after m) last u := by
  obtain ⟨n, hn, hafter⟩ := exists_tick h.able u
  obtain ⟨haxes, -, -⟩ := parts_of_run hn
  have htracks (i : AxisId) := (h.course i).run (h.able.axes i) hu
  rw [hafter]
  refine ⟨⟨h.able.run hn, fun i => ?_⟩, fun i => ?_, fun i => ?_⟩
  · rw [haxes]
    exact (htracks i).course
  · rw [haxes]
    exact (htracks i).limits
  · rw [haxes, Axis.run_config, Axis.run_plan]
    exact (htracks i).step

theorem Steers.perform (h : m.Steers last) (hop : op.isOffered = true)
    (hu : ∀ t, last = some t → ∀ u, op.time? = some u → t ≤ u) :
    (op.after m).Steers (op.time?.or last) := by
  cases ht : op.time? with
  | none => exact (h.perform_of_not_tick hop ht).steers
  | some u =>
    obtain rfl := eq_tick ht
    exact (h.tick fun t hlast => hu t hlast u rfl).steers

theorem Steers.performAll (h : m.Steers last) (hops : ∀ op ∈ ops, op.isOffered = true)
    (ho : (last.toList ++ times ops).Pairwise (· ≤ ·)) :
    ∃ now, (m.performAll ops).Steers now ∧ ∀ t, now = some t → t ∈ last.toList ++ times ops := by
  -- The time of the last tick goes along; it is one of those that the list began with.
  induction ops generalizing m last with
  | nil => exact ⟨last, h, fun t ht => by simp [ht]⟩
  | cons op ops ih =>
    rw [times_cons] at ho ⊢
    have hop : (op.after m).Steers (op.time?.or last) := by
      refine h.perform (hops op List.mem_cons_self) fun t ht u hu => ?_
      exact (List.pairwise_append.mp ho).2.2 t (by simp [ht]) u (by simp [hu])
    -- A tick puts its own time in the place of the last one.
    have hsub : ((op.time?.or last).toList ++ times ops).Sublist
        (last.toList ++ (op.time?.toList ++ times ops)) := by
      cases hu : op.time? with
      | none => simp
      | some u => simp
    obtain ⟨now, hnow, hmem⟩ :=
      ih hop (fun op hop => hops op (List.mem_cons_of_mem _ hop)) (ho.sublist hsub)
    exact ⟨now, hnow, fun t ht => hsub.subset (hmem t ht)⟩

structure Smooth (m : Machine ℝ) (ops : List (Operation ℝ (Setting ℝ))) : Prop where
  ticks : ∀ pre t post, ops = pre ++ .tick t :: post → ∃ n, (m.performAll pre).run t = .ok n
  /-- After a tick the motion of every axis is within the limits in force. -/
  limits : ∀ pre t post, ops = pre ++ .tick t :: post → ∀ i,
    ((m.performAll (pre ++ [.tick t])).axis i).WithinLimits
  /-- What is no tick moves no axis. -/
  between : ∀ pre op post, ops = pre ++ op :: post → op.time? = none → ∀ i,
    ((m.performAll (pre ++ [op])).axis i).position = ((m.performAll pre).axis i).position
  /-- The first tick moves an axis by no more than the tolerance of its plan. -/
  first : ∀ pre t post, ops = pre ++ .tick t :: post → times pre = [] → ∀ i,
    |((m.performAll (pre ++ [.tick t])).axis i).position - (m.axis i).position| ≤
      ((m.performAll (pre ++ [.tick t])).axis i).plan.tolerance
  /-- From one tick to the next an axis goes no farther than its speed limit allows, up to the
  tolerance of its plan. -/
  step : ∀ pre s mid t post, ops = pre ++ .tick s :: mid ++ .tick t :: post → times mid = [] →
    ∀ i, |((m.performAll (pre ++ .tick s :: mid ++ [.tick t])).axis i).position -
        ((m.performAll (pre ++ [.tick s])).axis i).position| ≤
      ((m.performAll (pre ++ .tick s :: mid ++ [.tick t])).axis i).config.maxSpeed * (t - s) +
        ((m.performAll (pre ++ .tick s :: mid ++ [.tick t])).axis i).plan.tolerance

/-- Where a run has come to before some of its operations, no tick so far was later than any of
those to come. -/
theorem Steers.before (h : m.Steers none) (hops : ∀ op ∈ ops, op.isOffered = true)
    (ho : (times ops).Pairwise (· ≤ ·)) {pre post : List (Operation ℝ (Setting ℝ))}
    (hp : ops = pre ++ post) :
    ∃ last, (m.performAll pre).Steers last ∧ ∀ t, last = some t → ∀ u ∈ times post, t ≤ u := by
  rw [hp, times_append, List.pairwise_append] at ho
  obtain ⟨hpre, -, hle⟩ := ho
  have hoffered : ∀ op ∈ pre, op.isOffered = true := by
    intro op hop
    rw [hp] at hops
    exact hops op (List.mem_append_left post hop)
  have hsorted : ((none : Option ℝ).toList ++ times pre).Pairwise (· ≤ ·) := hpre
  obtain ⟨last, hlast, hmem⟩ := h.performAll hoffered hsorted
  exact ⟨last, hlast, fun t ht u hu => hle t (by simpa using hmem t ht) u hu⟩

theorem Steers.step (h : m.Steers last) {s t : ℝ} (hs : ∀ r, last = some r → r ≤ s) (hst : s ≤ t)
    (hops : ∀ op ∈ ops, op.isOffered = true) (ho : times ops = []) (i : AxisId) :
    let n := (.tick s : Operation ℝ (Setting ℝ)).after m
    let o := (.tick t : Operation ℝ (Setting ℝ)).after (n.performAll ops)
    |(o.axis i).position - (n.axis i).position| ≤
      (o.axis i).config.maxSpeed * (t - s) + (o.axis i).plan.tolerance := by
  intro n o
  have hstill : n.Undisturbed (n.performAll ops) (some s) :=
    (h.tick hs).steers.performAll_of_no_tick hops ho
  have hlast : ∀ r, some s = some r → r ≤ t := by
    intro r hr
    cases hr
    exact hst
  have hstep := (hstill.steers.tick hlast).step i
  rw [hstill.position] at hstep
  exact hstep

theorem Steers.smooth (h : m.Steers none) (hops : ∀ op ∈ ops, op.isOffered = true)
    (ho : (times ops).Pairwise (· ≤ ·)) : m.Smooth ops := by
  constructor
  · intro pre t post hp
    obtain ⟨last, hlast, -⟩ := h.before hops ho hp
    obtain ⟨n, hn, -⟩ := exists_tick hlast.able t
    exact ⟨n, hn⟩
  · intro pre t post hp i
    obtain ⟨last, hlast, hle⟩ := h.before hops ho hp
    rw [performAll_snoc]
    exact (hlast.tick fun s hs => hle s hs t (mem_times_tick t post)).limits i
  · intro pre op post hp hop i
    obtain ⟨last, hlast, -⟩ := h.before hops ho hp
    have hoffered : op.isOffered = true := hops op (by rw [hp]; simp)
    rw [performAll_snoc]
    exact (hlast.perform_of_not_tick hoffered hop).position i
  · intro pre t post hp hpre i
    have hoffered : ∀ op ∈ pre, op.isOffered = true :=
      fun op hop => hops op (by rw [hp]; exact List.mem_append_left _ hop)
    have hstill := h.performAll_of_no_tick hoffered hpre
    have hstep := (hstill.steers.tick (u := t) nofun).step i
    rw [hstill.position, Option.elim_none, mul_zero, zero_add] at hstep
    rw [performAll_snoc]
    exact hstep
  · intro pre s mid t post hp hmid i
    have hoffered : ∀ op ∈ mid, op.isOffered = true :=
      fun op hop => hops op (by rw [hp]; simp [hop])
    rw [List.append_assoc] at hp
    obtain ⟨last, hlast, hle⟩ := h.before hops ho hp
    have hs : ∀ r, last = some r → r ≤ s :=
      fun r hr => hle r hr s (mem_times_tick s (mid ++ .tick t :: post))
    have hst : s ≤ t := by
      rw [hp, times_append, List.cons_append, times_cons, List.pairwise_append] at ho
      have hlater : t ∈ times (mid ++ .tick t :: post) := by
        rw [times_append]
        exact List.mem_append_right _ (mem_times_tick t post)
      exact (List.pairwise_append.mp ho.2.1).2.2 s (by simp [time?]) t hlater
    rw [performAll_snoc, performAll_snoc, performAll_append]
    exact hlast.step hs hst hoffered hmid i

/-- Every run of a machine that was built from a valid configuration is smooth. -/
theorem smooth_of_valid {c : MachineConfig ℝ} (hc : c.validate = .ok ())
    (ops : List (Operation ℝ (Setting ℝ))) (hops : ∀ op ∈ ops, op.isOffered = true)
    (ho : (times ops).Pairwise (· ≤ ·)) : (ofConfig c).Smooth ops :=
  (steers_ofConfig hc).smooth hops ho

/-- The stock machine, slowed down and told another position on its way along a bead. -/
theorem smooth_stock :
    let ops : List (Operation ℝ (Setting ℝ)) := [.move bead none, .tick 0, .tick 0.05,
      .set (.axisLimits .x ⟨0.5, 2⟩), .declare bead, .tick 0.1, .release .x, .tick 0.1]
    ((MachineConfig.stock : MachineConfig ℝ).validate = .ok () ∧
      (∀ op ∈ ops, op.isOffered = true) ∧ (times ops).Pairwise (· ≤ ·)) ∧
      (ofConfig MachineConfig.stock).Smooth ops := by
  intro ops
  have hops : ∀ op ∈ ops, op.isOffered = true := by
    intro op hop
    simp only [ops, List.mem_cons, List.not_mem_nil, or_false] at hop
    rcases hop with rfl | rfl | rfl | rfl | rfl | rfl | rfl | rfl <;> rfl
  have ho : (times ops).Pairwise (· ≤ ·) := by
    simp only [ops, times, time?, List.filterMap_cons, List.filterMap_nil]
    norm_num
  exact ⟨⟨validate_stock, hops, ho⟩, smooth_of_valid validate_stock ops hops ho⟩

end Machine

end Gantry
