import Mathlib.Analysis.Real.Sqrt
import Gantry.Proofs.Machine.Coordination
import Gantry.Proofs.Machine.MotionLimits

/-!
# Restarts

An accepted setting that has limits for an axis has it plan anew, and every plan begins at rest.
The speed that the axis had is gone with the next tick, for which the axis stays where it was. So
the change of speed is within the limit of acceleration only where the axis was slow enough to
stop within that time.

Nothing here says how the axis goes on afterwards.
-/

namespace Gantry

namespace Axis

variable {a b : Axis ℝ} {i : AxisId}

theorem Willing.planTo (h : a.Willing) (target : ℝ) (requested : Option ℝ) :
    (a.planTo target requested).Willing := by
  cases hp : Plan.toward? a.limits a.position target requested with
  | none =>
    rw [planTo_of_none hp]
    exact h
  | some p =>
    rw [planTo_of_some hp]
    exact Or.inr fun s hs => Plan.requested_pos_of_toward? hp hs

theorem Willing.setLimits (h : a.Willing) (l : Limits ℝ) : (a.setLimits l).Willing := by
  apply Willing.planTo
  exact h

theorem Willing.foldl_setLimits (h : a.Willing) (ls : List (Limits ℝ)) :
    (ls.foldl Axis.setLimits a).Willing :=
  List.foldlRecOn ls Axis.setLimits h fun _ hb l _ => hb.setLimits l

theorem Touch.willing (h : Touch i a b) (ha : a.Willing) : b.Willing := by
  cases h with
  | keep => exact ha
  | plan target requested => exact ha.planTo target requested
  | offset => exact ha
  | limits ls h => exact ha.foldl_setLimits ls

theorem Willing.run (h : a.Willing) (time : ℝ) : (a.run time).Willing := by
  rcases h with h | h
  · exact Or.inl (atTarget_run h time)
  · right
    rw [run_plan]
    exact h

/-- Limits have an axis wait to begin anew, wherever it is on its way. -/
theorem Willing.onCourse_foldl_setLimits (h : a.Willing) {ls : List (Limits ℝ)}
    (hne : ls ≠ []) (hl : ∀ l ∈ ls, checkLimits i l = .ok ()) :
    (ls.foldl Axis.setLimits a).OnCourse none := by
  cases ls with
  | nil => exact absurd rfl hne
  | cons l ls =>
    obtain ⟨hs, ha⟩ := limits_of_check (hl l List.mem_cons_self)
    have hfirst : (a.setLimits l).OnCourse none := h.onCourse_setLimits hs ha
    exact hfirst.foldl_setLimits fun k hk => hl k (List.mem_cons_of_mem l hk)

/-- A plan that has not begun does so at rest. -/
theorem OnCourse.run_of_waiting (h : a.OnCourse none) (time : ℝ) :
    (a.run time).motion.speed = 0 ∧ (a.Moving → (a.run time).position = a.position) := by
  rcases run_cases a time with ⟨hmotion, hidle⟩ | ⟨hm, hphase, -, hmotion⟩
  · refine ⟨by rw [hmotion], fun hm => ?_⟩
    cases h with
    | arrived h => exact absurd hm (not_moving_of_atTarget h)
    | waiting hp hs hx =>
      have hphase := hidle hm
      rw [hs, Option.getD_none, sub_self, Plan.phaseAt, if_pos hp.profile.ramp_pos] at hphase
      cases hphase
    | underWay _ _ hl => cases hl
  · cases h with
    | arrived h => exact absurd hm (not_moving_of_atTarget h)
    | waiting hp hs hx =>
      rw [hs, Option.getD_none, sub_self] at hphase hmotion
      have hfirst : a.plan.phaseAt 0 = .accelerating := by
        rw [Plan.phaseAt, if_pos hp.profile.ramp_pos]
      constructor
      · rw [hmotion, Plan.motionAt, hfirst]
        exact mul_zero _
      · intro _
        have hway : a.plan.way a.config.maxAcc 0 = 0 := hp.profile.way_zero
        rw [position, hmotion, Plan.motionAt_position hphase, hway, mul_zero, add_zero, hx]
    | underWay _ _ hl => cases hl

/-- Between its two ramps an axis moves at the speed of its plan. -/
theorem abs_speed_of_cruise (hp : a.plan.MadeFor a.limits) (hs : a.startTime = none)
    (hx : a.position = a.plan.start) (hm : a.Moving) {s t : ℝ} (hlo : a.plan.accTime ≤ t - s)
    (hhi : t - s < a.plan.decTime) :
    |((a.run s).run t).motion.speed| = a.plan.speed := by
  have hcruise : a.plan.phaseAt (t - s) = .cruising := by
    rw [Plan.phaseAt, if_neg (not_lt.mpr hlo), if_pos hhi]
  have hwaiting : a.OnCourse none := .waiting hp hs hx
  have hbegun : (a.run s).startTime = some s := by
    rcases run_or a s with hat | ⟨hstart, -⟩
    · exfalso
      apply hm
      apply Exact.near_of_eq
      rw [← (hwaiting.run_of_waiting s).2 hm, hat, run_target]
    · rw [hstart, hs]
      rfl
  have hstill : (a.run s).Moving := by
    rw [Moving, run_target, (hwaiting.run_of_waiting s).2 hm]
    exact hm
  have hprofile := hp.profile
  rcases run_cases (a.run s) t with ⟨-, hidle⟩ | ⟨-, -, -, hmotion⟩
  · have hover := hidle hstill
    rw [hbegun, Option.getD_some, run_plan, hcruise] at hover
    cases hover
  · rw [hbegun, Option.getD_some, run_plan] at hmotion
    rw [hmotion, Plan.motionAt, hcruise]
    simp only
    rw [abs_mul, hprofile.direction, one_mul, abs_of_pos hprofile.speed_pos]

end Axis

/-- The setting has limits for an axis. -/
def Setting.Names (i : AxisId) : Setting ℝ → Prop
  | .axisLimits j _ => j = i
  | .limits updates => ∃ l, (i, l) ∈ updates
  | .document doc => (doc.get i).isSome = true
  | _ => False

namespace Machine

open Operation

variable {m n : Machine ℝ} {c : MachineConfig ℝ} {x : Setting ℝ} {i : AxisId}
  {ops : List (Operation ℝ (Setting ℝ))}

theorem Reachable.willing (h : Reachable c m) (i : AxisId) : (m.axis i).Willing := by
  apply h.axis_induction
  · exact Or.inr fun s hs => by cases hs
  · intro a time ha
    exact ha.run time
  · intro a b hab ha
    exact hab.willing ha

theorem Reachable.performAll (h : Reachable c m) (hops : ∀ op ∈ ops, op.isOffered = true)
    (ht : times ops = []) : Reachable c (m.performAll ops) := by
  have hall := List.filterMap_eq_nil_iff.mp ht
  refine performAll_induction (fun n op hop hn => ?_) h
  exact .step op (hops op hop) hn (perform_after (hall op hop) n)

theorem axis_performAll {P : Axis ℝ → Prop} (htouch : ∀ a b, Axis.Touch i a b → P a → P b)
    (hops : ∀ op ∈ ops, op.isOffered = true) (ht : times ops = []) (h : P (m.axis i)) :
    P ((m.performAll ops).axis i) := by
  have hall := List.filterMap_eq_nil_iff.mp ht
  refine performAll_induction (P := fun n => P (n.axis i)) (fun n op hop hn => ?_) h
  exact htouch _ _ (touch_perform (hops op hop) (hall op hop) (perform_after (hall op hop) n) i) hn

theorem axis_performAll_position (m : Machine ℝ) (hops : ∀ op ∈ ops, op.isOffered = true)
    (ht : times ops = []) (i : AxisId) :
    ((m.performAll ops).axis i).position = (m.axis i).position :=
  axis_performAll (P := fun a => a.position = (m.axis i).position)
    (fun _ _ hab ha => hab.position_eq.trans ha) hops ht rfl

theorem limitsFor_ne_nil {updates : List (AxisId × Limits ℝ)} {l : Limits ℝ}
    (h : (i, l) ∈ updates) : limitsFor i updates ≠ [] := by
  apply List.ne_nil_of_mem (a := l)
  apply List.mem_map.mpr
  exact ⟨(i, l), List.mem_filter.mpr ⟨h, decide_eq_true rfl⟩, rfl⟩

theorem limits_of_names (hx : x.apply m = .ok n) (hi : x.Names i) :
    ∃ ls : List (Limits ℝ), ls ≠ [] ∧ (∀ l ∈ ls, checkLimits i l = .ok ()) ∧
      n.axis i = ls.foldl Axis.setLimits (m.axis i) := by
  cases x with
  | axisLimits j l =>
    cases hi
    simp only [Setting.apply, setAxisLimits] at hx
    obtain ⟨⟨⟩, hc, hn⟩ := ok_of_bind hx
    cases hn
    refine ⟨[l], List.cons_ne_nil l [], ?_, m.axis_withLimits_self i l⟩
    intro k hk
    rw [List.mem_singleton.mp hk]
    exact hc
  | limits updates =>
    obtain ⟨l, hl⟩ := hi
    exact ⟨_, limitsFor_ne_nil hl, axis_of_applyLimits hx i⟩
  | document doc =>
    obtain ⟨change, hchange⟩ := Option.isSome_iff_exists.mp hi
    have hl : (i, change.over (m.axis i).limits) ∈ m.limitUpdates doc := by
      apply List.mem_filterMap.mpr
      refine ⟨i, AxisId.mem_all i, ?_⟩
      rw [hchange]
      rfl
    exact ⟨_, limitsFor_ne_nil hl, axis_of_applyLimits hx i⟩
  | feedOverride value => cases hi
  | gains k kp ki windUp => cases hi
  | settle k window time => cases hi

/-- How an axis goes on at a tick, where `a` is the axis after the last tick, `span` before, `b`
the axis right before the tick and `d` the axis after it. -/
structure Restarts (a b d : Axis ℝ) (span : ℝ) : Prop where
  speed : d.motion.speed = 0
  stays : b.Moving → d.position = a.position
  arrives : ¬ b.Moving → d.position = b.target
  /-- The limit of acceleration is kept exactly where it allows to stop. -/
  keeps_iff : |d.motion.speed - a.motion.speed| ≤ max a.config.maxAcc b.config.maxAcc * span ↔
    |a.motion.speed| ≤ max a.config.maxAcc b.config.maxAcc * span

/-- Between the ticks at times `s` and `t` anything may be asked of the machine. -/
theorem restarts_of_apply (hc : c.validate = .ok ()) {l : Machine ℝ} (hl : Reachable c l) {s t : ℝ}
    (hm : l.run s = .ok m) {pre post : List (Operation ℝ (Setting ℝ))}
    (hops : ∀ op ∈ pre ++ post, op.isOffered = true) (hpre : times pre = [])
    (hpost : times post = []) (hx : x.apply (m.performAll pre) = .ok n) (hi : x.Names i) :
    ∃ o, (n.performAll post).run t = .ok o ∧
      Restarts (m.axis i) ((n.performAll post).axis i) (o.axis i) (t - s) := by
  have hbefore : ∀ op ∈ pre, op.isOffered = true :=
    fun op hop => hops op (List.mem_append_left post hop)
  have hafter : ∀ op ∈ post, op.isOffered = true :=
    fun op hop => hops op (List.mem_append_right pre hop)
  have hpre' : Reachable c (m.performAll pre) := (hl.run s hm).performAll hbefore hpre
  have hpost' : Reachable c (n.performAll post) := (hpre'.set x hx).performAll hafter hpost
  obtain ⟨o, ho⟩ := (hpost'.able hc).run_ok t
  obtain ⟨ls, hne, hls, haxis⟩ := limits_of_names hx hi
  have hcourse : ((n.performAll post).axis i).OnCourse none := by
    apply axis_performAll (P := fun a => a.OnCourse none) _ hafter hpost
    · rw [haxis]
      exact (hpre'.willing i).onCourse_foldl_setLimits hne hls
    · intro a b hab ha
      exact hab.onCourse ha
  have hposition : ((n.performAll post).axis i).position = (m.axis i).position := by
    rw [axis_performAll_position n hafter hpost, (touch_set hx i).position_eq,
      axis_performAll_position m hbefore hpre]
  obtain ⟨hspeed, hstay⟩ := hcourse.run_of_waiting t
  rw [← (parts_of_run ho).1] at hspeed hstay
  refine ⟨o, ho, hspeed, fun hmoving => (hstay hmoving).trans hposition, ?_, ?_⟩
  · intro hmoving
    rw [(parts_of_run ho).1]
    exact Axis.position_run_of_not_moving hmoving t
  · rw [hspeed, zero_sub, abs_neg]

def limitsOfX {α : Type} [Scalar α] : Limits α :=
  (Axis.ofConfig (AxisConfig.stock .x)).limits

theorem apply_limitsOfX (m : Machine ℝ) :
    (Setting.axisLimits .x limitsOfX).apply m = .ok (m.withLimits .x limitsOfX) := by
  have hvalid : (AxisConfig.stock .x : AxisConfig ℝ).validate .x = .ok () := by
    have h := MachineConfig.axis_of_validate validate_stock .x
    rw [MachineConfig.stock, PerAxis.get_ofFn] at h
    exact h
  have hcheck : checkLimits .x (limitsOfX : Limits ℝ) = .ok () :=
    AxisConfig.checkLimits_of_validate hvalid
  rw [Setting.apply, setAxisLimits, hcheck]
  rfl

theorem restarts_stock :
    let x : Setting ℝ := .axisLimits .x limitsOfX
    let pre : List (Operation ℝ (Setting ℝ)) := [.declare hop]
    let post : List (Operation ℝ (Setting ℝ)) := [.move hop none]
    ∃ l m n : Machine ℝ, ((MachineConfig.stock : MachineConfig ℝ).validate = .ok () ∧
      Reachable MachineConfig.stock l ∧ l.run 0.02 = .ok m ∧
      (∀ op ∈ pre ++ post, op.isOffered = true) ∧ times pre = [] ∧ times post = [] ∧
      x.apply (m.performAll pre) = .ok n ∧ x.Names .x) ∧
    ∃ o, (n.performAll post).run 0.021 = .ok o ∧
      Restarts (m.axis .x) ((n.performAll post).axis .x) (o.axis .x) (0.021 - 0.02) := by
  intro x pre post
  have hl : Reachable (MachineConfig.stock : MachineConfig ℝ)
      ((ofConfig MachineConfig.stock).setTarget hop none).1 := .move hop none .start
  obtain ⟨m, hm⟩ := (hl.able validate_stock).run_ok 0.02
  have hn := apply_limitsOfX (m.performAll pre)
  have hops : ∀ op ∈ pre ++ post, op.isOffered = true := by
    intro op hop
    simp only [pre, post, List.cons_append, List.nil_append, List.mem_cons, List.not_mem_nil,
      or_false] at hop
    rcases hop with rfl | rfl <;> rfl
  exact ⟨_, m, _, ⟨validate_stock, hl, hm, hops, rfl, rfl, hn, rfl⟩,
    restarts_of_apply validate_stock hl hm hops rfl rfl hn rfl⟩

theorem maxAcc_stock : (AxisConfig.stock .x : AxisConfig ℝ).maxAcc = 1 := by
  have hone : (1.0 : ℝ) = 1 := by norm_num
  exact hone

theorem abs_speed_stock {l k : Machine ℝ}
    (hl : ((ofConfig MachineConfig.stock).setTarget hop none).1.run 0 = .ok l)
    (hk : l.run 0.02 = .ok k) : |(k.axis .x).motion.speed| = 0.006 := by
  have hz : (0.0 : ℝ) = 0 := by norm_num
  have hdist : (0.0003 : ℝ) ≠ 0 := by norm_num
  have hramp : (0.0003 : ℝ) / 0.05 / 1 = 0.006 := by norm_num
  have hfits : (0.006 : ℝ) ≤ 0.05 := by norm_num
  obtain ⟨p, hp, haxis, htimed⟩ := timed_stock (i := .x) rfl hdist
  rw [maxAcc_stock, hramp] at htimed
  obtain ⟨hmade, hstart⟩ := Plan.madeFor_of_toward? hp
  have hprofile := hmade.profile
  have htime := htimed.accTime_of_le hprofile hfits
  have hmoving : ¬ Scalar.Near p.target ((ofConfig MachineConfig.stock).axis .x).position := by
    have hgoal : (0.0003 : ℝ) - 0.0 = 0.0003 := by norm_num
    have hfar : (1e-9 : ℝ) ≤ 0.0003 := by norm_num
    rw [Plan.target_of_toward? hp, axis_ofConfig]
    change ¬ Scalar.Near ((0.0003 : ℝ) - 0.0) 0.0
    rw [hgoal, hz]
    exact not_near_zero hfar
  have hlo : p.accTime ≤ 0.02 - 0 := by
    rw [htime]
    norm_num
  have hhi : 0.02 - 0 < p.decTime := by
    rw [htimed.decTime_of_le hfits]
    norm_num
  let b : Axis ℝ := { (ofConfig MachineConfig.stock).axis .x with plan := p, startTime := none }
  have hcruise : |((b.run 0).run 0.02).motion.speed| = p.speed :=
    Axis.abs_speed_of_cruise (a := b) hmade rfl hstart.symm hmoving hlo hhi
  rw [(parts_of_run hk).1, (parts_of_run hl).1, haxis]
  rw [hprofile.speed_eq, htime, Axis.limits, config_stock, maxAcc_stock, one_mul] at hcruise
  exact hcruise

/-- A change of limits to the ones in force already, which costs X all of its speed at once. -/
theorem speed_lost :
    let m : Machine ℝ := ((ofConfig MachineConfig.stock).setTarget hop none).1
    ∃ l k n o : Machine ℝ, (m.run 0 = .ok l ∧ l.run 0.02 = .ok k ∧
      (Setting.axisLimits .x limitsOfX).apply k = .ok n ∧ n.run 0.021 = .ok o ∧
      (k.axis .x).motion.speed ≠ 0) ∧
      ¬ |(o.axis .x).motion.speed - (k.axis .x).motion.speed| ≤
        max (k.axis .x).config.maxAcc (n.axis .x).config.maxAcc * (0.021 - 0.02) := by
  intro m
  have hm : Reachable (MachineConfig.stock : MachineConfig ℝ) m := .move hop none .start
  obtain ⟨l, hl⟩ := (hm.able validate_stock).run_ok 0
  have hl' := hm.run 0 hl
  obtain ⟨k, hk⟩ := (hl'.able validate_stock).run_ok 0.02
  have hk' := hl'.run 0.02 hk
  have hn := apply_limitsOfX k
  obtain ⟨o, ho⟩ := ((hk'.set _ hn).able validate_stock).run_ok 0.021
  have hspeed := abs_speed_stock hl hk
  have hstopped : (o.axis .x).motion.speed = 0 := by
    obtain ⟨ls, hne, hls, haxis⟩ := limits_of_names hn rfl
    rw [(parts_of_run ho).1, haxis]
    exact (((hk'.willing .x).onCourse_foldl_setLimits hne hls).run_of_waiting _).1
  have hold : (k.axis .x).config.maxAcc = 1 := by
    rw [(parts_of_run hk).1, (parts_of_run hl).1, Axis.run_config, Axis.run_config]
    have hbegin : (m.axis .x).config = AxisConfig.stock .x := by
      rw [← config_stock]
      rcases axis_setTarget (ofConfig (MachineConfig.stock : MachineConfig ℝ)) hop none .x with
        hx | ⟨v, s, -, hx⟩
      · rw [hx]
      · rw [hx, Axis.setTarget_config]
    rw [hbegin, maxAcc_stock]
  have hnew : ((k.withLimits .x limitsOfX).axis .x).config.maxAcc = 1 := by
    rw [axis_withLimits_self]
    exact (congrArg Limits.maxAcc (Axis.limits_setLimits _ limitsOfX)).trans maxAcc_stock
  refine ⟨l, k, _, o, ⟨hl, hk, hn, ho, ?_⟩, ?_⟩
  · intro hzero
    rw [hzero, abs_zero] at hspeed
    norm_num at hspeed
  · rw [hstopped, zero_sub, abs_neg, hspeed, hold, hnew]
    norm_num

end Machine

end Gantry
