import Mathlib.Analysis.Real.Sqrt
import Gantry.Execution.Chore
import Gantry.Proofs.Execution.HomingLegs

/-!
# Homing as a whole

Between the steps of homing ticks come at any times, settings are accepted or refused, and shutdown
may be requested. When homing returns, X, Y and Z are at rest at zero and nothing else has an aim
that it did not have before, unless shutdown was requested before homing had looked at the flag for
the last time. Then the machine counts as homed exactly if it did before. A request that comes
between that look and the return is not seen, and the machine is homed. The feed from before is back
in every case.

Nothing here says that homing returns under whatever else happens: limits that change all the time
keep every axis where it is.
-/

namespace Gantry

/-- A machine that is being homed. -/
structure Homecoming where
  machine : Machine ℝ
  shutdown : Bool
  /-- What homing does next; none once it has returned. -/
  chore : Option (Chore ℝ)

namespace Homecoming

inductive Act where
  /-- A step of homing. -/
  | own
  | tick (time : ℝ)
  | set (x : Setting ℝ)
  | shutdown

def start (m : Machine ℝ) : Homecoming where
  machine := m
  shutdown := false
  chore := some .home

/-- What fails or is refused changes nothing. -/
noncomputable def act (w : Homecoming) : Act → Homecoming
  | .own =>
    w.chore.elim w fun c =>
      { w with
        machine := (c.step w.shutdown w.machine).1
        chore := (c.step w.shutdown w.machine).2 }
  | .tick time => { w with machine := (.tick time : Operation ℝ (Setting ℝ)).after w.machine }
  | .set x => { w with machine := (.set x : Operation ℝ (Setting ℝ)).after w.machine }
  | .shutdown => { w with shutdown := true }

noncomputable def acts (w : Homecoming) (as : List Act) : Homecoming :=
  as.foldl act w

/-- The flag was looked at for the last time. -/
def Decided (w : Homecoming) : Prop :=
  w.chore = none ∨ ∃ saved completed, w.chore = some (.restore saved completed)

/-- Shutdown was requested before the last look at the flag. -/
def Interrupted (m : Machine ℝ) (as : List Act) : Prop :=
  ∃ pre post, as = pre ++ .shutdown :: post ∧ ¬ ((start m).acts pre).Decided

end Homecoming

/-- X, Y and Z are at zero, and the extruder goes where it went. -/
structure Machine.Home (m n : Machine ℝ) : Prop where
  offset : ∀ i ∈ AxisId.cartesian, (n.axis i).offset = 0
  target : ∀ i ∈ AxisId.cartesian, (n.axis i).target = 0
  position : ∀ i ∈ AxisId.cartesian, |(n.axis i).position| ≤ 1e-12
  extruderOffset : (n.axis .e).offset = (m.axis .e).offset
  extruderTarget : (n.axis .e).target = (m.axis .e).target
  homed : n.homed = true

/-- Some time after a tick, every later one finds the axis at its target. -/
theorem Axis.exists_atTarget_run (a : Axis ℝ) (s : ℝ) :
    ∃ b, ∀ t, b ≤ t → ((a.run s).run t).AtTarget := by
  rcases a.run_or s with hat | ⟨hbegun, -⟩
  · exact ⟨s, fun t _ => atTarget_run hat t⟩
  · refine ⟨a.startTime.getD s + (a.run s).plan.duration, fun t ht => ?_⟩
    rcases (a.run s).run_or t with hat | ⟨-, hlt⟩
    · exact hat
    · rw [hbegun, Option.getD_some] at hlt
      linarith

namespace Homecoming

open Machine

/-- What has become of a machine when homing returns. -/
structure Returns (m n : Machine ℝ) (as : List Act) : Prop where
  completed : Act.shutdown ∉ as → m.Home n
  interrupted : Interrupted m as → n.homed = m.homed
  /-- A request after the last look comes too late, although homing has not returned. -/
  tooLate : ¬ Interrupted m as → m.Home n
  speed : n.defaultSpeed = m.defaultSpeed

def AllZeroed (n : Machine ℝ) (is : List AxisId) : Prop :=
  ∀ i ∈ is, (n.axis i).Zeroed

/-- What is known of a machine by what homing does next, where `m` is the machine before homing. -/
inductive Stage (m n : Machine ℝ) (interrupted : Prop) : Option (Chore ℝ) → Prop where
  | home (hspeed : n.defaultSpeed = m.defaultSpeed) (hhomed : n.homed = m.homed) :
      Stage m n interrupted (some .home)
  | homing (before : List AxisId) (i : AxisId) (rest : List AxisId) (h : Homing ℝ)
      (hall : before ++ i :: rest = AxisId.cartesian) (hhomed : n.homed = m.homed)
      (hbefore : ¬ interrupted → AllZeroed n before)
      (hs : ¬ interrupted → h.Stands (n.axis i)) :
      Stage m n interrupted (some (.homing m.defaultSpeed i rest h))
  | homed (hhomed : n.homed = m.homed) (hs : ¬ interrupted → AllZeroed n AxisId.cartesian) :
      Stage m n interrupted (some (.homed m.defaultSpeed))
  | restore (completed : Bool) (hc : completed = true ↔ ¬ interrupted)
      (hhomed : n.homed = m.homed) (hs : ¬ interrupted → AllZeroed n AxisId.cartesian) :
      Stage m n interrupted (some (.restore m.defaultSpeed completed))
  | returned (hspeed : n.defaultSpeed = m.defaultSpeed)
      (hinterrupted : interrupted → n.homed = m.homed)
      (hhomed : ¬ interrupted → n.homed = true)
      (hs : ¬ interrupted → AllZeroed n AxisId.cartesian) : Stage m n interrupted none

/-- The invariant of homing. -/
structure Keeps (m : Machine ℝ) (w : Homecoming) (interrupted : Prop) : Prop where
  able : w.machine.Able
  extruderOffset : (w.machine.axis .e).offset = (m.axis .e).offset
  extruderTarget : (w.machine.axis .e).target = (m.axis .e).target
  flag : ¬ w.Decided → (w.shutdown = true ↔ interrupted)
  stage : Stage m w.machine interrupted w.chore

variable {m n o : Machine ℝ} {w : Homecoming} {interrupted : Prop} {c : Option (Chore ℝ)}

structure Calm (m n : Machine ℝ) : Prop where
  able : m.Able → n.Able
  axis : ∀ i, (m.axis i).Calm (n.axis i)
  defaultSpeed : n.defaultSpeed = m.defaultSpeed
  homed : n.homed = m.homed

theorem calm_tick (hm : m.Able) (time : ℝ) :
    Calm m ((.tick time : Operation ℝ (Setting ℝ)).after m) := by
  obtain ⟨n, hn, hafter⟩ := exists_tick hm time
  have hcourse := sameCourse_of_run hn
  rw [hafter]
  refine ⟨fun h => h.run hn, fun i => ?_, hcourse.defaultSpeed, hcourse.homed⟩
  rw [(parts_of_run hn).1]
  exact Axis.calm_run _ time

theorem calm_set (m : Machine ℝ) (x : Setting ℝ) :
    Calm m ((.set x : Operation ℝ (Setting ℝ)).after m) := by
  have hn : (.set x : Operation ℝ (Setting ℝ)).perform m = .ok (Operation.after m (.set x)) :=
    Operation.perform_after rfl m
  rcases Operation.perform_set hn with ⟨y, hy⟩ | hsame
  · have hcourse := Setting.sameCourse_of_apply hy
    refine ⟨fun h => h.perform _ rfl hn, fun i => ?_, hcourse.defaultSpeed, hcourse.homed⟩
    exact .of_position (hcourse.offset i) (hcourse.target i) (touch_set hy i).position_eq
  · rw [hsame]
    exact ⟨id, fun i => .of_position rfl rfl rfl, rfl, rfl⟩

theorem Stage.of_calm (h : Stage m n interrupted c) (ho : Calm n o) : Stage m o interrupted c := by
  have hzeroed {is : List AxisId} (hs : ¬ interrupted → AllZeroed n is) :
      ¬ interrupted → AllZeroed o is :=
    fun hl i hi => (hs hl i hi).of_calm (ho.axis i)
  cases h with
  | home hspeed hhomed => exact .home (ho.defaultSpeed.trans hspeed) (ho.homed.trans hhomed)
  | homing before i rest h hall hhomed hbefore hs =>
    exact .homing before i rest h hall (ho.homed.trans hhomed) (hzeroed hbefore)
      fun hl => (hs hl).of_calm (ho.axis i)
  | homed hhomed hs => exact .homed (ho.homed.trans hhomed) (hzeroed hs)
  | restore completed hc hhomed hs =>
    exact .restore completed hc (ho.homed.trans hhomed) (hzeroed hs)
  | returned hspeed hinterrupted hhomed hs =>
    exact .returned (ho.defaultSpeed.trans hspeed) (fun hl => ho.homed.trans (hinterrupted hl))
      (fun hl => ho.homed.trans (hhomed hl)) (hzeroed hs)

theorem Keeps.of_calm (h : Keeps m w interrupted) (ho : Calm w.machine o) :
    Keeps m { w with machine := o } interrupted :=
  ⟨ho.able h.able, (ho.axis .e).offset.trans h.extruderOffset,
    (ho.axis .e).target.trans h.extruderTarget, h.flag, h.stage.of_calm ho⟩

theorem cartesian_nodup : AxisId.cartesian.Nodup := by
  decide

theorem mem_cartesian {before rest : List AxisId} {i : AxisId}
    (hall : before ++ i :: rest = AxisId.cartesian) : i ∈ AxisId.cartesian := by
  rw [← hall]
  exact List.mem_append_right before List.mem_cons_self

theorem stage_afterHoming {shutdown : Bool} {before rest : List AxisId} {i : AxisId}
    {h : Homing ℝ} (hn : n.Able) (hflag : shutdown = true ↔ interrupted)
    (hall : before ++ i :: rest = AxisId.cartesian) (hhomed : n.homed = m.homed)
    (hbefore : ¬ interrupted → AllZeroed n before) (hs : ¬ interrupted → h.Stands (n.axis i)) :
    Stage m (h.step shutdown n i).1 interrupted
      (some (Chore.afterHoming m.defaultSpeed i rest (h.step shutdown n i).2)) := by
  have hdistinct : ∀ j ∈ before, j ≠ i := by
    intro j hj
    have hnodup := cartesian_nodup
    rw [← hall, List.nodup_append] at hnodup
    exact hnodup.2.2 j hj i List.mem_cons_self
  have hapart := Homing.apart_of_step shutdown n i h
  have hout : ¬ interrupted → (h.step shutdown n i).2.Stands ((h.step shutdown n i).1.axis i) := by
    intro hl
    have hoff : shutdown = false := by
      rw [← Bool.not_eq_true, hflag]
      exact hl
    rw [hoff]
    exact Homing.stands_of_step hn (mem_cartesian hall) (hs hl)
  have hhomed' := hapart.homed.trans hhomed
  have hbefore' : ¬ interrupted → AllZeroed (h.step shutdown n i).1 before := by
    intro hl j hj
    rw [hapart.axis j (hdistinct j hj)]
    exact hbefore hl j hj
  generalize h.step shutdown n i = after at *
  obtain ⟨o, outcome⟩ := after
  cases outcome with
  | going k => exact .homing before i rest k hall hhomed' hbefore' hout
  | interrupted => exact .homed hhomed' fun hl => absurd (hout hl) not_false
  | done =>
    have hzeroed : ¬ interrupted → AllZeroed o (before ++ [i]) := by
      intro hl j hj
      rcases List.mem_append.mp hj with hj | hj
      · exact hbefore' hl j hj
      · rw [List.mem_singleton.mp hj]
        exact hout hl
    cases rest with
    | nil =>
      refine .homed hhomed' ?_
      rw [← hall]
      exact hzeroed
    | cons j rest =>
      refine .homing (before ++ [i]) j rest .locate ?_ hhomed' hzeroed fun _ => trivial
      rw [List.append_assoc]
      exact hall

theorem not_decided {shutdown : Bool} {c : Chore ℝ}
    (hc : ∀ saved completed, c ≠ .restore saved completed) :
    ¬ Decided ⟨n, shutdown, some c⟩ := by
  rintro (h | ⟨saved, completed, h⟩)
  · cases h
  · exact hc saved completed (Option.some.inj h)

theorem Keeps.own (h : Keeps m w interrupted) : Keeps m (w.act .own) interrupted := by
  obtain ⟨n, shutdown, c⟩ := w
  obtain ⟨hable, hoffset, htarget, hflag, hstage⟩ := h
  cases hstage with
  | home hspeed hhomed =>
    have hflag := hflag (not_decided nofun)
    refine ⟨hable, hoffset, htarget, fun _ => hflag, ?_⟩
    change Stage m n interrupted (some (.homing n.defaultSpeed .x [.y, .z] .locate))
    rw [hspeed]
    exact .homing [] .x [.y, .z] .locate rfl hhomed (fun _ => nofun) fun _ => trivial
  | homing before i rest k hall hhomed hbefore hs =>
    have hflag := hflag (not_decided nofun)
    have hapart := Homing.apart_of_step shutdown n i k
    have hne : AxisId.e ≠ i := by
      rintro rfl
      exact absurd (mem_cartesian hall) (by decide)
    refine ⟨hapart.able hable, ?_, ?_, fun _ => hflag,
      stage_afterHoming hable hflag hall hhomed hbefore hs⟩
    · exact (congrArg Axis.offset (hapart.axis .e hne)).trans hoffset
    · exact (congrArg Axis.target (hapart.axis .e hne)).trans htarget
  | homed hhomed hs =>
    have hflag := hflag (not_decided nofun)
    refine ⟨hable, hoffset, htarget, fun _ => hflag, .restore _ ?_ hhomed hs⟩
    rw [← hflag, Bool.not_eq_true', Bool.not_eq_true]
  | restore completed hc hhomed hs =>
    refine ⟨⟨hable.axes, hable.feedOverride, hable.heaters⟩, hoffset, htarget,
      fun hno => absurd (Or.inl rfl) hno, .returned rfl ?_ ?_ hs⟩
    · intro hl
      have hno : completed = false := by
        rw [← Bool.not_eq_true, hc]
        exact not_not.mpr hl
      change (completed || n.homed) = m.homed
      rw [hno, Bool.false_or, hhomed]
    · intro hl
      change (completed || n.homed) = true
      rw [hc.mpr hl, Bool.true_or]
  | returned hspeed hinterrupted hhomed hs =>
    exact ⟨hable, hoffset, htarget, hflag, .returned hspeed hinterrupted hhomed hs⟩

/-- A request that comes too late changes nothing that homing is still to do. -/
theorem Keeps.shutdown (h : Keeps m w interrupted) :
    Keeps m (w.act .shutdown) (interrupted ∨ ¬ w.Decided) := by
  obtain ⟨n, shutdown, c⟩ := w
  obtain ⟨hable, hoffset, htarget, hflag, hstage⟩ := h
  refine ⟨hable, hoffset, htarget, fun hno => ⟨fun _ => Or.inr hno, fun _ => rfl⟩, ?_⟩
  by_cases hd : Decided ⟨n, shutdown, c⟩
  · have hsame : (interrupted ∨ ¬ Decided ⟨n, shutdown, c⟩) = interrupted :=
      propext ⟨fun hl => hl.resolve_right (not_not.mpr hd), Or.inl⟩
    rw [hsame]
    exact hstage
  · have hl : interrupted ∨ ¬ Decided ⟨n, shutdown, c⟩ := Or.inr hd
    cases hstage with
    | home hspeed hhomed => exact .home hspeed hhomed
    | homing before i rest k hall hhomed hbefore hs =>
      exact .homing before i rest k hall hhomed (absurd hl) (absurd hl)
    | homed hhomed hs => exact .homed hhomed (absurd hl)
    | restore completed => exact absurd (Or.inr ⟨_, _, rfl⟩) hd
    | returned => exact absurd (Or.inl rfl) hd

theorem acts_snoc (w : Homecoming) (as : List Act) (a : Act) :
    w.acts (as ++ [a]) = (w.acts as).act a := by
  unfold acts
  rw [List.foldl_append]
  rfl

theorem interrupted_snoc (m : Machine ℝ) (as : List Act) (a : Act) :
    Interrupted m (as ++ [a]) ↔
      Interrupted m as ∨ a = .shutdown ∧ ¬ ((start m).acts as).Decided := by
  constructor
  · rintro ⟨pre, post, hsplit, hno⟩
    rcases List.eq_nil_or_concat post with rfl | ⟨post, b, rfl⟩
    · obtain ⟨rfl, ha⟩ := List.append_inj' hsplit rfl
      exact Or.inr ⟨List.head_eq_of_cons_eq ha, hno⟩
    · rw [List.concat_eq_append, ← List.cons_append, ← List.append_assoc] at hsplit
      exact Or.inl ⟨pre, post, (List.append_inj' hsplit rfl).1, hno⟩
  · rintro (⟨pre, post, rfl, hno⟩ | ⟨rfl, hno⟩)
    · exact ⟨pre, post ++ [a], by rw [List.append_assoc]; rfl, hno⟩
    · exact ⟨as, [], rfl, hno⟩

theorem interrupted_snoc_of_ne (as : List Act) {a : Act} (ha : a ≠ .shutdown) :
    Interrupted m (as ++ [a]) ↔ Interrupted m as := by
  rw [interrupted_snoc, or_iff_left]
  rintro ⟨h, -⟩
  exact ha h

theorem not_interrupted {as : List Act} (h : Act.shutdown ∉ as) : ¬ Interrupted m as := by
  rintro ⟨pre, post, rfl, -⟩
  exact h (List.mem_append_right pre List.mem_cons_self)

theorem keeps_start (hm : m.Able) : Keeps m (start m) (Interrupted m []) := by
  have hno : ¬ Interrupted m [] := not_interrupted List.not_mem_nil
  refine ⟨hm, rfl, rfl, fun _ => ?_, .home rfl rfl⟩
  constructor
  · intro h
    cases h
  · intro h
    exact absurd h hno

theorem keeps_acts (hm : m.Able) (as : List Act) :
    Keeps m ((start m).acts as) (Interrupted m as) := by
  -- An act is added at the end, since whether a request is in time depends on what came before.
  induction as using List.reverseRecOn with
  | nil => exact keeps_start hm
  | append_singleton as a ih =>
    rw [acts_snoc]
    cases a with
    | own =>
      rw [interrupted_snoc_of_ne (a := .own) as nofun]
      exact ih.own
    | tick time =>
      rw [interrupted_snoc_of_ne (a := .tick time) as nofun]
      exact ih.of_calm (calm_tick ih.able time)
    | set x =>
      rw [interrupted_snoc_of_ne (a := .set x) as nofun]
      exact ih.of_calm (calm_set _ x)
    | shutdown =>
      rw [interrupted_snoc, and_iff_right rfl]
      exact ih.shutdown

def Leads (w v : Homecoming) : Prop :=
  ∃ as, Act.shutdown ∉ as ∧ w.acts as = v

theorem Leads.trans {v u : Homecoming} (h : w.Leads v) (k : v.Leads u) : w.Leads u := by
  obtain ⟨as, has, rfl⟩ := h
  obtain ⟨bs, hbs, rfl⟩ := k
  refine ⟨as ++ bs, ?_, List.foldl_append⟩
  rw [List.mem_append]
  exact not_or.mpr ⟨has, hbs⟩

instance : Trans Leads Leads Leads :=
  ⟨Leads.trans⟩

theorem leads_act (w : Homecoming) {a : Act} (ha : Act.shutdown ≠ a) : w.Leads (w.act a) :=
  ⟨[a], by rwa [List.mem_singleton], rfl⟩

theorem leads_own {d : Chore ℝ} (c : Chore ℝ) (h : c.step false n = (o, some d)) :
    Leads ⟨n, false, some c⟩ ⟨o, false, some d⟩ := by
  have hact : act ⟨n, false, some c⟩ .own = ⟨o, false, some d⟩ := by
    change Homecoming.mk (c.step false n).1 false (c.step false n).2 = _
    rw [h]
  rw [← hact]
  exact leads_act _ nofun

/-- Two ticks that are far apart stop every axis, whatever it was about. -/
theorem leads_stop (hn : n.Able) (c : Option (Chore ℝ)) :
    ∃ o : Machine ℝ, o.Able ∧ o.isMoving = false ∧ Leads ⟨n, false, c⟩ ⟨o, false, c⟩ := by
  obtain ⟨k, hk, hfirst⟩ := exists_tick hn 0
  have hk' := hn.run hk
  have hlate (i : AxisId) : ∃ b, ∀ t, b ≤ t → (((n.axis i).run 0).run t).AtTarget :=
    (n.axis i).exists_atTarget_run 0
  choose b hb using hlate
  obtain ⟨t, ht⟩ := AxisId.exists_le b
  obtain ⟨o, ho, hsecond⟩ := exists_tick hk' t
  refine ⟨o, hk'.run ho, ?_, ?_⟩
  · apply isMoving_eq_false_iff.mpr
    intro i
    rw [(parts_of_run ho).1, (parts_of_run hk).1]
    exact Axis.not_moving_of_atTarget (hb i t (ht i))
  · rw [← hsecond, ← hfirst]
    exact (leads_act ⟨n, false, c⟩ (a := .tick 0) nofun).trans (leads_act _ (a := .tick t) nofun)

theorem leads_leg (hn : n.Able) (saved : ℝ) (i : AxisId) (rest : List AxisId) (leg : Leg) (v : ℝ) :
    ∃ o : Machine ℝ, o.Able ∧ Leads ⟨n, false, some (.homing saved i rest (.start leg v))⟩
      ⟨o, false, some (.homing saved i rest (Homing.afterLeg leg))⟩ := by
  obtain ⟨o, ho, hstop, hleads⟩ := leads_stop (hn.move (PerAxis.single i v) (some leg.speed))
    (some (.homing saved i rest (.travel leg .look)))
  refine ⟨o, ho, ?_⟩
  have hmet : Wait.step .stopped false o .look = none := by
    rw [Wait.step, Goal.isMet, hstop]
    rfl
  have hdone : Chore.step false o (.homing saved i rest (.travel leg .look)) =
      (o, some (.homing saved i rest (Homing.afterLeg leg))) := by
    rw [Chore.step, Homing.step, hmet]
    rfl
  calc Leads _ _ := leads_own (.homing saved i rest (.start leg v)) rfl
    Leads _ _ := leads_own (.homing saved i rest (.travel leg .flag)) rfl
    Leads _ _ := hleads
    Leads _ _ := leads_own _ hdone

theorem leads_axis (hn : n.Able) (saved : ℝ) (i : AxisId) (rest : List AxisId) :
    ∃ o : Machine ℝ, o.Able ∧ Leads ⟨n, false, some (.homing saved i rest .locate)⟩
      ⟨o, false, some (Chore.homeAxes saved rest)⟩ := by
  obtain ⟨k, hk, hfirst⟩ := leads_leg hn saved i rest .approach ((n.axis i).toVirtual 0.0)
  have hreleased := (Homing.apart_of_step false k i .release).able hk
  obtain ⟨l, hl, hsecond⟩ := leads_leg hreleased saved i rest .backOff backOffDistance
  obtain ⟨o, ho, hthird⟩ := leads_leg hl saved i rest .creep 0.0
  refine ⟨o, ho, ?_⟩
  calc Leads _ _ := leads_own (.homing saved i rest .locate) rfl
    Leads _ _ := hfirst
    Leads _ _ := leads_own (.homing saved i rest (.check .approach)) rfl
    Leads _ _ := leads_own (.homing saved i rest .release) rfl
    Leads _ _ := hsecond
    Leads _ _ := hthird
    Leads _ _ := leads_own (.homing saved i rest (.check .creep)) rfl

theorem leads_axes (hn : n.Able) (saved : ℝ) (is : List AxisId) :
    ∃ o : Machine ℝ, o.Able ∧ Leads ⟨n, false, some (Chore.homeAxes saved is)⟩
      ⟨o, false, some (.homed saved)⟩ := by
  induction is generalizing n with
  | nil => exact ⟨n, hn, [], List.not_mem_nil, rfl⟩
  | cons i rest ih =>
    obtain ⟨k, hk, hfirst⟩ := leads_axis hn saved i rest
    obtain ⟨o, ho, hrest⟩ := ih hk
    exact ⟨o, ho, hfirst.trans hrest⟩

theorem leads_restore (hm : m.Able) :
    ∃ o, (start m).Leads ⟨o, false, some (.restore m.defaultSpeed true)⟩ := by
  obtain ⟨o, -, haxes⟩ := leads_axes hm m.defaultSpeed AxisId.cartesian
  refine ⟨o, ?_⟩
  calc Leads _ _ := leads_own .home rfl
    Leads _ _ := haxes
    Leads _ _ := leads_own (.homed m.defaultSpeed) rfl

theorem exists_return (hm : m.Able) :
    ∃ as, Act.shutdown ∉ as ∧ ((start m).acts as).chore = none := by
  obtain ⟨o, hleads⟩ := leads_restore hm
  obtain ⟨as, has, hw⟩ := hleads.trans (leads_act _ (a := .own) nofun)
  exact ⟨as, has, congrArg chore hw⟩

/-- Homing that has returned, on every machine that is reachable from a valid configuration and
under whatever else may happen to it. -/
theorem returns_of_acts {c : MachineConfig ℝ} (hc : c.validate = .ok ()) (hm : Reachable c m)
    (as : List Act) (hr : ((start m).acts as).chore = none) :
    Returns m ((start m).acts as).machine as := by
  obtain ⟨-, hoffset, htarget, -, hstage⟩ := keeps_acts (hm.able hc) as
  rw [hr] at hstage
  cases hstage with
  | returned hspeed hinterrupted hhomed hs =>
    have hhome (hl : ¬ Interrupted m as) : m.Home ((start m).acts as).machine := by
      constructor
      · exact fun i hi => (hs hl i hi).offset
      · exact fun i hi => (hs hl i hi).target
      · exact fun i hi => (hs hl i hi).abs_position_le
      · exact hoffset
      · exact htarget
      · exact hhomed hl
    exact ⟨fun hno => hhome (not_interrupted hno), hinterrupted, hhome, hspeed⟩

theorem returns_stock :
    let m : Machine ℝ := ofConfig MachineConfig.stock
    ∃ as, Act.shutdown ∉ as ∧ ((MachineConfig.stock : MachineConfig ℝ).validate = .ok () ∧
      Reachable MachineConfig.stock m ∧ ((start m).acts as).chore = none) ∧
      Returns m ((start m).acts as).machine as := by
  intro m
  obtain ⟨as, hno, hr⟩ := exists_return (able_ofConfig validate_stock)
  exact ⟨as, hno, ⟨validate_stock, .start, hr⟩, returns_of_acts validate_stock .start as hr⟩

/-- A request before homing has returned, which finds the machine homed all the same: the flag was
looked at for the last time. -/
theorem homed_despite_request :
    let m : Machine ℝ := ofConfig MachineConfig.stock
    Reachable MachineConfig.stock m ∧ m.homed = false ∧
      ∃ as, ((start m).acts as).chore.isSome = true ∧
        ((start m).acts (as ++ [.shutdown, .own])).chore = none ∧
        ((start m).acts (as ++ [.shutdown, .own])).machine.homed = true := by
  intro m
  refine ⟨.start, rfl, ?_⟩
  obtain ⟨o, as, -, hw⟩ := leads_restore (able_ofConfig validate_stock)
  have hlate : (start m).acts (as ++ [.shutdown, .own]) =
      act ⟨o, true, some (.restore m.defaultSpeed true)⟩ .own := by
    rw [acts, List.foldl_append]
    exact congrArg (fun w => (w.act .shutdown).act .own) hw
  refine ⟨as, ?_, ?_, ?_⟩
  · rw [hw]
    rfl
  · rw [hlate]
    rfl
  · rw [hlate]
    rfl

end Homecoming

end Gantry
