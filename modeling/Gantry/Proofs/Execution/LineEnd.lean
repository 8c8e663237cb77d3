import Mathlib.Analysis.Real.Sqrt
import Gantry.Proofs.Execution.HomingLegs
import Gantry.Proofs.Execution.LineStep

/-!
# Every line ends

A line is carried out on a machine that is ticked at equal distances, and between two ticks it goes
on up to its next nap: time stands still while the line is awake. Other parties may do anything but
plan moves or change limits, and shutdown may be requested. Unless it waits for a heater, the line
is over after finitely many ticks, and the moves that it planned say how many at most.
-/

namespace Gantry

/-- The times of the moves that a step plans: one move at most. -/
noncomputable def LineWork.plans (m : Machine ℝ) (k : LineWork ℝ) : List ℝ :=
  match k.move? with
  | some (target, speed) =>
    if (m.setTarget target speed).2 then [m.moveTime target speed] else []
  | none => []

structure LineRun where
  machine : Machine ℝ
  shutdown : Bool
  /-- What the line does next; none once it is over. -/
  work : Option (LineWork ℝ)
  /-- The times of the moves that the line has planned, the last one first. -/
  planned : List ℝ
  /-- The number of ticks since the line began. -/
  ticks : ℕ
  /-- The line has gone on since the last tick. -/
  polled : Bool

namespace LineRun

def start (m : Machine ℝ) (shutdown : Bool) (line : Line ℝ) : LineRun where
  machine := m
  shutdown := shutdown
  work := some (.enter line)
  planned := []
  ticks := 0
  polled := false

noncomputable def goOn (w : LineRun) (k : LineWork ℝ) : LineRun :=
  { w with
    machine := (k.step w.shutdown w.machine).1
    work := (k.step w.shutdown w.machine).2
    planned := k.plans w.machine ++ w.planned
    polled := true }

/-- What may happen next, where a tick comes every `step` seconds. -/
inductive Next (step : ℝ) (w : LineRun) : LineRun → Prop where
  | own {k : LineWork ℝ} (h : w.work = some k) : Next step w (w.goOn k)
  /-- A tick comes when the line has gone on since the last one, and sleeps again. So no tick falls
  between the planning of a move and the first look at it, which `Event.tick` and
  `Homecoming.Act.tick` do admit: a line that any number of ticks may overtake has no bound. -/
  | tick {k : LineWork ℝ} {n : Machine ℝ} (hk : w.work = some k) (hsleep : k.isAsleep = true)
      (hpolled : w.polled = true) (h : w.machine.tick step = .ok n) :
      Next step w { w with machine := n, ticks := w.ticks + 1, polled := false }
  | aside {n : Machine ℝ} (h : w.machine.Aside n) : Next step w { w with machine := n }
  | shutdown : Next step w { w with shutdown := true }

/-- What happens to a line, on a machine that is ticked as long as the line is not over. -/
structure Polled (step : ℝ) (w : ℕ → LineRun) : Prop where
  next : ∀ n, Next step (w n) (w (n + 1))
  unending : (∀ n, (w n).work ≠ none) → ∀ b, ∃ n, b < (w n).ticks

/-- The ticks that moves of these times take at most. -/
noncomputable def ticksFor (step : ℝ) (planned : List ℝ) : ℕ :=
  (planned.map fun d => ⌈d / step⌉₊ + 2).sum

/-- The line comes to its end, and takes no more ticks than its moves do. -/
structure Ends (step : ℝ) (w : ℕ → LineRun) : Prop where
  finished : ∃ n, (w n).work = none
  ticks_le : ∀ n, (w n).ticks ≤ ticksFor step (w n).planned

variable {step : ℝ} {w v : LineRun}

theorem ticksFor_cons (step d : ℝ) (ds : List ℝ) :
    ticksFor step (d :: ds) = ⌈d / step⌉₊ + 2 + ticksFor step ds :=
  List.sum_cons

theorem ticksFor_le_append (step : ℝ) (ds es : List ℝ) :
    ticksFor step es ≤ ticksFor step (ds ++ es) := by
  unfold ticksFor
  rw [List.map_append, List.sum_append]
  exact Nat.le_add_left _ _

inductive Stage (step : ℝ) (w : LineRun) : Prop where
  /-- No axis moves, and the line does not sleep. -/
  | still (hawake : ∀ k, w.work = some k → k.wait? ≠ some .nap)
      (hstill : w.machine.isMoving = false) (hticks : w.ticks ≤ ticksFor step w.planned)
  /-- The line waits for a move of a time `d`, of which `j` ticks have passed. -/
  | moving {k : LineWork ℝ} {u : Wait} {d : ℝ} {ds : List ℝ} {j : ℕ} (hwork : w.work = some k)
      (hwait : k.wait? = some u) (hplanned : w.planned = d :: ds)
      (hmove : w.machine.InMove step d j) (hticks : w.ticks ≤ ticksFor step ds + j)
      (hj : j ≤ ⌈d / step⌉₊ + 1) (hnap : u = .nap → w.polled = true → j ≤ ⌈d / step⌉₊)
  /-- Shutdown was requested, and the line sleeps no more. -/
  | ending (hshutdown : w.shutdown = true)
      (hawake : ∀ k, w.work = some k → k.wait? = none ∨ k.wait? = some .flag)
      (hticks : w.ticks ≤ ticksFor step w.planned)

structure Keeps (step : ℝ) (w : LineRun) : Prop where
  ready : w.machine.Ready
  brisk : ∀ k, w.work = some k → k.Brisk
  stage : Stage step w

theorem Stage.ticks_le (h : Stage step w) : w.ticks ≤ ticksFor step w.planned := by
  cases h with
  | still _ _ hticks => exact hticks
  | moving _ _ hplanned _ hticks hj _ =>
    rw [hplanned, ticksFor_cons]
    omega
  | ending _ _ hticks => exact hticks

theorem keeps_start {m : Machine ℝ} {line : Line ℝ} (hr : m.Ready) (hm : m.isMoving = false)
    (hline : ∀ c ∈ line.commands, c.Brisk) (shutdown : Bool) (step : ℝ) :
    Keeps step (start m shutdown line) := by
  refine ⟨hr, ?_, .still ?_ hm (Nat.zero_le _)⟩
  · rintro k ⟨⟩
    exact hline
  · rintro k ⟨⟩
    exact nofun

theorem Keeps.aside {n : Machine ℝ} (h : Keeps step w) (hn : w.machine.Aside n) :
    Keeps step { w with machine := n } := by
  refine ⟨h.ready.aside hn, h.brisk, ?_⟩
  cases h.stage with
  | still hawake hstill hticks => exact .still hawake (hn.isMoving_eq.trans hstill) hticks
  | moving hwork hwait hplanned hmove hticks hj hnap =>
    exact .moving hwork hwait hplanned (hmove.aside hn) hticks hj hnap
  | ending hshutdown hawake hticks => exact .ending hshutdown hawake hticks

theorem Keeps.shutdown (h : Keeps step w) : Keeps step { w with shutdown := true } := by
  refine ⟨h.ready, h.brisk, ?_⟩
  cases h.stage with
  | still hawake hstill hticks => exact .still hawake hstill hticks
  | moving hwork hwait hplanned hmove hticks hj hnap =>
    exact .moving hwork hwait hplanned hmove hticks hj hnap
  | ending _ hawake hticks => exact .ending rfl hawake hticks

theorem Keeps.tick (h : Keeps step w) (hstep : 0 < step) {k : LineWork ℝ} {n : Machine ℝ}
    (hk : w.work = some k) (hsleep : k.isAsleep = true) (hpolled : w.polled = true)
    (hn : w.machine.tick step = .ok n) :
    Keeps step { w with machine := n, ticks := w.ticks + 1, polled := false } := by
  have hnap := LineWork.wait?_of_isAsleep (h.brisk k hk) hsleep
  refine ⟨h.ready.tick hn, h.brisk, ?_⟩
  cases h.stage with
  | still hawake _ _ => exact absurd hnap (hawake k hk)
  | ending _ hawake _ =>
    rcases hawake k hk with hno | hflag
    · exact absurd (hno.symm.trans hnap) nofun
    · exact absurd (hflag.symm.trans hnap) nofun
  | @moving l u d ds j hwork hwait hplanned hmove hticks hj hlooked =>
    cases hk.symm.trans hwork
    cases hnap.symm.trans hwait
    have hj' := hlooked rfl hpolled
    refine .moving hk hnap hplanned (hmove.tick hstep hn) ?_ ?_ nofun
    · exact Nat.succ_le_succ hticks
    · omega

theorem plans_of_none {k : LineWork ℝ} (m : Machine ℝ) (h : k.move? = none) : k.plans m = [] := by
  rw [LineWork.plans, h]

theorem goOn_of_step {k l : LineWork ℝ} {n : Machine ℝ}
    (h : k.step w.shutdown w.machine = (n, some l)) : w.goOn k =
      { w with
        machine := n
        work := some l
        planned := k.plans w.machine ++ w.planned
        polled := true } := by
  rw [goOn, h]

theorem Keeps.stage_of_wait (h : Keeps step w) {k : LineWork ℝ} {u : Wait} (hk : w.work = some k)
    (hwait : k.wait? = some u) : Stage step (w.goOn k) := by
  have hplans : k.plans w.machine ++ w.planned = w.planned := by
    rw [plans_of_none _ (LineWork.move?_of_wait hwait), List.nil_append]
  have hticks := h.stage.ticks_le
  cases hu : u.step .stopped w.shutdown w.machine with
  | none =>
    obtain ⟨l, hl, hno, -⟩ := LineWork.step_of_wait_over w.machine hwait hu
    rw [goOn_of_step hl, hplans]
    -- Either the machine stands still, or nobody looks whether it does any more.
    rcases Wait.still_or_shutdown hu with hstill | hshutdown
    · refine .still ?_ hstill hticks
      rintro k ⟨⟩
      rw [hno]
      exact nofun
    · refine .ending hshutdown ?_ hticks
      rintro k ⟨⟩
      exact Or.inl hno
  | some x =>
    obtain ⟨l, hl, hx, -⟩ := LineWork.step_of_wait w.machine hwait hu
    rw [goOn_of_step hl, hplans]
    cases h.stage with
    | still hawake hstill _ =>
      refine .still ?_ hstill hticks
      rintro k ⟨⟩ hnap
      cases hx.symm.trans hnap
      exact absurd (Wait.isMoving_of_nap hu) (by rw [hstill]; exact nofun)
    | ending hshutdown hawake _ =>
      rcases hawake k hk with hno | hflag
      · exact absurd (hno.symm.trans hwait) nofun
      · cases hflag.symm.trans hwait
        rw [hshutdown] at hu
        cases hu
    | @moving k' u' d ds j hwork hwait' hplanned hmove hticks' hj hnap =>
      refine .moving rfl hx hplanned hmove hticks' hj ?_
      rintro rfl -
      obtain ⟨i, hi⟩ := Machine.exists_moving (Wait.isMoving_of_nap hu)
      exact (hmove i hi).ticks_le

theorem Keeps.stage_of_aside (h : Keeps step w) {k : LineWork ℝ} (hk : w.work = some k)
    (hwait : k.wait? = none) (hmove : k.move? = none) : Stage step (w.goOn k) := by
  obtain ⟨haside, hnext⟩ :=
    LineWork.aside_of_step w.shutdown h.ready (h.brisk k hk) hwait hmove
  have hplanned : (w.goOn k).planned = w.planned := by
    rw [goOn, plans_of_none _ hmove]
    rfl
  have hticks : (w.goOn k).ticks ≤ ticksFor step (w.goOn k).planned := by
    rw [hplanned]
    exact h.stage.ticks_le
  cases h.stage with
  | still _ hstill _ =>
    refine .still ?_ (haside.isMoving_eq.trans hstill) hticks
    intro l hl hnap
    exact absurd ((hnext l hl).symm.trans hnap) nofun
  | moving hwork hwait' =>
    cases hk.symm.trans hwork
    exact absurd (hwait.symm.trans hwait') nofun
  | ending hshutdown _ _ => exact .ending hshutdown (fun l hl => Or.inl (hnext l hl)) hticks

theorem Keeps.stage_of_move (h : Keeps step w) {k : LineWork ℝ} {target : Target ℝ}
    {speed : Option ℝ} (hk : w.work = some k) (hmove : k.move? = some (target, speed)) :
    Stage step (w.goOn k) := by
  obtain ⟨l, hl, hflag⟩ := LineWork.step_of_move w.shutdown w.machine (h.brisk k hk) hmove
  have hawake : ∀ k, some l = some k → k.wait? ≠ some .nap := by
    rintro k ⟨⟩ hnap
    exact absurd (hflag.symm.trans hnap) nofun
  have hticks : w.ticks ≤ ticksFor step (k.plans w.machine ++ w.planned) :=
    h.stage.ticks_le.trans (ticksFor_le_append _ _ _)
  rw [goOn_of_step hl]
  cases h.stage with
  | still _ hstill hold =>
    cases hplanned : (w.machine.setTarget target speed).2 with
    | false =>
      have haside := Machine.aside_of_not_planned h.ready hplanned
      exact .still hawake (haside.isMoving_eq.trans hstill) hticks
    | true =>
      have hplans : k.plans w.machine ++ w.planned =
          w.machine.moveTime target speed :: w.planned := by
        rw [LineWork.plans, hmove]
        simp only [hplanned]
        rfl
      have hway := Machine.inMove_of_planned h.ready hstill hplanned step
      exact .moving rfl hflag hplans hway hold (Nat.zero_le _) fun _ _ => Nat.zero_le _
  | moving hwork hwait =>
    cases hk.symm.trans hwork
    rw [LineWork.move?_of_wait hwait] at hmove
    cases hmove
  | ending hshutdown _ _ =>
    refine .ending hshutdown ?_ hticks
    rintro k ⟨⟩
    exact Or.inr hflag

theorem Keeps.own (h : Keeps step w) {k : LineWork ℝ} (hk : w.work = some k) :
    Keeps step (w.goOn k) := by
  have hbrisk := h.brisk k hk
  refine ⟨LineWork.ready_of_step w.shutdown h.ready hbrisk,
    fun l hl => LineWork.brisk_of_step w.shutdown h.ready hbrisk hl, ?_⟩
  cases hwait : k.wait? with
  | some u => exact h.stage_of_wait hk hwait
  | none =>
    cases hmove : k.move? with
    | none => exact h.stage_of_aside hk hwait hmove
    | some move => exact h.stage_of_move hk hmove

theorem Keeps.next (h : Keeps step w) (hstep : 0 < step) (hv : Next step w v) : Keeps step v := by
  cases hv with
  | own hk => exact h.own hk
  | tick hk hsleep hpolled hn => exact h.tick hstep hk hsleep hpolled hn
  | aside hn => exact h.aside hn
  | shutdown => exact h.shutdown

def toGo (w : LineRun) : ℕ :=
  w.work.elim 0 LineWork.toGo

/-- As long as the line is not over, every step but one that waits leaves less to do. -/
theorem Keeps.toGo_of_next (h : Keeps step w) (hv : Next step w v) (ho : v.work ≠ none) :
    v.toGo < w.toGo ∨ v.toGo = w.toGo ∧ v.planned = w.planned := by
  cases hv with
  | @own k hk =>
    have hbrisk := h.brisk k hk
    obtain ⟨l, hl⟩ := Option.ne_none_iff_exists'.mp ho
    have hw : w.toGo = k.toGo := by rw [toGo, hk]; rfl
    have hv : (w.goOn k).toGo = l.toGo := by rw [toGo, hl]; rfl
    rw [hw, hv]
    cases hwait : k.wait? with
    | none => exact Or.inl (LineWork.toGo_lt w.shutdown hbrisk hwait hl)
    | some u =>
      rcases (LineWork.toGo_le w.shutdown hbrisk hl).lt_or_eq with hlt | heq
      · exact Or.inl hlt
      · refine Or.inr ⟨heq, ?_⟩
        rw [goOn, plans_of_none _ (LineWork.move?_of_wait hwait)]
        rfl
  | tick => exact Or.inr ⟨rfl, rfl⟩
  | aside => exact Or.inr ⟨rfl, rfl⟩
  | shutdown => exact Or.inr ⟨rfl, rfl⟩

theorem ticks_le_of_next (hv : Next step w v) : w.ticks ≤ v.ticks := by
  cases hv with
  | tick => exact Nat.le_succ _
  | _ => exact le_rfl

section Run

variable {w : ℕ → LineRun}

theorem Polled.keeps (hw : Polled step w) (hstep : 0 < step) (h : Keeps step (w 0)) (n : ℕ) :
    Keeps step (w n) := by
  induction n with
  | zero => exact h
  | succ n ih => exact ih.next hstep (hw.next n)

theorem Polled.exists_over (hw : Polled step w) (h : ∀ n, Keeps step (w n)) :
    ∃ n, (w n).work = none := by
  by_contra hno
  have hno := not_exists.mp hno
  -- From where the least is left to do of all that ever is, no more moves are planned. So the ticks
  -- would have to stay below what the moves so far account for.
  obtain ⟨a, ha⟩ : ∃ a, ∀ n, (w a).toGo ≤ (w n).toGo :=
    ⟨Function.argmin fun n => (w n).toGo, fun n => Function.argmin_le (fun n => (w n).toGo) n⟩
  have hsame (n : ℕ) (hn : a ≤ n) : (w n).toGo = (w a).toGo ∧ (w n).planned = (w a).planned := by
    induction n, hn using Nat.le_induction with
    | base => exact ⟨rfl, rfl⟩
    | succ n _ ih =>
      rcases (h n).toGo_of_next (hw.next n) (hno (n + 1)) with hlt | ⟨hgo, hplanned⟩
      · rw [ih.1] at hlt
        exact absurd (ha (n + 1)) (not_le.mpr hlt)
      · exact ⟨hgo.trans ih.1, hplanned.trans ih.2⟩
  have hmono : Monotone fun n => (w n).ticks :=
    monotone_nat_of_le_succ fun n => ticks_le_of_next (hw.next n)
  obtain ⟨n, hn⟩ := hw.unending hno (ticksFor step (w a).planned)
  have hlate := (h (max a n)).stage.ticks_le
  rw [(hsame _ (le_max_left a n)).2] at hlate
  exact absurd (hn.trans_le (hmono (le_max_right a n))) (not_lt.mpr hlate)

/-- A line that waits for no heater ends on every machine at rest whose limits and feeds are
positive. -/
theorem line_ends {m : Machine ℝ} {shutdown : Bool} {line : Line ℝ} (hm : m.Ready)
    (hrest : m.isMoving = false) (hline : ∀ c ∈ line.commands, c.Brisk) (hstep : 0 < step)
    (hstart : w 0 = start m shutdown line) (hw : Polled step w) : Ends step w := by
  have hfirst : Keeps step (w 0) := by
    rw [hstart]
    exact keeps_start hm hrest hline shutdown step
  have h := hw.keeps hstep hfirst
  exact ⟨hw.exists_over h, fun n => (h n).stage.ticks_le⟩

end Run

theorem able_of_step {m : Machine ℝ} (shutdown : Bool) (h : m.Able) (k : LineWork ℝ) :
    (k.step shutdown m).1.Able := by
  cases k with
  | busy chore rest =>
    cases chore with
    | move target speed blocking => exact h.move target speed
    | offset target =>
      refine ⟨fun i => (h.axes i).of_config ?_, h.feedOverride, h.heaters⟩
      simp only [LineWork.step, Chore.step, Machine.axis, Machine.applyOffset, PerAxis.get_ofFn]
      split <;> rfl
    | heat i celsius blocking => exact h.withHeater i rfl
    | homing saved i rest k => exact (Homing.apart_of_step shutdown m i k).able h
    | restore saved completed => exact ⟨h.axes, h.feedOverride, h.heaters⟩
    | _ => exact h
  | _ => exact ⟨h.axes, h.feedOverride, h.heaters⟩

/-- What happens next if nobody else does anything: a tick if the line has gone on and sleeps, or
else a step of the line. -/
noncomputable def pass (step : ℝ) (w : LineRun) : LineRun :=
  match w.work with
  | none => { w with shutdown := true }
  | some k =>
    if k.isAsleep && w.polled then
      { w with
        machine := (w.machine.tick step).toOption.getD w.machine
        ticks := w.ticks + 1
        polled := false }
    else w.goOn k

theorem pass_of_asleep {k : LineWork ℝ} {n : Machine ℝ} (hk : w.work = some k)
    (hsleep : k.isAsleep = true) (hpolled : w.polled = true) (hn : w.machine.tick step = .ok n) :
    w.pass step = { w with machine := n, ticks := w.ticks + 1, polled := false } := by
  unfold pass
  rw [hk]
  simp only [hsleep, hpolled, hn]
  rfl

theorem pass_of_awake {k : LineWork ℝ} (hk : w.work = some k)
    (h : (k.isAsleep && w.polled) = false) : w.pass step = w.goOn k := by
  unfold pass
  rw [hk]
  simp only [h]
  rfl

theorem next_pass (h : w.machine.Able) :
    Next step w (w.pass step) ∧ (w.pass step).machine.Able := by
  cases hk : w.work with
  | none =>
    have hpass : w.pass step = { w with shutdown := true } := by
      unfold pass
      rw [hk]
    rw [hpass]
    exact ⟨.shutdown, h⟩
  | some k =>
    cases ha : k.isAsleep && w.polled with
    | true =>
      obtain ⟨hsleep, hpolled⟩ := Bool.and_eq_true_iff.mp ha
      obtain ⟨n, hn⟩ := h.run_ok (w.machine.time + step)
      rw [pass_of_asleep hk hsleep hpolled hn]
      exact ⟨.tick hk hsleep hpolled hn, h.run hn⟩
    | false =>
      rw [pass_of_awake hk ha]
      exact ⟨.own hk, able_of_step w.shutdown h k⟩

theorem exists_tick_of_goOn {k : LineWork ℝ} (hk : w.work = some k)
    (ha : (k.isAsleep && w.polled) = false)
    (h : ∀ l, (w.goOn k).work = some l → ∃ n, ((pass step)^[n] (w.goOn k)).work = none ∨
      w.ticks < ((pass step)^[n] (w.goOn k)).ticks) :
    ∃ n, ((pass step)^[n] w).work = none ∨ w.ticks < ((pass step)^[n] w).ticks := by
  cases hl : (w.goOn k).work with
  | none =>
    refine ⟨1, Or.inl ?_⟩
    rw [Function.iterate_one, pass_of_awake hk ha]
    exact hl
  | some l =>
    obtain ⟨n, hn⟩ := h l hl
    refine ⟨n + 1, ?_⟩
    rw [Function.iterate_succ_apply, pass_of_awake hk ha]
    exact hn

theorem exists_tick_of_polled (step : ℝ) (h : w.machine.Able) {k : LineWork ℝ}
    (hk : w.work = some k) (hpolled : w.polled = true) :
    ∃ n, ((pass step)^[n] w).work = none ∨ w.ticks < ((pass step)^[n] w).ticks := by
  -- The rank falls with every step of the line until it sleeps; then comes the tick.
  induction hr : k.rank using Nat.strong_induction_on generalizing w k with
  | h r ih =>
    cases ha : k.isAsleep with
    | true =>
      obtain ⟨n, hn⟩ := h.run_ok (w.machine.time + step)
      refine ⟨1, Or.inr ?_⟩
      rw [Function.iterate_one, pass_of_asleep hk ha hpolled hn]
      exact Nat.lt_succ_self _
    | false =>
      refine exists_tick_of_goOn hk (by rw [ha]; rfl) fun l hl => ?_
      have hrank := LineWork.rank_of_step ha (Prod.ext rfl hl)
      rw [hr] at hrank
      exact ih l.rank hrank (able_of_step w.shutdown h k) hl rfl rfl

theorem exists_tick (step : ℝ) (h : w.machine.Able) {k : LineWork ℝ} (hk : w.work = some k) :
    ∃ n, ((pass step)^[n] w).work = none ∨ w.ticks < ((pass step)^[n] w).ticks := by
  cases hp : w.polled with
  | true => exact exists_tick_of_polled step h hk hp
  | false =>
    refine exists_tick_of_goOn hk (by rw [hp, Bool.and_false]) fun l hl => ?_
    exact exists_tick_of_polled (w := w.goOn k) step (able_of_step w.shutdown h k) hl rfl

/-- If nobody else does anything, the line is polled after every tick. -/
theorem exists_polled {m : Machine ℝ} (hm : m.Able) (shutdown : Bool) (line : Line ℝ) (step : ℝ) :
    ∃ w : ℕ → LineRun, w 0 = start m shutdown line ∧ Polled step w := by
  let w (n : ℕ) : LineRun := (pass step)^[n] (start m shutdown line)
  have hsucc (n : ℕ) : w (n + 1) = (w n).pass step := Function.iterate_succ_apply' _ _ _
  have hable (n : ℕ) : (w n).machine.Able := by
    induction n with
    | zero => exact hm
    | succ n ih =>
      rw [hsucc]
      exact (next_pass ih).2
  refine ⟨w, rfl, fun n => ?_, fun hno b => ?_⟩
  · rw [hsucc]
    exact (next_pass (hable n)).1
  · have hlater (n : ℕ) : ∃ k, (w n).ticks < (w k).ticks := by
      obtain ⟨k, hk⟩ := Option.ne_none_iff_exists'.mp (hno n)
      obtain ⟨j, hj⟩ := exists_tick step (hable n) hk
      have hsum : (pass step)^[j] (w n) = w (j + n) := (Function.iterate_add_apply _ _ _ _).symm
      rw [hsum] at hj
      exact ⟨j + n, hj.resolve_left (hno _)⟩
    induction b with
    | zero =>
      obtain ⟨k, hk⟩ := hlater 0
      exact ⟨k, Nat.zero_lt_of_lt hk⟩
    | succ b ih =>
      obtain ⟨n, hn⟩ := ih
      obtain ⟨k, hk⟩ := hlater n
      exact ⟨k, Nat.lt_of_le_of_lt hn hk⟩

/-- A line on the stock machine that homes it, moves it and heats it without waiting. -/
theorem line_ends_stock :
    let m : Machine ℝ := Machine.ofConfig MachineConfig.stock
    let line : Line ℝ := ⟨"G28 G1 X0.3 Z0.4 M104 S200",
      [.home, .move ⟨some 0.3, none, some 0.4, none⟩ none, .heat .nozzle 200 false]⟩
    ∃ w : ℕ → LineRun, (m.Ready ∧ m.isMoving = false ∧ (∀ c ∈ line.commands, c.Brisk) ∧
      (0 : ℝ) < 0.01 ∧ w 0 = start m false line ∧ Polled 0.01 w) ∧ Ends 0.01 w := by
  intro m line
  have hable : m.Able := Machine.able_ofConfig Machine.validate_stock
  obtain ⟨w, hstart, hw⟩ := exists_polled hable false line 0.01
  have hspeed : (0 : ℝ) < 0.01 := by norm_num
  have hm : m.Ready := ⟨hable.axes, hable.feedOverride, hspeed⟩
  have hrest : m.isMoving = false := by
    apply Machine.isMoving_eq_false_iff.mpr
    exact fun i => Axis.not_moving_of_atTarget (Machine.atRest_ofConfig _ i)
  have hline : ∀ c ∈ line.commands, c.Brisk := by
    simp [line, Gcode.Command.Brisk]
  exact ⟨w, ⟨hm, hrest, hline, hspeed, hstart, hw⟩,
    line_ends hm hrest hline hspeed hstart hw⟩

end LineRun

end Gantry
