import Mathlib
import Gantry.Config.Basic
import Gantry.Execution.Chore
import Gantry.Proofs.Machine.Reachable
import Gantry.Proofs.Number.Special

/-!
# Waiting for a heater

A blocking command writes a set point and waits until the heater holds it. While it waits, ticks
come at times that do not fall, and other parties move axes and change settings. When it returns,
the ticks since its own set point end in a block that was spent inside the band, for longer than
the settle time of one of them: what was reached before counts for nothing.
-/

namespace Gantry

open Number

structure Reading (α : Type) where
  temperature : α
  /-- The band and the settle time in force. -/
  window : α
  settleTime : α
  elapsed : α

namespace Reading

variable {α : Type} [Scalar α]

def ofTick (before after : Body α) (time : α) : Reading α where
  temperature := after.temperature
  window := after.config.settleWindow
  settleTime := after.config.settleTime
  elapsed := before.elapsed time

def InBand (celsius : α) (r : Reading α) : Prop :=
  Scalar.abs (r.temperature - celsius) < r.window

def total (rs : List (Reading α)) : α :=
  rs.foldl (fun t r => t + r.elapsed) 0.0

/-- The ticks end in a block inside the band that was longer than the settle time of one of them. -/
def Settled (celsius : α) (rs : List (Reading α)) : Prop :=
  ∃ before block, rs = before ++ block ∧ (∀ r ∈ block, r.InBand celsius) ∧
    ∃ r ∈ block, r.settleTime < total block

theorem total_snoc (rs : List (Reading α)) (r : Reading α) :
    total (rs ++ [r]) = total rs + r.elapsed := by
  simp only [total, List.foldl_append, List.foldl_cons, List.foldl_nil]

end Reading

namespace Body

variable {b d : Body Float} {time celsius : Float} {rs : List (Reading Float)}

/-- The timer counts a block of ticks inside the band, and the set point is reached by such a block
only. -/
def Counts (b : Body Float) (celsius : Float) (rs : List (Reading Float)) : Prop :=
  ∃ before block, rs = before ++ block ∧ (∀ r ∈ block, r.InBand celsius) ∧
    b.settleTimer = Reading.total block ∧
    (b.reached = true → ∃ r ∈ block, r.settleTime < Reading.total block)

def NotAfter (b : Body Float) (time : Float) : Prop :=
  ∀ last, b.lastTime = some last → last ≤ time

theorem counts_setTemperature (b : Body Float) (celsius : Float) :
    (b.setTemperature celsius).Counts celsius [] :=
  ⟨[], [], rfl, by simp, rfl, nofun⟩

/-- A tick into the band has a duration, and that is not below zero. -/
theorem elapsed_of_inBand (hrun : b.run time = .ok d) (hlast : b.NotAfter time)
    (hin : (Reading.ofTick b d time).InBand celsius) :
    (b.elapsed time).isFinite = true ∧ 0 ≤ toRat (b.elapsed time) := by
  obtain ⟨control, power, ha⟩ := advances_of_run hrun
  have hfin : (b.elapsed time).isFinite = true := by
    have htemp := (isFinite_of_sub (isFinite_of_abs_lt hin)).1
    rw [Reading.ofTick, ha.temperature] at htemp
    have hgain := (isFinite_of_add htemp).2
    exact (isFinite_of_mul (isFinite_of_div (isFinite_of_div hgain))).2
  refine ⟨hfin, ?_⟩
  unfold elapsed at hfin ⊢
  cases hl : b.lastTime with
  | none => exact toRat_zero.ge
  | some last =>
    simp only [hl] at hfin
    exact sub_nonneg (hlast last hl) hfin

/-- A tick into the band goes on with the block, and any other one ends it. -/
theorem Counts.run (h : b.Counts celsius rs) (hset : b.setPoint = celsius)
    (hlast : b.NotAfter time) (hrun : b.run time = .ok d) :
    d.Counts celsius (rs ++ [Reading.ofTick b d time]) := by
  obtain ⟨before, block, rfl, hband, htimer, hreached⟩ := h
  obtain ⟨control, power, ha⟩ := advances_of_run hrun
  have hsettle := ha.settle
  rw [hset, htimer] at hsettle
  by_cases hin : (Reading.ofTick b d time).InBand celsius
  · obtain ⟨hfin, hpos⟩ := elapsed_of_inBand hrun hlast hin
    have hwindow : Scalar.abs (d.temperature - celsius) < b.config.settleWindow := by
      rw [← ha.config]
      exact hin
    rw [if_pos hwindow, Prod.mk.injEq] at hsettle
    refine ⟨before, block ++ [.ofTick b d time], by simp, ?_, ?_, fun hd => ?_⟩
    · intro r hr
      rcases List.mem_append.mp hr with hr | hr
      · exact hband r hr
      · rw [List.mem_singleton.mp hr]
        exact hin
    · rw [hsettle.2, Reading.total_snoc]
      rfl
    · rw [Reading.total_snoc]
      rw [hsettle.1, Bool.or_eq_true, decide_eq_true_iff] at hd
      rcases hd with hd | hd
      · obtain ⟨r, hr, hlt⟩ := hreached hd
        exact ⟨r, by simp [hr], lt_add hlt hfin hpos⟩
      · refine ⟨.ofTick b d time, by simp, ?_⟩
        rw [← ha.config] at hd
        exact hd
  · have hwindow : ¬ Scalar.abs (d.temperature - celsius) < b.config.settleWindow := by
      rw [← ha.config]
      exact hin
    rw [if_neg hwindow, Prod.mk.injEq] at hsettle
    refine ⟨_, [], (List.append_nil _).symm, by simp, hsettle.2, fun hd => ?_⟩
    rw [hsettle.1] at hd
    cases hd

theorem Tuning.same (h : Tuning b d) : d.setPoint = b.setPoint ∧ d.lastTime = b.lastTime ∧
    d.reached = b.reached ∧ d.settleTimer = b.settleTimer := by
  cases h with
  | _ => exact ⟨rfl, rfl, rfl, rfl⟩

end Body

namespace Machine

variable {c : MachineConfig Float} {m n : Machine Float} {time : Float}

/-- The last tick of a heater was the last one of the machine. -/
def Clocked (m : Machine Float) (k : HeaterId) : Prop :=
  ∀ last, (m.heater k).lastTime = some last → last = m.time

theorem clocked_of_run (hn : m.run time = .ok n) (k : HeaterId) : n.Clocked k := by
  intro last hl
  obtain ⟨control, power, ha⟩ := Body.advances_of_run (heater_of_run hn k)
  rw [ha.lastTime, Option.some.injEq] at hl
  rw [time_of_run hn, hl]

theorem Clocked.perform {k : HeaterId} (h : m.Clocked k) {op : Operation Float (Setting Float)}
    (ht : op.time? = none) (hn : op.perform m = .ok n)
    (hlast : (n.heater k).lastTime = (m.heater k).lastTime) : n.Clocked k := by
  intro last hl
  rw [Operation.time_perform ht hn]
  exact h last (hlast ▸ hl)

theorem Reachable.clocked (h : Reachable c m) (k : HeaterId) : m.Clocked k := by
  induction h with
  | start =>
    intro last hl
    simp [heater, ofConfig, Body.ofConfig] at hl
  | step op hop _ hn ih =>
    cases ht : op.time? with
    | some time =>
      obtain rfl := Operation.eq_tick ht
      exact clocked_of_run hn k
    | none =>
      refine ih.perform ht hn ?_
      by_cases hw : op.Writes k
      · cases op with
        | heat i celsius =>
          cases hn
          cases hw
          rw [heater_setTemperature_self]
          rfl
        | onHeater i f => cases hop
        | _ => cases hw
      · exact (Operation.tuning_perform hw ht hn).same.2.1

end Machine

/-- A blocking command for a heater, and a reading of every tick since it wrote its set point. -/
structure Watch where
  machine : Machine Float
  chore : Option (Chore Float)
  readings : List (Reading Float)

namespace Watch

/-- What happens next: a step of the command, or a tick or any other operation. -/
inductive Act where
  | own
  | other (op : Operation Float (Setting Float))

def times (as : List Act) : List Float :=
  as.filterMap fun
    | .other op => op.time?
    | .own => none

def start (m : Machine Float) (k : HeaterId) (celsius : Float) : Watch :=
  let after := (Chore.ofCommand (.heat k celsius true)).step false m
  { machine := after.1, chore := after.2, readings := [] }

def act (k : HeaterId) (w : Watch) : Act → Watch
  | .own =>
    match w.chore with
    | some c =>
      let after := c.step false w.machine
      { w with machine := after.1, chore := after.2 }
    | none => w
  | .other op =>
    match op.perform w.machine with
    | .ok n =>
      let read := op.time?.map (Reading.ofTick (w.machine.heater k) (n.heater k))
      { w with machine := n, readings := w.readings ++ read.toList }
    | .error _ => w

def acts (k : HeaterId) (w : Watch) (as : List Act) : Watch :=
  as.foldl (act k) w

/-- The next step of the command is its last one. -/
def Returns (w : Watch) : Prop :=
  ∃ c, w.chore = some c ∧ (c.step false w.machine).2 = none

/-- The command waits for its own set point, and the timer counts what was read since. -/
structure Sound (k : HeaterId) (celsius : Float) (w : Watch) : Prop where
  clocked : w.machine.Clocked k
  waits : ∀ c, w.chore = some c → ∃ v, c = .await (.settled k) v
  setPoint : (w.machine.heater k).setPoint = celsius
  counts : (w.machine.heater k).Counts celsius w.readings

variable {k : HeaterId} {celsius : Float} {w : Watch}

theorem sound_start {m : Machine Float} (h : m.Clocked k) (celsius : Float) :
    (start m k celsius).Sound k celsius := by
  have hheater := m.heater_setTemperature_self k celsius
  refine ⟨?_, fun c hc => ?_, ?_, ?_⟩
  · intro last hl
    have hl : ((m.setTemperature k celsius).heater k).lastTime = some last := hl
    rw [hheater] at hl
    exact h last hl
  · have hc : (if true && celsius != 0.0 then some (Chore.await (.settled k) .flag) else none) =
        some c := hc
    split at hc
    · cases hc
      exact ⟨.flag, rfl⟩
    · cases hc
  · show ((m.setTemperature k celsius).heater k).setPoint = celsius
    rw [hheater]
    rfl
  · show ((m.setTemperature k celsius).heater k).Counts celsius []
    rw [hheater]
    exact Body.counts_setTemperature _ _

theorem Sound.own (h : w.Sound k celsius) :
    (w.act k .own).Sound k celsius ∧ (w.act k .own).machine = w.machine := by
  cases hc : w.chore with
  | none =>
    simp only [act, hc]
    exact ⟨h, trivial⟩
  | some c =>
    obtain ⟨v, rfl⟩ := h.waits c hc
    simp only [act, hc]
    refine ⟨⟨h.clocked, fun d hd => ?_, h.setPoint, h.counts⟩, rfl⟩
    obtain ⟨u, -, rfl⟩ := Option.map_eq_some_iff.mp hd
    exact ⟨u, rfl⟩

theorem Sound.tick (h : w.Sound k celsius) {time : Float} (ht : w.machine.time ≤ time) :
    (w.act k (.other (.tick time))).Sound k celsius ∧
      ((w.act k (.other (.tick time))).machine.time = time ∨
        (w.act k (.other (.tick time))).machine = w.machine) := by
  cases hn : w.machine.run time with
  | error fault =>
    simp only [act, Operation.perform, hn]
    exact ⟨h, Or.inr trivial⟩
  | ok n =>
    simp only [act, Operation.perform, hn]
    have hrun := Machine.heater_of_run hn k
    have hset : (n.heater k).setPoint = celsius :=
      (Body.setPoint_of_run hrun).trans h.setPoint
    refine ⟨⟨Machine.clocked_of_run hn k, h.waits, hset, ?_⟩, Or.inl (Machine.time_of_run hn)⟩
    refine h.counts.run h.setPoint (fun last hl => ?_) hrun
    rw [h.clocked last hl]
    exact ht

theorem Sound.other (h : w.Sound k celsius) {op : Operation Float (Setting Float)}
    (hw : ¬ op.Writes k) (ht : op.time? = none) :
    (w.act k (.other op)).Sound k celsius ∧
      (w.act k (.other op)).machine.time = w.machine.time := by
  obtain ⟨n, hn⟩ : ∃ n, op.perform w.machine = .ok n := ⟨_, Operation.perform_after ht w.machine⟩
  obtain ⟨hset, hlast, hreached, htimer⟩ := (Operation.tuning_perform hw ht hn).same
  simp only [act, hn, ht, Option.map_none, Option.toList_none, List.append_nil]
  refine ⟨⟨h.clocked.perform ht hn hlast, h.waits, hset.trans h.setPoint, ?_⟩,
    Operation.time_perform ht hn⟩
  obtain ⟨before, block, hrs, hband, hb, hr⟩ := h.counts
  exact ⟨before, block, hrs, hband, htimer.trans hb, fun hd => hr (hreached ▸ hd)⟩

theorem Sound.acts {as : List Act} (h : w.Sound k celsius)
    (ht : (w.machine.time :: times as).Pairwise (· ≤ ·))
    (ho : ∀ op, .other op ∈ as → ¬ op.Writes k) : (w.acts k as).Sound k celsius := by
  -- The time of the machine is not after that of any tick to come.
  induction as generalizing w with
  | nil => exact h
  | cons a as ih =>
    have ho' (op : Operation Float (Setting Float)) (hop : .other op ∈ as) : ¬ op.Writes k :=
      ho op (List.mem_cons_of_mem a hop)
    cases a with
    | own =>
      obtain ⟨hs, hm⟩ := h.own
      exact ih hs (hm ▸ ht) ho'
    | other op =>
      cases htime : op.time? with
      | none =>
        obtain ⟨hs, hm⟩ := h.other (ho op List.mem_cons_self) htime
        refine ih hs ?_ ho'
        have hrest : times (.other op :: as) = times as := List.filterMap_cons_none htime
        rw [hm, ← hrest]
        exact ht
      | some time =>
        obtain rfl := Operation.eq_tick htime
        have ht : (w.machine.time :: time :: times as).Pairwise (· ≤ ·) := ht
        obtain ⟨hle, hrest⟩ := List.pairwise_cons.mp ht
        obtain ⟨hs, hm | hm⟩ := h.tick (hle time List.mem_cons_self)
        · refine ih hs ?_ ho'
          rw [hm]
          exact hrest
        · refine ih hs ?_ ho'
          rw [hm]
          exact List.pairwise_cons.mpr
            ⟨fun t hmem => hle t (List.mem_cons_of_mem time hmem), hrest.of_cons⟩

theorem Sound.settled (h : w.Sound k celsius) (hr : w.Returns) :
    Reading.Settled celsius w.readings := by
  obtain ⟨c, hc, hnone⟩ := hr
  obtain ⟨v, rfl⟩ := h.waits c hc
  have hreached : (w.machine.heater k).reached = true := by
    cases v with
    | look =>
      by_contra hn
      simp [Chore.step, Wait.step, Goal.isMet, hn] at hnone
    | flag => simp [Chore.step, Wait.step] at hnone
    | nap => simp [Chore.step, Wait.step] at hnone
  obtain ⟨before, block, hrs, hband, -, hblock⟩ := h.counts
  exact ⟨before, block, hrs, hband, hblock hreached⟩

/-- A blocking command returns on a settled heater only. -/
theorem settled_of_returns (c : MachineConfig Float) (m : Machine Float)
    (hm : Machine.Reachable c m) (k : HeaterId) (celsius : Float) (as : List Act)
    (ht : (m.time :: times as).Pairwise (· ≤ ·)) (ho : ∀ op, .other op ∈ as → ¬ op.Writes k)
    (hr : ((start m k celsius).acts k as).Returns) :
    Reading.Settled celsius ((start m k celsius).acts k as).readings :=
  ((sound_start (hm.clocked k) celsius).acts ht ho).settled hr

/-- The stock nozzle is at its set point from the start, and has to stay there for a while. -/
theorem settled_stock :
    let m := Machine.ofConfig (MachineConfig.stock : MachineConfig Float)
    let as : List Act := [.own, .own, .other (.tick 0.05), .other (.set (.settle .nozzle 0.5 0.1)),
      .other (.tick 0.1), .other (.tick 0.15), .other (.move (PerAxis.single .x 0.05) none),
      .other (.tick 0.2), .own, .own]
    Machine.Reachable MachineConfig.stock m ∧ (m.time :: times as).Pairwise (· ≤ ·) ∧
      ((start m .nozzle 25.0).acts .nozzle as).Returns ∧
      Reading.Settled 25.0 ((start m .nozzle 25.0).acts .nozzle as).readings := by
  intro m as
  have hm : Machine.Reachable MachineConfig.stock m := .start
  have ht : (m.time :: times as).Pairwise (· ≤ ·) := by decide +kernel
  have ho (op : Operation Float (Setting Float)) (hop : .other op ∈ as) :
      ¬ op.Writes .nozzle := by
    simp only [as, List.mem_cons, List.not_mem_nil, Act.other.injEq, reduceCtorEq, false_or,
      or_false] at hop
    rcases hop with rfl | rfl | rfl | rfl | rfl | rfl <;> exact id
  have hr : ((start m .nozzle 25.0).acts .nozzle as).Returns :=
    ⟨.await (.settled .nozzle) .look, by decide +kernel, by decide +kernel⟩
  exact ⟨hm, ht, hr, settled_of_returns MachineConfig.stock m hm .nozzle 25.0 as ht ho hr⟩

end Watch

end Gantry
