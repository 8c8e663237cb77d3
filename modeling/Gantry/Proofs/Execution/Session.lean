import Mathlib
import Gantry.Proofs.Execution.Effect
import Gantry.Proofs.Heat.Range
import Gantry.Proofs.Motion.Range

/-!
# Lines and ticks

The stock engine is given lines, one after the other, with ticks between any two of their steps. As
long as no coordinate and no temperature of a line is beyond `1e290`, all positions, targets and
offsets, all temperatures, powers and integrals stay finite, however many lines there are and
whatever feeds they name. A temperature with too many digits is infinite, and one tick later its
heater has no temperature any more.
-/

namespace Gantry

open Number

/-- No coordinate that is named is beyond `1e290`. -/
def PerAxis.Moderate (target : Target Float) : Prop :=
  ∀ i ∈ AxisId.all, ∀ v ∈ target.get i, v.abs ≤ 1e290

instance (target : Target Float) : Decidable (PerAxis.Moderate target) :=
  inferInstanceAs (Decidable (∀ i ∈ AxisId.all, ∀ v ∈ target.get i, v.abs ≤ 1e290))

def Gcode.Command.Moderate : Gcode.Command Float → Prop
  | .move target _ => PerAxis.Moderate target
  | .offset target => PerAxis.Moderate target
  | .home => True
  | .heat _ celsius _ => celsius.abs ≤ 1e290

instance : DecidablePred Gcode.Command.Moderate := fun c =>
  match c with
  | .move target _ => inferInstanceAs (Decidable (PerAxis.Moderate target))
  | .offset target => inferInstanceAs (Decidable (PerAxis.Moderate target))
  | .home => inferInstanceAs (Decidable True)
  | .heat _ celsius _ => inferInstanceAs (Decidable (celsius.abs ≤ 1e290))

def Gcode.Moderate (text : String) : Prop :=
  ∀ c ∈ (Line.ofText text : Line Float).commands, c.Moderate

instance (text : String) : Decidable (Gcode.Moderate text) :=
  inferInstanceAs (Decidable (∀ c ∈ (Line.ofText text : Line Float).commands, c.Moderate))

theorem bounded_of_moderate {v : Float} (h : v.abs ≤ 1e290) : Bounded v 964 :=
  bounded_of_abs_le (bounded_iff.mpr ⟨by decide +kernel, by decide +kernel⟩) h

/-- What is named in metres is so small that it does not add up. -/
def PerAxis.Small (target : Target Float) : Prop :=
  ∀ i v, target.get i = some v → Bounded v 964

theorem PerAxis.Moderate.inMetres {target : Target Float} (h : Moderate target) :
    Small target.inMetres := by
  intro i v hv
  rw [PerAxis.inMetres, PerAxis.get_map, Option.map_eq_some_iff] at hv
  obtain ⟨w, hw, rfl⟩ := hv
  have hdiv : Bounded (w / 1000.0) 955 :=
    (bounded_of_moderate (h i (AxisId.mem_all i) w hw)).div (by decide +kernel)
      (show (2 : ℚ) ^ (9 : ℤ) ≤ toRat 1000.0 by decide +kernel)
  exact hdiv.mono

structure Machine.Tame (m : Machine Float) : Prop where
  time : Upto m.time 50
  axes : ∀ i, (m.axis i).Tame
  heaters : ∀ k, (m.heater k).Tame k m.time

namespace Machine

variable {m n : Machine Float} {target : Target Float}

theorem tame_stock : (ofConfig (MachineConfig.stock : MachineConfig Float)).Tame := by
  refine ⟨.zero _, fun i => ?_, fun k => ?_⟩
  · have := Axis.tame_stock i
    simpa [axis, ofConfig, MachineConfig.stock] using this
  · have := Body.tame_stock k (ofConfig (MachineConfig.stock : MachineConfig Float)).time
    simpa [heater, ofConfig, MachineConfig.stock] using this

/-- Time goes on until it is so late that a tick does not change it, and never jumps. -/
theorem tick_time {now : Float} (h : Upto now 50) :
    Upto (now + 0.05) 50 ∧ Upto (now + 0.05 - now) (-3) := by
  have hstep : Upto 0.05 (-4) := by
    constructor <;> decide +kernel
  have hround := add_rounded h.isFinite hstep.isFinite
  have hsum : Bounded (now + 0.05) 50 := h.bounded.add_small hstep.bounded
  have hpos := hround.ge hsum.isFinite onGrid_zero le_rfl (add_nonneg h.ge hstep.ge)
  refine ⟨.of_bounded hsum hpos, ?_⟩
  have hexact : |toRat now + toRat 0.05| ≤ 2 ^ (1023 : ℤ) := by
    have hlast : (2 : ℚ) ^ (50 : ℤ) + 2 ^ (-4 : ℤ) ≤ 2 ^ (1023 : ℤ) :=
      two_zpow_add_le (by norm_num) (by norm_num)
    rw [abs_of_nonneg (add_nonneg h.ge hstep.ge)]
    exact (add_le_add h.le hstep.le).trans hlast
  obtain ⟨-, hnear⟩ := hround.nearest hexact
  have hge := hnear.le_of_ge (onGrid_toRat now) (le_add_of_nonneg_right hstep.ge)
  -- The old time is on the grid too, so the new one is no further off the exact sum.
  have hclose := hnear.closest (toRat now) (onGrid_toRat now)
  have hle : toRat (now + 0.05) - toRat now ≤ 2 ^ (-3 : ℤ) := by
    rw [sub_add_cancel_left, abs_neg, abs_of_nonneg hstep.ge] at hclose
    have hfar := (le_abs_self _).trans hclose
    calc toRat (now + 0.05) - toRat now ≤ 2 * toRat 0.05 := by linarith
      _ ≤ 2 * 2 ^ (-4 : ℤ) := by linarith [hstep.le]
      _ = 2 ^ (-3 : ℤ) := by norm_num
  exact .of_rounded (sub_rounded hsum.isFinite h.isFinite) (by linarith) hle (by decide)

namespace Tame

theorem setTarget (h : m.Tame)
    (hv : ∀ i v, target.get i = some v → Bounded ((m.axis i).toPhysical v) 1018)
    (speed : Option Float) : (m.setTarget target speed).1.Tame := by
  refine ⟨?_, fun i => ?_, fun k => ?_⟩
  · rw [time_setTarget]
    exact h.time
  · rcases m.axis_setTarget target speed i with hn | ⟨v, s, hi, hn⟩
    · rw [hn]
      exact h.axes i
    · rw [hn]
      exact (h.axes i).setTarget (hv i v hi) s
  · rw [heater_setTarget, time_setTarget]
    exact h.heaters k

theorem applyOffset (h : m.Tame) (hv : PerAxis.Small target) : (m.applyOffset target).Tame := by
  refine ⟨h.time, fun i => ?_, h.heaters⟩
  simp only [axis, Machine.applyOffset, PerAxis.get_ofFn]
  split
  · exact h.axes i
  · rename_i v hi
    exact (h.axes i).setOffset (hv i v hi)

theorem setAxis (h : m.Tame) (i : AxisId) {a : Axis Float} (ha : a.Tame) :
    (m.setAxis i a).Tame := by
  refine ⟨h.time, fun j => ?_, h.heaters⟩
  by_cases hj : j = i
  · subst hj
    simpa [axis, Machine.setAxis] using ha
  · simpa [axis, Machine.setAxis, PerAxis.get_set_of_ne _ _ hj] using h.axes j

theorem setTemperature (h : m.Tame) (k : HeaterId) {celsius : Float} (hc : Bounded celsius 964) :
    (m.setTemperature k celsius).Tame := by
  refine ⟨h.time, h.axes, fun l => ?_⟩
  show ((m.setHeater k ((m.heater k).setTemperature celsius)).heater l).Tame l m.time
  rw [heater_setHeater]
  split
  · rename_i hl
    subst hl
    exact (h.heaters l).setTemperature hc
  · exact h.heaters l

/-- A tick of the stock length is carried out, and axes and heaters stay tame. -/
theorem tick (h : m.Tame) : ∃ n, m.tick 0.05 = .ok n ∧ n.Tame ∧
    ∀ i, (n.axis i).offset = (m.axis i).offset := by
  obtain ⟨htime, hstep⟩ := tick_time h.time
  have hpower (k : HeaterId) : Scalar.isPositive (HeaterConfig.stock k : HeaterConfig Float).hPower
      = true := by
    cases k <;> decide +kernel
  have hrun (k : HeaterId) := (h.heaters k).guarded.run_ok (hpower k) (m.time + 0.05)
  obtain ⟨n, hn⟩ := run_of_heaters hrun
  obtain ⟨haxes, -, -⟩ := parts_of_run hn
  refine ⟨n, hn, ⟨?_, fun i => ?_, fun k => ?_⟩, fun i => ?_⟩
  · rw [time_of_run hn]
    exact htime
  · rw [haxes]
    exact (h.axes i).run htime
  · rw [time_of_run hn]
    exact (h.heaters k).run hstep (heater_of_run hn k)
  · rw [haxes, Axis.run_offset]

end Tame

end Machine

section Work

variable {m n : Machine Float} {i : AxisId}

def Homing.Tame (m : Machine Float) (i : AxisId) : Homing Float → Prop
  | .start _ v => Bounded ((m.axis i).toPhysical v) 1018
  | _ => True

def Homing.Outcome.Tame (m : Machine Float) (i : AxisId) : Homing.Outcome Float → Prop
  | .going k => k.Tame m i
  | _ => True

theorem Homing.tame_creep (hm : m.Tame) (i : AxisId) : (start .creep 0.0).Tame m i :=
  (hm.axes i).toPhysical (Upto.zero _).bounded

theorem Homing.tame_afterLeg (hm : m.Tame) (i : AxisId) (leg : Leg) :
    (afterLeg leg).Tame m i := by
  cases leg with
  | backOff => exact tame_creep hm i
  | _ => trivial

theorem Homing.tame_afterCheck (hm : m.Tame) (i : AxisId) (leg : Leg) :
    (afterCheck leg : Outcome Float).Tame m i := by
  cases leg with
  | backOff => exact tame_creep hm i
  | _ => trivial

theorem Homing.Tame.step {h : Homing Float} (hm : m.Tame) (hh : h.Tame m i) (shutdown : Bool) :
    (h.step shutdown m i).1.Tame ∧ (h.step shutdown m i).2.Tame (h.step shutdown m i).1 i := by
  cases h with
  | locate => exact ⟨hm, (hm.axes i).toPhysical_zero⟩
  | start leg target =>
    refine ⟨hm.setTarget (fun j v hv => ?_) _, trivial⟩
    by_cases hj : j = i
    · subst hj
      rw [PerAxis.single, PerAxis.get_set_self, Option.some.injEq] at hv
      exact hv ▸ hh
    · rw [PerAxis.get_single_of_ne _ hj] at hv
      cases hv
  | travel leg wait =>
    refine ⟨hm, ?_⟩
    unfold Homing.step
    simp only
    split
    · trivial
    · exact tame_afterLeg hm i leg
  | check leg =>
    refine ⟨hm, ?_⟩
    unfold Homing.step
    simp only
    split
    · trivial
    · exact tame_afterCheck hm i leg
  | release =>
    have hcleared : (m.clearOffset i).Tame := hm.setAxis i (hm.axes i).clearOffset
    refine ⟨hcleared, (hcleared.axes i).toPhysical ?_⟩
    constructor <;> decide +kernel

def Chore.Tame (m : Machine Float) : Chore Float → Prop
  | .move target _ _ => PerAxis.Small target
  | .offset target => PerAxis.Small target
  | .heat _ celsius _ => Bounded celsius 964
  | .homing _ i _ h => h.Tame m i
  | _ => True

theorem Chore.tame_ofCommand {c : Gcode.Command Float} (h : c.Moderate) (m : Machine Float) :
    (ofCommand c).Tame m := by
  cases c with
  | move target feed => exact h.inMetres
  | offset target => exact h.inMetres
  | home => trivial
  | heat k celsius wait => exact bounded_of_moderate h

theorem Chore.tame_homeAxes (saved : Float) (is : List AxisId) (m : Machine Float) :
    (homeAxes saved is).Tame m := by
  cases is <;> trivial

theorem Chore.Tame.step {k : Chore Float} (hm : m.Tame) (hk : k.Tame m) (shutdown : Bool) :
    (k.step shutdown m).1.Tame ∧
      ∀ l, (k.step shutdown m).2 = some l → l.Tame (k.step shutdown m).1 := by
  cases k with
  | move target speed blocking =>
    refine ⟨hm.setTarget (fun i v hv => (hm.axes i).toPhysical (hk i v hv)) speed, fun l hl => ?_⟩
    obtain ⟨-, hl⟩ := Option.ite_none_right_eq_some.mp hl
    cases hl
    trivial
  | offset target => exact ⟨hm.applyOffset hk, nofun⟩
  | heat h celsius blocking =>
    refine ⟨hm.setTemperature h hk, fun l hl => ?_⟩
    obtain ⟨-, hl⟩ := Option.ite_none_right_eq_some.mp hl
    cases hl
    trivial
  | await goal wait =>
    refine ⟨hm, fun l hl => ?_⟩
    obtain ⟨v, -, rfl⟩ := Option.map_eq_some_iff.mp hl
    trivial
  | home =>
    refine ⟨hm, fun l hl => ?_⟩
    cases hl
    exact tame_homeAxes _ _ m
  | homing saved i rest h =>
    obtain ⟨hn, ho⟩ := Homing.Tame.step hm hk shutdown
    refine ⟨hn, fun l hl => ?_⟩
    cases hl
    show (afterHoming saved i rest (h.step shutdown m i).2).Tame (h.step shutdown m i).1
    cases hout : (h.step shutdown m i).2 with
    | going h' =>
      rw [hout] at ho
      exact ho
    | done => exact tame_homeAxes _ _ _
    | interrupted => trivial
  | homed saved =>
    refine ⟨hm, fun l hl => ?_⟩
    cases hl
    trivial
  | restore saved completed => exact ⟨⟨hm.time, hm.axes, hm.heaters⟩, nofun⟩

def LineWork.Tame (m : Machine Float) : LineWork Float → Prop
  | .enter line => ∀ c ∈ line.commands, c.Moderate
  | .next c rest => c.Moderate ∧ ∀ d ∈ rest, d.Moderate
  | .busy k rest => k.Tame m ∧ ∀ d ∈ rest, d.Moderate
  | .leave => True

theorem LineWork.tame_ofCommands {cs : List (Gcode.Command Float)} (h : ∀ c ∈ cs, c.Moderate)
    (m : Machine Float) : (ofCommands cs).Tame m := by
  cases cs with
  | nil => trivial
  | cons c cs => exact ⟨h c (by simp), fun d hd => h d (by simp [hd])⟩

theorem LineWork.Tame.step {w : LineWork Float} (hm : m.Tame) (hw : w.Tame m) (shutdown : Bool) :
    (w.step shutdown m).1.Tame ∧
      ∀ v, (w.step shutdown m).2 = some v → v.Tame (w.step shutdown m).1 := by
  have hflow (f : Flow → Flow) : (m.mapFlow f).Tame := ⟨hm.time, hm.axes, hm.heaters⟩
  cases w with
  | enter line =>
    refine ⟨hflow (·.setLine (some line.text)), fun v hv => ?_⟩
    cases hv
    exact tame_ofCommands hw _
  | next c rest =>
    refine ⟨hm, fun v hv => ?_⟩
    cases hv
    split
    · trivial
    · exact ⟨Chore.tame_ofCommand hw.1 m, hw.2⟩
  | busy k rest =>
    obtain ⟨hn, hl⟩ := Chore.Tame.step hm hw.1 shutdown
    refine ⟨hn, fun v hv => ?_⟩
    cases hv
    split
    · rename_i l hk
      exact ⟨hl l hk, hw.2⟩
    · exact tame_ofCommands hw.2 _
  | leave => exact ⟨hflow (·.setLine none), nofun⟩

/-- Only the offsets of the axes matter to what is tame. -/
theorem LineWork.Tame.of_offset {w : LineWork Float} (hw : w.Tame m)
    (h : ∀ i, (n.axis i).offset = (m.axis i).offset) : w.Tame n := by
  cases w with
  | busy k rest =>
    refine ⟨?_, hw.2⟩
    cases k with
    | homing saved i rest k =>
      cases k with
      | start leg v =>
        show Bounded (v - (n.axis i).offset) 1018
        rw [h i]
        exact hw.1
      | _ => trivial
    | _ => exact hw.1
  | _ => exact hw

end Work

/-- What happens to an engine that executes lines. -/
inductive Session.Act where
  /-- A line is handed over, and taken unless the engine is busy. -/
  | line (text : String)
  /-- The next step of the task of this number. -/
  | task (k : Nat)
  | shutdown
  | tick

namespace Engine

def act {α : Type} [Scalar α] (e : Engine α) : Session.Act → Except BoundsFault (Engine α)
  | .line text => .ok (e.executeLine text).1
  | .task k => .ok (e.stepTask k)
  | .shutdown => .ok e.requestShutdown
  | .tick => e.tick

def acts {α : Type} [Scalar α] (e : Engine α) (as : List Session.Act) :
    Except BoundsFault (Engine α) :=
  as.foldlM act e

/-- A stock engine on a tame machine, with no other task than the one in its slot. -/
structure Tame (e : Engine Float) : Prop where
  timeStep : e.config.timeStep = 0.05
  machine : e.machine.Tame
  slot : ∀ k t, e.task? k = some t → e.slot = some k
  work : ∀ k t, e.task? k = some t → ∃ w, t = .line w ∧ w.Tame e.machine

end Engine

/-- Every length, temperature and power of a machine is a number. -/
structure Machine.Finite (m : Machine Float) : Prop where
  position : ∀ i, (m.axis i).position.isFinite = true
  target : ∀ i, (m.axis i).target.isFinite = true
  offset : ∀ i, (m.axis i).offset.isFinite = true
  temperature : ∀ k, (m.heater k).temperature.isFinite = true
  powerIn : ∀ k, (m.heater k).powerIn.isFinite = true
  integral : ∀ k, (m.heater k).control.integral.isFinite = true

theorem Machine.Tame.finite {m : Machine Float} (h : m.Tame) : m.Finite where
  position i := (h.axes i).position.isFinite
  target i := (h.axes i).plan.target.isFinite
  offset i := (h.axes i).offset.isFinite
  temperature k := (h.heaters k).turns.range.isFinite
  powerIn k := (h.heaters k).powerIn
  integral k := (h.heaters k).integral.isFinite

namespace Engine

variable {e : Engine Float}

def stock : Engine Float :=
  ofParts MachineConfig.stock EngineConfig.stock

theorem tame_stock : stock.Tame :=
  ⟨rfl, Machine.tame_stock, nofun, nofun⟩

theorem Tame.line (h : e.Tame) {text : String} (ht : Gcode.Moderate text) :
    (e.executeLine text).1.Tame := by
  unfold executeLine
  cases hb : e.isBusy with
  | true =>
    simp only [submit, hb, if_true]
    exact h
  | false =>
    -- No task is left where the engine is not busy.
    have hnone (k : Nat) : e.task? k = none := by
      by_contra hk
      obtain ⟨t, hk⟩ := Option.ne_none_iff_exists'.mp hk
      have hbusy := isBusy_iff.mpr ⟨k, h.slot k t hk, by simp [hk]⟩
      simp [hbusy] at hb
    have htask {k : Nat} {t : Task Float}
        (hk : (e.submit (Task.ofLine text)).1.task? k = some t) :
        k = e.tasks.length ∧ t = Task.ofLine text := by
      by_cases hl : k = e.tasks.length
      · subst hl
        rw [task?_submit_self hb, Option.some.injEq] at hk
        exact ⟨rfl, hk.symm⟩
      · rw [task?_submit_of_ne hb _ hl, hnone] at hk
        cases hk
    have heq := submit_eq hb (Task.ofLine text)
    refine ⟨?_, ?_, fun k t hk => ?_, fun k t hk => ?_⟩
    · rw [heq]
      exact h.timeStep
    · rw [heq]
      exact h.machine
    · rw [heq, (htask hk).1]
    · exact ⟨_, (htask hk).2, ht⟩

theorem Tame.task (h : e.Tame) (k : Nat) : (e.stepTask k).Tame := by
  cases ht : e.task? k with
  | none => rwa [stepTask_of_none ht]
  | some t =>
    obtain ⟨w, rfl, hw⟩ := h.work k t ht
    obtain ⟨hm, hnext⟩ := LineWork.Tame.step h.machine hw e.shutdown
    have hslot := h.slot k _ ht
    have htask {l : Nat} {u : Task Float} (hl : (e.stepTask k).task? l = some u) :
        l = k ∧ ((w.step e.shutdown e.machine).2.map Task.line) = some u := by
      by_cases hlk : l = k
      · subst hlk
        rw [task?_stepTask_self ht] at hl
        exact ⟨rfl, hl⟩
      · rw [task?_stepTask_of_ne e hlk] at hl
        have := h.slot l u hl
        simp only [hslot, Option.some.injEq] at this
        exact absurd this.symm hlk
    have hmachine : (e.stepTask k).machine = (w.step e.shutdown e.machine).1 :=
      machine_stepTask ht
    refine ⟨?_, ?_, fun l u hl => ?_, fun l u hl => ?_⟩
    · rw [stepTask_eq ht]
      exact h.timeStep
    · rw [hmachine]
      exact hm
    · rw [slot_stepTask, hslot, (htask hl).1]
    · obtain ⟨v, hv, rfl⟩ := Option.map_eq_some_iff.mp (htask hl).2
      refine ⟨v, rfl, ?_⟩
      rw [hmachine]
      exact hnext v hv

theorem Tame.requestShutdown (h : e.Tame) : e.requestShutdown.Tame := by
  have htask {k : Nat} {t : Task Float} (hk : e.requestShutdown.task? k = some t) :
      ∃ w, t = .line w ∧ e.task? k = some (.line w) := by
    have hk : e.notify.task? k = some t := hk
    rw [task?_notify, Option.map_eq_some_iff] at hk
    obtain ⟨u, hu, rfl⟩ := hk
    obtain ⟨w, rfl, -⟩ := h.work k u hu
    exact ⟨w, rfl, hu⟩
  refine ⟨h.timeStep, h.machine, fun k t hk => ?_, fun k t hk => ?_⟩
  · obtain ⟨w, -, hw⟩ := htask hk
    exact h.slot k _ hw
  · obtain ⟨w, rfl, hw⟩ := htask hk
    obtain ⟨v, hv, htame⟩ := h.work k _ hw
    cases hv
    exact ⟨w, rfl, htame⟩

theorem Tame.tick (h : e.Tame) : ∃ d, e.tick = .ok d ∧ d.Tame := by
  obtain ⟨n, hn, htame, hoffset⟩ := h.machine.tick
  refine ⟨{ e with machine := n }, ?_, h.timeStep, htame, h.slot, fun k t hk => ?_⟩
  · unfold Engine.tick
    rw [h.timeStep, hn]
    rfl
  · obtain ⟨w, rfl, hw⟩ := h.work k t hk
    exact ⟨w, rfl, hw.of_offset hoffset⟩

theorem Tame.act (h : e.Tame) (a : Session.Act)
    (ha : ∀ text, a = .line text → Gcode.Moderate text) : ∃ d, e.act a = .ok d ∧ d.Tame := by
  cases a with
  | line text => exact ⟨_, rfl, h.line (ha text rfl)⟩
  | task k => exact ⟨_, rfl, h.task k⟩
  | shutdown => exact ⟨_, rfl, h.requestShutdown⟩
  | tick => exact h.tick

theorem Tame.acts (h : e.Tame) {as : List Session.Act}
    (ha : ∀ text, Session.Act.line text ∈ as → Gcode.Moderate text) :
    ∃ d, e.acts as = .ok d ∧ d.Tame := by
  induction as generalizing e with
  | nil => exact ⟨e, rfl, h⟩
  | cons a as ih =>
    obtain ⟨d, hd, htame⟩ := h.act a fun text ht => ha text (by simp [ht])
    obtain ⟨f, hf, hlast⟩ := ih htame fun text ht => ha text (by simp [ht])
    refine ⟨f, ?_, hlast⟩
    unfold Engine.acts at hf ⊢
    rw [List.foldlM_cons, hd]
    exact hf

/-- A stock engine that is given moderate lines never gets a number that is not finite. -/
theorem finite_of_moderate (as : List Session.Act)
    (ha : ∀ text, Session.Act.line text ∈ as → Gcode.Moderate text) :
    ∃ e, stock.acts as = .ok e ∧ e.machine.Finite := by
  obtain ⟨e, he, htame⟩ := tame_stock.acts ha
  exact ⟨e, he, htame.machine.finite⟩

/-- Coordinates are declared, the nozzle is heated, and an axis is sent on its way. -/
theorem finite_stock :
    let as : List Session.Act :=
      [.line "G92 X1000000 E0", .task 0, .task 0, .task 0, .task 0,
        .line "M104 S210", .task 1, .task 1, .task 1, .task 1, .tick, .tick,
        .line "G1 X1000010 F1200", .task 2, .task 2, .task 2, .tick, .tick]
    (∀ text, Session.Act.line text ∈ as → Gcode.Moderate text) ∧
      ∃ e, stock.acts as = .ok e ∧ e.machine.Finite := by
  intro as
  have hlines : ∀ text ∈ ["G92 X1000000 E0", "M104 S210", "G1 X1000010 F1200"],
      Gcode.Moderate text := by
    decide +kernel
  have ha : ∀ text, Session.Act.line text ∈ as → Gcode.Moderate text := by
    intro text ht
    apply hlines
    simpa [as] using ht
  exact ⟨ha, finite_of_moderate as ha⟩

/-- A line with a temperature of four hundred digits. -/
def digitLine : String :=
  "M104 S" ++ String.ofList (List.replicate 400 '9')

theorem ofLine_digitLine :
    (Task.ofLine digitLine : Task Float) =
      .line (.enter ⟨digitLine,
        [.heat .nozzle (Gcode.Literal.value ⟨false, 10 ^ 400 - 1, 0⟩) false]⟩) := by
  have hlist : digitLine.toList = ['M', '1', '0', '4', ' ', 'S'] ++ List.replicate 400 '9' := by
    simp only [digitLine, String.toList_append, String.toList_ofList]
    rfl
  have htrim : Text.trimEnd digitLine = digitLine := by
    have hkeep : (digitLine.toList.reverse.dropWhile Text.isBlank).reverse = digitLine.toList := by
      rw [hlist]
      decide +kernel
    rw [Text.trimEnd, hkeep, String.ofList_toList]
  have hwords : Gcode.words? digitLine.toList =
      some [⟨'M', false, 104, 0⟩, ⟨'S', false, 10 ^ 400 - 1, 0⟩] := by
    rw [hlist]
    decide +kernel
  have hparse : Gcode.parseLine Float digitLine =
      some [.heat .nozzle (Gcode.Literal.value ⟨false, 10 ^ 400 - 1, 0⟩) false] := by
    rw [Gcode.parseLine, hwords]
    rfl
  simp only [Task.ofLine, Line.ofText, htrim, hparse, Option.getD_some]

/-- A temperature of four hundred digits is infinite, and the next tick has no temperature. -/
theorem not_finite_of_digits :
    ∃ e, stock.acts [.line digitLine, .task 0, .task 0, .task 0, .tick] = .ok e ∧
      ¬ e.machine.Finite := by
  have hline (e : Engine Float) (as : List Session.Act) :
      e.acts (.line digitLine :: as) = (e.submit (Task.ofLine digitLine)).1.acts as := rfl
  rw [hline, ofLine_digitLine]
  generalize hrun : (stock.submit _).1.acts _ = run
  have hnan : run.toOption.any
      (fun e => !(e.machine.heater .nozzle).temperature.isFinite) = true := by
    rw [← hrun]
    decide +kernel
  cases run with
  | error fault => simp [Except.toOption] at hnan
  | ok e =>
    refine ⟨e, rfl, fun hfin => ?_⟩
    simp [Except.toOption, hfin.temperature .nozzle] at hnan

end Engine

end Gantry
