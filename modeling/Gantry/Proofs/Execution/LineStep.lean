import Mathlib.Analysis.Real.Sqrt
import Gantry.Execution.Line
import Gantry.Proofs.Machine.MoveTime

/-!
# Steps of a line that waits for no heater

Such a line is in a wait for the end of a move, or asks for a move and then waits for it, or does
something that leaves the motion alone. Naps and looks apart, every step leaves less to do.
-/

namespace Gantry

namespace Wait

variable {m : Machine ℝ} {shutdown : Bool} {v : Wait}

theorem isMoving_of_nap (h : v.step .stopped shutdown m = some .nap) : m.isMoving = true := by
  cases v with
  | flag => cases shutdown <;> cases h
  | look =>
    cases hm : m.isMoving with
    | true => rfl
    | false =>
      rw [step, Goal.isMet, hm] at h
      cases h
  | nap => cases h

theorem still_or_shutdown (h : v.step .stopped shutdown m = none) :
    m.isMoving = false ∨ shutdown = true := by
  cases v with
  | flag =>
    cases shutdown with
    | true => exact Or.inr rfl
    | false => cases h
  | look =>
    cases hm : m.isMoving with
    | true =>
      rw [step, Goal.isMet, hm] at h
      cases h
    | false => exact Or.inl rfl
  | nap => cases h

end Wait

/-- The command does not have the line wait for a heater. -/
def Gcode.Command.Brisk : Gcode.Command ℝ → Prop
  | .heat _ celsius wait => wait = true → celsius = 0
  | _ => True

namespace Chore

def wait? : Chore ℝ → Option Wait
  | .await .stopped wait => some wait
  | .homing _ _ _ (.travel _ wait) => some wait
  | _ => none

noncomputable def move? : Chore ℝ → Option (Target ℝ × Option ℝ)
  | .move target speed _ => some (target, speed)
  | .homing _ i _ (.start leg v) => some (PerAxis.single i v, some leg.speed)
  | _ => none

/-- The chore waits for its moves and for nothing else, and the feed that it brings back is
positive. -/
def Brisk : Chore ℝ → Prop
  | .move _ _ blocking => blocking = true
  | .offset _ => True
  | .heat _ celsius blocking => blocking = true → celsius = 0
  | .await goal _ => goal = .stopped
  | .home => True
  | .homing saved _ _ _ => 0 < saved
  | .homed saved => 0 < saved
  | .restore saved _ => 0 < saved

end Chore

namespace LineWork

def wait? : LineWork ℝ → Option Wait
  | .busy chore _ => chore.wait?
  | _ => none

noncomputable def move? : LineWork ℝ → Option (Target ℝ × Option ℝ)
  | .busy chore _ => chore.move?
  | _ => none

def Brisk : LineWork ℝ → Prop
  | .enter line => ∀ c ∈ line.commands, c.Brisk
  | .next c rest => c.Brisk ∧ ∀ d ∈ rest, d.Brisk
  | .busy chore rest => chore.Brisk ∧ ∀ d ∈ rest, d.Brisk
  | .leave => True

/-- How many steps are left at most, the naps and looks of the present wait apart. -/
def toGo (k : LineWork ℝ) : ℕ :=
  k.rank - k.wait?.elim 0 Wait.rank

end LineWork

namespace Chore

variable {m : Machine ℝ} {c d : Chore ℝ} {v : Wait} {target : Target ℝ} {speed : Option ℝ}

theorem brisk_ofCommand {c : Gcode.Command ℝ} (h : c.Brisk) : (ofCommand c).Brisk := by
  cases c with
  | move target feed => rfl
  | offset target => trivial
  | home => trivial
  | heat k celsius wait => exact h

theorem wait?_cases (h : c.wait? = some v) : c = .await .stopped v ∨
    ∃ saved i rest leg, c = .homing saved i rest (.travel leg v) := by
  cases c with
  | await goal w =>
    cases goal with
    | stopped =>
      cases h
      exact Or.inl rfl
    | settled k => cases h
  | homing saved i rest k =>
    cases k with
    | travel leg w =>
      cases h
      exact Or.inr ⟨saved, i, rest, leg, rfl⟩
    | _ => cases h
  | _ => cases h

theorem isAsleep_of_wait (h : c.wait? = some v) : c.isAsleep = true ↔ v = .nap := by
  obtain rfl | ⟨saved, i, rest, leg, rfl⟩ := c.wait?_cases h
  · cases v <;> simp [isAsleep]
  · cases v <;> simp [isAsleep, Homing.isAsleep]

theorem isAsleep_of_brisk (hb : c.Brisk) (h : c.wait? = none) : c.isAsleep = false := by
  cases c with
  | await goal w =>
    cases hb
    cases h
  | homing saved i rest k =>
    cases k with
    | travel leg w => cases h
    | _ => rfl
  | _ => rfl

theorem rank_le_of_wait (h : c.wait? = some v) : v.rank ≤ c.rank := by
  obtain rfl | ⟨saved, i, rest, leg, rfl⟩ := c.wait?_cases h
  · exact Nat.le_add_left _ _
  · cases leg <;>
    · simp only [rank, Homing.rank]
      omega

theorem step_of_wait {shutdown : Bool} {u : Wait} (m : Machine ℝ) (h : c.wait? = some v)
    (hv : v.step .stopped shutdown m = some u) : ∃ d, c.step shutdown m = (m, some d) ∧
      d.wait? = some u ∧ d.rank + v.rank = c.rank + u.rank := by
  obtain rfl | ⟨saved, i, rest, leg, rfl⟩ := c.wait?_cases h
  · refine ⟨.await .stopped u, ?_, rfl, ?_⟩
    · rw [step, hv]
      rfl
    · simp only [rank]
      omega
  · refine ⟨.homing saved i rest (.travel leg u), ?_, rfl, ?_⟩
    · rw [step, Homing.step, hv]
      rfl
    · cases leg <;>
      · simp only [rank, Homing.rank]
        omega

theorem step_of_wait_over {shutdown : Bool} (m : Machine ℝ) (h : c.wait? = some v)
    (hv : v.step .stopped shutdown m = none) : (c.step shutdown m).1 = m ∧
      ∀ d, (c.step shutdown m).2 = some d → d.wait? = none ∧ d.rank + v.rank ≤ c.rank := by
  obtain rfl | ⟨saved, i, rest, leg, rfl⟩ := c.wait?_cases h
  · refine ⟨rfl, ?_⟩
    rw [step, hv]
    intro d hd
    cases hd
  · refine ⟨rfl, ?_⟩
    rw [step, Homing.step, hv]
    rintro d ⟨⟩
    constructor
    · cases leg <;> rfl
    · cases leg <;>
      · simp only [afterHoming, rank, Homing.afterLeg, Homing.rank]
        omega

theorem step_of_move (shutdown : Bool) (m : Machine ℝ) (hb : c.Brisk)
    (h : c.move? = some (target, speed)) :
    ∃ d, c.step shutdown m = ((m.setTarget target speed).1, some d) ∧ d.wait? = some .flag := by
  cases c with
  | move target speed blocking =>
    cases h
    cases hb
    exact ⟨_, rfl, rfl⟩
  | homing saved i rest k =>
    cases k with
    | start leg v =>
      cases h
      exact ⟨_, rfl, rfl⟩
    | _ => cases h
  | _ => cases h

theorem move?_of_wait (h : c.wait? = some v) : c.move? = none := by
  obtain rfl | ⟨saved, i, rest, leg, rfl⟩ := c.wait?_cases h <;> rfl

theorem wait?_homeAxes (saved : ℝ) (is : List AxisId) : (homeAxes saved is).wait? = none := by
  cases is <;> rfl

theorem wait?_afterHoming {saved : ℝ} {i : AxisId} {rest : List AxisId} {out : Homing.Outcome ℝ}
    (h : ∀ leg w, out ≠ .going (.travel leg w)) : (afterHoming saved i rest out).wait? = none := by
  cases out with
  | going k =>
    cases k with
    | travel leg w => exact absurd rfl (h leg w)
    | _ => rfl
  | done => exact wait?_homeAxes saved rest
  | interrupted => rfl

theorem step_of_heat {k : HeaterId} {celsius : ℝ} {blocking : Bool} (shutdown : Bool)
    (m : Machine ℝ) (hb : (heat k celsius blocking).Brisk) :
    (heat k celsius blocking).step shutdown m = (m.setTemperature k celsius, none) := by
  have hno : (blocking && celsius != 0.0) = false := by
    have hz : (0.0 : ℝ) = 0 := by norm_num
    cases blocking with
    | false => rfl
    | true => simp [bne, Exact.beq_iff.mpr ((hb rfl).trans hz.symm)]
  rw [step, hno]
  rfl

/-- A step that neither waits nor asks for a move leaves the motion alone. -/
theorem aside_of_step (shutdown : Bool) (hr : m.Ready) (hb : c.Brisk) (hw : c.wait? = none)
    (hm : c.move? = none) :
    m.Aside (c.step shutdown m).1 ∧ ∀ d, (c.step shutdown m).2 = some d → d.wait? = none := by
  have hsame : m.Aside m := .refl hr
  cases c with
  | move target speed blocking => cases hm
  | offset target => exact ⟨.applyOffset hr target, nofun⟩
  | heat k celsius blocking =>
    refine ⟨⟨hsame.axis, rfl, hr.feedOverride, hr.defaultSpeed⟩, ?_⟩
    rw [step_of_heat shutdown m hb]
    exact nofun
  | await goal w =>
    cases hb
    cases hw
  | home =>
    refine ⟨hsame, ?_⟩
    rintro d ⟨⟩
    exact wait?_homeAxes _ _
  | homing saved i rest k =>
    cases k with
    | locate =>
      refine ⟨hsame, ?_⟩
      rintro d ⟨⟩
      rfl
    | start leg v => cases hm
    | travel leg w => cases hw
    | check leg =>
      refine ⟨hsame, ?_⟩
      rintro d ⟨⟩
      apply wait?_afterHoming
      intro l w
      cases shutdown <;> cases leg <;> exact nofun
    | release =>
      refine ⟨.clearOffset hr i, ?_⟩
      rintro d ⟨⟩
      rfl
  | homed saved =>
    refine ⟨hsame, ?_⟩
    rintro d ⟨⟩
    rfl
  | restore saved completed => exact ⟨⟨hsame.axis, rfl, hr.feedOverride, hb⟩, nofun⟩

theorem brisk_afterHoming {saved : ℝ} (hs : 0 < saved) (i : AxisId) (rest : List AxisId)
    (out : Homing.Outcome ℝ) : (afterHoming saved i rest out).Brisk := by
  cases out with
  | going k => exact hs
  | done => cases rest <;> exact hs
  | interrupted => exact hs

theorem brisk_of_step (shutdown : Bool) (hr : m.Ready) (hb : c.Brisk)
    (h : (c.step shutdown m).2 = some d) : d.Brisk := by
  cases c with
  | move target speed blocking =>
    cases hb
    cases h
    rfl
  | offset target => cases h
  | heat k celsius blocking =>
    rw [step_of_heat shutdown m hb] at h
    cases h
  | await goal w =>
    obtain ⟨u, -, rfl⟩ := Option.map_eq_some_iff.mp h
    exact hb
  | home =>
    cases h
    exact hr.defaultSpeed
  | homing saved i rest k =>
    cases h
    exact brisk_afterHoming hb i rest _
  | homed saved =>
    cases h
    exact hb
  | restore saved completed => cases h

end Chore

namespace LineWork

variable {m : Machine ℝ} {k l : LineWork ℝ} {v : Wait} {target : Target ℝ} {speed : Option ℝ}
  {cs : List (Gcode.Command ℝ)}

theorem wait?_ofCommands (cs : List (Gcode.Command ℝ)) : (ofCommands cs).wait? = none := by
  cases cs <;> rfl

theorem brisk_ofCommands (h : ∀ c ∈ cs, c.Brisk) : (ofCommands cs).Brisk := by
  cases cs with
  | nil => trivial
  | cons c cs => exact List.forall_mem_cons.mp h

theorem isAsleep_of_wait (h : k.wait? = some v) : k.isAsleep = true ↔ v = .nap := by
  cases k with
  | busy chore rest => exact Chore.isAsleep_of_wait h
  | _ => cases h

theorem isAsleep_of_brisk (hb : k.Brisk) (h : k.wait? = none) : k.isAsleep = false := by
  cases k with
  | busy chore rest => exact Chore.isAsleep_of_brisk hb.1 h
  | _ => rfl

theorem wait?_of_isAsleep (hb : k.Brisk) (h : k.isAsleep = true) : k.wait? = some .nap := by
  cases hw : k.wait? with
  | none => exact absurd h (by simp [isAsleep_of_brisk hb hw])
  | some v => rw [(isAsleep_of_wait hw).mp h]

theorem toGo_of_wait (h : k.wait? = some v) : k.toGo = k.rank - v.rank := by
  rw [toGo, h]
  rfl

theorem toGo_of_none (h : k.wait? = none) : k.toGo = k.rank := by
  rw [toGo, h]
  rfl

theorem step_busy_some {n : Machine ℝ} {c d : Chore ℝ} {shutdown : Bool}
    (h : c.step shutdown m = (n, some d)) :
    (busy c cs).step shutdown m = (n, some (busy d cs)) := by
  rw [step, h]

theorem step_busy_none {n : Machine ℝ} {c : Chore ℝ} {shutdown : Bool}
    (h : c.step shutdown m = (n, none)) :
    (busy c cs).step shutdown m = (n, some (ofCommands cs)) := by
  rw [step, h]

theorem step_of_wait {shutdown : Bool} {u : Wait} (m : Machine ℝ) (h : k.wait? = some v)
    (hv : v.step .stopped shutdown m = some u) : ∃ l, k.step shutdown m = (m, some l) ∧
      l.wait? = some u ∧ l.toGo = k.toGo := by
  cases k with
  | busy chore rest =>
    obtain ⟨d, hd, hwait, hrank⟩ := Chore.step_of_wait m h hv
    refine ⟨.busy d rest, ?_, hwait, ?_⟩
    · rw [step, hd]
    · rw [toGo_of_wait (k := .busy d rest) hwait, toGo_of_wait h, rank, rank]
      omega
  | _ => cases h

theorem step_of_wait_over {shutdown : Bool} (m : Machine ℝ) (h : k.wait? = some v)
    (hv : v.step .stopped shutdown m = none) :
    ∃ l, k.step shutdown m = (m, some l) ∧ l.wait? = none ∧ l.toGo ≤ k.toGo := by
  cases k with
  | busy chore rest =>
    obtain ⟨hsame, hnext⟩ := Chore.step_of_wait_over m h hv
    cases hmore : (chore.step shutdown m).2 with
    | some d =>
      obtain ⟨hwait, hrank⟩ := hnext d hmore
      refine ⟨.busy d rest, step_busy_some (Prod.ext hsame hmore), hwait, ?_⟩
      rw [toGo_of_none (k := .busy d rest) hwait, toGo_of_wait h, rank, rank]
      omega
    | none =>
      have hrank := Chore.rank_le_of_wait h
      refine ⟨ofCommands rest, step_busy_none (Prod.ext hsame hmore), wait?_ofCommands rest, ?_⟩
      rw [toGo_of_none (wait?_ofCommands rest), toGo_of_wait h, rank_ofCommands, rank]
      omega
  | _ => cases h

theorem step_of_move (shutdown : Bool) (m : Machine ℝ) (hb : k.Brisk)
    (h : k.move? = some (target, speed)) :
    ∃ l, k.step shutdown m = ((m.setTarget target speed).1, some l) ∧ l.wait? = some .flag := by
  cases k with
  | busy chore rest =>
    obtain ⟨d, hd, hwait⟩ := Chore.step_of_move shutdown m hb.1 h
    exact ⟨.busy d rest, step_busy_some hd, hwait⟩
  | _ => cases h

theorem move?_of_wait (h : k.wait? = some v) : k.move? = none := by
  cases k with
  | busy chore rest => exact Chore.move?_of_wait h
  | _ => rfl

theorem aside_of_step (shutdown : Bool) (hr : m.Ready) (hb : k.Brisk) (hw : k.wait? = none)
    (hm : k.move? = none) :
    m.Aside (k.step shutdown m).1 ∧ ∀ l, (k.step shutdown m).2 = some l → l.wait? = none := by
  have hsame : m.Aside m := .refl hr
  cases k with
  | enter line =>
    refine ⟨⟨hsame.axis, rfl, hr.feedOverride, hr.defaultSpeed⟩, ?_⟩
    rintro l ⟨⟩
    exact wait?_ofCommands _
  | next c rest =>
    refine ⟨hsame, ?_⟩
    rintro l ⟨⟩
    cases shutdown with
    | true => rfl
    | false => cases c <;> rfl
  | busy chore rest =>
    obtain ⟨haside, hnext⟩ := Chore.aside_of_step shutdown hr hb.1 hw hm
    refine ⟨haside, ?_⟩
    cases hmore : (chore.step shutdown m).2 with
    | some d =>
      rw [step_busy_some (Prod.ext rfl hmore)]
      rintro l ⟨⟩
      exact hnext d hmore
    | none =>
      rw [step_busy_none (Prod.ext rfl hmore)]
      rintro l ⟨⟩
      exact wait?_ofCommands rest
  | leave => exact ⟨⟨hsame.axis, rfl, hr.feedOverride, hr.defaultSpeed⟩, nofun⟩

theorem ready_of_step (shutdown : Bool) (hr : m.Ready) (hb : k.Brisk) :
    (k.step shutdown m).1.Ready := by
  cases hw : k.wait? with
  | some v =>
    cases hv : v.step .stopped shutdown m with
    | none =>
      obtain ⟨l, hl, -, -⟩ := step_of_wait_over m hw hv
      rw [hl]
      exact hr
    | some u =>
      obtain ⟨l, hl, -, -⟩ := step_of_wait m hw hv
      rw [hl]
      exact hr
  | none =>
    cases hm : k.move? with
    | none => exact hr.aside (aside_of_step shutdown hr hb hw hm).1
    | some move =>
      obtain ⟨l, hl, -⟩ := step_of_move shutdown m hb hm
      rw [hl]
      exact hr.move _ _

theorem brisk_of_step (shutdown : Bool) (hr : m.Ready) (hb : k.Brisk)
    (h : (k.step shutdown m).2 = some l) : l.Brisk := by
  cases k with
  | enter line =>
    cases h
    exact brisk_ofCommands hb
  | next c rest =>
    cases h
    cases shutdown with
    | true => trivial
    | false => exact ⟨Chore.brisk_ofCommand hb.1, hb.2⟩
  | busy chore rest =>
    cases hmore : (chore.step shutdown m).2 with
    | some d =>
      rw [step_busy_some (Prod.ext rfl hmore)] at h
      cases h
      exact ⟨Chore.brisk_of_step shutdown hr hb.1 hmore, hb.2⟩
    | none =>
      rw [step_busy_none (Prod.ext rfl hmore)] at h
      cases h
      exact brisk_ofCommands hb.2
  | leave => cases h

/-- Every step but one in a wait leaves less to do. -/
theorem toGo_lt (shutdown : Bool) (hb : k.Brisk) (hw : k.wait? = none)
    (h : (k.step shutdown m).2 = some l) : l.toGo < k.toGo := by
  have hrank := rank_of_step (isAsleep_of_brisk hb hw) (Prod.ext rfl h)
  rw [toGo_of_none hw]
  exact (Nat.sub_le _ _).trans_lt hrank

theorem toGo_le (shutdown : Bool) (hb : k.Brisk) (h : (k.step shutdown m).2 = some l) :
    l.toGo ≤ k.toGo := by
  cases hw : k.wait? with
  | none => exact (toGo_lt shutdown hb hw h).le
  | some v =>
    cases hv : v.step .stopped shutdown m with
    | none =>
      obtain ⟨d, hd, -, hle⟩ := step_of_wait_over m hw hv
      rw [hd] at h
      cases h
      exact hle
    | some u =>
      obtain ⟨d, hd, -, heq⟩ := step_of_wait m hw hv
      rw [hd] at h
      cases h
      exact heq.le

end LineWork

end Gantry
