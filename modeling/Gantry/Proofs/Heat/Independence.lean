import Gantry.Proofs.Machine.Trace
import Gantry.Proofs.Settings.InPlace

/-!
# Heat apart from motion

The heaters of a machine are a machine of their own: nothing that is asked of axes, limits, feeds
or flow reaches them, and what a tick or a change of tuning makes of them depends on nothing but
themselves. So two runs that agree in what concerns the heaters show the same heaters after every
tick, whatever else happens in between.

Nothing here says what a heater does.
-/

namespace Gantry

/-- Ticks, set points, gains and settle bands. -/
def Operation.concernsHeat : Operation Float Adjustment → Bool
  | tick _ | heat _ _ | onHeater _ _ | set (.gains _ _ _ _) | set (.settle _ _ _) => true
  | _ => false

namespace Machine

open Operation

def heatTrace (m : Machine Float) (ops : List (Operation Float Adjustment)) :
    List (Except BoundsFault (PerHeater (Body Float))) :=
  m.trace (·.heaters) ops

variable {m n : Machine Float} {op : Operation Float Adjustment}

theorem time_of_other (h : op.concernsHeat = false) : op.time? = none := by
  cases op with
  | tick time => cases h
  | _ => rfl

theorem heaters_of_other (h : op.concernsHeat = false) (m : Machine Float) :
    (op.after m).heaters = m.heaters := by
  have hset {r : Except (Rejection Float) (Machine Float)}
      (hr : ∀ n, r = .ok n → n.heaters = m.heaters) : (r.toOption.getD m).heaters = m.heaters := by
    cases r with
    | ok n => exact hr n rfl
    | error e => rfl
  cases op with
  | tick time => cases h
  | heat k celsius => cases h
  | onHeater k f => cases h
  | set x =>
    refine hset fun n hn => ?_
    cases x with
    | axisLimits i l =>
      obtain ⟨-, -, hn⟩ := ok_of_bind hn
      cases hn
      rfl
    | document doc => exact (frame_applyLimits hn).1
    | text t =>
      simp only [SettingForm.apply, Adjustment.apply, applyText] at hn
      split at hn
      · exact (frame_applyLimits hn).1
      · cases hn
    | blob bytes =>
      simp only [SettingForm.apply, Adjustment.apply, applyBlob] at hn
      split at hn
      · exact (frame_applyLimits hn).1
      · cases hn
    | gains k kp ki windUp => cases h
    | settle k window time => cases h
    | feedOverride value =>
      simp only [SettingForm.apply, Adjustment.apply, setFeedOverride] at hn
      split at hn
      · cases hn
        rfl
      · cases hn
  | move target speed => exact m.heaters_setTarget target speed
  | request r =>
    obtain ⟨f, hf⟩ := r.exists_mapFlow m
    exact congrArg (·.heaters) hf
  | _ => rfl

theorem heaters_of_check (r : Except (Rejection Float) Unit) (h : HeaterId)
    (f : Body Float → Body Float) :
    ∃ g : PerHeater (Body Float) → PerHeater (Body Float), ∀ m : Machine Float,
      ((r >>= fun _ => .ok (m.setHeater h (f (m.heater h)))).toOption.getD m).heaters =
        g m.heaters := by
  cases r with
  | error e => exact ⟨id, fun _ => rfl⟩
  | ok _ => exact ⟨fun bs => bs.set h (f (bs.get h)), fun _ => rfl⟩

/-- What becomes of the heaters depends on nothing but the heaters. -/
theorem heaters_of_perform (h : op.concernsHeat = true) :
    ∃ g : PerHeater (Body Float) → Except BoundsFault (PerHeater (Body Float)),
      ∀ m : Machine Float, (op.perform m).map (·.heaters) = g m.heaters := by
  have hset {x : Adjustment} (hx : ∃ g : PerHeater (Body Float) → PerHeater (Body Float),
      ∀ m : Machine Float, ((x.apply m).toOption.getD m).heaters = g m.heaters) :
      ∃ g : PerHeater (Body Float) → Except BoundsFault (PerHeater (Body Float)),
        ∀ m : Machine Float, ((Operation.set x).perform m).map (·.heaters) = g m.heaters := by
    obtain ⟨g, hg⟩ := hx
    exact ⟨fun bs => .ok (g bs), fun m => congrArg Except.ok (hg m)⟩
  cases op with
  | tick time =>
    refine ⟨fun bs => do
      let nozzle ← bs.nozzle.run time
      let plate ← bs.plate.run time
      return ⟨nozzle, plate⟩, fun m => ?_⟩
    show (m.run time).map _ = _
    unfold run
    dsimp only
    cases m.heaters.nozzle.run time <;> cases m.heaters.plate.run time <;> rfl
  | heat k celsius =>
    exact ⟨fun bs => .ok (bs.set k ((bs.get k).setTemperature celsius)), fun _ => rfl⟩
  | onHeater k f => exact ⟨fun bs => .ok (bs.set k (f (bs.get k))), fun _ => rfl⟩
  | set x =>
    apply hset
    cases x with
    | gains k kp ki windUp =>
      obtain ⟨g, hg⟩ := heaters_of_check
        (do checkTuning k .kp kp
            checkTuning k .ki ki
            windUp.elim (pure ()) (checkTuning k .windUp)) k
        fun b => { b with control := { b.control with kp := kp, ki := ki, windUp := windUp } }
      refine ⟨g, fun m => ?_⟩
      rw [← hg]
      cases windUp <;> simp only [Adjustment.apply, setHeaterGains, bind_assoc] <;> rfl
    | settle k window time =>
      obtain ⟨g, hg⟩ := heaters_of_check
        (do checkTuning k .settleWindow window
            checkTuning k .settleTime time) k
        fun b => { b with config := { b.config with settleWindow := window, settleTime := time } }
      refine ⟨g, fun m => ?_⟩
      rw [← hg]
      simp only [Adjustment.apply, setHeaterSettle, bind_assoc]
      rfl
    | _ => cases h
  | _ => cases h

theorem likewise_of_concernsHeat (h : op.concernsHeat = true) (hm : m.heaters = n.heaters) :
    Likewise (fun m n => m.heaters = n.heaters) (op.perform m) (op.perform n) := by
  obtain ⟨g, hg⟩ := heaters_of_perform h
  have hsame : (op.perform m).map (·.heaters) = (op.perform n).map (·.heaters) := by
    rw [hg, hg, hm]
  generalize op.perform m = r, op.perform n = q at hsame
  cases r with
  | error fault =>
    cases q with
    | error other =>
      cases hsame
      exact .error fault
    | ok p => cases hsame
  | ok o =>
    cases q with
    | error fault => cases hsame
    | ok p => exact .ok (Except.ok.inj hsame)

theorem heatTrace_filter (m : Machine Float) (ops : List (Operation Float Adjustment)) :
    m.heatTrace (ops.filter concernsHeat) = m.heatTrace ops := by
  apply trace_filter (R := fun m n => m.heaters = n.heaters)
  · exact fun _ _ h => h
  · exact fun op _ hop =>
      ⟨time_of_other hop, fun m n h => (heaters_of_other hop m).trans h⟩
  · exact fun op _ hop m n h => likewise_of_concernsHeat hop h
  · rfl

/-- Two runs from one configuration that agree in what concerns the heaters show the same heaters
after each tick. -/
theorem heatTrace_independent (c : MachineConfig Float)
    (ops others : List (Operation Float Adjustment))
    (h : ops.filter concernsHeat = others.filter concernsHeat) :
    (ofConfig c).heatTrace ops = (ofConfig c).heatTrace others := by
  rw [← heatTrace_filter _ ops, ← heatTrace_filter _ others, h]

/-- The nozzle is heated and tuned, once on its own and once while an axis travels under changing
limits, a blob is refused, a file is paused and the override is other than one. -/
theorem heatTrace_independent_stock :
    let ops : List (Operation Float Adjustment) := [.heat .nozzle 200, .tick 0,
      .set (.gains .nozzle 10 2 none), .set (.settle .nozzle (-1) 2), .tick 0.05]
    let others : List (Operation Float Adjustment) :=
      [.move ⟨some 0.1, none, none, some 0.01⟩ (some 0.05), .heat .nozzle 200,
      .set (.feedOverride 2), .tick 0, .set (.axisLimits .x ⟨0.2, 3⟩),
      .set (.gains .nozzle 10 2 none), .set (.blob [1, 2]), .declare ⟨some 0, none, none, none⟩,
      .onAxis .y Axis.replan, .set (.settle .nozzle (-1) 2), .flow (·.beginFile "part"),
      .request .pause, .release .x, .feed 0.02, .tick 0.05, .home true]
    ops.filter concernsHeat = others.filter concernsHeat ∧
      (ofConfig (MachineConfig.stock : MachineConfig Float)).heatTrace ops =
        (ofConfig (MachineConfig.stock : MachineConfig Float)).heatTrace others := by
  intro ops others
  have h : ops.filter concernsHeat = others.filter concernsHeat := rfl
  exact ⟨h, heatTrace_independent MachineConfig.stock ops others h⟩

end Machine

end Gantry
