import Mathlib
import Gantry.Proofs.Machine.LimitChange
import Gantry.Proofs.Machine.Reachable
import Gantry.Proofs.Number.Binary32
import Gantry.Proofs.Settings.AllOrNothing

/-!
# Exchange of binary settings

The blob of a machine holds its limits rounded to binary32. Every machine accepts it unless a limit
became zero or infinite in it, and then writes the same blob. Nothing keeps a machine from having
limits that do so: they are accepted as long as they are positive and finite in binary64.
-/

namespace Gantry

open Number

namespace Settings

theorem decodeFloats_littleEndian (b : UInt32) (r : List UInt8) :
    decodeFloats (littleEndian b ++ r) = widen b :: decodeFloats r := by
  have hpow : twoTo 8 = 2 ^ 8 ∧ twoTo 16 = 2 ^ 16 ∧ twoTo 24 = 2 ^ 24 := ⟨rfl, rfl, rfl⟩
  have hb := b.toNat_lt
  have hjoin : ofLittleEndian b.toNat.toUInt8 (b.toNat / twoTo 8).toUInt8
      (b.toNat / twoTo 16).toUInt8 (b.toNat / twoTo 24).toUInt8 = b := by
    apply UInt32.toNat_inj.mp
    unfold ofLittleEndian
    rw [hpow.1, hpow.2.1, hpow.2.2, Nat.toUInt32_eq, UInt32.toNat_ofNat']
    simp only [Nat.toUInt8_eq, UInt8.toNat_ofNat']
    omega
  show widen (ofLittleEndian _ _ _ _) :: decodeFloats r = _
  rw [hjoin]

theorem decodeFloats_encodeFloats (xs : List Float) :
    decodeFloats (encodeFloats xs) = xs.map fun x => widen (narrow x) := by
  induction xs with
  | nil => rfl
  | cons x xs ih =>
    show decodeFloats (littleEndian (narrow x) ++ encodeFloats xs) = _
    rw [decodeFloats_littleEndian, ih, List.map_cons]

theorem length_encodeFloats (xs : List Float) : (encodeFloats xs).length = 4 * xs.length := by
  induction xs with
  | nil => rfl
  | cons x xs ih =>
    show (littleEndian (narrow x) ++ encodeFloats xs).length = _
    rw [List.length_append, ih, List.length_cons]
    show 4 + _ = _
    omega

end Settings

def Limits.narrowed (l : Limits Float) : Limits Float :=
  ⟨widen (narrow l.maxSpeed), widen (narrow l.maxAcc)⟩

structure Limits.FitBinary32 (l : Limits Float) : Prop where
  maxSpeed : FitsBinary32 l.maxSpeed
  maxAcc : FitsBinary32 l.maxAcc

namespace Machine

variable {c : MachineConfig Float} {m n o : Machine Float}

theorem decodeBlob?_settingsBlob (m : Machine Float) : Settings.decodeBlob? m.settingsBlob =
    some (PerAxis.ofFn fun i => (m.axis i).limits.narrowed) := by
  unfold Settings.decodeBlob? settingsBlob
  rw [Settings.length_encodeFloats, Settings.decodeFloats_encodeFloats]
  rfl

theorem applyBlob_settingsBlob (m n : Machine Float) : n.applyBlob m.settingsBlob =
    n.applyLimits (AxisId.all.map fun i => (i, (m.axis i).limits.narrowed)) := by
  unfold applyBlob
  rw [decodeBlob?_settingsBlob]
  rfl

theorem checkLimits_eq_ok_iff {i : AxisId} {l : Limits Float} : checkLimits i l = .ok () ↔
    Scalar.isPositive l.maxSpeed = true ∧ Scalar.isPositive l.maxAcc = true := by
  rw [isPositive_iff_usable, isPositive_iff_usable, ← checkLimit_eq_ok_iff (i := i),
    ← checkLimit_eq_ok_iff (i := i)]
  constructor
  · intro h
    obtain ⟨⟨⟩, hspeed, hacc⟩ := ok_of_bind h
    exact ⟨hspeed, hacc⟩
  · rintro ⟨hspeed, hacc⟩
    rw [checkLimits, hspeed]
    exact hacc

theorem exists_applyLimits_iff {updates : List (AxisId × Limits Float)} :
    (∃ o, n.applyLimits updates = .ok o) ↔
      ∀ u ∈ updates, checkLimits u.1 u.2 = .ok () := by
  constructor
  · rintro ⟨o, h⟩
    obtain ⟨⟨⟩, hcheck, -⟩ := ok_of_bind h
    exact forM_ok hcheck
  · intro hall
    cases hcheck : updates.forM fun u => checkLimits u.1 u.2 with
    | ok _ =>
      unfold applyLimits
      rw [hcheck]
      exact ⟨_, rfl⟩
    | error e =>
      obtain ⟨pre, u, post, rfl, -, hu⟩ := forM_eq_error_iff.mp hcheck
      rw [hall u (by simp)] at hu
      cases hu

theorem limits_of_applyBlob (h : n.applyBlob m.settingsBlob = .ok o) (i : AxisId) :
    (o.axis i).limits = (m.axis i).limits.narrowed := by
  rw [applyBlob_settingsBlob] at h
  exact limits_of_applyLimits h i

theorem settingsBlob_congr (h : ∀ i, narrow (o.axis i).limits.maxSpeed =
      narrow (m.axis i).limits.maxSpeed ∧
    narrow (o.axis i).limits.maxAcc = narrow (m.axis i).limits.maxAcc) :
    o.settingsBlob = m.settingsBlob := by
  unfold settingsBlob Settings.encodeFloats
  simp only [AxisId.all, List.map_cons, List.map_nil, List.cons_append, List.nil_append,
    List.flatMap_cons, List.flatMap_nil, (h .x).1, (h .y).1, (h .z).1, (h .e).1, (h .x).2,
    (h .y).2, (h .z).2, (h .e).2]

/-- The blob of a machine with a valid configuration is accepted, by any machine, exactly if all
limits fit binary32; and what accepts it has the same blob. -/
theorem applyBlob_of_reachable (hc : c.validate = .ok ()) (hm : Reachable c m) (n : Machine Float) :
    ((∃ o, n.applyBlob m.settingsBlob = .ok o) ↔ ∀ i, (m.axis i).limits.FitBinary32) ∧
      ∀ o, n.applyBlob m.settingsBlob = .ok o → o.settingsBlob = m.settingsBlob := by
  have hpositive (i : AxisId) := checkLimits_eq_ok_iff.mp (hm.checkLimits hc i)
  have hfits (i : AxisId) : checkLimits i (m.axis i).limits.narrowed = .ok () ↔
      (m.axis i).limits.FitBinary32 := by
    obtain ⟨hspeed, hacc⟩ := hpositive i
    rw [checkLimits_eq_ok_iff]
    show Scalar.isPositive (widen (narrow (m.axis i).limits.maxSpeed)) = true ∧
      Scalar.isPositive (widen (narrow (m.axis i).limits.maxAcc)) = true ↔ _
    rw [isPositive_widen_narrow_iff hspeed, isPositive_widen_narrow_iff hacc]
    exact ⟨fun h => ⟨h.1, h.2⟩, fun h => ⟨h.maxSpeed, h.maxAcc⟩⟩
  have haccepted : (∃ o, n.applyBlob m.settingsBlob = .ok o) ↔
      ∀ i, (m.axis i).limits.FitBinary32 := by
    simp only [applyBlob_settingsBlob, exists_applyLimits_iff, List.forall_mem_map]
    constructor
    · intro h i
      exact (hfits i).mp (h i (AxisId.mem_all i))
    · intro h i _
      exact (hfits i).mpr (h i)
  refine ⟨haccepted, fun o ho => settingsBlob_congr fun i => ?_⟩
  obtain ⟨hspeed, hacc⟩ := hpositive i
  have hfit := haccepted.mp ⟨o, ho⟩ i
  rw [limits_of_applyBlob ho i]
  exact ⟨narrow_widen_narrow hspeed hfit.maxSpeed, narrow_widen_narrow hacc hfit.maxAcc⟩

/-- The stock machine, once an axis was given limits that binary32 does not hold exactly. -/
theorem applyBlob_stock :
    let c : MachineConfig Float := .stock
    let m := (ofConfig c).withLimits .x ⟨0.3, 2.1⟩
    (c.validate = .ok () ∧ Reachable c m) ∧
      ((∃ o, (ofConfig c).applyBlob m.settingsBlob = .ok o) ↔
        ∀ i, (m.axis i).limits.FitBinary32) ∧
      ∀ o, (ofConfig c).applyBlob m.settingsBlob = .ok o → o.settingsBlob = m.settingsBlob := by
  intro c m
  have hc : c.validate = .ok () := by decide +kernel
  have hx : (Setting.axisLimits .x ⟨0.3, 2.1⟩).apply (ofConfig c) = .ok m := by
    have hcheck : checkLimits .x (⟨0.3, 2.1⟩ : Limits Float) = .ok () := by decide +kernel
    rw [Setting.apply, setAxisLimits, hcheck]
    rfl
  have hm : Reachable c m := .set (.axisLimits .x ⟨0.3, 2.1⟩) .start hx
  exact ⟨⟨hc, hm⟩, applyBlob_of_reachable hc hm _⟩

/-- A speed limit below all numbers of binary32 is valid, and no machine accepts the blob. -/
theorem applyBlob_of_tiny_limit :
    let c : MachineConfig Float := { MachineConfig.stock with
      axes := MachineConfig.stock.axes.set .x { AxisConfig.stock .x with maxSpeed := 1e-50 } }
    c.validate = .ok () ∧ Reachable c (ofConfig c) ∧
      ∀ n : Machine Float, ¬ ∃ o, n.applyBlob (ofConfig c).settingsBlob = .ok o := by
  intro c
  refine ⟨by decide +kernel, .start, fun n h => ?_⟩
  rw [applyBlob_settingsBlob, exists_applyLimits_iff] at h
  have hx := h _ (List.mem_map_of_mem (AxisId.mem_all .x))
  rw [checkLimits_eq_ok_iff] at hx
  exact absurd hx.1 (by decide +kernel)

end Machine

end Gantry
