import Mathlib
import Gantry.Proofs.Heat.Waiting

/-!
# Settling is residency

A body counts as settled exactly as long as its temperature has not left the band since the last
set point, once it has been there for longer than the settle time of some tick. The timer and the
flag that the body carries along say the same as its whole past, whatever ticks, set points and
other parameters that past consists of.
-/

namespace Gantry

variable {α : Type}

inductive BodyEvent (α : Type) where
  | tick (time : α)
  | write (celsius : α)
  /-- Other parameters of the body and of its controller. -/
  | tune (config : BodyConfig α) (control : Regulator α)

structure Record (α : Type) extends Reading α where
  setPoint : α

/-- What counts for settling: a tick, or that a set point was written. -/
inductive Entry (α : Type) where
  | tick (r : Record α)
  | write

/-- A body, the times of all its ticks, and what counts of its past. -/
structure Chronicle (α : Type) where
  body : Body α
  times : List α
  log : List (Entry α)

namespace Record

variable [Scalar α]

def InBand (r : Record α) : Prop :=
  r.toReading.InBand r.setPoint

def total (rs : List (Record α)) : α :=
  Reading.total (rs.map toReading)

def Exceeds (rs : List (Record α)) : Prop :=
  ∃ pre r post, rs = pre ++ r :: post ∧ r.settleTime < total (pre ++ [r])

/-- The log ends in these ticks, all inside the band. -/
structure Closes (log : List (Entry α)) (rs : List (Record α)) : Prop where
  suffix : rs.map Entry.tick <:+ log
  inBand : ∀ r ∈ rs, r.InBand

/-- No more ticks of the log belong to the block that it ends in. -/
structure IsLongest (log : List (Entry α)) (rs : List (Record α)) : Prop extends Closes log rs where
  longest : ∀ ss, Closes log ss → ss.length ≤ rs.length

end Record

open Record

/-- The block that the log ends in was long enough. -/
def Resident [Scalar α] (log : List (Entry α)) : Prop :=
  ∃ block, IsLongest log block ∧ Exceeds block

namespace Chronicle

variable [Scalar α]

def start (envTemp : α) (c : HeaterConfig α) : Chronicle α where
  body := Body.ofConfig envTemp c
  times := []
  log := []

/-- What a tick at a time shows of the body that it leads to. The first tick of all lasts no
time. -/
def record (h : Chronicle α) (time : α) (d : Body α) : Record α where
  temperature := d.temperature
  window := d.config.settleWindow
  settleTime := d.config.settleTime
  elapsed := match h.times.getLast? with
    | some last => time - last
    | none => 0.0
  setPoint := d.setPoint

/-- The past goes on. A tick that fails is none. -/
def act (h : Chronicle α) : BodyEvent α → Chronicle α
  | .tick time =>
    match h.body.run time with
    | .ok d => ⟨d, h.times ++ [time], h.log ++ [.tick (h.record time d)]⟩
    | .error _ => h
  | .write celsius => ⟨h.body.setTemperature celsius, h.times, h.log ++ [.write]⟩
  | .tune config control => { h with body := { h.body with config := config, control := control } }

def acts (h : Chronicle α) (es : List (BodyEvent α)) : Chronicle α :=
  es.foldl act h

/-- The timer and the flag of the body say what the log says. -/
structure Sound (h : Chronicle α) : Prop where
  clock : h.body.lastTime = h.times.getLast?
  counts : ∃ block, IsLongest h.log block ∧ h.body.settleTimer = total block ∧
    (h.body.reached = true ↔ Exceeds block)

end Chronicle

namespace Record

variable [Scalar α] {log : List (Entry α)} {rs ss : List (Record α)} {r : Record α}

theorem total_snoc (rs : List (Record α)) (r : Record α) :
    total (rs ++ [r]) = total rs + r.elapsed := by
  rw [total, List.map_append, List.map_singleton, Reading.total_snoc, total]

theorem exceeds_snoc : Exceeds (rs ++ [r]) ↔ Exceeds rs ∨ r.settleTime < total (rs ++ [r]) := by
  constructor
  · rintro ⟨pre, x, post, hsplit, hlt⟩
    rcases List.eq_nil_or_concat post with rfl | ⟨post, y, rfl⟩
    · obtain ⟨rfl, hx⟩ := List.append_inj' hsplit rfl
      cases hx
      exact Or.inr hlt
    · rw [List.concat_eq_append, ← List.cons_append, ← List.append_assoc] at hsplit
      obtain ⟨rfl, -⟩ := List.append_inj' hsplit rfl
      exact Or.inl ⟨pre, x, post, rfl, hlt⟩
  · rintro (⟨pre, x, post, rfl, hlt⟩ | hlt)
    · exact ⟨pre, x, post ++ [r], by simp, hlt⟩
    · exact ⟨rs, r, [], rfl, hlt⟩

theorem not_exceeds_nil : ¬ Exceeds ([] : List (Record α)) := by
  rintro ⟨pre, r, post, h, -⟩
  cases pre <;> cases h

omit [Scalar α] in
theorem tick_injective : Function.Injective (Entry.tick : Record α → Entry α) := by
  intro r s h
  cases h
  rfl

theorem closes_nil (log : List (Entry α)) : Closes log [] :=
  ⟨List.nil_suffix, nofun⟩

theorem Closes.snoc (h : Closes log rs) (hr : r.InBand) :
    Closes (log ++ [.tick r]) (rs ++ [r]) := by
  obtain ⟨⟨before, rfl⟩, hband⟩ := h
  constructor
  · exact ⟨before, by simp⟩
  · intro s hs
    rcases List.mem_append.mp hs with hs | hs
    · exact hband s hs
    · rw [List.mem_singleton.mp hs]
      exact hr

theorem Closes.cases {e : Entry α} (h : Closes (log ++ [e]) rs) :
    rs = [] ∨ ∃ ss r, rs = ss ++ [r] ∧ e = .tick r ∧ r.InBand ∧ Closes log ss := by
  obtain ⟨⟨before, hsplit⟩, hband⟩ := h
  rcases List.eq_nil_or_concat rs with rfl | ⟨ss, r, rfl⟩
  · exact Or.inl rfl
  · right
    rw [List.concat_eq_append] at hsplit hband ⊢
    rw [List.map_append, List.map_singleton, ← List.append_assoc] at hsplit
    obtain ⟨hlog, he⟩ := List.append_inj' hsplit rfl
    refine ⟨ss, r, rfl, (List.head_eq_of_cons_eq he).symm, hband r (by simp), ⟨before, hlog⟩, ?_⟩
    intro s hs
    exact hband s (List.mem_append_left _ hs)

theorem isLongest_nil : IsLongest ([] : List (Entry α)) [] := by
  refine ⟨closes_nil _, fun ss hs => ?_⟩
  have hle := hs.suffix.length_le
  rwa [List.length_map] at hle

/-- A tick inside the band goes on with the block. -/
theorem IsLongest.snoc (h : IsLongest log rs) (hr : r.InBand) :
    IsLongest (log ++ [.tick r]) (rs ++ [r]) := by
  refine ⟨h.toCloses.snoc hr, fun ss hs => ?_⟩
  rcases hs.cases with rfl | ⟨ss, s, rfl, -, -, hss⟩
  · exact Nat.zero_le _
  · rw [List.length_append, List.length_append]
    exact Nat.add_le_add_right (h.longest ss hss) 1

theorem isLongest_of_break {e : Entry α} (he : ∀ r, e = .tick r → ¬ r.InBand) :
    IsLongest (log ++ [e]) [] := by
  refine ⟨closes_nil _, fun ss hs => ?_⟩
  rcases hs.cases with rfl | ⟨ss, s, rfl, hes, hband, -⟩
  · exact le_rfl
  · exact absurd hband (he s hes)

theorem IsLongest.unique (h : IsLongest log rs) (k : IsLongest log ss) : rs = ss := by
  have hlength : (rs.map Entry.tick).length = (ss.map Entry.tick).length := by
    rw [List.length_map, List.length_map]
    exact le_antisymm (k.longest rs h.toCloses) (h.longest ss k.toCloses)
  have hsuffix := List.suffix_of_suffix_length_le h.suffix k.suffix hlength.le
  exact tick_injective.list_map (hsuffix.eq_of_length hlength)

end Record

namespace Chronicle

variable [Scalar α] {h : Chronicle α}

theorem sound_start (envTemp : α) (c : HeaterConfig α) : (start envTemp c).Sound :=
  ⟨rfl, [], isLongest_nil, rfl, nofun, fun he => absurd he not_exceeds_nil⟩

theorem elapsed_record (hs : h.Sound) (time : α) (d : Body α) :
    (h.record time d).elapsed = h.body.elapsed time := by
  unfold Body.elapsed
  rw [hs.clock]
  rfl

theorem Sound.tick (hs : h.Sound) {time : α} {d : Body α} (hd : h.body.run time = .ok d) :
    Sound ⟨d, h.times ++ [time], h.log ++ [.tick (h.record time d)]⟩ := by
  obtain ⟨control, power, ha⟩ := Body.advances_of_run hd
  obtain ⟨block, hlongest, htimer, hreached⟩ := hs.counts
  have helapsed := elapsed_record hs time d
  have hsettle := ha.settle
  rw [← helapsed, ← ha.setPoint, ← ha.config, htimer] at hsettle
  refine ⟨ha.lastTime.trans (List.getLast?_concat ..).symm, ?_⟩
  by_cases hin : (h.record time d).InBand
  · have hband : Scalar.abs (d.temperature - d.setPoint) < d.config.settleWindow := hin
    rw [if_pos hband, Prod.mk.injEq] at hsettle
    refine ⟨block ++ [h.record time d], hlongest.snoc hin, ?_, ?_⟩
    · rw [total_snoc]
      exact hsettle.2
    · rw [hsettle.1, exceeds_snoc, total_snoc, ← hreached, Bool.or_eq_true, decide_eq_true_iff]
      exact Iff.rfl
  · have hband : ¬ Scalar.abs (d.temperature - d.setPoint) < d.config.settleWindow := hin
    rw [if_neg hband, Prod.mk.injEq] at hsettle
    refine ⟨[], isLongest_of_break ?_, hsettle.2, ?_⟩
    · intro r hr
      cases hr
      exact hin
    · rw [hsettle.1]
      exact ⟨nofun, fun he => absurd he not_exceeds_nil⟩

theorem Sound.act (hs : h.Sound) (e : BodyEvent α) : (h.act e).Sound := by
  cases e with
  | tick time =>
    cases hd : h.body.run time with
    | ok d =>
      rw [Chronicle.act, hd]
      exact hs.tick hd
    | error fault =>
      rw [Chronicle.act, hd]
      exact hs
  | write celsius =>
    refine ⟨hs.clock, [], isLongest_of_break nofun, rfl, nofun, ?_⟩
    intro he
    exact absurd he not_exceeds_nil
  | tune config control => exact ⟨hs.clock, hs.counts⟩

theorem Sound.acts (hs : h.Sound) (es : List (BodyEvent α)) : (h.acts es).Sound := by
  induction es generalizing h with
  | nil => exact hs
  | cons e es ih => exact ih (hs.act e)

/-- After whatever has happened to a body, its set point counts as reached exactly if its past says
so; a set point that is written is not reached. -/
theorem reached_iff_resident (envTemp : α) (c : HeaterConfig α) (es : List (BodyEvent α)) :
    (((start envTemp c).acts es).body.reached = true ↔ Resident ((start envTemp c).acts es).log) ∧
      ∀ celsius, (((start envTemp c).acts es).body.setTemperature celsius).reached = false := by
  obtain ⟨-, block, hlongest, -, hreached⟩ := (sound_start envTemp c).acts es
  refine ⟨?_, fun celsius => rfl⟩
  rw [hreached]
  constructor
  · intro he
    exact ⟨block, hlongest, he⟩
  · rintro ⟨other, hother, he⟩
    rw [hlongest.unique hother]
    exact he

/-- The stock nozzle stays in its band, and is settled at the fourth tick there. -/
example :
    let h := (start 25.0 (HeaterConfig.stock .nozzle : HeaterConfig Float)).acts
      [.write 25.0, .tick 0.05, .tick 0.1, .tick 0.15]
    h.body.reached = false ∧ (h.act (.tick 0.2)).body.reached = true := by
  decide +kernel

end Chronicle

end Gantry
