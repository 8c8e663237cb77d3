import Mathlib
import Gantry.Proofs.Heat.Power

/-!
# Control over whole histories

A regulator may be run at any times, with any measurements, while its set point, its gains and its
bounds are written in between. As long as the bounds are in order whenever it is run, every run is
carried out, the integral lies within the bound that is then in force and the output within those
of the output, unless they are undefined. What was set is all that a reset leaves: from there on
the regulator does what a new one with the same gains, bounds and set point does, and so does that
of a heater after any tick at which it is off.
-/

namespace Gantry

open Number

structure Regulator.Setup where
  kp : Float
  ki : Float
  setPoint : Float
  minOut : Option Float
  maxOut : Option Float
  windUp : Option Float

/-- What may be done to a regulator. -/
inductive Regulator.Act where
  | run (time measured : Float)
  | reset
  | setPoint (value : Float)
  | kp (value : Float)
  | ki (value : Float)
  | windUp (value : Option Float)
  | minOut (value : Option Float)
  | maxOut (value : Option Float)

def Regulator.Act.IsRun : Act → Prop
  | .run _ _ => True
  | _ => False

/-- What a regulator shows after an act: the output where it was run, and the integral. -/
structure Regulator.Shown where
  output : Option Float
  integral : Float

namespace Regulator

namespace Setup

def build (c : Setup) : Regulator Float :=
  { ofGains c.kp c.ki c.setPoint with minOut := c.minOut, maxOut := c.maxOut, windUp := c.windUp }

/-- What is set after an act; neither runs nor resets set anything. -/
def after (c : Setup) : Act → Setup
  | .run _ _ => c
  | .reset => c
  | .setPoint value => { c with setPoint := value }
  | .kp value => { c with kp := value }
  | .ki value => { c with ki := value }
  | .windUp value => { c with windUp := value }
  | .minOut value => { c with minOut := value }
  | .maxOut value => { c with maxOut := value }

/-- No bound is undefined, and those of the output enclose something. -/
structure Ordered (c : Setup) : Prop where
  windUp : ∀ bound, c.windUp = some bound → bound.isNaN = false
  minOut : ∀ lo, c.minOut = some lo → lo.isNaN = false
  maxOut : ∀ hi, c.maxOut = some hi → hi.isNaN = false
  order : ∀ lo hi, c.minOut = some lo → c.maxOut = some hi → lo ≤ hi

def afterAll (c : Setup) (acts : List Act) : Setup :=
  acts.foldl after c

def Orderly (c : Setup) : List Act → Prop
  | [] => True
  | a :: acts => (a.IsRun → c.Ordered) ∧ Orderly (c.after a) acts

/-- An integral and an output within the bounds that are set, or undefined. -/
structure Holds (c : Setup) (integral out : Float) : Prop where
  integral : integral.isNaN = true ∨
    ∀ bound, c.windUp = some bound → Scalar.abs integral ≤ Scalar.abs bound
  output : out.isNaN = true ∨
    (∀ lo, c.minOut = some lo → lo ≤ out) ∧ ∀ hi, c.maxOut = some hi → out ≤ hi

end Setup

def setup (r : Regulator Float) : Setup :=
  ⟨r.kp, r.ki, r.setPoint, r.minOut, r.maxOut, r.windUp⟩

def quiet (r : Regulator Float) : Regulator Float × Shown :=
  (r, ⟨none, r.integral⟩)

def act (r : Regulator Float) : Act → Except BoundsFault (Regulator Float × Shown)
  | .run time measured => (r.run time measured).map fun (s, out) => (s, ⟨some out, s.integral⟩)
  | .reset => .ok r.reset.quiet
  | .setPoint value => .ok { r with setPoint := value }.quiet
  | .kp value => .ok { r with kp := value }.quiet
  | .ki value => .ok { r with ki := value }.quiet
  | .windUp value => .ok { r with windUp := value }.quiet
  | .minOut value => .ok { r with minOut := value }.quiet
  | .maxOut value => .ok { r with maxOut := value }.quiet

def acts (r : Regulator Float) : List Act → Except BoundsFault (Regulator Float × List Shown)
  | [] => .ok (r, [])
  | a :: as => do
    let (s, x) ← r.act a
    (s.acts as).map (Prod.map id (x :: ·))

variable {r s : Regulator Float} {a : Act} {as bs : List Act} {x : Shown} {xs : List Shown}
  {c : Setup} {time measured out : Float}

theorem reset_eq (r : Regulator Float) : r.reset = r.setup.build := rfl

theorem act_run (h : r.run time measured = .ok (s, out)) :
    r.act (.run time measured) = .ok (s, ⟨some out, s.integral⟩) := by
  rw [act, h]
  rfl

theorem setup_act (h : r.act a = .ok (s, x)) : s.setup = r.setup.after a := by
  cases a with
  | run time measured =>
    cases hrun : r.run time measured with
    | error fault =>
      rw [act, hrun] at h
      cases h
    | ok p =>
      obtain ⟨t, out⟩ := p
      rw [act_run hrun] at h
      cases h
      obtain ⟨y, -, rfl, -⟩ := run_cases hrun
      rfl
  | _ =>
    cases h
    rfl

theorem acts_cons (h : r.act a = .ok (s, x)) :
    r.acts (a :: as) = (s.acts as).map (Prod.map id (x :: ·)) := by
  rw [acts, h]
  rfl

theorem exists_acts_of_cons (h : r.acts (a :: as) = .ok (s, xs)) :
    ∃ t x ys, r.act a = .ok (t, x) ∧ t.acts as = .ok (s, ys) ∧ xs = x :: ys := by
  obtain ⟨⟨t, x⟩, ha, h⟩ := ok_of_bind h
  cases ht : t.acts as with
  | error fault =>
    simp only [ht] at h
    cases h
  | ok p =>
    simp only [ht] at h
    cases h
    exact ⟨t, x, p.2, ha, ht, rfl⟩

theorem acts_append (h : r.acts as = .ok (s, xs)) :
    r.acts (as ++ bs) = (s.acts bs).map (Prod.map id (xs ++ ·)) := by
  induction as generalizing r xs with
  | nil =>
    cases h
    rw [List.nil_append]
    cases s.acts bs <;> rfl
  | cons a as ih =>
    obtain ⟨t, x, ys, ha, ht, rfl⟩ := exists_acts_of_cons h
    rw [List.cons_append, acts_cons ha, ih ht]
    cases s.acts bs <;> rfl

theorem setup_acts (h : r.acts as = .ok (s, xs)) : s.setup = r.setup.afterAll as := by
  induction as generalizing r xs with
  | nil =>
    cases h
    rfl
  | cons a as ih =>
    obtain ⟨t, x, ys, ha, ht, rfl⟩ := exists_acts_of_cons h
    rw [ih ht, setup_act ha]
    rfl

theorem exists_run (hc : r.setup.Ordered) (time measured : Float) :
    ∃ s out, r.run time measured = .ok (s, out) := by
  have hy : ∃ y, r.integrate time measured = .ok y := by
    unfold integrate
    cases hw : r.windUp with
    | none => exact ⟨_, rfl⟩
    | some bound =>
      obtain ⟨y, hy⟩ := clamp?_of_le (neg_abs_le_abs (hc.windUp bound hw))
        (r.integral + (r.lastError + r.error measured) * r.elapsed time / 2.0)
      exact ⟨y, by simp only [hy]⟩
  obtain ⟨y, hy⟩ := hy
  unfold run
  rw [hy]
  exact ⟨_, _, rfl⟩

theorem abs_integral_le (hc : r.setup.Ordered) {y : Float}
    (h : r.integrate time measured = .ok y) :
    y.isNaN = true ∨ ∀ bound, r.windUp = some bound → Scalar.abs y ≤ Scalar.abs bound := by
  cases hw : r.windUp with
  | none => exact Or.inr nofun
  | some bound =>
    simp only [integrate, hw] at h
    split at h
    · rename_i z hz
      cases h
      cases hnan : (r.integral + (r.lastError + r.error measured) * r.elapsed time / 2.0).isNaN with
      | true =>
        left
        rw [clamp?_of_isNaN hz hnan]
        exact hnan
      | false =>
        right
        rintro bound ⟨⟩
        obtain ⟨hge, hle⟩ := clamp?_mem hz hnan
        exact abs_le_abs_of_mem (hc.windUp bound hw) hge hle
    · cases h

theorem raised_cases (r : Regulator Float) (x : Float) :
    r.raised x = x ∨ r.minOut = some (r.raised x) := by
  unfold raised
  cases r.minOut with
  | none => exact Or.inl rfl
  | some lo => by_cases h : x < lo <;> simp [h]

theorem le_raised (hc : r.setup.Ordered) {x : Float} (hx : x.isNaN = false) {lo : Float}
    (hlo : r.minOut = some lo) : lo ≤ r.raised x := by
  have hnan := hc.minOut lo hlo
  simp only [raised, hlo]
  split
  · exact le_self hnan
  · rename_i h
    exact le_of_not_lt hnan hx h

theorem raised_le (hc : r.setup.Ordered) {x hi : Float} (hhi : r.maxOut = some hi) (hx : x ≤ hi) :
    r.raised x ≤ hi := by
  rcases r.raised_cases x with h | h
  · rwa [h]
  · exact hc.order _ hi h hhi

theorem bounded_mem (hc : r.setup.Ordered) {x : Float} (hx : x.isNaN = false) :
    (∀ lo, r.minOut = some lo → lo ≤ r.bounded x) ∧
      ∀ hi, r.maxOut = some hi → r.bounded x ≤ hi := by
  cases hmax : r.maxOut with
  | none =>
    simp only [bounded, hmax]
    exact ⟨fun lo hlo => le_raised hc hx hlo, nofun⟩
  | some hi =>
    have hnan := hc.maxOut hi hmax
    simp only [bounded, hmax]
    split
    · refine ⟨fun lo hlo => hc.order lo hi hlo hmax, ?_⟩
      rintro _ ⟨⟩
      exact le_self hnan
    · rename_i hle
      refine ⟨fun lo hlo => le_raised hc hx hlo, ?_⟩
      rintro _ ⟨⟩
      exact raised_le hc hmax (le_of_not_lt hx hnan hle)

theorem bounded_undefined_or_mem (hc : r.setup.Ordered) (x : Float) :
    (r.bounded x).isNaN = true ∨ (∀ lo, r.minOut = some lo → lo ≤ r.bounded x) ∧
      ∀ hi, r.maxOut = some hi → r.bounded x ≤ hi := by
  cases hx : x.isNaN with
  | true =>
    left
    rw [r.bounded_of_isNaN hx]
    exact hx
  | false => exact Or.inr (bounded_mem hc hx)

theorem holds_of_run (hc : r.setup.Ordered) (h : r.run time measured = .ok (s, out)) :
    r.setup.Holds s.integral out := by
  obtain ⟨y, hy, rfl, rfl⟩ := run_cases h
  exact ⟨abs_integral_le hc hy, bounded_undefined_or_mem hc _⟩

theorem exists_act (hc : a.IsRun → r.setup.Ordered) : ∃ s x, r.act a = .ok (s, x) := by
  cases a with
  | run time measured =>
    obtain ⟨s, out, h⟩ := exists_run (hc trivial) time measured
    exact ⟨_, _, act_run h⟩
  | _ => exact ⟨_, _, rfl⟩

theorem exists_acts (hc : r.setup.Orderly as) : ∃ s xs, r.acts as = .ok (s, xs) := by
  induction as generalizing r with
  | nil => exact ⟨_, _, rfl⟩
  | cons a as ih =>
    obtain ⟨s, x, ha⟩ := exists_act hc.1
    obtain ⟨t, xs, hs⟩ := ih (setup_act ha ▸ hc.2)
    exact ⟨t, x :: xs, by rw [acts_cons ha, hs]; rfl⟩

theorem Setup.Orderly.append (h : c.Orderly (as ++ bs)) :
    c.Orderly as ∧ (c.afterAll as).Orderly bs := by
  induction as generalizing c with
  | nil => exact ⟨trivial, h⟩
  | cons a as ih =>
    obtain ⟨hbefore, hafter⟩ := ih h.2
    exact ⟨⟨h.1, hbefore⟩, hafter⟩

/-- Every run of a history is carried out and keeps the integral and the output within the bounds
that are then set. From a reset on, and from a tick of a heater that is off, a regulator is a new
one with what is then set. -/
theorem held_and_renewed (c : Setup) :
    (∀ past time measured, c.Orderly (past ++ [.run time measured]) →
      ∃ r xs out, c.build.acts (past ++ [.run time measured]) =
        .ok (r, xs ++ [⟨some out, r.integral⟩]) ∧ (c.afterAll past).Holds r.integral out) ∧
    (∀ past later r xs, c.build.acts past = .ok (r, xs) →
      c.build.acts (past ++ .reset :: later) =
        ((c.afterAll past).build.acts later).map (Prod.map id (xs ++ ⟨none, 0.0⟩ :: ·))) ∧
    ∀ (b : Body Float) (time : Float), (b.setPoint == 0.0) = true →
      ∃ d, b.run time = .ok d ∧ d.control = b.control.setup.build := by
  refine ⟨?_, ?_, ?_⟩
  · intro past time measured hc
    obtain ⟨hpast, hrun, -⟩ := hc.append
    obtain ⟨s, xs, hs⟩ := exists_acts (r := c.build) hpast
    have hset : s.setup = c.afterAll past := setup_acts hs
    obtain ⟨r, out, hr⟩ := exists_run (hset ▸ hrun trivial) time measured
    refine ⟨r, xs, out, ?_, hset ▸ holds_of_run (hset ▸ hrun trivial) hr⟩
    rw [acts_append hs, acts_cons (act_run hr)]
    rfl
  · intro past later r xs hr
    have hset : r.setup = c.afterAll past := setup_acts hr
    have hreset : r.act .reset = .ok ((c.afterAll past).build, ⟨none, 0.0⟩) := by
      rw [← hset]
      rfl
    rw [acts_append hr, acts_cons hreset]
    cases (c.afterAll past).build.acts later <;> rfl
  · intro b time hoff
    have hheat : b.heat time = .ok (b.control.reset, 0.0) := by rw [Body.heat, if_pos hoff]
    have hrun : ∃ d, b.run time = .ok d := by
      unfold Body.run
      rw [hheat]
      exact ⟨_, rfl⟩
    obtain ⟨d, hd⟩ := hrun
    obtain ⟨control, power, ha⟩ := Body.advances_of_run hd
    have hsame := ha.heat
    rw [hheat] at hsame
    cases hsame
    exact ⟨d, hd, ha.control.trans (reset_eq b.control)⟩

/-- An upper bound that comes down between two runs, and a reset. -/
theorem held_and_renewed_warming :
    let c : Setup := ⟨20.0, 1.0, 200.0, none, none, none⟩
    let past : List Act := [.minOut (some 0.0), .maxOut (some 120.0), .windUp (some 10.0),
      .run 0.0 25.0, .maxOut (some 50.0)]
    let body : Body Float := Body.ofConfig 25.0 (HeaterConfig.stock .nozzle)
    c.Orderly (past ++ [.run 0.05 26.0]) ∧ (body.setPoint == 0.0) = true ∧
      (∃ r xs out, c.build.acts (past ++ [.run 0.05 26.0]) =
        .ok (r, xs ++ [⟨some out, r.integral⟩]) ∧ (c.afterAll past).Holds r.integral out) ∧
      c.build.acts ([.kp 5.0] ++ .reset :: past) =
        ((c.after (.kp 5.0)).build.acts past).map
          (Prod.map id ([⟨none, 0.0⟩] ++ ⟨none, 0.0⟩ :: ·)) ∧
      ∃ d, body.run 0.05 = .ok d ∧ d.control = body.control.setup.build := by
  intro c past body
  have hordered (hi : Float) (h0 : (0.0 : Float) ≤ hi) (hhi : hi.isNaN = false) :
      (⟨20.0, 1.0, 200.0, some 0.0, some hi, some 10.0⟩ : Setup).Ordered := by
    constructor
    · rintro _ ⟨⟩
      decide +kernel
    · rintro _ ⟨⟩
      decide +kernel
    · rintro _ ⟨⟩
      exact hhi
    · rintro _ _ ⟨⟩ ⟨⟩
      exact h0
  have hfirst := hordered 120.0 (by decide +kernel) (by decide +kernel)
  have hsecond := hordered 50.0 (by decide +kernel) (by decide +kernel)
  have horderly : c.Orderly (past ++ [.run 0.05 26.0]) :=
    ⟨nofun, nofun, nofun, fun _ => hfirst, nofun, fun _ => hsecond, trivial⟩
  have hoff : (body.setPoint == 0.0) = true := by decide +kernel
  exact ⟨horderly, hoff, (held_and_renewed c).1 past 0.05 26.0 horderly,
    (held_and_renewed c).2.1 [.kp 5.0] past _ _ rfl, (held_and_renewed c).2.2 body 0.05 hoff⟩

end Regulator

end Gantry
