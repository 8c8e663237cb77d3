import Gantry.Proofs.Settings.InPlace

/-!
# All or nothing

A call for settings or tuning that is refused leaves the whole machine as it was, although it is
carried out statement by statement. A call for limits is refused exactly where its input does not
decode, or where some axis it has limits for would come to a limit that is not finite and positive;
the first such limit is reported, by the order of the axes and the speed before the acceleration.
Otherwise each axis that is named has its new limits, and no axis has moved.
-/

namespace Gantry

def Usable (v : Float) : Prop :=
  v.isFinite = true ∧ 0.0 < v

def Adjustment.IsForLimits : Adjustment → Prop
  | axisLimits _ _ | document _ | text _ | blob _ => True
  | gains _ _ _ _ | settle _ _ _ | feedOverride _ => False

def LimitChange.ofLimits (l : Limits Float) : LimitChange Float :=
  ⟨some l.maxSpeed, some l.maxAcc⟩

/-- The sections for the axes that the input of a call decodes to. -/
inductive Adjustment.Asks : Adjustment → SettingsDocument Float → Prop where
  | axisLimits (i : AxisId) (l : Limits Float) :
      Asks (.axisLimits i l) ((PerAxis.replicate none).set i (some (.ofLimits l)))
  | document (doc : SettingsDocument Float) : Asks (.document doc) doc
  | text {text : String} {doc : SettingsDocument Float} (h : Settings.ofText? text = some doc) :
      Asks (.text text) doc
  | blob {bytes : List UInt8} {limits : PerAxis (Limits Float)}
      (h : Settings.decodeBlob? bytes = some limits) :
      Asks (.blob bytes) (limits.map fun l => some (.ofLimits l))

inductive Adjustment.Undecodable : Adjustment → Rejection Float → Prop where
  | text {text : String} (h : Settings.ofText? text = none) :
      Undecodable (.text text) .malformedDocument
  | blob {bytes : List UInt8} (h : bytes.length ≠ 32) :
      Undecodable (.blob bytes) (.blobLength 32 bytes.length)

namespace Machine

/-- The limits that the named axes would come to have, by axis and with the speed first. -/
def resulting (m : Machine Float) (doc : SettingsDocument Float) :
    List (AxisId × LimitField × Float) :=
  AxisId.all.flatMap fun i => (doc.get i).elim [] fun c =>
    [(i, .maxSpeed, c.maxSpeed.getD (m.axis i).config.maxSpeed),
      (i, .maxAcc, c.maxAcc.getD (m.axis i).config.maxAcc)]

/-- The rejection reports the first limit that is not usable. -/
def Reports (m : Machine Float) (doc : SettingsDocument Float) (e : Rejection Float) : Prop :=
  ∃ pre i field v post, m.resulting doc = pre ++ (i, field, v) :: post ∧
    (∀ p ∈ pre, Usable p.2.2) ∧ ¬ Usable v ∧ e = .axisLimit i field v

/-- A machine after other limits of the named axes. -/
structure Adjusted (m n : Machine Float) (doc : SettingsDocument Float) : Prop where
  /-- An axis that is not named is the same. -/
  others : ∀ i, doc.get i = none → n.axis i = m.axis i
  /-- An axis that is named has the limits given, and keeps those that are not. -/
  limits : ∀ i c, doc.get i = some c →
    (n.axis i).config.maxSpeed = c.maxSpeed.getD (m.axis i).config.maxSpeed ∧
      (n.axis i).config.maxAcc = c.maxAcc.getD (m.axis i).config.maxAcc
  position : ∀ i, (n.axis i).position = (m.axis i).position
  rest : { n with axes := m.axes } = m

end Machine

/-- What becomes of a call. -/
structure AllOrNothing (m : Machine Float) (x : Adjustment) : Prop where
  /-- In place, a refused call leaves the machine as it was. -/
  refused : ∀ e n, x.inPlace.outcome m = (.error e, n) → n = m
  /-- It is refused with the rejection that the program gives for it. -/
  rejected : ∀ e, (x.inPlace.outcome m).1 = .error e ↔ x.apply m = .error e
  /-- Otherwise it comes to the machine that the program comes to. -/
  carriedOut : ∀ n, x.inPlace.outcome m = (.ok (), n) ↔ x.apply m = .ok n
  /-- When a call for limits is refused. -/
  fails : x.IsForLimits → ((∃ e, x.apply m = .error e) ↔
    (∃ e, x.Undecodable e) ∨ ∃ doc, x.Asks doc ∧ ∃ p ∈ m.resulting doc, ¬ Usable p.2.2)
  /-- What is reported then. -/
  reports : x.IsForLimits → ∀ e, x.apply m = .error e ↔
    x.Undecodable e ∨ ∃ doc, x.Asks doc ∧ m.Reports doc e
  /-- What a call for limits does that is not refused. -/
  succeeds : x.IsForLimits → ∀ n, x.apply m = .ok n → ∃ doc, x.Asks doc ∧ m.Adjusted n doc

theorem isPositive_iff_usable {v : Float} : Scalar.isPositive v = true ↔ Usable v := by
  unfold Scalar.isPositive Usable
  rw [Bool.and_eq_true, decide_eq_true_iff]
  exact Iff.rfl

theorem checkLimit_eq_ok_iff {i : AxisId} {field : LimitField} {v : Float} :
    checkLimit i field v = .ok () ↔ Usable v := by
  unfold checkLimit
  rw [← isPositive_iff_usable]
  split <;> simp [*]

theorem checkLimit_eq_error_iff {i : AxisId} {field : LimitField} {v : Float}
    {e : Rejection Float} :
    checkLimit i field v = .error e ↔ ¬ Usable v ∧ e = .axisLimit i field v := by
  unfold checkLimit
  rw [← isPositive_iff_usable]
  split <;> simp [*, eq_comm]

theorem forM_eq_error_iff {ε β : Type} {f : β → Except ε Unit} {l : List β} {e : ε} :
    l.forM f = .error e ↔
      ∃ pre x post, l = pre ++ x :: post ∧ (∀ y ∈ pre, f y = .ok ()) ∧ f x = .error e := by
  induction l with
  | nil =>
    constructor
    · intro h
      cases h
    · rintro ⟨pre, x, post, h, -⟩
      cases pre <;> cases h
  | cons y l ih =>
    have hcons : (y :: l).forM f = (f y >>= fun _ => l.forM f) := rfl
    rw [hcons]
    cases hy : f y with
    | error d =>
      constructor
      · intro h
        cases h
        exact ⟨[], y, l, rfl, nofun, hy⟩
      · rintro ⟨pre, x, post, h, hok, hx⟩
        cases pre with
        | nil =>
          cases h
          rw [← hy, hx]
          rfl
        | cons z pre =>
          cases h
          have := hok y (by simp)
          rw [hy] at this
          cases this
    | ok _ =>
      have hrest : (Except.ok () >>= fun _ => l.forM f : Except ε Unit) = l.forM f := rfl
      rw [hrest, ih]
      constructor
      · rintro ⟨pre, x, post, rfl, hok, hx⟩
        exact ⟨y :: pre, x, post, rfl, by simpa [hy] using hok, hx⟩
      · rintro ⟨pre, x, post, h, hok, hx⟩
        cases pre with
        | nil =>
          cases h
          rw [hy] at hx
          cases hx
        | cons z pre =>
          cases h
          exact ⟨pre, x, post, rfl, fun w hw => hok w (by simp [hw]), hx⟩

theorem forM_checkLimits (updates : List (AxisId × Limits Float)) :
    (updates.forM fun u => checkLimits u.1 u.2) =
      (updates.flatMap fun u => [(u.1, LimitField.maxSpeed, u.2.maxSpeed),
        (u.1, LimitField.maxAcc, u.2.maxAcc)]).forM fun p => checkLimit p.1 p.2.1 p.2.2 := by
  induction updates with
  | nil => rfl
  | cons u us ih =>
    show (checkLimits u.1 u.2 >>= fun _ => us.forM fun u => checkLimits u.1 u.2) = _
    rw [ih, checkLimits, bind_assoc]
    rfl

theorem flatMap_filterMap {β γ δ : Type} (f : β → Option γ) (g : γ → List δ) (l : List β) :
    (l.filterMap f).flatMap g = l.flatMap fun x => (f x).elim [] g := by
  induction l with
  | nil => rfl
  | cons x l ih =>
    cases hx : f x with
    | none => simp [hx, ih]
    | some y => simp [hx, ih]

namespace Machine

variable {m n : Machine Float} {doc : SettingsDocument Float} {e : Rejection Float}

theorem resulting_eq (m : Machine Float) (doc : SettingsDocument Float) :
    m.resulting doc = (m.limitUpdates doc).flatMap fun u =>
      [(u.1, .maxSpeed, u.2.maxSpeed), (u.1, .maxAcc, u.2.maxAcc)] := by
  unfold resulting limitUpdates
  rw [flatMap_filterMap]
  congr 1
  funext i
  cases doc.get i <;> rfl

theorem applySettings_eq (m : Machine Float) (doc : SettingsDocument Float) :
    m.applySettings doc = ((m.resulting doc).forM fun p => checkLimit p.1 p.2.1 p.2.2) >>=
      fun _ => .ok ((m.limitUpdates doc).foldl (fun m u => m.withLimits u.1 u.2) m) := by
  rw [applySettings, applyLimits, forM_checkLimits, ← resulting_eq]
  rfl

theorem applySettings_eq_error_iff : m.applySettings doc = .error e ↔ m.Reports doc e := by
  have hbind : m.applySettings doc = .error e ↔
      ((m.resulting doc).forM fun p => checkLimit p.1 p.2.1 p.2.2) = .error e := by
    rw [applySettings_eq]
    cases (m.resulting doc).forM fun p => checkLimit p.1 p.2.1 p.2.2 with
    | ok _ => exact ⟨nofun, nofun⟩
    | error d => exact ⟨fun h => by cases h; rfl, fun h => by cases h; rfl⟩
  rw [hbind, forM_eq_error_iff]
  simp only [checkLimit_eq_ok_iff, checkLimit_eq_error_iff, Reports, Prod.exists]

theorem exists_reports_iff : (∃ e, m.Reports doc e) ↔ ∃ p ∈ m.resulting doc, ¬ Usable p.2.2 := by
  constructor
  · rintro ⟨e, pre, i, field, v, post, hsplit, -, hv, -⟩
    exact ⟨(i, field, v), by simp [hsplit], hv⟩
  · rintro ⟨p, hp, hv⟩
    cases h : (m.resulting doc).forM fun p => checkLimit p.1 p.2.1 p.2.2 with
    | ok _ => exact absurd (checkLimit_eq_ok_iff.mp (forM_ok h p hp)) hv
    | error e =>
      refine ⟨e, applySettings_eq_error_iff.mp ?_⟩
      rw [applySettings_eq, h]
      rfl

theorem limitsFor_filterMap {β : Type} (f : AxisId → Option β) (g : AxisId → β → Limits Float)
    (i : AxisId) {l : List AxisId} (hl : l.Nodup) :
    limitsFor i (l.filterMap fun j => (f j).map fun c => (j, g j c)) =
      if i ∈ l then ((f i).map (g i)).toList else [] := by
  induction l with
  | nil => rfl
  | cons j l ih =>
    obtain ⟨hj, hl⟩ := List.nodup_cons.mp hl
    have hrest := ih hl
    unfold limitsFor at *
    by_cases hji : j = i
    · subst hji
      rw [if_neg hj] at hrest
      cases hf : f j with
      | none => simp [hf, hrest]
      | some c => simp [hf, hrest]
    · have hmem : i ∈ j :: l ↔ i ∈ l := by simp [Ne.symm hji]
      simp only [hmem]
      cases hf : f j with
      | none => simpa [hf] using hrest
      | some c => simpa [hf, hji] using hrest

theorem limitsFor_limitUpdates (m : Machine Float) (doc : SettingsDocument Float) (i : AxisId) :
    limitsFor i (m.limitUpdates doc) =
      ((doc.get i).map fun c => c.over (m.axis i).limits).toList := by
  have hall : AxisId.all.Nodup := by decide
  unfold limitUpdates
  rw [limitsFor_filterMap doc.get (fun j c => c.over (m.axis j).limits) i hall,
    if_pos (AxisId.mem_all i)]

theorem rest_foldl_withLimits (m : Machine Float) (updates : List (AxisId × Limits Float)) :
    { updates.foldl (fun m u => m.withLimits u.1 u.2) m with axes := m.axes } = m := by
  have hrest (n : Machine Float) (axes : PerAxis (Axis Float)) :
      { updates.foldl (fun m u => m.withLimits u.1 u.2) n with axes := axes } =
        { n with axes := axes } := by
    induction updates generalizing n with
    | nil => rfl
    | cons u us ih => exact ih (n.withLimits u.1 u.2)
  exact hrest m m.axes

theorem adjusted_of_applySettings (h : m.applySettings doc = .ok n) : m.Adjusted n doc := by
  have haxis (i : AxisId) := (axis_of_applyLimits h i).2
  simp only [limitsFor_limitUpdates] at haxis
  have hn : n = (m.limitUpdates doc).foldl (fun m u => m.withLimits u.1 u.2) m := by
    rw [applySettings_eq] at h
    obtain ⟨-, -, h⟩ := ok_of_bind h
    cases h
    rfl
  constructor
  · intro i hi
    rw [haxis, hi]
    rfl
  · intro i c hi
    rw [haxis, hi]
    simp [Axis.setLimits, LimitChange.over, Axis.limits]
  · intro i
    rw [haxis]
    cases doc.get i with
    | none => rfl
    | some c => exact Axis.setLimits_position _ _
  · rw [hn]
    exact rest_foldl_withLimits m _

end Machine

namespace Settings

theorem length_decodeFloats (bytes : List UInt8) :
    (decodeFloats bytes).length = bytes.length / 4 := by
  fun_induction decodeFloats bytes with
  | case1 a b c d r ih =>
    simp only [List.length_cons, ih]
    omega
  | case2 bytes hshort =>
    rcases bytes with _ | ⟨a, _ | ⟨b, _ | ⟨c, _ | ⟨d, r⟩⟩⟩⟩
    case cons.cons.cons.cons => exact absurd rfl (hshort a b c d r)
    all_goals simp

theorem limitsOfFloats?_isSome {xs : List Float} (h : xs.length = 8) :
    ∃ limits, limitsOfFloats? xs = some limits := by
  match xs, h with
  | [sx, sy, sz, se, ax, ay, az, ae], _ => exact ⟨_, rfl⟩

theorem decodeBlob?_eq_none_iff {bytes : List UInt8} :
    decodeBlob? bytes = none ↔ bytes.length ≠ 32 := by
  unfold decodeBlob? blobLength
  by_cases h : bytes.length = 32
  · have hfloats : (decodeFloats bytes).length = 8 := by rw [length_decodeFloats, h]
    obtain ⟨limits, hlimits⟩ := limitsOfFloats?_isSome hfloats
    rw [if_pos h, hlimits]
    exact ⟨nofun, fun hne => absurd h hne⟩
  · rw [if_neg h]
    exact ⟨fun _ => h, fun _ => rfl⟩

end Settings

namespace Adjustment

variable {m n : Machine Float} {x : Adjustment} {doc : SettingsDocument Float}

theorem Asks.apply_eq (h : x.Asks doc) (m : Machine Float) : x.apply m = m.applySettings doc := by
  cases h with
  | axisLimits i l =>
    have hupdates : m.limitUpdates ((PerAxis.replicate none).set i (some (.ofLimits l))) =
        [(i, l)] := by
      cases i <;> rfl
    rw [Machine.applySettings, hupdates]
    show (checkLimits i l >>= fun _ => .ok (m.withLimits i l)) =
      ((checkLimits i l >>= fun _ => .ok ()) >>= fun _ => .ok (m.withLimits i l))
    rw [bind_assoc]
    rfl
  | document doc => rfl
  | text h =>
    rw [apply, Machine.applyText, h]
  | blob h =>
    rw [apply, Machine.applyBlob, h]
    rfl

theorem Undecodable.apply_eq {e : Rejection Float} (h : x.Undecodable e) (m : Machine Float) :
    x.apply m = .error e := by
  cases h with
  | text h => rw [apply, Machine.applyText, h]
  | blob h =>
    rw [apply, Machine.applyBlob, Settings.decodeBlob?_eq_none_iff.mpr h]
    rfl

theorem asks_or_undecodable (h : x.IsForLimits) :
    (∃ doc, x.Asks doc) ∨ ∃ e, x.Undecodable e := by
  cases x with
  | axisLimits i l => exact Or.inl ⟨_, .axisLimits i l⟩
  | document doc => exact Or.inl ⟨doc, .document doc⟩
  | text t =>
    cases ht : Settings.ofText? t with
    | some doc => exact Or.inl ⟨doc, .text ht⟩
    | none => exact Or.inr ⟨_, .text ht⟩
  | blob bytes =>
    cases hb : Settings.decodeBlob? bytes with
    | some limits => exact Or.inl ⟨_, .blob hb⟩
    | none => exact Or.inr ⟨_, .blob (Settings.decodeBlob?_eq_none_iff.mp hb)⟩
  | _ => cases h

theorem apply_eq_error_iff (hx : x.IsForLimits) {e : Rejection Float} :
    x.apply m = .error e ↔ x.Undecodable e ∨ ∃ doc, x.Asks doc ∧ m.Reports doc e := by
  constructor
  · intro he
    rcases x.asks_or_undecodable hx with ⟨doc, hdoc⟩ | ⟨d, hd⟩
    · rw [hdoc.apply_eq] at he
      exact Or.inr ⟨doc, hdoc, Machine.applySettings_eq_error_iff.mp he⟩
    · rw [hd.apply_eq] at he
      cases he
      exact Or.inl hd
  · rintro (hd | ⟨doc, hdoc, hreports⟩)
    · exact hd.apply_eq m
    · rw [hdoc.apply_eq]
      exact Machine.applySettings_eq_error_iff.mpr hreports

theorem exists_error_iff (hx : x.IsForLimits) : (∃ e, x.apply m = .error e) ↔
    (∃ e, x.Undecodable e) ∨ ∃ doc, x.Asks doc ∧ ∃ p ∈ m.resulting doc, ¬ Usable p.2.2 := by
  simp only [apply_eq_error_iff hx, ← Machine.exists_reports_iff, exists_or]
  constructor
  · rintro (hd | ⟨e, doc, hdoc, he⟩)
    · exact Or.inl hd
    · exact Or.inr ⟨doc, hdoc, e, he⟩
  · rintro (hd | ⟨doc, hdoc, e, he⟩)
    · exact Or.inl hd
    · exact Or.inr ⟨e, doc, hdoc, he⟩

theorem adjusted_of_apply (hx : x.IsForLimits) (hn : x.apply m = .ok n) :
    ∃ doc, x.Asks doc ∧ m.Adjusted n doc := by
  rcases x.asks_or_undecodable hx with ⟨doc, hdoc⟩ | ⟨d, hd⟩
  · rw [hdoc.apply_eq] at hn
    exact ⟨doc, hdoc, Machine.adjusted_of_applySettings hn⟩
  · rw [hd.apply_eq] at hn
    cases hn

end Adjustment

/-- Every call for settings or tuning is carried out as a whole or not at all. -/
theorem allOrNothing (m : Machine Float) (x : Adjustment) : AllOrNothing m x where
  refused _ _ h := (Script.does_inPlace m x).eq_of_error h
  rejected _ := (Script.does_inPlace m x).error_iff
  carriedOut _ := (Script.does_inPlace m x).ok_iff
  fails hx := Adjustment.exists_error_iff hx
  reports hx _ := Adjustment.apply_eq_error_iff hx
  succeeds hx _ hn := Adjustment.adjusted_of_apply hx hn

end Gantry
