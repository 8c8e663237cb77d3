import Mathlib
import Gantry.Proofs.Settings.BlobExchange

/-!
# Reading binary settings

A blob of 32 bytes is a document that gives every limit of every axis, each as four bytes with the
lowest first: the four speeds in the order of the axes and then the four accelerations. Taking it
over comes to the same as taking over the document, whatever the bytes are, and what was taken over
is written back byte for byte.

All patterns of binary32 are covered. Those of zeros, of negative numbers, of infinities and of what
is no number are refused as the document is, and the smallest numbers are kept exactly.
-/

namespace Gantry

open Number

namespace Settings

/-- The binary32 pattern at the four bytes from `4 * k` on. -/
def wordAt (bytes : List UInt8) (k : ℕ) : UInt32 :=
  ofLittleEndian (bytes.getD (4 * k) 0) (bytes.getD (4 * k + 1) 0) (bytes.getD (4 * k + 2) 0)
    (bytes.getD (4 * k + 3) 0)

/-- The limits that a blob has for an axis, speeds in the first half and accelerations in the
second. -/
def limitsAt (bytes : List UInt8) (i : AxisId) : Limits Float :=
  ⟨widen (wordAt bytes i.index), widen (wordAt bytes (4 + i.index))⟩

/-- What a blob asks for, as a document with all limits of all axes. -/
def documentOfBlob (bytes : List UInt8) : SettingsDocument Float :=
  PerAxis.ofFn fun i => some (.ofLimits (limitsAt bytes i))

variable {bytes : List UInt8} {n : ℕ}

theorem toNat_ofLittleEndian (a b c d : UInt8) : (ofLittleEndian a b c d).toNat =
    a.toNat + b.toNat * 2 ^ 8 + c.toNat * 2 ^ 16 + d.toNat * 2 ^ 24 := by
  have hpow : twoTo 8 = 2 ^ 8 ∧ twoTo 16 = 2 ^ 16 ∧ twoTo 24 = 2 ^ 24 := ⟨rfl, rfl, rfl⟩
  have ha := a.toNat_lt
  have hb := b.toNat_lt
  have hc := c.toNat_lt
  have hd := d.toNat_lt
  unfold ofLittleEndian
  rw [hpow.1, hpow.2.1, hpow.2.2, Nat.toUInt32_eq, UInt32.toNat_ofNat']
  omega

theorem littleEndian_ofLittleEndian (a b c d : UInt8) :
    littleEndian (ofLittleEndian a b c d) = [a, b, c, d] := by
  have hpow : twoTo 8 = 2 ^ 8 ∧ twoTo 16 = 2 ^ 16 ∧ twoTo 24 = 2 ^ 24 := ⟨rfl, rfl, rfl⟩
  have ha := a.toNat_lt
  have hb := b.toNat_lt
  have hc := c.toNat_lt
  have hd := d.toNat_lt
  have hbyte {v : ℕ} {r : UInt8} (h : v % 2 ^ 8 = r.toNat) : v.toUInt8 = r := by
    apply UInt8.toNat_inj.mp
    rw [Nat.toUInt8_eq, UInt8.toNat_ofNat']
    exact h
  unfold littleEndian
  rw [toNat_ofLittleEndian, hpow.1, hpow.2.1, hpow.2.2]
  simp only [List.map_cons, List.map_nil, List.cons.injEq, and_true]
  exact ⟨hbyte (by omega), hbyte (by omega), hbyte (by omega), hbyte (by omega)⟩

theorem exists_of_length (h : bytes.length = 4 * (n + 1)) :
    ∃ a b c d rest, bytes = a :: b :: c :: d :: rest ∧ rest.length = 4 * n := by
  rcases bytes with _ | ⟨a, _ | ⟨b, _ | ⟨c, _ | ⟨d, rest⟩⟩⟩⟩
  case cons.cons.cons.cons =>
    refine ⟨a, b, c, d, rest, rfl, ?_⟩
    simp only [List.length_cons] at h
    omega
  all_goals
    simp only [List.length_cons, List.length_nil] at h
    omega

theorem decodeFloats_eq (h : bytes.length = 4 * n) :
    decodeFloats bytes = (List.range n).map fun k => widen (wordAt bytes k) := by
  induction n generalizing bytes with
  | zero =>
    obtain rfl := List.eq_nil_of_length_eq_zero h
    rfl
  | succ n ih =>
    obtain ⟨a, b, c, d, rest, rfl, hrest⟩ := exists_of_length h
    rw [List.range_succ_eq_map, List.map_cons, List.map_map]
    change widen (ofLittleEndian a b c d) :: decodeFloats rest = _
    rw [ih hrest]
    rfl

theorem flatMap_littleEndian_wordAt (h : bytes.length = 4 * n) :
    ((List.range n).flatMap fun k => littleEndian (wordAt bytes k)) = bytes := by
  induction n generalizing bytes with
  | zero =>
    obtain rfl := List.eq_nil_of_length_eq_zero h
    rfl
  | succ n ih =>
    obtain ⟨a, b, c, d, rest, rfl, hrest⟩ := exists_of_length h
    rw [List.range_succ_eq_map, List.flatMap_cons, List.flatMap_map]
    change littleEndian (ofLittleEndian a b c d) ++
      ((List.range n).flatMap fun k => littleEndian (wordAt rest k)) = _
    rw [littleEndian_ofLittleEndian, ih hrest]
    rfl

theorem range_eight : List.range 8 = [0, 1, 2, 3, 4, 5, 6, 7] := rfl

theorem decodeBlob?_eq (h : bytes.length = 32) :
    decodeBlob? bytes = some (PerAxis.ofFn (limitsAt bytes)) := by
  unfold decodeBlob? blobLength
  rw [if_pos h, decodeFloats_eq (n := 8) h, range_eight]
  simp only [List.map_cons, List.map_nil, limitsOfFloats?, PerAxis.ofFn, limitsAt, AxisId.index,
    Nat.reduceAdd]

end Settings

namespace Machine

variable {m n : Machine Float} {bytes : List UInt8}

/-- What taking over some bytes as binary settings comes to. -/
structure ReadsBlob (m : Machine Float) (bytes : List UInt8) : Prop where
  /-- Other bytes than 32 are refused for their number, and only those. -/
  length : m.applyBlob bytes = .error (.blobLength 32 bytes.length) ↔ bytes.length ≠ 32
  /-- A whole blob comes to what its document comes to, a rejection or a machine. -/
  document : bytes.length = 32 →
    m.applyBlob bytes = m.applySettings (Settings.documentOfBlob bytes)
  /-- It is accepted exactly if all its words are positive numbers of binary32. -/
  accepted : (∃ n, m.applyBlob bytes = .ok n) ↔ bytes.length = 32 ∧ ∀ k < 8,
    0 < (Settings.wordAt bytes k).toNat ∧ (Settings.wordAt bytes k).toNat < infinityBits32
  /-- The limits are then the numbers of the blob, not rounded. -/
  limits : ∀ n, m.applyBlob bytes = .ok n → ∀ i,
    toRat (n.axis i).limits.maxSpeed = binary32Value (Settings.wordAt bytes i.index) ∧
      toRat (n.axis i).limits.maxAcc = binary32Value (Settings.wordAt bytes (4 + i.index))
  /-- The machine writes the blob that it was given. -/
  blob : ∀ n, m.applyBlob bytes = .ok n → n.settingsBlob = bytes

theorem applyBlob_eq_applySettings (m : Machine Float) (h : bytes.length = 32) :
    m.applyBlob bytes = m.applySettings (Settings.documentOfBlob bytes) := by
  have hdocument : Settings.documentOfBlob bytes =
      (PerAxis.ofFn (Settings.limitsAt bytes)).map fun l => some (.ofLimits l) := by
    unfold Settings.documentOfBlob PerAxis.map
    simp only [PerAxis.get_ofFn]
  rw [hdocument]
  change (Adjustment.blob bytes).apply m = _
  exact (Adjustment.Asks.blob (Settings.decodeBlob?_eq h)).apply_eq m

theorem applyBlob_eq_applyLimits (m : Machine Float) (h : bytes.length = 32) :
    m.applyBlob bytes = m.applyLimits (AxisId.all.map fun i => (i, Settings.limitsAt bytes i)) := by
  unfold applyBlob
  simp only [Settings.decodeBlob?_eq h, PerAxis.get_ofFn]

theorem length_of_applyBlob (h : m.applyBlob bytes = .ok n) : bytes.length = 32 := by
  by_contra hne
  unfold applyBlob at h
  rw [Settings.decodeBlob?_eq_none_iff.mpr hne] at h
  cases h

theorem applyBlob_eq_blobLength_iff :
    m.applyBlob bytes = .error (.blobLength 32 bytes.length) ↔ bytes.length ≠ 32 := by
  constructor
  · intro herror hlength
    rw [applyBlob_eq_applySettings m hlength, applySettings_eq_error_iff] at herror
    obtain ⟨pre, i, field, v, post, -, -, -, hrejection⟩ := herror
    cases hrejection
  · intro hne
    exact (Adjustment.Undecodable.blob hne).apply_eq m

theorem exists_applyBlob_iff : (∃ n, m.applyBlob bytes = .ok n) ↔ bytes.length = 32 ∧ ∀ k < 8,
    0 < (Settings.wordAt bytes k).toNat ∧
      (Settings.wordAt bytes k).toNat < infinityBits32 := by
  have hlimits (h : bytes.length = 32) : (∃ n, m.applyBlob bytes = .ok n) ↔ ∀ i : AxisId,
      Scalar.isPositive (widen (Settings.wordAt bytes i.index)) = true ∧
        Scalar.isPositive (widen (Settings.wordAt bytes (4 + i.index))) = true := by
    simp only [applyBlob_eq_applyLimits m h, exists_applyLimits_iff, List.forall_mem_map,
      checkLimits_eq_ok_iff]
    exact ⟨fun hall i => hall i (AxisId.mem_all i), fun hall i _ => hall i⟩
  constructor
  · intro h
    obtain ⟨n, hn⟩ := h
    have hlength := length_of_applyBlob hn
    have hall := (hlimits hlength).mp ⟨n, hn⟩
    refine ⟨hlength, fun k hk => isPositive_widen_iff.mp ?_⟩
    interval_cases k
    exacts [(hall .x).1, (hall .y).1, (hall .z).1, (hall .e).1, (hall .x).2, (hall .y).2,
      (hall .z).2, (hall .e).2]
  · intro h
    obtain ⟨hlength, hall⟩ := h
    refine (hlimits hlength).mpr fun i => ⟨?_, ?_⟩
    · exact isPositive_widen_iff.mpr (hall i.index (by cases i <;> decide))
    · exact isPositive_widen_iff.mpr (hall (4 + i.index) (by cases i <;> decide))

theorem limitsAt_of_applyBlob (h : m.applyBlob bytes = .ok n) (i : AxisId) :
    (n.axis i).limits = Settings.limitsAt bytes i := by
  rw [applyBlob_eq_applyLimits m (length_of_applyBlob h)] at h
  exact limits_of_applyLimits h i

theorem settingsBlob_of_applyBlob (h : m.applyBlob bytes = .ok n) : n.settingsBlob = bytes := by
  obtain ⟨hlength, hwords⟩ := exists_applyBlob_iff.mp ⟨n, h⟩
  have hback (k : ℕ) (hk : k < 8) :
      narrow (widen (Settings.wordAt bytes k)) = Settings.wordAt bytes k :=
    narrow_widen (hwords k hk).1 (hwords k hk).2
  have hfloats : (List.range 8).map (fun k => widen (Settings.wordAt bytes k)) =
      AxisId.all.map (fun i => (n.axis i).limits.maxSpeed) ++
        AxisId.all.map (fun i => (n.axis i).limits.maxAcc) := by
    simp only [limitsAt_of_applyBlob h, Settings.range_eight, AxisId.all, Settings.limitsAt,
      AxisId.index, List.map_cons, List.map_nil, List.cons_append, List.nil_append, Nat.reduceAdd]
  unfold settingsBlob Settings.encodeFloats
  rw [← hfloats, List.flatMap_map]
  calc (List.range 8).flatMap (fun k => littleEndian (narrow (widen (Settings.wordAt bytes k))))
      = (List.range 8).flatMap (fun k => littleEndian (Settings.wordAt bytes k)) := by
        apply List.flatMap_congr
        intro k hk
        rw [hback k (List.mem_range.mp hk)]
    _ = bytes := Settings.flatMap_littleEndian_wordAt hlength

/-- Every list of bytes is read as its document and written back unchanged, by any machine. -/
theorem readsBlob (m : Machine Float) (bytes : List UInt8) : m.ReadsBlob bytes where
  length := applyBlob_eq_blobLength_iff
  document := m.applyBlob_eq_applySettings
  accepted := exists_applyBlob_iff
  limits := fun n hn i => by
    obtain ⟨-, hwords⟩ := exists_applyBlob_iff.mp ⟨n, hn⟩
    have hspeed := hwords i.index (by cases i <;> decide)
    have hacc := hwords (4 + i.index) (by cases i <;> decide)
    rw [limitsAt_of_applyBlob hn i]
    exact ⟨toRat_widen hspeed.1 hspeed.2, toRat_widen hacc.1 hacc.2⟩
  blob := fun n hn => settingsBlob_of_applyBlob hn

end Machine

end Gantry
