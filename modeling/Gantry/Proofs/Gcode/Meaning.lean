import Gantry.Gcode.Command
import Gantry.Proofs.Gcode.Grammar
import Gantry.Proofs.Number.Value

/-!
# What a line means

The words of a line fall into those before the first code word, which mean nothing, and blocks of a
code word with the words up to the next. A block means one command where its code is known, and
nothing where it is not, nor where it is the code of a temperature that is not given. Codes are
numbers, whatever their digits, and of several words with one letter the last one counts. A line is
read as the commands that it means, exactly where the grammar has it.
-/

namespace Gantry.Gcode

/-- The words before the first code word, and every code word with the words up to the next. -/
structure Grouping (ws lead : List Word) (bs : List Block) : Prop where
  words : ws = lead ++ bs.flatMap fun b => b.code :: b.params
  lead : ∀ w ∈ lead, w.isCode = false
  codes : ∀ b ∈ bs, b.code.isCode = true
  params : ∀ b ∈ bs, ∀ w ∈ b.params, w.isCode = false

/-- The value of a letter among words, where it is among them. The last such word counts. -/
inductive Gives (ws : List Word) (letter : Char) : Option Float → Prop where
  | missing (h : ∀ w ∈ ws, w.letter ≠ letter) : Gives ws letter none
  | last {pre post : List Word} {w : Word} (hw : ws = pre ++ w :: post) (hl : w.letter = letter)
      (hp : ∀ v ∈ post, v.letter ≠ letter) : Gives ws letter (some w.number.value)

def Block.HasCode (b : Block) (letter : Char) (number : Float) : Prop :=
  b.code.letter = letter ∧ (b.code.number.value == number) = true

/-- The codes for another set point of a heater, and whether it is waited for. -/
inductive HeatCode : Float → HeaterId → Bool → Prop where
  | nozzle : HeatCode 104.0 .nozzle false
  | nozzleWait : HeatCode 109.0 .nozzle true
  | plate : HeatCode 140.0 .plate false
  | plateWait : HeatCode 190.0 .plate true

/-- The command that a block means. -/
inductive Means (b : Block) : Command Float → Prop where
  | move {target : Target Float} {feed : Option Float} (hc : b.HasCode 'G' 1.0)
      (ht : ∀ i, Gives b.params i.letter (target.get i)) (hf : Gives b.params 'F' feed) :
      Means b (.move target feed)
  | offset {target : Target Float} (hc : b.HasCode 'G' 92.0)
      (ht : ∀ i, Gives b.params i.letter (target.get i)) : Means b (.offset target)
  | home (hc : b.HasCode 'G' 28.0) : Means b .home
  | heat {number celsius : Float} {h : HeaterId} {wait : Bool} (hh : HeatCode number h wait)
      (hc : b.HasCode 'M' number) (hs : Gives b.params 'S' (some celsius)) :
      Means b (.heat h celsius wait)

inductive Yields : List Block → List (Command Float) → Prop where
  | nil : Yields [] []
  | command {b : Block} {bs : List Block} {c : Command Float} {cs : List (Command Float)}
      (h : Means b c) (hs : Yields bs cs) : Yields (b :: bs) (c :: cs)
  | nothing {b : Block} {bs : List Block} {cs : List (Command Float)} (h : ∀ c, ¬ Means b c)
      (hs : Yields bs cs) : Yields (b :: bs) cs

def Denotes (ws : List Word) (cs : List (Command Float)) : Prop :=
  ∃ lead bs, Grouping ws lead bs ∧ Yields bs cs

theorem grouping_blocks (ws : List Word) :
    Grouping ws (ws.takeWhile fun w => !w.isCode) (blocks ws) := by
  induction ws with
  | nil => exact ⟨rfl, by simp, by simp [blocks], by simp [blocks]⟩
  | cons w ws ih =>
    obtain ⟨hwords, hlead, hcodes, hparams⟩ := ih
    by_cases hw : w.isCode = true
    · rw [blocks, if_pos hw, List.takeWhile_cons_of_neg (by simp [hw])]
      -- What came before the first code word so far are the parameters of this one.
      refine ⟨?_, by simp, ?_, ?_⟩
      · simpa using hwords
      · simpa [hw] using hcodes
      · intro b hb
        rcases List.mem_cons.mp hb with rfl | hb
        · exact hlead
        · exact hparams b hb
    · rw [blocks, if_neg hw, List.takeWhile_cons_of_pos (by simp [hw])]
      refine ⟨?_, ?_, hcodes, hparams⟩
      · simpa using hwords
      · simpa [hw] using hlead

theorem blocks_append {ws : List Word} (h : ∀ w ∈ ws, w.isCode = false) (vs : List Word) :
    blocks (ws ++ vs) = blocks vs := by
  induction ws with
  | nil => rfl
  | cons w ws ih =>
    rw [List.cons_append, blocks, if_neg (by simp [h w])]
    exact ih fun v hv => h v (by simp [hv])

theorem Grouping.blocks_eq {ws lead : List Word} {bs : List Block} (h : Grouping ws lead bs) :
    blocks ws = bs := by
  obtain ⟨hwords, hlead, hcodes, hparams⟩ := h
  rw [hwords, blocks_append hlead]
  clear hwords
  induction bs with
  | nil => rfl
  | cons b bs ih =>
    have hb := hparams b (by simp)
    have hnext : Text.Stops (fun w : Word => !w.isCode)
        (bs.flatMap fun b => b.code :: b.params) := by
      cases bs with
      | nil => exact Text.stops_nil
      | cons d ds => exact Text.stops_cons (by simp [hcodes d (by simp)]) _
    obtain ⟨htake, -⟩ := Text.run_append (by simpa using hb) hnext
    rw [List.flatMap_cons, List.cons_append, blocks, if_pos (hcodes b (by simp)), htake,
      blocks_append hb]
    rw [ih (fun d hd => hcodes d (by simp [hd])) fun d hd => hparams d (by simp [hd])]

theorem Gives.param?_eq {b : Block} {letter : Char} {v : Option Float}
    (h : Gives b.params letter v) : b.param? letter = v := by
  unfold Block.param?
  cases h with
  | missing h =>
    rw [List.filter_eq_nil_iff.mpr (by simpa using h)]
    rfl
  | @last pre post w hw hl hp =>
    have hpost : post.filter (·.letter == letter) = [] :=
      List.filter_eq_nil_iff.mpr (by simpa using hp)
    rw [hw, List.filter_append, List.filter_cons_of_pos (by simp [hl]), hpost]
    simp

theorem gives_param? (b : Block) (letter : Char) : Gives b.params letter (b.param? letter) := by
  unfold Block.param?
  cases h : (b.params.filter (·.letter == letter)).getLast? with
  | none =>
    rw [List.getLast?_eq_none_iff, List.filter_eq_nil_iff] at h
    exact .missing (by simpa using h)
  | some w =>
    obtain ⟨ys, hys⟩ := List.getLast?_eq_some_iff.mp h
    obtain ⟨pre, rest, hsplit, -, hrest⟩ := List.filter_eq_append_iff.mp hys
    obtain ⟨skipped, post, hpost, -, hw, hnil⟩ := List.filter_eq_cons_iff.mp hrest
    have hwords : b.params = (pre ++ skipped) ++ w :: post := by
      rw [hsplit, hpost, List.append_assoc]
    exact .last hwords (by simpa using hw) (by simpa using List.filter_eq_nil_iff.mp hnil)

theorem gives_iff {b : Block} {letter : Char} {v : Option Float} :
    Gives b.params letter v ↔ b.param? letter = v :=
  ⟨Gives.param?_eq, fun h => h ▸ gives_param? b letter⟩

theorem gives_target_iff {b : Block} {target : Target Float} :
    (∀ i, Gives b.params i.letter (target.get i)) ↔ b.target = target := by
  constructor
  · intro h
    apply PerAxis.get_inj
    intro i
    rw [Block.target, PerAxis.get_ofFn]
    exact (h i).param?_eq
  · rintro rfl i
    rw [Block.target, PerAxis.get_ofFn]
    exact gives_param? b i.letter

open Float.Model in
/-- Numbers that compare as equal are the same, or zeros. -/
theorem eq_of_compare {a b : UnpackedFloat} (h : a.compare b = some .eq) :
    a = b ∨ ∃ s t, a = .zero s ∧ b = .zero t := by
  unfold UnpackedFloat.compare at h
  split at h
  case h_3 s t =>
    left
    cases s <;> cases t <;> first | rfl | cases h
  case h_12 s t => exact Or.inr ⟨s, t, rfl, rfl⟩
  case h_13 m e _ n f _ =>
    simp only [Option.some.injEq, Ordering.swap_eq_eq, Ordering.then_eq_eq,
      Std.LawfulEqOrd.compare_eq_iff_eq] at h
    obtain ⟨rfl, rfl⟩ := h
    exact Or.inl rfl
  case h_16 m e _ n f _ =>
    simp only [Option.some.injEq, Ordering.then_eq_eq,
      Std.LawfulEqOrd.compare_eq_iff_eq] at h
    obtain ⟨rfl, rfl⟩ := h
    exact Or.inl rfl
  all_goals cases h

theorem beq_of_beq {x y z : Float} (hy : (x == y) = true) (hz : (x == z) = true) :
    (y == z) = true := by
  rw [Number.beq_iff_compare] at *
  rcases eq_of_compare hy with he | ⟨s, t, hx, hy⟩
  · rw [← he]
    exact hz
  · rcases eq_of_compare hz with he | ⟨-, u, -, hz⟩
    · rw [hy, ← he, hx]
      rfl
    · rw [hy, hz]
      rfl

theorem Block.hasCode_iff {b : Block} {letter : Char} {number : Float} :
    b.hasCode Float letter number = true ↔ b.HasCode letter number := by
  unfold Block.hasCode Block.HasCode
  rw [Bool.and_eq_true, beq_iff_eq]

theorem Block.HasCode.not_other {b : Block} {letter other : Char} {number value : Float}
    (h : b.HasCode letter number) (hne : (letter == other && number == value) = false) :
    b.hasCode Float other value = false := by
  rw [Bool.eq_false_iff]
  intro ho
  obtain ⟨hl, hv⟩ := Block.hasCode_iff.mp ho
  rw [← h.1, hl, beq_self_eq_true, Bool.true_and, beq_of_beq h.2 hv] at hne
  cases hne

theorem Block.heat?_eq_some_iff {b : Block} {h : HeaterId} {wait : Bool} {c : Command Float} :
    b.heat? h wait = some c ↔
      ∃ celsius, Gives b.params 'S' (some celsius) ∧ .heat h celsius wait = c := by
  unfold Block.heat?
  simp only [gives_iff, Option.map_eq_some_iff]

theorem Means.of_heat? {b : Block} {h : HeaterId} {wait : Bool} {c : Command Float}
    {number : Float} (hh : HeatCode number h wait) (hc : b.hasCode Float 'M' number = true)
    (hs : b.heat? h wait = some c) : Means b c := by
  obtain ⟨celsius, hgives, rfl⟩ := Block.heat?_eq_some_iff.mp hs
  exact .heat hh (Block.hasCode_iff.mp hc) hgives

theorem Means.of_command? {b : Block} {c : Command Float} (h : b.command? = some c) :
    Means b c := by
  unfold Block.command? at h
  split_ifs at h with h1 h92 h28 h104 h109 h140 h190
  · cases h
    exact .move (Block.hasCode_iff.mp h1) (gives_target_iff.mpr rfl) (gives_param? b 'F')
  · cases h
    exact .offset (Block.hasCode_iff.mp h92) (gives_target_iff.mpr rfl)
  · cases h
    exact .home (Block.hasCode_iff.mp h28)
  · exact .of_heat? .nozzle h104 h
  · exact .of_heat? .nozzleWait h109 h
  · exact .of_heat? .plate h140 h
  · exact .of_heat? .plateWait h190 h

theorem Means.command?_eq {b : Block} {c : Command Float} (h : Means b c) :
    b.command? = some c := by
  -- Which code the block has decides every comparison, because no two of the codes are equal.
  cases h with
  | move hc ht hf =>
    rw [Block.command?, if_pos (Block.hasCode_iff.mpr hc), gives_target_iff.mp ht, hf.param?_eq]
  | offset hc ht =>
    simp (disch := decide) only [Block.command?, hc.not_other, Block.hasCode_iff.mpr hc]
    rw [gives_target_iff.mp ht]
    rfl
  | home hc =>
    simp (disch := decide) only [Block.command?, hc.not_other, Block.hasCode_iff.mpr hc]
    rfl
  | @heat _ celsius h wait hh hc hs =>
    have hheat : b.heat? h wait = some (.heat h celsius wait) :=
      Block.heat?_eq_some_iff.mpr ⟨celsius, hs, rfl⟩
    cases hh <;>
    · simp (disch := decide) only [Block.command?, hc.not_other, Block.hasCode_iff.mpr hc]
      exact hheat

theorem Block.command?_eq_some_iff {b : Block} {c : Command Float} :
    b.command? = some c ↔ Means b c :=
  ⟨Means.of_command?, Means.command?_eq⟩

theorem yields_iff {bs : List Block} {cs : List (Command Float)} :
    Yields bs cs ↔ bs.filterMap Block.command? = cs := by
  constructor
  · intro h
    induction h with
    | nil => rfl
    | command h _ ih => rw [List.filterMap_cons_some (Block.command?_eq_some_iff.mpr h), ih]
    | @nothing b bs cs h _ ih =>
      have hb : b.command? = (none : Option (Command Float)) :=
        Option.eq_none_iff_forall_ne_some.mpr fun c hc => h c (Block.command?_eq_some_iff.mp hc)
      rw [List.filterMap_cons_none hb, ih]
  · rintro rfl
    induction bs with
    | nil => exact .nil
    | cons b bs ih =>
      cases hb : (b.command? : Option (Command Float)) with
      | none =>
        rw [List.filterMap_cons_none hb]
        refine .nothing (fun c hc => ?_) ih
        rw [← Block.command?_eq_some_iff, hb] at hc
        cases hc
      | some c =>
        rw [List.filterMap_cons_some hb]
        exact .command (Block.command?_eq_some_iff.mp hb) ih

theorem denotes_iff {ws : List Word} {cs : List (Command Float)} :
    Denotes ws cs ↔ (blocks ws).filterMap Block.command? = cs := by
  constructor
  · rintro ⟨lead, bs, hg, hy⟩
    rw [hg.blocks_eq]
    exact yields_iff.mp hy
  · intro h
    exact ⟨_, _, grouping_blocks ws, yields_iff.mpr h⟩

/-- A line is read exactly where it is in the grammar, and then as the commands it means. -/
theorem parseLine_iff (line : String) :
    ((parseLine Float line).isSome = true ↔ ∃ ws, Reads line.toList ws) ∧
      ∀ cs, parseLine Float line = some cs ↔ ∃ ws, Reads line.toList ws ∧ Denotes ws cs := by
  simp only [parseLine, Option.isSome_map, Option.isSome_iff_exists, Option.map_eq_some_iff,
    words?_eq_some_iff, denotes_iff, implies_true, and_self]

end Gantry.Gcode
