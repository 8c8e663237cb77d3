import Mathlib
import Gantry.Proofs.Gcode.Meaning

/-!
# Lines that are joined, and lines that are spaced otherwise

A text that is nothing but words with blanks and comments in parentheses between them can be
followed by any other line: the words are those of the first and then those of the second. So lines
that are joined give the commands of both, as long as no semicolon hides the second and no words of
it belong to a code of the first. For the same reason nothing depends on the blanks and comments
around a word, nor on the case of its letter.
-/

namespace Gantry.Gcode

/-- Blanks and comments in parentheses. -/
inductive Gap : List Char → Prop where
  | nil : Gap []
  | blank {c : Char} {s : List Char} (hc : c ∈ [' ', '\t', '\r', '\n']) (h : Gap s) : Gap (c :: s)
  | comment {body s : List Char} (hb : ')' ∉ body) (h : Gap s) : Gap ('(' :: (body ++ ')' :: s))

/-- Text that is nothing but words with gaps before, between and after them. -/
inductive Spells : List Char → List Word → Prop where
  | gap {g : List Char} (h : Gap g) : Spells g []
  | word {g s : List Char} {ws : List Word} {c : Char} {n : Numeral} (hg : Gap g)
      (hc : c.isAlpha = true) (hs : Spells s ws) :
      Spells (g ++ c :: (n.text ++ s)) (⟨c.toUpper, n.literal⟩ :: ws)

/-- What stands outside of comments in parentheses, from inside of one or not. A comment that is
never closed takes the rest. -/
def outside : Bool → List Char → List Char
  | _, [] => []
  | true, c :: s => outside (c != ')') s
  | false, c :: s => if c = '(' then outside true s else c :: outside false s

/-- A word of a line, with the text before it and after it. -/
structure Place (line : List Char) (us vs : List Word) where
  before : List Char
  letter : Char
  numeral : Numeral
  after : List Char
  text : line = before ++ letter :: (numeral.text ++ after)
  isAlpha : letter.isAlpha = true
  spells : Spells before us
  reads : Reads after vs

namespace Place

variable {line : List Char} {us vs : List Word}

def word (p : Place line us vs) : Word :=
  ⟨p.letter.toUpper, p.numeral.literal⟩

def respell (p : Place line us vs) (g : List Char) (c : Char) (h : List Char) : List Char :=
  p.before ++ (g ++ c :: (p.numeral.text ++ (h ++ p.after)))

end Place

/-- A line with gaps around one of its words, and the letter of the word in either case. -/
inductive Respelled (line : List Char) : List Char → Prop where
  | intro {us vs : List Word} (p : Place line us vs) {g h : List Char} {c : Char}
      (hg : Gap g) (hh : Gap h) (hc : c ∈ [p.letter.toLower, p.letter.toUpper]) :
      Respelled line (p.respell g c h)

theorem Gap.filler {g r t : List Char} (hg : Gap g) (h : Filler r t) : Filler (g ++ r) t := by
  induction hg with
  | nil => exact h
  | blank hc _ ih => exact .blank hc ih
  | @comment body s hb _ ih =>
    rw [List.cons_append, List.append_assoc]
    exact .parentheses hb ih

theorem Filler.cases_gap {s r : List Char} (h : Filler s r) :
    (∃ g, Gap g ∧ s = g ++ r) ∨ (r = [] ∧ ∃ g t, Gap g ∧ s = g ++ ';' :: t) := by
  induction h with
  | nil s => exact Or.inl ⟨[], .nil, rfl⟩
  | @blank c s r hc _ ih =>
    rcases ih with ⟨g, hg, rfl⟩ | ⟨rfl, g, t, hg, rfl⟩
    · exact Or.inl ⟨c :: g, .blank hc hg, rfl⟩
    · exact Or.inr ⟨rfl, c :: g, t, .blank hc hg, rfl⟩
  | @parentheses body s r hb _ ih =>
    rcases ih with ⟨g, hg, rfl⟩ | ⟨rfl, g, t, hg, rfl⟩
    · exact Or.inl ⟨_, .comment hb hg, by simp⟩
    · exact Or.inr ⟨rfl, _, t, .comment hb hg, by simp⟩
  | semicolon s => exact Or.inr ⟨rfl, [], s, .nil, rfl⟩

theorem outside_comment {body : List Char} (hb : ')' ∉ body) (s : List Char) :
    outside true (body ++ ')' :: s) = outside false s := by
  induction body with
  | nil => rfl
  | cons c body ih =>
    rw [List.mem_cons, not_or] at hb
    have hc : (c != ')') = true := bne_iff_ne.mpr (Ne.symm hb.1)
    rw [List.cons_append, outside, hc]
    exact ih hb.2

theorem outside_append_of_gap {g : List Char} (hg : Gap g) {c : Char} (s : List Char)
    (hc : c ∈ outside false s) : c ∈ outside false (g ++ s) := by
  induction hg with
  | nil => exact hc
  | @blank d g hd _ ih =>
    have hne : d ≠ '(' := by
      rintro rfl
      exact absurd hd (by decide)
    rw [List.cons_append, outside, if_neg hne]
    exact List.mem_cons_of_mem d ih
  | @comment body g hb _ ih =>
    rw [List.cons_append, List.append_assoc, List.cons_append, outside, if_pos rfl,
      outside_comment hb]
    exact ih

/-- Outside of comments a text without an opening parenthesis stands as it is. -/
theorem outside_append {a : List Char} (ha : '(' ∉ a) (s : List Char) :
    outside false (a ++ s) = a ++ outside false s := by
  induction a with
  | nil => rfl
  | cons c a ih =>
    rw [List.mem_cons, not_or] at ha
    rw [List.cons_append, outside, if_neg (Ne.symm ha.1), ih ha.2, List.cons_append]

theorem Numeral.parenthesis_notMem (n : Numeral) : '(' ∉ n.text := by
  have hdigit {ds : List Char} (hd : ∀ c ∈ ds, c.isDigit = true) : '(' ∉ ds := fun h =>
    absurd (hd _ h) (by decide)
  have hsign : '(' ∉ signText n.sign := by
    rcases n.sign with _ | _ | _ <;> decide
  have hfraction : '(' ∉ fractionText n.fraction := by
    cases hf : n.fraction with
    | none => exact List.not_mem_nil
    | some ds =>
      rw [fractionText, List.mem_cons, not_or]
      exact ⟨by decide, hdigit (n.fraction_digits ds hf)⟩
  simp only [text, magnitudeText, List.mem_append, not_or]
  exact ⟨hsign, hdigit n.whole_digits, hfraction⟩

theorem outside_word {c : Char} (hc : c.isAlpha = true) (n : Numeral) (s : List Char) :
    outside false (c :: (n.text ++ s)) = c :: (n.text ++ outside false s) := by
  rw [outside, if_neg, outside_append n.parenthesis_notMem]
  rintro rfl
  exact absurd hc (by decide)

theorem Reads.spells {s : List Char} {ws : List Word} (h : Reads s ws)
    (ho : ';' ∉ outside false s) : Spells s ws := by
  induction h with
  | last h =>
    rcases h.cases_gap with ⟨g, hg, rfl⟩ | ⟨-, g, t, hg, rfl⟩
    · rw [List.append_nil]
      exact .gap hg
    · refine absurd (outside_append_of_gap hg _ ?_) ho
      rw [outside, if_neg (by decide)]
      exact List.mem_cons_self
  | @word s r ws c n hc h _ ih =>
    rcases h.cases_gap with ⟨g, hg, rfl⟩ | ⟨hnil, -⟩
    · refine .word hg hc (ih fun hr => ho (outside_append_of_gap hg _ ?_))
      rw [outside_word hc]
      exact List.mem_cons_of_mem c (List.mem_append_right _ hr)
    · cases hnil

theorem Reads.gap {g s : List Char} {ws : List Word} (hg : Gap g) (h : Reads s ws) :
    Reads (g ++ s) ws := by
  cases h with
  | last h => exact .last (hg.filler h)
  | word hc h hr => exact .word hc (hg.filler h) hr

theorem Reads.letter {g s : List Char} {ws : List Word} {c : Char} {n : Numeral} (hg : Gap g)
    (hc : c.isAlpha = true) (h : Reads s ws) :
    Reads (g ++ c :: (n.text ++ s)) (⟨c.toUpper, n.literal⟩ :: ws) :=
  .word hc (hg.filler (.nil _)) h

theorem Spells.reads {s t : List Char} {us vs : List Word} (h : Spells s us) (ht : Reads t vs) :
    Reads (s ++ t) (us ++ vs) := by
  induction h with
  | gap hg => exact ht.gap hg
  | word hg hc _ ih =>
    rw [List.append_assoc, List.cons_append, List.append_assoc]
    exact ih.letter hg hc

theorem Reads.exists_place {line : List Char} {us vs : List Word} {w : Word}
    (h : Reads line (us ++ w :: vs)) : ∃ p : Place line us vs, p.word = w := by
  induction us generalizing line with
  | nil =>
    cases h with
    | @word _ r _ c n hc h hr =>
      rcases h.cases_gap with ⟨g, hg, rfl⟩ | ⟨hnil, -⟩
      · exact ⟨⟨g, c, n, r, rfl, hc, .gap hg, hr⟩, rfl⟩
      · cases hnil
  | cons u us ih =>
    cases h with
    | @word _ r _ c n hc h hr =>
      rcases h.cases_gap with ⟨g, hg, rfl⟩ | ⟨hnil, -⟩
      · obtain ⟨p, hp⟩ := ih hr
        refine ⟨⟨g ++ c :: (n.text ++ p.before), p.letter, p.numeral, p.after, ?_, p.isAlpha,
          .word hg hc p.spells, p.reads⟩, hp⟩
        simp [← p.text]
      · cases hnil

namespace Place

variable {line : List Char} {us vs : List Word}

theorem reads_line (p : Place line us vs) : Reads line (us ++ p.word :: vs) := by
  have h := p.spells.reads (p.reads.letter (n := p.numeral) .nil p.isAlpha)
  rwa [List.nil_append, ← p.text] at h

theorem reads_respell (p : Place line us vs) {g h : List Char} {c : Char} (hg : Gap g)
    (hh : Gap h) (hc : c ∈ [p.letter.toLower, p.letter.toUpper]) :
    Reads (p.respell g c h) (us ++ p.word :: vs) := by
  have hcase : c.toUpper = p.letter.toUpper ∧ c.isAlpha = true := by
    simp only [List.mem_cons, List.not_mem_nil, or_false] at hc
    rcases hc with rfl | rfl <;> simp [p.isAlpha]
  rw [word, ← hcase.1]
  exact p.spells.reads ((p.reads.gap hh).letter hg hcase.2)

end Place

theorem words?_of_respelled {s t : List Char} (h : Respelled s t) : words? t = words? s := by
  obtain ⟨p, hg, hh, hc⟩ := h
  rw [p.reads_line.words?_eq, (p.reads_respell hg hh hc).words?_eq]

theorem words?_of_reach {s t : List Char} (h : Relation.ReflTransGen Respelled s t) :
    words? t = words? s := by
  induction h with
  | refl => rfl
  | tail _ h ih => rw [words?_of_respelled h, ih]

theorem blocks_append_of_isCode (ws : List Word) {vs : List Word}
    (h : ∀ v ∈ vs.head?, v.isCode = true) : blocks (ws ++ vs) = blocks ws ++ blocks vs := by
  have htake (us : List Word) :
      (us ++ vs).takeWhile (fun v => !v.isCode) = us.takeWhile fun v => !v.isCode := by
    induction us with
    | nil =>
      cases vs with
      | nil => rfl
      | cons v vs =>
        rw [List.nil_append, List.takeWhile_cons_of_neg (by simp [h v rfl]), List.takeWhile_nil]
    | cons u us ih => simp only [List.cons_append, List.takeWhile_cons, ih]
  induction ws with
  | nil => rfl
  | cons w ws ih =>
    simp only [List.cons_append, blocks, htake, ih]
    split <;> rfl

variable {α : Type} [Scalar α]

theorem parseLine_eq_some_iff {line : String} {cs : List (Command α)} :
    parseLine α line = some cs ↔
      ∃ ws, Reads line.toList ws ∧ (blocks ws).filterMap Block.command? = cs := by
  simp only [parseLine, Option.map_eq_some_iff, words?_eq_some_iff]

def Numeral.ofDigits (ds : List Char) (hd : ds.all Char.isDigit = true) (hn : ds ≠ []) :
    Numeral where
  sign := none
  whole := ds
  fraction := none
  whole_digits := List.all_eq_true.mp hd
  fraction_digits := nofun
  nonempty := by rwa [Option.getD_none, List.append_nil]

theorem reads_comment : Reads "(;)".toList [] := by
  have hbody : ')' ∉ [';'] := by decide
  exact .last (.parentheses hbody (.nil []))

theorem reads_homing : Reads "g28(;)".toList [⟨'G', ⟨false, 28, 0⟩⟩] :=
  reads_comment.letter (c := 'g') (n := .ofDigits ['2', '8'] rfl nofun) .nil rfl

theorem reads_heating :
    Reads "M104 S200;hot".toList [⟨'M', ⟨false, 104, 0⟩⟩, ⟨'S', ⟨false, 200, 0⟩⟩] := by
  have hend : Reads ";hot".toList [] := .last (.semicolon _)
  have hvalue := hend.letter (c := 'S') (n := .ofDigits ['2', '0', '0'] rfl nofun)
    (.blank (c := ' ') (by decide) .nil) rfl
  exact hvalue.letter (c := 'M') (n := .ofDigits ['1', '0', '4'] rfl nofun) .nil rfl

theorem parseLine_homing : parseLine Float "g28(;)" = some [.home] := by
  have hmeans : Means ⟨⟨'G', ⟨false, 28, 0⟩⟩, []⟩ .home := .home ⟨rfl, by decide⟩
  refine parseLine_eq_some_iff.mpr ⟨_, reads_homing, ?_⟩
  simp only [blocks, Word.isCode, beq_self_eq_true, Bool.true_or, if_true, List.takeWhile_nil,
    List.filterMap_cons_some hmeans.command?_eq, List.filterMap_nil]

theorem parseLine_heating : parseLine Float "M104 S200;hot" =
    some [.heat .nozzle (Literal.value ⟨false, 200, 0⟩) false] := by
  have hwords : [(⟨'S', ⟨false, 200, 0⟩⟩ : Word)] = [] ++ ⟨'S', ⟨false, 200, 0⟩⟩ :: [] := rfl
  have hmeans : Means ⟨⟨'M', ⟨false, 104, 0⟩⟩, [⟨'S', ⟨false, 200, 0⟩⟩]⟩
      (.heat .nozzle (Literal.value ⟨false, 200, 0⟩) false) :=
    .heat .nozzle ⟨rfl, by decide⟩ (.last hwords rfl nofun)
  refine parseLine_eq_some_iff.mpr ⟨_, reads_heating, ?_⟩
  exact List.filterMap_cons_some hmeans.command?_eq

variable (α) in
/-- Lines that are joined give the commands of the one and then those of the other, where the first
ends in no semicolon comment and the other begins with a code. Every word of a line has its place
there, and gaps around words and the case of their letters, however often they change, make no
difference. -/
theorem parseLine_joined_and_respelled :
    (∀ {a b : String} {cs ds : List (Command α)}, parseLine α a = some cs →
      parseLine α b = some ds → ';' ∉ outside false a.toList →
      (∀ w ws, Reads b.toList (w :: ws) → w.isCode = true) →
        parseLine α (a ++ b) = some (cs ++ ds)) ∧
    ∀ {line : String} {cs : List (Command α)}, parseLine α line = some cs →
      (∀ us w vs, Reads line.toList (us ++ w :: vs) →
        ∃ p : Place line.toList us vs, p.word = w) ∧
      ∀ {other : String}, Relation.ReflTransGen Respelled line.toList other.toList →
        parseLine α other = some cs := by
  constructor
  · intro a b cs ds ha hb hopen hcode
    obtain ⟨us, hus, rfl⟩ := parseLine_eq_some_iff.mp ha
    obtain ⟨vs, hvs, rfl⟩ := parseLine_eq_some_iff.mp hb
    have hhead : ∀ v ∈ vs.head?, v.isCode = true := by
      intro v hv
      obtain ⟨ws, rfl⟩ := List.head?_eq_some_iff.mp hv
      exact hcode v ws hvs
    have hjoined : Reads (a ++ b).toList (us ++ vs) := by
      rw [String.toList_append]
      exact (hus.spells hopen).reads hvs
    refine parseLine_eq_some_iff.mpr ⟨us ++ vs, hjoined, ?_⟩
    rw [blocks_append_of_isCode us hhead, List.filterMap_append]
  · intro line cs h
    refine ⟨fun us w vs hr => hr.exists_place, fun {other} hr => ?_⟩
    rw [← h, parseLine, parseLine, words?_of_reach hr]

/-- A code in a small letter, a semicolon inside of a comment, and a line that ends in one. -/
theorem parseLine_joined_homing :
    ';' ∉ outside false "g28(;)".toList ∧
      Relation.ReflTransGen Respelled "g28(;)".toList " G28\t(;)".toList ∧
      parseLine Float ("g28(;)" ++ "M104 S200;hot") =
        some [.home, .heat .nozzle (Literal.value ⟨false, 200, 0⟩) false] ∧
      parseLine Float " G28\t(;)" = some [.home] := by
  have hopen : ';' ∉ outside false "g28(;)".toList := by decide
  have hcode : ∀ w ws, Reads "M104 S200;hot".toList (w :: ws) → w.isCode = true := by
    intro w ws h
    have hwords := reads_heating.words?_eq
    rw [h.words?_eq] at hwords
    cases hwords
    rfl
  let place : Place "g28(;)".toList [] [] :=
    { before := []
      letter := 'g'
      numeral := .ofDigits ['2', '8'] rfl nofun
      after := "(;)".toList
      text := rfl
      isAlpha := rfl
      spells := .gap .nil
      reads := reads_comment }
  have hrespelled : Respelled "g28(;)".toList " G28\t(;)".toList :=
    .intro place (g := [' ']) (h := ['\t']) (c := 'G') (.blank (by decide) .nil)
      (.blank (by decide) .nil) (by decide)
  exact ⟨hopen, .single hrespelled,
    (parseLine_joined_and_respelled Float).1 parseLine_homing parseLine_heating hopen hcode,
    ((parseLine_joined_and_respelled Float).2 parseLine_homing).2 (.single hrespelled)⟩

end Gantry.Gcode
