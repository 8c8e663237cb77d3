import Mathlib
import Gantry.Gcode.Word
import Gantry.Proofs.Text.Run

/-!
# The grammar of a line

A line is made of words with filler before, between and after them. Filler is any sequence of
blanks, of comments in parentheses and of a comment that takes the rest of the line; a word is an
ASCII letter and a number right after it. The reader of words accepts the texts of this grammar, no
others, and gives the words of which they are made.

Nothing here says what words mean.
-/

namespace Gantry.Gcode

/-- A number as it is written: a sign or none, and digits with at most one point among them. -/
structure Numeral where
  /-- Whether the number is negative, where it has a sign. -/
  sign : Option Bool
  whole : List Char
  /-- The digits after the point, where there is one. -/
  fraction : Option (List Char)
  whole_digits : ∀ c ∈ whole, c.isDigit = true
  fraction_digits : ∀ ds, fraction = some ds → ∀ c ∈ ds, c.isDigit = true
  nonempty : whole ++ fraction.getD [] ≠ []

namespace Numeral

def signText : Option Bool → List Char
  | none => []
  | some false => ['+']
  | some true => ['-']

def fractionText : Option (List Char) → List Char
  | none => []
  | some ds => '.' :: ds

def magnitudeText (n : Numeral) : List Char :=
  n.whole ++ fractionText n.fraction

def text (n : Numeral) : List Char :=
  signText n.sign ++ n.magnitudeText

def decimal (ds : List Char) : ℕ :=
  Nat.ofDigits 10 (ds.map fun c => c.toNat - '0'.toNat).reverse

def literal (n : Numeral) : Literal where
  negative := n.sign.getD false
  mantissa := decimal (n.whole ++ n.fraction.getD [])
  places := (n.fraction.getD []).length

end Numeral

/-- Filler at the head of a text, and what follows it. -/
inductive Filler : List Char → List Char → Prop where
  | nil (s : List Char) : Filler s s
  | blank {c : Char} {s r : List Char} (hc : c ∈ [' ', '\t', '\r', '\n']) (h : Filler s r) :
      Filler (c :: s) r
  /-- A comment that ends at the first closing parenthesis. -/
  | parentheses {body s r : List Char} (hb : ')' ∉ body) (h : Filler s r) :
      Filler ('(' :: (body ++ ')' :: s)) r
  /-- A comment that takes the rest. -/
  | semicolon (s : List Char) : Filler (';' :: s) []

/-- A text that is nothing but words with filler before, between and after them. -/
inductive Reads : List Char → List Word → Prop where
  | last {s : List Char} (h : Filler s []) : Reads s []
  | word {s r : List Char} {ws : List Word} {c : Char} {n : Numeral} (hc : c.isAlpha = true)
      (h : Filler s (c :: (n.text ++ r))) (hr : Reads r ws) :
      Reads s (⟨c.toUpper, n.literal⟩ :: ws)

theorem natValue_eq_decimal (ds : List Char) : natValue ds = Numeral.decimal ds := by
  unfold natValue Numeral.decimal
  rw [Nat.ofDigits_eq_foldr, List.foldr_reverse, List.foldl_map]
  congr 1
  funext n c
  simp only [Nat.cast_id]
  omega

theorem all_takeWhile_digit (s : List Char) : ∀ c ∈ s.takeWhile Char.isDigit, c.isDigit = true :=
  fun _ hc => List.mem_takeWhile_imp hc

/-- A character that no number goes on with. -/
def EndsNumber (s : List Char) : Prop :=
  ∀ c r, s = c :: r → c.isDigit = false ∧ c ≠ '.'

theorem unsigned?_magnitudeText (n : Numeral) {r : List Char} (hr : EndsNumber r)
    (negative : Bool) : unsigned? negative (n.magnitudeText ++ r) =
      some ({ n.literal with negative := negative }, r) := by
  obtain ⟨sign, whole, fraction, hw, hf, hn⟩ := n
  have hdot : ('.').isDigit = false := by decide
  unfold unsigned? Numeral.magnitudeText Numeral.literal
  simp only [← natValue_eq_decimal, List.append_assoc]
  cases fraction with
  | none =>
    obtain ⟨htake, hdrop⟩ := Text.run_append hw fun c t h => (hr c t h).1
    simp only [Option.getD_none, List.append_nil] at hn
    simp only [Numeral.fractionText, List.nil_append, htake, hdrop, Option.getD_none,
      List.append_nil]
    split
    · exact absurd rfl (hr _ _ rfl).2
    · rw [if_neg hn]
      rfl
  | some ds =>
    obtain ⟨htake, hdrop⟩ := Text.run_append hw (Text.stops_cons hdot (ds ++ r))
    obtain ⟨htake', hdrop'⟩ := Text.run_append (hf ds rfl) fun c t h => (hr c t h).1
    simp only [Option.getD_some] at hn
    simp only [Numeral.fractionText, List.cons_append, htake, hdrop, htake', hdrop',
      Option.getD_some, if_neg hn]

theorem Numeral.magnitudeText_head (n : Numeral) :
    ∃ c t, n.magnitudeText = c :: t ∧ c ≠ '+' ∧ c ≠ '-' := by
  obtain ⟨sign, whole, fraction, hw, hf, hn⟩ := n
  cases whole with
  | cons c t =>
    have hc := hw c (by simp)
    refine ⟨c, _, rfl, ?_, ?_⟩
    · rintro rfl
      exact absurd hc (by decide)
    · rintro rfl
      exact absurd hc (by decide)
  | nil =>
    cases fraction with
    | none => exact absurd rfl hn
    | some ds => exact ⟨'.', ds, rfl, by decide, by decide⟩

theorem number?_of_no_sign {c : Char} {s : List Char} (hp : c ≠ '+') (hm : c ≠ '-') :
    number? (c :: s) = unsigned? false (c :: s) := by
  unfold number?
  split
  · rename_i h
    cases h
    exact absurd rfl hp
  · rename_i h
    cases h
    exact absurd rfl hm
  · rfl

theorem number?_text (n : Numeral) {r : List Char} (hr : EndsNumber r) :
    number? (n.text ++ r) = some (n.literal, r) := by
  have h := unsigned?_magnitudeText n hr
  unfold Numeral.text Numeral.literal at *
  cases hs : n.sign with
  | some negative =>
    cases negative with
    | false => exact h false
    | true => exact h true
  | none =>
    obtain ⟨c, t, htext, hp, hm⟩ := n.magnitudeText_head
    specialize h false
    simp only [Numeral.signText, List.nil_append, htext, List.cons_append] at h ⊢
    rw [number?_of_no_sign hp hm]
    exact h

theorem unsigned?_sound {negative : Bool} {s r : List Char} {l : Literal}
    (h : unsigned? negative s = some (l, r)) :
    ∃ n : Numeral, s = n.magnitudeText ++ r ∧ l = { n.literal with negative := negative } := by
  have hsplit := List.takeWhile_append_dropWhile (p := Char.isDigit) (l := s)
  unfold unsigned? at h
  simp only [natValue_eq_decimal] at h
  split at h
  · rename_i t ht
    split at h
    · cases h
    · rename_i hne
      cases h
      refine ⟨⟨none, s.takeWhile Char.isDigit, some (t.takeWhile Char.isDigit),
        all_takeWhile_digit s, ?_, hne⟩, ?_, rfl⟩
      · intro ds hds
        cases hds
        exact all_takeWhile_digit t
      · simp only [Numeral.magnitudeText, Numeral.fractionText, List.append_assoc,
          List.cons_append, List.takeWhile_append_dropWhile]
        rw [← ht, hsplit]
  · split at h
    · cases h
    · rename_i hne
      cases h
      refine ⟨⟨none, s.takeWhile Char.isDigit, none, all_takeWhile_digit s, nofun, ?_⟩, ?_, ?_⟩
      · rwa [Option.getD_none, List.append_nil]
      · simp [Numeral.magnitudeText, Numeral.fractionText]
      · simp [Numeral.literal]

theorem number?_sound {s r : List Char} {l : Literal} (h : number? s = some (l, r)) :
    ∃ n : Numeral, s = n.text ++ r ∧ l = n.literal := by
  have hsign {t : List Char} (sign : Option Bool) (hs : s = Numeral.signText sign ++ t)
      (ht : unsigned? (sign.getD false) t = some (l, r)) :
      ∃ n : Numeral, s = n.text ++ r ∧ l = n.literal := by
    obtain ⟨n, rfl, rfl⟩ := unsigned?_sound ht
    refine ⟨{ n with sign := sign }, ?_, rfl⟩
    rw [hs]
    exact (List.append_assoc _ _ _).symm
  unfold number? at h
  split at h
  · exact hsign (some false) rfl h
  · exact hsign (some true) rfl h
  · exact hsign none rfl h

theorem isBlank_iff {c : Char} : isBlank c = true ↔ c ∈ [' ', '\t', '\r', '\n'] := by
  simp [isBlank, or_assoc]

theorem closeComment?_eq {body r : List Char} (hb : ')' ∉ body) :
    closeComment? (body ++ ')' :: r) = some r := by
  unfold closeComment?
  rw [List.dropWhile_append_of_pos]
  · simp
  · intro c hc
    simp only [bne_iff_ne, ne_eq]
    rintro rfl
    exact hb hc

theorem closeComment?_sound {s r : List Char} (h : closeComment? s = some r) :
    ∃ body, ')' ∉ body ∧ s = body ++ ')' :: r := by
  have hsplit := List.takeWhile_append_dropWhile (p := (· != ')')) (l := s)
  unfold closeComment? at h
  cases hd : s.dropWhile (· != ')') with
  | nil => simp [hd] at h
  | cons c t =>
    have hc : c = ')' := by
      have := List.head?_dropWhile_not (· != ')') s
      rw [hd] at this
      simpa using this
    rw [hd] at h
    cases h
    refine ⟨s.takeWhile (· != ')'), ?_, ?_⟩
    · intro hmem
      simpa using List.mem_takeWhile_imp hmem
    · rwa [hd, hc, eq_comm] at hsplit

theorem filler_skipFiller (s : List Char) : Filler s (skipFiller s) := by
  fun_induction skipFiller s with
  | case1 => exact .nil []
  | case2 c r hc ih => exact .blank (isBlank_iff.mp hc) ih
  | case3 r => exact .semicolon r
  | case4 r t h _ _ ih =>
    obtain ⟨body, hb, rfl⟩ := closeComment?_sound h
    exact .parentheses hb ih
  | case5 => exact .nil _
  | case6 => exact .nil _

theorem Filler.skipFiller_eq {s r : List Char} (h : Filler s r) : skipFiller s = skipFiller r := by
  induction h with
  | nil s => rfl
  | blank hc _ ih =>
    rw [skipFiller, if_pos (isBlank_iff.mpr hc), ih]
  | @parentheses body s r hb _ ih =>
    have hblank : ¬ isBlank '(' = true := by decide
    have hsemicolon : '(' ≠ ';' := by decide
    rw [skipFiller, if_neg hblank, if_neg hsemicolon, if_pos rfl]
    split
    · rename_i t ht
      rw [closeComment?_eq hb] at ht
      cases ht
      exact ih
    · rename_i ht
      rw [closeComment?_eq hb] at ht
      cases ht
  | semicolon s =>
    have hb : ¬ isBlank ';' = true := by decide
    have hend : skipFiller [] = [] := by rw [skipFiller]
    rw [hend, skipFiller, if_neg hb, if_pos rfl]

theorem skipFiller_letter {c : Char} {s : List Char} (hc : c.isAlpha = true) :
    skipFiller (c :: s) = c :: s := by
  have hb : ¬ isBlank c = true := by
    rw [isBlank_iff]
    intro h
    simp only [List.mem_cons, List.not_mem_nil, or_false] at h
    rcases h with rfl | rfl | rfl | rfl <;> exact absurd hc (by decide)
  have hs : c ≠ ';' := by
    rintro rfl
    exact absurd hc (by decide)
  have hp : c ≠ '(' := by
    rintro rfl
    exact absurd hc (by decide)
  rw [skipFiller, if_neg hb, if_neg hs, if_neg hp]

theorem Filler.endsNumber {s r : List Char} (h : Filler s r) (hr : EndsNumber r) :
    EndsNumber s := by
  cases h with
  | nil => exact hr
  | blank hc _ =>
    rintro c t ⟨⟩
    simp only [List.mem_cons, List.not_mem_nil, or_false] at hc
    rcases hc with rfl | rfl | rfl | rfl <;> decide
  | parentheses _ _ =>
    rintro c t ⟨⟩
    decide
  | semicolon _ =>
    rintro c t ⟨⟩
    decide

theorem endsNumber_letter {c : Char} {s : List Char} (hc : c.isAlpha = true) :
    EndsNumber (c :: s) := by
  rintro d t ⟨⟩
  constructor
  · rw [Bool.eq_false_iff]
    intro hd
    simp only [Char.isAlpha, Char.isUpper, Char.isLower, Char.isDigit, Bool.or_eq_true,
      Bool.and_eq_true, decide_eq_true_eq, UInt32.le_iff_toNat_le, ge_iff_le] at hc hd
    simp at hc hd
    omega
  · rintro rfl
    exact absurd hc (by decide)

theorem Reads.endsNumber {s : List Char} {ws : List Word} (h : Reads s ws) : EndsNumber s := by
  cases h with
  | last h => exact h.endsNumber nofun
  | word hc h _ => exact h.endsNumber (endsNumber_letter hc)

theorem words?_of_nil {s : List Char} (h : skipFiller s = []) : words? s = some [] := by
  rw [words?]
  split
  · rfl
  · rename_i hs
    rw [h] at hs
    cases hs

theorem words?_of_number {s r t : List Char} {c : Char} {l : Literal}
    (h : skipFiller s = c :: r) (hc : c.isAlpha = true) (hn : number? r = some (l, t)) :
    words? s = (words? t).map (⟨c.toUpper, l⟩ :: ·) := by
  rw [words?]
  split
  · rename_i hs
    rw [h] at hs
    cases hs
  · rename_i hs
    rw [h] at hs
    cases hs
    rw [if_pos hc]
    split
    · rename_i hl
      rw [hn] at hl
      cases hl
      rfl
    · rename_i hl
      rw [hn] at hl
      cases hl

theorem reads_of_words? {s : List Char} {ws : List Word} (h : words? s = some ws) :
    Reads s ws := by
  -- By the recursion of the reader: every call that it makes skips filler and reads one word.
  fun_induction words? s generalizing ws with
  | case1 s hs =>
    cases h
    exact .last (hs ▸ filler_skipFiller s)
  | case2 s c r hs hc l t hn ih =>
    obtain ⟨vs, hvs, rfl⟩ := Option.map_eq_some_iff.mp h
    obtain ⟨n, rfl, rfl⟩ := number?_sound hn
    exact .word hc (hs ▸ filler_skipFiller s) (ih hvs)
  | case3 => cases h
  | case4 => cases h

theorem Reads.words?_eq {s : List Char} {ws : List Word} (h : Reads s ws) :
    words? s = some ws := by
  induction h with
  | last h =>
    apply words?_of_nil
    rw [h.skipFiller_eq, skipFiller]
  | word hc h hr ih =>
    -- The number is read to its end because the rest, being words and filler, ends it.
    rw [words?_of_number (h.skipFiller_eq.trans (skipFiller_letter hc)) hc
      (number?_text _ hr.endsNumber), ih]
    rfl

/-- The reader of words gives what the grammar says. -/
theorem words?_eq_some_iff {s : List Char} {ws : List Word} : words? s = some ws ↔ Reads s ws :=
  ⟨reads_of_words?, Reads.words?_eq⟩

end Gantry.Gcode
