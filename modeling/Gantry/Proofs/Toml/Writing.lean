import Mathlib
import Gantry.Toml.Document
import Gantry.Proofs.Text.Run
import Gantry.Proofs.Toml.Numeral

/-!
# Lines of a document

A document of numbers is written line by line: headers in brackets, entries with a bare name and a
number, and blank lines between. Its lines are read as the statements that they were made from.

This does NOT cover strings, arrays, tables in braces or comments.
-/

namespace Gantry.Toml

open Number
open Text (Stops ne_of_kind)

variable {name : String} {parts : List String} {rest : List Char} {x : Float} {k : Key}

/-- A name that needs no quotes. -/
structure Bare (name : String) : Prop where
  nonempty : name.toList ≠ []
  chars : ∀ c ∈ name.toList, isKeyChar c = true

instance (name : String) : Decidable (Bare name) :=
  decidable_of_iff (name.toList ≠ [] ∧ name.toList.all isKeyChar = true)
    ⟨fun h => ⟨h.1, List.all_eq_true.mp h.2⟩, fun h => ⟨h.nonempty, List.all_eq_true.mpr h.chars⟩⟩

theorem Bare.exists_cons (h : Bare name) : ∃ c r, name.toList = c :: r ∧ isKeyChar c = true := by
  cases hname : name.toList with
  | nil => exact absurd hname h.nonempty
  | cons c r => exact ⟨c, r, rfl, h.chars c (hname ▸ List.mem_cons_self)⟩

theorem skipBlanks_of_not_isSpace {c : Char} (hc : isSpace c = false) (r : List Char) :
    skipBlanks (c :: r) = c :: r :=
  List.dropWhile_cons_of_neg (by rw [hc]; decide)

theorem isSpace_of_kind {p : Char → Bool} {c : Char} (hc : p c = true) (hblank : p ' ' = false)
    (htab : p '\t' = false) : isSpace c = false := by
  simp [isSpace, ne_of_kind hc hblank, ne_of_kind hc htab]

theorem keyPart?_append (h : Bare name) (hr : Stops isKeyChar rest) :
    keyPart? (name.toList ++ rest) = some (name, rest) := by
  obtain ⟨c, r, hname, hc⟩ := h.exists_cons
  have hstring : lineString? (name.toList ++ rest) = none := by
    rw [hname, List.cons_append]
    unfold lineString?
    split
    · rename_i heq
      exact absurd (List.cons.inj heq).1 (ne_of_kind hc (by decide))
    · rename_i heq
      exact absurd (List.cons.inj heq).1 (ne_of_kind hc (by decide))
    · rfl
  obtain ⟨htake, hdrop⟩ := Text.run_append h.chars hr
  unfold keyPart?
  rw [hstring, htake, hdrop]
  simp only [hname]
  rw [← hname, String.ofList_toList]

def dotted : List String → List Char
  | [] => []
  | [part] => part.toList
  | part :: parts => part.toList ++ '.' :: dotted parts

theorem dotted_cons (part : String) (hne : parts ≠ []) :
    dotted (part :: parts) = part.toList ++ '.' :: dotted parts := by
  cases parts with
  | nil => exact absurd rfl hne
  | cons _ _ => rfl

theorem exists_cons_dotted (hne : parts ≠ []) (h : ∀ part ∈ parts, Bare part) :
    ∃ c r, dotted parts = c :: r ∧ isKeyChar c = true := by
  cases parts with
  | nil => exact absurd rfl hne
  | cons part parts =>
    obtain ⟨c, r, hpart, hc⟩ := (h part List.mem_cons_self).exists_cons
    cases parts with
    | nil => exact ⟨c, r, hpart, hc⟩
    | cons _ _ => exact ⟨c, _, by rw [dotted_cons part (List.cons_ne_nil _ _), hpart]; rfl, hc⟩

theorem length_le_dotted (h : ∀ part ∈ parts, Bare part) :
    parts.length ≤ (dotted parts).length := by
  induction parts with
  | nil => exact Nat.zero_le _
  | cons part parts ih =>
    have hpart := List.length_pos_iff.mpr (h part List.mem_cons_self).nonempty
    have hrest := ih fun p hp => h p (List.mem_cons_of_mem _ hp)
    cases parts with
    | nil => exact hpart
    | cons _ _ =>
      rw [dotted_cons part (List.cons_ne_nil _ _), List.length_cons, List.length_append]
      exact (Nat.add_le_add hrest hpart).trans (by rw [List.length_cons]; omega)

theorem keyParts?_append {n : ℕ} (hn : parts.length ≤ n) (hne : parts ≠ [])
    (h : ∀ part ∈ parts, Bare part) (hr : Stops isKeyChar rest)
    (hdot : (skipBlanks rest).head? ≠ some '.') :
    keyParts? n (dotted parts ++ rest) = some (parts, skipBlanks rest) := by
  induction parts generalizing n with
  | nil => exact absurd rfl hne
  | cons part parts ih =>
    have hpart := h part List.mem_cons_self
    obtain ⟨c, r, hname, hc⟩ := hpart.exists_cons
    have hblank (t : List Char) : skipBlanks (part.toList ++ t) = part.toList ++ t := by
      rw [hname]
      exact skipBlanks_of_not_isSpace (isSpace_of_kind hc (by decide) (by decide)) _
    obtain ⟨n, rfl⟩ : ∃ m, n = m + 1 := ⟨n - 1, by rw [List.length_cons] at hn; omega⟩
    cases parts with
    | nil =>
      show keyParts? (n + 1) (part.toList ++ rest) = _
      rw [keyParts?, hblank, keyPart?_append hpart hr]
      simp only [bind, Option.bind]
      split
      · rename_i heq
        exact absurd (congrArg List.head? heq) hdot
      · rfl
    | cons next parts =>
      have hpoint : Stops isKeyChar ('.' :: (dotted (next :: parts) ++ rest)) :=
        Text.stops_cons (by decide) _
      have hread := ih (n := n) (by rw [List.length_cons] at hn; omega) (List.cons_ne_nil _ _)
        (fun p hp => h p (List.mem_cons_of_mem _ hp))
      rw [dotted_cons part (List.cons_ne_nil _ _), List.append_assoc, List.cons_append, keyParts?,
        hblank, keyPart?_append hpart hpoint]
      simp only [bind, Option.bind]
      rw [skipBlanks_of_not_isSpace (by decide)]
      simp only
      rw [hread]
      rfl

theorem key?_append (h : ∀ part ∈ k.path ++ [k.last], Bare part) (hr : Stops isKeyChar rest)
    (hdot : (skipBlanks rest).head? ≠ some '.') :
    key? (dotted (k.path ++ [k.last]) ++ rest) = some (k, skipBlanks rest) := by
  have hlength := length_le_dotted h
  unfold key?
  rw [keyParts?_append (hlength.trans (by rw [List.length_append]; omega)) (by simp) h hr hdot]
  simp only [bind, Option.bind, List.getLast?_concat, List.dropLast_concat]
  rfl

theorem numeral_chars (x : Float) : ∀ c ∈ numeral x, isScalarChar c = true := by
  intro c hc
  have hpointed := pointed_positional (shortest (Dyadic.ofFloat x) .up)
  rcases List.mem_append.mp hc with hc | hc
  · split at hc
    · rw [List.mem_singleton.mp hc]
      decide
    · cases hc
  · rcases hpointed.mem hc with hc | rfl
    · simp [isScalarChar, Char.isAlphanum, hc]
    · decide

theorem numeral_ne_nil (x : Float) : numeral x ≠ [] :=
  List.append_ne_nil_of_right_ne_nil _
    (List.append_ne_nil_of_right_ne_nil _ (List.cons_ne_nil _ _))

theorem value?_numeral (h : x.isFinite = true) (n depth : ℕ) (rest : List Char) :
    value? (n + 1) depth (numeral x ++ '\n' :: rest) =
      some (.float (some x), '\n' :: rest) := by
  obtain ⟨htake, hdrop⟩ := Text.run_append (numeral_chars x)
    (Text.stops_cons (p := isScalarChar) (c := '\n') (by decide) rest)
  have hspan : scalarSpan (numeral x ++ '\n' :: rest) = (numeral x, '\n' :: rest) := by
    unfold scalarSpan
    simp only [htake, hdrop]
    rfl
  have hchars := numeral_chars x
  have hread := scalar?_numeral h
  cases htext : numeral x with
  | nil => exact absurd htext (numeral_ne_nil x)
  | cons c r =>
    have hc : isScalarChar c = true := hchars c (htext ▸ List.mem_cons_self)
    rw [htext] at hspan hread
    rw [List.cons_append] at hspan ⊢
    unfold value?
    split
    · exact absurd (List.cons.inj ‹_›).1 (ne_of_kind hc (by decide))
    · exact absurd (List.cons.inj ‹_›).1 (ne_of_kind hc (by decide))
    · exact absurd (List.cons.inj ‹_›).1 (ne_of_kind hc (by decide))
    · exact absurd (List.cons.inj ‹_›).1 (ne_of_kind hc (by decide))
    · rw [hspan]
      simp only [bind, Option.bind, hread]
      rfl

inductive Line where
  | blank
  | header (key : Key)
  | entry (name : String) (x : Float)

namespace Line

def text : Line → List Char
  | blank => ['\n']
  | header k => '[' :: (dotted (k.path ++ [k.last]) ++ [']', '\n'])
  | entry name x => name.toList ++ ' ' :: '=' :: ' ' :: (numeral x ++ ['\n'])

def statement? : Line → Option Statement
  | blank => none
  | header k => some (.header k)
  | entry name x => some (.entry ⟨[], name⟩ (.float (some x)))

/-- Names are bare, and numbers are finite. -/
inductive WellFormed : Line → Prop where
  | blank : WellFormed blank
  | header {k : Key} (h : ∀ part ∈ k.path ++ [k.last], Bare part) : WellFormed (header k)
  | entry {name : String} {x : Float} (hname : Bare name) (hx : x.isFinite = true) :
      WellFormed (entry name x)

end Line

theorem statement?_header (h : ∀ part ∈ k.path ++ [k.last], Bare part) (rest : List Char) :
    Toml.statement? ('[' :: (dotted (k.path ++ [k.last]) ++ ']' :: rest)) =
      some (.header k, rest) := by
  have hread := key?_append h (Text.stops_cons (c := ']') (by decide) rest) (by
    show some ']' ≠ some '.'
    decide)
  rw [skipBlanks_of_not_isSpace (by decide)] at hread
  obtain ⟨c, r, hdotted, hc⟩ := exists_cons_dotted (by simp) h
  have htail : headerTail? (dotted (k.path ++ [k.last]) ++ ']' :: rest) = some (k, rest) := by
    unfold headerTail?
    rw [hread]
    rfl
  rw [hdotted, List.cons_append] at htail ⊢
  unfold Toml.statement?
  split
  · rename_i heq
    obtain ⟨hbracket, -⟩ := List.cons.inj (List.cons.inj heq).2
    exact absurd hbracket (ne_of_kind hc (by decide))
  · rename_i heq
    rw [← (List.cons.inj heq).2, htail]
    rfl
  · rename_i hno
    exact absurd rfl (hno _)

theorem statement?_entry (hname : Bare name) (hx : x.isFinite = true) (rest : List Char) :
    Toml.statement? (name.toList ++ ' ' :: '=' :: ' ' :: (numeral x ++ '\n' :: rest)) =
      some (.entry ⟨[], name⟩ (.float (some x)), '\n' :: rest) := by
  have hread := key?_append (k := ⟨[], name⟩) (by simpa using hname)
    (Text.stops_cons (c := ' ') (by decide) ('=' :: ' ' :: (numeral x ++ '\n' :: rest))) (by
      show some '=' ≠ some '.'
      decide)
  obtain ⟨c, r, hcons, hc⟩ := hname.exists_cons
  have hkey : key? (name.toList ++ ' ' :: '=' :: ' ' :: (numeral x ++ '\n' :: rest)) =
      some (⟨[], name⟩, '=' :: ' ' :: (numeral x ++ '\n' :: rest)) := hread
  have hblank : skipBlanks (' ' :: (numeral x ++ '\n' :: rest)) = numeral x ++ '\n' :: rest := by
    cases htext : numeral x with
    | nil => exact absurd htext (numeral_ne_nil x)
    | cons d t =>
      have hd := numeral_chars x d (htext ▸ List.mem_cons_self)
      exact skipBlanks_of_not_isSpace (isSpace_of_kind hd (by decide) (by decide)) _
  rw [hcons, List.cons_append] at hkey ⊢
  unfold Toml.statement?
  split
  · exact absurd (List.cons.inj ‹_›).1 (ne_of_kind hc (by decide))
  · exact absurd (List.cons.inj ‹_›).1 (ne_of_kind hc (by decide))
  · simp only [bind, Option.bind, hkey]
    rw [hblank, value?_numeral hx]
    rfl

variable {lines : List Line}

def textOf (lines : List Line) : List Char :=
  lines.flatMap Line.text

def opens (c : Char) : Bool :=
  c == '[' || isKeyChar c

/-- A line that is a statement, and how it is read. -/
structure Line.Yields (l : Line) (st : Statement) : Prop where
  statement : l.statement? = some st
  opens : ∃ c r, l.text = c :: r ∧ opens c = true
  read : ∀ rest, Toml.statement? (l.text ++ rest) = some (st, '\n' :: rest)

theorem Line.WellFormed.blank_or_yields {l : Line} (h : l.WellFormed) :
    l = .blank ∨ ∃ st, l.Yields st := by
  cases h with
  | blank => exact Or.inl rfl
  | @header k hparts =>
    refine Or.inr ⟨.header k, rfl, ⟨'[', _, rfl, rfl⟩, fun rest => ?_⟩
    show Toml.statement? ('[' :: (dotted (k.path ++ [k.last]) ++ [']', '\n'] ++ rest)) = _
    rw [List.append_assoc]
    exact statement?_header hparts ('\n' :: rest)
  | @entry name x hname hx =>
    refine Or.inr ⟨_, rfl, ?_, fun rest => ?_⟩
    · obtain ⟨c, r, hcons, hc⟩ := hname.exists_cons
      refine ⟨c, _, congrArg (· ++ _) hcons, ?_⟩
      rw [Toml.opens, hc, Bool.or_true]
    · show Toml.statement? ((name.toList ++ ' ' :: '=' :: ' ' :: (numeral x ++ ['\n'])) ++ rest) = _
      simp only [List.append_assoc, List.cons_append, List.nil_append]
      exact statement?_entry hname hx rest

theorem skipSpace_of_opens {c : Char} (hc : opens c = true) (r : List Char) :
    skipSpace (c :: r) = c :: r := by
  have hspace : (isSpace c || c == '\n') = false := by
    simp [isSpace_of_kind hc (by decide) (by decide), ne_of_kind (d := '\n') hc (by decide)]
  unfold skipSpace
  split
  · rename_i heq
    cases heq
  · rename_i heq
    exact absurd (List.cons.inj heq).1 (ne_of_kind hc (by decide))
  · rename_i heq
    obtain ⟨rfl, rfl⟩ := List.cons.inj heq
    rw [hspace, if_neg (by decide)]

/-- What is left of a document after its blank lines at the head. -/
def dropBlanks : List Line → List Line
  | .blank :: lines => dropBlanks lines
  | lines => lines

theorem Line.Yields.dropBlanks_cons {l : Line} {st : Statement} (h : l.Yields st)
    (lines : List Line) : dropBlanks (l :: lines) = l :: lines := by
  cases l with
  | blank => cases h.statement
  | header _ => rfl
  | entry _ _ => rfl

theorem skipSpace_textOf (h : ∀ l ∈ lines, l.WellFormed) :
    skipSpace (textOf lines) = textOf (dropBlanks lines) ∧
      (textOf (dropBlanks lines)).head? ≠ some '#' := by
  induction lines with
  | nil => exact ⟨rfl, nofun⟩
  | cons l lines ih =>
    rcases (h l List.mem_cons_self).blank_or_yields with rfl | ⟨st, hst⟩
    · exact ih fun l hl => h l (List.mem_cons_of_mem _ hl)
    · obtain ⟨c, r, hl, hc⟩ := hst.opens
      have htext : textOf (l :: lines) = c :: (r ++ textOf lines) := congrArg (· ++ _) hl
      rw [hst.dropBlanks_cons, htext, skipSpace_of_opens hc]
      exact ⟨rfl, fun hhash => ne_of_kind hc (by decide) (Option.some.inj hhash)⟩

theorem skipLines_textOf (h : ∀ l ∈ lines, l.WellFormed) :
    skipLines (textOf lines).length (textOf lines) = textOf (dropBlanks lines) := by
  obtain ⟨hskip, hhash⟩ := skipSpace_textOf h
  cases hlength : (textOf lines).length with
  | zero =>
    rw [List.length_eq_zero_iff.mp hlength] at hskip ⊢
    exact hskip
  | succ n =>
    rw [skipLines, hskip]
    split
    · rename_i heq
      rw [heq] at hhash
      exact absurd rfl hhash
    · rfl

theorem statements?_line {s rest : List Char} {st : Statement} (n : ℕ) (hne : s ≠ [])
    (hskip : skipLines s.length s = s) (hread : statement? s = some (st, '\n' :: rest)) :
    statements? (n + 1) s = (statements? n rest).map (st :: ·) := by
  have hend : endLine? ('\n' :: rest) = some rest := rfl
  rw [statements?, hskip]
  cases s with
  | nil => exact absurd rfl hne
  | cons c r =>
    simp only [bind, Option.bind, hread, hend]
    cases statements? n rest <;> rfl

theorem statements?_textOf {n : ℕ} (h : ∀ l ∈ lines, l.WellFormed) (hn : lines.length < n) :
    statements? n (textOf lines) = some (lines.filterMap Line.statement?) := by
  induction lines generalizing n with
  | nil =>
    obtain ⟨n, rfl⟩ : ∃ m, n = m + 1 := ⟨n - 1, by omega⟩
    rfl
  | cons l lines ih =>
    rw [List.length_cons] at hn
    obtain ⟨n, rfl⟩ : ∃ m, n = m + 1 := ⟨n - 1, by omega⟩
    have hskip := skipLines_textOf h
    have hlines := fun l hl => h l (List.mem_cons_of_mem _ hl)
    rcases (h l List.mem_cons_self).blank_or_yields with rfl | ⟨st, hst⟩
    · -- A blank line is skipped together with what it stands before, and is no step of its own.
      have hdrop : dropBlanks (.blank :: lines) = dropBlanks lines := rfl
      rw [hdrop, ← skipLines_textOf hlines] at hskip
      rw [statements?, hskip, ← statements?]
      exact ih hlines (by omega)
    · obtain ⟨c, r, hl, -⟩ := hst.opens
      have hne : textOf (l :: lines) ≠ [] := by
        show l.text ++ textOf lines ≠ []
        rw [hl]
        exact List.cons_ne_nil _ _
      rw [hst.dropBlanks_cons] at hskip
      rw [statements?_line n hne hskip (hst.read (textOf lines)), ih hlines (by omega),
        List.filterMap_cons_some hst.statement]
      rfl

theorem length_le_textOf (lines : List Line) : lines.length ≤ (textOf lines).length := by
  induction lines with
  | nil => exact Nat.le_refl _
  | cons l lines ih =>
    have htext : textOf (l :: lines) = l.text ++ textOf lines := rfl
    have hl : 1 ≤ l.text.length := by
      cases l with
      | blank => exact Nat.le_refl _
      | header k => exact Nat.succ_le_succ (Nat.zero_le _)
      | entry name x =>
        show 1 ≤ (_ ++ _ :: _).length
        rw [List.length_append, List.length_cons]
        omega
    rw [htext, List.length_cons, List.length_append]
    omega

theorem ofText?_textOf (h : ∀ l ∈ lines, l.WellFormed) : ofText? (String.ofList (textOf lines)) =
    ((lines.filterMap Line.statement?).foldlM Draft.add? ⟨[], []⟩).map
      fun draft => .table .header draft.entries := by
  have hmark : dropMark (textOf lines) = textOf lines := by
    cases lines with
    | nil => rfl
    | cons l lines =>
      have hfirst : ∃ c r, l.text = c :: r ∧ c ≠ '\uFEFF' := by
        rcases (h l List.mem_cons_self).blank_or_yields with rfl | ⟨st, hst⟩
        · exact ⟨'\n', [], rfl, by decide⟩
        · obtain ⟨c, r, hl, hc⟩ := hst.opens
          exact ⟨c, r, hl, ne_of_kind hc (by decide)⟩
      obtain ⟨c, r, hl, hc⟩ := hfirst
      have htext : textOf (l :: lines) = c :: (r ++ textOf lines) := congrArg (· ++ _) hl
      rw [htext]
      unfold dropMark
      split
      · rename_i heq
        exact absurd (List.cons.inj heq).1 hc
      · rfl
  have hlength := length_le_textOf lines
  unfold ofText?
  rw [String.toList_ofList]
  simp only [hmark]
  rw [statements?_textOf h (Nat.lt_succ_of_le hlength)]
  simp only [bind, Option.bind]
  cases (lines.filterMap Line.statement?).foldlM Draft.add? ⟨[], []⟩ <;> rfl

end Gantry.Toml
