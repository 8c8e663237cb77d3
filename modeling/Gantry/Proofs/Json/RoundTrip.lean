import Mathlib
import Gantry.Json.Record
import Gantry.Proofs.Text.Run

/-!
# Reading what was written

A value whose number literals are in proper form is read back from its text as it is, whatever its
strings hold. A literal is read to its end only where nothing follows that could belong to it, as
is the case everywhere in a text.

This does NOT compare the value of a literal with the number it was made from.
-/

namespace Gantry.Json

namespace Literal

structure Run (ds : List Char) : Prop where
  nonempty : ds ≠ []
  digits : ∀ c ∈ ds, c.isDigit = true

/-- A literal that the grammar of number literals knows. -/
structure WellFormed (l : Literal) : Prop where
  whole : Run l.whole
  /-- Digits before the point start with a zero only if there are no others. -/
  leading : l.whole.head? = some '0' → l.whole = ['0']
  fraction : ∀ ds, l.fraction = some ds → Run ds
  exponent : ∀ e, l.exponent = some e → Run e.digits

/-- No literal goes on with this text. -/
def Ends (rest : List Char) : Prop :=
  ∀ c r, rest = c :: r → c.isDigit = false ∧ c ≠ '.' ∧ c ≠ 'e' ∧ c ≠ 'E'

variable {ds rest : List Char}

theorem ends_nil : Ends [] := nofun

theorem ends_cons {c : Char} (r : List Char) (h : c.isDigit = false ∧ c ≠ '.' ∧ c ≠ 'e' ∧ c ≠ 'E') :
    Ends (c :: r) := by
  intro d t hd
  cases hd
  exact h

theorem spanDigits_append (hd : ∀ c ∈ ds, c.isDigit = true)
    (hr : ∀ c r, rest = c :: r → c.isDigit = false) : spanDigits (ds ++ rest) = (ds, rest) := by
  obtain ⟨htake, hdrop⟩ := Text.run_append hd hr
  rw [spanDigits, List.span_eq_takeWhile_dropWhile, htake, hdrop]

theorem whole?_append {l : Literal} (h : l.WellFormed)
    (hr : ∀ c r, rest = c :: r → c.isDigit = false) :
    whole? (l.whole ++ rest) = some (l.whole, rest) := by
  obtain ⟨⟨hne, hdigits⟩, hlead, -, -⟩ := h
  cases hw : l.whole with
  | nil => exact absurd hw hne
  | cons c ds =>
    rw [hw] at hdigits hlead
    rw [List.cons_append, whole?]
    by_cases hc : c = '0'
    · subst hc
      have hds := (List.cons.inj (hlead rfl)).2
      rw [if_pos rfl, hds]
      rfl
    · rw [if_neg hc, if_pos (hdigits c (by simp)),
        spanDigits_append (fun d hd => hdigits d (by simp [hd])) hr]

theorem fraction?_append {ds : List Char} (h : Run ds)
    (hr : ∀ c r, rest = c :: r → c.isDigit = false) :
    fraction? ('.' :: (ds ++ rest)) = some (some ds, rest) := by
  rw [fraction?, spanDigits_append h.digits hr]
  cases ds with
  | nil => exact absurd rfl h.nonempty
  | cons c ds => rfl

theorem fraction?_of_no_point (hr : ∀ c r, rest = c :: r → c ≠ '.') :
    fraction? rest = some (none, rest) := by
  cases rest with
  | nil => rfl
  | cons c r =>
    unfold fraction?
    split
    · rename_i heq
      exact absurd (List.cons.inj heq).1 (hr c r rfl)
    · rfl

theorem exponent?_append {e : Exponent} (h : Run e.digits)
    (hr : ∀ c r, rest = c :: r → c.isDigit = false) :
    exponent? (renderExponent e ++ rest) = some (some e, rest) := by
  obtain ⟨negative, ds⟩ := e
  have hread : exponentDigits? negative (ds ++ rest) = some (some ⟨negative, ds⟩, rest) := by
    rw [exponentDigits?, spanDigits_append h.digits hr]
    cases ds with
    | nil => exact absurd rfl h.nonempty
    | cons c ds => rfl
  cases negative with
  | true => exact hread
  | false => exact hread

theorem exponent?_of_no_mark (hr : ∀ c r, rest = c :: r → c ≠ 'e' ∧ c ≠ 'E') :
    exponent? rest = some (none, rest) := by
  cases rest with
  | nil => rfl
  | cons c r =>
    obtain ⟨he, hE⟩ := hr c r rfl
    unfold exponent?
    exact if_neg (not_or.mpr ⟨he, hE⟩)

def tail (l : Literal) : List Char :=
  (match l.fraction with
    | some ds => '.' :: ds
    | none => []) ++
  (match l.exponent with
    | some e => renderExponent e
    | none => [])

theorem unsigned?_append {l : Literal} (h : l.WellFormed) (hr : Ends rest) :
    unsigned? l.negative (l.whole ++ (l.tail ++ rest)) = some (l, rest) := by
  have hdigit (c : Char) (r : List Char) (hc : rest = c :: r) := (hr c r hc).1
  obtain ⟨negative, whole, fraction, exponent⟩ := l
  have hmark (e : Exponent) (c : Char) (r : List Char) (hc : renderExponent e ++ rest = c :: r) :
      c = 'e' := (List.cons.inj hc).1.symm
  cases fraction with
  | none =>
    cases exponent with
    | none =>
      simp only [tail, List.nil_append]
      rw [unsigned?, whole?_append h hdigit]
      simp only [bind, Option.bind]
      rw [fraction?_of_no_point fun c r hc => (hr c r hc).2.1]
      simp only
      rw [exponent?_of_no_mark fun c r hc => (hr c r hc).2.2]
      rfl
    | some e =>
      simp only [tail, List.nil_append]
      rw [unsigned?, whole?_append h fun c r hc => by rw [hmark e c r hc]; decide]
      simp only [bind, Option.bind]
      rw [fraction?_of_no_point fun c r hc => by rw [hmark e c r hc]; decide]
      simp only
      rw [exponent?_append (h.exponent e rfl) hdigit]
      rfl
  | some ds =>
    cases exponent with
    | none =>
      simp only [tail, List.append_nil, List.cons_append]
      rw [unsigned?, whole?_append h fun c r hc => by rw [← (List.cons.inj hc).1]; decide]
      simp only [bind, Option.bind]
      rw [fraction?_append (h.fraction ds rfl) hdigit]
      simp only
      rw [exponent?_of_no_mark fun c r hc => (hr c r hc).2.2]
      rfl
    | some e =>
      simp only [tail, List.cons_append, List.append_assoc]
      rw [unsigned?, whole?_append h fun c r hc => by rw [← (List.cons.inj hc).1]; decide]
      simp only [bind, Option.bind]
      rw [fraction?_append (h.fraction ds rfl) fun c r hc => by rw [hmark e c r hc]; decide]
      simp only
      rw [exponent?_append (h.exponent e rfl) hdigit]
      rfl

theorem render_eq (l : Literal) :
    l.render = (if l.negative then ['-'] else []) ++ (l.whole ++ l.tail) :=
  (List.append_assoc _ _ _).trans (List.append_assoc _ _ _)

theorem render_head {l : Literal} (h : l.WellFormed) :
    ∃ c r, l.render = c :: r ∧ (c = '-' ∨ c.isDigit = true) := by
  rw [render_eq]
  cases l.negative with
  | true => exact ⟨'-', _, rfl, Or.inl rfl⟩
  | false =>
    cases hw : l.whole with
    | nil => exact absurd hw h.whole.nonempty
    | cons c ds => exact ⟨c, _, rfl, Or.inr (h.whole.digits c (by simp [hw]))⟩

theorem read?_render {l : Literal} (h : l.WellFormed) (hr : Ends rest) :
    read? (l.render ++ rest) = some (l, rest) := by
  have hread := unsigned?_append h hr
  rw [render_eq, List.append_assoc, List.append_assoc]
  cases hn : l.negative with
  | true =>
    rw [hn] at hread
    exact hread
  | false =>
    rw [hn] at hread
    cases hw : l.whole with
    | nil => exact absurd hw h.whole.nonempty
    | cons c ds =>
      have hminus : c ≠ '-' := by
        rintro rfl
        exact absurd (h.whole.digits '-' (by simp [hw])) (by decide)
      rw [hw] at hread
      show read? (c :: (ds ++ (l.tail ++ rest))) = _
      unfold read?
      split
      · rename_i heq
        exact absurd (List.cons.inj heq).1 hminus
      · exact hread

end Literal

theorem hex4?_control :
    ∀ n < 32, hex4? '0' '0' (hexDigit (n / 16)) (hexDigit (n % 16)) = some n := by
  decide

theorem codes?_of_plain {c : Char} (hq : c ≠ '"') (hb : c ≠ '\\') (hc : ¬ c.toNat < 32)
    (r : List Char) :
    codes? (c :: r) = (codes? r).map fun (ns, rest) => (c.toNat :: ns, rest) := by
  rw [codes?.eq_def]
  split
  · rename_i heq
    cases heq
  · rename_i heq
    exact absurd (List.cons.inj heq).1 hq
  · rename_i heq
    exact absurd (List.cons.inj heq).1 hb
  · rename_i heq
    exact absurd (List.cons.inj heq).1 hb
  · rename_i heq
    obtain ⟨rfl, rfl⟩ := List.cons.inj heq
    exact if_neg (not_or.mpr ⟨hc, hb⟩)

theorem codes?_escape (c : Char) (r : List Char) :
    codes? (escape c ++ r) = (codes? r).map fun (ns, rest) => (c.toNat :: ns, rest) := by
  unfold escape
  split_ifs with hquote hslash hb hf hn hr ht hcontrol
  any_goals
    subst c
    rfl
  · have hhex := hex4?_control c.toNat hcontrol
    show codes? ('\\' :: 'u' :: '0' :: '0' :: hexDigit (c.toNat / 16) ::
      hexDigit (c.toNat % 16) :: r) = _
    rw [codes?, hhex]
    rfl
  · exact codes?_of_plain hquote hslash hcontrol r

theorem codes?_escapes (cs rest : List Char) :
    codes? (cs.flatMap escape ++ '"' :: rest) = some (cs.map Char.toNat, rest) := by
  induction cs with
  | nil => rfl
  | cons c cs ih =>
    rw [List.flatMap_cons, List.append_assoc, codes?_escape, ih]
    rfl

theorem not_surrogate (c : Char) :
    isHighSurrogate c.toNat = false ∧ isLowSurrogate c.toNat = false := by
  have hvalid : c.toNat < 0xD800 ∨ 0xDFFF < c.toNat ∧ c.toNat < 0x110000 := c.valid
  unfold isHighSurrogate isLowSurrogate
  simp only [Bool.and_eq_false_iff, decide_eq_false_iff_not]
  omega

theorem joinCodes?_toNat (cs : List Char) : joinCodes? (cs.map Char.toNat) = some cs := by
  induction cs with
  | nil => rfl
  | cons c cs ih =>
    obtain ⟨hhigh, hlow⟩ := not_surrogate c
    cases cs with
    | nil =>
      show joinCodes? [c.toNat] = _
      rw [joinCodes?, hhigh, hlow, Char.ofNat_toNat]
      rfl
    | cons d cs =>
      show joinCodes? (c.toNat :: d.toNat :: cs.map Char.toNat) = _
      rw [joinCodes?, hhigh, hlow, Char.ofNat_toNat]
      show (joinCodes? ((d :: cs).map Char.toNat)).map _ = _
      rw [ih]
      rfl

theorem quote_head (s : Option String) : ∃ r, quote s = '"' :: r := by
  cases s with
  | none => exact ⟨_, rfl⟩
  | some s => exact ⟨_, rfl⟩

theorem stringTail?_quote (s : Option String) {r rest : List Char}
    (h : quote s ++ rest = '"' :: r) : stringTail? r = some (s, rest) := by
  cases s with
  | none =>
    have hquote : quote none = ['"', '\\', 'u', 'd', '8', '0', '0', '"'] := rfl
    rw [hquote] at h
    rw [← (List.cons.inj h).2]
    rfl
  | some s =>
    have hr : r = s.toList.flatMap escape ++ '"' :: rest := by
      have hquote : quote (some s) = '"' :: s.toList.flatMap escape ++ ['"'] := rfl
      rw [hquote, List.append_assoc, List.cons_append] at h
      exact (List.cons.inj h).2.symm
    rw [hr, stringTail?, codes?_escapes, Option.map_some]
    simp only
    rw [joinCodes?_toNat, Option.map_some, String.ofList_toList]

theorem string?_quote (s : Option String) (rest : List Char) :
    string? (quote s ++ rest) = some (s, rest) := by
  obtain ⟨r, hr⟩ := quote_head s
  have htail : stringTail? (r ++ rest) = some (s, rest) := by
    apply stringTail?_quote
    rw [hr]
    rfl
  rw [hr]
  exact htail

inductive WellFormed : Json → Prop where
  | null : WellFormed .null
  | bool (b : Bool) : WellFormed (.bool b)
  | number {l : Literal} (h : l.WellFormed) : WellFormed (.number l)
  | text (s : Option String) : WellFormed (.text s)
  | array {js : List Json} (h : ∀ j ∈ js, WellFormed j) : WellFormed (.array js)
  | object {fs : List (Option String × Json)} (h : ∀ f ∈ fs, WellFormed f.2) :
      WellFormed (.object fs)

/-- The text of the value is read as the value, up to its end. -/
def Reads (j : Json) : Prop :=
  ∀ n rest, (render j).length ≤ n → Literal.Ends rest → value? n (render j ++ rest) = some (j, rest)

theorem skipBlanks_cons {c : Char} (h : isBlank c = false) (r : List Char) :
    skipBlanks (c :: r) = c :: r :=
  List.dropWhile_cons_of_neg (by rw [h]; decide)

/-- No other character than a sign or a digit starts a literal. -/
theorem ne_of_literal {c d : Char} (h : c = '-' ∨ c.isDigit = true) (hd : d.isDigit = false)
    (hminus : d ≠ '-') : c ≠ d := by
  rintro rfl
  rcases h with rfl | h
  · exact hminus rfl
  · rw [h] at hd
    cases hd

/-- What a value may start with. -/
def Opens (c : Char) : Prop :=
  isBlank c = false ∧ c ≠ ']' ∧ c ≠ '\x7d'

instance (c : Char) : Decidable (Opens c) :=
  inferInstanceAs (Decidable (isBlank c = false ∧ c ≠ ']' ∧ c ≠ '\x7d'))

theorem opens_of_literal {c : Char} (h : c = '-' ∨ c.isDigit = true) : Opens c := by
  have hne {d : Char} (hd : d.isDigit = false) (hminus : d ≠ '-') : c ≠ d :=
    ne_of_literal h hd hminus
  refine ⟨?_, hne (by decide) (by decide), hne (by decide) (by decide)⟩
  unfold isBlank
  simp only [Bool.or_eq_false_iff, beq_eq_false_iff_ne]
  exact ⟨⟨⟨hne (by decide) (by decide), hne (by decide) (by decide)⟩,
    hne (by decide) (by decide)⟩, hne (by decide) (by decide)⟩

theorem render_head {j : Json} (h : WellFormed j) : ∃ c r, render j = c :: r ∧ Opens c := by
  cases h with
  | null => exact ⟨'n', _, rfl, by decide⟩
  | bool b =>
    cases b with
    | true => exact ⟨'t', _, rfl, by decide⟩
    | false => exact ⟨'f', _, rfl, by decide⟩
  | number h =>
    obtain ⟨c, r, hr, hc⟩ := Literal.render_head h
    exact ⟨c, r, hr, opens_of_literal hc⟩
  | text s =>
    obtain ⟨r, hr⟩ := quote_head s
    exact ⟨'"', r, hr, by decide⟩
  | @array js _ => cases js <;> exact ⟨'[', _, rfl, by decide⟩
  | @object fs _ => cases fs <;> exact ⟨'\x7b', _, rfl, by decide⟩

theorem reads_null : Reads .null := by
  intro n rest hn _
  cases n with
  | zero => exact absurd hn (by decide)
  | succ n => rfl

theorem reads_bool (b : Bool) : Reads (.bool b) := by
  intro n rest hn _
  cases b <;> cases n with
  | zero => exact absurd hn (by decide)
  | succ n => rfl

theorem value?_of_literal {c : Char} (h : c = '-' ∨ c.isDigit = true) (n : ℕ) (r : List Char) :
    value? (n + 1) (c :: r) = (Literal.read? (c :: r)).map fun (l, rest) => (.number l, rest) := by
  have hblank := (opens_of_literal h).1
  rw [value?, skipBlanks_cons hblank]
  split
  case h_7 => rfl
  all_goals
    rename_i heq
    exact absurd (List.cons.inj heq).1 (ne_of_literal h (by decide) (by decide))

theorem reads_number {l : Literal} (h : l.WellFormed) : Reads (.number l) := by
  intro n rest hn hends
  obtain ⟨c, r, hr, hc⟩ := Literal.render_head h
  have hread := Literal.read?_render h hends
  show value? n (l.render ++ rest) = _
  have hlen : l.render.length ≤ n := hn
  rw [hr] at hread hlen ⊢
  cases n with
  | zero => exact absurd hlen (by simp)
  | succ n =>
    rw [List.cons_append] at hread ⊢
    rw [value?_of_literal hc, hread]
    rfl

theorem reads_text (s : Option String) : Reads (.text s) := by
  intro n rest hn _
  obtain ⟨r, hr⟩ := quote_head s
  have htail : stringTail? (r ++ rest) = some (s, rest) := by
    apply stringTail?_quote
    rw [hr]
    rfl
  show value? n (quote s ++ rest) = _
  have hlen : (quote s).length ≤ n := hn
  rw [hr] at hlen ⊢
  cases n with
  | zero => exact absurd hlen (by simp)
  | succ n =>
    show (stringTail? (r ++ rest)).map _ = _
    rw [htail]
    rfl

theorem ends_renderItems (js : List Json) (rest : List Char) :
    Literal.Ends (renderItems js ++ rest) := by
  cases js with
  | nil => exact Literal.ends_cons _ (by decide)
  | cons j js => exact Literal.ends_cons _ (by decide)

theorem items?_render {js : List Json} (h : ∀ j ∈ js, Reads j) {n : ℕ} (rest : List Char)
    (hn : (renderItems js).length ≤ n) : items? n (renderItems js ++ rest) = some (js, rest) := by
  induction js generalizing n with
  | nil =>
    cases n with
    | zero => exact absurd hn (by decide)
    | succ n => rfl
  | cons j js ih =>
    rw [renderItems, List.length_append, List.length_cons] at hn
    cases n with
    | zero => omega
    | succ n =>
      have hfirst := h j (by simp) n (renderItems js ++ rest) (by omega) (ends_renderItems js rest)
      have hothers := ih (fun k hk => h k (by simp [hk])) (n := n) (by omega)
      show items? (n + 1) (',' :: (render j ++ renderItems js ++ rest)) = _
      rw [items?, skipBlanks_cons (by decide), List.append_assoc]
      simp only [hfirst, hothers, bind, Option.bind]
      rfl

theorem value?_of_items (n : ℕ) {r : List Char} (hskip : skipBlanks r = r)
    (hr : ∀ t, r ≠ ']' :: t) : value? (n + 1) ('[' :: r) = do
      let (j, r) ← value? n r
      let (js, r) ← items? n r
      return (.array (j :: js), r) := by
  rw [value?, skipBlanks_cons (by decide)]
  simp only
  rw [hskip]
  split
  · exact absurd rfl (hr _)
  · rfl

theorem reads_array {js : List Json} (hw : ∀ j ∈ js, WellFormed j) (h : ∀ j ∈ js, Reads j) :
    Reads (.array js) := by
  intro n rest hn _
  cases js with
  | nil =>
    cases n with
    | zero => exact absurd hn (by decide)
    | succ n => rfl
  | cons j js =>
    rw [render, List.length_append, List.length_cons] at hn
    cases n with
    | zero => omega
    | succ n =>
      have hfirst := h j (by simp) n (renderItems js ++ rest) (by omega) (ends_renderItems js rest)
      have hothers : items? n (renderItems js ++ rest) = some (js, rest) :=
        items?_render (fun k hk => h k (by simp [hk])) rest (by omega)
      obtain ⟨c, r, hr, hblank, hclose, -⟩ := render_head (hw j (by simp))
      have hskip : skipBlanks (render j ++ (renderItems js ++ rest)) =
          render j ++ (renderItems js ++ rest) := by
        rw [hr]
        exact skipBlanks_cons hblank _
      have hitem (t : List Char) : render j ++ (renderItems js ++ rest) ≠ ']' :: t := by
        rw [hr]
        intro he
        exact hclose (List.cons.inj he).1
      show value? (n + 1) ('[' :: (render j ++ renderItems js ++ rest)) = _
      rw [List.append_assoc, value?_of_items n hskip hitem]
      simp only [hfirst, hothers, bind, Option.bind]
      rfl

theorem field?_render (k : Option String) {j : Json} (h : Reads j) {n : ℕ} {rest : List Char}
    (hn : (quote k).length + (render j).length < n) (hr : Literal.Ends rest) :
    field? n (quote k ++ (':' :: (render j ++ rest))) = some ((k, j), rest) := by
  cases n with
  | zero => omega
  | succ n =>
    have hvalue := h n rest (by omega) hr
    rw [field?, string?_quote]
    simp only [bind, Option.bind]
    rw [afterColon?, skipBlanks_cons (by decide)]
    simp only
    rw [hvalue]
    rfl

theorem ends_renderFields (fs : List (Option String × Json)) (rest : List Char) :
    Literal.Ends (renderFields fs ++ rest) := by
  cases fs with
  | nil => exact Literal.ends_cons _ (by decide)
  | cons f fs => exact Literal.ends_cons _ (by decide)

theorem fields?_render {fs : List (Option String × Json)} (h : ∀ f ∈ fs, Reads f.2) {n : ℕ}
    (rest : List Char) (hn : (renderFields fs).length ≤ n) :
    fields? n (renderFields fs ++ rest) = some (fs, rest) := by
  induction fs generalizing n with
  | nil =>
    cases n with
    | zero => exact absurd hn (by decide)
    | succ n => rfl
  | cons f fs ih =>
    obtain ⟨k, j⟩ := f
    have htext : renderFields ((k, j) :: fs) ++ rest =
        ',' :: (quote k ++ (':' :: (render j ++ (renderFields fs ++ rest)))) := by
      simp only [renderFields, List.cons_append, List.append_assoc]
    have hlength : (renderFields ((k, j) :: fs)).length =
        1 + (quote k).length + 1 + (render j).length + (renderFields fs).length := by
      simp only [renderFields, List.length_cons, List.length_append]
      omega
    rw [hlength] at hn
    cases n with
    | zero => omega
    | succ n =>
      have hj : Reads j := h (k, j) (by simp)
      have hfirst := field?_render k hj (n := n) (by omega) (ends_renderFields fs rest)
      have hothers := ih (fun g hg => h g (by simp [hg])) (n := n) (by omega)
      rw [htext, fields?, skipBlanks_cons (by decide)]
      simp only [hfirst, hothers, bind, Option.bind]
      rfl

theorem value?_of_fields (n : ℕ) {r : List Char} (hskip : skipBlanks r = r)
    (hr : ∀ t, r ≠ '\x7d' :: t) : value? (n + 1) ('\x7b' :: r) = do
      let (f, r) ← field? n r
      let (fs, r) ← fields? n r
      return (.object (f :: fs), r) := by
  rw [value?, skipBlanks_cons (by decide)]
  simp only
  rw [hskip]
  split
  · exact absurd rfl (hr _)
  · rfl

theorem reads_object {fs : List (Option String × Json)} (h : ∀ f ∈ fs, Reads f.2) :
    Reads (.object fs) := by
  intro n rest hn _
  cases fs with
  | nil =>
    cases n with
    | zero => exact absurd hn (by decide)
    | succ n => rfl
  | cons f fs =>
    obtain ⟨k, j⟩ := f
    have htext : render (.object ((k, j) :: fs)) ++ rest =
        '\x7b' :: (quote k ++ (':' :: (render j ++ (renderFields fs ++ rest)))) := by
      simp only [render, List.cons_append, List.append_assoc]
    have hlength : (render (.object ((k, j) :: fs))).length =
        1 + (quote k).length + 1 + (render j).length + (renderFields fs).length := by
      simp only [render, List.length_cons, List.length_append]
      omega
    rw [hlength] at hn
    cases n with
    | zero => omega
    | succ n =>
      have hj : Reads j := h (k, j) (by simp)
      have hfirst := field?_render k hj (n := n) (by omega) (ends_renderFields fs rest)
      have hothers : fields? n (renderFields fs ++ rest) = some (fs, rest) :=
        fields?_render (fun g hg => h g (by simp [hg])) rest (by omega)
      obtain ⟨r, hr⟩ := quote_head k
      rw [htext, value?_of_fields n (by rw [hr]; exact skipBlanks_cons (by decide) _) (by
        rw [hr]
        intro t he
        exact absurd (List.cons.inj he).1 (by decide))]
      simp only [hfirst, hothers, bind, Option.bind]
      rfl

theorem WellFormed.reads {j : Json} (h : WellFormed j) : Reads j := by
  induction h with
  | null => exact reads_null
  | bool b => exact reads_bool b
  | number h => exact reads_number h
  | text s => exact reads_text s
  | array h ih => exact reads_array h ih
  | object h ih => exact reads_object ih

/-- A text that was written is read as what it was written from. -/
theorem ofText?_toText {j : Json} (h : WellFormed j) : ofText? j.toText = some j := by
  have hread := h.reads (2 * j.render.length + 2) [] (by omega) Literal.ends_nil
  rw [List.append_nil] at hread
  rw [ofText?, toText, String.toList_ofList]
  simp only [hread]
  rfl

variable {spec : List Field} {fields : List (String × Json)}

theorem wellFormed_ofFields (h : ∀ f ∈ fields, WellFormed f.2) : WellFormed (ofFields fields) := by
  apply WellFormed.object
  intro f hf
  obtain ⟨g, hg, rfl⟩ := List.mem_map.mp hf
  exact h g hg

theorem mapM_named (fields : List (String × Json)) :
    ((fields.map fun f => (some f.1, f.2)).mapM fun (k, j) => k.map (·, j)) = some fields := by
  induction fields with
  | nil => rfl
  | cons f fs ih =>
    rw [List.map_cons, List.mapM_cons, ih]
    rfl

theorem record?_ofFields (names : List String) (hnames : fields.map Prod.fst = names)
    (hknown : ∀ name ∈ names, spec.any (·.name == name) = true) (hrepeat : noRepeat names = true)
    (hpresent : (spec.all fun f => f.presence != .required || names.any (· == f.name)) = true) :
    record? spec (ofFields fields) = some fields := by
  subst hnames
  have hfilter : (fields.filter fun f => spec.any (·.name == f.1)) = fields :=
    List.filter_eq_self.mpr fun f hf => hknown f.1 (List.mem_map_of_mem hf)
  simp only [List.any_map] at hpresent
  rw [ofFields, record?, knownFields?, mapM_named]
  simp only [bind, Option.bind, hfilter, hrepeat, if_true]
  exact if_pos hpresent

end Gantry.Json
