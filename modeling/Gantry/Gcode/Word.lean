import Gantry.Scalar

/-!
# Words of a line

A line of G-code is a sequence of words, each a letter with a number right after it. Between words
there may be blanks, comments in parentheses, which end at the first closing one, and a comment
after a semicolon, which takes the rest of the line.
-/

namespace Gantry.Gcode

/-- A number as it is written: `mantissa` with `places` of its digits after the point. -/
structure Literal where
  negative : Bool
  mantissa : Nat
  places : Nat
deriving DecidableEq, Repr

/-- A word of a line; its letter is a capital. -/
structure Word where
  letter : Char
  number : Literal
deriving DecidableEq, Repr

def Literal.value {α : Type} [Scalar α] (l : Literal) : α :=
  let magnitude : α := OfScientific.ofScientific l.mantissa true l.places
  if l.negative then -magnitude else magnitude

def natValue (ds : List Char) : Nat :=
  ds.foldl (fun n c => 10 * n + (c.toNat - '0'.toNat)) 0

/-- The number at the head of a text after its sign: digits with at most one point, at least one
digit, and what follows. -/
def unsigned? (negative : Bool) (s : List Char) : Option (Literal × List Char) :=
  let whole := s.takeWhile Char.isDigit
  match s.dropWhile Char.isDigit with
  | '.' :: r =>
    let fraction := r.takeWhile Char.isDigit
    if whole ++ fraction = [] then none
    else some (⟨negative, natValue (whole ++ fraction), fraction.length⟩, r.dropWhile Char.isDigit)
  | r => if whole = [] then none else some (⟨negative, natValue whole, 0⟩, r)

def number? : List Char → Option (Literal × List Char)
  | '+' :: r => unsigned? false r
  | '-' :: r => unsigned? true r
  | s => unsigned? false s

theorem length_dropWhile_le (p : Char → Bool) (s : List Char) :
    (s.dropWhile p).length ≤ s.length :=
  (List.dropWhile_sublist p).length_le

theorem length_of_unsigned? {negative : Bool} {s r : List Char} {l : Literal}
    (h : unsigned? negative s = some (l, r)) : r.length ≤ s.length := by
  have hs := length_dropWhile_le Char.isDigit s
  unfold unsigned? at h
  simp only at h
  split at h
  · rename_i t ht
    have hr := length_dropWhile_le Char.isDigit t
    rw [ht, List.length_cons] at hs
    split at h
    · exact absurd h (by simp)
    · cases h
      omega
  · split at h
    · exact absurd h (by simp)
    · cases h
      exact hs

theorem length_of_number? {s r : List Char} {l : Literal} (h : number? s = some (l, r)) :
    r.length ≤ s.length := by
  unfold number? at h
  split at h
  · exact Nat.le_succ_of_le (length_of_unsigned? h)
  · exact Nat.le_succ_of_le (length_of_unsigned? h)
  · exact length_of_unsigned? h

def isBlank (c : Char) : Bool :=
  c == ' ' || c == '\t' || c == '\r' || c == '\n'

def closeComment? (s : List Char) : Option (List Char) :=
  (s.dropWhile (· != ')')).tail?

theorem length_of_closeComment? {s r : List Char} (h : closeComment? s = some r) :
    r.length < s.length := by
  have hs := length_dropWhile_le (· != ')') s
  unfold closeComment? at h
  cases hd : s.dropWhile (· != ')') with
  | nil => simp [hd] at h
  | cons c t =>
    rw [hd] at h
    rw [hd, List.length_cons] at hs
    cases h
    exact hs

/-- What follows the blanks and comments. A parenthesis that is never closed opens no comment. -/
def skipFiller (s : List Char) : List Char :=
  match s with
  | [] => []
  | c :: r =>
    if isBlank c then skipFiller r
    else if c = ';' then []
    else if c = '(' then
      match _h : closeComment? r with
      | some t => skipFiller t
      | none => c :: r
    else c :: r
termination_by s.length
decreasing_by
  · simp
  · have := length_of_closeComment? _h
    simp
    omega

theorem length_skipFiller_le (s : List Char) : (skipFiller s).length ≤ s.length := by
  fun_induction skipFiller s with
  | case1 => simp
  | case2 c r _ ih => simp; omega
  | case3 => simp
  | case4 r t h _ ih =>
    have := length_of_closeComment? h
    simp
    omega
  | case5 => simp
  | case6 => simp

/-- The words of a text that is nothing but words, blanks and comments. -/
def words? (s : List Char) : Option (List Word) :=
  match _hs : skipFiller s with
  | [] => some []
  | c :: r =>
    if c.isAlpha then
      match _hn : number? r with
      | some (l, t) => (words? t).map (⟨c.toUpper, l⟩ :: ·)
      | none => none
    else none
termination_by s.length
decreasing_by
  have h1 := length_skipFiller_le s
  have h2 := length_of_number? _hn
  rw [_hs, List.length_cons] at h1
  omega

end Gantry.Gcode
