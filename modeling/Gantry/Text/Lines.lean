/-!
# Lines of a text

A line ends at a line feed or at a carriage return with a line feed. The text after the last end
of line is a line of its own unless it is empty.
-/

namespace Gantry.Text

def splitLine (s : List Char) : List Char × Option (List Char) :=
  (s.takeWhile (· != '\n'), (s.dropWhile (· != '\n')).tail?)

theorem splitLine_length {s r : List Char} (h : (splitLine s).2 = some r) :
    r.length < s.length := by
  unfold splitLine at h
  have hs := (List.dropWhile_sublist (· != '\n') (l := s)).length_le
  cases hd : s.dropWhile (· != '\n') with
  | nil => simp [hd] at h
  | cons c t =>
    simp only [hd, List.tail?_cons, Option.some.injEq] at h
    rw [hd, List.length_cons] at hs
    subst h
    omega

def dropReturn (line : List Char) : List Char :=
  if line.getLast? = some '\r' then line.dropLast else line

def lineChars (s : List Char) : List (List Char) :=
  match _h : (splitLine s).2 with
  | some rest => dropReturn (splitLine s).1 :: lineChars rest
  | none => if s = [] then [] else [s]
termination_by s.length
decreasing_by exact splitLine_length _h

def lines (text : String) : List String :=
  (lineChars text.toList).map String.ofList

end Gantry.Text
