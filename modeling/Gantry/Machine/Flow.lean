import Gantry.Machine.Part

/-!
# Flow of a file

What is known about the file in execution, and the requests that steer it. A request only sets a
flag; the execution honours it between two lines.
-/

namespace Gantry

structure Flow where
  status : Status
  pauseRequested : Bool
  abortRequested : Bool
  file : Option String
  line : Option String
  progress : Nat
deriving DecidableEq, Repr

namespace Flow

def initial : Flow where
  status := Status.initial
  pauseRequested := false
  abortRequested := false
  file := none
  line := none
  progress := 0

def pause? (f : Flow) : Option Flow :=
  if f.status = .working then some { f with pauseRequested := true } else none

def resume? (f : Flow) : Option Flow :=
  if f.status = .paused then some { f with pauseRequested := false } else none

def abort? (f : Flow) : Option Flow :=
  if f.status = .working then some { f with abortRequested := true } else none

/-- Takes note of a pending abort, which is then pending no more. -/
def takeAbort (f : Flow) : Flow × Bool :=
  ({ f with abortRequested := false }, f.abortRequested)

/-- A file begins; requests made for an earlier one are void. -/
def beginFile (f : Flow) (name : String) : Flow :=
  { f with
    status := .working
    pauseRequested := false
    abortRequested := false
    file := some name
    progress := 0 }

def finishFile (f : Flow) : Flow :=
  { f with status := .idle, pauseRequested := false, file := none, progress := 100 }

/-- Another progress, at most one hundred. -/
def setProgress (f : Flow) (percent : Nat) : Flow :=
  { f with progress := min percent 100 }

def setStatus (f : Flow) (status : Status) : Flow :=
  { f with status := status }

def setLine (f : Flow) (line : Option String) : Flow :=
  { f with line := line }

end Flow

end Gantry
