import Gantry.Execution.Engine
import Gantry.Proofs.Machine.Operation

/-!
# Interleavings

Any number of clients share one engine. A call is a sequence of sections, each of which takes one
lock or touches the shutdown flag once; a task goes on by steps of the same size. A run is any
order of sections, steps, ticks and settings. What an event does to the engine is its effect.

Nothing here supplies fairness: a run may stop at any point and starve anybody.
-/

namespace Gantry

variable {α : Type} [Scalar α]

inductive Call where
  | line (text : String)
  | file (path : String) (file : File)
  | request (r : Request)
  | shutdown
  | close

/-- A client in a call, by the section that comes next. -/
inductive Client (α : Type) where
  /-- Looks whether the engine is busy before a file is submitted. -/
  | look (job : Task α) (readable : Bool)
  /-- Gives the engine a job unless it is busy. -/
  | submit (job : Task α)
  /-- The call returned true, and the job is the task of this number. -/
  | admitted (job : Task α) (k : Nat)
  /-- The call returned false. -/
  | refused (job : Task α)
  /-- Looks whether the engine is busy before a request is made. -/
  | approach (r : Request)
  /-- Puts a request to the machine. -/
  | ask (r : Request)
  /-- Gives notice that a pause is over. -/
  | announce
  /-- Raises the shutdown flag. -/
  | raise (closing : Bool)
  /-- Gives notice of shutdown. -/
  | alert (closing : Bool)
  /-- Empties the slot. -/
  | letGo
  /-- Waits until the task that was in the slot is over. -/
  | join (slot : Option Nat)
  | answered (granted : Bool)

namespace Client

def ofCall : Call → Client α
  | .line text => .submit (Task.ofLine text)
  | .file path file => .look (Task.ofFile (File.stem path) file.text?) file.isReadable
  | .request r => .approach r
  | .shutdown => .raise false
  | .close => .raise true

def job? : Client α → Option (Task α)
  | .look job _ => some job
  | .submit job => some job
  | .admitted job _ => some job
  | .refused job => some job
  | _ => none

def next (e : Engine α) : Client α → Client α
  | .look job readable => if e.isBusy || !readable then .refused job else .submit job
  | .submit job => if e.isBusy then .refused job else .admitted job e.tasks.length
  | .admitted job k => .admitted job k
  | .refused job => .refused job
  | .approach r => if e.isBusy then .ask r else .answered false
  | .ask r =>
    match r.grant? e.machine with
    | some _ => if r = .resume then .announce else .answered true
    | none => .answered false
  | .announce => .answered true
  | .raise closing => .alert closing
  | .alert closing => if closing then .letGo else .answered true
  | .letGo => .join e.slot
  | .join slot => if (slot.bind e.task?).isSome then .join slot else .answered true
  | .answered granted => .answered granted

end Client

/-- What an event does to an engine. -/
inductive Effect (α : Type) where
  | idle
  /-- A job becomes the task in the slot. -/
  | accept (job : Task α)
  /-- The machine grants a request. -/
  | grant (r : Request)
  /-- Every pause is given notice. -/
  | notice
  /-- Shutdown is requested. -/
  | raise
  /-- The slot is emptied. -/
  | letGo
  /-- A task makes a step. -/
  | step (k : Nat)
  /-- A tick or a setting. -/
  | drift (m : Machine α)

def Client.effect (e : Engine α) : Client α → Effect α
  | .submit job => if e.isBusy then .idle else .accept job
  | .ask r => if (r.grant? e.machine).isSome then .grant r else .idle
  | .announce => .notice
  | .raise _ => .raise
  | .alert _ => .notice
  | .letGo => .letGo
  | _ => .idle

def Engine.after (e : Engine α) : Effect α → Engine α
  | .idle => e
  | .accept job => (e.submit job).1
  | .grant r => { e with machine := (r.grant? e.machine).getD e.machine }
  | .notice => e.notify
  | .raise => { e with shutdown := true }
  | .letGo => { e with slot := none }
  | .step k => e.stepTask k
  | .drift m => { e with machine := m }

/-- An engine and the clients that ever called it. -/
structure System (α : Type) where
  engine : Engine α
  clients : List (Client α)

inductive Event (α : Type) where
  /-- A client begins a call. -/
  | call (c : Call)
  /-- The next section of the client of this number. -/
  | client (j : Nat)
  /-- The next step of the task of this number. -/
  | task (k : Nat)
  | tick
  | set (x : Setting α)

namespace System

def start (machine : MachineConfig α) (config : EngineConfig α) : System α where
  engine := Engine.ofParts machine config
  clients := []

/-- What an event does to the engine. A tick that is at fault and a setting that is refused do
nothing. -/
def effect (s : System α) : Event α → Effect α
  | .call _ => .idle
  | .client j =>
    match s.clients[j]? with
    | some c => c.effect s.engine
    | none => .idle
  | .task k => .step k
  | .tick =>
    match s.engine.tick with
    | .ok e => .drift e.machine
    | .error _ => .idle
  | .set x =>
    match x.apply s.engine.machine with
    | .ok m => .drift m
    | .error _ => .idle

def nextClients (s : System α) : Event α → List (Client α)
  | .call c => s.clients ++ [Client.ofCall c]
  | .client j => s.clients.modify j (Client.next s.engine)
  | _ => s.clients

def step (s : System α) (ev : Event α) : System α where
  engine := s.engine.after (s.effect ev)
  clients := s.nextClients ev

def run (s : System α) (evs : List (Event α)) : System α :=
  evs.foldl step s

def effects (s : System α) : List (Event α) → List (Effect α)
  | [] => []
  | ev :: evs => s.effect ev :: effects (s.step ev) evs

@[simp] theorem run_nil (s : System α) : s.run [] = s := rfl

@[simp] theorem run_cons (s : System α) (ev : Event α) (evs : List (Event α)) :
    s.run (ev :: evs) = (s.step ev).run evs := rfl

theorem run_append (s : System α) (evs fvs : List (Event α)) :
    s.run (evs ++ fvs) = (s.run evs).run fvs :=
  List.foldl_append

theorem run_concat (s : System α) (evs : List (Event α)) (ev : Event α) :
    s.run (evs ++ [ev]) = (s.run evs).step ev := by
  rw [run_append, run_cons, run_nil]

theorem effects_append (s : System α) (evs fvs : List (Event α)) :
    s.effects (evs ++ fvs) = s.effects evs ++ (s.run evs).effects fvs := by
  induction evs generalizing s with
  | nil => rfl
  | cons ev evs ih => exact congrArg (s.effect ev :: ·) (ih (s.step ev))

theorem effects_concat (s : System α) (evs : List (Event α)) (ev : Event α) :
    s.effects (evs ++ [ev]) = s.effects evs ++ [(s.run evs).effect ev] :=
  s.effects_append evs [ev]

/-- What every event preserves holds after every run. -/
theorem run_induction {P : System α → Prop} (hstep : ∀ s ev, P s → P (s.step ev))
    {s : System α} (h : P s) (evs : List (Event α)) : P (s.run evs) := by
  induction evs generalizing s with
  | nil => exact h
  | cons ev evs ih => exact ih (hstep s ev h)

end System

def Event.task? : Event α → Option Nat
  | .task k => some k
  | _ => none

namespace System

variable {β : Type} (note : System α → Nat → Option β)

/-- What is noted down in a run just before the steps of the tasks, in order. -/
def notes (s : System α) : List (Event α) → List β
  | [] => []
  | ev :: evs => (ev.task?.bind (note s)).toList ++ notes (s.step ev) evs

theorem notes_append (s : System α) (evs fvs : List (Event α)) :
    s.notes note (evs ++ fvs) = s.notes note evs ++ (s.run evs).notes note fvs := by
  induction evs generalizing s with
  | nil => rfl
  | cons ev evs ih =>
    rw [List.cons_append, notes, notes, ih, List.append_assoc]
    rfl

theorem notes_concat (s : System α) (evs : List (Event α)) (ev : Event α) :
    s.notes note (evs ++ [ev]) = s.notes note evs ++ (ev.task?.bind (note (s.run evs))).toList := by
  rw [notes_append]
  exact congrArg _ (List.append_nil _)

end System

namespace Engine

/-- The operation of the engine that a call stands for, and its answer. -/
def operate (e : Engine α) : Call → Engine α × Bool
  | .line text => e.executeLine text
  | .file path file => e.executeFile path file
  | .request .pause => e.pause
  | .request .resume => e.resume
  | .request .abort => e.abort
  | .shutdown => (e.requestShutdown, true)
  | .close => (e.release, true)

variable {e : Engine α} {r : Request}

theorem operate_of_not_granted (h : e.isBusy = false ∨ r.grant? e.machine = none) :
    e.operate (.request r) = (e, false) := by
  have hreq : e.request (fun m => r.grant? m) = (e, false) := by
    cases hb : e.isBusy with
    | false => simp [request, hb]
    | true =>
      have hn := h.resolve_left (by simp [hb])
      simp [request, hb, hn]
  cases r with
  | resume =>
    show e.resume = (e, false)
    unfold resume
    rw [show e.request Machine.resume? = (e, false) from hreq]
  | _ => exact hreq

theorem operate_of_granted {m : Machine α} (hb : e.isBusy = true)
    (hm : r.grant? e.machine = some m) :
    e.operate (.request r) =
      (if r = .resume then { e with machine := m }.notify else { e with machine := m }, true) := by
  have hreq : e.request (fun m => r.grant? m) = ({ e with machine := m }, true) := by
    simp [request, hb, hm]
  cases r with
  | resume =>
    show e.resume = _
    unfold resume
    rw [show e.request Machine.resume? = ({ e with machine := m }, true) from hreq]
    rfl
  | _ => exact hreq

end Engine

namespace Client

def sections : Nat → Engine α × Client α → Engine α × Client α
  | 0, p => p
  | n + 1, p => sections n (p.1.after (p.2.effect p.1), p.2.next p.1)

def answer? : Client α → Option Bool
  | .admitted _ _ => some true
  | .refused _ => some false
  | .answered granted => some granted
  | _ => none

/-- Some sections of a client in one piece come to an outcome, and nothing else is answered. -/
def Yields (e : Engine α) (c : Client α) (o : Engine α × Bool) : Prop :=
  ∃ n, (sections n (e, c)).1 = o.1 ∧ ∀ b, (sections n (e, c)).2.answer? = some b → b = o.2

variable {e : Engine α} {c : Client α} {o : Engine α × Bool}

theorem yields_of_next (h : Yields (e.after (c.effect e)) (c.next e) o) : Yields e c o := by
  obtain ⟨n, hn⟩ := h
  exact ⟨n + 1, hn⟩

theorem yields_of_answer (h : ∀ b, c.answer? = some b → b = o.2) (he : e = o.1) :
    Yields e c o :=
  ⟨0, he, h⟩

theorem yields_submit (e : Engine α) (job : Task α) :
    Yields e (.submit job) (e.submit job) := by
  apply yields_of_next
  apply yields_of_answer
  · intro b h
    cases hb : e.isBusy <;> simp [next, answer?, Engine.submit, hb] at h ⊢ <;> exact h
  · cases hb : e.isBusy <;> simp [effect, Engine.after, Engine.submit, hb]

theorem yields_request (e : Engine α) (r : Request) :
    Yields e (.approach r) (e.operate (.request r)) := by
  apply yields_of_next
  show Yields e (next e (.approach r)) _
  cases hb : e.isBusy with
  | false =>
    rw [Engine.operate_of_not_granted (Or.inl hb)]
    exact yields_of_answer (by simp [next, hb, answer?]) rfl
  | true =>
    have hnext : next e (.approach r) = .ask r := by simp [next, hb]
    rw [hnext]
    apply yields_of_next
    cases hm : r.grant? e.machine with
    | none =>
      rw [Engine.operate_of_not_granted (Or.inr hm)]
      exact yields_of_answer (by simp [next, hm, answer?]) (by simp [effect, hm, Engine.after])
    | some m =>
      rw [Engine.operate_of_granted hb hm]
      have hafter : e.after (effect e (.ask r)) = { e with machine := m } := by
        simp [effect, hm, Engine.after]
      rw [hafter]
      -- Only a resume has a third section, which gives notice.
      by_cases hr : r = .resume
      · subst hr
        have hask : next e (.ask .resume) = .announce := by simp [next, hm]
        rw [hask, if_pos rfl]
        apply yields_of_next
        exact yields_of_answer (by simp [next, answer?]) rfl
      · have hask : next e (.ask r) = .answered true := by simp [next, hm, hr]
        rw [hask, if_neg hr]
        exact yields_of_answer (by simp [answer?]) rfl

/-- The sections of a call in one piece are the operation of the engine, with its answer. -/
theorem yields_ofCall (e : Engine α) (c : Call) : Yields e (ofCall c) (e.operate c) := by
  cases c with
  | line text => exact yields_submit e (Task.ofLine text)
  | file path file =>
    apply yields_of_next
    show Yields e (next e (ofCall (.file path file))) (e.executeFile path file)
    cases hb : e.isBusy || !file.isReadable with
    | false =>
      have hnext : next e (ofCall (.file path file)) =
          .submit (Task.ofFile (File.stem path) file.text?) := by
        simp [ofCall, next, hb]
      have hop : e.executeFile path file = e.submit (Task.ofFile (File.stem path) file.text?) := by
        simp [Engine.executeFile, hb]
      rw [hnext, hop]
      exact yields_submit e _
    | true =>
      have hop : e.executeFile path file = (e, false) := by simp [Engine.executeFile, hb]
      rw [hop]
      exact yields_of_answer (by simp [ofCall, next, hb, answer?]) rfl
  | request r => exact yields_request e r
  | shutdown =>
    apply yields_of_next
    apply yields_of_next
    exact yields_of_answer (by simp [ofCall, next, answer?, Engine.operate]) rfl
  | close =>
    apply yields_of_next
    apply yields_of_next
    apply yields_of_next
    exact yields_of_answer (by simp [ofCall, next, answer?]) rfl

end Client

end Gantry
