import Gantry.Proofs.Machine.Operation

/-!
# Traces

What a run shows of a machine at its ticks. Two machines that are alike stay so under the operations
that both of them take, and under those that only one of them takes: then both runs show the same.

Nothing here says what is shown, or which operations may be left out.
-/

namespace Gantry.Machine

variable {α σ β : Type} [Scalar α] [SettingForm α σ]

/-- What is seen of a machine after each tick of a run. A tick at fault is shown as such and ends
the run. -/
def trace (view : Machine α → β) :
    Machine α → List (Operation α σ) → List (Except BoundsFault β)
  | _, [] => []
  | m, op :: ops =>
    match op.perform m with
    | .error fault => [.error fault]
    | .ok n => (if op.time?.isSome then [.ok (view n)] else []) ++ trace view n ops

/-- Two operations come to machines that are alike, or end in the same fault. -/
inductive Likewise (R : Machine α → Machine α → Prop) :
    Except BoundsFault (Machine α) → Except BoundsFault (Machine α) → Prop where
  | ok {m n : Machine α} (h : R m n) : Likewise R (.ok m) (.ok n)
  | error (fault : BoundsFault) : Likewise R (.error fault) (.error fault)

variable {view : Machine α → β} {R : Machine α → Machine α → Prop} {m n : Machine α}
  {op : Operation α σ} {ops : List (Operation α σ)} {keep : Operation α σ → Bool}

theorem trace_of_ok (hn : op.perform m = .ok n) (ops : List (Operation α σ)) :
    m.trace view (op :: ops) = (if op.time?.isSome then [.ok (view n)] else []) ++
      n.trace view ops := by
  rw [trace, hn]

theorem trace_of_error {fault : BoundsFault} (hn : op.perform m = .error fault)
    (ops : List (Operation α σ)) : m.trace view (op :: ops) = [.error fault] := by
  rw [trace, hn]

theorem trace_of_no_tick (ht : op.time? = none) (ops : List (Operation α σ)) :
    m.trace view (op :: ops) = (op.after m).trace view ops := by
  rw [trace_of_ok (Operation.perform_after ht m), ht]
  rfl

/-- A run shows what is shown by the part of it that is kept. -/
theorem trace_filter (hview : ∀ m n, R m n → view m = view n)
    (hdrop : ∀ op ∈ ops, keep op = false → op.time? = none ∧ ∀ m n, R m n → R (op.after m) n)
    (hkeep : ∀ op ∈ ops, keep op = true → ∀ m n, R m n →
      Likewise R (op.perform m) (op.perform n)) (h : R m n) :
    n.trace view (ops.filter keep) = m.trace view ops := by
  -- The two machines take the same operations that are kept, and only `m` takes the others.
  induction ops generalizing m n with
  | nil => rfl
  | cons op ops ih =>
    have hrest {o p : Machine α} : R o p → p.trace view (ops.filter keep) = o.trace view ops :=
      ih (fun op hop => hdrop op (List.mem_cons_of_mem _ hop))
        fun op hop => hkeep op (List.mem_cons_of_mem _ hop)
    cases hop : keep op with
    | false =>
      obtain ⟨htick, hafter⟩ := hdrop op List.mem_cons_self hop
      rw [List.filter_cons_of_neg (by simp [hop]), trace_of_no_tick htick]
      exact hrest (hafter m n h)
    | true =>
      have hboth := hkeep op List.mem_cons_self hop m n h
      rw [List.filter_cons_of_pos hop]
      generalize hm : op.perform m = r, hn : op.perform n = q at hboth
      cases hboth with
      | error fault => rw [trace_of_error hm, trace_of_error hn]
      | ok ho => rw [trace_of_ok hm, trace_of_ok hn, hview _ _ ho, hrest ho]

end Gantry.Machine
