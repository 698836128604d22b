/-
  StorageEngine/FifoQueue.lean
  ============================
  **A queue.**

  What is pushed goes to the end, what is popped comes from the front, and a queue may have a
  capacity.  A history of pushes, pops and answers is possible if it is a run of the queue;
  what is popped in such a history is what was pushed, in its order, but for what is left.
-/
import StorageEngine.StepMachine

namespace StorageEngine

open StepMachine

/-- Something that happens to a queue, or that somebody is told about it. -/
inductive FifoEvent (T : Type*) where
  | push (t : T)
  | pop (t : T)
  | front (t : T)
  | isEmpty (answer : Bool)
  | isFull (answer : Bool)
  | size (n : Nat)
deriving DecidableEq, Repr

namespace FifoQueue

variable {T : Type*} [DecidableEq T]

def step (capacity : Option Nat) (queue : List T) : FifoEvent T → Option (List T)
  | .push t => if ∀ n ∈ capacity, queue.length < n then some (queue ++ [t]) else none
  | .pop t => if queue.head? = some t then some queue.tail else none
  | .front t => if queue.head? = some t then some queue else none
  | .isEmpty answer => if decide (queue = []) = answer then some queue else none
  | .isFull answer => if decide (capacity = some queue.length) = answer then some queue else none
  | .size n => if queue.length = n then some queue else none

def pushed : FifoEvent T → Option T
  | .push t => some t
  | _ => none

def popped : FifoEvent T → Option T
  | .pop t => some t
  | _ => none

/-- The events lead to the queue. -/
def Leads (capacity : Option Nat) (events : List (FifoEvent T)) (queue : List T) : Prop :=
  run (step capacity) [] events = some queue

variable {capacity : Option Nat} {events : List (FifoEvent T)} {queue queue' : List T}
    {e : FifoEvent T} {t : T}

theorem leads_nil : Leads capacity ([] : List (FifoEvent T)) [] := rfl

theorem Leads.snoc (h : Leads capacity events queue) (hstep : step capacity queue e = some queue') :
    Leads capacity (events ++ [e]) queue' := by
  refine run_append_eq_some.mpr ⟨queue, h, run_cons_eq_some.mpr ⟨queue', hstep, rfl⟩⟩

/-- The one queue that the events lead to. -/
theorem Leads.unique (h : Leads capacity events queue) (h' : Leads capacity events queue') :
    queue = queue' :=
  Option.some.inj (h.symm.trans h')

theorem Leads.push (h : Leads capacity events queue) (hroom : ∀ n ∈ capacity, queue.length < n) :
    Leads capacity (events ++ [.push t]) (queue ++ [t]) :=
  h.snoc (if_pos hroom)

theorem Leads.pop (h : Leads capacity events (t :: queue)) :
    Leads capacity (events ++ [.pop t]) queue :=
  h.snoc (if_pos rfl)

theorem Leads.front (h : Leads capacity events (t :: queue)) :
    Leads capacity (events ++ [.front t]) (t :: queue) :=
  h.snoc (if_pos rfl)

theorem Leads.isEmpty (h : Leads capacity events queue) {answer : Bool}
    (hanswer : answer = true ↔ queue = []) :
    Leads capacity (events ++ [.isEmpty answer]) queue := by
  refine h.snoc (if_pos ?_)
  rw [Bool.eq_iff_iff, decide_eq_true_iff]
  exact hanswer.symm

theorem Leads.isFull (h : Leads capacity events queue) {answer : Bool}
    (hanswer : answer = true ↔ capacity = some queue.length) :
    Leads capacity (events ++ [.isFull answer]) queue := by
  refine h.snoc (if_pos ?_)
  rw [Bool.eq_iff_iff, decide_eq_true_iff]
  exact hanswer.symm

theorem Leads.size (h : Leads capacity events queue) :
    Leads capacity (events ++ [.size queue.length]) queue :=
  h.snoc (if_pos rfl)

/-- One event of a queue, in the history of what was pushed and popped. -/
theorem order_step (hstep : step capacity queue e = some queue') :
    queue ++ [e].filterMap pushed = [e].filterMap popped ++ queue' ∧
      ((∀ n ∈ capacity, queue.length ≤ n) → ∀ n ∈ capacity, queue'.length ≤ n) := by
  cases e with
  | push t =>
    rw [step] at hstep
    split at hstep
    · rename_i hroom
      obtain rfl := Option.some.inj hstep
      refine ⟨rfl, fun _ n hn => ?_⟩
      rw [List.length_append, List.length_singleton]
      exact hroom n hn
    · cases hstep
  | pop t =>
    rw [step] at hstep
    split at hstep
    · rename_i hhead
      obtain rfl := Option.some.inj hstep
      obtain ⟨rest, rfl⟩ := List.head?_eq_some_iff.mp hhead
      refine ⟨List.append_nil _, fun hle n hn => ?_⟩
      exact Nat.le_of_succ_le (hle n hn)
    · cases hstep
  | front | isEmpty | isFull | size =>
    rw [step] at hstep
    split at hstep
    · obtain rfl := Option.some.inj hstep
      exact ⟨List.append_nil _, id⟩
    · cases hstep

/-- **What is popped is what was pushed**, in its order, but for what is left; and there is never
    more in the queue than its capacity. -/
theorem Leads.order (h : Leads capacity events queue) :
    events.filterMap pushed = events.filterMap popped ++ queue ∧
    ∀ n ∈ capacity, queue.length ≤ n := by
  suffices hrest : ∀ (rest : List (FifoEvent T)) (start : List T), run (step capacity) start rest =
      some queue →
      start ++ rest.filterMap pushed = rest.filterMap popped ++ queue ∧
        ((∀ n ∈ capacity, start.length ≤ n) → ∀ n ∈ capacity, queue.length ≤ n) by
    obtain ⟨horder, hlength⟩ := hrest events [] h
    exact ⟨horder, hlength fun n _ => Nat.zero_le n⟩
  intro rest
  induction rest with
  | nil =>
    intro start hend
    obtain rfl := Option.some.inj hend
    exact ⟨List.append_nil _, id⟩
  | cons e rest ih =>
    intro start hend
    obtain ⟨next, hstep, htail⟩ := run_cons_eq_some.mp hend
    obtain ⟨hfirst, hkeeps⟩ := order_step hstep
    obtain ⟨horder, hlength⟩ := ih next htail
    refine ⟨?_, fun hle => hlength (hkeeps hle)⟩
    rw [← List.singleton_append, List.filterMap_append, List.filterMap_append,
      ← List.append_assoc, hfirst, List.append_assoc, horder, List.append_assoc]

/-- What is in the queue is what was pushed more often than it was popped. -/
theorem Leads.notMem_iff (h : Leads capacity events queue) :
    t ∉ queue ↔ (events.filterMap pushed).count t = (events.filterMap popped).count t := by
  rw [h.order.1, List.count_append, Nat.add_eq_left, List.count_eq_zero]

end FifoQueue

end StorageEngine
