/-
  StorageEngine/FifoLock.lean
  ===========================
  **A fair lock.**

  A lock is free, or somebody owns it and the others queue.  Whoever comes to a free lock owns
  it; whoever comes to one that is owned is queued; and an owner who leaves passes the lock on
  to the first of the queue.  The lock is granted in the order in which it was requested.
-/
import StorageEngine.StepMachine

namespace StorageEngine

open StepMachine

structure FifoLock (C : Type*) where
  owner : Option C
  queue : List C

inductive LockEvent (C : Type*) where
  | acquire (c : C)
  | enqueue (c : C)
  | release (c : C)
  | pass (c d : C)
deriving DecidableEq, Repr

namespace FifoLock

variable {C : Type*} [DecidableEq C]

def free : FifoLock C := ⟨none, []⟩

def step (l : FifoLock C) : LockEvent C → Option (FifoLock C)
  | .acquire c => if l.owner = none then some { l with owner := some c } else none
  | .enqueue c => if l.owner = none then none else some { l with queue := l.queue ++ [c] }
  | .release c => if l.owner = some c ∧ l.queue = [] then some { l with owner := none } else none
  | .pass c d =>
    match l.queue with
    | [] => none
    | first :: queue => if l.owner = some c ∧ first = d then some ⟨some d, queue⟩ else none

/-- Who came for the lock, in order. -/
def request : LockEvent C → Option C
  | .acquire c | .enqueue c => some c
  | .release _ | .pass _ _ => none

/-- Who got it, in order. -/
def grant : LockEvent C → Option C
  | .acquire c => some c
  | .pass _ d => some d
  | .enqueue _ | .release _ => none

/-- The events lead to a lock that nobody waits for in vain, and that was granted to those who
    came, in their order, but for those who queue. -/
structure Fair (events : List (LockEvent C)) (l : FifoLock C) : Prop where
  order : events.filterMap request = events.filterMap grant ++ l.queue
  queue : l.owner = none → l.queue = []
  owner : ∀ c, l.owner = some c → (events.filterMap grant).getLast? = some c

theorem Fair.step {events : List (LockEvent C)} {l l' : FifoLock C} {e : LockEvent C}
    (h : Fair events l) (hstep : l.step e = some l') : Fair (events ++ [e]) l' := by
  have horder := h.order
  cases e with
  | acquire c =>
    rw [FifoLock.step] at hstep
    split at hstep
    · rename_i hfree
      obtain rfl := Option.some.inj hstep
      rw [h.queue hfree] at horder
      refine ⟨?_, nofun, ?_⟩
      · simp [request, grant, horder, h.queue hfree]
      · rintro c' ⟨⟩
        simp [grant]
    · cases hstep
  | enqueue c =>
    rw [FifoLock.step] at hstep
    split at hstep
    · cases hstep
    · rename_i howned
      obtain rfl := Option.some.inj hstep
      refine ⟨?_, fun hfree => absurd hfree howned, ?_⟩
      · simp [request, grant, horder]
      · intro c' hc'
        simpa [grant] using h.owner c' hc'
  | release c =>
    rw [FifoLock.step] at hstep
    split at hstep
    · rename_i hready
      obtain rfl := Option.some.inj hstep
      refine ⟨?_, fun _ => hready.2, nofun⟩
      dsimp only
      rw [hready.2, List.append_nil] at horder ⊢
      rw [List.filterMap_append, List.filterMap_append, horder]
      rfl
    · cases hstep
  | pass c d =>
    rw [FifoLock.step] at hstep
    split at hstep
    · cases hstep
    · rename_i first queue hqueue
      split at hstep
      · rename_i hready
        obtain ⟨-, rfl⟩ := hready
        obtain rfl := Option.some.inj hstep
        refine ⟨?_, nofun, ?_⟩
        · simp [request, grant, horder, hqueue]
        · rintro c' ⟨⟩
          simp [grant]
      · cases hstep

/-- **The lock is fair**: after every run it has been granted in the order of the requests. -/
theorem fair_of_run {events : List (LockEvent C)} {l : FifoLock C}
    (hrun : run FifoLock.step free events = some l) :
    Fair events l := by
  suffices hrest : ∀ (rest before : List (LockEvent C)) (m : FifoLock C), Fair before m →
      run FifoLock.step m rest = some l → Fair (before ++ rest) l from
    hrest events [] free ⟨rfl, fun _ => rfl, nofun⟩ hrun
  intro rest
  induction rest with
  | nil =>
    intro before m hm hend
    obtain rfl := Option.some.inj hend
    rw [List.append_nil]
    exact hm
  | cons e rest ih =>
    intro before m hm hend
    obtain ⟨m', hstep, htail⟩ := run_cons_eq_some.mp hend
    have hfair := ih (before ++ [e]) m' (hm.step hstep) htail
    rw [List.append_assoc] at hfair
    exact hfair

end FifoLock

end StorageEngine
