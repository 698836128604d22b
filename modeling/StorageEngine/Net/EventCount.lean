/-
  StorageEngine/Net/EventCount.lean
  =================================
  **The event that a full task queue is waited for with** (`net/util/synchronization.hpp`,
  class `EventCount`, with `WaitQueue`, `SpinLock` and the loop of `TaskQueue::Add`).

  A coroutine that waits is linked into a queue under a lock.  A notification takes the lock,
  unlinks a coroutine and resumes it: the coroutine goes on inside of that call, and the
  first thing that it does is to take the lock.  A thread that takes a lock which it holds is
  stuck.
-/
import Mathlib.Algebra.Order.Ring.Nat

namespace StorageEngine.Net

/-! ### The lock -/

/-- `SpinLock`. -/
structure SpinLock where
  lockword : UInt32 := 0
deriving DecidableEq

namespace SpinLock

def kLocked : UInt32 := 1

def Free (l : SpinLock) : Prop := l.lockword &&& kLocked = 0

instance (l : SpinLock) : Decidable l.Free := inferInstanceAs (Decidable (_ = _))

/-- `lock`, `none` when the thread that calls it never gets on. -/
def lock (l : SpinLock) : Option SpinLock := if l.Free then some { lockword := kLocked } else none

def unlock (_ : SpinLock) : SpinLock := { lockword := 0 }

theorem lock_of_not_free {l : SpinLock} (h : ¬ l.Free) : l.lock = none := if_neg h

/-- A lock that has been taken is not free. -/
theorem not_free_of_lock {l l' : SpinLock} (h : l.lock = some l') : ¬ l'.Free := by
  unfold lock at h
  split at h
  · cases h
    decide
  · cases h

end SpinLock

/-! ### The event -/

/-- A suspended coroutine: which one, and how often its `TryAdd` is still going to fail. -/
structure Waiter where
  coroutine : Nat
  fails : Nat
deriving DecidableEq, Repr

/-- `EventCount`: the upper half of `val_` is the epoch, the lower half counts the keys. -/
structure EventCount where
  val : UInt64 := 0
  lock : SpinLock := {}
  waitQueue : List Waiter := []
deriving DecidableEq

namespace EventCount

def kAddWaiter : UInt64 := 1

def kEpochShift : UInt64 := 32

def kAddEpoch : UInt64 := 1 <<< kEpochShift

def kWaiterMask : UInt64 := kAddEpoch - 1

/-- `prepareWait`, with the epoch of the key. -/
def prepareWait (s : EventCount) : UInt32 × EventCount :=
  ((s.val >>> kEpochShift).toUInt32, { s with val := s.val + kAddWaiter })

/-- The destructor of a key. -/
def dropKey (s : EventCount) : EventCount := { s with val := s.val - kAddWaiter }

def finishWait (s : EventCount) : Option EventCount := do
  let lock ← s.lock.lock
  return { s with lock := lock.unlock }

/-- `await_suspend`: whether the coroutine is suspended. -/
def awaitSuspend (s : EventCount) (w : Waiter) (epoch : UInt32) : Option (Bool × EventCount) := do
  let lock ← s.lock.lock
  if s.val >>> kEpochShift = epoch.toUInt64 then
    return (true, { s with waitQueue := s.waitQueue ++ [w], lock := lock.unlock })
  else
    return (false, { s with lock := lock.unlock })

/-- The loop of `Add` in a coroutine, until its `TryAdd` succeeds or it is suspended. -/
def addLoop (coroutine : Nat) : Nat → EventCount → Option EventCount
  | 0, s => some s.prepareWait.2.dropKey
  | fails + 1, s => do
    let (epoch, s) := s.prepareWait
    let (suspended, s) ← s.awaitSuspend ⟨coroutine, fails⟩ epoch
    if suspended then return s else addLoop coroutine fails s.dropKey

/-- `handler.resume()`: `await_resume` of an awaitable that was suspended, and the loop from
    there on. -/
def resume (w : Waiter) (s : EventCount) : Option EventCount := do
  let s ← s.finishWait
  addLoop w.coroutine w.fails s.dropKey

/-- What a notification returns, and the coroutines it has resumed, in order. -/
structure Notified where
  notified : Bool
  event : EventCount
  resumed : List Waiter
deriving DecidableEq

/-- `WaitQueue::NotifyOne`. -/
def notifyOne (s : EventCount) : Option Notified :=
  match s.waitQueue with
  | [] => some ⟨false, s, []⟩
  | w :: ws => do
    let s ← resume w { s with waitQueue := ws }
    return ⟨true, s, [w]⟩

/-- `WaitQueue::NotifyAll`: a coroutine that is linked again is met again, unless the iterator
    has come to the end before. -/
def notifyAllLoop : Nat → EventCount → Option Notified
  | 0, s => some ⟨false, s, []⟩
  | fuel + 1, s =>
    match s.waitQueue with
    | [] => some ⟨false, s, []⟩
    | w :: ws => do
      let s ← resume w { s with waitQueue := ws }
      if ws = [] then return ⟨true, s, [w]⟩
      else
        let r ← notifyAllLoop fuel s
        return ⟨true, r.event, w :: r.resumed⟩

/-- Every round uses up the resumption of a waiter, or one of its failures. -/
def notifyAllQueue (s : EventCount) : Option Notified :=
  notifyAllLoop (s.waitQueue.map fun w => w.fails + 1).sum s

/-- A function of the wait queue under a `std::unique_lock`. -/
def underLock (f : EventCount → Option Notified) (s : EventCount) : Option Notified := do
  let lock ← s.lock.lock
  let r ← f { s with lock := lock }
  return { r with event := { r.event with lock := r.event.lock.unlock } }

/-- `NotifyInternal`. -/
def notifyInternal (f : EventCount → Option Notified) (s : EventCount) : Option Notified :=
  let prev := s.val
  let s := { s with val := s.val + kAddEpoch }
  if prev &&& kWaiterMask ≠ 0 then underLock f s else some ⟨false, s, []⟩

def notify (s : EventCount) : Option Notified := notifyInternal notifyOne s

def notifyAll (s : EventCount) : Option Notified := notifyInternal notifyAllQueue s

/-! ### What notifications are for -/

/-- A notification that is not stuck: the waiters in `who` are resumed and unlinked, each once,
    what is linked behind them stays, and the lock is free afterwards. -/
def Completes (s : EventCount) (who : List Waiter) (r : Option Notified) : Prop :=
  ∃ n, r = some n ∧ n.resumed = who ∧ n.event.lock.Free ∧
    ∃ again, n.event.waitQueue = s.waitQueue.drop who.length ++ again

/-- `notify` resumes the first waiter. -/
def NotifyCompletes (s : EventCount) : Prop := Completes s (s.waitQueue.take 1) s.notify

/-- `notifyAll` resumes all of them, and perhaps those that wait again. -/
def NotifyAllCompletes (s : EventCount) : Prop :=
  ∃ again, Completes s (s.waitQueue ++ again) s.notifyAll

/-! ### Under the lock -/

variable {s : EventCount}

/-- Under the lock a coroutine that is resumed is stuck. -/
theorem resume_of_not_free (hlock : ¬ s.lock.Free) (w : Waiter) : resume w s = none := by
  unfold resume finishWait
  rw [SpinLock.lock_of_not_free hlock]
  rfl

theorem notifyOne_of_not_free (hlock : ¬ s.lock.Free) (hwait : s.waitQueue ≠ []) :
    s.notifyOne = none := by
  unfold notifyOne
  cases hqueue : s.waitQueue with
  | nil => exact absurd hqueue hwait
  | cons w ws =>
    dsimp only
    rw [resume_of_not_free (s := { s with waitQueue := ws }) hlock]
    rfl

theorem notifyAllQueue_of_not_free (hlock : ¬ s.lock.Free) (hwait : s.waitQueue ≠ []) :
    s.notifyAllQueue = none := by
  unfold notifyAllQueue
  cases hqueue : s.waitQueue with
  | nil => exact absurd hqueue hwait
  | cons w ws =>
    rw [List.map_cons, List.sum_cons, Nat.add_right_comm, notifyAllLoop, hqueue]
    dsimp only
    rw [resume_of_not_free (s := { s with waitQueue := ws }) hlock]
    rfl

theorem underLock_of_waiting {f : EventCount → Option Notified}
    (hf : ∀ t : EventCount, ¬ t.lock.Free → t.waitQueue ≠ [] → f t = none)
    (hwait : s.waitQueue ≠ []) : underLock f s = none := by
  unfold underLock
  cases hlock : s.lock.lock with
  | none => rfl
  | some l =>
    have hstuck := hf { s with lock := l } (SpinLock.not_free_of_lock hlock) hwait
    rw [Option.bind_eq_bind, Option.bind_some, hstuck]
    rfl

theorem underLock_of_empty {f : EventCount → Option Notified}
    (hf : ∀ t : EventCount, t.waitQueue = [] → f t = some ⟨false, t, []⟩)
    (hempty : s.waitQueue = []) (hfree : s.lock.Free) :
    underLock f s = some ⟨false, { s with lock := {} }, []⟩ := by
  have hlock : s.lock.lock = some { lockword := SpinLock.kLocked } := if_pos hfree
  have hdone := hf { s with lock := ⟨SpinLock.kLocked⟩ } hempty
  unfold underLock
  rw [hlock, Option.bind_eq_bind, Option.bind_some, hdone]
  rfl

/-- With a waiter in the queue, a notification is stuck, or finds the count of keys at zero and
    resumes nobody. -/
theorem notifyInternal_of_waiting {f : EventCount → Option Notified}
    (hf : ∀ t : EventCount, ¬ t.lock.Free → t.waitQueue ≠ [] → f t = none)
    (hwait : s.waitQueue ≠ []) :
    notifyInternal f s = none ∨ ∃ t, notifyInternal f s = some ⟨false, t, []⟩ := by
  unfold notifyInternal
  dsimp only
  split
  · apply Or.inl
    exact underLock_of_waiting hf hwait
  · exact Or.inr ⟨_, rfl⟩

/-- With nobody in the queue, it takes the lock and gives it back. -/
theorem notifyInternal_of_empty {f : EventCount → Option Notified}
    (hf : ∀ t : EventCount, t.waitQueue = [] → f t = some ⟨false, t, []⟩)
    (hempty : s.waitQueue = []) (hfree : s.lock.Free) :
    ∃ t, notifyInternal f s = some ⟨false, t, []⟩ ∧ t.lock.Free ∧ t.waitQueue = [] := by
  unfold notifyInternal
  dsimp only
  split
  · exact ⟨_, underLock_of_empty hf hempty hfree, show SpinLock.Free {} by decide, hempty⟩
  · exact ⟨_, rfl, hfree, hempty⟩

theorem not_completes_of_waiting {f : EventCount → Option Notified}
    (hf : ∀ t : EventCount, ¬ t.lock.Free → t.waitQueue ≠ [] → f t = none)
    (hwait : s.waitQueue ≠ []) {who : List Waiter} (hwho : who ≠ []) :
    ¬ Completes s who (notifyInternal f s) := by
  rintro ⟨n, hn, hresumed, -⟩
  rcases notifyInternal_of_waiting hf hwait with hstuck | ⟨t, ht⟩
  · rw [hstuck] at hn
    cases hn
  · rw [ht] at hn
    cases hn
    exact hwho hresumed.symm

theorem completes_of_empty {f : EventCount → Option Notified}
    (hf : ∀ t : EventCount, t.waitQueue = [] → f t = some ⟨false, t, []⟩)
    (hempty : s.waitQueue = []) (hfree : s.lock.Free) : Completes s [] (notifyInternal f s) := by
  obtain ⟨t, ht, hlock, hqueue⟩ := notifyInternal_of_empty hf hempty hfree
  refine ⟨_, ht, rfl, hlock, [], ?_⟩
  show t.waitQueue = _
  rw [hqueue, hempty]
  rfl

/-- **Notifications** complete exactly when nobody waits. -/
theorem completes_iff (hfree : s.lock.Free) :
    (s.NotifyCompletes ↔ s.waitQueue = []) ∧ (s.NotifyAllCompletes ↔ s.waitQueue = []) := by
  constructor
  · constructor
    · intro hcompletes
      by_contra hwait
      have hfirst : s.waitQueue.take 1 ≠ [] := by
        intro hnil
        rcases List.take_eq_nil_iff.mp hnil with h | h
        · cases h
        · exact hwait h
      exact not_completes_of_waiting (fun _ => notifyOne_of_not_free) hwait hfirst hcompletes
    · intro hempty
      unfold NotifyCompletes
      rw [hempty]
      apply completes_of_empty ?_ hempty hfree
      intro t ht
      unfold notifyOne
      rw [ht]
  · constructor
    · rintro ⟨again, hcompletes⟩
      by_contra hwait
      have hall : s.waitQueue ++ again ≠ [] := by
        intro hnil
        exact hwait (List.append_eq_nil_iff.mp hnil).1
      exact not_completes_of_waiting (fun _ => notifyAllQueue_of_not_free) hwait hall hcompletes
    · intro hempty
      refine ⟨[], ?_⟩
      rw [hempty]
      apply completes_of_empty ?_ hempty hfree
      intro t ht
      unfold notifyAllQueue
      rw [ht]
      rfl

/-- An event that nobody waits for. -/
theorem completes_start : (EventCount.NotifyCompletes {} ↔ ([] : List Waiter) = []) ∧
    (EventCount.NotifyAllCompletes {} ↔ ([] : List Waiter) = []) :=
  completes_iff (show SpinLock.Free {} by decide)

/-- One coroutine waits: it is stuck in the notification, and with it the notifier. -/
theorem not_completes_waiter :
    (addLoop 7 1 {}).map (fun s => (s.lock.lockword, s.waitQueue)) = some (0, [⟨7, 0⟩]) ∧
    (addLoop 7 1 {}).map (fun s => (s.notify, s.notifyAll)) = some (none, none) ∧
    ∀ s, addLoop 7 1 {} = some s → ¬ s.NotifyCompletes ∧ ¬ s.NotifyAllCompletes := by
  refine ⟨by decide, by decide, ?_⟩
  intro s hs
  have hstuck : (addLoop 7 1 {}).map (fun s => (s.notify, s.notifyAll)) = some (none, none) := by
    decide
  rw [hs] at hstuck
  obtain ⟨hnotify, hnotifyAll⟩ := Prod.mk.inj (Option.some.inj hstuck)
  constructor
  · rintro ⟨n, hn, -⟩
    rw [hnotify] at hn
    cases hn
  · rintro ⟨again, n, hn, -⟩
    rw [hnotifyAll] at hn
    cases hn

end EventCount

end StorageEngine.Net
