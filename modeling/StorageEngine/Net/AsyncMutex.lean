/-
  StorageEngine/Net/AsyncMutex.lean
  =================================
  **The mutex of coroutines** (`net/cppcoro/async_mutex.cpp`, behind `util::Mutex`).

  One word says that the mutex is free, that it is locked, or which operation was the last to
  queue; each operation has a link to the one before it.  Whoever unlocks takes the whole
  stack with one exchange, turns it over into a list of its own, and hands the mutex to the
  first; the next unlocks use up the list.  Every access to the word is a step of its own, and
  so is every link that is turned.
-/
import StorageEngine.LinkedChain
import StorageEngine.FifoLock

namespace StorageEngine.Net

open StorageEngine.StepMachine StorageEngine.LinkedChain

/-- `m_state`.  An operation is the coroutine that awaits it. -/
inductive LockWord (C : Type) where
  | notLocked
  | lockedNoWaiters
  | waiter (op : C)
deriving DecidableEq, Repr

/-- The word as a pointer. -/
def LockWord.pointer {C : Type} : LockWord C → Option C
  | waiter op => some op
  | _ => none

/-- Where a coroutine stands. -/
inductive MutexPc (C : Type) where
  | outside
  /-- `await_suspend`, with `oldState`; then with `m_next` written. -/
  | loaded (old : LockWord C)
  | linked (old : LockWord C)
  | suspended
  | holding
  /-- `unlock`, without waiters: before its exchange to `not_locked`, and before its exchange to
      `locked_no_waiters`. -/
  | releasing
  | exchanging
  /-- At the head of the loop, with `waitersHead` and `next`. -/
  | reversing (head : Option C) (next : C)
  /-- With the waiter to be resumed. -/
  | handing (head : C)
deriving DecidableEq, Repr

/-- The coroutine has the mutex. -/
def MutexPc.owns {C : Type} : MutexPc C → Prop
  | holding | releasing | exchanging | reversing _ _ | handing _ => True
  | _ => False

/-- The mutex, its operations and its coroutines.  `fault` says that an assertion has failed, or
    that a coroutine was resumed that is not suspended; `events` records what the accesses to the
    word have decided. -/
structure AsyncMutex (C : Type) where
  state : LockWord C
  waiters : Option C
  next : C → Option C
  pc : C → MutexPc C
  fault : Bool
  events : List (LockEvent C)

inductive MutexAction (C : Type) where
  | lockAsync (c : C)
  | tryLock (c : C)
  | unlock (c : C)
  /-- The next step of a coroutine; a weak exchange succeeds only if it is not disturbed. -/
  | next (c : C) (undisturbed : Bool)

namespace AsyncMutex

variable {C : Type} [DecidableEq C]

def new : AsyncMutex C := ⟨.notLocked, none, fun _ => none, fun _ => .outside, false, []⟩

def goto (s : AsyncMutex C) (c : C) (pc : MutexPc C) : AsyncMutex C :=
  { s with pc := Function.update s.pc c pc }

def failed (s : AsyncMutex C) : AsyncMutex C := { s with fault := true }

/-- The word is exchanged from `not_locked`. -/
def acquire (s : AsyncMutex C) (c : C) : AsyncMutex C :=
  { s with state := .lockedNoWaiters, events := s.events ++ [.acquire c] }

/-- `m_next` is written. -/
def link (s : AsyncMutex C) (c : C) (pointer : Option C) : AsyncMutex C :=
  { s with next := Function.update s.next c pointer }

/-- The word is exchanged to the operation. -/
def push (s : AsyncMutex C) (c : C) : AsyncMutex C :=
  { s with state := .waiter c, events := s.events ++ [.enqueue c] }

/-- The word is exchanged to `not_locked`. -/
def release (s : AsyncMutex C) (c : C) : AsyncMutex C :=
  { s with state := .notLocked, events := s.events ++ [.release c] }

/-- The first waiter is taken off the list and gets the mutex. -/
def pass (s : AsyncMutex C) (c head : C) : AsyncMutex C :=
  { s with waiters := s.next head, events := s.events ++ [.pass c head] }

/-- The next step of a coroutine. -/
def advance (s : AsyncMutex C) (c : C) (undisturbed : Bool) : Option (AsyncMutex C) :=
  match s.pc c with
  | .outside | .suspended | .holding => none
  | .loaded old =>
    if old = .notLocked then
      if s.state = .notLocked ∧ undisturbed then some ((s.acquire c).goto c .holding)
      else some (s.goto c (.loaded s.state))
    else some ((s.link c old.pointer).goto c (.linked old))
  | .linked old =>
    if s.state = old ∧ undisturbed then some ((s.push c).goto c .suspended)
    else some (s.goto c (.loaded s.state))
  | .releasing =>
    if s.state = .lockedNoWaiters then some ((s.release c).goto c .outside)
    else some (s.goto c .exchanging)
  | .exchanging =>
    match s.state with
    | .waiter op => some ({ s with state := .lockedNoWaiters }.goto c (.reversing none op))
    | _ => some s.failed
  | .reversing head op =>
    match s.next op with
    | some temp => some ((s.link op head).goto c (.reversing (some op) temp))
    | none => some ((s.link op head).goto c (.handing op))
  | .handing head =>
    if s.pc head = .suspended then some (((s.pass c head).goto c .outside).goto head .holding)
    else some s.failed

def step (s : AsyncMutex C) : MutexAction C → Option (AsyncMutex C)
  | .lockAsync c => if s.pc c = .outside then some (s.goto c (.loaded s.state)) else none
  | .tryLock c =>
    if s.pc c = .outside then
      if s.state = .notLocked then some ((s.acquire c).goto c .holding) else some s
    else none
  | .unlock c =>
    if s.pc c = .holding then
      if s.state = .notLocked then some s.failed
      else
        match s.waiters with
        | none => some (s.goto c .releasing)
        | some head => some (s.goto c (.handing head))
    else none
  | .next c undisturbed => s.advance c undisturbed

/-! ### The word, the list and the links -/

/-- The list that whoever has the mutex works on, with the waiters that came before the stack of
    the word. -/
def Works (next : C → Option C) (waiters : Option C) : MutexPc C → List C → Prop
  | .holding, ws => Chain next waiters ws
  | .releasing, ws | .exchanging, ws => waiters = none ∧ ws = []
  | .reversing head op, ws =>
    waiters = none ∧ ∃ done rest, ws = rest.reverse ++ done ∧ Chain next head done ∧
    Chain next (some op) rest
  | .handing head, ws => Chain next (some head) ws
  | _, _ => True

/-- What a coroutine knows that does not have the mutex. -/
def Linked (next : C → Option C) (c : C) : MutexPc C → Prop
  | .linked old => old ≠ .notLocked ∧ next c = old.pointer
  | _ => True

/-- The mutex is the fair lock: its owner has the mutex, and the queue is the list of waiters and
    behind it the stack of the word, from its end. -/
structure Shows (s : AsyncMutex C) (l : FifoLock C) (ws stack : List C) : Prop where
  queue : l.queue = ws ++ stack.reverse
  nodup : l.queue.Nodup
  suspended : ∀ c, s.pc c = .suspended ↔ c ∈ l.queue
  owner : ∀ c, (s.pc c).owns ↔ l.owner = some c
  locked : s.state = .notLocked ↔ l.owner = none
  stack : Chain s.next s.state.pointer stack
  works : ∀ c, Works s.next s.waiters (s.pc c) ws
  free : l.owner = none → s.waiters = none ∧ ws = []
  pushed : ∀ c, s.pc c = .exchanging → ∃ op, s.state = .waiter op
  linked : ∀ c, Linked s.next c (s.pc c)
  asserts : s.fault = false

/-- The events so far lead to the lock that the mutex shows. -/
def Inv (s : AsyncMutex C) : Prop :=
  ∃ l ws stack, run FifoLock.step FifoLock.free s.events = some l ∧ s.Shows l ws stack

variable {s : AsyncMutex C} {l : FifoLock C} {ws stack : List C} {c : C}

theorem inv_new : (new : AsyncMutex C).Inv := by
  refine ⟨FifoLock.free, [], [], rfl,
    ⟨rfl, List.nodup_nil, ?_, ?_, ?_, rfl, ?_, ?_, nofun, ?_, rfl⟩⟩
  · exact fun c => iff_of_false nofun List.not_mem_nil
  · exact fun c => iff_of_false id nofun
  · exact iff_of_true rfl rfl
  · exact fun c => trivial
  · exact fun _ => ⟨rfl, rfl⟩
  · exact fun c => trivial

section Goto

variable {pc : MutexPc C} {P : MutexPc C → Prop}

/-- What holds of the place of every coroutine. -/
theorem goto_iff {Q : C → Prop} (h : ∀ c', P (s.pc c') ↔ Q c') (hc : P pc ↔ Q c) (c' : C) :
    P ((s.goto c pc).pc c') ↔ Q c' := by
  unfold goto
  dsimp only
  by_cases heq : c' = c
  · rw [heq, Function.update_self]
    exact hc
  · rw [Function.update_of_ne heq]
    exact h c'

theorem goto_forall {Q : C → MutexPc C → Prop} (h : ∀ c', Q c' (s.pc c')) (hc : Q c pc) (c' : C) :
    Q c' ((s.goto c pc).pc c') := by
  unfold goto
  dsimp only
  by_cases heq : c' = c
  · rw [heq, Function.update_self]
    exact hc
  · rw [Function.update_of_ne heq]
    exact h c'

end Goto

omit [DecidableEq C] in
/-- Two coroutines that have the mutex are one. -/
theorem Shows.one (h : s.Shows l ws stack) {c' : C} (hc : (s.pc c).owns) (hc' : (s.pc c').owns) :
    c' = c := by
  have howner := (h.owner c).mp hc
  rw [(h.owner c').mp hc'] at howner
  exact Option.some.inj howner

omit [DecidableEq C] in
/-- Only who has the mutex works on the list. -/
theorem works_of_not_owns {next : C → Option C} {waiters : Option C} {pc : MutexPc C}
    (hpc : ¬ pc.owns) (ws : List C) : Works next waiters pc ws := by
  cases pc with
  | outside | loaded | linked | suspended => trivial
  | holding | releasing | exchanging | reversing | handing => exact absurd trivial hpc

theorem Works.frame {next : C → Option C} {waiters : Option C} {pc : MutexPc C}
    (h : Works next waiters pc ws) (hc : c ∉ ws)
    (link : Option C) : Works (Function.update next c link) waiters pc ws := by
  cases pc with
  | holding => exact Chain.frame h hc link
  | handing head => exact Chain.frame h hc link
  | reversing head op =>
    obtain ⟨hwaiters, done, rest, rfl, hdone, hrest⟩ := h
    rw [List.mem_append, List.mem_reverse, not_or] at hc
    exact ⟨hwaiters, done, rest, rfl, hdone.frame hc.2 link, hrest.frame hc.1 link⟩
  | outside | loaded | linked | suspended | releasing | exchanging => exact h

/-- A coroutine goes on, without getting the mutex or leaving it. -/
theorem Shows.goto {pc : MutexPc C} (h : s.Shows l ws stack)
    (hsuspended : pc = .suspended ↔ s.pc c = .suspended) (howns : pc.owns ↔ (s.pc c).owns)
    (hworks : Works s.next s.waiters pc ws)
    (hpushed : pc = .exchanging → ∃ op, s.state = .waiter op) (hlinked : Linked s.next c pc) :
    (s.goto c pc).Shows l ws stack where
  queue := h.queue
  nodup := h.nodup
  suspended :=
    goto_iff (P := fun pc => pc = .suspended) h.suspended (hsuspended.trans (h.suspended c))
  owner := goto_iff (P := MutexPc.owns) h.owner (howns.trans (h.owner c))
  locked := h.locked
  stack := h.stack
  works := goto_forall (Q := fun _ pc => Works s.next s.waiters pc ws) h.works hworks
  free := h.free
  pushed :=
    goto_forall (Q := fun _ pc => pc = .exchanging → ∃ op, s.state = .waiter op) h.pushed hpushed
  linked := goto_forall (Q := fun c pc => Linked s.next c pc) h.linked hlinked
  asserts := h.asserts

/-- A coroutine that is not queued writes its own link. -/
theorem Shows.link (h : s.Shows l ws stack) (hqueue : c ∉ l.queue)
    (hpc : ∀ old, s.pc c ≠ .linked old)
    (pointer : Option C) : (s.link c pointer).Shows l ws stack := by
  have hsplit := hqueue
  rw [h.queue, List.mem_append, List.mem_reverse, not_or] at hsplit
  refine ⟨h.queue, h.nodup, h.suspended, h.owner, h.locked, h.stack.frame hsplit.2 pointer,
    fun c' => (h.works c').frame hsplit.1 pointer, h.free, h.pushed, ?_, h.asserts⟩
  intro c'
  have hlinked := h.linked c'
  change Linked (Function.update s.next c pointer) c' (s.pc c')
  cases hat : s.pc c' with
  | linked old =>
    have hne : c' ≠ c := by
      rintro rfl
      exact hpc old hat
    rw [hat] at hlinked
    refine ⟨hlinked.1, ?_⟩
    rw [Function.update_of_ne hne]
    exact hlinked.2
  | outside | loaded | suspended | holding | releasing | exchanging | reversing | handing => trivial

theorem Shows.acquire (h : s.Shows l ws stack) (hfree : s.state = .notLocked)
    (hqueue : c ∉ l.queue) :
    ((s.acquire c).goto c .holding).Shows { l with owner := some c } ws stack := by
  have hnone := h.locked.mp hfree
  obtain ⟨hwaiters, hws⟩ := h.free hnone
  have hothers : ∀ c', ¬ (s.pc c').owns := by
    intro c' howns
    rw [(h.owner c').mp howns] at hnone
    cases hnone
  refine ⟨h.queue, h.nodup, ?_, ?_, iff_of_false nofun nofun, ?_, ?_, nofun, ?_, ?_, h.asserts⟩
  · exact goto_iff (P := fun pc => pc = .suspended) h.suspended (iff_of_false nofun hqueue)
  · intro c'
    unfold AsyncMutex.goto
    dsimp only
    by_cases heq : c' = c
    · rw [heq, Function.update_self]
      exact iff_of_true trivial rfl
    · rw [Function.update_of_ne heq]
      exact iff_of_false (hothers c') fun howner => heq (Option.some.inj howner).symm
  · have hstack := h.stack
    rw [hfree] at hstack
    exact hstack
  · refine goto_forall (s := s.acquire c) (Q := fun _ pc => Works s.next s.waiters pc ws) h.works ?_
    rw [hwaiters, hws]
    exact rfl
  · refine goto_forall (s := s.acquire c)
      (Q := fun _ pc => pc = .exchanging → ∃ op, (s.acquire c).state = .waiter op) ?_ nofun
    intro c' hpc
    exact absurd (show (s.pc c').owns from hpc ▸ trivial) (hothers c')
  · exact goto_forall (s := s.acquire c) (Q := fun c pc => Linked s.next c pc) h.linked trivial

theorem Shows.push {old : LockWord C} (h : s.Shows l ws stack) (hpc : s.pc c = .linked old)
    (hstate : s.state = old) :
    ((s.push c).goto c .suspended).Shows { l with queue := l.queue ++ [c] } ws (c :: stack) := by
  have hlinked := h.linked c
  rw [hpc] at hlinked
  have hqueue : c ∉ l.queue := by
    rw [← h.suspended c, hpc]
    nofun
  have hlocked : l.owner ≠ none := by
    rw [Ne, ← h.locked, hstate]
    exact hlinked.1
  refine ⟨?_, ?_, ?_, ?_, iff_of_false nofun hlocked, ?_, ?_, h.free, ?_, ?_, h.asserts⟩
  · dsimp only
    rw [h.queue, List.reverse_cons, List.append_assoc]
  · rw [List.nodup_append]
    refine ⟨h.nodup, List.nodup_singleton c, ?_⟩
    rintro a ha b hb rfl
    exact hqueue (List.mem_singleton.mp hb ▸ ha)
  · intro c'
    unfold AsyncMutex.goto
    dsimp only
    rw [List.mem_append, List.mem_singleton]
    by_cases heq : c' = c
    · rw [heq, Function.update_self]
      exact iff_of_true rfl (Or.inr rfl)
    · rw [Function.update_of_ne heq, or_iff_left heq]
      exact h.suspended c'
  · refine goto_iff (s := s.push c) (P := MutexPc.owns) h.owner (iff_of_false id ?_)
    rw [← h.owner c, hpc]
    exact id
  · refine ⟨rfl, ?_⟩
    change Chain s.next (s.next c) stack
    rw [hlinked.2, ← hstate]
    exact h.stack
  · exact goto_forall (s := s.push c) (Q := fun _ pc => Works s.next s.waiters pc ws)
      h.works trivial
  · exact fun _ _ => ⟨c, rfl⟩
  · exact goto_forall (s := s.push c) (Q := fun c pc => Linked s.next c pc) h.linked trivial

omit [DecidableEq C] in
/-- What is left without waiters is a queue without anybody. -/
theorem Shows.queue_nil (h : s.Shows l ws stack) (hpc : s.pc c = .releasing)
    (hstate : s.state = .lockedNoWaiters) : l.queue = [] := by
  have hworks := h.works c
  rw [hpc] at hworks
  have hstack := h.stack
  rw [hstate] at hstack
  rw [h.queue, hworks.2, chain_none.mp hstack]
  rfl

theorem Shows.release (h : s.Shows l ws stack) (hpc : s.pc c = .releasing)
    (hstate : s.state = .lockedNoWaiters) :
    ((s.release c).goto c .outside).Shows { l with owner := none } ws stack := by
  have howns : (s.pc c).owns := by
    rw [hpc]
    trivial
  have hworks := h.works c
  rw [hpc] at hworks
  refine ⟨h.queue, h.nodup, ?_, ?_, iff_of_true rfl rfl, ?_, ?_, fun _ => hworks, ?_, ?_, h.asserts⟩
  · refine goto_iff (s := s.release c) (P := fun pc => pc = .suspended) h.suspended
      (iff_of_false nofun ?_)
    rw [h.queue_nil hpc hstate]
    exact List.not_mem_nil
  · intro c'
    refine iff_of_false ?_ nofun
    unfold AsyncMutex.goto
    dsimp only
    by_cases heq : c' = c
    · rw [heq, Function.update_self]
      exact id
    · rw [Function.update_of_ne heq]
      exact fun hc' => heq (h.one howns hc')
  · have hstack := h.stack
    rw [hstate] at hstack
    exact hstack
  · exact goto_forall (s := s.release c) (Q := fun _ pc => Works s.next s.waiters pc ws)
      h.works trivial
  · refine goto_forall (s := s.release c)
      (Q := fun _ pc => pc = .exchanging → ∃ op, (s.release c).state = .waiter op) ?_ nofun
    intro c' hc'
    have hsame := h.one howns (show (s.pc c').owns from hc' ▸ trivial)
    rw [hsame] at hc'
    rw [show (s.release c).pc = s.pc from rfl, hpc] at hc'
    cases hc'
  · exact goto_forall (s := s.release c) (Q := fun c pc => Linked s.next c pc) h.linked trivial

/-- The whole stack is taken. -/
theorem Shows.exchange {op : C} (h : s.Shows l ws stack) (hpc : s.pc c = .exchanging)
    (hstate : s.state = .waiter op) :
    ({ s with state := .lockedNoWaiters }.goto c (.reversing none op) : AsyncMutex C).Shows l
      stack.reverse [] := by
  have howns : (s.pc c).owns := by
    rw [hpc]
    trivial
  have howner := (h.owner c).mp howns
  have hworks := h.works c
  rw [hpc] at hworks
  have hstack := h.stack
  rw [hstate] at hstack
  refine ⟨?_, h.nodup, ?_, ?_, iff_of_false nofun ?_, rfl, ?_, ?_, ?_, ?_, h.asserts⟩
  · rw [h.queue, hworks.2]
    simp
  · refine goto_iff (P := fun pc => pc = .suspended) h.suspended (iff_of_false nofun ?_)
    rw [← h.suspended c, hpc]
    nofun
  · exact goto_iff (P := MutexPc.owns) h.owner (iff_of_true trivial howner)
  · rw [howner]
    nofun
  · intro c'
    by_cases heq : c' = c
    · rw [heq]
      unfold AsyncMutex.goto
      dsimp only
      rw [Function.update_self]
      exact ⟨hworks.1, [], stack, (List.append_nil _).symm, rfl, hstack⟩
    · unfold AsyncMutex.goto
      dsimp only
      rw [Function.update_of_ne heq]
      exact works_of_not_owns (fun hc' => heq (h.one howns hc')) _
  · intro hnone
    change l.owner = none at hnone
    rw [howner] at hnone
    cases hnone
  · intro c' hc'
    unfold AsyncMutex.goto at hc'
    dsimp only at hc'
    by_cases heq : c' = c
    · rw [heq, Function.update_self] at hc'
      cases hc'
    · rw [Function.update_of_ne heq] at hc'
      exact absurd (h.one howns (show (s.pc c').owns from hc' ▸ trivial)) heq
  · exact goto_forall (Q := fun c pc => Linked s.next c pc) h.linked trivial

/-- A link of the list is written by who has the mutex. -/
theorem Shows.relink {head : Option C} {op : C} {pc : MutexPc C} (h : s.Shows l ws stack)
    (hown : (s.pc c).owns) (hop : op ∈ ws) (howns : pc.owns) (hpc : pc ≠ .exchanging)
    (hworks : Works (Function.update s.next op head) s.waiters pc ws) :
    ((s.link op head).goto c pc).Shows l ws stack := by
  have hnodup := h.nodup
  rw [h.queue, List.nodup_append] at hnodup
  have hstack : op ∉ stack := fun hmem => hnodup.2.2 op hop op (List.mem_reverse.mpr hmem) rfl
  have hopSuspended : s.pc op = .suspended := by
    rw [h.suspended, h.queue]
    exact List.mem_append_left _ hop
  have hkeeps : ∀ pc : MutexPc C, pc.owns → pc ≠ .suspended := by
    rintro pc hpc rfl
    exact hpc
  refine ⟨h.queue, h.nodup, ?_, ?_, h.locked, h.stack.frame hstack head, ?_, h.free, ?_,
    ?_, h.asserts⟩
  · refine goto_iff (s := s.link op head) (P := fun pc => pc = .suspended) h.suspended
      (iff_of_false (hkeeps pc howns) ?_)
    rw [← h.suspended c]
    exact hkeeps _ hown
  · exact goto_iff (s := s.link op head) (P := MutexPc.owns) h.owner
      (iff_of_true howns ((h.owner c).mp hown))
  · intro c'
    by_cases heq : c' = c
    · rw [heq]
      unfold AsyncMutex.goto
      dsimp only
      rw [Function.update_self]
      exact hworks
    · unfold AsyncMutex.goto
      dsimp only
      rw [Function.update_of_ne heq]
      exact works_of_not_owns (fun hc' => heq (h.one hown hc')) _
  · exact goto_forall (s := s.link op head)
      (Q := fun _ pc => pc = .exchanging → ∃ op, s.state = .waiter op) h.pushed
      fun hat => absurd hat hpc
  · have hlinked : ∀ c', Linked (s.link op head).next c' (s.pc c') := by
      intro c'
      have hbefore := h.linked c'
      cases hat : s.pc c' with
      | linked old =>
        have hne : c' ≠ op := by
          rintro rfl
          rw [hopSuspended] at hat
          cases hat
        rw [hat] at hbefore
        refine ⟨hbefore.1, ?_⟩
        change Function.update s.next op head c' = _
        rw [Function.update_of_ne hne]
        exact hbefore.2
      | outside | loaded | suspended | holding | releasing | exchanging | reversing | handing =>
        trivial
    refine goto_forall (s := s.link op head)
      (Q := fun c pc => Linked (s.link op head).next c pc) hlinked ?_
    cases pc with
    | holding | releasing | exchanging | reversing | handing => trivial
    | outside | loaded | linked | suspended => exact absurd howns id

/-- The loop of `unlock` turns the next link. -/
theorem Shows.turn {head : Option C} {op : C} (h : s.Shows l ws stack)
    (hpc : s.pc c = .reversing head op) :
    (∀ temp, s.next op = some temp →
      ((s.link op head).goto c (.reversing (some op) temp)).Shows l ws stack) ∧
    (s.next op = none → ((s.link op head).goto c (.handing op)).Shows l ws stack) := by
  have hown : (s.pc c).owns := by
    rw [hpc]
    trivial
  have hworks := h.works c
  rw [hpc] at hworks
  obtain ⟨hwaiters, done, rest, hws, hdone, hchain⟩ := hworks
  obtain ⟨rest, rfl, hrest⟩ := chain_some.mp hchain
  have hnodup := h.nodup
  rw [h.queue, List.nodup_append, hws] at hnodup
  obtain ⟨hreversed, -, hapart⟩ := List.nodup_append.mp hnodup.1
  have hnotDone : op ∉ done :=
    fun hmem => hapart op (List.mem_reverse.mpr List.mem_cons_self) op hmem rfl
  obtain ⟨hdone', hrest'⟩ := hdone.turn hchain hnotDone (List.nodup_reverse.mp hreversed)
  have hop : op ∈ ws := by
    rw [hws]
    exact List.mem_append_left _ (List.mem_reverse.mpr List.mem_cons_self)
  have hws' : ws = rest.reverse ++ (op :: done) := by
    rw [hws]
    simp
  constructor
  · intro temp htemp
    rw [htemp] at hrest'
    exact h.relink hown hop trivial nofun ⟨hwaiters, op :: done, rest, hws', hdone', hrest'⟩
  · intro hlast
    rw [hlast, chain_none] at hrest
    refine h.relink hown hop trivial nofun ?_
    rw [hws', hrest]
    exact hdone'

/-- The mutex is handed over. -/
theorem Shows.pass {head : C} (h : s.Shows l ws stack) (hpc : s.pc c = .handing head) :
    s.pc head = .suspended ∧ ∃ rest, l.queue = head :: (rest ++ stack.reverse) ∧
      (((s.pass c head).goto c .outside).goto head .holding).Shows
        ⟨some head, rest ++ stack.reverse⟩ rest stack := by
  have hown : (s.pc c).owns := by
    rw [hpc]
    trivial
  have hworks := h.works c
  rw [hpc] at hworks
  obtain ⟨rest, rfl, hrest⟩ := chain_some.mp hworks
  have hqueue : l.queue = head :: (rest ++ stack.reverse) := h.queue
  have hhead : s.pc head = .suspended := by
    rw [h.suspended, hqueue]
    exact List.mem_cons_self
  have hne : head ≠ c := by
    rintro rfl
    rw [hpc] at hhead
    cases hhead
  have hnodup := h.nodup
  rw [hqueue, List.nodup_cons] at hnodup
  have hothers : ∀ c', c' ≠ c → ¬ (s.pc c').owns := fun c' hc' howns => hc' (h.one hown howns)
  -- Where the coroutines are now: the two that take part, and the others where they were.
  have hplaces : ∀ c', (((s.pass c head).goto c .outside).goto head .holding).pc c' =
      if c' = head then .holding else if c' = c then .outside else s.pc c' := by
    intro c'
    unfold AsyncMutex.goto
    dsimp only
    rw [Function.update_apply, Function.update_apply]
    rfl
  refine ⟨hhead, rest, hqueue,
    ⟨rfl, hnodup.2, ?_, ?_, iff_of_false ?_ nofun, h.stack, ?_, nofun, ?_, ?_, h.asserts⟩⟩
  · intro c'
    rw [hplaces]
    split
    · rename_i heq
      rw [heq]
      exact iff_of_false nofun hnodup.1
    · rename_i hne'
      split
      · rename_i heq
        rw [heq]
        refine iff_of_false nofun ?_
        intro hmem
        have hsuspended := (h.suspended c).mpr (hqueue ▸ List.mem_cons_of_mem _ hmem)
        rw [hpc] at hsuspended
        cases hsuspended
      · rw [h.suspended, hqueue, List.mem_cons, or_iff_right hne']
  · intro c'
    rw [hplaces]
    split
    · rename_i heq
      rw [heq]
      exact iff_of_true trivial rfl
    · rename_i hne'
      have hnot : some head ≠ some c' := fun heq => hne' (Option.some.inj heq).symm
      split
      · exact iff_of_false id hnot
      · rename_i hc'
        exact iff_of_false (hothers c' hc') hnot
  · change s.state ≠ .notLocked
    rw [Ne, h.locked, (h.owner c).mp hown]
    nofun
  · intro c'
    rw [hplaces]
    split
    · exact hrest
    · split
      · trivial
      · rename_i hc'
        exact works_of_not_owns (hothers c' hc') _
  · intro c' hat
    rw [hplaces] at hat
    split at hat
    · cases hat
    · split at hat
      · cases hat
      · rename_i hc'
        exact absurd (show (s.pc c').owns from hat ▸ trivial) (hothers c' hc')
  · intro c'
    rw [hplaces]
    split
    · trivial
    · split
      · trivial
      · exact h.linked c'

/-! ### Steps and runs -/

/-- An event of the fair lock behind those so far. -/
theorem run_snoc {events : List (LockEvent C)} {e : LockEvent C} {l' : FifoLock C}
    (hrun : run FifoLock.step FifoLock.free events = some l) (hstep : l.step e = some l') :
    run FifoLock.step FifoLock.free (events ++ [e]) = some l' :=
  run_append_eq_some.mpr ⟨l, hrun, run_cons_eq_some.mpr ⟨l', hstep, rfl⟩⟩

theorem Inv.acquire (hrun : run FifoLock.step FifoLock.free s.events = some l)
    (h : s.Shows l ws stack) (hfree : s.state = .notLocked)
    (hqueue : c ∉ l.queue) : ((s.acquire c).goto c .holding).Inv := by
  refine ⟨{ l with owner := some c }, ws, stack, run_snoc hrun ?_, h.acquire hfree hqueue⟩
  rw [FifoLock.step, if_pos (h.locked.mp hfree)]

/-- A coroutine that neither waits nor has the mutex loads the word. -/
theorem Inv.load (hrun : run FifoLock.step FifoLock.free s.events = some l) (h : s.Shows l ws stack)
    (hpc : s.pc c ≠ .suspended) (howns : ¬ (s.pc c).owns) : (s.goto c (.loaded s.state)).Inv :=
  ⟨l, ws, stack, hrun,
    h.goto (iff_of_false nofun hpc) (iff_of_false id howns) trivial nofun trivial⟩

theorem inv_advance {s' : AsyncMutex C} {undisturbed : Bool} (h : s.Inv)
    (hstep : s.advance c undisturbed = some s') :
    s'.Inv := by
  obtain ⟨l, ws, stack, hrun, h⟩ := h
  have hnotQueued : s.pc c ≠ .suspended → c ∉ l.queue :=
    fun hne hmem => hne ((h.suspended c).mpr hmem)
  unfold advance at hstep
  cases hpc : s.pc c with
  | outside | suspended | holding =>
    rw [hpc] at hstep
    cases hstep
  | loaded old =>
    have hpc' : s.pc c ≠ .suspended := by simp [hpc]
    have hqueue : c ∉ l.queue := hnotQueued hpc'
    have howns : ¬ (s.pc c).owns := by
      rw [hpc]
      exact id
    rw [hpc] at hstep
    dsimp only at hstep
    split at hstep
    · split at hstep
      · rename_i hfree
        obtain rfl := Option.some.inj hstep
        exact .acquire hrun h hfree.1 hqueue
      · obtain rfl := Option.some.inj hstep
        exact .load hrun h hpc' howns
    · rename_i hold
      obtain rfl := Option.some.inj hstep
      have hlink := h.link hqueue (by simp [hpc]) old.pointer
      refine ⟨l, ws, stack, hrun,
        hlink.goto (iff_of_false (by simp) hpc') (iff_of_false id howns) trivial (by simp) ?_⟩
      exact ⟨hold, Function.update_self _ _ _⟩
  | linked old =>
    rw [hpc] at hstep
    dsimp only at hstep
    split at hstep
    · rename_i hstate
      obtain rfl := Option.some.inj hstep
      refine ⟨{ l with queue := l.queue ++ [c] }, ws, c :: stack, run_snoc hrun ?_,
        h.push hpc hstate.1⟩
      have hlinked := h.linked c
      rw [hpc] at hlinked
      have hlocked : l.owner ≠ none := by
        rw [Ne, ← h.locked, hstate.1]
        exact hlinked.1
      rw [FifoLock.step, if_neg hlocked]
    · obtain rfl := Option.some.inj hstep
      exact .load hrun h (by simp [hpc]) (by rw [hpc]; exact id)
  | releasing =>
    have howns : (s.pc c).owns := by
      rw [hpc]
      trivial
    rw [hpc] at hstep
    dsimp only at hstep
    split at hstep
    · rename_i hstate
      obtain rfl := Option.some.inj hstep
      refine ⟨{ l with owner := none }, ws, stack, run_snoc hrun ?_, h.release hpc hstate⟩
      rw [FifoLock.step, if_pos ⟨(h.owner c).mp howns, h.queue_nil hpc hstate⟩]
    · rename_i hstate
      obtain rfl := Option.some.inj hstep
      have hworks := h.works c
      rw [hpc] at hworks
      refine ⟨l, ws, stack, hrun, h.goto ?_ (iff_of_true trivial howns) hworks ?_ trivial⟩
      · simp [hpc]
      · intro _
        cases hword : s.state with
        | waiter op => exact ⟨op, rfl⟩
        | lockedNoWaiters => exact absurd hword hstate
        | notLocked =>
          have hnone := h.locked.mp hword
          rw [(h.owner c).mp howns] at hnone
          cases hnone
  | exchanging =>
    obtain ⟨op, hstate⟩ := h.pushed c hpc
    rw [hpc] at hstep
    dsimp only at hstep
    rw [hstate] at hstep
    obtain rfl := Option.some.inj hstep
    exact ⟨l, stack.reverse, [], hrun, h.exchange hpc hstate⟩
  | reversing head op =>
    obtain ⟨hmore, hlast⟩ := h.turn hpc
    rw [hpc] at hstep
    dsimp only at hstep
    split at hstep
    · rename_i temp htemp
      obtain rfl := Option.some.inj hstep
      exact ⟨l, ws, stack, hrun, hmore temp htemp⟩
    · rename_i hnone
      obtain rfl := Option.some.inj hstep
      exact ⟨l, ws, stack, hrun, hlast hnone⟩
  | handing head =>
    obtain ⟨hhead, rest, hqueue, hpass⟩ := h.pass hpc
    have howner : l.owner = some c := (h.owner c).mp (by rw [hpc]; trivial)
    rw [hpc] at hstep
    dsimp only at hstep
    rw [if_pos hhead] at hstep
    obtain rfl := Option.some.inj hstep
    refine ⟨_, rest, stack, run_snoc hrun ?_, hpass⟩
    rw [FifoLock.step, hqueue]
    dsimp only
    rw [if_pos ⟨howner, rfl⟩]

theorem inv_step {s' : AsyncMutex C} {a : MutexAction C} (h : s.Inv) (hstep : s.step a = some s') :
    s'.Inv := by
  cases a with
  | lockAsync c =>
    obtain ⟨l, ws, stack, hrun, h⟩ := h
    rw [step] at hstep
    split at hstep
    · rename_i hpc
      obtain rfl := Option.some.inj hstep
      exact .load hrun h (by rw [hpc]; nofun) (by rw [hpc]; exact id)
    · cases hstep
  | tryLock c =>
    rw [step] at hstep
    split at hstep
    · rename_i hpc
      split at hstep
      · rename_i hfree
        obtain ⟨l, ws, stack, hrun, h⟩ := h
        obtain rfl := Option.some.inj hstep
        refine .acquire hrun h hfree ?_
        rw [← h.suspended c, hpc]
        nofun
      · obtain rfl := Option.some.inj hstep
        exact h
    · cases hstep
  | unlock c =>
    obtain ⟨l, ws, stack, hrun, h⟩ := h
    rw [step] at hstep
    split at hstep
    · rename_i hpc
      have howns : (s.pc c).owns := by
        rw [hpc]
        trivial
      have hworks := h.works c
      rw [hpc] at hworks
      have hsuspended : ∀ pc : MutexPc C, pc ≠ .suspended →
          (pc = .suspended ↔ s.pc c = .suspended) := by
        intro pc hne
        rw [hpc]
        exact iff_of_false hne nofun
      split at hstep
      · rename_i hfree
        have hnone := h.locked.mp hfree
        rw [(h.owner c).mp howns] at hnone
        cases hnone
      · split at hstep
        · rename_i hwaiters
          obtain rfl := Option.some.inj hstep
          refine ⟨l, ws, stack, hrun,
            h.goto (hsuspended _ nofun) (iff_of_true trivial howns) ?_ nofun trivial⟩
          change Chain s.next s.waiters ws at hworks
          rw [hwaiters, chain_none] at hworks
          exact ⟨hwaiters, hworks⟩
        · rename_i head hwaiters
          obtain rfl := Option.some.inj hstep
          refine ⟨l, ws, stack, hrun,
            h.goto (hsuspended _ nofun) (iff_of_true trivial howns) ?_ nofun trivial⟩
          change Chain s.next s.waiters ws at hworks
          rw [hwaiters] at hworks
          exact hworks
    · cases hstep
  | next c undisturbed => exact inv_advance h hstep

theorem inv_of_run {as : List (MutexAction C)} (hrun : run step new as = some s) : s.Inv := by
  refine @inv_run _ _ _ Inv (fun _ _ => True) ?_ _ _ _ inv_new ?_ hrun
  · exact fun s a s' h _ hstep => inv_step h hstep
  · exact fun _ _ _ _ _ _ => trivial

/-- What the mutex promises: no assertion fails; it is granted in the order in which the coroutines
    came, who got it last has it, and the others that came are suspended; one has it at a time;
    and nobody is suspended on a mutex that is free. -/
structure Promises (s : AsyncMutex C) (queue : List C) : Prop where
  asserts : s.fault = false
  order : s.events.filterMap FifoLock.request = s.events.filterMap FifoLock.grant ++ queue
  nodup : queue.Nodup
  suspended : ∀ c, s.pc c = .suspended ↔ c ∈ queue
  exclusive : ∀ c c', (s.pc c).owns → (s.pc c').owns → c' = c
  last : ∀ c, (s.pc c).owns → (s.events.filterMap FifoLock.grant).getLast? = some c
  free : (∀ c, ¬ (s.pc c).owns) → queue = []

/-- **The mutex of coroutines is the fair lock**: after every run of the steps of any coroutines, in
    any interleaving, what its exchanges have decided is a run of the fair lock, and the mutex
    keeps its promises. -/
theorem promises_of_run {as : List (MutexAction C)} (hrun : run step new as = some s) :
    ∃ l, run FifoLock.step FifoLock.free s.events = some l ∧
    (∀ c, (s.pc c).owns ↔ l.owner = some c) ∧
      s.Promises l.queue := by
  obtain ⟨l, ws, stack, hevents, h⟩ := inv_of_run hrun
  have hfair := FifoLock.fair_of_run hevents
  refine ⟨l, hevents, h.owner, h.asserts, hfair.order, h.nodup, h.suspended,
    fun c c' hc hc' => h.one hc hc', ?_, ?_⟩
  · exact fun c hc => hfair.owner c ((h.owner c).mp hc)
  · intro hnobody
    apply hfair.queue
    cases howner : l.owner with
    | none => rfl
    | some c => exact absurd ((h.owner c).mpr howner) (hnobody c)

/-- Two coroutines queue behind a third one, which hands the mutex to the first of them. -/
theorem promises_of_run_threeCoroutines : ∃ s : AsyncMutex (Fin 3),
    run step new [.lockAsync 0, .next 0 true, .lockAsync 1, .next 1 true, .next 1 true,
      .lockAsync 2, .next 2 true, .next 2 true, .unlock 0, .next 0 true, .next 0 true, .next 0 true,
      .next 0 true, .next 0 true] = some s ∧
    s.events = [.acquire 0, .enqueue 1, .enqueue 2, .pass 0 1] ∧
    ∃ l, run FifoLock.step FifoLock.free s.events = some l ∧
    (∀ c, (s.pc c).owns ↔ l.owner = some c) ∧ s.Promises l.queue := by
  have hrun :
      (run step (new : AsyncMutex (Fin 3)) [.lockAsync 0, .next 0 true, .lockAsync 1, .next 1 true,
        .next 1 true, .lockAsync 2, .next 2 true, .next 2 true, .unlock 0, .next 0 true,
        .next 0 true, .next 0 true, .next 0 true, .next 0 true]).map events =
      some [.acquire 0, .enqueue 1, .enqueue 2, .pass 0 1] := by
    decide +kernel
  obtain ⟨s, hs, hevents⟩ := Option.map_eq_some_iff.mp hrun
  exact ⟨s, hs, hevents, promises_of_run hs⟩

end AsyncMutex

end StorageEngine.Net
