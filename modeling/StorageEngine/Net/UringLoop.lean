/-
  StorageEngine/Net/UringLoop.lean
  ================================
  **The loop of a proactor** (`net/base/uring_proactor.cpp`, `loop`).

  The loop, the kernel, the coroutines that wait for it and any number of threads that submit
  something take their steps in any interleaving.  The loop drains the queue of tasks, moves
  pending operations into the submission ring, waits for a completion and handles it: it writes
  the result into the awaitable and resumes the coroutine.  An eventfd, which the ring polls,
  wakes it up.
-/
import StorageEngine.StepMachine
import StorageEngine.Net.Coroutines
import Mathlib.Data.Multiset.Filter

namespace StorageEngine.Net

open StorageEngine.StepMachine

/-- An entry of the submission ring: the poll of the eventfd, with `WAKEUP_COOKIE`, or an
    operation. -/
inductive Entry where
  | poll
  | io (sqe : Sqe)
deriving DecidableEq, Repr

def Entry.io? : Entry → Option Sqe
  | poll => none
  | io sqe => some sqe

/-- Where the loop stands. -/
inductive LoopPc where
  | start
  /-- `while (!stop_)`. -/
  | head
  /-- `DrainTasks`. -/
  | drain
  /-- `SubmitPendingOps`, before its `try_dequeue`. -/
  | submit
  /-- Before the first and before the second `io_uring_get_sqe`. -/
  | place (op : PendingOp)
  | placeAgain (op : PendingOp)
  /-- Before the last `io_uring_submit`. -/
  | flush
  | wait
  /-- `HandleCqe`. -/
  | handle (e : Entry) (res : Int)
  /-- The result is written. -/
  | resume (sqe : Sqe) (res : Int)
  /-- The eventfd is read. -/
  | rearm
  | rearmed
  | ended
deriving DecidableEq, Repr

/-- Undefined behaviour: a pointer to an awaitable that is gone or to a coroutine that is not
    suspended, or the null pointer of a ring without entries. -/
inductive Fault where
  | dangling
  | nullEntry
deriving DecidableEq, Repr

/-- A proactor and its coroutines; `wakeups` counts the threads that have enqueued something and
    are about to call `Wakeup`.  Records of the tasks that were taken and run, and of the
    operations that found no room on their way back into the queue, stand beside. -/
structure UringLoop (T : Type) where
  pc : LoopPc := .start
  stop : Bool := false
  tasks : List T := []
  pendingOps : List PendingOp := []
  sq : List Entry := []
  kernel : List Entry := [.poll]
  cq : List (Entry × Int) := []
  eventFd : Nat := 0
  wakeups : Nat := 0
  co : Coroutines := .new
  fault : Option Fault := none
  dispatched : List T := []
  executed : List T := []
  lost : List PendingOp := []

/-- `busy` says that the consumer of the lap before is not done with the cell; `late`, that the
    producer of the head is not done, or that the wait is interrupted; `taken`, what the kernel
    takes of the ring in an `io_uring_submit`. -/
inductive UringAction (T : Type) where
  | dispatchBrief (t : T) (busy : Bool)
  | coAwait (op : PendingOp) (busy : Bool)
  | wakeup
  | stop
  /-- The kernel is done with an entry. -/
  | complete (i : Nat) (res : Int)
  | loop (late : Bool) (taken : Nat)

namespace UringLoop

variable {T : Type}

section

variable (capacity ringSize : Nat)

def ioUringSubmit (s : UringLoop T) (taken : Nat) : UringLoop T :=
  { s with sq := s.sq.drop taken, kernel := s.kernel ++ s.sq.take taken }

/-- The next step of the loop. -/
def loop (s : UringLoop T) (late : Bool) (taken : Nat) : Option (UringLoop T) :=
  match s.pc with
  | .start => some { s with stop := false, pc := .head }
  | .head => some { s with pc := if s.stop then .ended else .drain }
  | .drain =>
    match s.tasks with
    | [] => some { s with pc := .submit }
    | t :: tasks =>
      if late ∧ 0 < s.wakeups then some { s with pc := .submit }
      else some { s with tasks := tasks, executed := s.executed ++ [t] }
  | .submit =>
    match s.pendingOps with
    | [] => some { s with pc := .flush }
    | op :: rest =>
      if late ∧ 0 < s.wakeups then some { s with pc := .flush }
      else some { s with pendingOps := rest, pc := .place op }
  | .place op =>
    if s.sq.length < ringSize then some { s with sq := s.sq ++ [.io ⟨op.prep, op⟩], pc := .submit }
    else some { s.ioUringSubmit taken with pc := .placeAgain op }
  | .placeAgain op =>
    if s.sq.length < ringSize then some { s with sq := s.sq ++ [.io ⟨op.prep, op⟩], pc := .submit }
    else if s.pendingOps.length < capacity then
      some { s with pendingOps := s.pendingOps ++ [op], pc := .submit }
    else some { s with lost := s.lost ++ [op], pc := .submit }
  | .flush => some { s.ioUringSubmit taken with pc := .wait }
  | .wait =>
    match s.cq with
    | [] => some { s with pc := .head }
    | cqe :: cq =>
      if late then some { s with pc := .head }
      else some { s with cq := cq, pc := .handle cqe.1 cqe.2 }
  | .handle .poll _ => some { s with eventFd := 0, pc := .rearm }
  | .handle (.io sqe) res =>
    match s.co.setResult sqe.data res with
    | some co => some { s with co := co, pc := .resume sqe res }
    | none => some { s with fault := some .dangling }
  | .resume sqe _ =>
    match s.co.resume sqe.data.handle with
    | some co => some { s with co := co, pc := .head }
    | none => some { s with fault := some .dangling }
  | .rearm =>
    if s.sq.length < ringSize then some { s with sq := s.sq ++ [.poll], pc := .rearmed }
    else some { s with fault := some .nullEntry }
  | .rearmed => some { s.ioUringSubmit taken with pc := .head }
  | .ended => none

/-- The completion of an operation is an answer to its coroutine. -/
def answer (s : UringLoop T) (e : Entry) (res : Int) : Coroutines :=
  match e with
  | .poll => s.co
  | .io sqe => s.co.answer sqe.data.handle sqe.prep res

def finish (s : UringLoop T) (i : Nat) (e : Entry) (res : Int) : UringLoop T :=
  { s with kernel := s.kernel.eraseIdx i, cq := s.cq ++ [(e, res)], co := s.answer e res }

/-- A coroutine is suspended, and its operation is in the queue. -/
def suspend (s : UringLoop T) (op : PendingOp) : UringLoop T :=
  { s with co := s.co.await op, pendingOps := s.pendingOps ++ [op], wakeups := s.wakeups + 1 }

def step (s : UringLoop T) (a : UringAction T) : Option (UringLoop T) :=
  if s.fault.isSome then none
  else
    match a with
    | .dispatchBrief t busy =>
      if s.tasks.length < capacity ∧ busy = false then
        some { s with
          tasks := s.tasks ++ [t], dispatched := s.dispatched ++ [t], wakeups := s.wakeups + 1 }
      else some s
    | .coAwait op busy =>
      if op.Valid ∧ s.co.suspended op.handle = none ∧ s.co.results op.awaitable = none then
        if s.pendingOps.length < capacity ∧ busy = false then
          some (s.suspend op)
        else
          match s.co.refuse op with
          | some co => some { s with co := co }
          | none => some { s with fault := some .dangling }
      else none
    | .wakeup =>
      if 0 < s.wakeups then some { s with wakeups := s.wakeups - 1, eventFd := s.eventFd + 1 }
      else none
    | .stop => some { s with stop := true, wakeups := s.wakeups + 1 }
    | .complete i res =>
      (s.kernel[i]?).map fun e => s.finish i e res
    | .loop late taken => s.loop capacity ringSize late taken

end

/-! ### Where the operations are -/

/-- The operation in the hands of `SubmitPendingOps`. -/
def held : LoopPc → List PendingOp
  | .place op | .placeAgain op => [op]
  | _ => []

/-- The completion in the hands of `HandleCqe`. -/
def handled : LoopPc → List (Entry × Int)
  | .handle e res => [(e, res)]
  | .resume sqe res => [(.io sqe, res)]
  | .rearm => [(.poll, 0)]
  | _ => []

/-- The result that is in an awaitable. -/
def result : LoopPc → Option (Sqe × Int)
  | .resume sqe res => some (sqe, res)
  | _ => none

def ios (entries : List Entry) : Multiset Sqe := ↑(entries.filterMap Entry.io?)

def completed (cqes : List (Entry × Int)) : Multiset (Sqe × Int) :=
  ↑(cqes.filterMap fun x => x.1.io?.map fun sqe => (sqe, x.2))

/-- The operations that are pending, with the loop, in the ring or in the kernel. -/
def inPlace (s : UringLoop T) : Multiset PendingOp :=
  ↑s.pendingOps + ↑(held s.pc) + (ios s.sq + ios s.kernel).map Sqe.data

/-- The operations without an answer: those, and the ones that the queue has not taken back. -/
def unanswered (s : UringLoop T) : Multiset PendingOp := s.inPlace + ↑s.lost

/-- The operations with an answer, which the loop has not handled yet. -/
def answered (s : UringLoop T) : Multiset (Sqe × Int) := completed s.cq + completed (handled s.pc)

/-- The polls of the eventfd that there are. -/
def polls (s : UringLoop T) : Nat :=
  s.sq.count .poll + s.kernel.count .poll + (s.cq.map Prod.fst).count .poll +
    ((handled s.pc).map Prod.fst).count .poll

/-- The eventfd counts something, or will. -/
def Woken (s : UringLoop T) : Prop := 0 < s.wakeups ∨ 0 < s.eventFd

/-- From the end of `DrainTasks` to the next time the eventfd is read. -/
def drained : LoopPc → Prop
  | .submit | .place _ | .placeAgain _ | .flush | .wait | .handle _ _ | .resume _ _ => True
  | _ => False

/-- From the end of `SubmitPendingOps` to the next time the eventfd is read. -/
def flushed : LoopPc → Prop
  | .flush | .wait | .handle _ _ | .resume _ _ => True
  | _ => False

/-- The next step of the loop calls `io_uring_submit`, if only for want of an entry. -/
def submits : LoopPc → Prop
  | .place _ | .flush | .rearmed => True
  | _ => False

/-- Since the last `io_uring_submit` the loop has asked for no entry. -/
def emptied : LoopPc → Prop
  | .submit | .place _ | .flush | .rearmed => False
  | _ => True

/-- What the loop has left behind wakes it up. -/
def Awake (s : UringLoop T) (pc : LoopPc) : Prop :=
  (drained pc → s.tasks ≠ [] → s.Woken) ∧ (flushed pc → s.pendingOps ≠ [] → s.Woken)

def Prepared : Entry → Prop
  | .poll => True
  | .io sqe => sqe.prep = sqe.data.prep

structure Inv (s : UringLoop T) : Prop where
  co : s.co.Inv s.unanswered s.answered
  written : ∀ sqe res, result s.pc = some (sqe, res) → s.co.results sqe.data.awaitable = some res
  prepared : ∀ e ∈ s.sq ++ s.kernel, Prepared e
  polls : s.polls = 1
  tasks : s.dispatched = s.executed ++ s.tasks
  awake : s.Awake s.pc
  defined : s.fault ≠ some .dangling

/-! ### What a step can do -/

section

variable (capacity ringSize : Nat)

inductive Moves (s : UringLoop T) (a : UringAction T) : UringLoop T → Prop where
  /-- A refused task, or a step of the loop that moves nothing. -/
  | go {stop : Bool} {pc : LoopPc} (held_eq : held pc = held s.pc)
      (handled_eq : handled pc = handled s.pc) (result_eq : result pc = result s.pc)
      (emptied : emptied pc → emptied s.pc)
      (awake : s.Awake s.pc → s.Awake pc) : Moves s a { s with stop := stop, pc := pc }
  | wakeup (about : 0 < s.wakeups) :
      Moves s a { s with wakeups := s.wakeups - 1, eventFd := s.eventFd + 1 }
  | stop : Moves s a { s with stop := true, wakeups := s.wakeups + 1 }
  | dispatch (t : T) :
      Moves s a { s with
        tasks := s.tasks ++ [t], dispatched := s.dispatched ++ [t], wakeups := s.wakeups + 1 }
  | execute {t : T} {tasks : List T} (at_ : s.pc = .drain) (queue : s.tasks = t :: tasks) :
      Moves s a { s with tasks := tasks, executed := s.executed ++ [t] }
  | await {op : PendingOp} (valid : op.Valid) (running : s.co.suspended op.handle = none)
      (fresh : s.co.results op.awaitable = none) :
      Moves s a (s.suspend op)
  | refuse {op : PendingOp} {co : Coroutines} (valid : op.Valid)
      (running : s.co.suspended op.handle = none)
      (fresh : s.co.results op.awaitable = none) (result : s.co.refuse op = some co) :
      Moves s a { s with co := co }
  | refuseFault {op : PendingOp} (valid : op.Valid) (running : s.co.suspended op.handle = none)
      (fresh : s.co.results op.awaitable = none) (result : s.co.refuse op = none) :
      Moves s a { s with fault := some .dangling }
  | complete {i : Nat} {e : Entry} (res : Int) (entry : s.kernel[i]? = some e) :
      Moves s a (s.finish i e res)
  | dequeue {op : PendingOp} {rest : List PendingOp} (at_ : s.pc = .submit)
      (queue : s.pendingOps = op :: rest) :
      Moves s a { s with pendingOps := rest, pc := .place op }
  | place {op : PendingOp} (at_ : s.pc = .place op ∨ s.pc = .placeAgain op)
      (room : s.sq.length < ringSize) :
      Moves s a { s with sq := s.sq ++ [.io ⟨op.prep, op⟩], pc := .submit }
  | submit {pc : LoopPc} {late : Bool} {taken : Nat} (action : a = .loop late taken)
      (submits : submits s.pc) (held_eq : held pc = held s.pc)
      (handled_eq : handled pc = handled s.pc)
      (result_eq : result pc = result s.pc) (awake : s.Awake s.pc → s.Awake pc) :
      Moves s a { s.ioUringSubmit taken with pc := pc }
  | putBack {op : PendingOp} (at_ : s.pc = .placeAgain op) (full : ringSize ≤ s.sq.length) :
      Moves s a { s with pendingOps := s.pendingOps ++ [op], pc := .submit }
  | lose {op : PendingOp} (at_ : s.pc = .placeAgain op) (full : ringSize ≤ s.sq.length)
      (queue : capacity ≤ s.pendingOps.length) :
      Moves s a { s with lost := s.lost ++ [op], pc := .submit }
  | take {cqe : Entry × Int} {cq : List (Entry × Int)} (at_ : s.pc = .wait)
      (queue : s.cq = cqe :: cq) :
      Moves s a { s with cq := cq, pc := .handle cqe.1 cqe.2 }
  | read {res : Int} (at_ : s.pc = .handle .poll res) :
      Moves s a { s with eventFd := 0, pc := .rearm }
  | write {sqe : Sqe} {res : Int} {co : Coroutines} (at_ : s.pc = .handle (.io sqe) res)
      (result : s.co.setResult sqe.data res = some co) :
      Moves s a { s with co := co, pc := .resume sqe res }
  | writeFault {sqe : Sqe} {res : Int} (at_ : s.pc = .handle (.io sqe) res)
      (result : s.co.setResult sqe.data res = none) : Moves s a { s with fault := some .dangling }
  | resume {sqe : Sqe} {res : Int} {co : Coroutines} (at_ : s.pc = .resume sqe res)
      (result : s.co.resume sqe.data.handle = some co) : Moves s a { s with co := co, pc := .head }
  | resumeFault {sqe : Sqe} {res : Int} (at_ : s.pc = .resume sqe res)
      (result : s.co.resume sqe.data.handle = none) : Moves s a { s with fault := some .dangling }
  | rearm (at_ : s.pc = .rearm) (room : s.sq.length < ringSize) :
      Moves s a { s with sq := s.sq ++ [.poll], pc := .rearmed }
  | rearmFault (at_ : s.pc = .rearm) (full : ringSize ≤ s.sq.length) :
      Moves s a { s with fault := some .nullEntry }

end

variable {capacity ringSize : Nat}

theorem moves_of_loop {s s' : UringLoop T} {late : Bool} {taken : Nat}
    (h : s.loop capacity ringSize late taken = some s') :
    Moves capacity ringSize s (.loop late taken) s' := by
  have hquiet : ∀ {pc : LoopPc}, ¬ drained pc → ¬ flushed pc → s.Awake pc :=
    fun hd hf => ⟨fun hpc => absurd hpc hd, fun hpc => absurd hpc hf⟩
  unfold loop at h
  cases hpc : s.pc with
  | start =>
    rw [hpc] at h
    obtain rfl := Option.some.inj h
    exact .go (by rw [hpc]; rfl) (by rw [hpc]; rfl) (by rw [hpc]; rfl) (by rw [hpc]; exact id)
      fun _ => hquiet id id
  | head =>
    rw [hpc] at h
    obtain rfl := Option.some.inj h
    cases hstop : s.stop with
    | true =>
      exact .go (by rw [hpc]; rfl) (by rw [hpc]; rfl) (by rw [hpc]; rfl) (by rw [hpc]; exact id)
        fun _ => hquiet id id
    | false =>
      exact .go (by rw [hpc]; rfl) (by rw [hpc]; rfl) (by rw [hpc]; rfl) (by rw [hpc]; exact id)
        fun _ => hquiet id id
  | drain =>
    rw [hpc] at h
    dsimp only at h
    split at h
    · rename_i htasks
      obtain rfl := Option.some.inj h
      exact .go (by rw [hpc]; rfl) (by rw [hpc]; rfl) (by rw [hpc]; rfl) (by nofun)
        fun _ => ⟨fun _ hne => absurd htasks hne, nofun⟩
    · rename_i t tasks htasks
      split at h
      · rename_i hlate
        obtain rfl := Option.some.inj h
        exact .go (by rw [hpc]; rfl) (by rw [hpc]; rfl) (by rw [hpc]; rfl) (by nofun)
          fun _ => ⟨fun _ _ => Or.inl hlate.2, nofun⟩
      · obtain rfl := Option.some.inj h
        simpa only [hpc] using Moves.execute hpc htasks
  | submit =>
    rw [hpc] at h
    dsimp only at h
    split at h
    · rename_i hops
      obtain rfl := Option.some.inj h
      refine .go (by rw [hpc]; rfl) (by rw [hpc]; rfl) (by rw [hpc]; rfl) (by nofun) ?_
      rw [hpc]
      exact fun hawake => ⟨fun _ => hawake.1 trivial, fun _ hne => absurd hops hne⟩
    · rename_i op rest hops
      split at h
      · rename_i hlate
        obtain rfl := Option.some.inj h
        exact .go (by rw [hpc]; rfl) (by rw [hpc]; rfl) (by rw [hpc]; rfl) (by nofun)
          fun _ => ⟨fun _ _ => Or.inl hlate.2, fun _ _ => Or.inl hlate.2⟩
      · obtain rfl := Option.some.inj h
        exact .dequeue hpc hops
  | place op =>
    rw [hpc] at h
    dsimp only at h
    split at h
    · rename_i hroom
      obtain rfl := Option.some.inj h
      exact .place (Or.inl hpc) hroom
    · obtain rfl := Option.some.inj h
      refine .submit rfl (by rw [hpc]; trivial) (by rw [hpc]; rfl) (by rw [hpc]; rfl)
        (by rw [hpc]; rfl) ?_
      rw [hpc]
      exact fun hawake => ⟨fun _ => hawake.1 trivial, nofun⟩
  | placeAgain op =>
    rw [hpc] at h
    dsimp only at h
    split at h
    · rename_i hroom
      obtain rfl := Option.some.inj h
      exact .place (Or.inr hpc) hroom
    · rename_i hfull
      split at h
      · obtain rfl := Option.some.inj h
        exact .putBack hpc (Nat.le_of_not_lt hfull)
      · rename_i hqueue
        obtain rfl := Option.some.inj h
        exact .lose hpc (Nat.le_of_not_lt hfull) (Nat.le_of_not_lt hqueue)
  | flush =>
    rw [hpc] at h
    obtain rfl := Option.some.inj h
    refine .submit rfl (by rw [hpc]; trivial) (by rw [hpc]; rfl) (by rw [hpc]; rfl)
      (by rw [hpc]; rfl) ?_
    rw [hpc]
    exact fun hawake => ⟨fun _ => hawake.1 trivial, fun _ => hawake.2 trivial⟩
  | wait =>
    rw [hpc] at h
    dsimp only at h
    split at h
    · obtain rfl := Option.some.inj h
      exact .go (by rw [hpc]; rfl) (by rw [hpc]; rfl) (by rw [hpc]; rfl) (by rw [hpc]; exact id)
        fun _ => hquiet id id
    · rename_i cqe cq hcq
      split at h
      · obtain rfl := Option.some.inj h
        exact .go (by rw [hpc]; rfl) (by rw [hpc]; rfl) (by rw [hpc]; rfl) (by rw [hpc]; exact id)
          fun _ => hquiet id id
      · obtain rfl := Option.some.inj h
        exact .take hpc hcq
  | handle e res =>
    cases e with
    | poll =>
      rw [hpc] at h
      obtain rfl := Option.some.inj h
      exact .read hpc
    | io sqe =>
      rw [hpc] at h
      dsimp only at h
      split at h
      · rename_i co hco
        obtain rfl := Option.some.inj h
        exact .write hpc hco
      · rename_i hnone
        obtain rfl := Option.some.inj h
        simpa only [hpc] using Moves.writeFault hpc hnone
  | resume sqe res =>
    rw [hpc] at h
    dsimp only at h
    split at h
    · rename_i co hco
      obtain rfl := Option.some.inj h
      exact .resume hpc hco
    · rename_i hnone
      obtain rfl := Option.some.inj h
      simpa only [hpc] using Moves.resumeFault hpc hnone
  | rearm =>
    rw [hpc] at h
    dsimp only at h
    split at h
    · rename_i hroom
      obtain rfl := Option.some.inj h
      exact .rearm hpc hroom
    · rename_i hfull
      obtain rfl := Option.some.inj h
      simpa only [hpc] using Moves.rearmFault hpc (Nat.le_of_not_lt hfull)
  | rearmed =>
    rw [hpc] at h
    obtain rfl := Option.some.inj h
    exact .submit rfl (by rw [hpc]; trivial) (by rw [hpc]; rfl) (by rw [hpc]; rfl)
      (by rw [hpc]; rfl)
      fun _ => hquiet id id
  | ended =>
    rw [hpc] at h
    cases h

theorem moves_of_step {s s' : UringLoop T} {a : UringAction T}
    (h : step capacity ringSize s a = some s') :
    Moves capacity ringSize s a s' := by
  unfold step at h
  split at h
  · cases h
  · cases a with
    | dispatchBrief t busy =>
      dsimp only at h
      split at h
      · obtain rfl := Option.some.inj h
        exact .dispatch t
      · obtain rfl := Option.some.inj h
        exact .go rfl rfl rfl id id
    | coAwait op busy =>
      dsimp only at h
      split at h
      · rename_i hready
        obtain ⟨hvalid, hrunning, hfresh⟩ := hready
        split at h
        · obtain rfl := Option.some.inj h
          exact .await hvalid hrunning hfresh
        · split at h
          · rename_i co hco
            obtain rfl := Option.some.inj h
            exact .refuse hvalid hrunning hfresh hco
          · rename_i hnone
            obtain rfl := Option.some.inj h
            exact .refuseFault hvalid hrunning hfresh hnone
      · cases h
    | wakeup =>
      dsimp only at h
      split at h
      · rename_i habout
        obtain rfl := Option.some.inj h
        exact .wakeup habout
      · cases h
    | stop =>
      obtain rfl := Option.some.inj h
      exact .stop
    | complete i res =>
      obtain ⟨e, he, rfl⟩ := Option.map_eq_some_iff.mp h
      exact .complete res he
    | loop late taken => exact moves_of_loop h

/-! ### The places -/

@[simp] theorem ios_nil : ios [] = 0 := rfl

@[simp] theorem ios_append (a b : List Entry) : ios (a ++ b) = ios a + ios b := by
  unfold ios
  rw [List.filterMap_append, Multiset.coe_add]

@[simp] theorem ios_poll : ios [.poll] = 0 := rfl

@[simp] theorem ios_io (sqe : Sqe) : ios [.io sqe] = {sqe} := rfl

@[simp] theorem completed_nil : completed [] = 0 := rfl

@[simp] theorem completed_append (a b : List (Entry × Int)) :
    completed (a ++ b) = completed a + completed b := by
  unfold completed
  rw [List.filterMap_append, Multiset.coe_add]

theorem completed_cons (x : Entry × Int) (a : List (Entry × Int)) :
    completed (x :: a) = completed [x] + completed a := completed_append [x] a

@[simp] theorem completed_poll (res : Int) : completed [(.poll, res)] = 0 := rfl

@[simp] theorem completed_io (sqe : Sqe) (res : Int) : completed [(.io sqe, res)] = {(sqe, res)} :=
  rfl

/-- The entries of a list, with one of them first. -/
theorem perm_eraseIdx {α : Type*} {l : List α} {i : Nat} {a : α} (h : l[i]? = some a) :
    l.Perm (a :: l.eraseIdx i) := by
  obtain ⟨hlt, rfl⟩ := List.getElem?_eq_some_iff.mp h
  exact (List.getElem_cons_eraseIdx_perm hlt).symm

theorem ios_eraseIdx {l : List Entry} {i : Nat} {e : Entry} (h : l[i]? = some e) :
    ios l = ios [e] + ios (l.eraseIdx i) := by
  unfold ios
  rw [Multiset.coe_add, ← List.filterMap_append]
  exact Multiset.coe_eq_coe.mpr ((perm_eraseIdx h).filterMap _)

theorem ioUringSubmit_ios (s : UringLoop T) (taken : Nat) :
    ios (s.sq.drop taken) + ios (s.kernel ++ s.sq.take taken) = ios s.sq + ios s.kernel := by
  have hsplit : ios s.sq = ios (s.sq.take taken) + ios (s.sq.drop taken) := by
    rw [← ios_append, List.take_append_drop]
  rw [hsplit, ios_append]
  abel

variable {s s' : UringLoop T} {a : UringAction T}

/-- A step that moves operations only from place to place. -/
theorem Inv.still (h : s.Inv) (hco : s'.co = s.co) (hwaiting : s'.unanswered = s.unanswered)
    (hanswered : s'.answered = s.answered) : s'.co.Inv s'.unanswered s'.answered := by
  rw [hco, hwaiting, hanswered]
  exact h.co

/-- The coroutines after a step. -/
theorem Inv.co_moves (h : s.Inv) (hmoves : Moves capacity ringSize s a s') :
    s'.co.Inv s'.unanswered s'.answered := by
  cases hmoves with
  | @go stop pc held_eq handled_eq result_eq emptied awake =>
    refine h.still rfl ?_ ?_
    · unfold unanswered inPlace
      rw [held_eq]
    · unfold answered
      rw [handled_eq]
  | wakeup about => exact h.co
  | stop => exact h.co
  | dispatch t => exact h.co
  | execute at_ queue => exact h.co
  | @await op valid running fresh =>
    have hwaiting : (s.suspend op).unanswered = op ::ₘ s.unanswered := by
      unfold unanswered inPlace suspend
      dsimp only
      rw [← Multiset.coe_add, Multiset.coe_singleton, ← Multiset.singleton_add]
      abel
    rw [hwaiting]
    exact h.co.await valid running fresh
  | refuse valid running fresh result =>
    obtain ⟨co, hco, hinv, -⟩ := h.co.refuse valid running fresh
    obtain rfl := Option.some.inj (result.symm.trans hco)
    exact hinv
  | refuseFault valid running fresh result => exact h.co
  | @complete i e res entry =>
    cases e with
    | poll =>
      refine h.still rfl ?_ ?_
      · unfold unanswered inPlace finish
        dsimp only
        rw [ios_eraseIdx entry, ios_poll, zero_add]
      · unfold answered finish
        simp
    | io sqe =>
      have hprep : sqe.prep = sqe.data.prep :=
        h.prepared (.io sqe) (List.mem_append_right _ (List.mem_of_getElem? entry))
      have hwaiting : s.unanswered = sqe.data ::ₘ (s.finish i (.io sqe) res).unanswered := by
        unfold unanswered inPlace finish
        dsimp only
        rw [ios_eraseIdx entry, ios_io, Multiset.map_add, Multiset.map_add, Multiset.map_add,
          Multiset.map_singleton, ← Multiset.singleton_add]
        abel
      have hanswered : (s.finish i (.io sqe) res).answered = (sqe, res) ::ₘ s.answered := by
        unfold answered finish
        dsimp only
        rw [completed_append, completed_io, ← Multiset.singleton_add]
        abel
      have hco := h.co
      rw [hwaiting] at hco
      rw [hanswered]
      exact hco.answer hprep
  | @dequeue op rest at_ queue =>
    refine h.still rfl ?_ ?_
    · unfold unanswered inPlace
      rw [at_, queue]
      dsimp only [held]
      rw [← Multiset.cons_coe op rest, ← Multiset.singleton_add, Multiset.coe_singleton,
        Multiset.coe_nil]
      abel
    · unfold answered
      rw [at_]
      rfl
  | @place op at_ room =>
    have hheld : held s.pc = [op] := by rcases at_ with hpc | hpc <;> rw [hpc] <;> rfl
    have hhandled : handled s.pc = [] := by rcases at_ with hpc | hpc <;> rw [hpc] <;> rfl
    refine h.still rfl ?_ ?_
    · unfold unanswered inPlace
      rw [hheld]
      dsimp only [held]
      rw [ios_append, ios_io, Multiset.coe_singleton, Multiset.coe_nil, Multiset.map_add,
        Multiset.map_add, Multiset.map_singleton, Multiset.map_add]
      abel
    · unfold answered
      rw [hhandled]
      rfl
  | @submit pc late taken action submits held_eq handled_eq result_eq awake =>
    refine h.still rfl ?_ ?_
    · unfold unanswered inPlace ioUringSubmit
      dsimp only
      rw [held_eq, ioUringSubmit_ios]
    · unfold answered ioUringSubmit
      rw [handled_eq]
  | @putBack op at_ full =>
    refine h.still rfl ?_ ?_
    · unfold unanswered inPlace
      rw [at_]
      dsimp only [held]
      rw [← Multiset.coe_add, Multiset.coe_nil]
      abel
    · unfold answered
      rw [at_]
      rfl
  | @lose op at_ full queue =>
    refine h.still rfl ?_ ?_
    · unfold unanswered inPlace
      rw [at_]
      dsimp only [held]
      rw [← Multiset.coe_add, Multiset.coe_nil]
      abel
    · unfold answered
      rw [at_]
      rfl
  | @take cqe cq at_ queue =>
    refine h.still rfl ?_ ?_
    · unfold unanswered inPlace
      rw [at_]
      rfl
    · unfold answered
      rw [at_, queue]
      dsimp only [handled]
      rw [completed_cons cqe cq, completed_nil]
      abel
  | @read res at_ =>
    refine h.still rfl ?_ ?_
    · unfold unanswered inPlace
      rw [at_]
      rfl
    · unfold answered
      rw [at_]
      rfl
  | @write sqe res co at_ result =>
    have hhandled : (sqe, res) ∈ s.answered := by
      unfold answered
      rw [at_]
      exact Multiset.mem_add.mpr (Or.inr (Multiset.mem_singleton_self _))
    obtain ⟨co', hco, hinv, -⟩ := h.co.setResult (Or.inr ⟨_, hhandled, rfl⟩) res
    obtain rfl := Option.some.inj (result.symm.trans hco)
    have hwaiting : unanswered { s with co := co, pc := .resume sqe res } = s.unanswered := by
      unfold unanswered inPlace
      rw [at_]
      rfl
    have hanswered : answered { s with co := co, pc := .resume sqe res } = s.answered := by
      unfold answered
      rw [at_]
      rfl
    rw [hwaiting, hanswered]
    exact hinv
  | writeFault at_ result => exact h.co
  | @resume sqe res co at_ result =>
    have hanswered : s.answered = (sqe, res) ::ₘ answered { s with co := co, pc := .head } := by
      unfold answered
      rw [at_]
      dsimp only [handled]
      rw [completed_io, completed_nil, ← Multiset.singleton_add]
      abel
    have hwaiting : unanswered { s with co := co, pc := .head } = s.unanswered := by
      unfold unanswered inPlace
      rw [at_]
      rfl
    have hco := h.co
    rw [hanswered] at hco
    obtain ⟨co', hresume, hinv, -⟩ := hco.resume (h.written sqe res (by rw [at_]; rfl))
    obtain rfl := Option.some.inj (result.symm.trans hresume)
    rw [hwaiting]
    exact hinv
  | resumeFault at_ result => exact h.co
  | rearm at_ room =>
    refine h.still rfl ?_ ?_
    · unfold unanswered inPlace
      rw [at_]
      dsimp only
      rw [ios_append, ios_poll, add_zero]
      rfl
    · unfold answered
      rw [at_]
      rfl
  | rearmFault at_ full => exact h.co

/-- No step uses a pointer that dangles. -/
theorem Inv.defined_moves (h : s.Inv) (hmoves : Moves capacity ringSize s a s') :
    s'.fault ≠ some .dangling := by
  cases hmoves with
  | refuseFault valid running fresh result =>
    obtain ⟨co, hco, -⟩ := h.co.refuse valid running fresh
    rw [result] at hco
    cases hco
  | @writeFault sqe res at_ result =>
    have hhandled : (sqe, res) ∈ s.answered := by
      unfold answered
      rw [at_]
      exact Multiset.mem_add.mpr (Or.inr (Multiset.mem_singleton_self _))
    obtain ⟨co, hco, -⟩ := h.co.setResult (Or.inr ⟨_, hhandled, rfl⟩) res
    rw [result] at hco
    cases hco
  | @resumeFault sqe res at_ result =>
    have hanswered : s.answered = (sqe, res) ::ₘ completed s.cq := by
      unfold answered
      rw [at_]
      dsimp only [handled]
      rw [completed_io, ← Multiset.singleton_add, add_comm]
    have hco := h.co
    rw [hanswered] at hco
    obtain ⟨co, hresume, -⟩ := hco.resume (h.written sqe res (by rw [at_]; rfl))
    rw [result] at hresume
    cases hresume
  | rearmFault at_ full => nofun
  | go | wakeup | stop | dispatch | execute | await | refuse | complete | dequeue | place | submit
    | putBack | lose
  | take | read | write | resume | rearm => exact h.defined

/-- A result stays in its awaitable until the coroutine takes it. -/
theorem Inv.written_moves (h : s.Inv) (hmoves : Moves capacity ringSize s a s') :
    ∀ sqe res, result s'.pc = some (sqe, res) → s'.co.results sqe.data.awaitable = some res := by
  intro sqe res hresult
  -- An awaitable with a result exists, and is not where a new one is made.
  have hother : ∀ op : PendingOp, result s.pc = some (sqe, res) → s.co.results op.awaitable = none →
      sqe.data.awaitable ≠ op.awaitable := by
    intro op hold hfresh heq
    have hwritten := h.written sqe res hold
    rw [heq, hfresh] at hwritten
    cases hwritten
  cases hmoves with
  | go held_eq handled_eq result_eq emptied awake => exact h.written sqe res (result_eq ▸ hresult)
  | submit action submits held_eq handled_eq result_eq awake =>
    exact h.written sqe res (result_eq ▸ hresult)
  | @await op valid running fresh =>
    calc (s.co.await op).results sqe.data.awaitable = s.co.results sqe.data.awaitable :=
          Function.update_of_ne (hother op hresult fresh) _ _
      _ = some res := h.written sqe res hresult
  | @refuse op co valid running fresh result =>
    obtain ⟨co', hco, -, hframe⟩ := h.co.refuse valid running fresh
    obtain rfl := Option.some.inj (result.symm.trans hco)
    calc co.results sqe.data.awaitable = s.co.results sqe.data.awaitable :=
      hframe _ (hother op hresult fresh)
      _ = some res := h.written sqe res hresult
  | @complete i e res' entry =>
    cases e with
    | poll => exact h.written sqe res hresult
    | io sqe' => exact h.written sqe res hresult
  | @write sqe' res' co at_ result =>
    have hhandled : (sqe', res') ∈ s.answered := by
      unfold answered
      rw [at_]
      exact Multiset.mem_add.mpr (Or.inr (Multiset.mem_singleton_self _))
    obtain ⟨co', hco, -, hresults⟩ := h.co.setResult (Or.inr ⟨_, hhandled, rfl⟩) res'
    obtain rfl := Option.some.inj (result.symm.trans hco)
    obtain ⟨rfl, rfl⟩ := Prod.mk.inj (Option.some.inj hresult)
    rw [hresults, Function.update_self]
  | wakeup | stop | dispatch | execute | refuseFault | writeFault | resumeFault | rearmFault =>
    exact h.written sqe res hresult
  | dequeue | place | putBack | lose | take | read | resume | rearm => cases hresult

theorem Inv.prepared_moves (h : s.Inv) (hmoves : Moves capacity ringSize s a s') :
    ∀ e ∈ s'.sq ++ s'.kernel, Prepared e := by
  have hadd : ∀ e, Prepared e → ∀ e' ∈ (s.sq ++ [e]) ++ s.kernel, Prepared e' := by
    intro e he e' hmem
    rw [List.append_assoc, List.mem_append, List.mem_append, List.mem_singleton] at hmem
    rcases hmem with hmem | rfl | hmem
    · exact h.prepared e' (List.mem_append_left _ hmem)
    · exact he
    · exact h.prepared e' (List.mem_append_right _ hmem)
  cases hmoves with
  | complete res entry =>
    intro e hmem
    rcases List.mem_append.mp hmem with hmem | hmem
    · exact h.prepared e (List.mem_append_left _ hmem)
    · exact h.prepared e (List.mem_append_right _ (List.mem_of_mem_eraseIdx hmem))
  | place at_ room => exact hadd _ rfl
  | rearm at_ room => exact hadd _ trivial
  | submit action submits held_eq handled_eq result_eq awake =>
    intro e hmem
    rcases List.mem_append.mp hmem with hmem | hmem
    · exact h.prepared e (List.mem_append_left _ (List.mem_of_mem_drop hmem))
    · rcases List.mem_append.mp hmem with hmem | hmem
      · exact h.prepared e (List.mem_append_right _ hmem)
      · exact h.prepared e (List.mem_append_left _ (List.mem_of_mem_take hmem))
  | go | wakeup | stop | dispatch | execute | await | refuse | refuseFault | dequeue | putBack
    | lose | take | read
  | write | writeFault | resume | resumeFault | rearmFault => exact h.prepared

/-- The poll of the eventfd is passed on from place to place. -/
theorem polls_moves (hmoves : Moves capacity ringSize s a s') : s'.polls = s.polls := by
  cases hmoves with
  | go held_eq handled_eq result_eq emptied awake =>
    unfold polls
    rw [handled_eq]
  | @complete i e res entry =>
    have hperm := (perm_eraseIdx entry).count_eq Entry.poll
    rw [List.count_cons] at hperm
    unfold polls finish
    dsimp only
    rw [List.map_append, List.count_append, hperm]
    simp only [List.map_cons, List.map_nil, List.count_cons, List.count_nil]
    omega
  | dequeue at_ queue =>
    unfold polls
    rw [at_]
    rfl
  | @place op at_ room =>
    have hhandled : handled s.pc = [] := by rcases at_ with hpc | hpc <;> rw [hpc] <;> rfl
    unfold polls
    rw [hhandled, List.count_append]
    rfl
  | @submit pc late taken action submits held_eq handled_eq result_eq awake =>
    have hsplit :
        s.sq.count .poll = (s.sq.take taken).count .poll + (s.sq.drop taken).count .poll := by
      rw [← List.count_append, List.take_append_drop]
    unfold polls ioUringSubmit
    dsimp only
    rw [handled_eq, List.count_append, hsplit]
    omega
  | putBack at_ full =>
    unfold polls
    rw [at_]
    rfl
  | lose at_ full queue =>
    unfold polls
    rw [at_]
    rfl
  | take at_ queue =>
    unfold polls
    rw [at_, queue]
    simp [handled, List.count_cons]
    omega
  | read at_ =>
    unfold polls
    rw [at_]
    rfl
  | write at_ result =>
    unfold polls
    rw [at_]
    rfl
  | resume at_ result =>
    unfold polls
    rw [at_]
    rfl
  | rearm at_ room =>
    unfold polls
    rw [at_]
    dsimp only [handled]
    rw [List.count_append]
    simp
    omega
  | wakeup | stop | dispatch | execute | await | refuse | refuseFault | writeFault | resumeFault
    | rearmFault => rfl

theorem Inv.tasks_moves (h : s.Inv) (hmoves : Moves capacity ringSize s a s') :
    s'.dispatched = s'.executed ++ s'.tasks := by
  cases hmoves with
  | dispatch t =>
    dsimp only
    rw [h.tasks, List.append_assoc]
  | execute at_ queue =>
    dsimp only
    rw [h.tasks, queue, List.append_assoc, List.singleton_append]
  | go | wakeup | stop | await | refuse | refuseFault | complete | dequeue | place | submit
    | putBack | lose | take
  | read | write | writeFault | resume | resumeFault | rearm | rearmFault => exact h.tasks

/-- Nothing that the loop has left behind is without a wakeup. -/
theorem Inv.awake_moves (h : s.Inv) (hmoves : Moves capacity ringSize s a s') : s'.Awake s'.pc := by
  have hawake := h.awake
  cases hmoves with
  | go held_eq handled_eq result_eq emptied awake => exact awake hawake
  | submit action submits held_eq handled_eq result_eq awake => exact awake hawake
  | wakeup about => exact ⟨fun _ _ => Or.inr (Nat.succ_pos _), fun _ _ => Or.inr (Nat.succ_pos _)⟩
  | stop => exact ⟨fun _ _ => Or.inl (Nat.succ_pos _), fun _ _ => Or.inl (Nat.succ_pos _)⟩
  | dispatch t => exact ⟨fun _ _ => Or.inl (Nat.succ_pos _), fun _ _ => Or.inl (Nat.succ_pos _)⟩
  | await valid running fresh =>
    exact ⟨fun _ _ => Or.inl (Nat.succ_pos _), fun _ _ => Or.inl (Nat.succ_pos _)⟩
  | execute at_ queue =>
    unfold Awake
    rw [at_]
    exact ⟨nofun, nofun⟩
  | dequeue at_ queue =>
    rw [at_] at hawake
    exact ⟨fun _ => hawake.1 trivial, nofun⟩
  | place at_ room =>
    refine ⟨fun _ => hawake.1 ?_, nofun⟩
    rcases at_ with hpc | hpc <;> rw [hpc] <;> trivial
  | putBack at_ full =>
    rw [at_] at hawake
    exact ⟨fun _ => hawake.1 trivial, nofun⟩
  | lose at_ full queue =>
    rw [at_] at hawake
    exact ⟨fun _ => hawake.1 trivial, nofun⟩
  | take at_ queue =>
    rw [at_] at hawake
    exact ⟨fun _ => hawake.1 trivial, fun _ => hawake.2 trivial⟩
  | write at_ result =>
    rw [at_] at hawake
    exact ⟨fun _ => hawake.1 trivial, fun _ => hawake.2 trivial⟩
  | read at_ => exact ⟨nofun, nofun⟩
  | resume at_ result => exact ⟨nofun, nofun⟩
  | rearm at_ room => exact ⟨nofun, nofun⟩
  | refuse | refuseFault | complete | writeFault | resumeFault | rearmFault => exact hawake

/-- What a step preserves. -/
theorem inv_step (h : s.Inv) (hstep : step capacity ringSize s a = some s') : s'.Inv := by
  have hmoves := moves_of_step hstep
  exact ⟨h.co_moves hmoves, h.written_moves hmoves, h.prepared_moves hmoves,
    (polls_moves hmoves).trans h.polls, h.tasks_moves hmoves, h.awake_moves hmoves,
      h.defined_moves hmoves⟩

theorem inv_start : ({} : UringLoop T).Inv where
  co := Coroutines.inv_new
  written := nofun
  prepared := by
    intro e hmem
    rw [List.mem_singleton.mp hmem]
    trivial
  polls := rfl
  tasks := rfl
  awake := ⟨nofun, nofun⟩
  defined := nofun

/-! ### Whole runs -/

/-- Where a coroutine stands, with its handle: it runs, or waits for the answer to an operation that
    is somewhere or that is lost, or has one that the loop will bring.  What its `co_await`s have
    returned is what it was answered. -/
inductive Phase (s : UringLoop T) (h : Nat) : Prop where
  | running (suspended : s.co.suspended h = none)
      (answers : s.co.answers h = (s.co.returned h).map fun x => (x.1.prep, x.2))
  | waiting {op : PendingOp} (suspended : s.co.suspended h = some op) (handle : op.handle = h)
      (place : s.inPlace.count op = 1) (kept : op ∉ s.lost)
      (pending : ∀ x ∈ s.answered, x.1.data.handle ≠ h)
      (answers : s.co.answers h = (s.co.returned h).map fun x => (x.1.prep, x.2))
  | lost {op : PendingOp} (suspended : s.co.suspended h = some op) (handle : op.handle = h)
      (gone : op ∉ s.inPlace) (once : s.lost.count op = 1)
      (pending : ∀ x ∈ s.answered, x.1.data.handle ≠ h)
      (answers : s.co.answers h = (s.co.returned h).map fun x => (x.1.prep, x.2))
  | answered {sqe : Sqe} {res : Int} (suspended : s.co.suspended h = some sqe.data)
      (handle : sqe.data.handle = h)
      (place : s.answered.count (sqe, res) = 1) (taken : ∀ op ∈ s.unanswered, op.handle ≠ h)
      (answers : s.co.answers h =
        (s.co.returned h).map (fun x => (x.1.prep, x.2)) ++ [(sqe.data.prep, res)])

/-- What the loop promises.  A coroutine is suspended on one operation at a time, which is in one
    place unless a put-back found the queue full and lost it; every `co_await` returns, in turn,
    what was answered to its own operation; no pointer dangles.  The tasks run once each, in the
    order in which they were taken.  There is one poll of the eventfd, and when the loop waits
    although something is in a queue, the eventfd counts something, or is about to. -/
structure Sound (s : UringLoop T) : Prop where
  phase : ∀ h, s.Phase h
  submitted : ∀ h, s.co.submitted h = (s.co.returned h).map Prod.fst ++ (s.co.suspended h).toList
  own : ∀ op, op ∈ s.inPlace ∨ op ∈ s.lost ∨ (∃ x ∈ s.answered, x.1.data = op) →
    s.co.suspended op.handle = some op
  defined : s.fault ≠ some .dangling
  tasks : s.dispatched = s.executed ++ s.tasks
  polls : s.polls = 1
  woken : s.pc = .wait → s.tasks ≠ [] ∨ s.pendingOps ≠ [] → 0 < s.wakeups ∨ 0 < s.eventFd

theorem Inv.phase (h : s.Inv) (handle : Nat) : s.Phase handle := by
  have honce := h.co.once
  unfold Coroutines.handles at honce
  obtain ⟨hwaiting, hanswered, hdisjoint⟩ := Multiset.nodup_add.mp honce
  have hapart : ∀ op ∈ s.unanswered, ∀ x ∈ s.answered, op.handle ≠ x.1.data.handle := by
    intro op hop x hx heq
    exact Multiset.disjoint_left.mp hdisjoint (Multiset.mem_map_of_mem _ hop)
      (Multiset.mem_map.mpr ⟨x, hx, heq.symm⟩)
  cases hsuspended : s.co.suspended handle with
  | none =>
    refine .running hsuspended (h.co.settled handle ?_)
    intro x hx heq
    have hown := (h.co.suspended handle x.1.data).mpr ⟨Or.inr ⟨x, hx, rfl⟩, heq⟩
    rw [hsuspended] at hown
    cases hown
  | some op =>
    obtain ⟨hop | ⟨⟨sqe, res⟩, hx, rfl⟩, rfl⟩ := (h.co.suspended handle op).mp hsuspended
    · have hcount := Multiset.count_eq_one_of_mem (Multiset.Nodup.of_map _ hwaiting) hop
      have hpending : ∀ x ∈ s.answered, x.1.data.handle ≠ op.handle :=
        fun x hx heq => hapart op hop x hx heq.symm
      have hsettled := h.co.settled op.handle hpending
      unfold unanswered at hcount
      rw [Multiset.count_add, Multiset.coe_count] at hcount
      by_cases hlost : op ∈ s.lost
      · have hpos := List.count_pos_iff.mpr hlost
        refine .lost hsuspended rfl ?_ (by omega) hpending hsettled
        rw [← Multiset.count_eq_zero]
        omega
      · rw [List.count_eq_zero.mpr hlost, Nat.add_zero] at hcount
        exact .waiting hsuspended rfl hcount hlost hpending hsettled
    · refine @Phase.answered _ _ _ _ res hsuspended rfl ?_ ?_ ?_
      · exact Multiset.count_eq_one_of_mem (Multiset.Nodup.of_map _ hanswered) hx
      · exact fun op hop heq => hapart op hop _ hx heq
      · have hout := h.co.outstanding _ hx
        have hprep : sqe.prep = sqe.data.prep := h.co.prepared _ hx
        rw [hout, hprep]

theorem Inv.sound (h : s.Inv) : s.Sound where
  phase := h.phase
  submitted := h.co.submitted
  own := by
    intro op hop
    refine (h.co.suspended op.handle op).mpr ⟨?_, rfl⟩
    rcases hop with hplace | hlost | hanswered
    · exact Or.inl (Multiset.mem_add.mpr (Or.inl hplace))
    · exact Or.inl (Multiset.mem_add.mpr (Or.inr hlost))
    · exact Or.inr hanswered
  defined := h.defined
  tasks := h.tasks
  polls := h.polls
  woken := by
    intro hpc hwork
    have hawake := h.awake
    rw [hpc] at hawake
    rcases hwork with htasks | hops
    · exact hawake.1 trivial htasks
    · exact hawake.2 trivial hops

theorem inv_of_run {as : List (UringAction T)}
    (hrun : run (step capacity ringSize) {} as = some s) : s.Inv := by
  refine @inv_run _ _ _ Inv (fun _ _ => True) ?_ _ _ _ inv_start ?_ hrun
  · exact fun s a s' h _ hstep => inv_step h hstep
  · exact fun _ _ _ _ _ _ => trivial

/-- **The loop of a proactor**, after every run of its steps, of the kernel's and of the threads'
    that submit something. -/
theorem sound_of_run {as : List (UringAction T)}
    (hrun : run (step capacity ringSize) {} as = some s) : s.Sound :=
  (inv_of_run hrun).sound

/-- A queue of one place: a read is taken and returns what the kernel answers, a write meanwhile
    returns `-EBUSY`. -/
theorem sound_of_run_readAndWrite :
    let read : PendingOp := ⟨5, 1, 64, 16, 0, 1, 10⟩
    let write : PendingOp := ⟨5, 2, 80, 3, 0, 2, 20⟩
    ∃ s : UringLoop Nat, run (step 1 8) {} [.coAwait read false, .coAwait write false, .wakeup,
      .loop false 0, .loop false 0, .loop false 0, .loop false 0, .loop false 0, .loop false 0,
      .loop false 1, .complete 1 7, .loop false 0, .loop false 0, .loop false 0] = some s ∧
    s.Sound ∧ s.co.returned 1 = [(read, 7)] ∧ s.co.returned 2 = [(write, ebusy)] := by
  intro read write
  have hrun :
      (run (step 1 8) ({} : UringLoop Nat) [.coAwait read false, .coAwait write false, .wakeup,
        .loop false 0, .loop false 0, .loop false 0, .loop false 0, .loop false 0, .loop false 0,
        .loop false 1, .complete 1 7, .loop false 0, .loop false 0, .loop false 0]).map
      (fun s => (s.co.returned 1, s.co.returned 2)) = some ([(read, 7)], [(write, ebusy)]) := by
        decide +kernel
  obtain ⟨s, hs, hreturned⟩ := Option.map_eq_some_iff.mp hrun
  obtain ⟨hread, hwrite⟩ := Prod.mk.inj hreturned
  exact ⟨s, hs, sound_of_run hs, hread, hwrite⟩

/-! ### A kernel that takes all -/

/-- An `io_uring_submit` leaves nothing in the ring. -/
def TakesAll (s : UringLoop T) : UringAction T → Prop
  | .loop _ taken => submits s.pc → s.sq.length ≤ taken
  | _ => True

instance : DecidablePred submits
  | .place _ | .flush | .rearmed => isTrue trivial
  | .start | .head | .drain | .submit | .placeAgain _ | .wait | .handle _ _ | .resume _ _
    | .rearm | .ended =>
    isFalse id

instance (s : UringLoop T) : DecidablePred s.TakesAll
  | .loop _ taken => inferInstanceAs (Decidable (submits s.pc → s.sq.length ≤ taken))
  | .dispatchBrief _ _ | .coAwait _ _ | .wakeup | .stop | .complete _ _ => isTrue trivial

/-- The ring has entries when they are asked for, and no operation is without a place. -/
structure Placed (ringSize : Nat) (s : UringLoop T) : Prop where
  lost : s.lost = []
  entry : s.fault ≠ some .nullEntry
  fits : s.sq.length ≤ ringSize
  empty : emptied s.pc → s.sq = []

theorem Placed.moves (h : s.Placed ringSize) (hring : 0 < ringSize) (hall : s.TakesAll a)
    (hmoves : Moves capacity ringSize s a s') : s'.Placed ringSize := by
  -- In front of an `io_uring_get_sqe` whose answer decides, the ring is empty.
  have hroom : emptied s.pc → ¬ ringSize ≤ s.sq.length := by
    intro hpc hfull
    rw [h.empty hpc] at hfull
    exact Nat.not_lt.mpr hfull hring
  cases hmoves with
  | go held_eq handled_eq result_eq emptied awake =>
    exact ⟨h.lost, h.entry, h.fits, fun hpc => h.empty (emptied hpc)⟩
  | dequeue at_ queue => exact ⟨h.lost, h.entry, h.fits, nofun⟩
  | place at_ room =>
    refine ⟨h.lost, h.entry, ?_, nofun⟩
    rw [List.length_append]
    exact room
  | @submit pc late taken action submits held_eq handled_eq result_eq awake =>
    have hempty : s.sq.drop taken = [] := by
      subst action
      exact List.drop_eq_nil_of_le (hall submits)
    refine ⟨h.lost, h.entry, ?_, fun _ => hempty⟩
    unfold ioUringSubmit
    dsimp only
    rw [hempty]
    exact Nat.zero_le _
  | putBack at_ full => exact absurd full (hroom (by rw [at_]; trivial))
  | lose at_ full queue => exact absurd full (hroom (by rw [at_]; trivial))
  | take at_ queue => exact ⟨h.lost, h.entry, h.fits, fun _ => h.empty (by rw [at_]; trivial)⟩
  | read at_ => exact ⟨h.lost, h.entry, h.fits, fun _ => h.empty (by rw [at_]; trivial)⟩
  | write at_ result => exact ⟨h.lost, h.entry, h.fits, fun _ => h.empty (by rw [at_]; trivial)⟩
  | resume at_ result => exact ⟨h.lost, h.entry, h.fits, fun _ => h.empty (by rw [at_]; trivial)⟩
  | rearm at_ room =>
    refine ⟨h.lost, h.entry, ?_, nofun⟩
    rw [List.length_append]
    exact room
  | rearmFault at_ full => exact absurd full (hroom (by rw [at_]; trivial))
  | refuseFault | writeFault | resumeFault => exact ⟨h.lost, nofun, h.fits, h.empty⟩
  | wakeup | stop | dispatch | execute | await | refuse | complete =>
    exact ⟨h.lost, h.entry, h.fits, h.empty⟩

theorem placed_start (ringSize : Nat) : ({} : UringLoop T).Placed ringSize :=
  ⟨rfl, nofun, Nat.zero_le _, fun _ => rfl⟩

/-- Nothing is lost: no fault occurs, a suspended coroutine finds its operation in the queue, with
    the loop, in the ring, in the kernel or completed, and when the loop waits although something
    is in a queue, the end of its wait is there, or in the kernel, or is about to be. -/
structure Complete (s : UringLoop T) : Prop where
  fault : s.fault = none
  placed : ∀ h op, s.co.suspended h = some op → op ∈ s.pendingOps ∨ op ∈ held s.pc ∨
    ∃ sqe, sqe.data = op ∧
      (.io sqe ∈ s.sq ∨ .io sqe ∈ s.kernel ∨ ∃ res, (.io sqe, res) ∈ s.cq ++ handled s.pc)
  woken : s.pc = .wait → s.tasks ≠ [] ∨ s.pendingOps ≠ [] →
    0 < s.wakeups ∨ s.cq ≠ [] ∨ .poll ∈ s.kernel ∧ 0 < s.eventFd

theorem mem_ios {l : List Entry} {sqe : Sqe} : sqe ∈ ios l ↔ .io sqe ∈ l := by
  unfold ios
  rw [Multiset.mem_coe, List.mem_filterMap]
  constructor
  · rintro ⟨e, he, hio⟩
    cases e with
    | poll => cases hio
    | io sqe' =>
      obtain rfl := Option.some.inj hio
      exact he
  · exact fun hmem => ⟨_, hmem, rfl⟩

theorem mem_completed {l : List (Entry × Int)} {sqe : Sqe} {res : Int} :
    (sqe, res) ∈ completed l ↔ (.io sqe, res) ∈ l := by
  unfold completed
  rw [Multiset.mem_coe, List.mem_filterMap]
  constructor
  · rintro ⟨⟨e, res'⟩, he, hio⟩
    cases e with
    | poll => cases hio
    | io sqe' =>
      obtain ⟨rfl, rfl⟩ := Prod.mk.inj (Option.some.inj hio)
      exact he
  · exact fun hmem => ⟨_, hmem, rfl⟩

theorem Inv.complete (h : s.Inv) (hplaced : s.Placed ringSize) : s.Complete where
  fault := by
    cases hfault : s.fault with
    | none => rfl
    | some fault =>
      cases fault with
      | dangling => exact absurd hfault h.defined
      | nullEntry => exact absurd hfault hplaced.entry
  placed := by
    intro handle op hsuspended
    obtain ⟨hop | ⟨⟨sqe, res⟩, hx, rfl⟩, -⟩ := (h.co.suspended handle op).mp hsuspended
    · unfold unanswered inPlace at hop
      rw [hplaced.lost] at hop
      simp only [Multiset.mem_add, Multiset.mem_coe, Multiset.mem_map, mem_ios] at hop
      rcases hop with ((hop | hop) | ⟨sqe, hsqe | hsqe, rfl⟩) | hop
      · exact Or.inl hop
      · exact Or.inr (Or.inl hop)
      · exact Or.inr (Or.inr ⟨sqe, rfl, Or.inl hsqe⟩)
      · exact Or.inr (Or.inr ⟨sqe, rfl, Or.inr (Or.inl hsqe)⟩)
      · cases hop
    · refine Or.inr (Or.inr ⟨sqe, rfl, Or.inr (Or.inr ⟨res, ?_⟩)⟩)
      unfold answered at hx
      rw [Multiset.mem_add, mem_completed, mem_completed] at hx
      exact List.mem_append.mpr hx
  woken := by
    intro hpc hwork
    rcases h.sound.woken hpc hwork with hwakeups | hcounts
    · exact Or.inl hwakeups
    · right
      by_cases hcq : s.cq = []
      · right
        have hpolls := h.polls
        unfold UringLoop.polls at hpolls
        rw [hplaced.empty (by rw [hpc]; trivial), hcq, hpc] at hpolls
        refine ⟨List.count_pos_iff.mp ?_, hcounts⟩
        simp only [List.count_nil, List.map_nil, handled, Nat.zero_add, Nat.add_zero] at hpolls
        rw [hpolls]
        exact Nat.one_pos
      · exact Or.inl hcq

/-- **A kernel that takes all**: as long as every `io_uring_submit` leaves nothing in the ring,
    nothing is lost. -/
theorem complete_of_run (hring : 0 < ringSize) {as : List (UringAction T)}
    (hrun : run (step capacity ringSize) {} as = some s)
    (hall : Along (step capacity ringSize) TakesAll {} as) : s.Complete := by
  have hboth : s.Inv ∧ s.Placed ringSize := by
    refine @inv_run _ _ _ (fun s => s.Inv ∧ s.Placed ringSize) TakesAll ?_ _ _ _
      ⟨inv_start, placed_start ringSize⟩ hall hrun
    rintro s a s' ⟨hinv, hplaced⟩ htakes hstep
    exact ⟨inv_step hinv hstep, hplaced.moves hring htakes (moves_of_step hstep)⟩
  exact hboth.1.complete hboth.2

/-- A ring of one entry: the second of two reads is prepared after the first is taken. -/
theorem complete_of_run_oneEntry :
    let read (h : Nat) : PendingOp := ⟨h, 1, 64, 16, 0, h, 10 * h⟩
    ∃ s : UringLoop Nat, run (step 8 1) {} [.coAwait (read 1) false, .coAwait (read 2) false,
      .loop false 0, .loop false 0, .loop false 0, .loop false 0, .loop false 1, .loop false 0,
      .loop false 1, .loop false 0, .loop false 0, .loop false 1, .complete 2 5] = some s ∧
      s.Complete ∧ s.cq = [(.io ⟨(read 2).prep, read 2⟩, 5)] := by
  intro read
  have hrun : (run (step 8 1) ({} : UringLoop Nat) [.coAwait (read 1) false,
      .coAwait (read 2) false, .loop false 0, .loop false 0, .loop false 0, .loop false 0,
      .loop false 1, .loop false 0, .loop false 1, .loop false 0, .loop false 0, .loop false 1,
      .complete 2 5]).map UringLoop.cq = some [(.io ⟨(read 2).prep, read 2⟩, 5)] := by
    decide +kernel
  obtain ⟨s, hs, hcq⟩ := Option.map_eq_some_iff.mp hrun
  exact ⟨s, hs, complete_of_run Nat.one_pos hs (by decide +kernel), hcq⟩

end UringLoop

end StorageEngine.Net
