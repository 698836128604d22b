/-
  StorageEngine/Network/Session.lean
  ==================================
  **A session** (`network/redis_server.hpp`, class `RedisSession`).

  A read replaces the session's command, its arguments and its transaction, and the
  handler that is invoked on them returns as soon as it suspends.  The callback that runs
  on a shard and the continuation behind it use them through pointers.  The read loop
  does not wait for either; the flag that its assertion looks at is cleared by every
  read and set by every reply task.
-/
import StorageEngine.Command.CommandRegistry
import StorageEngine.Network.ReadLoop
import StorageEngine.Network.WriteLoop

namespace StorageEngine.Network

open StorageEngine.Net StorageEngine.Redis StorageEngine.Command StorageEngine.StepMachine

/-- A callback that waits in a shard's queue, with the arguments and the transaction that its
    command had when it was scheduled. -/
structure Hop where
  args : List Bytes
  t : Nat
deriving DecidableEq, Repr

/-- The members of a session.  Transactions are numbered in the order of their creation. -/
structure Session where
  recvBuf : TcpBuffer
  com : List Bytes
  t : Option Nat
  created : Nat
  dealOneCom : Bool
  hops : List Hop
  replyTasks : List Bytes
  writer : Writer
deriving DecidableEq, Repr

inductive SessionStep where
  /-- A read completes with some bytes. -/
  | read (data : Bytes)
  /-- A shard runs a waiting callback and the continuation behind it, which sends a reply. -/
  | shard (i : Nat) (r : Reply)
  /-- The proactor runs the next reply task. -/
  | reply
  /-- A write has taken `wr` bytes, or has failed. -/
  | written (i wr : Nat)
deriving DecidableEq, Repr

namespace Session

def start : Session where
  recvBuf := TcpBuffer.initial
  com := []
  t := none
  created := 0
  dealOneCom := true
  hops := []
  replyTasks := []
  writer := Writer.start

/-- `SendImp` dispatches the task that appends the text. -/
def sendImp (s : Session) (text : Bytes) : Session :=
  { s with replyTasks := s.replyTasks ++ [text] }

/-- A new transaction is stored, and the handler is invoked with it. -/
def invoke (s : Session) (ci : CommandId) : Session :=
  let t := s.created
  let s := { s with t := some t, created := t + 1 }
  match ci.handler.invoke s.com with
  | .replies r => s.sendImp r.build
  | .suspends => { s with hops := s.hops ++ [⟨s.com, t⟩] }
  | .silent => s

/-- The body of `DoRead`'s loop behind a read of some bytes. -/
def onRead (s : Session) (data : Bytes) : Session :=
  let (com, b) := parseRESP (s.recvBuf.hasWritten data)
  let s := { s with recvBuf := b, com := com, dealOneCom := false }
  match com with
  | [] => s
  | name :: _ =>
    match find name with
    | none => s.sendImp Reply.error.build
    | some ci => s.invoke ci

def step (s : Session) : SessionStep → Option Session
  | .read data =>
    if data ≠ [] ∧ data.length ≤ s.recvBuf.writableSize then some (s.onRead data) else none
  | .shard i r =>
    if i < s.hops.length then some ({ s with hops := s.hops.eraseIdx i }.sendImp r.build)
    else none
  | .reply =>
    match s.replyTasks with
    | [] => none
    | text :: rest =>
      some { s with replyTasks := rest, writer := s.writer.sendTask text, dealOneCom := true }
  | .written i wr =>
    (s.writer.step (if wr = 0 then .fail i else .complete i wr)).map
      fun w => { s with writer := w }

/-- At a read the assertion holds and no callback waits whose arguments and transaction the
    read would replace; and a callback that runs finds its own. -/
def Undisturbed (s : Session) : SessionStep → Prop
  | .read _ => s.dealOneCom = true ∧ s.hops = []
  | .shard i _ => ∀ h, s.hops[i]? = some h → h.args = s.com ∧ s.t = some h.t
  | _ => True

/-! ### The two loops of a session -/

/-- The bytes of the reads among the steps. -/
def reads (steps : List SessionStep) : List Bytes :=
  steps.filterMap fun
    | .read data => some data
    | _ => none

@[simp] theorem sendImp_recvBuf (s : Session) (text : Bytes) :
    (s.sendImp text).recvBuf = s.recvBuf := rfl

@[simp] theorem sendImp_writer (s : Session) (text : Bytes) :
    (s.sendImp text).writer = s.writer := rfl

theorem invoke_recvBuf (s : Session) (ci : CommandId) : (s.invoke ci).recvBuf = s.recvBuf := by
  unfold invoke
  dsimp only
  split <;> rfl

theorem invoke_writer (s : Session) (ci : CommandId) : (s.invoke ci).writer = s.writer := by
  unfold invoke
  dsimp only
  split <;> rfl

/-- A read changes the receive buffer as the read loop does, and nothing of the writer. -/
theorem onRead_loops (s : Session) (data : Bytes) (dispatched : List (List Bytes)) :
    (s.onRead data).recvBuf = (Reader.onRead ⟨s.recvBuf, dispatched⟩ data).recvBuf ∧
      (s.onRead data).writer = s.writer := by
  have hreader : (Reader.onRead ⟨s.recvBuf, dispatched⟩ data).recvBuf =
      (parseRESP (s.recvBuf.hasWritten data)).2 := by
    unfold Reader.onRead
    dsimp only
    split <;> rfl
  rw [hreader]
  unfold onRead
  dsimp only
  split
  · exact ⟨rfl, rfl⟩
  · split
    · exact ⟨rfl, rfl⟩
    · exact ⟨invoke_recvBuf _ _, invoke_writer _ _⟩

/-- **A run of a session is a run of its read loop and of its write loop.** -/
theorem run_loops {s s' : Session} {steps : List SessionStep} (hrun : run step s steps = some s')
    (dispatched : List (List Bytes)) :
    s'.recvBuf = (Reader.run ⟨s.recvBuf, dispatched⟩ (reads steps)).recvBuf ∧
      ∃ wsteps, run Writer.step s.writer wsteps = some s'.writer := by
  induction steps generalizing s dispatched with
  | nil =>
    obtain rfl := Option.some.inj hrun
    exact ⟨rfl, [], rfl⟩
  | cons a steps ih =>
    obtain ⟨t, ht, htail⟩ := run_cons_eq_some.mp hrun
    cases a with
    | read data =>
      rw [step] at ht
      split at ht
      · obtain rfl := Option.some.inj ht
        obtain ⟨hbuf, hwriter⟩ := onRead_loops s data dispatched
        obtain ⟨hreads, hwrites⟩ :=
          ih htail (Reader.onRead ⟨s.recvBuf, dispatched⟩ data).dispatched
        rw [hbuf] at hreads
        exact ⟨hreads, hwriter ▸ hwrites⟩
      · cases ht
    | shard i r =>
      rw [step] at ht
      split at ht
      · obtain rfl := Option.some.inj ht
        exact ih htail dispatched
      · cases ht
    | reply =>
      rw [step] at ht
      split at ht
      · cases ht
      · rename_i text rest _
        obtain rfl := Option.some.inj ht
        obtain ⟨hreads, wsteps, hwrites⟩ := ih htail dispatched
        exact ⟨hreads, .reply text :: wsteps, run_cons_eq_some.mpr ⟨_, rfl, hwrites⟩⟩
    | written i wr =>
      rw [step] at ht
      obtain ⟨w, hw, rfl⟩ := Option.map_eq_some_iff.mp ht
      obtain ⟨hreads, wsteps, hwrites⟩ := ih htail dispatched
      exact ⟨hreads, _ :: wsteps, run_cons_eq_some.mpr ⟨w, hw, hwrites⟩⟩

/-! ### Reads and replies -/

/-- Between any two reads a reply task runs. -/
def Spaced (steps : List SessionStep) : Prop :=
  ∀ before data between data' after,
    steps = before ++ .read data :: (between ++ .read data' :: after) → .reply ∈ between

/-- A reply task runs before the first read. -/
def Led (steps : List SessionStep) : Prop :=
  ∀ before data after, steps = before ++ .read data :: after → .reply ∈ before

theorem spaced_nil : Spaced [] := by
  intro before data between data' after heq
  simp at heq

theorem led_nil : Led [] := by
  intro before data after heq
  simp at heq

theorem spaced_cons {a : SessionStep} {steps : List SessionStep} :
    Spaced (a :: steps) ↔ Spaced steps ∧ ((∃ data, a = .read data) → Led steps) := by
  constructor
  · intro h
    refine ⟨?_, ?_⟩
    · rintro before data between data' after rfl
      exact h (a :: before) data between data' after rfl
    · rintro ⟨data, rfl⟩ between data' after rfl
      exact h [] data between data' after rfl
  · rintro ⟨hrest, hfirst⟩ before data between data' after heq
    cases before with
    | nil =>
      obtain ⟨rfl, rfl⟩ := List.cons.inj heq
      exact hfirst ⟨data, rfl⟩ between data' after rfl
    | cons b before =>
      obtain ⟨rfl, rfl⟩ := List.cons.inj heq
      exact hrest before data between data' after rfl

theorem led_cons {a : SessionStep} {steps : List SessionStep} :
    Led (a :: steps) ↔ (¬ ∃ data, a = .read data) ∧ (a = .reply ∨ Led steps) := by
  constructor
  · intro h
    refine ⟨?_, ?_⟩
    · rintro ⟨data, rfl⟩
      exact absurd (h [] data steps rfl) List.not_mem_nil
    · by_cases ha : a = .reply
      · exact Or.inl ha
      · refine Or.inr ?_
        rintro before data after rfl
        rcases List.mem_cons.mp (h (a :: before) data after rfl) with heq | hmem
        · exact absurd heq.symm ha
        · exact hmem
  · rintro ⟨hread, hor⟩ before data after heq
    cases before with
    | nil => exact absurd ⟨data, (List.cons.inj heq).1⟩ hread
    | cons b before =>
      obtain ⟨rfl, rfl⟩ := List.cons.inj heq
      rcases hor with rfl | hled
      · exact List.mem_cons_self
      · exact List.mem_cons_of_mem _ (hled before data after rfl)

/-! ### One command in flight -/

/-- At most one callback or reply task is on its way, none while the flag is set, and a
    waiting callback has the session's arguments and transaction. -/
structure Inv (s : Session) : Prop where
  one : s.hops.length + s.replyTasks.length ≤ 1
  flag : s.dealOneCom = true → s.hops = [] ∧ s.replyTasks = []
  own : ∀ h ∈ s.hops, h.args = s.com ∧ s.t = some h.t

theorem inv_start : Inv start where
  one := Nat.zero_le 1
  flag := fun _ => ⟨rfl, rfl⟩
  own := fun _ hmem => absurd hmem List.not_mem_nil

/-- What a read leaves on its way, if nothing was. -/
theorem onRead_spec {s : Session} (hhops : s.hops = []) (htasks : s.replyTasks = [])
    (data : Bytes) : (s.onRead data).dealOneCom = false ∧ Inv (s.onRead data) := by
  have hsilent : ∀ u : Session, u.hops = [] → u.replyTasks = [] → u.dealOneCom = false →
      Inv u := fun u hh ht hf =>
    ⟨by simp [hh, ht], fun _ => ⟨hh, ht⟩, fun h hmem => by simp [hh] at hmem⟩
  have hreply : ∀ (u : Session) (text : Bytes), u.hops = [] → u.replyTasks = [] →
      u.dealOneCom = false → Inv (u.sendImp text) := fun u text hh ht hf =>
    ⟨by simp [sendImp, hh, ht], fun hset => absurd (hf.symm.trans hset) (by decide),
      fun h hmem => by simp [sendImp, hh] at hmem⟩
  unfold onRead
  dsimp only
  split
  · exact ⟨rfl, hsilent _ hhops htasks rfl⟩
  · split
    · exact ⟨rfl, hreply _ _ hhops htasks rfl⟩
    · unfold invoke
      dsimp only
      split
      · exact ⟨rfl, hreply _ _ hhops htasks rfl⟩
      · refine ⟨rfl, ⟨by simp [hhops, htasks], fun hset => absurd hset Bool.false_ne_true, ?_⟩⟩
        intro h hmem
        rw [hhops] at hmem
        obtain rfl := List.mem_singleton.mp hmem
        exact ⟨rfl, rfl⟩
      · exact ⟨rfl, hsilent _ hhops htasks rfl⟩

/-- What a step of another kind does. -/
theorem inv_step {s s' : Session} {a : SessionStep} (h : Inv s) (hstep : step s a = some s')
    (hread : ¬ ∃ data, a = .read data) :
    Undisturbed s a ∧ Inv s' ∧ s'.dealOneCom = (s.dealOneCom || a = .reply) := by
  cases a with
  | read data => exact absurd ⟨data, rfl⟩ hread
  | shard i r =>
    rw [step] at hstep
    split at hstep
    · rename_i hi
      obtain rfl := Option.some.inj hstep
      have hlen := List.length_eraseIdx_of_lt hi
      have hone := h.one
      have hflag : s.dealOneCom = false := by
        by_contra hset
        rw [(h.flag (by simpa using hset)).1] at hi
        exact absurd hi (Nat.not_lt_zero _)
      refine ⟨fun hop hhop => h.own hop (List.mem_of_getElem? hhop), ⟨?_, ?_, ?_⟩, ?_⟩
      · simp only [sendImp, List.length_append, List.length_cons, List.length_nil, hlen]
        omega
      · intro hset
        exact absurd (hflag.symm.trans hset) (by decide)
      · intro hop hhop
        exact h.own hop (List.mem_of_mem_eraseIdx hhop)
      · show s.dealOneCom = _
        simp
    · cases hstep
  | reply =>
    rw [step] at hstep
    split at hstep
    · cases hstep
    · rename_i text rest htasks
      obtain rfl := Option.some.inj hstep
      have hone := h.one
      rw [htasks, List.length_cons] at hone
      have hhops : s.hops = [] := List.length_eq_zero_iff.mp (by omega)
      have hrest : rest = [] := List.length_eq_zero_iff.mp (by omega)
      exact ⟨trivial, ⟨by simp [hhops, hrest], fun _ => ⟨hhops, hrest⟩, h.own⟩, by simp⟩
  | written i wr =>
    rw [step] at hstep
    obtain ⟨w, -, rfl⟩ := Option.map_eq_some_iff.mp hstep
    exact ⟨trivial, ⟨h.one, h.flag, h.own⟩, by simp⟩

/-- From a session with at most one command on its way. -/
theorem undisturbed_iff_from {s s' : Session} {steps : List SessionStep} (h : Inv s)
    (hrun : run step s steps = some s') :
    Along step Undisturbed s steps ↔ Spaced steps ∧ (s.dealOneCom = false → Led steps) := by
  induction steps generalizing s with
  | nil => exact iff_of_true (along_nil _ _) ⟨spaced_nil, fun _ => led_nil⟩
  | cons a steps ih =>
    obtain ⟨t, ht, htail⟩ := run_cons_eq_some.mp hrun
    have hrest : (∀ u, step s a = some u → Along step Undisturbed u steps) ↔
        Along step Undisturbed t steps :=
      ⟨fun hall => hall t ht, fun hthen u hu => Option.some.inj (ht.symm.trans hu) ▸ hthen⟩
    rw [along_cons, hrest, spaced_cons, led_cons]
    by_cases hread : ∃ data, a = .read data
    · obtain ⟨data, rfl⟩ := hread
      cases hflag : s.dealOneCom with
      | false => simp [Undisturbed, hflag]
      | true =>
        obtain ⟨hhops, htasks⟩ := h.flag hflag
        have hnext : t = s.onRead data := by
          rw [step] at ht
          split at ht
          · exact (Option.some.inj ht).symm
          · cases ht
        obtain ⟨hclear, hinv⟩ := onRead_spec hhops htasks data
        rw [← hnext] at hclear hinv
        rw [ih hinv htail]
        simp [Undisturbed, hflag, hhops, hclear]
    · obtain ⟨hown, hinv, hnext⟩ := inv_step h ht hread
      rw [ih hinv htail, hnext]
      by_cases hreply : a = .reply
      · simp [hreply, Undisturbed]
      · simp [hreply, hown, hread]

/-- **When at most one command of a session is in flight**: in a run, every read finds the
    assertion true and no callback waiting, and every callback finds its own arguments and
    transaction, if and only if a reply task runs between any two reads. -/
theorem undisturbed_iff {steps : List SessionStep} {s : Session}
    (hrun : run step start steps = some s) :
    Along step Undisturbed start steps ↔ Spaced steps := by
  rw [undisturbed_iff_from inv_start hrun]
  exact and_iff_left fun hflag => absurd hflag (by decide)

/-- A client that waits for the reply to its first `PING`. -/
theorem undisturbed_ping :
    ∃ s, run step start [.read (text "*1\r\n$4\r\nPING\r\n"), .reply,
        .read (text "*1\r\n$4\r\nPING\r\n")] = some s ∧
      Along step Undisturbed start [.read (text "*1\r\n$4\r\nPING\r\n"), .reply,
        .read (text "*1\r\n$4\r\nPING\r\n")] := by
  have hsome : (run step start [.read (text "*1\r\n$4\r\nPING\r\n"), .reply,
      .read (text "*1\r\n$4\r\nPING\r\n")]).isSome := by decide +kernel
  obtain ⟨s, hs⟩ := Option.isSome_iff_exists.mp hsome
  refine ⟨s, hs, (undisturbed_iff hs).mpr ?_⟩
  simp [spaced_cons, led_cons, spaced_nil, led_nil]

/-- A second `GET` arrives before the callback of the first has run: the read finds the flag
    cleared, and replaces what the callback still needs. -/
theorem overlapping_reads :
    ∃ s, run step start [.read (text "*2\r\n$3\r\nGET\r\n$1\r\nk\r\n")] = some s ∧
      (step s (.read (text "*2\r\n$3\r\nGET\r\n$1\r\nk\r\n"))).isSome ∧
      s.dealOneCom = false ∧ s.hops = [⟨[text "GET", text "k"], 0⟩] ∧
      ¬ Along step Undisturbed start [.read (text "*2\r\n$3\r\nGET\r\n$1\r\nk\r\n"),
        .read (text "*2\r\n$3\r\nGET\r\n$1\r\nk\r\n")] := by
  have hrun : (run step start [.read (text "*2\r\n$3\r\nGET\r\n$1\r\nk\r\n")]).map
      (fun s => ((step s (.read (text "*2\r\n$3\r\nGET\r\n$1\r\nk\r\n"))).isSome,
        s.dealOneCom, s.hops)) = some (true, false, [⟨[text "GET", text "k"], 0⟩]) := by
    decide +kernel
  obtain ⟨s, hs, hfields⟩ := Option.map_eq_some_iff.mp hrun
  obtain ⟨hsome, hrest⟩ := Prod.mk.inj hfields
  obtain ⟨hflag, hhops⟩ := Prod.mk.inj hrest
  refine ⟨s, hs, hsome, hflag, hhops, fun halong => ?_⟩
  have hread := halong [_] _ [] s rfl hs
  exact absurd (hflag.symm.trans hread.1) Bool.false_ne_true

end Session

end StorageEngine.Network
