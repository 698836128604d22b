/-
  StorageEngine/Network/WriteLoop.lean
  ====================================
  **The write loop of a session** (`network/redis_server.hpp`, `RedisSession::SendImp` and
  `RedisSession::DoWrite`).

  A reply task appends its text to the send buffer and starts a `DoWrite`, which writes
  what is readable, drops what the socket took and goes on until nothing is readable.
  Every reply task starts one, whether or not an earlier one still waits for its write:
  two of them then write the same bytes, and both drop what was written.
-/
import StorageEngine.StepMachine
import StorageEngine.Net.TcpBuffer

namespace StorageEngine.Network

open StorageEngine.Net StorageEngine.StepMachine

/-- A write that was issued: the position of its bytes in the vector, their number, and the
    bytes. -/
structure Write where
  start : Nat
  requested : Nat
  bytes : List UInt8
deriving DecidableEq, Repr

/-- The sending side of a session.  Each outstanding write belongs to one `DoWrite` that
    waits for it; what was appended and what the socket took is recorded beside. -/
structure Writer where
  sendBuf : TcpBuffer
  outstanding : List Write
  appended : List UInt8
  accepted : List UInt8
deriving DecidableEq, Repr

inductive WriteStep where
  /-- A dispatched `SendImp` task runs. -/
  | reply (s : List UInt8)
  /-- The socket has taken `wr` bytes of an outstanding write. -/
  | complete (i wr : Nat)
  /-- An outstanding write has failed. -/
  | fail (i : Nat)
deriving DecidableEq, Repr

namespace Writer

def start : Writer := ⟨TcpBuffer.initial, [], [], []⟩

/-- `DoWrite` up to its next suspension. -/
def doWrite (s : Writer) : Writer :=
  if s.sendBuf.readableSize = 0 then s
  else
    let w := ⟨s.sendBuf.readIndex, s.sendBuf.readableSize, s.sendBuf.readable⟩
    { s with outstanding := s.outstanding ++ [w] }

/-- The task that `SendImp` dispatches. -/
def sendTask (s : Writer) (text : List UInt8) : Writer :=
  { s with sendBuf := s.sendBuf.append text, appended := s.appended ++ text }.doWrite

/-- What happens when the `i`-th outstanding write has a result. -/
def resume (s : Writer) (i : Nat) (w : Write) (wr : Nat) : Writer :=
  { s with
    sendBuf := if 0 < wr then s.sendBuf.retrieve wr else s.sendBuf
    outstanding := s.outstanding.eraseIdx i
    accepted := s.accepted ++ w.bytes.take wr }.doWrite

def step (s : Writer) : WriteStep → Option Writer
  | .reply text => some (s.sendTask text)
  | .complete i wr =>
    match s.outstanding[i]? with
    | some w => if 0 < wr ∧ wr ≤ w.requested then some (s.resume i w wr) else none
    | none => none
  | .fail i =>
    match s.outstanding[i]? with
    | some w => some (s.resume i w 0)
    | none => none

/-- A reply task runs only while no write is outstanding. -/
def Alone (s : Writer) : WriteStep → Prop
  | .reply _ => s.outstanding = []
  | _ => True

/-- The replies are written once and in order: what the socket took and what is readable is
    what was appended, no `retrieve` can ask for more than is readable, and the bytes of an
    outstanding write stay where the socket was told to find them. -/
structure Orderly (s : Writer) : Prop where
  once : s.accepted ++ s.sendBuf.readable = s.appended
  covered : ∀ w ∈ s.outstanding, w.requested ≤ s.sendBuf.readableSize
  still : ∀ w ∈ s.outstanding, (s.sendBuf.buffer.drop w.start).take w.requested = w.bytes

/-! ### One loop at a time -/

/-- At most one `DoWrite` waits, and its write is of the readable bytes; none waits only if
    nothing is readable. -/
structure Inv (s : Writer) : Prop where
  wf : s.sendBuf.WF
  once : s.accepted ++ s.sendBuf.readable = s.appended
  waiting : s.outstanding = if s.sendBuf.readableSize = 0 then [] else
    [⟨s.sendBuf.readIndex, s.sendBuf.readableSize, s.sendBuf.readable⟩]

theorem inv_start : Inv start where
  wf := TcpBuffer.wf_new 1024 8
  once := TcpBuffer.readable_new 1024 8
  waiting := rfl

/-- Starting a `DoWrite` when no other one waits. -/
theorem inv_doWrite {s : Writer} (hwf : s.sendBuf.WF)
    (honce : s.accepted ++ s.sendBuf.readable = s.appended) (hnone : s.outstanding = []) :
    Inv s.doWrite := by
  unfold doWrite
  split
  · rename_i hzero
    exact ⟨hwf, honce, by rw [hnone, if_pos hzero]⟩
  · rename_i hpos
    refine ⟨hwf, honce, ?_⟩
    rw [if_neg hpos, hnone]
    rfl

theorem inv_sendTask {s : Writer} (h : Inv s) (halone : s.outstanding = []) (text : List UInt8) :
    Inv (s.sendTask text) := by
  obtain ⟨hwf, hbytes⟩ := TcpBuffer.readable_append h.wf text
  refine inv_doWrite hwf ?_ halone
  rw [hbytes, ← List.append_assoc, h.once]

/-- The write that is outstanding is the one of the readable bytes. -/
theorem eq_of_outstanding {s : Writer} (h : Inv s) {i : Nat} {w : Write}
    (hw : s.outstanding[i]? = some w) :
    i = 0 ∧ w = ⟨s.sendBuf.readIndex, s.sendBuf.readableSize, s.sendBuf.readable⟩ ∧
      s.outstanding = [w] := by
  have hwait := h.waiting
  split at hwait
  · rw [hwait] at hw
    simp at hw
  · rw [hwait] at hw ⊢
    cases i with
    | zero =>
      have heq := Option.some.inj hw
      exact ⟨rfl, heq.symm, by rw [heq]⟩
    | succ i => simp at hw

theorem inv_resume {s : Writer} (h : Inv s) {i : Nat} {w : Write}
    (hw : s.outstanding[i]? = some w) {wr : Nat} (hwr : wr ≤ w.requested) :
    Inv (s.resume i w wr) := by
  obtain ⟨rfl, rfl, hsingle⟩ := eq_of_outstanding h hw
  have hnone : s.outstanding.eraseIdx 0 = [] := by rw [hsingle]; rfl
  obtain ⟨hwf, hbytes⟩ := TcpBuffer.readable_retrieve h.wf hwr
  refine inv_doWrite ?_ ?_ hnone
  · show (if 0 < wr then _ else _ : TcpBuffer).WF
    split
    · exact hwf
    · exact h.wf
  · show (s.accepted ++ _) ++ (if 0 < wr then _ else _ : TcpBuffer).readable = _
    rw [← h.once, List.append_assoc]
    split
    · rw [hbytes, List.take_append_drop]
    · rename_i hzero
      rw [Nat.eq_zero_of_not_pos hzero, List.take_zero, List.nil_append]

theorem inv_step (s : Writer) (a : WriteStep) (s' : Writer) (h : Inv s) (halone : Alone s a)
    (hstep : step s a = some s') : Inv s' := by
  cases a with
  | reply text =>
    obtain rfl := Option.some.inj hstep
    exact inv_sendTask h halone text
  | complete i wr =>
    rw [step] at hstep
    split at hstep
    · rename_i w hw
      split at hstep
      · rename_i hwr
        obtain rfl := Option.some.inj hstep
        exact inv_resume h hw hwr.2
      · cases hstep
    · cases hstep
  | fail i =>
    rw [step] at hstep
    split at hstep
    · rename_i w hw
      obtain rfl := Option.some.inj hstep
      exact inv_resume h hw (Nat.zero_le _)
    · cases hstep

theorem orderly_of_inv {s : Writer} (h : Inv s) : Orderly s := by
  have hmem : ∀ w ∈ s.outstanding,
      w = ⟨s.sendBuf.readIndex, s.sendBuf.readableSize, s.sendBuf.readable⟩ := by
    intro w hw
    obtain ⟨i, hi⟩ := List.getElem?_of_mem hw
    exact (eq_of_outstanding h hi).2.1
  refine ⟨h.once, ?_, ?_⟩
  · intro w hw
    exact Nat.le_of_eq (congrArg Write.requested (hmem w hw))
  · intro w hw
    rw [hmem w hw]
    show (s.sendBuf.buffer.drop s.sendBuf.readIndex).take s.sendBuf.readableSize = _
    rw [TcpBuffer.readable, TcpBuffer.readableSize, List.drop_take]

/-! ### Two loops at a time -/

@[simp] theorem doWrite_accepted (s : Writer) : s.doWrite.accepted = s.accepted := by
  unfold doWrite
  split <;> rfl

@[simp] theorem doWrite_appended (s : Writer) : s.doWrite.appended = s.appended := by
  unfold doWrite
  split <;> rfl

theorem doWrite_outstanding (s : Writer) : s.outstanding <+: s.doWrite.outstanding := by
  unfold doWrite
  split
  · exact List.prefix_rfl
  · exact List.prefix_append _ _

/-- The socket takes the whole of the first write. -/
theorem step_complete_first {s : Writer} {w : Write} (hw : s.outstanding[0]? = some w)
    (hpos : 0 < w.requested) :
    step s (.complete 0 w.requested) = some (s.resume 0 w w.requested) := by
  rw [step, hw]
  exact if_pos ⟨hpos, Nat.le_refl _⟩

/-- A reply task that runs while a write is outstanding: if the socket then takes both writes
    whole, it has taken more than was appended. -/
theorem overtaken {s : Writer} (h : Inv s) (hbusy : s.outstanding ≠ []) (text : List UInt8) :
    ∃ m n s', run step s [.reply text, .complete 0 m, .complete 0 n] = some s' ∧
      s'.appended.length < s'.accepted.length := by
  have hwait := h.waiting
  have hlen := TcpBuffer.length_readable h.wf
  obtain ⟨hwf, hbytes⟩ := TcpBuffer.readable_append h.wf text
  have hlen' := TcpBuffer.length_readable hwf
  have hboth := congrArg List.length hbytes
  rw [List.length_append, hlen'] at hboth
  split at hwait
  · exact absurd hwait hbusy
  · rename_i hpos
    -- the second loop issues a write that begins with the bytes of the first
    let w : Write := ⟨s.sendBuf.readIndex, s.sendBuf.readableSize, s.sendBuf.readable⟩
    let b := s.sendBuf.append text
    let w' : Write := ⟨b.readIndex, b.readableSize, b.readable⟩
    have hmore : 0 < b.readableSize := by
      show 0 < (s.sendBuf.append text).readableSize
      omega
    have htwo : (s.sendTask text).outstanding = [w, w'] := by
      unfold sendTask doWrite
      rw [if_neg (Nat.ne_of_gt hmore)]
      show s.outstanding ++ [w'] = [w, w']
      rw [hwait]
      rfl
    have hfirst : (s.sendTask text).outstanding[0]? = some w := by rw [htwo]; rfl
    let t := (s.sendTask text).resume 0 w w.requested
    have hsecond : t.outstanding[0]? = some w' := by
      have hkept : [w'] <+: t.outstanding := by
        refine List.IsPrefix.trans ?_ (doWrite_outstanding _)
        rw [htwo]
        exact List.prefix_rfl
      obtain ⟨ws, hws⟩ := hkept
      rw [← hws]
      rfl
    refine ⟨w.requested, w'.requested, t.resume 0 w' w'.requested, ?_, ?_⟩
    · refine run_cons_eq_some.mpr ⟨s.sendTask text, rfl, ?_⟩
      refine run_cons_eq_some.mpr ⟨t, step_complete_first hfirst (Nat.pos_of_ne_zero hpos), ?_⟩
      exact run_cons_eq_some.mpr ⟨_, step_complete_first hsecond hmore, rfl⟩
    · have honce := congrArg List.length h.once
      simp only [t, resume, sendTask, doWrite_accepted, doWrite_appended, List.length_append,
        List.length_take, w, w', b, hlen, hlen'] at honce ⊢
      omega

/-- Whatever results the writes have after whatever part of the run, the socket has taken a
    prefix of what was appended, and the state is orderly. -/
def WritesOnce (s : Writer) (steps : List WriteStep) : Prop :=
  ∀ before after results t, steps = before ++ after →
    (∀ a ∈ results, ∀ text, a ≠ .reply text) → run step s (before ++ results) = some t →
    t.accepted <+: t.appended ∧ Orderly t

theorem writesOnce_of_alone {s : Writer} {steps : List WriteStep} (h : Inv s)
    (halone : Along step Alone s steps) : WritesOnce s steps := by
  rintro before after results t rfl hresults hrun
  have hbefore := (along_append.mp halone).1
  have hall : Along step Alone s (before ++ results) := by
    refine along_append.mpr ⟨hbefore, ?_⟩
    rintro u - first a last v rfl -
    cases a with
    | reply text => exact absurd rfl (hresults _ (by simp) text)
    | complete i wr => trivial
    | fail i => trivial
  have horderly := orderly_of_inv (inv_run inv_step h hall hrun)
  exact ⟨⟨_, horderly.once⟩, horderly⟩

/-- The first reply task that does not wait can be overtaken. -/
theorem alone_of_writesOnce {s : Writer} {steps : List WriteStep} (h : Inv s)
    (honce : WritesOnce s steps) : Along step Alone s steps := by
  induction steps generalizing s with
  | nil => exact along_nil _ _
  | cons a steps ih =>
    have hfirst : Alone s a := by
      cases a with
      | reply text =>
        by_contra hbusy
        obtain ⟨m, n, s', hrun, hlong⟩ := overtaken h hbusy text
        obtain ⟨hpre, -⟩ := honce [.reply text] steps [.complete 0 m, .complete 0 n] s' rfl
          (by simp) hrun
        exact absurd hpre.length_le (Nat.not_le_of_lt hlong)
      | complete i wr => trivial
      | fail i => trivial
    refine along_cons.mpr ⟨hfirst, fun t ht => ih (inv_step s a t h hfirst ht) ?_⟩
    rintro before after results u rfl hresults hrun
    exact honce (a :: before) after results u rfl hresults
      (run_cons_eq_some.mpr ⟨t, ht, hrun⟩)

/-- **When replies are written once and in order**: exactly when each reply task of the run
    runs while no write of the session is outstanding. -/
theorem writesOnce_iff (steps : List WriteStep) :
    WritesOnce start steps ↔ Along step Alone start steps :=
  ⟨alone_of_writesOnce inv_start, writesOnce_of_alone inv_start⟩

/-- Two replies, the second before the write of the first has completed: the socket takes the
    first one twice. -/
theorem reply_written_twice :
    ∃ s, run step start [.reply [65], .reply [66], .complete 0 1, .complete 0 2] = some s ∧
      s.appended = [65, 66] ∧ s.accepted = [65, 65, 66] ∧ ¬ s.accepted <+: s.appended := by
  have hrun : (run step start [.reply [65], .reply [66], .complete 0 1, .complete 0 2]).map
      (fun s => (s.appended, s.accepted)) = some ([65, 66], [65, 65, 66]) := by
    decide +kernel
  obtain ⟨s, hs, hbytes⟩ := Option.map_eq_some_iff.mp hrun
  obtain ⟨happ, hacc⟩ := Prod.mk.inj hbytes
  refine ⟨s, hs, happ, hacc, ?_⟩
  rw [happ, hacc]
  decide

end Writer

end StorageEngine.Network
