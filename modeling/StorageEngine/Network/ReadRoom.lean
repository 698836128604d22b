/-
  StorageEngine/Network/ReadRoom.lean
  ===================================
  **Room in the receive buffer** (`network/redis_server.hpp`, `RedisSession::DoRead`).

  A read asks for as many bytes as are free behind the write index.  Nothing ever makes
  more room: the vector keeps its size, and the indices go back to the front only when
  everything was consumed.  A read that fills the buffer up to its end is therefore
  followed by a read of no bytes, whose result is taken for the end of the connection.

  The client's bytes arrive by a schedule of read results; the session is followed through
  all of it.
-/
import StorageEngine.Network.ReadLoop
import StorageEngine.Redis.RespArray

namespace StorageEngine.Network

open StorageEngine.Net StorageEngine.Redis

/-- A session that reads: its reader, the bytes of the client that it has not read, and whether
    it has closed the socket. -/
structure Receiver where
  reader : Reader
  pending : Bytes
  closed : Bool
deriving DecidableEq, Repr

namespace Receiver

def start (stream : Bytes) : Receiver := ⟨Reader.start, stream, false⟩

/-- The bytes of a read that could take `r`: `AsyncRead(BeginWrite(), writable_size())`. -/
def arriving (s : Receiver) (r : Nat) : Bytes :=
  s.pending.take (min r s.reader.recvBuf.writableSize)

/-- A round of `DoRead`.  A read with nothing to read stays outstanding; one that is not for any
    bytes returns 0, and the session closes the socket. -/
def onResult (s : Receiver) (r : Nat) : Receiver :=
  if s.closed ∨ s.pending = [] then s
  else if s.arriving r = [] then { s with closed := true }
  else ⟨s.reader.onRead (s.arriving r), s.pending.drop (s.arriving r).length, false⟩

/-- The session after the first `i` results of a schedule. -/
def after (stream : Bytes) (sizes : Nat → Nat) : Nat → Receiver
  | 0 => start stream
  | i + 1 => (after stream sizes i).onResult (sizes i)

end Receiver

open Receiver

/-! ### What is asked of a session -/

/-- A buffer, with what is still to come, holds a command as a whole: the first `a` commands are
    consumed, the buffer goes on from there, and the last byte of command `j` is in it. -/
def Holds (cmds : List (List Bytes)) (b : TcpBuffer) (rest : Bytes) (j : Nat) : Prop :=
  ∃ a ≤ j, (cmds.take a).flatMap encode ++ (b.readable ++ rest) = cmds.flatMap encode ∧
    ((cmds.take (j + 1)).flatMap encode).length ≤
      ((cmds.take a).flatMap encode).length + b.readable.length

/-- The bytes of a schedule are received: every read is for some bytes, the socket is not closed
    on the client, and every command is at some time in the buffer as a whole. -/
structure Receives (cmds : List (List Bytes)) (sizes : Nat → Nat) : Prop where
  room : ∀ i, 0 < (after (cmds.flatMap encode) sizes i).reader.recvBuf.writableSize
  isOpen : ∀ i, (after (cmds.flatMap encode) sizes i).closed = false
  complete : ∀ j < cmds.length, ∃ i,
    Holds cmds
      ((after (cmds.flatMap encode) sizes i).reader.recvBuf.hasWritten
        ((after (cmds.flatMap encode) sizes i).arriving (sizes i)))
      (after (cmds.flatMap encode) sizes (i + 1)).pending j

/-- A read leaves some of the room that it was given, or the bytes in the buffer are exactly one
    command with it. -/
def LeavesRoom (s : Receiver) (r : Nat) : Prop :=
  (s.arriving r).length < s.reader.recvBuf.writableSize ∨
    ∃ c, c ≠ [] ∧ s.reader.recvBuf.readable ++ s.arriving r = encode c

/-! ### One read -/

/-- What holds of a session at any time: the buffer goes on in the stream where the commands that
    were consumed end, and it has the size that it was made with. -/
structure Receiver.Inv (cmds : List (List Bytes)) (s : Receiver) : Prop where
  wf : s.reader.recvBuf.WF
  length : s.reader.recvBuf.buffer.length = 1032
  prepend : s.reader.recvBuf.prependSize = 8
  stream : ∃ consumed left, cmds = consumed ++ left ∧
    s.reader.recvBuf.readable ++ s.pending = left.flatMap encode

theorem recvBuf_onRead (s : Reader) (data : Bytes) :
    (s.onRead data).recvBuf = (parseRESP (s.recvBuf.hasWritten data)).2 := by
  unfold Reader.onRead
  dsimp only
  split <;> rfl

theorem encode_ne_nil (c : List Bytes) : encode c ≠ [] := by
  simp [encode, header]

theorem buffer_moveReadIndex (b : TcpBuffer) (n : Nat) :
    (b.moveReadIndex n).buffer = b.buffer ∧ (b.moveReadIndex n).prependSize = b.prependSize := by
  unfold TcpBuffer.moveReadIndex
  split
  · exact ⟨rfl, rfl⟩
  · exact ⟨rfl, rfl⟩

/-- What a consumption does to the room: everything consumed makes all of it, and less nothing. -/
theorem writableSize_consume {b : TcpBuffer} (hwf : b.WF) {n : Nat} (hn : n ≤ b.readable.length) :
    (b.consume n).writableSize =
      if n = b.readable.length then b.buffer.length - b.prependSize else b.writableSize := by
  rw [TcpBuffer.length_readable hwf] at hn ⊢
  unfold TcpBuffer.consume TcpBuffer.moveReadIndex
  by_cases heq : n = b.readableSize
  · rw [if_neg (by omega), if_pos heq]
    rfl
  · rw [if_pos (by omega), if_neg heq]
    rfl

section Parse

variable {b : TcpBuffer} (hwf : b.WF) (hsmall : b.buffer.length < 2 ^ 62) {c : List Bytes}
  (hc : WellFormed c) {X rest : Bytes} (hstream : b.readable ++ rest = encode c ++ X)
include hwf hsmall hc hstream

/-- The parser consumes the first command if it is there as a whole, and nothing else. -/
theorem parseRESP_stream : (parseRESP b).2 =
    if (encode c).length ≤ b.readable.length then b.consume (encode c).length else b := by
  have hbytes : b.readable = (encode c ++ X).take b.readable.length := by
    rw [← hstream, List.take_left]
  have hwrite : b.writeIndex < 2 ^ 62 := Nat.lt_of_le_of_lt hwf.write_le hsmall
  rw [parseRESP_take hc hwf hwrite hbytes]
  split
  · rfl
  · split <;> rfl

omit hwf hsmall hc in
theorem take_of_whole (hwhole : (encode c).length ≤ b.readable.length) :
    b.readable = encode c ++ b.readable.drop (encode c).length := by
  have hpre : encode c <+: b.readable :=
    List.prefix_of_prefix_length_le (List.prefix_append _ X) (hstream ▸ List.prefix_append _ rest)
      hwhole
  obtain ⟨t, ht⟩ := hpre
  rw [← ht, List.drop_left]

/-- The buffer is exactly one command if and only if that is the first one. -/
theorem exists_readable_eq_encode_iff :
    (∃ c', c' ≠ [] ∧ b.readable = encode c') ↔ (encode c).length = b.readable.length := by
  constructor
  · rintro ⟨c', hne, heq⟩
    have hlast : b.readable = encode c' ++ [] := by rw [heq, List.append_nil]
    have hempty := (parseRESP_encode hwf (by omega) hne hlast).2
    rw [parseRESP_stream hwf hsmall hc hstream] at hempty
    split at hempty
    · rename_i hwhole
      rw [TcpBuffer.length_readable hwf] at hwhole
      have hdrop := (TcpBuffer.moveReadIndex_spec hwf hwhole).2
      rw [show b.moveReadIndex _ = b.consume _ from rfl, hempty] at hdrop
      have hlen := List.drop_eq_nil_iff.mp hdrop.symm
      rw [TcpBuffer.length_readable hwf] at hlen ⊢
      exact Nat.le_antisymm hwhole hlen
    · exact absurd (heq.symm.trans hempty) (encode_ne_nil c')
  · intro hlen
    refine ⟨c, hc.ne_nil, ?_⟩
    have hwhole := take_of_whole hstream (Nat.le_of_eq hlen)
    rwa [hlen, List.drop_length, List.append_nil] at hwhole

/-- After the parser there is room exactly if there was some before, or the buffer was exactly one
    command. -/
theorem room_parseRESP_iff (hsize : b.prependSize < b.buffer.length) :
    0 < (parseRESP b).2.writableSize ↔
      0 < b.writableSize ∨ ∃ c', c' ≠ [] ∧ b.readable = encode c' := by
  rw [exists_readable_eq_encode_iff hwf hsmall hc hstream, parseRESP_stream hwf hsmall hc hstream]
  by_cases hwhole : (encode c).length ≤ b.readable.length
  · rw [if_pos hwhole, writableSize_consume hwf hwhole]
    by_cases hall : (encode c).length = b.readable.length
    · rw [if_pos hall]
      exact iff_of_true (Nat.sub_pos_of_lt hsize) (Or.inr hall)
    · rw [if_neg hall]
      exact (or_iff_left hall).symm
  · rw [if_neg hwhole]
    exact (or_iff_left fun hall => hwhole (Nat.le_of_eq hall)).symm

end Parse

namespace Receiver

variable {cmds : List (List Bytes)} {s : Receiver}

/-- The buffer after the bytes of a read were stored. -/
theorem Inv.hasWritten (hinv : s.Inv cmds) (r : Nat) :
    (s.reader.recvBuf.hasWritten (s.arriving r)).WF ∧
      (s.reader.recvBuf.hasWritten (s.arriving r)).readable =
        s.reader.recvBuf.readable ++ s.arriving r ∧
      (s.reader.recvBuf.hasWritten (s.arriving r)).buffer.length = 1032 := by
  have hfit : (s.arriving r).length ≤ s.reader.recvBuf.writableSize := by
    unfold arriving
    rw [List.length_take]
    omega
  obtain ⟨hwf, hbytes⟩ := TcpBuffer.readable_hasWritten hinv.wf hfit
  refine ⟨hwf, hbytes, ?_⟩
  have hwrite := hinv.wf.write_le
  unfold TcpBuffer.writableSize at hfit
  show (TcpBuffer.overwrite _ _ _).length = _
  rw [TcpBuffer.length_overwrite (by omega)]
  exact hinv.length

theorem arriving_append (s : Receiver) (r : Nat) :
    s.arriving r ++ s.pending.drop (s.arriving r).length = s.pending := by
  obtain ⟨t, ht⟩ : s.arriving r <+: s.pending := List.take_prefix _ _
  have hdrop : s.pending.drop (s.arriving r).length = t := by rw [← ht, List.drop_left]
  rw [hdrop]
  exact ht

theorem arriving_ne_nil {r : Nat} (hr : 0 < r) (hroom : 0 < s.reader.recvBuf.writableSize)
    (hne : s.pending ≠ []) : s.arriving r ≠ [] := by
  have hpos := List.length_pos_of_ne_nil hne
  apply List.ne_nil_of_length_pos
  unfold arriving
  rw [List.length_take]
  omega

/-- A read with nothing to read. -/
theorem onResult_of_pending_nil (h : s.pending = []) (r : Nat) : s.onResult r = s :=
  if_pos (Or.inr h)

/-- With the bytes of a read that got some, the buffer starts with what there is of the next
    command. -/
theorem Inv.next (hinv : s.Inv cmds) (hcmds : ∀ c ∈ cmds, WellFormed c) {r : Nat}
    (hne : s.arriving r ≠ []) :
    ∃ consumed c left, cmds = consumed ++ c :: left ∧ WellFormed c ∧
      (s.reader.recvBuf.hasWritten (s.arriving r)).readable ++
        s.pending.drop (s.arriving r).length =
        encode c ++ left.flatMap encode := by
  obtain ⟨-, hbytes, -⟩ := hinv.hasWritten r
  obtain ⟨consumed, left, rfl, hstream⟩ := hinv.stream
  rw [← arriving_append s r, ← List.append_assoc, ← hbytes] at hstream
  cases left with
  | nil =>
    rw [List.flatMap_nil, List.append_eq_nil_iff, hbytes, List.append_eq_nil_iff] at hstream
    exact absurd hstream.1.2 hne
  | cons c left =>
    rw [List.flatMap_cons] at hstream
    exact ⟨consumed, c, left, rfl, hcmds c (List.mem_append_right _ List.mem_cons_self), hstream⟩

/-- The buffer is smaller than the sizes that the parser can count to. -/
theorem Inv.small (hinv : s.Inv cmds) (r : Nat) :
    (s.reader.recvBuf.hasWritten (s.arriving r)).buffer.length < 2 ^ 62 := by
  rw [(hinv.hasWritten r).2.2]
  decide

/-- A read of some bytes keeps the invariant. -/
theorem Inv.onRead (hinv : s.Inv cmds) (hcmds : ∀ c ∈ cmds, WellFormed c) {r : Nat}
    (hne : s.arriving r ≠ []) (closed : Bool) :
    Inv cmds ⟨s.reader.onRead (s.arriving r), s.pending.drop (s.arriving r).length, closed⟩ := by
  obtain ⟨hwf, -, hlength⟩ := hinv.hasWritten r
  obtain ⟨consumed, c, left, rfl, hc, hstream⟩ := hinv.next hcmds hne
  have hprepend : (s.reader.recvBuf.hasWritten (s.arriving r)).prependSize = 8 := hinv.prepend
  have hparse := parseRESP_stream hwf (hinv.small r) hc hstream
  by_cases hwhole : (encode c).length ≤
      (s.reader.recvBuf.hasWritten (s.arriving r)).readable.length
  · rw [if_pos hwhole] at hparse
    have hrest := take_of_whole hstream hwhole
    rw [TcpBuffer.length_readable hwf] at hwhole
    obtain ⟨hwf', hbytes'⟩ := TcpBuffer.moveReadIndex_spec hwf hwhole
    obtain ⟨hbuf, hpre⟩ :=
      buffer_moveReadIndex (s.reader.recvBuf.hasWritten (s.arriving r)) (encode c).length
    refine ⟨?_, ?_, ?_, consumed ++ [c], left, by simp, ?_⟩ <;>
      dsimp only <;> rw [recvBuf_onRead, hparse]
    · exact hwf'
    · exact (congrArg List.length hbuf).trans hlength
    · exact hpre.trans hprepend
    · rw [hrest, List.append_assoc, List.append_right_inj] at hstream
      show (TcpBuffer.moveReadIndex _ _).readable ++ _ = _
      rw [hbytes']
      exact hstream
  · rw [if_neg hwhole] at hparse
    refine ⟨?_, ?_, ?_, consumed, c :: left, rfl, ?_⟩ <;>
      dsimp only <;> rw [recvBuf_onRead, hparse]
    · exact hwf
    · exact hlength
    · exact hprepend
    · rw [List.flatMap_cons]
      exact hstream

/-- There is room behind a read of some bytes exactly if it leaves some. -/
theorem Inv.room_onRead_iff (hinv : s.Inv cmds) (hcmds : ∀ c ∈ cmds, WellFormed c) {r : Nat}
    (hne : s.arriving r ≠ []) :
    0 < (s.reader.onRead (s.arriving r)).recvBuf.writableSize ↔ LeavesRoom s r := by
  obtain ⟨hwf, hbytes, hlength⟩ := hinv.hasWritten r
  obtain ⟨consumed, c, left, rfl, hc, hstream⟩ := hinv.next hcmds hne
  have hprepend : (s.reader.recvBuf.hasWritten (s.arriving r)).prependSize = 8 := hinv.prepend
  have hroom := room_parseRESP_iff hwf (hinv.small r) hc hstream (by rw [hprepend, hlength]; decide)
  rw [recvBuf_onRead, hroom, hbytes]
  apply or_congr_left
  have hwritable : (s.reader.recvBuf.hasWritten (s.arriving r)).writableSize =
      s.reader.recvBuf.buffer.length - (s.reader.recvBuf.writeIndex + (s.arriving r).length) := by
    unfold TcpBuffer.writableSize
    rw [hlength, hinv.length]
    rfl
  rw [hwritable]
  unfold TcpBuffer.writableSize
  omega

/-! ### A schedule -/

theorem inv_start (cmds : List (List Bytes)) : (start (cmds.flatMap encode)).Inv cmds where
  wf := TcpBuffer.wf_new 1024 8
  length := by
    show (List.replicate (8 + 1024) (0 : UInt8)).length = 1032
    rw [List.length_replicate]
  prepend := rfl
  stream := by
    refine ⟨[], cmds, rfl, ?_⟩
    show (TcpBuffer.new 1024 8).readable ++ cmds.flatMap encode = _
    rw [TcpBuffer.readable_new, List.nil_append]

theorem Inv.onResult (hinv : s.Inv cmds) (hcmds : ∀ c ∈ cmds, WellFormed c) (r : Nat) :
    (s.onResult r).Inv cmds := by
  unfold Receiver.onResult
  split
  · exact hinv
  · split
    · exact ⟨hinv.wf, hinv.length, hinv.prepend, hinv.stream⟩
    · rename_i hne
      exact hinv.onRead hcmds hne false

/-- A round of a session that is open and has room. -/
theorem Inv.room_onResult_iff (hinv : s.Inv cmds) (hcmds : ∀ c ∈ cmds, WellFormed c) {r : Nat}
    (hr : 0 < r) (hroom : 0 < s.reader.recvBuf.writableSize) (hopen : s.closed = false) :
    (0 < (s.onResult r).reader.recvBuf.writableSize ∧ (s.onResult r).closed = false) ↔
      LeavesRoom s r := by
  by_cases hpending : s.pending = []
  · have harriving : s.arriving r = [] := by
      unfold arriving
      rw [hpending, List.take_nil]
    rw [onResult_of_pending_nil hpending]
    refine iff_of_true ⟨hroom, hopen⟩ (Or.inl ?_)
    rw [harriving]
    exact hroom
  · have hne := arriving_ne_nil hr hroom hpending
    unfold Receiver.onResult
    rw [hopen, if_neg (by simp [hpending]), if_neg hne]
    exact (and_iff_left rfl).trans (hinv.room_onRead_iff hcmds hne)

/-- What such a round leaves to be read. -/
theorem pending_onResult {r : Nat} (hr : 0 < r) (hroom : 0 < s.reader.recvBuf.writableSize)
    (hopen : s.closed = false) (hpending : s.pending ≠ []) :
    (s.onResult r).pending = s.pending.drop (s.arriving r).length := by
  unfold Receiver.onResult
  rw [hopen, if_neg (by simp [hpending]), if_neg (arriving_ne_nil hr hroom hpending)]

/-- In such a round something is read, if there is something. -/
theorem length_pending_onResult {r : Nat} (hr : 0 < r)
    (hroom : 0 < s.reader.recvBuf.writableSize) (hopen : s.closed = false) :
    (s.onResult r).pending.length ≤ s.pending.length - 1 := by
  by_cases hpending : s.pending = []
  · rw [onResult_of_pending_nil hpending, hpending]
    exact Nat.zero_le _
  · have hne := arriving_ne_nil hr hroom hpending
    have hpos := List.length_pos_of_ne_nil hne
    rw [pending_onResult hr hroom hopen hpending, List.length_drop]
    omega

section Schedule

variable {sizes : Nat → Nat} (hcmds : ∀ c ∈ cmds, WellFormed c)
include hcmds

theorem inv_after (i : Nat) : (after (cmds.flatMap encode) sizes i).Inv cmds := by
  induction i with
  | zero => exact inv_start cmds
  | succ i ih => exact ih.onResult hcmds (sizes i)

variable (hsizes : ∀ i, 0 < sizes i)
include hsizes

theorem room_after (hleaves : ∀ i, LeavesRoom (after (cmds.flatMap encode) sizes i) (sizes i))
    (i : Nat) :
    0 < (after (cmds.flatMap encode) sizes i).reader.recvBuf.writableSize ∧
      (after (cmds.flatMap encode) sizes i).closed = false := by
  induction i with
  | zero =>
    have hstart : 0 < Reader.start.recvBuf.writableSize := by decide +kernel
    exact ⟨hstart, rfl⟩
  | succ i ih =>
    exact ((inv_after hcmds i).room_onResult_iff hcmds (hsizes i) ih.1 ih.2).mpr (hleaves i)

omit hcmds in
theorem length_pending_after
    (hroom : ∀ i, 0 < (after (cmds.flatMap encode) sizes i).reader.recvBuf.writableSize ∧
      (after (cmds.flatMap encode) sizes i).closed = false) (i : Nat) :
    (after (cmds.flatMap encode) sizes i).pending.length ≤ (cmds.flatMap encode).length - i := by
  induction i with
  | zero => exact Nat.le_refl _
  | succ i ih =>
    have hless := length_pending_onResult (hsizes i) (hroom i).1 (hroom i).2
    show (Receiver.onResult _ _).pending.length ≤ _
    omega

omit hcmds in
/-- The read that gets the last of the first `n` bytes. -/
theorem exists_read_reaching
    (hroom : ∀ i, 0 < (after (cmds.flatMap encode) sizes i).reader.recvBuf.writableSize ∧
      (after (cmds.flatMap encode) sizes i).closed = false) {n : Nat} (hpos : 0 < n)
    (hn : n ≤ (cmds.flatMap encode).length) :
    ∃ i, (cmds.flatMap encode).length < (after (cmds.flatMap encode) sizes i).pending.length + n ∧
      (after (cmds.flatMap encode) sizes (i + 1)).pending.length + n ≤
        (cmds.flatMap encode).length := by
  have hex : ∃ i, (after (cmds.flatMap encode) sizes i).pending.length + n ≤
      (cmds.flatMap encode).length := by
    have hend := length_pending_after hsizes hroom (cmds.flatMap encode).length
    exact ⟨(cmds.flatMap encode).length, by omega⟩
  have hfind := Nat.find_spec hex
  cases hi : Nat.find hex with
  | zero =>
    rw [hi] at hfind
    have hall :
        (after (cmds.flatMap encode) sizes 0).pending.length = (cmds.flatMap encode).length :=
      rfl
    omega
  | succ i =>
    rw [hi] at hfind
    exact ⟨i, Nat.lt_of_not_le (Nat.find_min hex (by omega)), hfind⟩

omit hcmds hsizes in
/-- The bytes up to the end of a command. -/
theorem length_upTo {j : Nat} (hj : j < cmds.length) :
    0 < ((cmds.take (j + 1)).flatMap encode).length ∧
      ((cmds.take (j + 1)).flatMap encode).length ≤ (cmds.flatMap encode).length := by
  constructor
  · rw [List.take_succ_eq_append_getElem hj, List.flatMap_append, List.length_append,
      List.flatMap_singleton]
    have hone := List.length_pos_of_ne_nil (encode_ne_nil cmds[j])
    omega
  · conv_rhs => rw [← List.take_append_drop (j + 1) cmds, List.flatMap_append, List.length_append]
    exact Nat.le_add_right _ _

omit hcmds hsizes in
/-- A read that gets the last byte of a command makes the buffer hold it as a whole. -/
theorem Inv.holds (hinv : s.Inv cmds) (r : Nat) {j : Nat}
    (hnot : (cmds.flatMap encode).length <
      s.pending.length + ((cmds.take (j + 1)).flatMap encode).length)
    (hnext : (s.pending.drop (s.arriving r).length).length +
      ((cmds.take (j + 1)).flatMap encode).length ≤ (cmds.flatMap encode).length) :
    Holds cmds (s.reader.recvBuf.hasWritten (s.arriving r)) (s.pending.drop (s.arriving r).length)
      j := by
  obtain ⟨-, hbytes, -⟩ := hinv.hasWritten r
  obtain ⟨consumed, left, hcut, hstream⟩ := hinv.stream
  have htake : cmds.take consumed.length = consumed := by
    rw [hcut, List.take_left]
  have hlength :
      (consumed.flatMap encode).length + (s.reader.recvBuf.readable ++ s.pending).length =
      (cmds.flatMap encode).length := by
    rw [hstream, hcut, List.flatMap_append, List.length_append]
  refine ⟨consumed.length, ?_, ?_, ?_⟩
  · -- a command that was consumed had been received before
    by_contra hle
    have hprefix :
        ((cmds.take (j + 1)).flatMap encode).length ≤ (consumed.flatMap encode).length := by
      rw [hcut, List.take_append_of_le_length (by omega),
        ← List.take_append_drop (j + 1) consumed, List.flatMap_append, List.length_append,
        List.take_append_drop]
      exact Nat.le_add_right _ _
    rw [List.length_append] at hlength
    omega
  · rw [htake, hbytes, List.append_assoc, arriving_append, hstream, hcut, List.flatMap_append]
  · rw [htake, hbytes]
    rw [List.length_drop] at hnext
    rw [List.length_append] at hlength ⊢
    omega

/-- A command is in the buffer as a whole when its last byte has been read. -/
theorem holds_of_room
    (hroom : ∀ i, 0 < (after (cmds.flatMap encode) sizes i).reader.recvBuf.writableSize ∧
      (after (cmds.flatMap encode) sizes i).closed = false) {j : Nat} (hj : j < cmds.length) :
    ∃ i, Holds cmds
      ((after (cmds.flatMap encode) sizes i).reader.recvBuf.hasWritten
        ((after (cmds.flatMap encode) sizes i).arriving (sizes i)))
      (after (cmds.flatMap encode) sizes (i + 1)).pending j := by
  obtain ⟨hpos, hle⟩ := length_upTo hj
  obtain ⟨i, hnot, hnext⟩ := exists_read_reaching hsizes hroom hpos hle
  have hpending : (after (cmds.flatMap encode) sizes i).pending ≠ [] := by
    intro hnil
    rw [hnil, List.length_nil] at hnot
    omega
  have hstep : (after (cmds.flatMap encode) sizes (i + 1)).pending = _ :=
    pending_onResult (hsizes i) (hroom i).1 (hroom i).2 hpending
  rw [hstep] at hnext
  refine ⟨i, ?_⟩
  rw [hstep]
  exact (inv_after hcmds i).holds (sizes i) hnot hnext

end Schedule

end Receiver

/-- What is received is not longer than the buffer. -/
theorem Receives.length_le {cmds : List (List Bytes)} (hcmds : ∀ c ∈ cmds, WellFormed c)
    {sizes : Nat → Nat} (h : Receives cmds sizes) {c : List Bytes} (hc : c ∈ cmds) :
    (encode c).length ≤ 1024 := by
  obtain ⟨j, hj, rfl⟩ := List.mem_iff_getElem.mp hc
  obtain ⟨i, a, ha, -, hlast⟩ := h.complete j hj
  have hinv : (after (cmds.flatMap encode) sizes i).Inv cmds := inv_after hcmds i
  obtain ⟨hwf, -, hlength⟩ := hinv.hasWritten (sizes i)
  have hfits : ((after (cmds.flatMap encode) sizes i).reader.recvBuf.hasWritten
      ((after (cmds.flatMap encode) sizes i).arriving (sizes i))).readable.length ≤ 1024 := by
    have hread : 8 ≤ ((after (cmds.flatMap encode) sizes i).reader.recvBuf.hasWritten
      ((after (cmds.flatMap encode) sizes i).arriving (sizes i))).readIndex :=
      Nat.le_trans (Nat.le_of_eq hinv.prepend.symm) hwf.prepend_le
    have hwrite := hwf.write_le
    rw [TcpBuffer.length_readable hwf]
    unfold TcpBuffer.readableSize
    omega
  have hless : ((cmds.take a).flatMap encode).length ≤ ((cmds.take j).flatMap encode).length := by
    rw [← List.take_append_drop a (cmds.take j), List.take_take, Nat.min_eq_left ha,
      List.flatMap_append, List.length_append]
    exact Nat.le_add_right _ _
  rw [List.take_succ_eq_append_getElem hj, List.flatMap_append, List.length_append,
    List.flatMap_singleton] at hlast
  omega

theorem length_lt_encode {c : List Bytes} {s : Bytes} (hs : s ∈ c) :
    s.length < (encode c).length := by
  obtain ⟨before, behind, rfl⟩ := List.append_of_mem hs
  simp only [encode, header, bulk, List.flatMap_append, List.flatMap_cons, List.length_append,
    List.length_cons]
  omega

/-- `SET k` with a value of 1024 bytes. -/
def longSet : List Bytes := [text "SET", text "k", List.replicate 1024 120]

theorem wellFormed_longSet : WellFormed longSet where
  ne_nil := List.cons_ne_nil _ _
  length_lt := by
    show 3 < 2 ^ 63
    decide
  arg_lt := by
    unfold longSet
    rw [List.forall_mem_cons, List.forall_mem_cons, List.forall_mem_singleton,
      List.length_replicate]
    exact ⟨by decide +kernel, by decide +kernel, by decide⟩

end StorageEngine.Network
