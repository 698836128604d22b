/-
  StorageEngine/Net/TcpQueue.lean
  ===============================
  **The byte buffer as a queue** (`net/base/io_buf.cpp`, class `TcpBuffer`).

  Every operation of the buffer with its assertions, its sizes as 64-bit numbers and the
  copy of the readable bytes over themselves.  As long as no sum of sizes wraps around,
  the operations are those of `TcpBuffer.lean`, and a sequence of them is a sequence of
  operations on a queue of bytes.
-/
import StorageEngine.Net.TcpBuffer
import StorageEngine.StepMachine
import Mathlib.Algebra.Group.Nat.Defs

namespace StorageEngine.Net.TcpBuffer

open StorageEngine.StepMachine

/-! ### Sizes and copies -/

/-- The sum of two values of type `size_t`. -/
def add64 (a b : Nat) : Nat := (a + b) % 2 ^ 64

/-- Their difference. -/
def sub64 (a b : Nat) : Nat := (2 ^ 64 + a - b) % 2 ^ 64

theorem add64_eq {a b : Nat} (h : a + b < 2 ^ 64) : add64 a b = a + b := Nat.mod_eq_of_lt h

theorem sub64_eq {a b : Nat} (hle : b ≤ a) (hlt : a < 2 ^ 64) : sub64 a b = a - b := by
  unfold sub64
  rw [Nat.add_sub_assoc hle, Nat.add_mod_left, Nat.mod_eq_of_lt (by omega)]

/-- `std::copy` inside a vector, byte by byte from the front. -/
def copyWithin (l : List UInt8) (first : Nat) : Nat → Nat → List UInt8
  | 0, _ => l
  | n + 1, d => copyWithin (l.set d (l.getD first 0)) (first + 1) n (d + 1)

/-- A copy towards the front reads every byte before it is overwritten. -/
theorem copyWithin_eq_overwrite {l : List UInt8} {first n d : Nat} (hd : d ≤ first)
    (hlen : first + n ≤ l.length) :
    copyWithin l first n d = overwrite l d ((l.drop first).take n) := by
  induction n generalizing l first d with
  | zero => simp [copyWithin, overwrite]
  | succ n ih =>
    have hfirst : first < l.length := by omega
    have hbyte : l.getD first 0 = l[first] := by simp [hfirst]
    have hrest : (l.set d l[first]).drop (first + 1) = l.drop (first + 1) :=
      List.drop_set_of_lt (by omega)
    rw [copyWithin, hbyte, ih (by omega) (by simp; omega), hrest, List.drop_eq_getElem_cons hfirst,
      List.take_succ_cons]
    have htake : (l.set d l[first]).take (d + 1) = l.take d ++ [l[first]] := by
      rw [List.set_eq_take_append_cons_drop, if_pos (by omega), List.append_cons,
        List.take_left' (by simp; omega)]
    unfold overwrite
    rw [htake, List.drop_set_of_lt (by omega), List.length_cons, List.append_assoc,
      List.append_assoc, List.append_assoc, List.singleton_append, Nat.add_right_comm]
    rfl

/-! ### The operations -/

/-- How an operation may fail: by an assertion, or because the vector cannot be that large. -/
inductive Fault where
  | assertion
  | lengthError
deriving DecidableEq, Repr

namespace Checked

/-- `assert`. -/
def require (c : Prop) [Decidable c] : Except Fault Unit :=
  if c then .ok () else .error .assertion

def readableSize (b : TcpBuffer) : Nat := sub64 b.writeIndex b.readIndex

def writableSize (b : TcpBuffer) : Nat := sub64 b.buffer.length b.writeIndex

/-- A buffer on which `check_index_validity` is called. -/
def checkIndexValidity (b : TcpBuffer) : Except Fault TcpBuffer := do
  require (b.prependSize ≤ b.readIndex)
  require (b.readIndex ≤ b.writeIndex)
  return b

def moveReadIndex (b : TcpBuffer) (size : Nat) : Except Fault TcpBuffer := do
  require (size ≤ readableSize b)
  if size < readableSize b then checkIndexValidity { b with readIndex := add64 b.readIndex size }
  else
    let b ← checkIndexValidity b
    checkIndexValidity { b with readIndex := b.prependSize, writeIndex := b.prependSize }

def moveWriteIndex (b : TcpBuffer) (size : Nat) : Except Fault TcpBuffer := do
  require (size ≤ writableSize b)
  return { b with writeIndex := add64 b.writeIndex size }

def reusePrependableSpace (b : TcpBuffer) : Except Fault TcpBuffer :=
  checkIndexValidity { b with
    buffer := copyWithin b.buffer b.readIndex (readableSize b) b.prependSize
    readIndex := b.prependSize
    writeIndex := add64 b.prependSize (readableSize b) }

section

/-! `maxSize` is the size that no vector can exceed. -/

variable (maxSize : Nat)

/-- `buffer_.resize(n)`. -/
def resize (b : TcpBuffer) (n : Nat) : Except Fault TcpBuffer :=
  if maxSize < n then .error .lengthError else .ok (b.resize n)

def expend (b : TcpBuffer) (size : Nat) : Except Fault TcpBuffer := do
  let b ← checkIndexValidity b
  if add64 size b.prependSize < add64 (writableSize b) b.prependableSize then
    reusePrependableSpace b
  else
    let b ← reusePrependableSpace b
    let b ← resize maxSize b (add64 b.writeIndex size)
    checkIndexValidity b

/-- `ensure_appendable` and `ensureWritableBytes`. -/
def ensureAppendable (b : TcpBuffer) (size : Nat) : Except Fault TcpBuffer :=
  (if writableSize b < size then expend maxSize b size else .ok b) >>= fun b => do
    require (size ≤ writableSize b)
    checkIndexValidity b

/-- `append` and `FluentAppend`, that is `appendImp`. -/
def append (b : TcpBuffer) (data : List UInt8) : Except Fault TcpBuffer := do
  let b ← ensureAppendable maxSize b data.length
  moveWriteIndex { b with buffer := overwrite b.buffer b.writeIndex data } data.length

/-- The size of `extrabuf`. -/
def extraSize : Nat := 65536

/-- What the vectors of `appendFormFd` admit: the writable bytes, and the second vector if
    they are fewer than its own. -/
def iovecSize (b : TcpBuffer) : Nat :=
  if writableSize b < extraSize then writableSize b + extraSize else writableSize b

/-- `appendFormFd`, with the bytes that `readv` has delivered. -/
def appendFormFd (b : TcpBuffer) (data : List UInt8) : Except Fault TcpBuffer :=
  let writable := writableSize b
  let b := { b with buffer := overwrite b.buffer b.writeIndex (data.take writable) }
  if 0 < data.length then
    if data.length ≤ writableSize b then moveWriteIndex b data.length
    else append maxSize { b with writeIndex := b.buffer.length } (data.drop writable)
  else .ok b

end

def retrieve (b : TcpBuffer) (size : Nat) : Except Fault TcpBuffer :=
  if size ≤ readableSize b then moveReadIndex b size else .ok b

def retrieveAll (b : TcpBuffer) : Except Fault TcpBuffer := retrieve b (readableSize b)

/-- Bytes stored at `BeginWrite()`, followed by `hasWritten` with their number. -/
def hasWritten (b : TcpBuffer) (data : List UInt8) : Except Fault TcpBuffer := do
  require (data.length ≤ writableSize b)
  checkIndexValidity { b with
    buffer := overwrite b.buffer b.writeIndex data
    writeIndex := add64 b.writeIndex data.length }

def unwrite (b : TcpBuffer) (len : Nat) : Except Fault TcpBuffer := do
  require (len ≤ readableSize b)
  checkIndexValidity { b with writeIndex := sub64 b.writeIndex len }

end Checked

/-! ### Without wrapping around -/

namespace Checked

variable {b : TcpBuffer}

@[simp] theorem require_of {c : Prop} [Decidable c] (h : c) : require c = .ok () := if_pos h

theorem ok_bind {α β : Type} (a : α) (f : α → Except Fault β) : (Except.ok a >>= f) = f a := rfl

theorem checkIndexValidity_of (h : b.WF) : checkIndexValidity b = .ok b := by
  unfold checkIndexValidity
  rw [require_of h.prepend_le, require_of h.read_le]
  rfl

section

variable (h : b.WF) (hlen : b.buffer.length < 2 ^ 63)

include h hlen

theorem readableSize_eq : readableSize b = b.readableSize := by
  have hwrite := h.write_le
  exact sub64_eq h.read_le (by omega)

theorem writableSize_eq : writableSize b = b.writableSize :=
  sub64_eq h.write_le (by omega)

theorem moveReadIndex_of {size : Nat} (hsize : size ≤ b.readableSize) :
    moveReadIndex b size = .ok (b.moveReadIndex size) := by
  have hwrite := h.write_le
  have hread := h.read_le
  have hwf := (moveReadIndex_spec h hsize).1
  unfold moveReadIndex
  rw [readableSize_eq h hlen, require_of hsize, ok_bind]
  unfold TcpBuffer.moveReadIndex at hwf ⊢
  split at hwf
  · rename_i hlt
    rw [if_pos hlt, if_pos hlt]
    unfold TcpBuffer.readableSize at hlt
    rw [add64_eq (by omega), checkIndexValidity_of hwf]
  · rename_i hlt
    rw [if_neg hlt, if_neg hlt, checkIndexValidity_of h, ok_bind, checkIndexValidity_of hwf]

theorem moveWriteIndex_of {size : Nat} (hsize : size ≤ b.writableSize) :
    moveWriteIndex b size = .ok (b.moveWriteIndex size) := by
  have hwrite := h.write_le
  unfold moveWriteIndex
  rw [writableSize_eq h hlen, require_of hsize, ok_bind]
  unfold TcpBuffer.writableSize at hsize
  rw [add64_eq (by omega)]
  rfl

theorem reusePrependableSpace_of : reusePrependableSpace b = .ok b.reusePrependableSpace := by
  have hwrite := h.write_le
  have hread := h.read_le
  have hprep := h.prepend_le
  have hwf := (reuse_spec h).1
  have hreadable : b.readableSize = b.writeIndex - b.readIndex := rfl
  have hbytes : (b.buffer.drop b.readIndex).take b.readableSize = b.readable := by
    rw [readable, List.drop_take, hreadable]
  unfold reusePrependableSpace
  rw [readableSize_eq h hlen, copyWithin_eq_overwrite h.prepend_le (by omega), hbytes,
    add64_eq (by omega)]
  exact checkIndexValidity_of hwf

theorem hasWritten_of {data : List UInt8} (hfit : data.length ≤ b.writableSize) :
    hasWritten b data = .ok (b.hasWritten data) := by
  have hwrite := h.write_le
  have hwf := (readable_hasWritten h hfit).1
  unfold hasWritten
  rw [writableSize_eq h hlen, require_of hfit, ok_bind]
  unfold TcpBuffer.writableSize at hfit
  rw [add64_eq (by omega)]
  exact checkIndexValidity_of hwf

/-- Bytes that are stored at the write index and then counted. -/
theorem store_of {data : List UInt8} (hfit : data.length ≤ b.writableSize) :
    moveWriteIndex { b with buffer := overwrite b.buffer b.writeIndex data } data.length =
      .ok (b.hasWritten data) ∧ (b.hasWritten data).buffer.length = b.buffer.length := by
  have hwrite := h.write_le
  have hover : (overwrite b.buffer b.writeIndex data).length = b.buffer.length := by
    unfold TcpBuffer.writableSize at hfit
    exact length_overwrite (by omega)
  have hwf : WF { b with buffer := overwrite b.buffer b.writeIndex data } :=
    ⟨h.prepend_le, h.read_le, Nat.le_trans hwrite (Nat.le_of_eq hover.symm)⟩
  refine ⟨moveWriteIndex_of hwf (Nat.lt_of_le_of_lt (Nat.le_of_eq hover) hlen) ?_, hover⟩
  unfold TcpBuffer.writableSize at hfit ⊢
  dsimp only
  rwa [hover]

/-- Storing bytes does not change what is writable. -/
theorem writableSize_store {data : List UInt8} (hfit : data.length ≤ b.writableSize) :
    writableSize { b with buffer := overwrite b.buffer b.writeIndex data } = b.writableSize := by
  rw [← writableSize_eq h hlen]
  exact congrArg (sub64 · b.writeIndex) (store_of h hlen hfit).2

theorem unwrite_of {len : Nat} (hsize : len ≤ b.readableSize) :
    unwrite b len = .ok { b with writeIndex := b.writeIndex - len } ∧
      WF { b with writeIndex := b.writeIndex - len } ∧
      readable { b with writeIndex := b.writeIndex - len } =
        b.readable.take (b.readable.length - len) := by
  have hwrite := h.write_le
  have hread := h.read_le
  have hreadable : b.readableSize = b.writeIndex - b.readIndex := rfl
  have hwf : WF { b with writeIndex := b.writeIndex - len } :=
    ⟨h.prepend_le, by simp only; omega, by simp only; omega⟩
  refine ⟨?_, hwf, ?_⟩
  · unfold unwrite
    rw [readableSize_eq h hlen, require_of hsize, ok_bind, sub64_eq (by omega) (by omega)]
    exact checkIndexValidity_of hwf
  · have hindex : b.writeIndex - len = b.readIndex + (b.readableSize - len) := by omega
    rw [length_readable h]
    unfold readable
    dsimp only
    rw [List.take_drop, List.take_take, Nat.min_eq_left (by omega), hindex]

end

/-- The operation ends in the buffer, or the vector would be too large. -/
def EndsIn (maxSize : Nat) (r : Except Fault TcpBuffer) (b : TcpBuffer) : Prop :=
  r = .error .lengthError ∨ (r = .ok b ∧ b.buffer.length ≤ maxSize)

theorem EndsIn.bind {maxSize : Nat} {r : Except Fault TcpBuffer}
    {f : TcpBuffer → Except Fault TcpBuffer} {b' : TcpBuffer} (hr : EndsIn maxSize r b)
    (hf : b.buffer.length ≤ maxSize → EndsIn maxSize (f b) b') : EndsIn maxSize (r >>= f) b' := by
  rcases hr with rfl | ⟨rfl, hlen⟩
  · exact Or.inl rfl
  · exact hf hlen

section Growth

variable {maxSize : Nat} (h : b.WF) (hlen : b.buffer.length ≤ maxSize) (hmax : maxSize < 2 ^ 63)

include h hlen hmax

theorem expend_of {size : Nat} (hfit : size + (b.prependSize + b.readableSize) < 2 ^ 64) :
    EndsIn maxSize (expend maxSize b size) (b.expend size) := by
  have hlen' : b.buffer.length < 2 ^ 63 := by omega
  have hwrite := h.write_le
  obtain ⟨hreuse, -, hreuseLen⟩ := reuse_spec h
  have hsum : add64 b.writableSize b.prependableSize = b.writableSize + b.prependableSize := by
    have hread := h.read_le
    unfold TcpBuffer.writableSize prependableSize
    exact add64_eq (by omega)
  unfold expend
  rw [checkIndexValidity_of h, ok_bind, writableSize_eq h hlen', hsum, add64_eq (by omega),
    reusePrependableSpace_of h hlen']
  unfold TcpBuffer.expend
  split
  · exact Or.inr ⟨rfl, by omega⟩
  · have hindex : b.reusePrependableSpace.writeIndex = b.prependSize + b.readableSize := rfl
    rw [ok_bind, add64_eq (by omega)]
    unfold resize
    split
    · exact Or.inl rfl
    · rename_i hfits
      obtain ⟨hres, -, hresLen⟩ :=
        resize_spec hreuse (Nat.le_add_right b.reusePrependableSpace.writeIndex size)
      rw [ok_bind, checkIndexValidity_of hres]
      exact Or.inr ⟨rfl, by rw [hresLen]; omega⟩

theorem ensureAppendable_of {size : Nat}
    (hfit : size ≤ b.writableSize ∨ size + (b.prependSize + b.readableSize) < 2 ^ 64) :
    EndsIn maxSize (ensureAppendable maxSize b size) (b.ensureAppendable size) := by
  obtain ⟨hwf, -, hroom⟩ := ensureAppendable_spec h size
  have hroomy : EndsIn maxSize (if writableSize b < size then expend maxSize b size else .ok b)
      (b.ensureAppendable size) := by
    unfold TcpBuffer.ensureAppendable
    rw [writableSize_eq h (by omega)]
    split
    · exact expend_of h hlen hmax (by omega)
    · exact Or.inr ⟨rfl, hlen⟩
  unfold ensureAppendable
  refine hroomy.bind fun hlen' => Or.inr ⟨?_, hlen'⟩
  rw [writableSize_eq hwf (by omega), require_of hroom, ok_bind, checkIndexValidity_of hwf]

theorem append_of {data : List UInt8} (hdata : data.length < 2 ^ 63) :
    EndsIn maxSize (append maxSize b data) (b.append data) := by
  have hwrite := h.write_le
  have hread := h.read_le
  have hprep := h.prepend_le
  have hreadable : b.readableSize = b.writeIndex - b.readIndex := rfl
  obtain ⟨hwf, -, hroom⟩ := ensureAppendable_spec h data.length
  unfold append
  refine (ensureAppendable_of h hlen hmax (Or.inr (by omega))).bind fun hsize => ?_
  obtain ⟨hstore, hsame⟩ := store_of hwf (by omega) hroom
  exact Or.inr ⟨hstore, by rw [← hsame] at hsize; exact hsize⟩

/-- `appendFormFd` adds the bytes of both vectors. -/
theorem appendFormFd_of {data : List UInt8} (hfit : data.length ≤ iovecSize b) :
    ∃ b' : TcpBuffer, EndsIn maxSize (appendFormFd maxSize b data) b' ∧ b'.WF ∧
      b'.readable = b.readable ++ data := by
  have hlen' : b.buffer.length < 2 ^ 63 := by omega
  have hwritable := writableSize_eq h hlen'
  have hwrite := h.write_le
  unfold appendFormFd
  rw [hwritable]
  by_cases hshort : data.length ≤ b.writableSize
  · obtain ⟨hstore, hsame⟩ := store_of h hlen' hshort
    obtain ⟨hwf, hbytes⟩ := readable_hasWritten h hshort
    refine ⟨b.hasWritten data, Or.inr ⟨?_, by omega⟩, hwf, hbytes⟩
    dsimp only
    rw [List.take_of_length_le hshort]
    by_cases hpos : 0 < data.length
    · rw [if_pos hpos, writableSize_store h hlen' hshort, if_pos hshort, hstore]
    · obtain rfl := List.eq_nil_of_length_eq_zero (Nat.eq_zero_of_not_pos hpos)
      rfl
  · -- the buffer is filled to its end, and the rest of the bytes is appended
    have hfill : (data.take b.writableSize).length = b.writableSize := by
      rw [List.length_take]
      omega
    obtain ⟨hwf, hbytes⟩ := readable_hasWritten h (Nat.le_of_eq hfill)
    obtain ⟨-, hsame⟩ := store_of h hlen' (Nat.le_of_eq hfill)
    have hfull : { b with
        buffer := overwrite b.buffer b.writeIndex (data.take b.writableSize)
        writeIndex := (overwrite b.buffer b.writeIndex (data.take b.writableSize)).length } =
          b.hasWritten (data.take b.writableSize) := by
      have hend : (overwrite b.buffer b.writeIndex (data.take b.writableSize)).length =
          b.writeIndex + (data.take b.writableSize).length := by
        rw [show (overwrite b.buffer b.writeIndex (data.take b.writableSize)).length = _ from hsame,
          hfill, TcpBuffer.writableSize]
        omega
      rw [hend]
      rfl
    obtain ⟨hwf', hbytes'⟩ := readable_append hwf (data.drop b.writableSize)
    refine ⟨(b.hasWritten (data.take b.writableSize)).append (data.drop b.writableSize),
      ?_, hwf', ?_⟩
    · dsimp only
      rw [if_pos (by omega), writableSize_store h hlen' (Nat.le_of_eq hfill), if_neg hshort, hfull]
      refine append_of hwf (by omega) hmax ?_
      unfold iovecSize extraSize at hfit
      rw [List.length_drop]
      split at hfit <;> omega
    · rw [hbytes', hbytes, List.append_assoc, List.take_append_drop]

end Growth

end Checked

/-! ### Sequences of operations -/

/-- An operation, with the bytes that are stored by it or before it. -/
inductive Op where
  | append (data : List UInt8)
  | fluentAppend (data : List UInt8)
  | hasWritten (data : List UInt8)
  | ensureWritableBytes (n : Nat)
  | consume (n : Nat)
  | retrieve (n : Nat)
  | retrieveAll
  | unwrite (n : Nat)
  | appendFormFd (data : List UInt8)
deriving DecidableEq, Repr

/-- What an operation does to a queue of bytes. -/
def Op.queue (q : List UInt8) : Op → List UInt8
  | .append data | .fluentAppend data | .hasWritten data | .appendFormFd data => q ++ data
  | .ensureWritableBytes _ => q
  | .consume n => q.drop n
  | .retrieve n => if n ≤ q.length then q.drop n else q
  | .retrieveAll => []
  | .unwrite n => q.take (q.length - n)

/-- The constructor. -/
def construct (maxSize initialSize prependSize : Nat) : Except Fault TcpBuffer :=
  if maxSize < add64 prependSize initialSize then .error .lengthError
  else .ok
    { buffer := List.replicate (add64 prependSize initialSize) 0
      prependSize := prependSize
      readIndex := prependSize
      writeIndex := prependSize }

section

variable (maxSize : Nat)

def exec (b : TcpBuffer) : Op → Except Fault TcpBuffer
  | .append data | .fluentAppend data => Checked.append maxSize b data
  | .hasWritten data => Checked.hasWritten b data
  | .ensureWritableBytes n => Checked.ensureAppendable maxSize b n
  | .consume n => Checked.moveReadIndex b n
  | .retrieve n => Checked.retrieve b n
  | .retrieveAll => Checked.retrieveAll b
  | .unwrite n => Checked.unwrite b n
  | .appendFormFd data => Checked.appendFormFd maxSize b data

/-- An operation that neither fails an assertion nor throws. -/
def opStep (b : TcpBuffer) (op : Op) : Option TcpBuffer := (exec maxSize b op).toOption

end

/-- What the operations ask of their callers: bytes that are somewhere in memory, and numbers
    that do not exceed what is readable, writable or admitted by the vectors of a read. -/
def Op.Admissible (b : TcpBuffer) : Op → Prop
  | .append data | .fluentAppend data => data.length < 2 ^ 63
  | .hasWritten data => data.length ≤ Checked.writableSize b
  | .ensureWritableBytes n => n < 2 ^ 64
  | .consume n => n ≤ Checked.readableSize b
  | .retrieve n => n < 2 ^ 64
  | .retrieveAll => True
  | .unwrite n => n ≤ Checked.readableSize b
  | .appendFormFd data => data.length ≤ Checked.iovecSize b

/-- The sizes that are asked for do not wrap around. -/
def Op.NoWrap (b : TcpBuffer) : Op → Prop
  | .ensureWritableBytes n =>
    n ≤ b.writableSize ∨ n + (b.prependSize + b.readableSize) < 2 ^ 64
  | _ => True

/-- **One operation**: no assertion fails, and the readable bytes are those of the queue. -/
theorem exec_spec {maxSize : Nat} {b : TcpBuffer} {op : Op} (h : b.WF)
    (hlen : b.buffer.length ≤ maxSize) (hmax : maxSize < 2 ^ 63) (hadm : op.Admissible b)
    (hwrap : op.NoWrap b) :
    ∃ b' : TcpBuffer, Checked.EndsIn maxSize (exec maxSize b op) b' ∧ b'.WF ∧
      b'.readable = op.queue b.readable := by
  have hlen' : b.buffer.length < 2 ^ 63 := by omega
  have hsize := length_readable h
  have happend : ∀ data : List UInt8, data.length < 2 ^ 63 →
      ∃ b' : TcpBuffer, Checked.EndsIn maxSize (Checked.append maxSize b data) b' ∧ b'.WF ∧
        b'.readable = b.readable ++ data := by
    intro data hdata
    obtain ⟨hwf, hbytes⟩ := readable_append h data
    exact ⟨_, Checked.append_of h hlen hmax hdata, hwf, hbytes⟩
  have hmove : ∀ n, n ≤ b.readableSize →
      ∃ b' : TcpBuffer, Checked.EndsIn maxSize (Checked.moveReadIndex b n) b' ∧ b'.WF ∧
        b'.readable = b.readable.drop n := by
    intro n hn
    obtain ⟨hwf, hbytes⟩ := moveReadIndex_spec h hn
    refine ⟨_, Or.inr ⟨Checked.moveReadIndex_of h hlen' hn, ?_⟩, hwf, hbytes⟩
    unfold moveReadIndex
    split <;> exact hlen
  cases op with
  | append data => exact happend data hadm
  | fluentAppend data => exact happend data hadm
  | hasWritten data =>
    have hfit : data.length ≤ b.writableSize := Checked.writableSize_eq h hlen' ▸ hadm
    obtain ⟨hwf, hbytes⟩ := readable_hasWritten h hfit
    have hsame := (Checked.store_of h hlen' hfit).2
    exact ⟨_, Or.inr ⟨Checked.hasWritten_of h hlen' hfit, by omega⟩, hwf, hbytes⟩
  | ensureWritableBytes n =>
    obtain ⟨hwf, hbytes, -⟩ := ensureAppendable_spec h n
    exact ⟨_, Checked.ensureAppendable_of h hlen hmax hwrap, hwf, hbytes⟩
  | consume n => exact hmove n (Checked.readableSize_eq h hlen' ▸ hadm)
  | retrieve n =>
    show ∃ b' : TcpBuffer, Checked.EndsIn maxSize (Checked.retrieve b n) b' ∧ b'.WF ∧
      b'.readable = if n ≤ b.readable.length then b.readable.drop n else b.readable
    unfold Checked.retrieve
    rw [Checked.readableSize_eq h hlen', hsize]
    split
    · rename_i hn
      exact hmove n hn
    · exact ⟨b, Or.inr ⟨rfl, hlen⟩, h, rfl⟩
  | retrieveAll =>
    obtain ⟨b', hends, hwf, hbytes⟩ := hmove b.readableSize (Nat.le_refl _)
    refine ⟨b', ?_, hwf, ?_⟩
    · show Checked.EndsIn maxSize (Checked.retrieve b (Checked.readableSize b)) b'
      unfold Checked.retrieve
      rwa [if_pos (Nat.le_refl _), Checked.readableSize_eq h hlen']
    · rw [hbytes, List.drop_eq_nil_of_le (Nat.le_of_eq hsize)]
      rfl
  | unwrite n =>
    obtain ⟨hok, hwf, hbytes⟩ :=
      Checked.unwrite_of h hlen' (Checked.readableSize_eq h hlen' ▸ hadm : n ≤ b.readableSize)
    exact ⟨_, Or.inr ⟨hok, hlen⟩, hwf, hbytes⟩
  | appendFormFd data => exact Checked.appendFormFd_of h hlen hmax hadm

/-! ### Wrapping around -/

namespace Checked

theorem require_cases (c : Prop) [Decidable c] :
    require c = .ok () ∨ require c = .error .assertion := by
  unfold require
  split
  · exact Or.inl rfl
  · exact Or.inr rfl

theorem checkIndexValidity_cases (b : TcpBuffer) :
    checkIndexValidity b = .ok b ∨ checkIndexValidity b = .error .assertion := by
  unfold checkIndexValidity
  rcases require_cases (b.prependSize ≤ b.readIndex) with h | h <;> rw [h]
  · rcases require_cases (b.readIndex ≤ b.writeIndex) with h | h <;> rw [h]
    · exact Or.inl rfl
    · exact Or.inr rfl
  · exact Or.inr rfl

/-- A request that wraps around fails an assertion, or leaves the write index outside of the
    vector. -/
theorem ensureAppendable_wrap {maxSize : Nat} {b : TcpBuffer} (h : b.WF)
    (hlen : b.buffer.length ≤ maxSize) (hmax : maxSize < 2 ^ 63) {n : Nat} (hn : n < 2 ^ 64)
    (hwritable : b.writableSize < n) (hwrap : 2 ^ 64 ≤ n + (b.prependSize + b.readableSize)) :
    ensureAppendable maxSize b n = .error .assertion ∨
      ∃ b', ensureAppendable maxSize b n = .ok b' ∧ ¬ b'.WF := by
  have hlen' : b.buffer.length < 2 ^ 63 := by omega
  have hwrite := h.write_le
  have hread := h.read_le
  have hprep := h.prepend_le
  have hreadable : b.readableSize = b.writeIndex - b.readIndex := rfl
  obtain ⟨hreuse, -, hreuseLen⟩ := reuse_spec h
  have hindex : b.reusePrependableSpace.writeIndex = b.prependSize + b.readableSize := rfl
  have hsum : add64 b.writableSize b.prependableSize = b.writableSize + b.readIndex := by
    unfold TcpBuffer.writableSize prependableSize
    exact add64_eq (by omega)
  unfold ensureAppendable
  rw [writableSize_eq h hlen', if_pos hwritable]
  unfold expend
  rw [checkIndexValidity_of h, ok_bind, writableSize_eq h hlen', hsum,
    reusePrependableSpace_of h hlen']
  by_cases hfirst : n + b.prependSize < 2 ^ 64
  · -- the vector is resized to fewer bytes than are readable
    have hwrapped : add64 (b.prependSize + b.readableSize) n < b.prependSize + b.readableSize := by
      unfold add64
      omega
    rw [add64_eq hfirst, if_neg (by unfold TcpBuffer.writableSize at hwritable ⊢; omega), ok_bind,
      hindex]
    unfold resize
    rw [if_neg (by omega), ok_bind]
    have hlength : (b.reusePrependableSpace.resize
        (add64 (b.prependSize + b.readableSize) n)).buffer.length =
          add64 (b.prependSize + b.readableSize) n := by
      simp only [TcpBuffer.resize, List.length_append, List.length_take, List.length_replicate]
      omega
    have hbroken : ¬ (b.reusePrependableSpace.resize
        (add64 (b.prependSize + b.readableSize) n)).WF := by
      intro hwf
      have hle := hwf.write_le
      rw [hlength] at hle
      have : b.prependSize + b.readableSize ≤ add64 (b.prependSize + b.readableSize) n := hle
      omega
    rcases checkIndexValidity_cases (b.reusePrependableSpace.resize
      (add64 (b.prependSize + b.readableSize) n)) with hcheck | hcheck
    · rw [hcheck, ok_bind]
      rcases require_cases (n ≤ writableSize (b.reusePrependableSpace.resize
        (add64 (b.prependSize + b.readableSize) n))) with hreq | hreq
      · rw [hreq, ok_bind, hcheck]
        exact Or.inr ⟨_, rfl, hbroken⟩
      · rw [hreq]
        exact Or.inl rfl
    · rw [hcheck]
      exact Or.inl rfl
  · -- the comparison says that there is room enough
    have hwrapped : add64 n b.prependSize < b.writableSize + b.readIndex := by
      unfold add64
      omega
    rw [if_pos hwrapped, ok_bind, writableSize_eq hreuse (by omega)]
    refine Or.inl ?_
    have hno : ¬ n ≤ b.reusePrependableSpace.writableSize := by
      unfold TcpBuffer.writableSize
      omega
    unfold require
    rw [if_neg hno]
    rfl

end Checked

/-! ### The buffer is a queue -/

/-- In a sequence of operations no assertion fails, and every buffer on the way has its indices
    in order and the bytes of the queue between them. -/
def Fifo (maxSize : Nat) (b : TcpBuffer) (ops : List Op) : Prop :=
  Along (opStep maxSize) (fun b op => exec maxSize b op ≠ .error .assertion) b ops ∧
    ∀ before after b', ops = before ++ after → run (opStep maxSize) b before = some b' →
      b'.WF ∧ b'.readable = before.foldl Op.queue b.readable

section

variable {maxSize : Nat} {b : TcpBuffer} {ops : List Op}

theorem opStep_spec {b' : TcpBuffer} {op : Op} (h : b.WF) (hlen : b.buffer.length ≤ maxSize)
    (hmax : maxSize < 2 ^ 63) (hadm : op.Admissible b) (hwrap : op.NoWrap b)
    (hstep : opStep maxSize b op = some b') :
    b'.WF ∧ b'.buffer.length ≤ maxSize ∧ b'.readable = op.queue b.readable := by
  obtain ⟨c, hends, hwf, hbytes⟩ := exec_spec h hlen hmax hadm hwrap
  unfold opStep at hstep
  rcases hends with hthrow | ⟨hok, hsize⟩
  · rw [hthrow] at hstep
    cases hstep
  · rw [hok] at hstep
    cases hstep
    exact ⟨hwf, hsize, hbytes⟩

theorem fifo_nil : Fifo maxSize b [] ↔ b.WF := by
  constructor
  · intro hfifo
    exact (hfifo.2 [] [] b rfl rfl).1
  · intro h
    refine ⟨along_nil _ _, ?_⟩
    intro before after b' heq hrun
    obtain ⟨rfl, rfl⟩ := List.append_eq_nil_iff.mp heq.symm
    cases hrun
    exact ⟨h, rfl⟩

theorem fifo_cons {op : Op} : Fifo maxSize b (op :: ops) ↔
    b.WF ∧ exec maxSize b op ≠ .error .assertion ∧
      ∀ t, opStep maxSize b op = some t →
        t.readable = op.queue b.readable ∧ Fifo maxSize t ops := by
  constructor
  · rintro ⟨hasserts, hstates⟩
    obtain ⟨hfirst, hrest⟩ := along_cons.mp hasserts
    refine ⟨(hstates [] (op :: ops) b rfl rfl).1, hfirst, ?_⟩
    intro t ht
    have hqueue : t.readable = op.queue b.readable :=
      (hstates [op] ops t rfl (run_cons_eq_some.mpr ⟨t, ht, rfl⟩)).2
    refine ⟨hqueue, hrest t ht, ?_⟩
    rintro before after b' rfl hrun
    have hstate := hstates (op :: before) after b' rfl (run_cons_eq_some.mpr ⟨t, ht, hrun⟩)
    rwa [List.foldl_cons, ← hqueue] at hstate
  · rintro ⟨h, hfirst, hrest⟩
    refine ⟨along_cons.mpr ⟨hfirst, fun t ht => (hrest t ht).2.1⟩, ?_⟩
    intro before after b' heq hrun
    cases before with
    | nil =>
      cases hrun
      exact ⟨h, rfl⟩
    | cons op' before =>
      obtain ⟨rfl, rfl⟩ := List.cons.inj heq
      obtain ⟨t, ht, hrun⟩ := run_cons_eq_some.mp hrun
      obtain ⟨hqueue, -, hstates⟩ := hrest t ht
      rw [List.foldl_cons, ← hqueue]
      exact hstates before after b' rfl hrun

/-- A request that wraps around ends the queue. -/
theorem noWrap_of_exec {op : Op} (h : b.WF) (hlen : b.buffer.length ≤ maxSize)
    (hmax : maxSize < 2 ^ 63) (hadm : op.Admissible b)
    (hassert : exec maxSize b op ≠ .error .assertion)
    (hwf : ∀ t, opStep maxSize b op = some t → t.WF) : op.NoWrap b := by
  cases op with
  | ensureWritableBytes n =>
    by_contra hwrap
    obtain ⟨hwritable, hsum⟩ := not_or.mp hwrap
    rcases Checked.ensureAppendable_wrap h hlen hmax hadm (Nat.lt_of_not_le hwritable)
      (Nat.le_of_not_lt hsum) with herr | ⟨b', hok, hbroken⟩
    · exact hassert herr
    · refine hbroken (hwf b' ?_)
      show (Checked.ensureAppendable maxSize b n).toOption = some b'
      rw [hok]
      rfl
  | _ => trivial

theorem fifo_iff_noWrap (h : b.WF) (hlen : b.buffer.length ≤ maxSize) (hmax : maxSize < 2 ^ 63)
    (hadm : Along (opStep maxSize) Op.Admissible b ops) :
    Fifo maxSize b ops ↔ Along (opStep maxSize) Op.NoWrap b ops := by
  induction ops generalizing b with
  | nil => exact iff_of_true (fifo_nil.mpr h) (along_nil _ _)
  | cons op ops ih =>
    obtain ⟨hfirst, hrest⟩ := along_cons.mp hadm
    rw [fifo_cons, along_cons]
    constructor
    · rintro ⟨-, hassert, hnext⟩
      have hwrap : op.NoWrap b :=
        noWrap_of_exec h hlen hmax hfirst hassert fun t ht =>
          ((hnext t ht).2.2 [] ops t rfl rfl).1
      refine ⟨hwrap, ?_⟩
      intro t ht
      obtain ⟨hwf, hsize, -⟩ := opStep_spec h hlen hmax hfirst hwrap ht
      exact (ih hwf hsize (hrest t ht)).mp (hnext t ht).2
    · rintro ⟨hwrap, hnext⟩
      refine ⟨h, ?_, ?_⟩
      · obtain ⟨b', hends, -, -⟩ := exec_spec h hlen hmax hfirst hwrap
        rcases hends with herr | ⟨hok, -⟩
        · rw [herr]
          simp
        · rw [hok]
          simp
      · intro t ht
        obtain ⟨hwf, hsize, hqueue⟩ := opStep_spec h hlen hmax hfirst hwrap ht
        exact ⟨hqueue, (ih hwf hsize (hrest t ht)).mpr (hnext t ht)⟩

end

/-- **When the buffer is a queue of bytes**: exactly when the size that it is constructed with
    and the sizes that are asked for do not wrap around. -/
theorem fifo_iff (maxSize initialSize prependSize : Nat) (b : TcpBuffer) (ops : List Op)
    (hmax : maxSize < 2 ^ 63) (hinitial : initialSize < 2 ^ 64) (hprepend : prependSize < 2 ^ 64)
    (hnew : construct maxSize initialSize prependSize = .ok b)
    (hadm : Along (opStep maxSize) Op.Admissible b ops) :
    Fifo maxSize b ops ↔
      prependSize + initialSize < 2 ^ 64 ∧ Along (opStep maxSize) Op.NoWrap b ops := by
  unfold construct at hnew
  split at hnew
  · cases hnew
  · rename_i hsize
    cases hnew
    by_cases hsum : prependSize + initialSize < 2 ^ 64
    · rw [and_iff_right hsum]
      rw [add64_eq hsum] at hsize hadm ⊢
      refine fifo_iff_noWrap (wf_new initialSize prependSize) ?_ hmax hadm
      rw [List.length_replicate]
      omega
    · refine iff_of_false ?_ fun hcond => hsum hcond.1
      intro hfifo
      have hle := (hfifo.2 [] ops _ rfl rfl).1.write_le
      simp only [List.length_replicate, add64] at hle
      omega

/-- A buffer that is used once. -/
theorem fifo_append :
    Along (opStep 64) Op.NoWrap (new 4 2) [.append [1, 2, 3, 4, 5]] ∧
      Fifo 64 (new 4 2) [.append [1, 2, 3, 4, 5]] := by
  have hwrap : Along (opStep 64) Op.NoWrap (new 4 2) [.append [1, 2, 3, 4, 5]] :=
    along_cons.mpr ⟨trivial, fun _ _ => along_nil _ _⟩
  have hadm : Along (opStep 64) Op.Admissible (new 4 2) [.append [1, 2, 3, 4, 5]] :=
    along_cons.mpr ⟨by simp [Op.Admissible], fun _ _ => along_nil _ _⟩
  exact ⟨hwrap, (fifo_iff 64 4 2 (new 4 2) _ (by decide) (by decide) (by decide) rfl hadm).mpr
    ⟨by decide, hwrap⟩⟩

/-- One readable byte behind eight reserved ones, and a request for 2⁶⁴ - 9 bytes: the vector is
    resized to nothing, and no assertion notices. -/
theorem not_fifo_shrink :
    Along (opStep (2 ^ 63 - 1)) Op.Admissible (new 4 8)
        [.append [1], .ensureWritableBytes (2 ^ 64 - 9)] ∧
      run (opStep (2 ^ 63 - 1)) (new 4 8) [.append [1], .ensureWritableBytes (2 ^ 64 - 9)] =
        some { buffer := [], prependSize := 8, readIndex := 8, writeIndex := 9 } ∧
      ¬ Fifo (2 ^ 63 - 1) (new 4 8) [.append [1], .ensureWritableBytes (2 ^ 64 - 9)] := by
  have hrun : run (opStep (2 ^ 63 - 1)) (new 4 8)
      [.append [1], .ensureWritableBytes (2 ^ 64 - 9)] =
        some { buffer := [], prependSize := 8, readIndex := 8, writeIndex := 9 } := by
    decide +kernel
  refine ⟨?_, hrun, ?_⟩
  · refine along_cons.mpr ⟨by simp [Op.Admissible], fun t _ => ?_⟩
    exact along_cons.mpr ⟨by simp [Op.Admissible], fun _ _ => along_nil _ _⟩
  · intro hfifo
    have hle := (hfifo.2 _ [] _ (List.append_nil _).symm hrun).1.write_le
    exact absurd hle (by decide)

end StorageEngine.Net.TcpBuffer
