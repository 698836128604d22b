/-
  StorageEngine/Net/TcpBuffer.lean
  ================================
  **The byte buffer of a connection** (`net/base/io_buf.cpp`, class `TcpBuffer`).

  A vector with a read and a write index.  Seen from outside it is a queue of bytes:
  `readable` is what lies between the two indices, an append adds at the back and
  `retrieve` and `consume` drop at the front.  The indices move on the way: an append
  may first shift the readable bytes to the front and grow the vector, and a buffer
  that becomes empty starts over.
-/
import Mathlib.Data.List.Basic
import Mathlib.Data.List.TakeDrop

namespace StorageEngine.Net

/-- `TcpBuffer`, with `buffer_` as the list of its bytes. -/
structure TcpBuffer where
  buffer : List UInt8
  prependSize : Nat
  readIndex : Nat
  writeIndex : Nat
deriving DecidableEq, Repr

namespace TcpBuffer

/-- The constructor. -/
def new (initialSize prependSize : Nat) : TcpBuffer where
  buffer := List.replicate (prependSize + initialSize) 0
  prependSize := prependSize
  readIndex := prependSize
  writeIndex := prependSize

/-- The default arguments of the constructor. -/
def initial : TcpBuffer := new 1024 8

def readableSize (b : TcpBuffer) : Nat := b.writeIndex - b.readIndex

def writableSize (b : TcpBuffer) : Nat := b.buffer.length - b.writeIndex

def prependableSize (b : TcpBuffer) : Nat := b.readIndex

/-- The bytes between the indices. -/
def readable (b : TcpBuffer) : List UInt8 := (b.buffer.take b.writeIndex).drop b.readIndex

/-- Overwriting the vector from an index on, as `std::copy` and a read into the buffer do. -/
def overwrite (l : List UInt8) (i : Nat) (data : List UInt8) : List UInt8 :=
  l.take i ++ data ++ l.drop (i + data.length)

def moveReadIndex (b : TcpBuffer) (size : Nat) : TcpBuffer :=
  if size < b.readableSize then { b with readIndex := b.readIndex + size }
  else { b with readIndex := b.prependSize, writeIndex := b.prependSize }

def moveWriteIndex (b : TcpBuffer) (size : Nat) : TcpBuffer :=
  { b with writeIndex := b.writeIndex + size }

def reusePrependableSpace (b : TcpBuffer) : TcpBuffer :=
  { b with
    buffer := overwrite b.buffer b.prependSize b.readable
    readIndex := b.prependSize
    writeIndex := b.prependSize + b.readableSize }

/-- `buffer_.resize(n)`. -/
def resize (b : TcpBuffer) (n : Nat) : TcpBuffer :=
  { b with buffer := b.buffer.take n ++ List.replicate (n - b.buffer.length) 0 }

def expend (b : TcpBuffer) (size : Nat) : TcpBuffer :=
  if size + b.prependSize < b.writableSize + b.prependableSize then b.reusePrependableSpace
  else
    let b := b.reusePrependableSpace
    b.resize (b.writeIndex + size)

def ensureAppendable (b : TcpBuffer) (size : Nat) : TcpBuffer :=
  if b.writableSize < size then b.expend size else b

/-- `append`, that is `appendImp`. -/
def append (b : TcpBuffer) (data : List UInt8) : TcpBuffer :=
  let b := b.ensureAppendable data.length
  { b with buffer := overwrite b.buffer b.writeIndex data }.moveWriteIndex data.length

def consume (b : TcpBuffer) (size : Nat) : TcpBuffer := b.moveReadIndex size

def retrieve (b : TcpBuffer) (size : Nat) : TcpBuffer :=
  if size ≤ b.readableSize then b.moveReadIndex size else b

/-- Bytes stored at `BeginWrite()`, followed by `hasWritten` with their number. -/
def hasWritten (b : TcpBuffer) (data : List UInt8) : TcpBuffer :=
  { b with
    buffer := overwrite b.buffer b.writeIndex data
    writeIndex := b.writeIndex + data.length }

/-! ### The queue of bytes -/

/-- What `check_index_validity` asserts, and that the write index is inside the vector. -/
structure WF (b : TcpBuffer) : Prop where
  prepend_le : b.prependSize ≤ b.readIndex
  read_le : b.readIndex ≤ b.writeIndex
  write_le : b.writeIndex ≤ b.buffer.length

theorem wf_new (initialSize prependSize : Nat) : (new initialSize prependSize).WF where
  prepend_le := Nat.le_refl _
  read_le := Nat.le_refl _
  write_le := by simp [new]

@[simp] theorem readable_new (initialSize prependSize : Nat) :
    (new initialSize prependSize).readable = [] := by
  simp [readable, new]

variable {b : TcpBuffer}

theorem length_readable (h : b.WF) : b.readable.length = b.readableSize := by
  have := h.write_le
  simp [readable, readableSize, Nat.min_eq_left this]

theorem length_overwrite {l data : List UInt8} {i : Nat} (h : i + data.length ≤ l.length) :
    (overwrite l i data).length = l.length := by
  simp [overwrite]
  omega

/-- The bytes up to the end of the overwritten part. -/
theorem take_overwrite {l data : List UInt8} {i : Nat} (h : i ≤ l.length) :
    (overwrite l i data).take (i + data.length) = l.take i ++ data := by
  unfold overwrite
  rw [List.take_left']
  simp [h]

theorem readable_hasWritten (h : b.WF) {data : List UInt8} (hfit : data.length ≤ b.writableSize) :
    (b.hasWritten data).WF ∧ (b.hasWritten data).readable = b.readable ++ data := by
  have hread := h.read_le
  have hwrite := h.write_le
  unfold writableSize at hfit
  refine ⟨⟨h.prepend_le, by simp only [hasWritten]; omega, ?_⟩, ?_⟩
  · show b.writeIndex + data.length ≤ (overwrite b.buffer b.writeIndex data).length
    rw [length_overwrite (by omega)]
    omega
  · show ((overwrite b.buffer b.writeIndex data).take (b.writeIndex + data.length)).drop
      b.readIndex = _
    rw [take_overwrite hwrite, List.drop_append_of_le_length (by simp; omega)]
    rfl

theorem moveReadIndex_spec (h : b.WF) {size : Nat} (hsize : size ≤ b.readableSize) :
    (b.moveReadIndex size).WF ∧ (b.moveReadIndex size).readable = b.readable.drop size := by
  have hlen := length_readable h
  have hread := h.read_le
  have hwrite := h.write_le
  have hprep := h.prepend_le
  unfold moveReadIndex
  split
  · rename_i hlt
    unfold readableSize at hlt
    refine ⟨⟨?_, ?_, hwrite⟩, ?_⟩
    · show b.prependSize ≤ b.readIndex + size
      omega
    · show b.readIndex + size ≤ b.writeIndex
      omega
    · show (b.buffer.take b.writeIndex).drop (b.readIndex + size) = b.readable.drop size
      rw [readable, List.drop_drop]
  · refine ⟨⟨Nat.le_refl _, Nat.le_refl _, ?_⟩, ?_⟩
    · show b.prependSize ≤ b.buffer.length
      omega
    · rw [List.drop_eq_nil_of_le (by omega)]
      simp [readable]

/-- `retrieve` of at most the readable bytes. -/
theorem readable_retrieve (h : b.WF) {size : Nat} (hsize : size ≤ b.readableSize) :
    (b.retrieve size).WF ∧ (b.retrieve size).readable = b.readable.drop size := by
  unfold retrieve
  rw [if_pos hsize]
  exact moveReadIndex_spec h hsize

theorem reuse_spec (h : b.WF) : b.reusePrependableSpace.WF ∧
    b.reusePrependableSpace.readable = b.readable ∧
    b.reusePrependableSpace.buffer.length = b.buffer.length := by
  have hlen := length_readable h
  have hread := h.read_le
  have hwrite := h.write_le
  have hprep := h.prepend_le
  have hsize : b.readableSize = b.writeIndex - b.readIndex := rfl
  have hfit : b.prependSize + b.readable.length ≤ b.buffer.length := by omega
  have hbuf : (overwrite b.buffer b.prependSize b.readable).length = b.buffer.length :=
    length_overwrite hfit
  refine ⟨⟨Nat.le_refl _, Nat.le_add_right _ _, ?_⟩, ?_, hbuf⟩
  · show b.prependSize + b.readableSize ≤ (overwrite b.buffer b.prependSize b.readable).length
    omega
  · show ((overwrite b.buffer b.prependSize b.readable).take (b.prependSize + b.readableSize)).drop
      b.prependSize = _
    rw [← hlen, take_overwrite (by omega), List.drop_left']
    simp
    omega

theorem resize_spec (h : b.WF) {n : Nat} (hn : b.writeIndex ≤ n) :
    (b.resize n).WF ∧ (b.resize n).readable = b.readable ∧ (b.resize n).buffer.length = n := by
  have hwrite := h.write_le
  have hlen : (b.buffer.take n ++ List.replicate (n - b.buffer.length) 0).length = n := by
    simp
    omega
  refine ⟨⟨h.prepend_le, h.read_le, ?_⟩, ?_, hlen⟩
  · show b.writeIndex ≤ (b.buffer.take n ++ List.replicate (n - b.buffer.length) 0).length
    rw [hlen]
    exact hn
  · show ((b.buffer.take n ++ List.replicate (n - b.buffer.length) 0).take b.writeIndex).drop
      b.readIndex = _
    rw [List.take_append_of_le_length (by simp; omega), List.take_take, Nat.min_eq_left hn]
    rfl

/-- Making room keeps the readable bytes. -/
theorem ensureAppendable_spec (h : b.WF) (size : Nat) : (b.ensureAppendable size).WF ∧
    (b.ensureAppendable size).readable = b.readable ∧
    size ≤ (b.ensureAppendable size).writableSize := by
  obtain ⟨hreuse, hbytes, hbuf⟩ := reuse_spec h
  have hread := h.read_le
  have hwrite := h.write_le
  have hprep := h.prepend_le
  unfold ensureAppendable
  split
  · unfold expend
    split
    · rename_i hroom
      refine ⟨hreuse, hbytes, ?_⟩
      unfold writableSize prependableSize at hroom
      show size ≤ b.reusePrependableSpace.buffer.length - (b.prependSize + b.readableSize)
      rw [hbuf, readableSize]
      omega
    · obtain ⟨hres, hbytes', hbuf'⟩ :=
        resize_spec hreuse (Nat.le_add_right b.reusePrependableSpace.writeIndex size)
      refine ⟨hres, hbytes'.trans hbytes, ?_⟩
      show size ≤ (b.reusePrependableSpace.resize _).buffer.length -
        b.reusePrependableSpace.writeIndex
      rw [hbuf']
      omega
  · rename_i hroom
    exact ⟨h, rfl, Nat.le_of_not_lt hroom⟩

/-- **Appending.** -/
theorem readable_append (h : b.WF) (data : List UInt8) :
    (b.append data).WF ∧ (b.append data).readable = b.readable ++ data := by
  obtain ⟨hwf, hbytes, hroom⟩ := ensureAppendable_spec h data.length
  have hspec := readable_hasWritten hwf hroom
  rw [hbytes] at hspec
  exact hspec

end TcpBuffer

end StorageEngine.Net
