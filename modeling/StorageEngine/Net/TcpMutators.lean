/-
  StorageEngine/Net/TcpMutators.lean
  ==================================
  **The remaining members of the byte buffer** (`net/base/io_buf.cpp` and `io_buf.hpp`, class
  `TcpBuffer`): `shrink`, `clear`, `reset`, `swap`, `prepend` and `retrieveAllToString`.

  Four fields make a buffer: the vector, the reserved size and two indices.  Each member here
  changes some of them and relies on the others as they are, so each has its own condition
  under which the indices stay in order.
-/
import StorageEngine.Net.TcpQueue

namespace StorageEngine.Net.TcpBuffer

open StorageEngine.StepMachine

/-! ### Buffers on the way -/

/-- A buffer that operations have made out of a new one. -/
inductive Built (maxSize : Nat) : TcpBuffer → Prop
  | new (initialSize prependSize : Nat) (hsize : prependSize + initialSize ≤ maxSize) :
      Built maxSize (new initialSize prependSize)
  | step {b b' : TcpBuffer} (op : Op) (hb : Built maxSize b) (hadm : op.Admissible b)
      (hwrap : op.NoWrap b) (hstep : opStep maxSize b op = some b') : Built maxSize b'

theorem Built.inv {maxSize : Nat} (hmax : maxSize < 2 ^ 63) {b : TcpBuffer}
    (hb : Built maxSize b) : b.WF ∧ b.buffer.length ≤ maxSize := by
  induction hb with
  | new initialSize prependSize hsize =>
    refine ⟨wf_new initialSize prependSize, ?_⟩
    show (List.replicate (prependSize + initialSize) (0 : UInt8)).length ≤ maxSize
    rwa [List.length_replicate]
  | step op _ hadm hwrap hstep ih =>
    obtain ⟨hwf, hlen⟩ := ih
    obtain ⟨hwf', hlen', -⟩ := opStep_spec hwf hlen hmax hadm hwrap hstep
    exact ⟨hwf', hlen'⟩

/-! ### The members -/

namespace Checked

/-- `shrink`; the capacity that `shrink_to_fit` gives back is not a part of the buffer. -/
def shrink (maxSize : Nat) (b : TcpBuffer) (reserve : Nat) : Except Fault TcpBuffer :=
  resize maxSize b (add64 (add64 (readableSize b) reserve) b.prependSize)

def prepend (b : TcpBuffer) (data : List UInt8) : Except Fault TcpBuffer := do
  require (data.length ≤ b.prependableSize)
  let readIndex := sub64 b.readIndex data.length
  return { b with readIndex := readIndex, buffer := overwrite b.buffer readIndex data }

end Checked

def clear (b : TcpBuffer) : TcpBuffer := { b with readIndex := 8, writeIndex := 8 }

def reset (b : TcpBuffer) : TcpBuffer := { b with readIndex := 8, writeIndex := 8 }

/-- `swap`: `prepend_size_` is constant, and stays where it is. -/
def swap (b other : TcpBuffer) : TcpBuffer × TcpBuffer :=
  ({ b with buffer := other.buffer, readIndex := other.readIndex, writeIndex := other.writeIndex },
    { other with buffer := b.buffer, readIndex := b.readIndex, writeIndex := b.writeIndex })

/-- The bytes of a C string, if a null byte ends it in the vector. -/
def cString : List UInt8 → Option (List UInt8)
  | [] => none
  | c :: l => if c = 0 then some [] else (cString l).map (c :: ·)

/-- `retrieveAllToString`: a string made from the pointer that `retrieveAll` returns, which is
    the place that the read index had before. -/
def retrieveAllToString (b : TcpBuffer) : Except Fault (Option (List UInt8) × TcpBuffer) := do
  let b' ← Checked.retrieveAll b
  return (cString (b.buffer.drop b.readIndex), b')

/-! ### Mutators -/

inductive Mutator where
  | shrink (reserve : Nat)
  | clear
  | reset
  | swap (other : TcpBuffer)
  | prepend (data : List UInt8)

/-- A `size_t`, another buffer that was built, and data that fit in front. -/
def Mutator.Admissible (maxSize : Nat) (b : TcpBuffer) : Mutator → Prop
  | .shrink reserve => reserve < 2 ^ 64
  | .clear => True
  | .reset => True
  | .swap other => Built maxSize other
  | .prepend data => data.length ≤ b.prependableSize

/-- An append or a consumption. -/
def Op.Ordinary : Op → Prop
  | .append _ => True
  | .consume _ => True
  | _ => False

/-- No append and no consumption fails an assertion from here on. -/
def Sound (maxSize : Nat) (b : TcpBuffer) : Prop :=
  ∀ ops : List Op, (∀ op ∈ ops, op.Ordinary) → Along (opStep maxSize) Op.Admissible b ops →
    Along (opStep maxSize) (fun b op => exec maxSize b op ≠ .error .assertion) b ops

/-- What each mutator is to leave behind. -/
def Mutator.Keeps (maxSize : Nat) (b : TcpBuffer) : Mutator → Prop
  | .shrink reserve => Checked.shrink maxSize b reserve = .error .lengthError ∨
      ∃ b', Checked.shrink maxSize b reserve = .ok b' ∧ b'.WF ∧ b'.readable = b.readable
  | .clear => b.clear.WF ∧ b.clear.readable = []
  | .reset => b.reset.WF ∧ b.reset.readable = []
  | .swap other => ((b.swap other).1.WF ∧ (b.swap other).2.WF) ∧
      (b.swap other).1.readable = other.readable ∧ (b.swap other).2.readable = b.readable
  | .prepend data => ∃ b', Checked.prepend b data = .ok b' ∧
      b'.readable = data ++ b.readable ∧ Sound maxSize b'

/-- When it does: the bytes in front of the readable ones fit into the reserve, the reserved
    size is at most 8 and the vector not shorter, the read index of each buffer is not inside
    what the other one reserves, the data fit behind what is reserved. -/
def Mutator.Fits (b : TcpBuffer) : Mutator → Prop
  | .shrink reserve => b.readIndex ≤ b.prependSize + reserve ∧
      b.readableSize + reserve + b.prependSize < 2 ^ 64
  | .clear => b.prependSize ≤ 8 ∧ 8 ≤ b.buffer.length
  | .reset => b.prependSize ≤ 8 ∧ 8 ≤ b.buffer.length
  | .swap other => b.prependSize ≤ other.readIndex ∧ other.prependSize ≤ b.readIndex
  | .prepend data => b.prependSize + data.length ≤ b.readIndex

section

variable {maxSize : Nat} {b : TcpBuffer}

/-! ### Shrinking -/

theorem length_resize (n : Nat) : (b.resize n).buffer.length = n := by
  simp only [resize, List.length_append, List.length_take, List.length_replicate]
  omega

/-- The wrapped sum of the three sizes reaches the write index exactly when there is enough
    reserve, and no wrapping. -/
theorem writeIndex_le_add64_iff (h : b.WF) (hlen : b.buffer.length < 2 ^ 63) {reserve : Nat}
    (hreserve : reserve < 2 ^ 64) :
    b.writeIndex ≤ add64 (add64 b.readableSize reserve) b.prependSize ↔
      b.readIndex ≤ b.prependSize + reserve ∧
        b.readableSize + reserve + b.prependSize < 2 ^ 64 := by
  have hprep := h.prepend_le
  have hread := h.read_le
  have hwrite := h.write_le
  have hreadable : b.readableSize = b.writeIndex - b.readIndex := rfl
  have hsum : add64 (add64 b.readableSize reserve) b.prependSize =
      (b.readableSize + reserve + b.prependSize) % 2 ^ 64 := Nat.mod_add_mod _ _ _
  rw [hsum]
  constructor
  · intro hle
    by_cases hwrap : b.readableSize + reserve + b.prependSize < 2 ^ 64
    · rw [Nat.mod_eq_of_lt hwrap] at hle
      exact ⟨by omega, hwrap⟩
    · omega
  · rintro ⟨hroom, hwrap⟩
    rw [Nat.mod_eq_of_lt hwrap]
    omega

theorem shrink_keeps_iff (h : b.WF) (hlen : b.buffer.length ≤ maxSize) (hmax : maxSize < 2 ^ 63)
    {reserve : Nat} (hreserve : reserve < 2 ^ 64) :
    (Mutator.shrink reserve).Keeps maxSize b ↔ (Mutator.shrink reserve).Fits b := by
  have hlen' : b.buffer.length < 2 ^ 63 := by omega
  have hwrite := h.write_le
  show (Checked.resize maxSize b _ = _ ∨ ∃ b', Checked.resize maxSize b _ = _ ∧ _) ↔ _
  rw [Checked.readableSize_eq h hlen']
  refine Iff.trans ?_ (writeIndex_le_add64_iff h hlen' hreserve)
  generalize add64 (add64 b.readableSize reserve) b.prependSize = n
  unfold Checked.resize
  by_cases hn : maxSize < n
  · rw [if_pos hn]
    exact iff_of_true (Or.inl rfl) (by omega)
  · rw [if_neg hn]
    constructor
    · rintro (herr | ⟨b', hok, hwf, -⟩)
      · cases herr
      · cases hok
        have hle := hwf.write_le
        rwa [length_resize] at hle
    · intro hle
      obtain ⟨hwf, hbytes, -⟩ := resize_spec h hle
      exact Or.inr ⟨_, rfl, hwf, hbytes⟩

/-! ### Starting over -/

theorem clear_keeps_iff : Mutator.clear.Keeps maxSize b ↔ Mutator.clear.Fits b := by
  constructor
  · rintro ⟨hwf, -⟩
    exact ⟨hwf.prepend_le, hwf.write_le⟩
  · rintro ⟨hprep, hlen⟩
    refine ⟨⟨hprep, Nat.le_refl _, hlen⟩, ?_⟩
    apply List.drop_eq_nil_of_le
    rw [List.length_take]
    exact Nat.min_le_left _ _

/-! ### Swapping -/

theorem swap_keeps_iff {other : TcpBuffer} (h : b.WF) (hother : other.WF) :
    (Mutator.swap other).Keeps maxSize b ↔ (Mutator.swap other).Fits b := by
  constructor
  · rintro ⟨⟨hfirst, hsecond⟩, -⟩
    exact ⟨hfirst.prepend_le, hsecond.prepend_le⟩
  · rintro ⟨hfirst, hsecond⟩
    exact ⟨⟨⟨hfirst, hother.read_le, hother.write_le⟩, ⟨hsecond, h.read_le, h.write_le⟩⟩, rfl, rfl⟩

/-! ### Prepending -/

/-- The buffer with `data` in front of its readable bytes. -/
def withFront (b : TcpBuffer) (data : List UInt8) : TcpBuffer :=
  { b with
    readIndex := b.readIndex - data.length
    buffer := overwrite b.buffer (b.readIndex - data.length) data }

theorem prepend_of (h : b.WF) (hlen : b.buffer.length < 2 ^ 63) {data : List UInt8}
    (hfit : data.length ≤ b.readIndex) : Checked.prepend b data = .ok (b.withFront data) := by
  have hread := h.read_le
  have hwrite := h.write_le
  unfold Checked.prepend prependableSize
  rw [Checked.require_of hfit, Checked.ok_bind, sub64_eq hfit (by omega)]
  rfl

theorem length_withFront (h : b.WF) {data : List UInt8} (hfit : data.length ≤ b.readIndex) :
    (b.withFront data).buffer.length = b.buffer.length := by
  have hread := h.read_le
  have hwrite := h.write_le
  exact length_overwrite (by omega)

theorem readable_withFront (h : b.WF) {data : List UInt8} (hfit : data.length ≤ b.readIndex) :
    (b.withFront data).readable = data ++ b.readable := by
  have hread := h.read_le
  have hwrite := h.write_le
  have hfront : (b.buffer.take (b.readIndex - data.length)).length =
      b.readIndex - data.length := by
    rw [List.length_take]
    omega
  have hback : b.readIndex - data.length + data.length = b.readIndex := by omega
  show ((overwrite b.buffer (b.readIndex - data.length) data).take b.writeIndex).drop
    (b.readIndex - data.length) = _
  unfold overwrite
  rw [List.append_assoc, List.drop_take, List.drop_left' hfront, hback,
    List.take_append, List.take_of_length_le (by omega)]
  have hrest : b.writeIndex - (b.readIndex - data.length) - data.length =
      b.writeIndex - b.readIndex := by omega
  rw [hrest]
  unfold readable
  rw [List.drop_take]

/-- The next append of a buffer with a read index in what is reserved fails its assertion. -/
theorem append_of_readIndex_lt (hbad : b.readIndex < b.prependSize) :
    exec maxSize b (.append []) = .error .assertion := by
  have hcheck : Checked.checkIndexValidity b = .error .assertion := by
    unfold Checked.checkIndexValidity Checked.require
    rw [if_neg (Nat.not_le.mpr hbad)]
    rfl
  have hroom : ¬ Checked.writableSize b < ([] : List UInt8).length := Nat.not_lt_zero _
  show Checked.append maxSize b [] = _
  unfold Checked.append Checked.ensureAppendable
  rw [if_neg hroom, Checked.ok_bind, Checked.require_of (Nat.le_of_not_lt hroom), Checked.ok_bind,
    hcheck]
  rfl

/-- What is put in front leaves room for the prefix. -/
theorem wf_withFront (h : b.WF) {data : List UInt8}
    (hroom : b.prependSize + data.length ≤ b.readIndex) : (b.withFront data).WF := by
  have hread := h.read_le
  refine ⟨Nat.le_sub_of_add_le hroom, Nat.le_trans (Nat.sub_le _ _) hread, ?_⟩
  rw [length_withFront h (Nat.le_trans (Nat.le_add_left _ _) hroom)]
  exact h.write_le

theorem prepend_keeps_iff (h : b.WF) (hlen : b.buffer.length ≤ maxSize) (hmax : maxSize < 2 ^ 63)
    {data : List UInt8} (hfit : data.length ≤ b.readIndex) :
    (Mutator.prepend data).Keeps maxSize b ↔ (Mutator.prepend data).Fits b := by
  have hprep := prepend_of h (by omega) hfit
  have hsame := length_withFront h hfit
  constructor
  · rintro ⟨b', hok, -, hsound⟩
    rw [hprep] at hok
    cases hok
    by_contra hover
    have hbad : (b.withFront data).readIndex < (b.withFront data).prependSize := by
      show b.readIndex - data.length < b.prependSize
      unfold Mutator.Fits at hover
      omega
    have hadm : Along (opStep maxSize) Op.Admissible (b.withFront data) [.append []] :=
      along_cons.mpr ⟨by simp [Op.Admissible], fun _ _ => along_nil _ _⟩
    have halong := hsound [.append []] (fun op hop => by
      rw [List.mem_singleton] at hop
      rw [hop]
      trivial) hadm
    exact (along_cons.mp halong).1 (append_of_readIndex_lt hbad)
  · intro hroom
    have hwf := wf_withFront h hroom
    refine ⟨_, hprep, readable_withFront h hfit, ?_⟩
    intro ops hops hadm
    have hwrap : Along (opStep maxSize) Op.NoWrap (b.withFront data) ops := by
      intro before op after b' heq _
      have hord := hops op (by rw [heq]; simp)
      cases op with
      | ensureWritableBytes n => exact hord.elim
      | _ => trivial
    exact ((fifo_iff_noWrap hwf (by omega) hmax hadm).mpr hwrap).1

end

/-- **The mutators** keep a buffer valid exactly when what they are given fits its indices. -/
theorem keeps_iff {maxSize : Nat} (hmax : maxSize < 2 ^ 63) {b : TcpBuffer}
    (hb : Built maxSize b) (m : Mutator) (hadm : m.Admissible maxSize b) :
    m.Keeps maxSize b ↔ m.Fits b := by
  obtain ⟨hwf, hlen⟩ := hb.inv hmax
  cases m with
  | shrink reserve => exact shrink_keeps_iff hwf hlen hmax hadm
  | clear => exact @clear_keeps_iff maxSize b
  | reset => exact @clear_keeps_iff maxSize b
  | swap other => exact swap_keeps_iff hwf (hadm.inv hmax).1
  | prepend data => exact prepend_keeps_iff hwf hlen hmax hadm

/-- Four bytes behind two reserved ones, three of them consumed. -/
def consumed : TcpBuffer :=
  { buffer := [0, 0, 1, 2, 3, 4], prependSize := 2, readIndex := 5, writeIndex := 6 }

theorem built_consumed : Built 64 consumed := by
  have happended : Built 64
      { buffer := [0, 0, 1, 2, 3, 4], prependSize := 2, readIndex := 2, writeIndex := 6 } :=
    .step (.append [1, 2, 3, 4]) (.new 4 2 (by decide)) (show 4 < 2 ^ 63 by decide) trivial
      (by decide +kernel)
  exact .step (.consume 3) happended (show 3 ≤ 4 by decide) trivial (by decide +kernel)

/-- Two bytes put back in front of the one that is left, and a `shrink` that keeps the bytes in
    front. -/
theorem keeps_consumed : consumed.readable = [4] ∧
    (Mutator.shrink 3).Keeps 64 consumed ∧
    ∃ b', Checked.prepend consumed [7, 8] = .ok b' ∧ b'.readable = [7, 8, 4] ∧ Sound 64 b' := by
  have hkeeps := keeps_iff (show 64 < 2 ^ 63 by decide) built_consumed
  refine ⟨by decide, ?_, ?_⟩
  · exact (hkeeps (.shrink 3) (show 3 < 2 ^ 64 by decide)).mpr
      (show 5 ≤ 2 + 3 ∧ 1 + 3 + 2 < 2 ^ 64 by decide)
  · exact (hkeeps (.prepend [7, 8]) (show 2 ≤ 5 by decide)).mpr (show 2 + 2 ≤ 5 by decide)

/-- `shrink(0)` of a buffer with a read index that has moved, `clear` of one that reserves more
    than 8 bytes, `swap` of buffers with different reserves, and `prepend` to a new buffer. -/
theorem not_keeps_consumed :
    (Built 64 consumed ∧ ¬ (Mutator.shrink 0).Keeps 64 consumed) ∧
    (Built 64 (new 4 16) ∧ ¬ Mutator.clear.Keeps 64 (new 4 16)) ∧
    ¬ (Mutator.swap (new 4 16)).Keeps 64 (new 4 2) ∧
    ((Mutator.prepend [7]).Admissible 64 (new 4 2) ∧
      ¬ (Mutator.prepend [7]).Keeps 64 (new 4 2)) := by
  obtain ⟨hwf, hlen⟩ := built_consumed.inv (show 64 < 2 ^ 63 by decide)
  have hlen' : (new 4 2).buffer.length ≤ 64 := by decide
  refine ⟨⟨built_consumed, ?_⟩, ⟨.new 4 16 (by decide), ?_⟩, ?_, ⟨show 1 ≤ 2 by decide, ?_⟩⟩
  · intro hkeeps
    have hfits := (shrink_keeps_iff hwf hlen (by decide) (by decide)).mp hkeeps
    exact absurd hfits.1 (by decide)
  · intro hkeeps
    have hfits := clear_keeps_iff.mp hkeeps
    exact absurd hfits.1 (by decide)
  · intro hkeeps
    have hfits := (swap_keeps_iff (wf_new 4 2) (wf_new 4 16)).mp hkeeps
    exact absurd hfits.2 (by decide)
  · intro hkeeps
    have hfront : [(7 : UInt8)].length ≤ (new 4 2).readIndex := by decide
    have hfits := (prepend_keeps_iff (wf_new 4 2) hlen' (by decide) hfront).mp hkeeps
    exact absurd hfits (show ¬ 2 + 1 ≤ 2 by decide)

/-! ### Bytes as a string -/

/-- A string is a list of bytes exactly when these have no null byte and one follows them. -/
theorem cString_append_iff {l r : List UInt8} :
    cString (l ++ r) = some l ↔ 0 ∉ l ∧ r.head? = some 0 := by
  induction l with
  | nil =>
    cases r with
    | nil => simp [cString]
    | cons c r =>
      rw [List.nil_append, cString]
      by_cases hc : c = 0
      · simp [hc]
      · cases cString r <;> simp [hc]
  | cons c l ih =>
    rw [List.cons_append, cString]
    by_cases hc : c = 0
    · simp [hc]
    · have hc' : (0 : UInt8) ≠ c := fun h => hc h.symm
      rw [if_neg hc, List.mem_cons, not_or, and_assoc, ← ih, and_iff_right hc',
        Option.map_eq_some_iff]
      constructor
      · rintro ⟨l', hl', heq⟩
        rw [hl', (List.cons.inj heq).2]
      · intro hl
        exact ⟨l, hl, rfl⟩

/-- The string is the readable bytes, and the buffer is empty afterwards. -/
def ReturnsReadable (b : TcpBuffer) : Prop :=
  ∃ b', retrieveAllToString b = .ok (some b.readable, b') ∧ b'.WF ∧ b'.readable = []

section

variable {b : TcpBuffer}

theorem drop_readIndex (h : b.WF) :
    b.buffer.drop b.readIndex = b.readable ++ b.buffer.drop b.writeIndex := by
  have hread := h.read_le
  unfold readable
  rw [List.drop_take]
  have hsum : b.writeIndex = b.readIndex + (b.writeIndex - b.readIndex) := by omega
  rw [show b.buffer.drop b.writeIndex =
    (b.buffer.drop b.readIndex).drop (b.writeIndex - b.readIndex) by
      rw [List.drop_drop, ← hsum]]
  exact (List.take_append_drop _ _).symm

theorem retrieveAllToString_of (h : b.WF) (hlen : b.buffer.length < 2 ^ 63) :
    ∃ b', retrieveAllToString b = .ok (cString (b.buffer.drop b.readIndex), b') ∧ b'.WF ∧
      b'.readable = [] := by
  obtain ⟨hwf, hbytes⟩ := moveReadIndex_spec h (Nat.le_refl b.readableSize)
  refine ⟨b.moveReadIndex b.readableSize, ?_, hwf, ?_⟩
  · unfold retrieveAllToString Checked.retrieveAll Checked.retrieve
    rw [if_pos (Nat.le_refl _), Checked.readableSize_eq h hlen,
      Checked.moveReadIndex_of h hlen (Nat.le_refl _)]
    rfl
  · rw [hbytes, List.drop_eq_nil_of_le (Nat.le_of_eq (length_readable h))]

end

/-- **`retrieveAllToString`** returns the readable bytes exactly when there is no null byte among
    them and the vector goes on with one behind them. -/
theorem returnsReadable_iff {maxSize : Nat} (hmax : maxSize < 2 ^ 63) {b : TcpBuffer}
    (hb : Built maxSize b) :
    ReturnsReadable b ↔ 0 ∉ b.readable ∧ b.buffer[b.writeIndex]? = some 0 := by
  obtain ⟨hwf, hlen⟩ := hb.inv hmax
  obtain ⟨b', hok, hwf', hempty⟩ := retrieveAllToString_of hwf (by omega)
  rw [← List.head?_drop, ← cString_append_iff, ← drop_readIndex hwf]
  constructor
  · rintro ⟨c, hreturn, -, -⟩
    rw [hok] at hreturn
    exact (Prod.mk.inj (Except.ok.inj hreturn)).1
  · intro hstring
    exact ⟨b', hok.trans (by rw [hstring]), hwf', hempty⟩

/-- The bytes 1, 2 and 3 were appended to a longer vector, and the first was consumed. -/
def terminated : TcpBuffer :=
  { buffer := [0, 0, 1, 2, 3, 0, 0, 0], prependSize := 2, readIndex := 3, writeIndex := 5 }

theorem built_terminated : Built 64 terminated := by
  have happended : Built 64
      { buffer := [0, 0, 1, 2, 3, 0, 0, 0], prependSize := 2, readIndex := 2, writeIndex := 5 } :=
    .step (.append [1, 2, 3]) (.new 6 2 (by decide)) (show 3 < 2 ^ 63 by decide) trivial
      (by decide +kernel)
  exact .step (.consume 1) happended (show 1 ≤ 3 by decide) trivial (by decide +kernel)

/-- The string is 2, 3. -/
theorem returnsReadable_terminated : terminated.readable = [2, 3] ∧ ReturnsReadable terminated :=
  ⟨by decide,
    (returnsReadable_iff (show 64 < 2 ^ 63 by decide) built_terminated).mpr (by decide)⟩

/-- The bytes 1 and 2 were appended and consumed, and then 3 was appended. -/
def stale : TcpBuffer :=
  { buffer := [0, 0, 3, 2, 0, 0], prependSize := 2, readIndex := 2, writeIndex := 3 }

theorem built_stale : Built 64 stale := by
  have happended : Built 64
      { buffer := [0, 0, 1, 2, 0, 0], prependSize := 2, readIndex := 2, writeIndex := 4 } :=
    .step (.append [1, 2]) (.new 4 2 (by decide)) (show 2 < 2 ^ 63 by decide) trivial
      (by decide +kernel)
  have hconsumed : Built 64
      { buffer := [0, 0, 1, 2, 0, 0], prependSize := 2, readIndex := 2, writeIndex := 2 } :=
    .step (.consume 2) happended (show 2 ≤ 2 by decide) trivial (by decide +kernel)
  exact .step (.append [3]) hconsumed (show 1 < 2 ^ 63 by decide) trivial (by decide +kernel)

/-- The readable byte is 3, the string is 3, 2. -/
theorem not_returnsReadable_stale :
    Built 64 stale ∧ stale.readable = [3] ∧
    (retrieveAllToString stale).toOption.map Prod.fst = some (some [3, 2]) ∧
    ¬ ReturnsReadable stale := by
  have hreadable : stale.readable = [3] := by decide
  have hstring : (retrieveAllToString stale).toOption.map Prod.fst = some (some [3, 2]) := by
    decide +kernel
  refine ⟨built_stale, hreadable, hstring, ?_⟩
  rintro ⟨b', hok, -, -⟩
  rw [hok, hreadable] at hstring
  exact absurd (Option.some.inj (Option.some.inj hstring)) (by decide)

end StorageEngine.Net.TcpBuffer
