/-
  StorageEngine/Net/ProducerConsumerQueue.lean
  ============================================
  **The queue of one producer and one consumer**
  (`net/util/lock_free_queues/ProducerConsumerQueue.h`).

  The records are a ring.  The producer constructs a record and then stores the write index;
  the consumer moves a record out, destroys it, and then stores the read index.  Each of them
  loads the index of the other one, once in a call, and its own index as it has left it.
  Either of them may also ask for the state of the queue.
-/
import StorageEngine.FifoQueue
import StorageEngine.Ring
import StorageEngine.WhileLoop

namespace StorageEngine.Net

open StorageEngine.StepMachine

/-! ### The accesses -/

/-- Where the producer stands in `write`: before the read index is loaded, before the record is
    constructed, and before the write index is stored. -/
inductive WritePc (T : Type) where
  | idle
  | checking (t : T)
  | constructing (t : T)
  | publishing (t : T)
deriving DecidableEq, Repr

/-- Where the consumer stands in `read` or `popFront`: before the write index is loaded, before the
    record is moved out and destroyed, and before the read index is stored. -/
inductive ReadPc (T : Type) where
  | idle
  | checking
  | moving
  | releasing (t : T)
deriving DecidableEq, Repr

inductive QueueSide where
  | producer
  | consumer
deriving DecidableEq, Repr

/-- The queue and its two threads.  `fault` says that an assertion has failed, that a record was
    constructed in the place of another one, or that one was used that is not there.  `events`
    is a record of what the accesses have decided. -/
structure ProducerConsumerQueue (T : Type) where
  size : UInt32
  records : Nat → Option T
  readIndex : UInt32
  writeIndex : UInt32
  writing : WritePc T
  reading : ReadPc T
  fault : Bool
  events : List (FifoEvent T)

inductive SpscAction (T : Type) where
  | write (t : T)
  | read
  | frontPtr
  | popFront
  | isEmpty (side : QueueSide)
  | isFull (side : QueueSide)
  | sizeGuess (side : QueueSide)
  | next (side : QueueSide)
deriving DecidableEq, Repr

namespace ProducerConsumerQueue

variable {T : Type}

def new (size : UInt32) : ProducerConsumerQueue T :=
  ⟨size, fun _ => none, 0, 0, .idle, .idle, false, []⟩

/-- The index behind an index. -/
def nextRecord (s : ProducerConsumerQueue T) (index : UInt32) : UInt32 :=
  if index + 1 = s.size then 0 else index + 1

def record (s : ProducerConsumerQueue T) (e : FifoEvent T) : ProducerConsumerQueue T :=
  { s with events := s.events ++ [e] }

def failed (s : ProducerConsumerQueue T) : ProducerConsumerQueue T := { s with fault := true }

def setRecord (s : ProducerConsumerQueue T) (index : UInt32) (r : Option T) :
    ProducerConsumerQueue T :=
  { s with records := Function.update s.records index.toNat r }

/-- The side is not in a call. -/
def rests (s : ProducerConsumerQueue T) : QueueSide → Prop
  | .producer => s.writing = .idle
  | .consumer => s.reading = .idle

instance [DecidableEq T] (s : ProducerConsumerQueue T) : ∀ side, Decidable (s.rests side)
  | .producer => inferInstanceAs (Decidable (s.writing = .idle))
  | .consumer => inferInstanceAs (Decidable (s.reading = .idle))

/-- `sizeGuess`: the difference is taken for an `int`, and the result for a `size_t`. -/
def sizeOf (s : ProducerConsumerQueue T) : UInt64 :=
  let ret := (s.writeIndex - s.readIndex).toInt32
  (if ret < 0 then (ret.toUInt32 + s.size).toInt32 else ret).toInt64.toUInt64

/-- The next access of `write`. -/
def writeNext (s : ProducerConsumerQueue T) : Option (ProducerConsumerQueue T) :=
  match s.writing with
  | .idle => none
  | .checking t =>
    if s.nextRecord s.writeIndex ≠ s.readIndex then some { s with writing := .constructing t }
    else some { s.record (.isFull true) with writing := .idle }
  | .constructing t =>
    match s.records s.writeIndex.toNat with
    | none => some { s.setRecord s.writeIndex (some t) with writing := .publishing t }
    | some _ => some s.failed
  | .publishing t =>
    some { s.record (.push t) with writeIndex := s.nextRecord s.writeIndex, writing := .idle }

/-- The next access of `read` or `popFront`. -/
def readNext (s : ProducerConsumerQueue T) : Option (ProducerConsumerQueue T) :=
  match s.reading with
  | .idle => none
  | .checking =>
    if s.readIndex = s.writeIndex then some { s.record (.isEmpty true) with reading := .idle }
    else some { s with reading := .moving }
  | .moving =>
    match s.records s.readIndex.toNat with
    | some t => some { s.setRecord s.readIndex none with reading := .releasing t }
    | none => some s.failed
  | .releasing t =>
    some { s.record (.pop t) with readIndex := s.nextRecord s.readIndex, reading := .idle }

/-- `frontPtr`, with the record that the pointer is to. -/
def frontPtr (s : ProducerConsumerQueue T) : ProducerConsumerQueue T :=
  if s.readIndex = s.writeIndex then s.record (.isEmpty true)
  else
    match s.records s.readIndex.toNat with
    | some t => s.record (.front t)
    | none => s.failed

def step [DecidableEq T] (s : ProducerConsumerQueue T) :
    SpscAction T → Option (ProducerConsumerQueue T)
  | .write t => if s.writing = .idle then some { s with writing := .checking t } else none
  | .read => if s.reading = .idle then some { s with reading := .checking } else none
  | .frontPtr => if s.reading = .idle then some s.frontPtr else none
  | .popFront =>
    if s.reading = .idle then
      if s.readIndex ≠ s.writeIndex then some { s with reading := .moving } else some s.failed
    else none
  | .isEmpty side =>
    if s.rests side then some (s.record (.isEmpty (s.readIndex = s.writeIndex))) else none
  | .isFull side => if s.rests side then some (s.record
    (.isFull (s.nextRecord s.writeIndex = s.readIndex))) else none
  | .sizeGuess side => if s.rests side then some (s.record (.size s.sizeOf.toNat)) else none
  | .next .producer => s.writeNext
  | .next .consumer => s.readNext

/-- A round of `destroy`, with the index that it has come to and the records destroyed so far. -/
def destroyRound (s : ProducerConsumerQueue T) (st : UInt32 × List (Option T)) :
    UInt32 × List (Option T) ⊕ List (Option T) :=
  if st.1 = s.writeIndex then .inr st.2
  else .inl (s.nextRecord st.1, st.2 ++ [s.records st.1.toNat])

/-- What the calls ask of their callers: `popFront`, that the queue is not empty; and `sizeGuess`,
    that the records are not so many that their number is not an `int`. -/
def Admits (s : ProducerConsumerQueue T) : SpscAction T → Prop
  | .popFront => s.readIndex ≠ s.writeIndex
  | .sizeGuess _ => s.size.toNat ≤ 2 ^ 31
  | _ => True

instance (s : ProducerConsumerQueue T) : ∀ a, Decidable (s.Admits a)
  | .popFront => inferInstanceAs (Decidable (s.readIndex ≠ s.writeIndex))
  | .sizeGuess _ => inferInstanceAs (Decidable (s.size.toNat ≤ 2 ^ 31))
  | .write _ | .read | .frontPtr | .isEmpty _ | .isFull _ | .next _ => isTrue trivial

/-! ### The indices -/

/-- A difference of 32 bits, as an `int`. -/
theorem toInt32_neg (u : UInt32) : u.toInt32 < 0 ↔ 2 ^ 31 ≤ u.toNat := by
  have hlt := u.toNat_lt
  have hint : u.toInt32.toInt = u.toBitVec.toInt := rfl
  have hzero : (0 : Int32).toInt = 0 := rfl
  rw [Int32.lt_iff_toInt_lt, hint, hzero, BitVec.toInt_eq_toNat_cond, UInt32.toNat_toBitVec]
  split <;> omega

/-- An `int` that is not negative, as a `size_t`. -/
theorem toNat_toInt32 {u : UInt32} (h : u.toNat < 2 ^ 31) :
    u.toInt32.toInt64.toUInt64.toNat = u.toNat := by
  have hbits : u.toInt32.toInt64.toUInt64.toNat = (u.toBitVec.signExtend 64).toNat := rfl
  have hmsb : u.toBitVec.msb = false := by
    rw [BitVec.msb_eq_false_iff_two_mul_lt, UInt32.toNat_toBitVec]
    omega
  rw [hbits, BitVec.toNat_signExtend, hmsb]
  simp

variable {s s' : ProducerConsumerQueue T} {start n : Nat} {queue : List T} {t : T}

theorem toNat_nextRecord {index : UInt32} (hsize : 0 < s.size.toNat)
    (hindex : index.toNat = n % s.size.toNat) :
    (s.nextRecord index).toNat = (n + 1) % s.size.toNat := by
  have hlt := Nat.mod_lt n hsize
  have hsucc : (index + 1).toNat = index.toNat + 1 := by
    have hbound := s.size.toNat_lt
    rw [UInt32.toNat_add, UInt32.toNat_one]
    omega
  have hlast : index + 1 = s.size ↔ n % s.size.toNat + 1 = s.size.toNat := by
    rw [← UInt32.toNat_inj, hsucc, hindex]
  rw [← Ring.succ_mod hsize, nextRecord, ← hindex]
  rw [← hindex] at hlast
  split
  · rename_i heq
    rw [if_pos (hlast.mp heq)]
    rfl
  · rename_i hne
    rw [if_neg fun heq => hne (hlast.mpr heq), hsucc]

/-- The cells that the consumer has emptied, and not released. -/
def taken (s : ProducerConsumerQueue T) : Nat :=
  match s.reading with
  | .releasing _ => 1
  | _ => 0

/-- The record that the producer has constructed, and not published. -/
def ahead (s : ProducerConsumerQueue T) : List T :=
  match s.writing with
  | .publishing t => [t]
  | _ => []

/-- The producer has found room. -/
def HasRoom : WritePc T → Prop
  | .constructing _ | .publishing _ => True
  | _ => False

/-- The indices are those of the first record and of the free one behind the last, and the ring
    has the records, but for the one that was taken and with the one that was constructed. -/
structure Shows (s : ProducerConsumerQueue T) (start : Nat) (queue : List T) : Prop where
  length : queue.length < s.size.toNat
  readIndex : s.readIndex.toNat = start % s.size.toNat
  writeIndex : s.writeIndex.toNat = (start + queue.length) % s.size.toNat
  ring : Ring.Holds s.size.toNat s.records (start + s.taken) (queue.drop s.taken ++ s.ahead)
  room : HasRoom s.writing → queue.length + 1 < s.size.toNat
  moving : s.reading = .moving → queue ≠ []
  releasing : ∀ t, s.reading = .releasing t → queue.head? = some t
  fault : s.fault = false

theorem Shows.size_pos (h : s.Shows start queue) : 0 < s.size.toNat := Nat.zero_lt_of_lt h.length

theorem Shows.empty_iff (h : s.Shows start queue) : s.readIndex = s.writeIndex ↔ queue = [] := by
  rw [← UInt32.toNat_inj, h.readIndex, h.writeIndex, ← List.length_eq_zero_iff]
  constructor
  · exact fun heq => (Ring.mod_inj (i := 0) h.size_pos h.length heq).symm
  · intro hlength
    rw [hlength]
    rfl

theorem Shows.full_iff (h : s.Shows start queue) :
    s.nextRecord s.writeIndex = s.readIndex ↔ queue.length + 1 = s.size.toNat := by
  rw [← UInt32.toNat_inj, toNat_nextRecord h.size_pos h.writeIndex, h.readIndex]
  exact Ring.mod_eq_iff h.length

/-- `sizeGuess` is right at the moment at which the index of the other side is loaded. -/
theorem Shows.sizeOf (h : s.Shows start queue) (hsize : s.size.toNat ≤ 2 ^ 31) :
    s.sizeOf.toNat = queue.length := by
  have hlength := h.length
  have hread := h.readIndex
  have hwrite := h.writeIndex
  have hlt := Nat.mod_lt start h.size_pos
  rw [← Nat.mod_add_mod, ← hread] at hwrite
  rw [← hread] at hlt
  have hdiff := UInt32.toNat_sub s.writeIndex s.readIndex
  by_cases hlap : s.readIndex.toNat + queue.length < s.size.toNat
  · rw [Nat.mod_eq_of_lt hlap] at hwrite
    have hnat : (s.writeIndex - s.readIndex).toNat = queue.length := by omega
    have hpos : ¬ (s.writeIndex - s.readIndex).toInt32 < 0 := by
      rw [toInt32_neg]
      omega
    rw [ProducerConsumerQueue.sizeOf]
    rw [if_neg hpos, toNat_toInt32 (by omega), hnat]
  · rw [Nat.mod_eq_sub_mod (by omega), Nat.mod_eq_of_lt (by omega)] at hwrite
    have hnat : (s.writeIndex - s.readIndex).toNat = 2 ^ 32 + queue.length - s.size.toNat := by
      omega
    have hneg : (s.writeIndex - s.readIndex).toInt32 < 0 := by
      rw [toInt32_neg]
      omega
    have hsum : ((s.writeIndex - s.readIndex).toInt32.toUInt32 + s.size).toNat = queue.length := by
      have hcast : (s.writeIndex - s.readIndex).toInt32.toUInt32 = s.writeIndex - s.readIndex := rfl
      rw [hcast, UInt32.toNat_add, hnat]
      omega
    rw [ProducerConsumerQueue.sizeOf]
    rw [if_pos hneg, toNat_toInt32 (by omega), hsum]

/-! ### The steps -/

/-- The events so far lead to the records between the indices.  One record stays free. -/
def Inv [DecidableEq T] (s : ProducerConsumerQueue T) : Prop :=
  ∃ start queue, FifoQueue.Leads (some (s.size.toNat - 1)) s.events queue ∧ s.Shows start queue

theorem Shows.taken_le (h : s.Shows start queue) : s.taken ≤ queue.length := by
  unfold taken
  split
  · rename_i t hpc
    have hhead := h.releasing t hpc
    cases queue with
    | nil => cases hhead
    | cons t queue => exact Nat.succ_le_succ (Nat.zero_le _)
  · exact Nat.zero_le _

theorem Shows.record (h : s.Shows start queue) (e : FifoEvent T) : (s.record e).Shows start queue :=
  ⟨h.length, h.readIndex, h.writeIndex, h.ring, h.room, h.moving, h.releasing, h.fault⟩

/-- The producer goes on, without a record that it has constructed. -/
theorem Shows.writingTo {pc : WritePc T} (h : s.Shows start queue) (hahead : s.ahead = [])
    (hpc : ∀ t, pc ≠ .publishing t) (hroom : HasRoom pc → queue.length + 1 < s.size.toNat) :
    { s with writing := pc }.Shows start queue := by
  have hring := h.ring
  rw [hahead] at hring
  refine ⟨h.length, h.readIndex, h.writeIndex, ?_, hroom, h.moving, h.releasing, h.fault⟩
  cases pc with
  | idle | checking | constructing => exact hring
  | publishing t => exact absurd rfl (hpc t)

/-- The consumer goes on, without a record that it has taken. -/
theorem Shows.readingTo {pc : ReadPc T} (h : s.Shows start queue) (htaken : s.taken = 0)
    (hpc : ∀ t, pc ≠ .releasing t) (hmoving : pc = .moving → queue ≠ []) :
    { s with reading := pc }.Shows start queue := by
  have hring := h.ring
  rw [htaken] at hring
  refine ⟨h.length, h.readIndex, h.writeIndex, ?_, h.room, hmoving,
    fun t heq => absurd heq (hpc t), h.fault⟩
  cases pc with
  | idle | checking | moving => exact hring
  | releasing t => exact absurd rfl (hpc t)

/-- The record is constructed in a free place. -/
theorem Shows.construct (h : s.Shows start queue) (hpc : s.writing = .constructing t) :
    s.records s.writeIndex.toNat = none ∧
      { s.setRecord s.writeIndex (some t) with writing := .publishing t }.Shows start queue := by
  have hahead : s.ahead = [] := by
    unfold ahead
    rw [hpc]
  have hroom := h.room (by rw [hpc]; trivial)
  have hring := h.ring
  rw [hahead, List.append_nil] at hring
  have hlength : (queue.drop s.taken).length < s.size.toNat := by
    rw [List.length_drop]
    omega
  have hplace : s.writeIndex.toNat = (start + s.taken + (queue.drop s.taken).length) %
      s.size.toNat := by
    have hle := h.taken_le
    rw [h.writeIndex, List.length_drop, Nat.add_assoc, Nat.add_sub_cancel' hle]
  refine ⟨?_, h.length, h.readIndex, h.writeIndex, ?_, fun _ => hroom, h.moving,
    h.releasing, h.fault⟩
  · rw [hplace]
    exact hring.free hlength
  · have hpush := hring.push hlength t
    rw [← hplace] at hpush
    exact hpush

/-- The record is in the queue. -/
theorem Shows.publish (h : s.Shows start queue) (hpc : s.writing = .publishing t) :
    { s.record (.push t) with writeIndex := s.nextRecord s.writeIndex, writing := .idle }.Shows
      start
      (queue ++ [t]) := by
  have hahead : s.ahead = [t] := by
    unfold ahead
    rw [hpc]
  have hroom := h.room (by rw [hpc]; trivial)
  have hring := h.ring
  rw [hahead, ← List.drop_append_of_le_length h.taken_le] at hring
  refine ⟨?_, h.readIndex, ?_, ?_, nofun, fun _ => by simp, ?_, h.fault⟩
  · rw [List.length_append]
    exact hroom
  · rw [List.length_append, ← Nat.add_assoc]
    exact toNat_nextRecord h.size_pos h.writeIndex
  · change Ring.Holds _ _ _ ((queue ++ [t]).drop s.taken ++ [])
    rw [List.append_nil]
    exact hring
  · intro t' hreading
    have hhead := h.releasing t' hreading
    rw [List.head?_append, hhead]
    rfl

/-- The first record is moved out of its place. -/
theorem Shows.move (h : s.Shows start (t :: queue)) (hpc : s.reading = .moving) :
    s.records s.readIndex.toNat = some t ∧
      { s.setRecord s.readIndex none with reading := .releasing t }.Shows start (t :: queue) := by
  have htaken : s.taken = 0 := by
    unfold taken
    rw [hpc]
  have hring := h.ring
  rw [htaken] at hring
  refine ⟨?_, h.length, h.readIndex, h.writeIndex, ?_, h.room, nofun, ?_, h.fault⟩
  · rw [h.readIndex]
    exact hring.first
  · have hpop := hring.pop
    change Ring.Holds _ (Function.update s.records s.readIndex.toNat none) _ _
    rw [h.readIndex]
    exact hpop
  · rintro _ ⟨⟩
    rfl

/-- The first record has left the queue. -/
theorem Shows.release (h : s.Shows start (t :: queue)) {t' : T} (hpc : s.reading = .releasing t') :
    { s.record (.pop t) with readIndex := s.nextRecord s.readIndex, reading := .idle }.Shows
      (start + 1) queue := by
  have htaken : s.taken = 1 := by
    unfold taken
    rw [hpc]
  have hring := h.ring
  rw [htaken] at hring
  refine ⟨Nat.lt_of_succ_lt h.length, toNat_nextRecord h.size_pos h.readIndex, ?_, hring, ?_, nofun,
    nofun, h.fault⟩
  · have hwrite := h.writeIndex
    rw [List.length_cons, Nat.add_comm queue.length, ← Nat.add_assoc] at hwrite
    exact hwrite
  · intro hroom
    exact Nat.lt_of_succ_lt (h.room hroom)

variable [DecidableEq T]

theorem inv_writeNext (h : s.Inv) (hstep : s.writeNext = some s') : s'.Inv ∧ s'.size = s.size := by
  obtain ⟨start, queue, hleads, h⟩ := h
  rw [writeNext] at hstep
  split at hstep
  · cases hstep
  · rename_i t hpc
    have hahead : s.ahead = [] := by
      unfold ahead
      rw [hpc]
    split at hstep
    · rename_i hnext
      obtain rfl := Option.some.inj hstep
      refine ⟨⟨start, queue, hleads, h.writingTo hahead nofun fun _ => ?_⟩, rfl⟩
      rw [Ne, h.full_iff] at hnext
      have hlength := h.length
      omega
    · rename_i hfull
      obtain rfl := Option.some.inj hstep
      rw [Ne, Decidable.not_not, h.full_iff] at hfull
      refine ⟨⟨start, queue, hleads.isFull (iff_of_true rfl ?_),
        (h.record _).writingTo hahead nofun nofun⟩, rfl⟩
      congr 1
      omega
  · rename_i t hpc
    obtain ⟨hfree, hshows⟩ := h.construct hpc
    rw [hfree] at hstep
    obtain rfl := Option.some.inj hstep
    exact ⟨⟨start, queue, hleads, hshows⟩, rfl⟩
  · rename_i t hpc
    obtain rfl := Option.some.inj hstep
    refine ⟨⟨start, queue ++ [t], hleads.push ?_, h.publish hpc⟩, rfl⟩
    rintro n ⟨⟩
    have hroom := h.room (by rw [hpc]; trivial)
    omega

theorem inv_readNext (h : s.Inv) (hstep : s.readNext = some s') : s'.Inv ∧ s'.size = s.size := by
  obtain ⟨start, queue, hleads, h⟩ := h
  rw [readNext] at hstep
  split at hstep
  · cases hstep
  · rename_i hpc
    have htaken : s.taken = 0 := by
      unfold taken
      rw [hpc]
    split at hstep
    · rename_i hempty
      obtain rfl := Option.some.inj hstep
      exact ⟨⟨start, queue, hleads.isEmpty (iff_of_true rfl (h.empty_iff.mp hempty)),
        (h.record _).readingTo htaken nofun nofun⟩, rfl⟩
    · rename_i hne
      obtain rfl := Option.some.inj hstep
      exact ⟨⟨start, queue, hleads,
        h.readingTo htaken nofun fun _ hnil => hne (h.empty_iff.mpr hnil)⟩, rfl⟩
  · rename_i hpc
    obtain ⟨t, queue, rfl⟩ := List.exists_cons_of_ne_nil (h.moving hpc)
    obtain ⟨hfirst, hshows⟩ := h.move hpc
    rw [hfirst] at hstep
    obtain rfl := Option.some.inj hstep
    exact ⟨⟨start, t :: queue, hleads, hshows⟩, rfl⟩
  · rename_i t hpc
    obtain ⟨queue, rfl⟩ := List.head?_eq_some_iff.mp (h.releasing t hpc)
    obtain rfl := Option.some.inj hstep
    exact ⟨⟨start + 1, queue, hleads.pop, h.release hpc⟩, rfl⟩

/-- The record that `frontPtr` returns is the first one. -/
theorem inv_frontPtr (h : s.Inv) (hidle : s.reading = .idle) :
    s.frontPtr.Inv ∧ s.frontPtr.size = s.size := by
  obtain ⟨start, queue, hleads, h⟩ := h
  rw [frontPtr]
  split
  · rename_i hempty
    exact ⟨⟨start, queue, hleads.isEmpty (iff_of_true rfl (h.empty_iff.mp hempty)), h.record _⟩,
      rfl⟩
  · rename_i hne
    obtain ⟨t, queue, rfl⟩ := List.exists_cons_of_ne_nil fun hnil => hne (h.empty_iff.mpr hnil)
    have htaken : s.taken = 0 := by
      unfold taken
      rw [hidle]
    have hring := h.ring
    rw [htaken] at hring
    have hfirst : s.records s.readIndex.toNat = some t := by
      rw [h.readIndex]
      exact hring.first
    rw [hfirst]
    exact ⟨⟨start, t :: queue, hleads.front, h.record _⟩, rfl⟩

theorem inv_step {a : SpscAction T} (h : s.Inv) (hadmits : s.Admits a)
    (hstep : s.step a = some s') :
    s'.Inv ∧ s'.size = s.size := by
  have hahead : s.writing = .idle → s.ahead = [] := fun hidle => by rw [ahead, hidle]
  have htaken : s.reading = .idle → s.taken = 0 := fun hidle => by rw [taken, hidle]
  cases a with
  | next side =>
    cases side with
    | producer => exact inv_writeNext h hstep
    | consumer => exact inv_readNext h hstep
  | write t =>
    obtain ⟨start, queue, hleads, h⟩ := h
    rw [step] at hstep
    split at hstep
    · rename_i hidle
      obtain rfl := Option.some.inj hstep
      exact ⟨⟨start, queue, hleads, h.writingTo (hahead hidle) nofun nofun⟩, rfl⟩
    · cases hstep
  | read =>
    obtain ⟨start, queue, hleads, h⟩ := h
    rw [step] at hstep
    split at hstep
    · rename_i hidle
      obtain rfl := Option.some.inj hstep
      exact ⟨⟨start, queue, hleads, h.readingTo (htaken hidle) nofun nofun⟩, rfl⟩
    · cases hstep
  | frontPtr =>
    rw [step] at hstep
    split at hstep
    · rename_i hidle
      obtain rfl := Option.some.inj hstep
      exact inv_frontPtr h hidle
    · cases hstep
  | popFront =>
    obtain ⟨start, queue, hleads, h⟩ := h
    have hne : s.readIndex ≠ s.writeIndex := hadmits
    rw [step, if_pos hne] at hstep
    split at hstep
    · rename_i hidle
      obtain rfl := Option.some.inj hstep
      refine ⟨⟨start, queue, hleads, h.readingTo (htaken hidle) nofun fun _ hnil => ?_⟩, rfl⟩
      exact hne (h.empty_iff.mpr hnil)
    · cases hstep
  | isEmpty side =>
    obtain ⟨start, queue, hleads, h⟩ := h
    rw [step] at hstep
    split at hstep
    · obtain rfl := Option.some.inj hstep
      exact ⟨⟨start, queue, hleads.isEmpty (decide_eq_true_iff.trans h.empty_iff), h.record _⟩, rfl⟩
    · cases hstep
  | isFull side =>
    obtain ⟨start, queue, hleads, h⟩ := h
    rw [step] at hstep
    split at hstep
    · obtain rfl := Option.some.inj hstep
      refine ⟨⟨start, queue, hleads.isFull (decide_eq_true_iff.trans (h.full_iff.trans ?_)),
        h.record _⟩, rfl⟩
      have hlength := h.length
      rw [Option.some.injEq]
      omega
    · cases hstep
  | sizeGuess side =>
    obtain ⟨start, queue, hleads, h⟩ := h
    rw [step] at hstep
    split at hstep
    · obtain rfl := Option.some.inj hstep
      rw [h.sizeOf hadmits]
      exact ⟨⟨start, queue, hleads.size, h.record _⟩, rfl⟩
    · cases hstep

theorem inv_new {size : UInt32} (hsize : 2 ≤ size) : (new size : ProducerConsumerQueue T).Inv := by
  have hpos : 0 < size.toNat := Nat.lt_of_lt_of_le Nat.two_pos (UInt32.le_iff_toNat_le.mp hsize)
  refine ⟨0, [], FifoQueue.leads_nil, hpos, ?_, ?_, Ring.holds_nil _ _, nofun, nofun, nofun, rfl⟩
  · exact (Nat.zero_mod _).symm
  · exact (Nat.zero_mod _).symm

omit [DecidableEq T] in
/-- `destroy` from an index on, with the records that are left there. -/
theorem ends_destroyRound {items : List T} (hlength : items.length < s.size.toNat) {index : UInt32}
    (hindex : index.toNat = n % s.size.toNat)
    (hend : s.writeIndex.toNat = (n + items.length) % s.size.toNat) (hcells : ∀ i,
      i < items.length → s.records ((n + i) % s.size.toNat) = items[i]?) (done : List (Option T)) :
    WhileLoop.Ends s.destroyRound (index, done) (done ++ items.map some) := by
  have hpos : 0 < s.size.toNat := Nat.zero_lt_of_lt hlength
  induction items generalizing n index done with
  | nil =>
    have hlast : index = s.writeIndex := by
      rw [← UInt32.toNat_inj, hindex, hend]
      rfl
    rw [List.map_nil, List.append_nil]
    exact WhileLoop.ends_of_leave (if_pos hlast)
  | cons t items ih =>
    have hne : index ≠ s.writeIndex := by
      rw [Ne, ← UInt32.toNat_inj, hindex, hend]
      intro heq
      exact absurd (Ring.mod_inj (i := 0) hpos hlength heq) (by simp)
    have hfirst : s.records index.toNat = some t := by
      rw [hindex]
      exact hcells 0 (Nat.zero_lt_succ _)
    have hround :
        s.destroyRound (index, done) = .inl (s.nextRecord index, done ++ [s.records index.toNat]) :=
      if_neg hne
    rw [WhileLoop.ends_iff_of_continue hround, hfirst, List.map_cons,
      List.append_cons done (some t) (items.map some)]
    refine ih (n := n + 1) (Nat.lt_of_succ_lt hlength) (toNat_nextRecord hpos hindex) ?_ ?_ _
    · rw [hend, List.length_cons, Nat.add_assoc, Nat.add_comm 1]
    · intro i hi
      rw [Nat.add_assoc, Nat.add_comm 1]
      exact hcells (i + 1) (Nat.succ_lt_succ hi)

/-- What the queue promises: its accesses are those of a queue with one record less than it has
    places; no record is constructed in the place of another one or used after its end; and with
    no call under way `destroy` destroys the records that are left, each once. -/
structure Promises (s : ProducerConsumerQueue T) (queue : List T) : Prop where
  leads : FifoQueue.Leads (some (s.size.toNat - 1)) s.events queue
  order : s.events.filterMap FifoQueue.pushed = s.events.filterMap FifoQueue.popped ++ queue
  room : queue.length < s.size.toNat
  fault : s.fault = false
  destroys : s.writing = .idle → s.reading = .idle →
    WhileLoop.Ends s.destroyRound (s.readIndex, []) (queue.map some)

/-- **The queue of one producer and one consumer is a queue**, in every interleaving of the accesses
    of the two, from every capacity on that the constructor admits. -/
theorem ring_of_run {size : UInt32} (hsize : 2 ≤ size) {as : List (SpscAction T)}
    (hadmits : Along step Admits (new size) as) (hrun : run step (new size) as = some s) :
    s.size = size ∧ ∃ queue, s.Promises queue := by
  have hinv : s.Inv ∧ s.size = size := by
    refine @inv_run _ _ _ (fun s => s.Inv ∧ s.size = size) _ ?_ _ _ _ ⟨inv_new hsize,
      rfl⟩ hadmits hrun
    rintro s a s' ⟨h, rfl⟩ hadmit hstep
    exact inv_step h hadmit hstep
  obtain ⟨⟨start, queue, hleads, h⟩, hsame⟩ := hinv
  refine ⟨hsame, queue, hleads, hleads.order.1, h.length, h.fault, fun hwriting hreading => ?_⟩
  have htaken : s.taken = 0 := by rw [taken, hreading]
  have hahead : s.ahead = [] := by rw [ahead, hwriting]
  have hring := h.ring
  rw [htaken, hahead, List.append_nil] at hring
  exact ends_destroyRound h.length h.readIndex h.writeIndex
    (fun i hi => hring.cell i (Nat.lt_trans hi h.length)) []

/-- A ring of two places: the second record finds it full, and later goes to the second place. -/
def aroundTwo : List (SpscAction Nat) :=
  [.write 5, .next .producer, .next .producer, .next .producer, .isFull .producer, .write 6,
   .next .producer, .frontPtr, .read, .next .consumer, .next .consumer, .next .consumer, .write 6,
   .next .producer, .next .producer, .next .producer, .sizeGuess .consumer]

theorem ring_of_run_aroundTwo : ∃ s queue, run step (new 2) aroundTwo = some s ∧
    s.events = [.push 5, .isFull true, .isFull true, .front 5, .pop 5, .push 6, .size 1] ∧
    s.Promises queue := by
  have hrun : (run step (new 2) aroundTwo).map events =
      some [.push 5, .isFull true, .isFull true, .front 5, .pop 5, .push 6, .size 1] := by
        decide +kernel
  obtain ⟨s, hs, hevents⟩ := Option.map_eq_some_iff.mp hrun
  obtain ⟨-, queue, hpromises⟩ := ring_of_run (by decide) (by decide +kernel) hs
  exact ⟨s, queue, hs, hevents, hpromises⟩

end ProducerConsumerQueue

end StorageEngine.Net
