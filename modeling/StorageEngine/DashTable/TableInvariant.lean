/-
  StorageEngine/DashTable/TableInvariant.lean
  ===========================================
  **The directory invariant of the dash table.**

  `Inv` says that the directory is aligned (every segment of local depth `d` owns one
  block of `2 ^ (global_depth_ - d)` consecutive indices), that every segment has its
  own invariant and only holds keys whose hash starts with the prefix of its block,
  and that the two counters count the distinct segments.  Every table operation keeps
  it, and `entries` — the sum of the contents of the distinct segments — says what the
  operations do to the stored pairs.
-/
import StorageEngine.DashTable.Table
import Mathlib.Algebra.BigOperators.Intervals

namespace StorageEngine.DashTable

open StorageEngine SlotStore

variable {K V : Type}

/-! ### Hash prefixes -/

/-- The top `d` bits of a hash. -/
def hashTop (d : Nat) (hash : UInt64) : Nat := hash.toNat / 2 ^ (64 - d)

theorem hashTop_lt {d : Nat} (hd : d ≤ 64) (hash : UInt64) : hashTop d hash < 2 ^ d := by
  have hlt : hash.toNat < 2 ^ 64 := hash.toNat_lt
  rw [← pow_sub_mul_pow 2 hd] at hlt
  exact Nat.div_lt_of_lt_mul hlt

/-- A shorter prefix is the longer one without its last bits. -/
theorem hashTop_div {d g : Nat} (hd : d ≤ g) (hg : g ≤ 64) (hash : UInt64) :
    hashTop g hash / 2 ^ (g - d) = hashTop d hash := by
  unfold hashTop
  rw [Nat.div_div_eq_div_mul, ← pow_add]
  congr 2
  omega

/-- `is_mine` reads the last bit of the prefix. -/
theorem isMine_iff {d : Nat} (hash : UInt64) :
    Segment.isMine d hash = true ↔ hashTop d hash % 2 = 0 := by
  unfold Segment.isMine hashTop
  rw [beq_iff_eq, Nat.testBit_zero, Nat.shiftRight_eq_div_pow]
  rw [decide_eq_false_iff_not]
  omega

namespace Table

variable (p : Policy K V)

/-- The local depths as the directory sees them. -/
def depthOf (t : Table K V) (ptr : Ptr) : Nat := (t.heap ptr).localDepth

/-- The pairs stored in the distinct segments. -/
def entries (t : Table K V) : Multiset (K × V) :=
  ∑ ptr ∈ Directory.items t.globalDepth t.segment, (t.heap ptr).contents p

/-- The directory invariant. -/
structure Inv (t : Table K V) : Prop where
  segmentSize : t.segmentSize = 2 ^ t.globalDepth
  initial_le : t.initialDepth ≤ t.globalDepth
  aligned : Directory.Aligned t.globalDepth t.segment t.depthOf
  localDepth_ge : ∀ i < 2 ^ t.globalDepth, t.initialDepth ≤ (t.seg i).localDepth
  allocated : ∀ i < 2 ^ t.globalDepth, t.segment i < t.nextPtr
  segInv : ∀ i < 2 ^ t.globalDepth, (t.seg i).Inv p
  hashPrefix : ∀ i < 2 ^ t.globalDepth, ∀ x ∈ (t.seg i).contents p,
    hashTop (t.seg i).localDepth (p.hashFn x.1) =
      i / 2 ^ (t.globalDepth - (t.seg i).localDepth)
  unique : t.uniqueSegments.toNat = (Directory.items t.globalDepth t.segment).card
  buckets : t.bucketCount = t.uniqueSegments * numBuckets p

theorem segmentId_eq {t : Table K V} (hg : t.globalDepth ≤ 31) (hash : UInt64) :
    t.segmentId hash = hashTop t.globalDepth hash := by
  unfold segmentId
  split
  · rw [Nat.shiftRight_eq_div_pow]
    have hlt := hashTop_lt (d := t.globalDepth) (by omega) hash
    have hpow : 2 ^ t.globalDepth ≤ 2 ^ 32 := Nat.pow_le_pow_right (by decide) (by omega)
    exact Nat.mod_eq_of_lt (Nat.lt_of_lt_of_le hlt hpow)
  · rename_i hzero
    have hzero : t.globalDepth = 0 := by simpa using hzero
    have := hashTop_lt (d := 0) (by decide) hash
    rw [hzero]
    omega

theorem segmentId_lt {t : Table K V} (hg : t.globalDepth ≤ 31) (hash : UInt64) :
    t.segmentId hash < 2 ^ t.globalDepth := by
  rw [segmentId_eq hg]
  exact hashTop_lt (by omega) hash

section Inv

variable {p}
variable {t : Table K V}

/-- A key is stored in the segment its hash leads to. -/
theorem Inv.seg_of_mem (h : t.Inv p) (hg : t.globalDepth ≤ 31) {i : Nat}
    (hi : i < 2 ^ t.globalDepth) {x : K × V} (hx : x ∈ (t.seg i).contents p) :
    t.segment (t.segmentId (p.hashFn x.1)) = t.segment i := by
  have hdepth : (t.seg i).localDepth ≤ t.globalDepth := h.aligned.depth_le i hi
  rw [h.aligned.eq_iff i hi _ (segmentId_lt hg _), segmentId_eq hg]
  rw [show t.depthOf (t.segment i) = (t.seg i).localDepth from rfl,
    hashTop_div hdepth (by omega)]
  exact h.hashPrefix i hi x hx

theorem Inv.mem_entries (h : t.Inv p) (hg : t.globalDepth ≤ 31) {x : K × V} :
    x ∈ t.entries p ↔ x ∈ (t.seg (t.segmentId (p.hashFn x.1))).contents p := by
  unfold entries
  rw [Multiset.mem_sum]
  constructor
  · rintro ⟨ptr, hptr, hx⟩
    obtain ⟨i, hi, rfl⟩ := Directory.mem_items.mp hptr
    have := h.seg_of_mem hg hi hx
    rw [seg, this]
    exact hx
  · intro hx
    exact ⟨_, Directory.mem_items.mpr ⟨_, segmentId_lt hg _, rfl⟩, hx⟩

/-- The directory does not depend on the size counter. -/
theorem Inv.withSize (h : t.Inv p) (n : Nat) : ({ t with size := n } : Table K V).Inv p :=
  ⟨h.1, h.2, h.3, h.4, h.5, h.6, h.7, h.8, h.9⟩

end Inv

/-! ### Writing one segment -/

/-- The pairs stored in the other segments. -/
def others (t : Table K V) (sid : Nat) : Multiset (K × V) :=
  ∑ ptr ∈ (Directory.items t.globalDepth t.segment).erase (t.segment sid), (t.heap ptr).contents p

theorem entries_eq (t : Table K V) {i : Nat} (hi : i < 2 ^ t.globalDepth) :
    t.entries p = (t.seg i).contents p + t.others p i := by
  unfold entries others
  rw [← Finset.add_sum_erase _ _ (Directory.mem_items.mpr ⟨i, hi, rfl⟩)]
  rfl

/-- Two indices of one segment. -/
theorem seg_congr {t : Table K V} {i j : Nat} (h : t.segment i = t.segment j) :
    t.seg i = t.seg j :=
  congrArg t.heap h

theorem seg_setSeg (t : Table K V) (sid : Nat) (s : Segment K V) (i : Nat) :
    (t.setSeg sid s).seg i = if t.segment i = t.segment sid then s else t.seg i := by
  unfold seg setSeg
  by_cases hi : t.segment i = t.segment sid
  · simp [hi]
  · simp [hi]

@[simp] theorem seg_setSeg_self (t : Table K V) (sid : Nat) (s : Segment K V) :
    (t.setSeg sid s).seg sid = s := by
  simp [seg_setSeg]

theorem others_setSeg (t : Table K V) (sid : Nat) (s : Segment K V) :
    (t.setSeg sid s).others p sid = t.others p sid := by
  unfold others
  apply Finset.sum_congr rfl
  intro ptr hptr
  have hne : ptr ≠ t.segment sid := Finset.ne_of_mem_erase hptr
  simp [setSeg, hne]

/-- Replacing a segment by one of the same depth whose pairs have the same prefix. -/
theorem Inv.setSeg {t : Table K V} (h : t.Inv p) {sid : Nat} (hsid : sid < 2 ^ t.globalDepth)
    {s : Segment K V} (hs : s.Inv p) (hdepth : s.localDepth = (t.seg sid).localDepth)
    (hhash : ∀ x ∈ s.contents p, hashTop s.localDepth (p.hashFn x.1) =
      sid / 2 ^ (t.globalDepth - s.localDepth)) : (t.setSeg sid s).Inv p where
  segmentSize := h.segmentSize
  initial_le := h.initial_le
  aligned := h.aligned.congr (fun _ _ => rfl) fun i _ => by
    show ((t.setSeg sid s).seg i).localDepth = (t.seg i).localDepth
    rw [seg_setSeg]
    split
    · rename_i heq
      rw [hdepth, seg, seg, heq]
    · rfl
  localDepth_ge i hi := by
    rw [seg_setSeg]
    split
    · rw [hdepth]
      exact h.localDepth_ge sid hsid
    · exact h.localDepth_ge i hi
  allocated := h.allocated
  segInv i hi := by
    rw [seg_setSeg]
    split
    · exact hs
    · exact h.segInv i hi
  hashPrefix i hi x hx := by
    rw [seg_setSeg] at hx ⊢
    split at hx
    · rename_i heq
      rw [if_pos heq, hhash x hx, hdepth]
      exact ((h.aligned.eq_iff sid hsid i hi).mp heq).symm
    · rename_i hne
      rw [if_neg hne]
      exact h.hashPrefix i hi x hx
  unique := h.unique
  buckets := h.buckets

/-! ### Fresh tables -/

theorem entries_eq_zero {t : Table K V}
    (h : ∀ i < 2 ^ t.globalDepth, (t.seg i).contents p = 0) : t.entries p = 0 := by
  apply Finset.sum_eq_zero
  intro ptr hptr
  obtain ⟨i, hi, rfl⟩ := Directory.mem_items.mp hptr
  exact h i hi

/-- One empty segment for each directory entry, as the constructor and `Clear` leave it. -/
structure Fresh (t : Table K V) : Prop where
  segmentSize : t.segmentSize = 2 ^ t.globalDepth
  initialDepth : t.initialDepth = t.globalDepth
  globalDepth_le : t.globalDepth ≤ 30
  injective : ∀ i < 2 ^ t.globalDepth, ∀ j < 2 ^ t.globalDepth,
    t.segment i = t.segment j → i = j
  localDepth : ∀ i < 2 ^ t.globalDepth, (t.seg i).localDepth = t.globalDepth
  allocated : ∀ i < 2 ^ t.globalDepth, t.segment i < t.nextPtr
  segInv : ∀ i < 2 ^ t.globalDepth, (t.seg i).Inv p
  empty : ∀ i < 2 ^ t.globalDepth, (t.seg i).contents p = 0
  unique : t.uniqueSegments = UInt32.ofNat (2 ^ t.globalDepth)
  buckets : t.bucketCount = UInt32.ofNat (2 ^ t.globalDepth) * numBuckets p

variable {p} in
theorem Fresh.inv {t : Table K V} (h : t.Fresh p) : t.Inv p where
  segmentSize := h.segmentSize
  initial_le := h.initialDepth.le
  aligned := .of_injective h.injective h.localDepth
  localDepth_ge i hi := (h.initialDepth.trans (h.localDepth i hi).symm).le
  allocated := h.allocated
  segInv := h.segInv
  hashPrefix i hi x hx := by
    rw [h.empty i hi] at hx
    simp at hx
  unique := by
    have hdepth := h.globalDepth_le
    have hlt : 2 ^ t.globalDepth < 2 ^ 32 := Nat.pow_lt_pow_right (by decide) (by omega)
    rw [h.unique, Directory.card_items_of_injective h.injective, UInt32.toNat_ofNat',
      Nat.mod_eq_of_lt hlt]
  buckets := by
    rw [h.buckets, h.unique]

/-! ### Construction -/

section New

variable [Inhabited K] [Inhabited V]

/-- The state after constructing `n` segments. -/
theorem foldl_constructAt (t : Table K V) (hptr : t.nextPtr = 0) (n : Nat) :
    let t' := (List.range n).foldl (constructAt p) t
    (∀ j < n, t'.segment j = j ∧ t'.heap j = Segment.new t.globalDepth j) ∧ t'.nextPtr = n ∧
      t'.bucketCount = t.bucketCount + UInt32.ofNat n * numBuckets p ∧
      t'.segmentSize = t.segmentSize ∧ t'.size = t.size ∧ t'.uniqueSegments = t.uniqueSegments ∧
      t'.initialDepth = t.initialDepth ∧ t'.globalDepth = t.globalDepth := by
  induction n with
  | zero => simp [hptr]
  | succ n ih =>
    obtain ⟨hseg, hnext, hcount, hsize, hsz, huniq, hinit, hgd⟩ := ih
    rw [List.range_succ, List.foldl_append]
    simp only [List.foldl_cons, List.foldl_nil]
    set t' := (List.range n).foldl (constructAt p) t
    refine ⟨?_, ?_, ?_, hsize, hsz, huniq, hinit, hgd⟩
    · intro j hj
      simp only [constructAt, constructSegment, hnext, hgd]
      by_cases hjn : j = n
      · subst hjn
        simp
      · have := hseg j (by omega)
        simp [hjn, this]
    · simp [constructAt, constructSegment, hnext]
    · simp only [constructAt, constructSegment, hcount]
      rw [UInt32.ofNat_add, UInt32.add_mul, UInt32.ofNat_one, UInt32.one_mul, UInt32.add_assoc]

theorem inv_new {capacityLog : Nat} (hlog : capacityLog ≤ 30) :
    (new p capacityLog : Table K V).Inv p ∧ (new p capacityLog : Table K V).entries p = 0 ∧
      (new p capacityLog : Table K V).size = 0 ∧
      (new p capacityLog : Table K V).globalDepth = capacityLog ∧
      (new p capacityLog : Table K V).initialDepth = capacityLog := by
  have hpow : 1 <<< capacityLog = 2 ^ capacityLog := Nat.one_shiftLeft capacityLog
  obtain ⟨hseg, hnext, hcount, hsize, hsz, huniq, hinit, hgd⟩ :=
    foldl_constructAt p (unfilled capacityLog : Table K V) rfl (2 ^ capacityLog)
  have hnew : (List.range (2 ^ capacityLog)).foldl (constructAt p) (unfilled capacityLog) =
      (new p capacityLog : Table K V) := by
    rw [new, hpow]
  rw [hnew] at hseg hnext hcount hsize hsz huniq hinit hgd
  generalize (new p capacityLog : Table K V) = t at *
  simp only [unfilled, hpow] at hseg hnext hcount hsize hsz huniq hinit hgd
  have hseg' : ∀ i < 2 ^ t.globalDepth, t.seg i = Segment.new capacityLog i := by
    intro i hi
    rw [hgd] at hi
    rw [seg, (hseg i hi).1, (hseg i hi).2]
  have hfresh : t.Fresh p := by
    refine ⟨hgd ▸ hsize, by omega, by omega, ?_, ?_, ?_, ?_, ?_, hgd ▸ huniq, ?_⟩
    · intro i hi j hj heq
      rw [hgd] at hi hj
      rw [(hseg i hi).1, (hseg j hj).1] at heq
      exact heq
    · intro i hi
      rw [hseg' i hi, hgd]
      rfl
    · intro i hi
      rw [hgd] at hi
      rw [(hseg i hi).1, hnext]
      exact hi
    · intro i hi
      rw [hseg' i hi]
      exact Segment.inv_new p _ _
    · intro i hi
      rw [hseg' i hi]
      exact Segment.contents_new p _ _
    · rw [hcount, hgd, UInt32.zero_add]
  exact ⟨hfresh.inv, entries_eq_zero p hfresh.empty, hsz, hgd, hinit⟩

end New

end Table

end StorageEngine.DashTable
