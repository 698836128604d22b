/-
  StorageEngine/DashTable/TableGrowth.lean
  ========================================
  **Doubling the directory and splitting a segment.**

  `IncreaseDepth` expands the directory in place from the back; `Split` gives the upper
  half of a block to a new segment.  Both are instances of the two growth rules of
  `Directory`, and neither changes the stored pairs — apart from those a split drops.
-/
import StorageEngine.DashTable.TableInvariant

namespace StorageEngine.DashTable

open StorageEngine SlotStore

variable {K V : Type}

namespace Segment

variable (p : Policy K V)

theorem cell_of_bucket {s s' : Segment K V} (h : s'.bucket = s.bucket) : s'.cell = s.cell := by
  funext x
  rw [cell, cell, h]

theorem Inv.of_bucket {s s' : Segment K V} (hinv : s.Inv p) (h : s'.bucket = s.bucket) :
    s'.Inv p :=
  hinv.congr p (cell_of_bucket h) (fun i => by rw [h]; exact hinv.slotsWF i) fun i => by rw [h]

theorem mem_migrants {s : Segment K V} {depth : Nat} {x : K × V} :
    x ∈ s.migrants p depth ↔ x ∈ s.contents p ∧ isMine depth (p.hashFn x.1) = false := by
  rw [migrants, List.mem_filter, contents_eq_pairs, Multiset.mem_coe, Bool.not_eq_true']

theorem contents_of_bucket {s s' : Segment K V} (h : s'.bucket = s.bucket) :
    s'.contents p = s.contents p :=
  contents_congr (cell_of_bucket h)

/-- What the halves of a split segment are: segments one deeper, each with pairs of `s`
    on its side of the new hash bit. -/
structure Halves (s : Segment K V) (st : SplitState K V) : Prop where
  source_inv : st.source.Inv p
  dest_inv : st.dest.Inv p
  source_depth : st.source.localDepth = s.localDepth + 1
  dest_depth : st.dest.localDepth = s.localDepth + 1
  source_mem : ∀ x ∈ st.source.contents p,
    x ∈ s.contents p ∧ isMine (s.localDepth + 1) (p.hashFn x.1) = true
  dest_mem : ∀ x ∈ st.dest.contents p,
    x ∈ s.contents p ∧ isMine (s.localDepth + 1) (p.hashFn x.1) = false

theorem halves_split [Inhabited K] [Inhabited V] [p.Movable] {s : Segment K V} (hinv : s.Inv p)
    (depth id : Nat) : Halves p s (split p s (.new depth id)) := by
  have hsource := (split_spec p hinv (.new depth id)).1
  obtain ⟨hdinv, hdcont, hddepth, -⟩ :=
    split_receives p hinv (inv_new p depth id) (contents_new p depth id)
  refine ⟨hsource.inv, hdinv, hsource.localDepth, hddepth, ?_, ?_⟩
  · intro x hx
    refine ⟨hsource.contents ▸ Multiset.mem_add.mpr (Or.inl hx), ?_⟩
    obtain ⟨y, hy, e, he, hk, -⟩ := (mem_contents p).mp hx
    have hmine := hsource.mine y e ((p.mem_cells).mp hy).1 he
    rw [hk] at hmine
    exact hmine
  · intro x hx
    have hmig : x ∈ (s.migrants p (s.localDepth + 1) : Multiset (K × V)) :=
      hdcont ▸ Multiset.mem_add.mpr (Or.inl hx)
    exact (mem_migrants p).mp (Multiset.mem_coe.mp hmig)

end Segment

namespace Table

variable (p : Policy K V)

/-! ### IncreaseDepth -/

/-- Two heaps that differ in segment ids only. -/
def SameButIds (h h' : Ptr → Segment K V) : Prop :=
  ∀ ptr, (h' ptr).bucket = (h ptr).bucket ∧ (h' ptr).localDepth = (h ptr).localDepth

/-- The loop of `IncreaseDepth` over the entries `n - 1, …, 0`: an entry is only
    overwritten after it has been copied. -/
theorem foldl_replicateEntry {r : Nat} (hr : 0 < r) (n : Nat) (t : Table K V) :
    let t' := (List.range n).reverse.foldl (replicateEntry r) t
    (∀ j, t'.segment j = if j < n * r then t.segment (j / r) else t.segment j) ∧
      SameButIds t.heap t'.heap ∧ t'.nextPtr = t.nextPtr ∧ t'.segmentSize = t.segmentSize ∧
      t'.size = t.size ∧ t'.uniqueSegments = t.uniqueSegments ∧ t'.bucketCount = t.bucketCount ∧
      t'.initialDepth = t.initialDepth ∧ t'.globalDepth = t.globalDepth := by
  induction n generalizing t with
  | zero => exact ⟨by simp, fun _ => ⟨rfl, rfl⟩, rfl, rfl, rfl, rfl, rfl, rfl, rfl⟩
  | succ n ih =>
    rw [List.range_succ, List.reverse_append, List.reverse_singleton, List.singleton_append,
      List.foldl_cons]
    obtain ⟨hseg, hheap, hrest⟩ := ih (replicateEntry r t n)
    refine ⟨?_, ?_, hrest⟩
    · intro j
      have hone : (replicateEntry r t n).segment =
          fun j => if n * r ≤ j ∧ j < n * r + r then t.segment n else t.segment j := rfl
      have hsucc : (n + 1) * r = n * r + r := Nat.succ_mul n r
      rw [hseg, hone, hsucc]
      dsimp only
      by_cases hj : j < n * r
      · -- the source of the copy lies below everything written so far
        have hdiv : j / r < n := Nat.div_lt_of_lt_mul (by rw [Nat.mul_comm]; exact hj)
        have hle : n ≤ n * r := Nat.le_mul_of_pos_right n hr
        rw [if_pos hj, if_neg (by omega), if_pos (by omega)]
      · rw [if_neg hj]
        by_cases hj' : j < n * r + r
        · have hdiv : j / r = n := by
            rw [Nat.div_eq_iff hr]
            omega
          rw [if_pos ⟨by omega, hj'⟩, if_pos hj', hdiv]
        · rw [if_neg (fun h => hj' h.2), if_neg hj']
    · intro ptr
      refine ⟨(hheap ptr).1.trans ?_, (hheap ptr).2.trans ?_⟩
      · simp only [replicateEntry, setSeg, seg]
        split <;> by_cases hptr : ptr = t.segment n <;> simp_all
      · simp only [replicateEntry, setSeg, seg]
        split <;> by_cases hptr : ptr = t.segment n <;> simp_all

/-- What `IncreaseDepth` to the next depth changes. -/
structure Doubled (t t' : Table K V) : Prop where
  globalDepth : t'.globalDepth = t.globalDepth + 1
  segment : ∀ j < 2 ^ (t.globalDepth + 1), t'.segment j = t.segment (j / 2)
  heap : SameButIds t.heap t'.heap
  segmentSize : t'.segmentSize = 2 ^ (t.globalDepth + 1)
  nextPtr : t'.nextPtr = t.nextPtr
  size : t'.size = t.size
  uniqueSegments : t'.uniqueSegments = t.uniqueSegments
  bucketCount : t'.bucketCount = t.bucketCount
  initialDepth : t'.initialDepth = t.initialDepth

theorem doubled_increaseDepth {t : Table K V} (hsize : t.segmentSize = 2 ^ t.globalDepth) :
    Doubled t (t.increaseDepth (t.globalDepth + 1)) := by
  obtain ⟨hseg, hheap, hnext, hsz, hcount, huniq, hbuckets, hinit, hgd⟩ :=
    foldl_replicateEntry (r := 2 ^ (t.globalDepth + 1 - t.globalDepth))
      (Nat.pow_pos (by decide)) t.segmentSize { t with segmentSize := 2 ^ (t.globalDepth + 1) }
  refine ⟨rfl, ?_, hheap, hsz, hnext, hcount, huniq, hbuckets, hinit⟩
  intro j hj
  have hrepl : 2 ^ (t.globalDepth + 1 - t.globalDepth) = 2 := by
    rw [Nat.add_sub_cancel_left, pow_one]
  refine (hseg j).trans ?_
  rw [hrepl, hsize, ← pow_succ, if_pos hj]

section Doubled

variable {p}
variable {t t' : Table K V}

theorem Doubled.seg (h : Doubled t t') {j : Nat} (hj : j < 2 ^ t'.globalDepth) :
    (t'.seg j).bucket = (t.seg (j / 2)).bucket ∧
      (t'.seg j).localDepth = (t.seg (j / 2)).localDepth := by
  rw [h.globalDepth] at hj
  unfold Table.seg
  rw [h.segment j hj]
  exact h.heap _

theorem Doubled.items (h : Doubled t t') :
    Directory.items t'.globalDepth t'.segment = Directory.items t.globalDepth t.segment := by
  rw [h.globalDepth, Directory.items_congr h.segment]
  exact Directory.items_double t.globalDepth t.segment

theorem Doubled.entries (h : Doubled t t') : t'.entries p = t.entries p := by
  unfold Table.entries
  rw [h.items]
  exact Finset.sum_congr rfl fun ptr _ => Segment.contents_of_bucket p (h.heap ptr).1

theorem Doubled.inv (h : Doubled t t') (hinv : t.Inv p) : t'.Inv p := by
  have hhalf : ∀ j < 2 ^ t'.globalDepth, j / 2 < 2 ^ t.globalDepth := fun j hj => by
    rw [h.globalDepth] at hj
    exact Directory.half_lt hj
  refine ⟨?_, ?_, ?_, ?_, ?_, ?_, ?_, ?_, ?_⟩
  · rw [h.segmentSize, h.globalDepth]
  · rw [h.initialDepth, h.globalDepth]
    have := hinv.initial_le
    omega
  · rw [h.globalDepth]
    exact hinv.aligned.double.congr h.segment fun j _ => (h.heap _).2
  · intro j hj
    rw [h.initialDepth, (h.seg hj).2]
    exact hinv.localDepth_ge _ (hhalf j hj)
  · intro j hj
    have hj' := hj
    rw [h.globalDepth] at hj'
    rw [h.segment j hj', h.nextPtr]
    exact hinv.allocated _ (hhalf j hj)
  · intro j hj
    exact (hinv.segInv _ (hhalf j hj)).of_bucket p (h.seg hj).1
  · intro j hj x hx
    rw [Segment.contents_of_bucket p (h.seg hj).1] at hx
    have hold := hinv.hashPrefix _ (hhalf j hj) x hx
    have hle : (t.seg (j / 2)).localDepth ≤ t.globalDepth :=
      hinv.aligned.depth_le _ (hhalf j hj)
    rw [(h.seg hj).2, hold, h.globalDepth, Nat.div_div_eq_div_mul, Nat.succ_sub hle, pow_succ,
      Nat.mul_comm]
  · rw [h.uniqueSegments, h.items]
    exact hinv.unique
  · rw [h.bucketCount, h.uniqueSegments]
    exact hinv.buckets

/-- The hash leads to the same segment as before. -/
theorem Doubled.segment_segmentId (h : Doubled t t') (hg : t'.globalDepth ≤ 31) (hash : UInt64) :
    t'.segment (t'.segmentId hash) = t.segment (t.segmentId hash) := by
  have hgd := h.globalDepth
  rw [segmentId_eq hg, segmentId_eq (by omega), h.segment _ (by
    rw [← hgd]; exact hashTop_lt (by omega) hash), hgd]
  have := hashTop_div (Nat.le_succ t.globalDepth) (by omega) hash
  rw [Nat.succ_sub (Nat.le_refl _), Nat.sub_self, pow_one] at this
  rw [this]

theorem Doubled.finer (h : Doubled t t') :
    Directory.Finer t.globalDepth t.segment t'.globalDepth t'.segment where
  le := h.globalDepth ▸ Nat.le_succ _
  eq_of_eq i hi j hj heq := by
    rw [h.globalDepth] at hi hj ⊢
    rw [h.segment i hi, h.segment j hj] at heq
    rw [Nat.add_sub_cancel_left, pow_one]
    exact heq

end Doubled

/-! ### Split -/

theorem chunkStart_eq {segId k : Nat} (hseg : segId < 2 ^ 32) (hk : k < 32) :
    chunkStart segId (2 ^ k) = segId / 2 ^ k * 2 ^ k := by
  have hlow : ∀ i, (BitVec.ofNat 32 (2 ^ k) - 1#32).getLsbD i = decide (i < k) := by
    intro i
    have hone : (1#32 <<< k : BitVec 32) = BitVec.ofNat 32 (2 ^ k) := by
      apply BitVec.eq_of_toNat_eq
      simp [BitVec.toNat_shiftLeft, Nat.shiftLeft_eq]
    rw [← hone]
    exact BitMask.getLsbD_low_mask hk i
  apply Nat.eq_of_testBit_eq
  intro i
  unfold chunkStart
  rw [BitVec.testBit_toNat, BitVec.getLsbD_and, BitVec.getLsbD_not, hlow, BitVec.getLsbD_ofNat,
    Nat.testBit_mul_two_pow, Nat.testBit_div_two_pow]
  by_cases hi : i < 32
  · by_cases hik : i < k
    · simp [hi, hik]
    · have hsum : i - k + k = i := by omega
      have hki : k ≤ i := by omega
      simp [hi, hik, hsum, hki]
  · have hzero : segId.testBit i = false :=
      Nat.testBit_lt_two_pow (Nat.lt_of_lt_of_le hseg (Nat.pow_le_pow_right (by decide) (by omega)))
    by_cases hik : k ≤ i
    · have hsum : i - k + k = i := by omega
      simp [hi, hik, hsum, hzero]
    · simp [hi, hik]

/-- What `Split` of the segment at `sid` changes, with `e` half the length of its block
    and `st` the final state of the segment's split. -/
structure HalvedAt (t t' : Table K V) (sid e : Nat) (st : Segment.SplitState K V) : Prop where
  globalDepth : t'.globalDepth = t.globalDepth
  segment : ∀ j, t'.segment j =
    if j / e = 2 * (sid / (2 * e)) + 1 then t.nextPtr else t.segment j
  source : t'.heap (t.segment sid) = st.source
  dest : t'.heap t.nextPtr = st.dest
  heap : ∀ ptr, ptr ≠ t.segment sid → ptr ≠ t.nextPtr → t'.heap ptr = t.heap ptr
  segmentSize : t'.segmentSize = t.segmentSize
  nextPtr : t'.nextPtr = t.nextPtr + 1
  size : t'.size = t.size
  uniqueSegments : t'.uniqueSegments = t.uniqueSegments + 1
  bucketCount : t'.bucketCount = t.bucketCount + numBuckets p
  initialDepth : t'.initialDepth = t.initialDepth

section Halved

variable [Inhabited K] [Inhabited V]

omit [Inhabited K] [Inhabited V] in
/-- The block of a segment that can be split, and what its split reads first. -/
theorem block_of_split {t : Table K V} (hinv : t.Inv p) (hg : t.globalDepth ≤ 31) {sid : Nat}
    (hsid : sid < 2 ^ t.globalDepth) (hlt : (t.seg sid).localDepth < t.globalDepth) {e : Nat}
    (he : e = 2 ^ (t.globalDepth - ((t.seg sid).localDepth + 1))) :
    2 ^ (t.globalDepth - (t.heap (t.segment sid)).localDepth) = 2 * e ∧
      chunkStart sid (2 * e) = sid / (2 * e) * (2 * e) ∧ 2 * e / 2 = e ∧
      ∀ s, Function.update t.heap t.nextPtr s (t.segment sid) = t.heap (t.segment sid) := by
  have hne : t.segment sid ≠ t.nextPtr := Nat.ne_of_lt (hinv.allocated sid hsid)
  have hchunk : 2 ^ (t.globalDepth - (t.heap (t.segment sid)).localDepth) = 2 * e := by
    rw [he]
    exact Directory.pow_sub_eq_two_mul hlt
  refine ⟨hchunk, ?_, Nat.mul_div_cancel_left e (by decide), fun s => Function.update_of_ne hne _ _⟩
  rw [← hchunk]
  refine chunkStart_eq (Nat.lt_of_lt_of_le hsid (Nat.pow_le_pow_right (by decide) ?_)) ?_ <;>
  omega

/-- `Split`, with the id of the new segment: the first index of the upper half. -/
theorem halvedAt_split_id {t : Table K V} (hinv : t.Inv p) (hg : t.globalDepth ≤ 31) {sid : Nat}
    (hsid : sid < 2 ^ t.globalDepth) (hlt : (t.seg sid).localDepth < t.globalDepth) {e : Nat}
    (he : e = 2 ^ (t.globalDepth - ((t.seg sid).localDepth + 1))) :
    let st := Segment.split p (t.seg sid)
      (.new ((t.seg sid).localDepth + 1) (sid / (2 * e) * (2 * e) + e))
    HalvedAt p t (t.split p sid).1 sid e st ∧ (t.split p sid).2 = st.dropped := by
  have hne : t.segment sid ≠ t.nextPtr := Nat.ne_of_lt (hinv.allocated sid hsid)
  have hpos : 0 < e := he ▸ Nat.pow_pos (by decide)
  obtain ⟨hchunk, hstart, hhalf, hheap⟩ := block_of_split p hinv hg hsid hlt he
  constructor
  · unfold split constructSegment
    dsimp only
    rw [hchunk, hstart, hhalf, hheap, Function.update_self]
    refine ⟨rfl, ?_, ?_, ?_, ?_, rfl, rfl, rfl, rfl, rfl, rfl⟩
    · intro j
      dsimp only
      by_cases hj : j / e = 2 * (sid / (2 * e)) + 1
      · rw [if_pos ((Directory.upper_half_iff hpos).mpr hj), if_pos hj]
      · rw [if_neg (fun h => hj ((Directory.upper_half_iff hpos).mp h)), if_neg hj]
    · dsimp only
      rw [Function.update_of_ne hne, Function.update_self]
      rfl
    · dsimp only
      rw [Function.update_self]
      rfl
    · intro ptr hsrc hnew
      dsimp only
      rw [Function.update_of_ne hnew, Function.update_of_ne hsrc, Function.update_of_ne hnew]
  · unfold split constructSegment
    dsimp only
    rw [hchunk, hstart, hhalf, hheap, Function.update_self]
    rfl

theorem halvedAt_split {t : Table K V} (hinv : t.Inv p) (hg : t.globalDepth ≤ 31) {sid : Nat}
    (hsid : sid < 2 ^ t.globalDepth) (hlt : (t.seg sid).localDepth < t.globalDepth) :
    ∃ id, let st := Segment.split p (t.seg sid) (.new ((t.seg sid).localDepth + 1) id)
      HalvedAt p t (t.split p sid).1 sid (2 ^ (t.globalDepth - ((t.seg sid).localDepth + 1))) st ∧
        (t.split p sid).2 = st.dropped :=
  ⟨_, halvedAt_split_id p hinv hg hsid hlt rfl⟩

end Halved

section HalvedInv

variable {p}
variable {t t' : Table K V} {sid e : Nat} {st : Segment.SplitState K V}

/-- Where an index points after the split. -/
theorem HalvedAt.cases (h : HalvedAt p t t' sid e st) (hinv : t.Inv p)
    (hsid : sid < 2 ^ t.globalDepth) (hlt : (t.seg sid).localDepth < t.globalDepth)
    (he : e = 2 ^ (t.globalDepth - ((t.seg sid).localDepth + 1))) {i : Nat}
    (hi : i < 2 ^ t.globalDepth) :
    (i / e = 2 * (sid / (2 * e)) + 1 ∧ t.segment i = t.segment sid ∧ t'.segment i = t.nextPtr ∧
      t'.seg i = st.dest) ∨
    (i / e = 2 * (sid / (2 * e)) ∧ t.segment i = t.segment sid ∧ t'.segment i = t.segment sid ∧
      t'.seg i = st.source) ∨
    (t.segment i ≠ t.segment sid ∧ t'.segment i = t.segment i ∧ t'.seg i = t.seg i) := by
  have hchunk : 2 ^ (t.globalDepth - (t.seg sid).localDepth) = 2 * e :=
    he ▸ Directory.pow_sub_eq_two_mul hlt
  have hblock : t.segment i = t.segment sid ↔
      i / e = 2 * (sid / (2 * e)) ∨ i / e = 2 * (sid / (2 * e)) + 1 := by
    rw [hinv.aligned.eq_iff sid hsid i hi, show t.depthOf (t.segment sid) = (t.seg sid).localDepth
      from rfl, hchunk, Directory.same_block_iff]
  have hfresh := hinv.allocated i hi
  have hseg := h.segment i
  by_cases hup : i / e = 2 * (sid / (2 * e)) + 1
  · rw [if_pos hup] at hseg
    exact Or.inl ⟨hup, hblock.mpr (Or.inr hup), hseg, by rw [Table.seg, hseg, h.dest]⟩
  · rw [if_neg hup] at hseg
    by_cases hsame : t.segment i = t.segment sid
    · have hlow := (hblock.mp hsame).resolve_right hup
      exact Or.inr (Or.inl ⟨hlow, hsame, hseg.trans hsame, by
        rw [Table.seg, hseg, hsame, h.source]⟩)
    · exact Or.inr (Or.inr ⟨hsame, hseg, by
        rw [Table.seg, hseg, h.heap _ hsame (Nat.ne_of_lt hfresh), Table.seg]⟩)

theorem HalvedAt.finer (h : HalvedAt p t t' sid e st) (hinv : t.Inv p)
    (hsid : sid < 2 ^ t.globalDepth) (hlt : (t.seg sid).localDepth < t.globalDepth)
    (he : e = 2 ^ (t.globalDepth - ((t.seg sid).localDepth + 1))) :
    Directory.Finer t.globalDepth t.segment t'.globalDepth t'.segment where
  le := h.globalDepth.ge
  eq_of_eq i hi j hj heq := by
    rw [h.globalDepth] at hi hj
    rw [h.globalDepth, Nat.sub_self, pow_zero, Nat.div_one, Nat.div_one]
    have hfresh : ∀ j < 2 ^ t.globalDepth, t.segment j ≠ t.nextPtr := fun j hj =>
      Nat.ne_of_lt (hinv.allocated j hj)
    rcases h.cases hinv hsid hlt he hi with ⟨-, hold, hnew, -⟩ | ⟨-, hold, hnew, -⟩ | ⟨-,
      hnew, -⟩ <;>
    rcases h.cases hinv hsid hlt he hj with ⟨-, hold', hnew', -⟩ | ⟨-, hold', hnew', -⟩ |
      ⟨-, hnew', -⟩ <;>
    rw [hnew, hnew'] at heq
    · rw [hold, hold']
    · exact absurd heq.symm (hfresh sid hsid)
    · exact absurd heq.symm (hfresh j hj)
    · exact absurd heq (hfresh sid hsid)
    · rw [hold, hold']
    · rw [hold, heq]
    · exact absurd heq (hfresh i hi)
    · rw [hold', heq]
    · exact heq

variable [Inhabited K] [Inhabited V]

omit [Inhabited K] [Inhabited V] in
theorem HalvedAt.aligned (h : HalvedAt p t t' sid e st) (hinv : t.Inv p)
    (hsid : sid < 2 ^ t.globalDepth) (hlt : (t.seg sid).localDepth < t.globalDepth)
    (he : e = 2 ^ (t.globalDepth - ((t.seg sid).localDepth + 1)))
    (hst : Segment.Halves p (t.seg sid) st) :
    Directory.Aligned t.globalDepth t'.segment t'.depthOf := by
  have hfresh : ∀ j < 2 ^ t.globalDepth, t.segment j ≠ t.nextPtr := fun j hj =>
    Nat.ne_of_lt (hinv.allocated j hj)
  refine hinv.aligned.split hsid hlt hfresh he (fun j _ => h.segment j) ?_ ?_ ?_
  · show (t'.heap (t.segment sid)).localDepth = _
    rw [h.source, hst.source_depth]
    rfl
  · show (t'.heap t.nextPtr).localDepth = _
    rw [h.dest, hst.dest_depth]
    rfl
  · intro ptr hsrc hnew
    show (t'.heap ptr).localDepth = _
    rw [h.heap ptr hsrc hnew]
    rfl

omit [Inhabited K] [Inhabited V] in
theorem HalvedAt.hashPrefix (h : HalvedAt p t t' sid e st) (hinv : t.Inv p)
    (hg : t.globalDepth ≤ 31) (hsid : sid < 2 ^ t.globalDepth)
    (hlt : (t.seg sid).localDepth < t.globalDepth)
    (he : e = 2 ^ (t.globalDepth - ((t.seg sid).localDepth + 1)))
    (hst : Segment.Halves p (t.seg sid) st) {i : Nat} (hi : i < 2 ^ t.globalDepth) {x : K × V}
    (hx : x ∈ (t'.seg i).contents p) :
    hashTop (t'.seg i).localDepth (p.hashFn x.1) =
      i / 2 ^ (t.globalDepth - (t'.seg i).localDepth) := by
  -- a pair of either half was in the source, under the shorter prefix
  have hlonger : x ∈ (t.seg sid).contents p →
      hashTop ((t.seg sid).localDepth + 1) (p.hashFn x.1) / 2 = sid / (2 * e) := by
    intro hmem
    have hold := hinv.hashPrefix sid hsid x hmem
    have hchunk : 2 ^ (t.globalDepth - (t.seg sid).localDepth) = 2 * e :=
      he ▸ Directory.pow_sub_eq_two_mul hlt
    have hdiv := hashTop_div (Nat.le_succ (t.seg sid).localDepth) (by omega) (p.hashFn x.1)
    rw [Nat.succ_sub (Nat.le_refl _), Nat.sub_self, pow_one] at hdiv
    rw [← hchunk, ← hold]
    exact hdiv
  rcases h.cases hinv hsid hlt he hi with ⟨hidx, -, -, hs⟩ | ⟨hidx, -, -, hs⟩ | ⟨-, -, hs⟩
  · rw [hs] at hx ⊢
    obtain ⟨hmem, hmine⟩ := hst.dest_mem x hx
    have hhalf := hlonger hmem
    have hodd : ¬ hashTop ((t.seg sid).localDepth + 1) (p.hashFn x.1) % 2 = 0 := by
      rw [← isMine_iff, hmine]
      exact Bool.false_ne_true
    rw [hst.dest_depth, ← he, hidx]
    omega
  · rw [hs] at hx ⊢
    obtain ⟨hmem, hmine⟩ := hst.source_mem x hx
    have hhalf := hlonger hmem
    rw [isMine_iff] at hmine
    rw [hst.source_depth, ← he, hidx]
    omega
  · rw [hs] at hx ⊢
    exact hinv.hashPrefix i hi x hx

variable [p.Movable]

theorem HalvedAt.inv (h : HalvedAt p t t' sid e st) (hinv : t.Inv p) (hg : t.globalDepth ≤ 31)
    (hsid : sid < 2 ^ t.globalDepth) (hlt : (t.seg sid).localDepth < t.globalDepth)
    (he : e = 2 ^ (t.globalDepth - ((t.seg sid).localDepth + 1))) {id : Nat}
    (hst : st = Segment.split p (t.seg sid) (.new ((t.seg sid).localDepth + 1) id)) :
    t'.Inv p := by
  have hhalves : Segment.Halves p (t.seg sid) st :=
    hst ▸ Segment.halves_split p (hinv.segInv sid hsid) _ id
  have hcases := fun i hi => h.cases hinv hsid hlt he (i := i) hi
  have hfresh : ∀ j < 2 ^ t.globalDepth, t.segment j ≠ t.nextPtr := fun j hj =>
    Nat.ne_of_lt (hinv.allocated j hj)
  have hcard : (Directory.items t.globalDepth t'.segment).card =
      (Directory.items t.globalDepth t.segment).card + 1 := by
    rw [Directory.items_split hinv.aligned hsid hlt he fun j _ => h.segment j,
      Directory.card_items_insert hfresh]
  refine ⟨?_, ?_, ?_, ?_, ?_, ?_, ?_, ?_, ?_⟩
  · rw [h.segmentSize, h.globalDepth]
    exact hinv.segmentSize
  · rw [h.initialDepth, h.globalDepth]
    exact hinv.initial_le
  · rw [h.globalDepth]
    exact h.aligned hinv hsid hlt he hhalves
  · intro i hi
    rw [h.globalDepth] at hi
    have hge := hinv.localDepth_ge sid hsid
    rw [h.initialDepth]
    rcases hcases i hi with ⟨-, -, -, hs⟩ | ⟨-, -, -, hs⟩ | ⟨-, -, hs⟩
    · rw [hs, hhalves.dest_depth]
      omega
    · rw [hs, hhalves.source_depth]
      omega
    · rw [hs]
      exact hinv.localDepth_ge i hi
  · intro i hi
    rw [h.globalDepth] at hi
    have hold := hinv.allocated i hi
    rw [h.segment, h.nextPtr]
    split
    · exact Nat.lt_succ_self _
    · exact Nat.lt_succ_of_lt hold
  · intro i hi
    rw [h.globalDepth] at hi
    rcases hcases i hi with ⟨-, -, -, hs⟩ | ⟨-, -, -, hs⟩ | ⟨-, -, hs⟩
    · rw [hs]
      exact hhalves.dest_inv
    · rw [hs]
      exact hhalves.source_inv
    · rw [hs]
      exact hinv.segInv i hi
  · intro i hi x hx
    rw [h.globalDepth] at hi ⊢
    exact h.hashPrefix hinv hg hsid hlt he hhalves hi hx
  · rw [h.globalDepth, h.uniqueSegments, hcard, UInt32.toNat_add, hinv.unique]
    have hle := Directory.card_items_le t.globalDepth t'.segment
    have hpow : 2 ^ t.globalDepth < 2 ^ 32 := Nat.pow_lt_pow_right (by decide) (by omega)
    rw [show (1 : UInt32).toNat = 1 from rfl]
    exact Nat.mod_eq_of_lt (by omega)
  · rw [h.bucketCount, h.uniqueSegments, hinv.buckets, UInt32.add_mul, UInt32.one_mul]

/-- A split moves pairs between the two halves, and drops those it says. -/
theorem HalvedAt.entries (h : HalvedAt p t t' sid e st) (hinv : t.Inv p)
    (hsid : sid < 2 ^ t.globalDepth) (hlt : (t.seg sid).localDepth < t.globalDepth)
    (he : e = 2 ^ (t.globalDepth - ((t.seg sid).localDepth + 1))) {id : Nat}
    (hst : st = Segment.split p (t.seg sid) (.new ((t.seg sid).localDepth + 1) id)) :
    t'.entries p + (st.dropped : Multiset (K × V)) = t.entries p := by
  have hsource := (Segment.split_spec p (hinv.segInv sid hsid)
    (.new ((t.seg sid).localDepth + 1) id)).1.contents
  have hdest := (Segment.split_receives p (hinv.segInv sid hsid)
    (Segment.inv_new p ((t.seg sid).localDepth + 1) id)
    (Segment.contents_new p ((t.seg sid).localDepth + 1) id)).2.1
  rw [← hst] at hsource hdest
  have hfresh : t.nextPtr ∉ Directory.items t.globalDepth t.segment := by
    rw [Directory.mem_items]
    rintro ⟨j, hj, heq⟩
    exact Nat.ne_of_lt (hinv.allocated j hj) heq
  have hmem : t.segment sid ∈ Directory.items t.globalDepth t.segment :=
    Directory.mem_items.mpr ⟨sid, hsid, rfl⟩
  have hrest : ∑ ptr ∈ (Directory.items t.globalDepth t.segment).erase (t.segment sid),
      (t'.heap ptr).contents p = t.others p sid := by
    apply Finset.sum_congr rfl
    intro ptr hptr
    have hne : ptr ≠ t.nextPtr := fun heq => hfresh (heq ▸ Finset.mem_of_mem_erase hptr)
    rw [h.heap ptr (Finset.ne_of_mem_erase hptr) hne]
  rw [t.entries_eq p hsid, ← hsource, ← hdest]
  unfold Table.entries
  rw [h.globalDepth, Directory.items_split hinv.aligned hsid hlt he fun j _ => h.segment j,
    Finset.sum_insert hfresh, ← Finset.add_sum_erase _ _ hmem, hrest, h.source, h.dest]
  ac_rfl

end HalvedInv

end Table

end StorageEngine.DashTable
