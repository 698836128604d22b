/-
  StorageEngine/DashTable/SegmentIds.lean
  =======================================
  **The ids of the segments** (`segment_id()`, `set_segment_id`).

  A segment keeps the first directory index of its block.  The constructor, `Split` and
  `IncreaseDepth` write it; insertions and erasures leave it alone.  `Clear` moves the
  first segments of a grown table to the front of the directory without writing their
  ids, which are right afterwards exactly when no segment had to move
  (`idsFirst_clear_iff`).
-/
import StorageEngine.DashTable.TableRuns

namespace StorageEngine.DashTable

open StorageEngine SlotStore

variable {K V : Type}

namespace Segment

variable (p : Policy K V)

theorem segmentId_foldl_destroySlot (l : List Iter) (s : Segment K V) :
    (l.foldl (destroySlot p) s).segmentId = s.segmentId := by
  induction l generalizing s with
  | nil => rfl
  | cons it l ih => exact ih (s.destroySlot p it)

theorem segmentId_delete (s : Segment K V) (it : Iter) (hash : UInt64) :
    (s.delete p it hash).segmentId = s.segmentId := by
  unfold delete
  dsimp only
  split
  · exact (frame_unsetStashPtr p s _ _ _).2
  · rfl

end Segment

namespace Table

variable (p : Policy K V)

/-- Every segment has the least of the directory indices that point to it for an id. -/
def IdsFirst (t : Table K V) : Prop :=
  ∀ i < t.segmentSize,
    IsLeast {j | j < t.segmentSize ∧ t.segment j = t.segment i} (t.seg i).segmentId

variable {p} {t t' : Table K V}

theorem Inv.idsFirst_iff (h : t.Inv p) :
    t.IdsFirst ↔ ∀ i < 2 ^ t.globalDepth,
      (t.seg i).segmentId = Directory.blockStart t.globalDepth t.segment t.depthOf i := by
  unfold IdsFirst
  rw [h.segmentSize]
  refine forall₂_congr fun i hi => ⟨fun hleast => ?_, fun heq => ?_⟩
  · exact hleast.unique (h.aligned.isLeast_blockStart hi)
  · rw [heq]
    exact h.aligned.isLeast_blockStart hi

/-- An id leads back to its segment. -/
theorem IdsFirst.segment_segmentId (h : t.IdsFirst) {i : Nat} (hi : i < t.segmentSize) :
    (t.seg i).segmentId < t.segmentSize ∧ t.segment (t.seg i).segmentId = t.segment i :=
  (h i hi).1

/-- Writing a segment with its own id. -/
theorem IdsFirst.setSeg (h : t.IdsFirst) {sid : Nat} {s : Segment K V}
    (hid : s.segmentId = (t.seg sid).segmentId) : (t.setSeg sid s).IdsFirst := by
  intro i hi
  have hold := h i hi
  rw [seg_setSeg]
  split
  · rename_i heq
    rw [hid, seg, ← heq]
    exact hold
  · exact hold

/-! ### IncreaseDepth -/

/-- The loop of `IncreaseDepth` numbers a segment last at its lowest index. -/
theorem segmentId_foldl_replicateEntry {r : Nat} (hr : 0 < r) (n : Nat) (t : Table K V) :
    let t' := (List.range n).reverse.foldl (replicateEntry r) t
    (∀ ptr, (∀ i < n, t.segment i ≠ ptr) → (t'.heap ptr).segmentId = (t.heap ptr).segmentId) ∧
      ∀ i < n, (∀ k < i, t.segment k ≠ t.segment i) →
        (t'.heap (t.segment i)).segmentId = i * r := by
  induction n generalizing t with
  | zero => exact ⟨fun _ _ => rfl, fun i hi => absurd hi (Nat.not_lt_zero i)⟩
  | succ n ih =>
    rw [List.range_succ, List.reverse_append, List.reverse_singleton, List.singleton_append,
      List.foldl_cons]
    obtain ⟨hother, hfirst⟩ := ih (replicateEntry r t n)
    have hle : n ≤ n * r := Nat.le_mul_of_pos_right n hr
    have hseg : (replicateEntry r t n).segment =
        fun j => if n * r ≤ j ∧ j < n * r + r then t.segment n else t.segment j := rfl
    have hlow : ∀ j < n, (replicateEntry r t n).segment j = t.segment j := by
      intro j hj
      rw [hseg]
      dsimp only
      rw [if_neg (by omega)]
    have hheap : ∀ ptr, ((replicateEntry r t n).heap ptr).segmentId =
        if ptr = t.segment n then n * r else (t.heap ptr).segmentId := by
      intro ptr
      simp only [replicateEntry, setSeg, seg, Function.update_apply, ite_self]
      split <;> rfl
    constructor
    · intro ptr hptr
      rw [hother ptr fun i hi => by rw [hlow i hi]; exact hptr i (by omega), hheap,
        if_neg fun heq => hptr n (Nat.lt_succ_self n) heq.symm]
    · intro i hi hnew
      rcases Nat.lt_succ_iff_lt_or_eq.mp hi with hin | rfl
      · rw [← hlow i hin]
        refine hfirst i hin fun k hk => ?_
        rw [hlow i hin, hlow k (by omega)]
        exact hnew k hk
      · rw [hother _ fun k hk => by rw [hlow k hk]; exact hnew k hk, hheap, if_pos rfl]

/-- `IncreaseDepth` numbers all segments anew. -/
theorem idsFirst_increaseDepth (hinv : t.Inv p) :
    (t.increaseDepth (t.globalDepth + 1)).IdsFirst := by
  have hdoubled := doubled_increaseDepth hinv.segmentSize
  obtain ⟨-, hfirst⟩ := segmentId_foldl_replicateEntry
    (r := 2 ^ (t.globalDepth + 1 - t.globalDepth)) (Nat.pow_pos (by decide)) t.segmentSize
    { t with segmentSize := 2 ^ (t.globalDepth + 1) }
  rw [Nat.add_sub_cancel_left, pow_one, hinv.segmentSize] at hfirst
  rw [(hdoubled.inv hinv).idsFirst_iff]
  intro j hj
  have hdepth := (hdoubled.seg hj).2
  rw [hdoubled.globalDepth] at hj
  have hhalf : j / 2 < 2 ^ t.globalDepth := Directory.half_lt hj
  have hle : (t.seg (j / 2)).localDepth ≤ t.globalDepth := hinv.aligned.depth_le _ hhalf
  obtain ⟨hself, hlt, hleast⟩ := hinv.aligned.blockStart_self hhalf
  have hid : ((t.increaseDepth (t.globalDepth + 1)).seg j).segmentId =
      Directory.blockStart t.globalDepth t.segment t.depthOf (j / 2) * 2 := by
    rw [seg, hdoubled.segment j hj, ← hself]
    have hnum := hfirst _ hlt fun k hk heq => hleast k hk (heq.trans hself)
    unfold increaseDepth
    rw [Nat.add_sub_cancel_left, pow_one, hinv.segmentSize]
    exact hnum
  rw [hid]
  unfold Directory.blockStart
  have hchunk : (t.increaseDepth (t.globalDepth + 1)).globalDepth -
      (t.increaseDepth (t.globalDepth + 1)).depthOf
        ((t.increaseDepth (t.globalDepth + 1)).segment j) =
      t.globalDepth - t.depthOf (t.segment (j / 2)) + 1 := by
    show _ - ((t.increaseDepth (t.globalDepth + 1)).seg j).localDepth =
      t.globalDepth - (t.seg (j / 2)).localDepth + 1
    rw [hdepth, hdoubled.globalDepth]
    omega
  rw [hchunk, pow_succ', ← Nat.div_div_eq_div_mul]
  ring

/-! ### Split -/

/-- `Split` of the segment at `sid` numbers the new segment and leaves the others alone. -/
theorem HalvedAt.idsFirst {sid e : Nat} {st : Segment.SplitState K V} (h : HalvedAt p t t' sid e st)
    (hinv : t.Inv p) (hinv' : t'.Inv p) (hids : t.IdsFirst) (hsid : sid < 2 ^ t.globalDepth)
    (hlt : (t.seg sid).localDepth < t.globalDepth)
    (he : e = 2 ^ (t.globalDepth - ((t.seg sid).localDepth + 1)))
    (hsource : st.source.segmentId = (t.seg sid).segmentId)
    (hdest : st.dest.segmentId = sid / (2 * e) * (2 * e) + e)
    (hdepth : st.source.localDepth = (t.seg sid).localDepth + 1 ∧
      st.dest.localDepth = (t.seg sid).localDepth + 1) : t'.IdsFirst := by
  rw [hinv.idsFirst_iff] at hids
  rw [hinv'.idsFirst_iff, h.globalDepth]
  intro i hi
  show (t'.seg i).segmentId = i / 2 ^ (t.globalDepth - (t'.seg i).localDepth) *
    2 ^ (t.globalDepth - (t'.seg i).localDepth)
  rcases h.cases hinv hsid hlt he hi with ⟨hidx, -, -, hs⟩ | ⟨hidx, -, -, hs⟩ | ⟨-, -, hs⟩
  · rw [hs, hdest, hdepth.2, ← he, hidx]
    ring
  · have hold := hids sid hsid
    have hchunk : 2 ^ (t.globalDepth - t.depthOf (t.segment sid)) = 2 * e :=
      he ▸ Directory.pow_sub_eq_two_mul hlt
    rw [Directory.blockStart, hchunk] at hold
    rw [hs, hsource, hold, hdepth.1, ← he, hidx]
    ring
  · rw [hs]
    exact hids i hi

/-! ### Construction, growth and erasure -/

theorem idsFirst_prepare (hinv : t.Inv p) (hids : t.IdsFirst) (sid : Nat) (hash : UInt64) :
    (t.prepare sid hash).1.IdsFirst := by
  unfold prepare
  split
  · exact idsFirst_increaseDepth hinv
  · exact hids

/-- Doubling the directory changes nothing but the id of the segment to be split. -/
theorem seg_prepare (hinv : t.Inv p) (hash : UInt64)
    (hlt : (t.seg (t.segmentId hash)).localDepth < 31) :
    ∃ id, (t.prepare (t.segmentId hash) hash).1.seg (t.prepare (t.segmentId hash) hash).2 =
      { t.seg (t.segmentId hash) with segmentId := id } := by
  unfold prepare
  by_cases heq : (t.seg (t.segmentId hash)).localDepth = t.globalDepth
  · rw [if_pos heq]
    have hdoubled := doubled_increaseDepth hinv.segmentSize
    have hg : (t.increaseDepth (t.globalDepth + 1)).globalDepth ≤ 31 := by
      rw [hdoubled.globalDepth]
      omega
    have hptr := hdoubled.segment_segmentId hg hash
    obtain ⟨hbucket, hdepth⟩ := hdoubled.heap (t.segment (t.segmentId hash))
    rw [seg, hptr]
    unfold seg
    generalize (t.increaseDepth (t.globalDepth + 1)).heap (t.segment (t.segmentId hash)) = s at *
    obtain ⟨bucket, depth, id⟩ := s
    refine ⟨id, ?_⟩
    dsimp only at hbucket hdepth
    rw [hbucket, hdepth]
  · rw [if_neg heq]
    exact ⟨_, rfl⟩

section Construct

variable [Inhabited K] [Inhabited V]

theorem idsFirst_new {capacityLog : Nat} (hlog : capacityLog ≤ 30) :
    (new p capacityLog : Table K V).IdsFirst := by
  obtain ⟨hinv, -, -, hgd, -⟩ := inv_new (V := V) p hlog
  obtain ⟨hseg, -⟩ := foldl_constructAt p (unfilled capacityLog : Table K V) rfl (1 <<< capacityLog)
  rw [hinv.idsFirst_iff, hgd]
  intro i hi
  rw [← Nat.one_shiftLeft] at hi
  obtain ⟨hptr, hnew⟩ := hseg i hi
  have hsame : (new p capacityLog : Table K V).seg i = Segment.new capacityLog i := by
    unfold seg new
    rw [hptr, hnew]
    rfl
  have hdepth :
      (new p capacityLog : Table K V).depthOf ((new p capacityLog : Table K V).segment i) =
      capacityLog := by
    show ((new p capacityLog : Table K V).seg i).localDepth = capacityLog
    rw [hsame]
    rfl
  rw [hsame, Directory.blockStart, hdepth, Nat.sub_self, pow_zero, Nat.div_one, Nat.mul_one]
  rfl

theorem idsFirst_split [p.Movable] (hinv : t.Inv p) (hg : t.globalDepth ≤ 31) (hids : t.IdsFirst)
    {sid : Nat} (hsid : sid < 2 ^ t.globalDepth) (hlt : (t.seg sid).localDepth < t.globalDepth) :
    (t.split p sid).1.IdsFirst := by
  obtain ⟨e, he⟩ : ∃ e, e = 2 ^ (t.globalDepth - ((t.seg sid).localDepth + 1)) := ⟨_, rfl⟩
  have hs := hinv.segInv sid hsid
  obtain ⟨hhalved, -⟩ := halvedAt_split_id p hinv hg hsid hlt he
  have hsource := (Segment.split_spec p hs
    (.new ((t.seg sid).localDepth + 1) (sid / (2 * e) * (2 * e) + e))).1
  obtain ⟨-, -, hdepth, hid⟩ := Segment.split_receives p hs
    (Segment.inv_new p ((t.seg sid).localDepth + 1) (sid / (2 * e) * (2 * e) + e))
    (Segment.contents_new p _ _)
  exact hhalved.idsFirst hinv (hhalved.inv hinv hg hsid hlt he rfl) hids hsid hlt he
    hsource.segmentId hid ⟨hsource.localDepth, hdepth⟩

end Construct

/-- Erasing a slot. -/
theorem IdsFirst.erased (h : t.IdsFirst) (sid : Nat) (it : Iter) (hash : UInt64) :
    (t.setSeg sid (((t.seg sid).destroySlot p it).delete p it hash)).IdsFirst :=
  h.setSeg (Segment.segmentId_delete p _ it hash)

theorem IdsFirst.erase (h : t.IdsFirst) (key : K) : (t.erase p key).1.IdsFirst := by
  unfold Table.erase
  dsimp only
  split
  · exact h
  · exact h.erased _ _ _

theorem IdsFirst.eraseIt (h : t.IdsFirst) (it : TableIter) : (t.eraseIt p it).IdsFirst :=
  h.erased _ _ _

/-! ### Clear -/

/-- `Clear` moves no segment of the table when it puts the first ones to the front: it
    has not grown, or each of the first indices is the start of a block. -/
def ClearMovesNothing (t : Table K V) : Prop :=
  t.initialDepth < t.globalDepth →
    ∀ i < 2 ^ t.initialDepth, Directory.IsStart t.globalDepth t.segment i

instance (t : Table K V) : Decidable t.ClearMovesNothing :=
  inferInstanceAs (Decidable (_ → ∀ i < 2 ^ t.initialDepth, _))

/-- Emptying segments changes neither ids nor depths. -/
theorem meta_foldl_clearSegmentAt (l : List Nat) (t : Table K V) (ptr : Ptr) :
    ((l.foldl (clearSegmentAt p) t).heap ptr).segmentId = (t.heap ptr).segmentId ∧
      ((l.foldl (clearSegmentAt p) t).heap ptr).localDepth = (t.heap ptr).localDepth := by
  induction l generalizing t with
  | nil => exact ⟨rfl, rfl⟩
  | cons i l ih =>
    have hid : ((t.seg i).destroyAndClear p).segmentId = (t.seg i).segmentId :=
      Segment.segmentId_foldl_destroySlot p ((t.seg i).traverseAll p) (t.seg i)
    have hdepth : ((t.seg i).destroyAndClear p).localDepth = (t.seg i).localDepth :=
      (Segment.sameMeta_foldl p ((t.seg i).traverseAll p) (t.seg i)).localDepth
    have hheap : (t.clearSegmentAt p i).heap ptr =
        if ptr = t.segment i then (t.seg i).destroyAndClear p else t.heap ptr :=
      Function.update_apply _ _ _ _
    obtain ⟨hid', hdepth'⟩ := ih (t.clearSegmentAt p i)
    rw [List.foldl_cons, hid', hdepth', hheap]
    by_cases hptr : ptr = t.segment i
    · rw [if_pos hptr, hid, hdepth, hptr]
      exact ⟨rfl, rfl⟩
    · rw [if_neg hptr]
      exact ⟨rfl, rfl⟩

theorem segmentId_compact (newSize : Nat) (t : Table K V) (dest src : Nat) (ptr : Ptr) :
    ((compact p newSize t dest src).heap ptr).segmentId = (t.heap ptr).segmentId := by
  fun_induction compact p newSize t dest src with
  | case1 t dest src hsrc nextSrc hroom ih =>
    rw [ih, heap_keepSegment]
    split
    · rename_i heq
      rw [heq]
    · rfl
  | case2 t dest src hsrc nextSrc hroom ih => exact ih
  | case3 t dest src hsrc => rfl

theorem segmentId_clear (t : Table K V) (ptr : Ptr) :
    ((t.clear p).heap ptr).segmentId = (t.heap ptr).segmentId := by
  have hempty := (meta_foldl_clearSegmentAt (p := p) t.iterateDistinct t ptr).1
  unfold clear
  dsimp only
  split
  · exact (segmentId_compact _ _ _ _ ptr).trans hempty
  · exact hempty

/-- The directory after `Clear` of a grown table: the segments in the order of the walk. -/
theorem segment_clear (hinv : t.Inv p) (hgrown : t.initialDepth < t.globalDepth) {k : Nat}
    (hk : k < 2 ^ t.initialDepth) :
    ∃ i, (Directory.visits (2 ^ t.globalDepth) t.globalDepth t.segment t.depthOf 0)[k]? = some i ∧
      (t.clear p).segment k = t.segment i := by
  have hdepth := fun ptr => (meta_foldl_clearSegmentAt (p := p) t.iterateDistinct t ptr).2
  obtain ⟨hemptied, -⟩ := emptied_all p hinv
  have hlength : 2 ^ t.initialDepth ≤
      (Directory.visits (2 ^ t.globalDepth) t.globalDepth t.segment t.depthOf 0).length := by
    rw [hinv.aligned.length_visits]
    exact Directory.pow_le_card_items hinv.aligned hinv.initial_le hinv.localDepth_ge
  have hget := List.getElem?_eq_getElem (Nat.lt_of_lt_of_le hk hlength)
  refine ⟨_, hget, ?_⟩
  unfold clear
  generalize t.iterateDistinct.foldl (clearSegmentAt p) t = t₁ at hemptied hdepth
  dsimp only
  rw [if_pos (by rw [hemptied.initialDepth, hemptied.globalDepth]; exact hgrown), Nat.one_shiftLeft]
  have hcomp := compacted_compact p (2 ^ t₁.initialDepth) hinv.aligned
    (t := { t₁ with size := 0, bucketCount := 0 }) (hemptied.segmentSize.trans hinv.segmentSize)
    hemptied.globalDepth (Directory.isStart_zero _ _) (Nat.le_refl 0)
    (fun j _ _ => congrFun hemptied.segment j) fun j _ _ => hdepth _
  rw [← hemptied.initialDepth, ← Nat.zero_add k] at hk
  have hmoved := (hcomp.moved k hk _ (by rw [List.getElem?_map, hget]; rfl)).1
  rw [Nat.zero_add] at hmoved
  exact hmoved

/-- Every block of the directory that `Clear` leaves is one index long. -/
theorem blockStart_clear (hinv : t.Inv p) (hinit : t.initialDepth ≤ 30) {k : Nat}
    (hk : k < 2 ^ t.initialDepth) :
    Directory.blockStart t.initialDepth (t.clear p).segment (t.clear p).depthOf k = k := by
  have hc := cleared_clear p hinv hinit
  rw [← hc.globalDepth] at hk
  have hge := hc.inv.localDepth_ge k hk
  rw [hc.initialDepth] at hge
  unfold Directory.blockStart
  rw [Nat.sub_eq_zero_of_le (show _ ≤ (t.clear p).depthOf _ from hge), pow_zero, Nat.div_one,
    Nat.mul_one]

/-- A segment that `Clear` keeps has the id of the place where it was. -/
theorem segmentId_kept (hinv : t.Inv p) (hids : t.IdsFirst) {i k : Nat}
    (hi : i ∈ Directory.visits (2 ^ t.globalDepth) t.globalDepth t.segment t.depthOf 0)
    (hseg : (t.clear p).segment k = t.segment i) : ((t.clear p).seg k).segmentId = i := by
  have hwalk := hinv.aligned.walk_visits (Directory.isStart_zero _ _)
  have hlt := (hwalk.bounds i hi).2
  rw [seg, hseg, segmentId_clear]
  exact (hinv.idsFirst_iff.mp hids i hlt).trans
    (Nat.div_mul_cancel (hinv.aligned.dvd_of_isStart hlt (hwalk.starts i hi)))

/-- `Clear` of a table that has not grown leaves the directory as it is. -/
theorem idsFirst_clear_of_not_grown (hinv : t.Inv p) (hgrown : ¬ t.initialDepth < t.globalDepth)
    (hids : t.IdsFirst) : (t.clear p).IdsFirst := by
  obtain ⟨hemptied, -⟩ := emptied_all p hinv
  have hseg : (t.clear p).segment = t.segment ∧ (t.clear p).segmentSize = t.segmentSize := by
    unfold clear
    dsimp only
    rw [if_neg (by rw [hemptied.initialDepth, hemptied.globalDepth]; exact hgrown)]
    exact ⟨hemptied.segment, hemptied.segmentSize⟩
  intro i hi
  rw [hseg.2] at hi
  rw [seg, segmentId_clear, hseg.1, hseg.2]
  exact hids i hi

/-- **`Clear` keeps the ids right exactly when it moves nothing.** -/
theorem idsFirst_clear_iff (hinv : t.Inv p) (hinit : t.initialDepth ≤ 30) (hids : t.IdsFirst) :
    (t.clear p).IdsFirst ↔ t.ClearMovesNothing := by
  by_cases hgrown : t.initialDepth < t.globalDepth
  · have hc := cleared_clear p hinv hinit
    rw [hc.inv.idsFirst_iff, hc.globalDepth]
    constructor
    · intro hall _ k hk
      obtain ⟨i, hget, hseg⟩ := segment_clear hinv hgrown hk
      have hmem := List.mem_of_getElem? hget
      have hki : i = k := calc
        i = ((t.clear p).seg k).segmentId := (segmentId_kept hinv hids hmem hseg).symm
        _ = Directory.blockStart t.initialDepth _ _ k := hall k hk
        _ = k := blockStart_clear hinv hinit hk
      exact hki ▸ (hinv.aligned.walk_visits (Directory.isStart_zero _ _)).starts i hmem
    · intro hnothing k hk
      obtain ⟨i, hget, hseg⟩ := segment_clear hinv hgrown hk
      have hpow : 2 ^ t.initialDepth ≤ 2 ^ t.globalDepth :=
        Nat.pow_le_pow_right (by decide) (Nat.le_of_lt hgrown)
      have hkth := hinv.aligned.getElem?_visits hpow
        (fun m (_ : 0 ≤ m) hm => hnothing hgrown m hm) k (by omega)
      rw [Nat.zero_add, hget, Option.some_inj] at hkth
      calc
        ((t.clear p).seg k).segmentId = i :=
          segmentId_kept hinv hids (List.mem_of_getElem? hget) hseg
        _ = k := hkth
        _ = Directory.blockStart t.initialDepth _ _ k := (blockStart_clear hinv hinit hk).symm
  · exact iff_of_true (idsFirst_clear_of_not_grown hinv hgrown hids) fun h => absurd h hgrown

end Table

end StorageEngine.DashTable
