/-
  StorageEngine/DashTable/TableErase.lean
  =======================================
  **Erasure and Clear.**

  Both erasures destroy the content of a slot before they release it, so the key that
  `Delete` works with is no longer there; only its hash, computed before, is used.

  `Clear` empties the distinct segments and then compacts the directory in place: the
  first `2 ^ initial_depth_` segments met on the walk move to the front.  The walk reads
  local depths that the compaction overwrites, but only those of blocks it has left.
-/
import StorageEngine.DashTable.TableInsert

namespace StorageEngine.DashTable

open StorageEngine SlotStore

variable {K V : Type}

/-! ### Destroying slots -/

namespace Segment

variable (p : Policy K V)

/-- Everything but the content of slots is unchanged. -/
structure SameMeta (s s' : Segment K V) : Prop where
  slotb : ∀ i, (s'.bucket i).slotb = (s.bucket i).slotb
  stash : ∀ i, (s'.bucket i).stash = (s.bucket i).stash
  localDepth : s'.localDepth = s.localDepth

theorem sameMeta_destroySlot (s : Segment K V) (it : Iter) : SameMeta s (s.destroySlot p it) := by
  refine ⟨fun i => ?_, fun i => ?_, rfl⟩ <;>
  · by_cases hi : i = it.index
    · simp [destroySlot, hi]
    · simp [destroySlot, hi]

theorem sameMeta_foldl (l : List Iter) (s : Segment K V) :
    SameMeta s (l.foldl (destroySlot p) s) := by
  induction l generalizing s with
  | nil => exact ⟨fun _ => rfl, fun _ => rfl, rfl⟩
  | cons it l ih =>
    have hone := sameMeta_destroySlot p s it
    have hrest := ih (s.destroySlot p it)
    exact ⟨fun i => (hrest.slotb i).trans (hone.slotb i),
      fun i => (hrest.stash i).trans (hone.stash i), hrest.localDepth.trans hone.localDepth⟩

/-- The callback of `Clear` leaves an empty segment of the same depth. -/
theorem destroyAndClear_spec {s : Segment K V} (hinv : s.Inv p) :
    (s.destroyAndClear p).Inv p ∧ (s.destroyAndClear p).contents p = 0 ∧
      (s.destroyAndClear p).localDepth = s.localDepth := by
  have hmeta := sameMeta_foldl p (s.traverseAll p) s
  refine ⟨inv_clear p (fun i => ?_) (fun i => ?_), contents_clear p _, hmeta.localDepth⟩
  · rw [hmeta.slotb]
    exact hinv.slotsWF i
  · rw [hmeta.stash]
    exact hinv.stashWF i

theorem cell_destroySlot (s : Segment K V) (it : Iter) {x : Nat × Nat} (hx : x ≠ it.at) :
    (s.destroySlot p it).cell x = s.cell x := by
  obtain ⟨i, j⟩ := x
  by_cases hi : i = it.index
  · subst hi
    have hj : j ≠ it.slot := fun h => hx (by rw [h]; rfl)
    simp [cell, destroySlot, Bucket.cell, hj]
  · simp [cell, destroySlot, hi]

theorem isSome_cell_destroySlot {s : Segment K V} {it : Iter} {e : Entry K V}
    (hbusy : s.cell it.at = some e) : ∃ e', (s.destroySlot p it).cell it.at = some e' := by
  have hmeta := sameMeta_destroySlot p s it
  have hs : (s.cell it.at).isSome = true := by rw [hbusy]; rfl
  apply Option.isSome_iff_exists.mp
  rw [cell, Bucket.cell_isSome] at hs ⊢
  rw [hmeta.slotb]
  exact hs

theorem slotsWF_destroySlot {s : Segment K V} (hwf : s.SlotsWF p) (it : Iter) :
    (s.destroySlot p it).SlotsWF p := fun i => by
  rw [(sameMeta_destroySlot p s it).slotb]
  exact hwf i

/-- Destroying and deleting a busy slot leaves the other slots alone. -/
theorem cell_destroy_delete {s : Segment K V} (hwf : s.SlotsWF p) {it : Iter} {e : Entry K V}
    (hbusy : s.cell it.at = some e) (hash : UInt64) :
    ((s.destroySlot p it).delete p it hash).cell = Function.update s.cell it.at none := by
  obtain ⟨e', he'⟩ := isSome_cell_destroySlot p hbusy
  obtain ⟨-, hcell, -⟩ := delete_effect p (slotsWF_destroySlot p hwf it) he' hash
  rw [hcell]
  funext x
  by_cases hx : x = it.at
  · rw [hx, Function.update_self, Function.update_self]
  · rw [Function.update_of_ne hx, Function.update_of_ne hx, cell_destroySlot p s it hx]

/-- Destroying a busy slot and deleting it with the hash its key had. -/
theorem destroy_delete_spec {s : Segment K V} (hinv : s.Inv p) {it : Iter} {e : Entry K V}
    (hindex : it.index < p.kTotalBuckets) (hbusy : s.cell it.at = some e) :
    let s' := (s.destroySlot p it).delete p it (p.hashFn e.key)
    s'.Inv p ∧ (e.key, e.value) ::ₘ s'.contents p = s.contents p ∧
      s'.localDepth = s.localDepth := by
  have hmeta := sameMeta_destroySlot p s it
  obtain ⟨e', he'⟩ := isSome_cell_destroySlot p hbusy
  obtain ⟨hwf', -, hstash, hdepth, -⟩ :=
    delete_effect p (slotsWF_destroySlot p hinv.slotsWF it) he' (p.hashFn e.key)
  have hcell' := cell_destroy_delete p hinv.slotsWF hbusy (p.hashFn e.key)
  have hstash' : ∀ i, (((s.destroySlot p it).delete p it (p.hashFn e.key)).bucket i).stash =
      s.stashAfterDelete p it (p.hashFn e.key) i := by
    intro i
    rw [hstash]
    unfold stashAfterDelete
    split
    · exact unsetStashPtr_congr p hmeta.stash _ _ _ i
    · exact hmeta.stash i
  obtain ⟨hinv', hcontents⟩ := hinv.deleted p hindex hbusy hcell' hwf' hstash'
  exact ⟨hinv', hcontents, hdepth.trans hmeta.localDepth⟩

end Segment

namespace Table

variable (p : Policy K V)

/-! ### Erase -/

/-- Erasing the slot at an index. -/
theorem erased_spec {t : Table K V} (hinv : t.Inv p) {sid : Nat} (hsid : sid < 2 ^ t.globalDepth)
    {it : Iter} {e : Entry K V} (hindex : it.index < p.kTotalBuckets)
    (hbusy : (t.seg sid).cell it.at = some e) :
    let t' := t.setSeg sid (((t.seg sid).destroySlot p it).delete p it (p.hashFn e.key))
    t'.Inv p ∧ (e.key, e.value) ::ₘ t'.entries p = t.entries p := by
  obtain ⟨hinv', hcontents, hdepth⟩ :=
    Segment.destroy_delete_spec p (hinv.segInv sid hsid) hindex hbusy
  refine ⟨hinv.setSeg p hsid hinv' hdepth ?_, ?_⟩
  · intro x hx
    rw [hdepth]
    refine hinv.hashPrefix sid hsid x ?_
    rw [← hcontents]
    exact Multiset.mem_cons_of_mem hx
  · rw [entries_eq p (t.setSeg sid _) (i := sid) hsid, seg_setSeg_self, others_setSeg,
      entries_eq p t hsid, ← hcontents, Multiset.cons_add]

/-! ### Clear: emptying the segments -/

/-- What emptying segments keeps. -/
structure Emptied (t t' : Table K V) : Prop where
  inv : t'.Inv p
  segment : t'.segment = t.segment
  segmentSize : t'.segmentSize = t.segmentSize
  globalDepth : t'.globalDepth = t.globalDepth
  initialDepth : t'.initialDepth = t.initialDepth
  nextPtr : t'.nextPtr = t.nextPtr

theorem emptied_foldl (l : List Nat) {t : Table K V} (hinv : t.Inv p)
    (hl : ∀ i ∈ l, i < 2 ^ t.globalDepth) :
    Emptied p t (l.foldl (clearSegmentAt p) t) ∧
      (∀ i, (t.seg i).contents p = 0 → ((l.foldl (clearSegmentAt p) t).seg i).contents p = 0) ∧
      ∀ i ∈ l, ((l.foldl (clearSegmentAt p) t).seg i).contents p = 0 := by
  induction l generalizing t with
  | nil => exact ⟨⟨hinv, rfl, rfl, rfl, rfl, rfl⟩, fun _ h => h, by simp⟩
  | cons i l ih =>
    have hi := hl i List.mem_cons_self
    obtain ⟨hsinv, hzero, hdepth⟩ := Segment.destroyAndClear_spec p (hinv.segInv i hi)
    have hone : (clearSegmentAt p t i).Inv p :=
      hinv.setSeg p hi hsinv hdepth fun x hx => by
        rw [hzero] at hx
        simp at hx
    obtain ⟨hrest, hkeep, hmem⟩ := ih hone fun j hj => hl j (List.mem_cons_of_mem i hj)
    have hkeep' : ∀ j, (t.seg j).contents p = 0 →
        ((clearSegmentAt p t i).seg j).contents p = 0 := by
      intro j hj
      unfold clearSegmentAt
      rw [seg_setSeg]
      split
      · exact hzero
      · exact hj
    refine ⟨⟨hrest.inv, hrest.segment, hrest.segmentSize, hrest.globalDepth, hrest.initialDepth,
      hrest.nextPtr⟩, fun j hj => hkeep j (hkeep' j hj), ?_⟩
    intro j hj
    rcases List.mem_cons.mp hj with rfl | hj
    · refine hkeep j ?_
      unfold clearSegmentAt
      rw [seg_setSeg_self]
      exact hzero
    · exact hmem j hj

/-- The first half of `Clear` empties every segment. -/
theorem emptied_all {t : Table K V} (hinv : t.Inv p) :
    Emptied p t (t.iterateDistinct.foldl (clearSegmentAt p) t) ∧
      ∀ i < 2 ^ t.globalDepth,
        ((t.iterateDistinct.foldl (clearSegmentAt p) t).seg i).contents p = 0 := by
  have hwalk := hinv.aligned.walk_visits (Directory.isStart_zero _ _)
  have hvisits : t.iterateDistinct =
      Directory.visits (2 ^ t.globalDepth) t.globalDepth t.segment t.depthOf 0 := by
    rw [← hinv.segmentSize]
    rfl
  rw [← hvisits] at hwalk
  obtain ⟨hemptied, -, hmem⟩ := emptied_foldl p t.iterateDistinct hinv fun i hi =>
    (hwalk.bounds i hi).2
  refine ⟨hemptied, fun i hi => ?_⟩
  obtain ⟨j, hj, heq⟩ := List.mem_map.mp (hwalk.covers i (Nat.zero_le i) hi)
  have := hmem j hj
  rw [seg, hemptied.segment] at this ⊢
  rw [← heq]
  exact this

/-! ### Clear: compacting the directory -/

/-- The compaction loop from `src` on, for the directory `dir` it started with: the
    segments met on the walk move to `dest`, `dest + 1`, … while there is room. -/
structure Compacted (newSize : Nat) (t t' : Table K V) (dest : Nat) (met : List Ptr) : Prop where
  below : ∀ j < dest, t'.segment j = t.segment j
  moved : ∀ k, dest + k < newSize → ∀ ptr, met[k]? = some ptr →
    t'.segment (dest + k) = ptr ∧ (t'.heap ptr).localDepth = t.initialDepth
  heap : ∀ ptr, (t'.heap ptr).bucket = (t.heap ptr).bucket
  kept : ∀ ptr, (t.heap ptr).localDepth = t.initialDepth →
    (t'.heap ptr).localDepth = t.initialDepth
  bucketCount : t'.bucketCount =
    t.bucketCount + UInt32.ofNat (min (newSize - dest) met.length) * numBuckets p
  initialDepth : t'.initialDepth = t.initialDepth
  size : t'.size = t.size
  nextPtr : t'.nextPtr = t.nextPtr

theorem segment_keepSegment (t : Table K V) (dest : Nat) (ptr : Ptr) (j : Nat) :
    (t.keepSegment p dest ptr).segment j = if j = dest then ptr else t.segment j := by
  simp [keepSegment, Function.update_apply]

theorem heap_keepSegment (t : Table K V) (dest : Nat) (ptr q : Ptr) :
    (t.keepSegment p dest ptr).heap q =
      if q = ptr then { t.heap ptr with localDepth := t.initialDepth } else t.heap q := by
  simp [keepSegment, Function.update_apply]

/-- A segment kept, and what is made of the directory from there. -/
theorem Compacted.keep {newSize : Nat} {t t' : Table K V} {dest : Nat} {ptr : Ptr} {met : List Ptr}
    (hroom : dest < newSize)
    (h : Compacted p newSize (t.keepSegment p dest ptr) t' (dest + 1) met) :
    Compacted p newSize t t' dest (ptr :: met) := by
  refine ⟨?_, ?_, ?_, ?_, ?_, h.initialDepth, h.size, h.nextPtr⟩
  · intro j hj
    rw [h.below j (by omega), segment_keepSegment, if_neg (by omega)]
  · intro k hk q hmet
    cases k with
    | zero =>
      rw [List.getElem?_cons_zero, Option.some_inj] at hmet
      subst hmet
      refine ⟨(h.below dest (Nat.lt_succ_self _)).trans ?_, h.kept _ ?_⟩
      · rw [segment_keepSegment, if_pos rfl]
      · rw [heap_keepSegment, if_pos rfl]
        rfl
    | succ k =>
      rw [List.getElem?_cons_succ] at hmet
      have := h.moved k (by omega) q hmet
      rwa [Nat.add_assoc, Nat.add_comm 1 k] at this
  · intro q
    rw [h.heap, heap_keepSegment]
    split
    · rename_i hq
      rw [hq]
    · rfl
  · intro q hq
    refine h.kept q ?_
    rw [heap_keepSegment]
    split
    · rfl
    · exact hq
  · have hcount : (t.keepSegment p dest ptr).bucketCount = t.bucketCount + numBuckets p := rfl
    have hmin : min (newSize - dest) (met.length + 1) =
        min (newSize - (dest + 1)) met.length + 1 := by omega
    rw [h.bucketCount, hcount, List.length_cons, hmin, UInt32.ofNat_add, UInt32.add_mul,
      UInt32.ofNat_one, UInt32.one_mul, UInt32.add_assoc, UInt32.add_comm (numBuckets p)]

/-- With the new directory full, a segment met is passed over. -/
theorem Compacted.skip {newSize : Nat} {t t' : Table K V} {dest : Nat} {met : List Ptr}
    (hfull : newSize ≤ dest) (h : Compacted p newSize t t' dest met) (ptr : Ptr) :
    Compacted p newSize t t' dest (ptr :: met) := by
  refine ⟨h.below, fun k hk => absurd hk (by omega), h.heap, h.kept, ?_, h.initialDepth, h.size,
    h.nextPtr⟩
  rw [h.bucketCount, Nat.sub_eq_zero_of_le hfull, Nat.zero_min, Nat.zero_min]

theorem compacted_compact (newSize : Nat) {g : Nat} {dir : Nat → Ptr} {depth : Ptr → Nat}
    (haligned : Directory.Aligned g dir depth) {t : Table K V} (hsize : t.segmentSize = 2 ^ g)
    (hgd : t.globalDepth = g) {dest src : Nat} (hstart : Directory.IsStart g dir src)
    (hle : dest ≤ src) (hseg : ∀ j, src ≤ j → j < 2 ^ g → t.segment j = dir j)
    (hdepth : ∀ j, src ≤ j → j < 2 ^ g → (t.heap (dir j)).localDepth = depth (dir j)) :
    Compacted p newSize t (compact p newSize t dest src) dest
      ((Directory.visits (2 ^ g) g dir depth src).map dir) := by
  induction hn : 2 ^ g - src using Nat.strong_induction_on generalizing t dest src with
  | _ n ih =>
    unfold compact
    by_cases hsrc : src < 2 ^ g
    · have hnext : t.nextSeg src = src + 2 ^ (g - depth (dir src)) := by
        rw [nextSeg, seg, hseg src (Nat.le_refl _) hsrc, hdepth src (Nat.le_refl _) hsrc, hgd]
      have hpos : 0 < 2 ^ (g - depth (dir src)) := Nat.pow_pos (by decide)
      have hstart' := haligned.isStart_next hsrc hstart
      have hptr := hseg src (Nat.le_refl _) hsrc
      rw [if_pos (by rw [hsize]; exact hsrc), Directory.visits_of_lt hsrc, List.map_cons]
      dsimp only
      by_cases hroom : dest < newSize
      · rw [if_pos hroom, hnext, hptr]
        -- the segment met moves to `dest`; later entries and depths are not affected
        refine Compacted.keep p hroom (ih _ (by omega) (t := t.keepSegment p dest (dir src)) hsize
          hgd hstart' (by omega) (fun j hj hjlt => ?_) (fun j hj hjlt => ?_) rfl)
        · rw [segment_keepSegment, if_neg (by omega)]
          exact hseg j (by omega) hjlt
        · rw [heap_keepSegment, if_neg (haligned.dir_ne_of_next_le hsrc hj hjlt)]
          exact hdepth j (by omega) hjlt
      · rw [if_neg hroom, hnext]
        exact Compacted.skip p (Nat.le_of_not_lt hroom)
          (ih _ (by omega) hsize hgd hstart' (by omega)
          (fun j hj => hseg j (by omega)) (fun j hj => hdepth j (by omega)) rfl) (dir src)
    · rw [if_neg (by rw [hsize]; exact hsrc), Directory.visits_of_ge (by omega)]
      exact ⟨fun _ _ => rfl, by simp, fun _ => rfl, fun _ h => h, by simp, rfl, rfl, rfl⟩

/-- What `Clear` leaves: an empty table of the initial depth, with as many segments as
    directory entries. -/
structure Cleared (t t' : Table K V) : Prop where
  inv : t'.Inv p
  entries : t'.entries p = 0
  size : t'.size = 0
  globalDepth : t'.globalDepth = t.initialDepth
  initialDepth : t'.initialDepth = t.initialDepth
  items : (Directory.items t'.globalDepth t'.segment).card = 2 ^ t.initialDepth

/-- The compaction of an emptied table that had grown. -/
theorem cleared_compact {t : Table K V} (hinv : t.Inv p) (hinit : t.initialDepth ≤ 30)
    (hempty : ∀ i < 2 ^ t.globalDepth, (t.seg i).contents p = 0) (hsize : t.size = 0) :
    Cleared p t
      { compact p (1 <<< t.initialDepth) { t with bucketCount := 0 } 0 0 with
        globalDepth :=
          (compact p (1 <<< t.initialDepth) { t with bucketCount := 0 } 0 0).initialDepth
        uniqueSegments := UInt32.ofNat (1 <<< t.initialDepth)
        segmentSize := 1 <<< t.initialDepth } := by
  rw [Nat.one_shiftLeft]
  set met := (Directory.visits (2 ^ t.globalDepth) t.globalDepth t.segment t.depthOf 0).map
    t.segment with hmet
  have hwalk := hinv.aligned.walk_visits (Directory.isStart_zero _ _)
  have hcomp : Compacted p (2 ^ t.initialDepth) { t with bucketCount := 0 }
      (compact p (2 ^ t.initialDepth) { t with bucketCount := 0 } 0 0) 0 met :=
    compacted_compact p (2 ^ t.initialDepth) hinv.aligned (t := { t with bucketCount := 0 })
      hinv.segmentSize rfl (Directory.isStart_zero _ _) (Nat.le_refl 0) (fun _ _ _ => rfl)
      fun _ _ _ => rfl
  generalize compact p (2 ^ t.initialDepth) { t with bucketCount := 0 } 0 0 = t' at hcomp
  rw [show t'.initialDepth = t.initialDepth from hcomp.initialDepth]
  have hlength : 2 ^ t.initialDepth ≤ met.length := by
    rw [hmet, List.length_map, hinv.aligned.length_visits]
    exact Directory.pow_le_card_items hinv.aligned hinv.initial_le hinv.localDepth_ge
  -- entry `k` of the new directory is the `k`-th segment met
  have hentry : ∀ k < 2 ^ t.initialDepth, ∃ ptr, met[k]? = some ptr ∧ t'.segment k = ptr ∧
      (t'.heap ptr).localDepth = t.initialDepth := by
    intro k hk
    have hget : met[k]? = some met[k] := List.getElem?_eq_getElem (by omega)
    have := hcomp.moved k (by omega) _ hget
    rw [Nat.zero_add] at this
    exact ⟨_, hget, this⟩
  have hold : ∀ k < 2 ^ t.initialDepth, ∃ i < 2 ^ t.globalDepth, t'.segment k = t.segment i := by
    intro k hk
    obtain ⟨ptr, hget, hseg, -⟩ := hentry k hk
    obtain ⟨i, hi, rfl⟩ := List.mem_map.mp (List.mem_of_getElem? hget)
    exact ⟨i, (hwalk.bounds i hi).2, hseg⟩
  have hfresh : Table.Fresh p
      { t' with
        globalDepth := t.initialDepth
        uniqueSegments := UInt32.ofNat (2 ^ t.initialDepth)
        segmentSize := 2 ^ t.initialDepth } := by
    refine ⟨rfl, hcomp.initialDepth, hinit, ?_, ?_, ?_, ?_, ?_, rfl, ?_⟩
    · intro i hi j hj heq
      obtain ⟨ptr, hget, hseg, -⟩ := hentry i hi
      obtain ⟨ptr', hget', hseg', -⟩ := hentry j hj
      have hsame : ptr = ptr' := hseg.symm.trans (heq.trans hseg')
      subst hsame
      exact (List.getElem?_inj (Nat.lt_of_lt_of_le hi hlength) hwalk.nodup).mp
        (hget.trans hget'.symm)
    · intro k hk
      obtain ⟨ptr, -, hseg, hd⟩ := hentry k hk
      show (t'.heap (t'.segment k)).localDepth = t.initialDepth
      rw [hseg]
      exact hd
    · intro k hk
      obtain ⟨i, hi, hseg⟩ := hold k hk
      show t'.segment k < t'.nextPtr
      rw [hseg, hcomp.nextPtr]
      exact hinv.allocated i hi
    · intro k hk
      obtain ⟨i, hi, hseg⟩ := hold k hk
      show (t'.heap (t'.segment k)).Inv p
      rw [hseg]
      exact (hinv.segInv i hi).of_bucket p (hcomp.heap _)
    · intro k hk
      obtain ⟨i, hi, hseg⟩ := hold k hk
      show (t'.heap (t'.segment k)).contents p = 0
      rw [hseg, Segment.contents_of_bucket p (hcomp.heap _)]
      exact hempty i hi
    · show t'.bucketCount = UInt32.ofNat (2 ^ t.initialDepth) * numBuckets p
      rw [hcomp.bucketCount, UInt32.zero_add, Nat.sub_zero, Nat.min_eq_left hlength]
  exact ⟨hfresh.inv, entries_eq_zero p hfresh.empty, hcomp.size.trans hsize, rfl,
    hcomp.initialDepth, Directory.card_items_of_injective hfresh.injective⟩

/-- **`Clear`.** -/
theorem cleared_clear {t : Table K V} (hinv : t.Inv p) (hinit : t.initialDepth ≤ 30) :
    Cleared p t (t.clear p) := by
  obtain ⟨hemptied, hempty⟩ := emptied_all p hinv
  unfold clear
  generalize t.iterateDistinct.foldl (clearSegmentAt p) t = t₁ at hemptied hempty
  rw [← hemptied.globalDepth] at hempty
  have hinit₁ := hemptied.initialDepth
  have hinv₁ := hemptied.inv.withSize 0
  dsimp only
  split
  · have hc := cleared_compact p hinv₁ (by rw [← hinit₁] at hinit; exact hinit) hempty rfl
    exact ⟨hc.inv, hc.entries, hc.size, hc.globalDepth.trans hinit₁, hc.initialDepth.trans hinit₁,
      hinit₁ ▸ hc.items⟩
  · -- the table has its initial depth, so every local depth is the global one
    rename_i hlt
    have hgd : t₁.globalDepth = t₁.initialDepth :=
      Nat.le_antisymm (Nat.le_of_not_lt hlt) hinv₁.initial_le
    refine ⟨hinv₁, entries_eq_zero p hempty, rfl, hgd.trans hinit₁, hinit₁, ?_⟩
    have hle := Directory.card_items_le t₁.globalDepth t₁.segment
    have hge := Directory.pow_le_card_items hinv₁.aligned hinv₁.initial_le hinv₁.localDepth_ge
    show (Directory.items t₁.globalDepth t₁.segment).card = _
    rw [← hinit₁]
    exact Nat.le_antisymm (by rw [← hgd]; exact hle) hge

end Table

end StorageEngine.DashTable
