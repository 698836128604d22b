/-
  StorageEngine/DashTable/SegmentMemory.lean
  ==========================================
  **The memory of the segments** (`ConstructSegment`, `Clear` and `~DashTable` of
  `dash_table.hpp`).

  The table allocates a segment when it is constructed and at every split, and
  deallocates segments in two places: the compaction loop of `Clear` gives back those
  that find no room in the directory of the initial depth, and the destructor gives back
  what is left after a last `Clear`.  An address of the model is one allocation, so that
  the allocations of a run are the numbers below `nextPtr`.

  A call only writes to the segments of the directory and to those it has allocated
  itself.  After every run each allocation is either in the directory or was given back,
  once.
-/
import StorageEngine.DashTable.MoveNotices

namespace StorageEngine.DashTable

open StorageEngine StepMachine

variable {K V : Type}

namespace Table

/-- The segments that the directory points to. -/
def live (t : Table K V) : Finset Ptr := Directory.items t.globalDepth t.segment

section Source

variable (p : Policy K V)

/-- What the compaction loop destroys and deallocates. -/
def compactFrees (newSize : Nat) (t : Table K V) (dest src : Nat) : List Ptr :=
  if src < t.segmentSize then
    let nextSrc := t.nextSeg src
    if dest < newSize then compactFrees newSize (t.keepSegment p dest (t.segment src))
      (dest + 1) nextSrc
    else t.segment src :: compactFrees newSize t dest nextSrc
  else []
termination_by t.segmentSize - src
decreasing_by
  all_goals
    have : 0 < 2 ^ (t.globalDepth - (t.seg src).localDepth) := Nat.pow_pos (by decide)
    simp only [nextSeg, keepSegment] at *
    omega

/-- What `Clear` destroys and deallocates. -/
def clearFrees (t : Table K V) : List Ptr :=
  let t := t.iterateDistinct.foldl (clearSegmentAt p) t
  let t := { t with size := 0 }
  if t.initialDepth < t.globalDepth then
    compactFrees p (1 <<< t.initialDepth) { t with bucketCount := 0 } 0 0
  else []

/-- What `~DashTable` destroys and deallocates. -/
def destructorFrees (t : Table K V) : List Ptr :=
  t.clearFrees p ++ (t.clear p).iterateDistinct.map (t.clear p).segment

end Source

/-! ### What a call may write to -/

/-- The allocations of `t` that its directory does not point to are as they were. -/
structure Frame (t t' : Table K V) : Prop where
  nextPtr : t.nextPtr ≤ t'.nextPtr
  live : ∀ ptr ∈ t'.live, ptr ∈ t.live ∨ t.nextPtr ≤ ptr
  heap : ∀ ptr < t.nextPtr, ptr ∉ t.live → t'.heap ptr = t.heap ptr

variable {t t' t'' : Table K V}

theorem mem_live {ptr : Ptr} : ptr ∈ t.live ↔ ∃ i < 2 ^ t.globalDepth, t.segment i = ptr :=
  Directory.mem_items

theorem Frame.refl (t : Table K V) : Frame t t :=
  ⟨Nat.le_refl _, fun _ h => Or.inl h, fun _ _ _ => rfl⟩

theorem Frame.trans (h : Frame t t') (h' : Frame t' t'') : Frame t t'' := by
  refine ⟨Nat.le_trans h.nextPtr h'.nextPtr, ?_, ?_⟩
  · intro ptr hptr
    rcases h'.live ptr hptr with hlive | hnew
    · exact h.live ptr hlive
    · exact Or.inr (Nat.le_trans h.nextPtr hnew)
  · intro ptr hlt hnot
    have hnot' : ptr ∉ t'.live := by
      intro hlive
      rcases h.live ptr hlive with hold | hnew
      · exact hnot hold
      · exact absurd hlt (Nat.not_lt.mpr hnew)
    rw [h'.heap ptr (Nat.lt_of_lt_of_le hlt h.nextPtr) hnot', h.heap ptr hlt hnot]

/-- A call that gives nothing back: what it has allocated joins the directory. -/
structure Extends (t t' : Table K V) : Prop extends Frame t t' where
  all : t'.live = t.live ∪ Finset.Ico t.nextPtr t'.nextPtr

theorem Extends.refl (t : Table K V) : Extends t t := ⟨.refl t, by simp⟩

theorem Extends.trans (h : Extends t t') (h' : Extends t' t'') : Extends t t'' := by
  refine ⟨h.toFrame.trans h'.toFrame, ?_⟩
  rw [h'.all, h.all, Finset.union_assoc, Finset.Ico_union_Ico_eq_Ico h.nextPtr h'.nextPtr]

/-- The directory and the allocations are the same. -/
theorem Extends.of_heap (hlive : t'.live = t.live) (hnext : t'.nextPtr = t.nextPtr)
    (hheap : ∀ ptr, ptr ∉ t.live → t'.heap ptr = t.heap ptr) : Extends t t' := by
  refine ⟨⟨hnext.ge, ?_, fun ptr _ => hheap ptr⟩, ?_⟩
  · rw [hlive]
    exact fun ptr h => Or.inl h
  · rw [hlive, hnext, Finset.Ico_self, Finset.union_empty]

/-- A write through the directory. -/
theorem Extends.setSeg (t : Table K V) {sid : Nat} (hsid : sid < 2 ^ t.globalDepth)
    (s : Segment K V) :
    Extends t (t.setSeg sid s) := by
  refine .of_heap rfl rfl ?_
  intro ptr hnot
  apply Function.update_of_ne
  rintro rfl
  exact hnot (mem_live.mpr ⟨sid, hsid, rfl⟩)

theorem Extends.withSize (h : Extends t t') (n : Nat) : Extends t { t' with size := n } :=
  ⟨⟨h.nextPtr, h.live, h.heap⟩, h.all⟩

/-! ### Growth -/

/-- The loop of `IncreaseDepth` writes through the entries it has not overwritten. -/
theorem heap_foldl_replicateEntry {r : Nat} (hr : 0 < r) (n : Nat) (t : Table K V) {ptr : Ptr}
    (hptr : ∀ i < n, t.segment i ≠ ptr) :
    ((List.range n).reverse.foldl (replicateEntry r) t).heap ptr = t.heap ptr := by
  induction n generalizing t with
  | zero => rfl
  | succ n ih =>
    rw [List.range_succ, List.reverse_append, List.reverse_singleton, List.singleton_append,
      List.foldl_cons]
    have hle : n ≤ n * r := Nat.le_mul_of_pos_right n hr
    have hentry : ∀ i, i ≤ n → (replicateEntry r t n).segment i = t.segment i := by
      intro i hi
      have hone : (replicateEntry r t n).segment i =
          if n * r ≤ i ∧ i < n * r + r then t.segment n else t.segment i := rfl
      rw [hone]
      split
      · rename_i hin
        rw [Nat.le_antisymm hi (Nat.le_trans hle hin.1)]
      · rfl
    rw [ih]
    · have hat := hentry n (Nat.le_refl n)
      exact Function.update_of_ne
        (fun heq => hptr n (Nat.lt_succ_self n) (hat.symm.trans heq.symm)) _ _
    · intro i hi
      rw [hentry i (Nat.le_of_lt hi)]
      exact hptr i (Nat.lt_succ_of_lt hi)

theorem extends_increaseDepth (hsize : t.segmentSize = 2 ^ t.globalDepth) :
    Extends t (t.increaseDepth (t.globalDepth + 1)) := by
  have hdoubled := doubled_increaseDepth hsize
  refine .of_heap hdoubled.items hdoubled.nextPtr ?_
  intro ptr hnot
  refine heap_foldl_replicateEntry (Nat.pow_pos (by decide)) t.segmentSize
    { t with segmentSize := 2 ^ (t.globalDepth + 1) } ?_
  intro i hi heq
  rw [hsize] at hi
  exact hnot (mem_live.mpr ⟨i, hi, heq⟩)

variable {p : Policy K V}

section Growth

variable [Inhabited K] [Inhabited V]

theorem extends_split (hinv : t.Inv p) (hg : t.globalDepth ≤ 31) {sid : Nat}
    (hsid : sid < 2 ^ t.globalDepth) (hlt : (t.seg sid).localDepth < t.globalDepth) :
    Extends t (t.split p sid).1 := by
  obtain ⟨id, hhalved, -⟩ := halvedAt_split p hinv hg hsid hlt
  have hall : (t.split p sid).1.live = insert t.nextPtr t.live := by
    unfold live
    rw [hhalved.globalDepth]
    exact Directory.items_split hinv.aligned hsid hlt rfl fun j _ => hhalved.segment j
  refine ⟨⟨hhalved.nextPtr ▸ Nat.le_succ _, ?_, ?_⟩, ?_⟩
  · intro ptr hptr
    rw [hall] at hptr
    rcases Finset.mem_insert.mp hptr with rfl | hold
    · exact Or.inr (Nat.le_refl _)
    · exact Or.inl hold
  · intro ptr hlt hnot
    refine hhalved.heap ptr ?_ (Nat.ne_of_lt hlt)
    rintro rfl
    exact hnot (mem_live.mpr ⟨sid, hsid, rfl⟩)
  · rw [hall, hhalved.nextPtr, Nat.Ico_succ_singleton, Finset.union_comm]
    rfl

theorem extends_grow (hinv : t.Inv p) (hash : UInt64)
    (hg : (t.grow p (t.segmentId hash) hash).1.1.globalDepth ≤ 31) :
    Extends t (t.grow p (t.segmentId hash) hash).1.1 := by
  obtain ⟨hg', hlt⟩ := localDepth_lt_of_grow p hinv hash hg
  obtain ⟨hprep, hid⟩ := prepared_prepare p hinv hg' hlt
  have hprepare : Extends t (t.prepare (t.segmentId hash) hash).1 := by
    unfold prepare
    split
    · exact extends_increaseDepth hinv.segmentSize
    · exact .refl t
  rw [grow_eq_prepare] at hg ⊢
  rw [hid] at hg ⊢
  have hg₁ : (t.prepare (t.segmentId hash) hash).1.globalDepth ≤ 31 := hg
  exact hprepare.trans (extends_split hprep.inv hg₁ (segmentId_lt hg₁ hash) (hprep.lt p))

variable [p.Coherent]

/-- **`InsertInternal`**: induction on the rounds of its loop. -/
theorem extends_insertLoop (key : K) (value : V) (mode : InsertMode) (fuel : Nat) (hinv : t.Inv p)
    {out : InsertOut K V}
    (hout : insertLoop p key value mode fuel t (t.segmentId (p.hashFn key)) = some out)
    (hg : out.table.globalDepth ≤ 31) : Extends t out.table := by
  induction fuel generalizing t out with
  | zero => cases hout
  | succ fuel ih =>
    have hg' : t.globalDepth ≤ 31 :=
      Nat.le_trans (globalDepth_insertLoop p key value mode _ t _ hout) hg
    have hsid := segmentId_lt hg' (p.hashFn key)
    unfold insertLoop at hout
    rcases tryTarget_cases p (hinv.segInv _ hsid) key value mode with
      ⟨hnone, hres, hseg⟩ | ⟨it, hit, hres, -, -⟩ | ⟨it, hit, hres, hseg, -, -⟩
    · simp only [hnone, hseg, setSeg_self, Option.map_eq_some_iff] at hout
      obtain ⟨out₁, hout₁, rfl⟩ := hout
      have hmono := globalDepth_insertLoop p key value mode _ _ _ hout₁
      have hdepth := Nat.le_trans hmono hg
      obtain ⟨hgrew, hid⟩ := grew_grow p hinv (p.hashFn key) hdepth
      rw [hid] at hout₁
      have hrest : Extends _ out₁.table := ih hgrew.inv hout₁ hg
      exact (extends_grow hinv (p.hashFn key) hdepth).trans hrest
    · simp only [hit, hres, if_true, Option.some.injEq] at hout
      subst hout
      exact (Extends.setSeg t hsid _).withSize _
    · simp only [hit, hres, hseg, setSeg_self, Bool.false_eq_true, if_false,
        Option.some.injEq] at hout
      subst hout
      exact .refl t

end Growth

/-! ### Clear -/

theorem extends_foldl_clearSegmentAt (l : List Nat) (hl : ∀ i ∈ l, i < 2 ^ t.globalDepth) :
    Extends t (l.foldl (clearSegmentAt p) t) := by
  induction l generalizing t with
  | nil => exact .refl t
  | cons i l ih =>
    have hone : Extends t (clearSegmentAt p t i) := .setSeg t (hl i List.mem_cons_self) _
    exact hone.trans (ih fun j hj => hl j (List.mem_cons_of_mem i hj))

/-- The compaction loop from `src` on, for the directory `dir` it started with: of the segments
    it meets, it gives back those for which there is no room, and writes to no others. -/
theorem compact_memory (newSize : Nat) {g : Nat} {dir : Nat → Ptr} {depth : Ptr → Nat}
    (haligned : Directory.Aligned g dir depth) {t : Table K V} (hsize : t.segmentSize = 2 ^ g)
    (hgd : t.globalDepth = g) {dest src : Nat} (hstart : Directory.IsStart g dir src)
    (hle : dest ≤ src) (hseg : ∀ j, src ≤ j → j < 2 ^ g → t.segment j = dir j)
    (hdepth : ∀ j, src ≤ j → j < 2 ^ g → (t.heap (dir j)).localDepth = depth (dir j)) :
    compactFrees p newSize t dest src =
        ((Directory.visits (2 ^ g) g dir depth src).map dir).drop (newSize - dest) ∧
      ∀ ptr ∉ (Directory.visits (2 ^ g) g dir depth src).map dir,
        (compact p newSize t dest src).heap ptr = t.heap ptr := by
  induction hn : 2 ^ g - src using Nat.strong_induction_on generalizing t dest src with
  | _ n ih =>
    unfold compactFrees compact
    by_cases hsrc : src < 2 ^ g
    · have hnext : t.nextSeg src = src + 2 ^ (g - depth (dir src)) := by
        rw [nextSeg, seg, hseg src (Nat.le_refl _) hsrc, hdepth src (Nat.le_refl _) hsrc, hgd]
      have hpos : 0 < 2 ^ (g - depth (dir src)) := Nat.pow_pos (by decide)
      have hstart' := haligned.isStart_next hsrc hstart
      have hptr := hseg src (Nat.le_refl _) hsrc
      have hless : 2 ^ g - (src + 2 ^ (g - depth (dir src))) < n := by omega
      simp only [hsize, if_pos hsrc, Directory.visits_of_lt hsrc, List.map_cons, hnext, hptr]
      by_cases hroom : dest < newSize
      · -- the segment met moves to `dest`; later entries and depths are not affected
        have hseg' : ∀ j, src + 2 ^ (g - depth (dir src)) ≤ j → j < 2 ^ g →
            (t.keepSegment p dest (dir src)).segment j = dir j := by
          intro j hj hjlt
          rw [segment_keepSegment, if_neg (by omega)]
          exact hseg j (by omega) hjlt
        have hdepth' : ∀ j, src + 2 ^ (g - depth (dir src)) ≤ j → j < 2 ^ g →
            ((t.keepSegment p dest (dir src)).heap (dir j)).localDepth = depth (dir j) := by
          intro j hj hjlt
          rw [heap_keepSegment, if_neg (haligned.dir_ne_of_next_le hsrc hj hjlt)]
          exact hdepth j (by omega) hjlt
        have hle' : dest + 1 ≤ src + 2 ^ (g - depth (dir src)) := by omega
        obtain ⟨hfrees, hheap⟩ :=
          ih _ hless (t := t.keepSegment p dest (dir src)) hsize hgd hstart' hle' hseg' hdepth' rfl
        have hcount : newSize - dest = newSize - (dest + 1) + 1 := by omega
        simp only [if_pos hroom]
        refine ⟨?_, ?_⟩
        · rw [hfrees, hcount, List.drop_succ_cons]
        · intro ptr hnot
          rw [List.mem_cons, not_or] at hnot
          rw [hheap ptr hnot.2, heap_keepSegment, if_neg hnot.1]
      · have hle' : dest ≤ src + 2 ^ (g - depth (dir src)) := by omega
        obtain ⟨hfrees, hheap⟩ := ih _ hless hsize hgd hstart' hle'
          (fun j hj => hseg j (by omega)) (fun j hj => hdepth j (by omega)) rfl
        have hfull : newSize - dest = 0 := Nat.sub_eq_zero_of_le (Nat.le_of_not_lt hroom)
        simp only [if_neg hroom]
        refine ⟨?_, ?_⟩
        · rw [hfrees, hfull, List.drop_zero, List.drop_zero]
        · intro ptr hnot
          exact hheap ptr fun hmem => hnot (List.mem_cons_of_mem _ hmem)
    · have hge := Nat.le_of_not_lt hsrc
      simp [hsize, hsrc, Directory.visits_of_ge hge]

/-- The directory as a multiset: the segments met on a walk. -/
theorem live_val_eq (hinv : t.Inv p) :
    t.live.val = ((Directory.visits (2 ^ t.globalDepth) t.globalDepth t.segment t.depthOf 0).map
      t.segment : List Ptr) := by
  have hwalk := hinv.aligned.walk_visits (Directory.isStart_zero _ _)
  rw [live, ← hinv.aligned.toFinset_visits, List.toFinset_val, hwalk.nodup.dedup]

/-- A directory whose entries are the first of a list without repetitions. -/
theorem items_val_take {met : List Ptr} {n : Nat} {dir : Nat → Ptr} (hnodup : met.Nodup)
    (hle : 2 ^ n ≤ met.length) (hdir : ∀ k < 2 ^ n, ∀ ptr, met[k]? = some ptr → dir k = ptr) :
    (Directory.items n dir).val = (met.take (2 ^ n) : List Ptr) := by
  have hmap : (List.range (2 ^ n)).map dir = met.take (2 ^ n) := by
    apply List.ext_getElem
    · simp [hle]
    · intro k hk _
      have hlt : k < 2 ^ n := by simpa using hk
      have hget : met[k]? = some met[k] := List.getElem?_eq_getElem (Nat.lt_of_lt_of_le hlt hle)
      simp [hdir k hlt _ hget]
  have hitems : Directory.items n dir = (met.take (2 ^ n)).toFinset := by
    ext ptr
    rw [Directory.mem_items, ← hmap]
    simp
  rw [hitems, List.toFinset_val, (hnodup.sublist (List.take_sublist _ _)).dedup]

/-- What `Clear` gives back and what it keeps are the segments there were. -/
structure GivesBack (t t' : Table K V) (frees : List Ptr) : Prop where
  all : (frees : Multiset Ptr) + t'.live.val = t.live.val
  nextPtr : t'.nextPtr = t.nextPtr
  heap : ∀ ptr < t.nextPtr, ptr ∉ t.live → t'.heap ptr = t.heap ptr

theorem GivesBack.frame {frees : List Ptr} (h : GivesBack t t' frees) : Frame t t' := by
  refine ⟨h.nextPtr.ge, ?_, h.heap⟩
  intro ptr hptr
  have hmem : ptr ∈ (frees : Multiset Ptr) + t'.live.val := Multiset.mem_add.mpr (Or.inr hptr)
  rw [h.all] at hmem
  exact Or.inl hmem

theorem givesBack_compact (hinv : t.Inv p) :
    GivesBack t
      { compact p (1 <<< t.initialDepth) { t with bucketCount := 0 } 0 0 with
        globalDepth :=
          (compact p (1 <<< t.initialDepth) { t with bucketCount := 0 } 0 0).initialDepth
        uniqueSegments := UInt32.ofNat (1 <<< t.initialDepth)
        segmentSize := 1 <<< t.initialDepth }
      (compactFrees p (1 <<< t.initialDepth) { t with bucketCount := 0 } 0 0) := by
  rw [Nat.one_shiftLeft]
  have hwalk := hinv.aligned.walk_visits (Directory.isStart_zero _ _)
  have hcomp :=
    compacted_compact p (2 ^ t.initialDepth) hinv.aligned (t := { t with bucketCount := 0 })
    hinv.segmentSize rfl (Directory.isStart_zero _ _) (Nat.le_refl 0)
      (fun _ _ _ => rfl) fun _ _ _ => rfl
  obtain ⟨hfrees, hheap⟩ := compact_memory (p := p) (2 ^ t.initialDepth) hinv.aligned
    (t := { t with bucketCount := 0 }) hinv.segmentSize rfl (Directory.isStart_zero _ _)
      (Nat.le_refl 0)
    (fun _ _ _ => rfl) fun _ _ _ => rfl
  have hlength : 2 ^ t.initialDepth ≤
      ((Directory.visits (2 ^ t.globalDepth) t.globalDepth t.segment t.depthOf 0).map
        t.segment).length := by
    rw [List.length_map, hinv.aligned.length_visits]
    exact Directory.pow_le_card_items hinv.aligned hinv.initial_le hinv.localDepth_ge
  refine ⟨?_, hcomp.nextPtr, ?_⟩
  · have hlive := items_val_take hwalk.nodup hlength fun k hk ptr hptr => by
      have hmoved := hcomp.moved k (by omega) ptr hptr
      rw [Nat.zero_add] at hmoved
      exact hmoved.1
    rw [live_val_eq hinv, hfrees, Nat.sub_zero]
    have hinit : (compact p (2 ^ t.initialDepth) { t with bucketCount := 0 } 0 0).initialDepth =
        t.initialDepth := hcomp.initialDepth
    show _ + (Directory.items
        (compact p (2 ^ t.initialDepth) { t with bucketCount := 0 } 0 0).initialDepth
      (compact p (2 ^ t.initialDepth) { t with bucketCount := 0 } 0 0).segment).val = _
    rw [hinit, hlive, add_comm, Multiset.coe_add, List.take_append_drop]
  · intro ptr _ hnot
    refine hheap ptr fun hmem => hnot ?_
    obtain ⟨i, hi, rfl⟩ := List.mem_map.mp hmem
    exact mem_live.mpr ⟨i, (hwalk.bounds i hi).2, rfl⟩

theorem givesBack_clear (hinv : t.Inv p) : GivesBack t (t.clear p) (t.clearFrees p) := by
  obtain ⟨hemptied, -⟩ := emptied_all p hinv
  have hwalk := hinv.aligned.walk_visits (Directory.isStart_zero _ _)
  have hvisits : ∀ i ∈ t.iterateDistinct, i < 2 ^ t.globalDepth := by
    rw [iterateDistinct, hinv.segmentSize]
    exact fun i hi => (hwalk.bounds i hi).2
  have hextends := extends_foldl_clearSegmentAt (p := p) t.iterateDistinct hvisits
  unfold clear clearFrees
  generalize t.iterateDistinct.foldl (clearSegmentAt p) t = t₁ at hemptied hextends
  have hlive : t₁.live = t.live := by
    rw [live, hemptied.globalDepth, hemptied.segment, live]
  dsimp only
  split
  · have hback := givesBack_compact (hemptied.inv.withSize 0)
    refine ⟨?_, hback.nextPtr.trans hemptied.nextPtr, ?_⟩
    · rw [← hlive]
      exact hback.all
    · intro ptr hlt hnot
      rw [← hextends.heap ptr hlt hnot]
      refine hback.heap ptr (hemptied.nextPtr.symm ▸ hlt) ?_
      rw [← hlive] at hnot
      exact hnot
  · refine ⟨?_, hemptied.nextPtr, hextends.heap⟩
    rw [← hlive]
    exact Multiset.zero_add _

/-- What the destructor's walk gives back after its `Clear`. -/
theorem map_iterateDistinct (hinv : t.Inv p) :
    (t.iterateDistinct.map t.segment : Multiset Ptr) = t.live.val := by
  rw [live_val_eq hinv, iterateDistinct, hinv.segmentSize]
  rfl

/-! ### Runs -/

theorem extends_erase (hg : t.globalDepth ≤ 31) (key : K) : Extends t (t.erase p key).1 := by
  unfold erase
  dsimp only
  split
  · exact .refl t
  · exact (Extends.setSeg t (segmentId_lt hg _) _).withSize _

theorem extends_eraseIt {it : TableIter} (hseg : it.segId < 2 ^ t.globalDepth) :
    Extends t (t.eraseIt p it) :=
  (Extends.setSeg t hseg _).withSize _

/-- A table with what it has given back. -/
structure Ledger (K V : Type) where
  table : Table K V
  freed : List Ptr := []

/-- What an operation gives back. -/
def TableOp.frees (p : Policy K V) (t : Table K V) : TableOp K V → List Ptr
  | .clear => t.clearFrees p
  | _ => []

namespace Ledger

variable [Inhabited K] [Inhabited V]

def step (p : Policy K V) (s : Ledger K V) (op : TableOp K V) : Option (Ledger K V) :=
  (opStep p s.table op).map fun t => ⟨t, s.freed ++ op.frees p s.table⟩

/-- Every allocation is in the directory or was given back, once. -/
structure Inv (p : Policy K V) (s : Ledger K V) : Prop where
  reachable : Reachable p s.table
  once : (s.freed : Multiset Ptr) + s.table.live.val = Multiset.range s.table.nextPtr

variable {s s' : Ledger K V}

theorem Inv.lt_nextPtr (h : s.Inv p) {ptr : Ptr} (hptr : ptr ∈ s.freed ∨ ptr ∈ s.table.live) :
    ptr < s.table.nextPtr := by
  rw [← Multiset.mem_range, ← h.once, Multiset.mem_add]
  exact hptr

theorem Inv.not_mem_live (h : s.Inv p) {ptr : Ptr} (hptr : ptr ∈ s.freed) : ptr ∉ s.table.live := by
  have hnodup := Multiset.nodup_range s.table.nextPtr
  rw [← h.once, Multiset.nodup_add] at hnodup
  exact Multiset.disjoint_left.mp hnodup.2.2 hptr

theorem inv_new {capacityLog : Nat} (hlog : capacityLog ≤ 30) : Inv p ⟨new p capacityLog, []⟩ := by
  obtain ⟨hseg, hnext, -, -, -, -, -, hgd⟩ :=
    foldl_constructAt p (unfilled capacityLog : Table K V) rfl (2 ^ capacityLog)
  have hnew : (List.range (2 ^ capacityLog)).foldl (constructAt p) (unfilled capacityLog) =
      (new p capacityLog : Table K V) := by
    rw [new, Nat.one_shiftLeft]
  rw [hnew] at hseg hnext hgd
  refine ⟨.new capacityLog hlog, ?_⟩
  have hlive : (new p capacityLog : Table K V).live = Finset.range (2 ^ capacityLog) := by
    have hgd' : (new p capacityLog : Table K V).globalDepth = capacityLog := hgd
    rw [live, hgd', Directory.items_congr fun j hj => (hseg j hj).1, Directory.items,
      Finset.image_id']
  rw [hlive, hnext]
  exact Multiset.zero_add _

/-- The operations that give nothing back. -/
theorem Inv.extends {t' : Table K V} (h : s.Inv p) (hreach : Reachable p t')
    (hext : Extends s.table t') :
    Inv p ⟨t', s.freed ++ []⟩ := by
  refine ⟨hreach, ?_⟩
  have hdisjoint : Disjoint s.table.live (Finset.Ico s.table.nextPtr t'.nextPtr) := by
    rw [Finset.disjoint_left]
    intro ptr hlive hnew
    exact absurd (h.lt_nextPtr (Or.inr hlive)) (Nat.not_lt.mpr (Finset.mem_Ico.mp hnew).1)
  have hold : Disjoint (Finset.range s.table.nextPtr) (Finset.Ico s.table.nextPtr t'.nextPtr) := by
    rw [Finset.range_eq_Ico]
    exact Finset.Ico_disjoint_Ico_consecutive _ _ _
  have hrange : Finset.range t'.nextPtr =
      (Finset.range s.table.nextPtr).disjUnion (Finset.Ico s.table.nextPtr t'.nextPtr) hold := by
    rw [Finset.disjUnion_eq_union, Finset.range_eq_Ico, Finset.range_eq_Ico,
      Finset.Ico_union_Ico_eq_Ico (Nat.zero_le _) hext.nextPtr]
  have hlive :
      t'.live = s.table.live.disjUnion (Finset.Ico s.table.nextPtr t'.nextPtr) hdisjoint := by
    rw [Finset.disjUnion_eq_union]
    exact hext.all
  calc ((s.freed ++ [] : List Ptr) : Multiset Ptr) + t'.live.val
      = (s.freed : Multiset Ptr) + s.table.live.val +
        (Finset.Ico s.table.nextPtr t'.nextPtr).val := by
        rw [List.append_nil, hlive, add_assoc]
        rfl
    _ = (Finset.range t'.nextPtr).val := by
        rw [h.once, hrange]
        rfl

theorem Inv.givesBack {t' : Table K V} {frees : List Ptr} (h : s.Inv p) (hreach : Reachable p t')
    (hback : GivesBack s.table t' frees) : Inv p ⟨t', s.freed ++ frees⟩ := by
  refine ⟨hreach, ?_⟩
  rw [← Multiset.coe_add, add_assoc, hback.all, h.once, hback.nextPtr]

variable [p.Coherent]

/-- An operation either gives nothing back, or it is `Clear`. -/
theorem memory_opStep {t t' : Table K V} {op : TableOp K V} (h : Reachable p t)
    (hstep : opStep p t op = some t') :
    Extends t t' ∧ op.frees p t = [] ∨ GivesBack t t' (op.frees p t) := by
  have hrun := h.runInv
  cases op with
  | insert key value mode fuel =>
    obtain ⟨out, hout, hg, rfl⟩ := opStep_insert hstep
    exact Or.inl ⟨extends_insertLoop key value mode fuel hrun.toInv hout hg, rfl⟩
  | erase key =>
    obtain rfl := Option.some.inj hstep
    exact Or.inl ⟨extends_erase hrun.globalDepth_le key, rfl⟩
  | eraseIt it =>
    obtain ⟨⟨hseg, -, -⟩, rfl⟩ := opStep_eraseIt hstep
    rw [hrun.segmentSize] at hseg
    exact Or.inl ⟨extends_eraseIt hseg, rfl⟩
  | clear =>
    obtain rfl := Option.some.inj hstep
    exact Or.inr (givesBack_clear hrun.toInv)

theorem inv_step {op : TableOp K V} (h : s.Inv p) (hstep : s.step p op = some s') : s'.Inv p := by
  obtain ⟨t', hop, rfl⟩ := Option.map_eq_some_iff.mp hstep
  have hreach := reachable_step h.reachable hop
  rcases memory_opStep h.reachable hop with ⟨hext, hnone⟩ | hback
  · rw [hnone]
    exact h.extends hreach hext
  · exact h.givesBack hreach hback

/-- What was given back before `s` stays given back, and stays as it is. -/
structure Later (past s : Ledger K V) : Prop where
  kept : past.freed <+: s.freed
  untouched : ∀ ptr ∈ past.freed, s.table.heap ptr = past.table.heap ptr

theorem Later.step {past : Ledger K V} {op : TableOp K V} (h : Later past s) (hinv : s.Inv p)
    (hstep : s.step p op = some s') : Later past s' := by
  obtain ⟨t', hop, rfl⟩ := Option.map_eq_some_iff.mp hstep
  have hframe : Frame s.table t' := by
    rcases memory_opStep hinv.reachable hop with ⟨hext, -⟩ | hback
    · exact hext.toFrame
    · exact hback.frame
  refine ⟨h.kept.trans (List.prefix_append _ _), ?_⟩
  intro ptr hptr
  have hfreed := h.kept.subset hptr
  rw [← h.untouched ptr hptr]
  exact hframe.heap ptr (hinv.lt_nextPtr (Or.inl hfreed)) (hinv.not_mem_live hfreed)

/-- What holds of the segments after a run that passed through `past`: each allocation is in the
    directory or was given back, once, and the destructor gives back the rest; no entry of the
    directory dangles, and what was given back in `past` has not been written to since. -/
structure Sound (p : Policy K V) (past s : Ledger K V) : Prop extends Later past s where
  once : (s.freed : Multiset Ptr) + s.table.live.val = Multiset.range s.table.nextPtr
  directory : ∀ i < s.table.segmentSize, s.table.segment i ∉ s.freed
  destructor : ((s.freed ++ s.table.destructorFrees p : List Ptr) : Multiset Ptr) =
    Multiset.range s.table.nextPtr

theorem Inv.destructor (h : s.Inv p) :
    ((s.freed ++ s.table.destructorFrees p : List Ptr) : Multiset Ptr) =
    Multiset.range s.table.nextPtr := by
  have hrun := h.reachable.runInv
  have hclear := cleared_clear p hrun.toInv hrun.initialDepth_le
  have hback := givesBack_clear hrun.toInv
  rw [destructorFrees, ← Multiset.coe_add, ← Multiset.coe_add,
    map_iterateDistinct hclear.inv, hback.all, h.once]

/-- **The memory of a table**, over every run and from every point of it on. -/
theorem memory_of_run {capacityLog : Nat} (hlog : capacityLog ≤ 30)
    {before after : List (TableOp K V)} {past s : Ledger K V}
    (hbefore : run (step p) ⟨new p capacityLog, []⟩ before = some past)
    (hafter : run (step p) past after = some s) : Sound p past s := by
  have hpast : past.Inv p := @inv_run _ _ _ (Inv p) (fun _ _ => True)
    (fun _ _ _ h _ hstep => inv_step h hstep) _ _ _ (inv_new hlog)
      (fun _ _ _ _ _ _ => trivial) hbefore
  have hboth : s.Inv p ∧ Later past s := by
    refine @inv_run _ _ _ (fun s => s.Inv p ∧ Later past s) (fun _ _ => True) ?_ _ _ _
      ⟨hpast, List.prefix_rfl, fun _ _ => rfl⟩ (fun _ _ _ _ _ _ => trivial) hafter
    rintro t op t' ⟨hinv, hlater⟩ - hstep
    exact ⟨inv_step hinv hstep, hlater.step hinv hstep⟩
  obtain ⟨hinv, hlater⟩ := hboth
  refine ⟨hlater, hinv.once, ?_, hinv.destructor⟩
  intro i hi hfreed
  rw [hinv.reachable.runInv.segmentSize] at hi
  exact hinv.not_mem_live hfreed (mem_live.mpr ⟨i, hi, rfl⟩)

/-- Seven keys split the second segment; `Clear` then gives back a segment, and the table is
    filled again. -/
theorem memory_of_run_pile : ∃ past s,
    run (step narrow64) ⟨new narrow64 1, []⟩ (pile 7 ++ [.clear]) = some past ∧
    past.freed.length = 1 ∧ run (step narrow64) past (pile 7) = some s ∧ Sound narrow64 past s := by
  have hcheck : (run (step narrow64) ⟨new narrow64 1, []⟩ (pile 7 ++ [.clear])).map (fun past =>
      (past.freed.length, (run (step narrow64) past (pile 7)).isSome)) = some (1,
        true) := by decide +kernel
  obtain ⟨past, hpast, hrest⟩ := Option.map_eq_some_iff.mp hcheck
  obtain ⟨hlength, hsome⟩ := Prod.mk.inj hrest
  obtain ⟨s, hs⟩ := Option.isSome_iff_exists.mp hsome
  exact ⟨past, s, hpast, hlength, hs, memory_of_run (by decide) hpast hs⟩

end Ledger

end Table

end StorageEngine.DashTable
