/-
  StorageEngine/DashTable/MoveNotices.lean
  ========================================
  **What the eviction policy is told** (`ev.OnMove` in `InsertInternal` and `Split`).

  Every `OnMove(from, to)` passes two cursors, packed from `segment_id()` and a bucket
  number at the current `global_depth_`.  A notice keeps the two cursors, the entry with
  its buckets, and the table when the displacement or the split is done; it names real
  places when each cursor decodes to a directory index of the segment and to the
  physical bucket.

  As long as the ids of the segments are right, the notices of an insertion name real
  places exactly when every segment it splits fits and its stash stays.
-/
import StorageEngine.DashTable.SegmentIds
import StorageEngine.DashTable.SplitReports
import StorageEngine.DashTable.Traverse
import StorageEngine.StepMachine

namespace StorageEngine.DashTable

open StorageEngine SlotStore StepMachine

variable {K V : Type}

/-- An `OnMove(from, to)`: its cursors, the entry that moved, and the table with the
    entry in its new place. -/
structure Notice (K V : Type) where
  source : DashCursor
  target : DashCursor
  relocation : Relocation K V
  table : Table K V

/-- `ev.OnMove(Cursor{global_depth_, segment_from, from}, Cursor{global_depth_, segment_to,
    to})`. -/
def onMove (globalDepth : Nat) (t : Table K V) (r : Relocation K V) : Notice K V where
  source := .pack globalDepth r.move.segmentFrom r.move.bidFrom
  target := .pack globalDepth r.move.segmentTo r.move.bidTo
  relocation := r
  table := t

/-- The cursor decodes to a directory index of the bucket's segment and to the bucket. -/
def Table.Locates (t : Table K V) (c : DashCursor) (pl : Place K V) : Prop :=
  c.segmentId t.globalDepth < t.segmentSize ∧ t.segment (c.segmentId t.globalDepth) = pl.ptr ∧
    c.bucketId = pl.bid

/-- The notice names the places between which its entry moved. -/
structure Notice.Names (n : Notice K V) : Prop where
  carried : n.relocation.Carried
  source : n.table.Locates n.source n.relocation.taken
  target : ∃ pl, n.relocation.put = some pl ∧ n.table.Locates n.target pl

namespace Segment

variable (p : Policy K V)

/-- The displacements of an `InsertUniq` with the result `r`: the entry that makes room
    was in the slot the new pair has now. -/
def displacements (ptr : Ptr) (s : Segment K V) (r : InsertRes K V) : List (Relocation K V) :=
  r.moves.map fun (fromBid, toBid) =>
    { move := ⟨s.segmentId, fromBid, s.segmentId, toBid⟩
      entry := s.pair fromBid ((r.it.map Iter.slot).getD 0)
      taken := ⟨ptr, s, fromBid⟩
      put := some ⟨ptr, r.seg, toBid⟩ }

/-! ### Displacements -/

section Displacements

variable {p}
variable {s s' : Segment K V} {key : K} {value : V} {hash : UInt64} {spread : Bool} {it : Iter}
  {moves : List (Nat × Nat)}

/-- A displaced entry was in the slot of the new pair and is in the bucket it moved to. -/
theorem Placed.displaced (h : Placed p s key value hash spread s' it moves) :
    ∀ m ∈ moves, m.1 < p.kBucketNum ∧ m.2 < p.kBucketNum ∧
      ∃ e, s.cell (m.1, it.slot) = some e ∧
        ∃ j e', s'.cell (m.2, j) = some e' ∧ (e'.key, e'.value) = (e.key, e.value) := by
  have hhome := p.homeIndex_lt hash
  -- the vacated slot is not the one the entry moved to, which was free
  have hmoved : ∀ (flag : Bool) {e e₀ : Entry K V} {s₁ s₂ : Segment K V} {i i' j j' : Nat},
      e.probe = !flag → Put p s s₁ (i', j') { e with probe := flag } →
      Take p s₁ s₂ (i, j) e → Put p s₂ s' (i, j) e₀ →
      s.cell (i, j) = some e ∧ s'.cell (i', j') = some { e with probe := flag } := by
    intro flag e e₀ s₁ s₂ i i' j j' hflag hput htake hput'
    have hold := cell_of_displaced flag hflag hput htake.busy
    have hne : (i', j') ≠ (i, j) := by
      intro heq
      have hfree := hput.free
      rw [heq, hold] at hfree
      cases hfree
    refine ⟨hold, ?_⟩
    rw [hput'.cell, Function.update_of_ne hne, htake.cell, Function.update_of_ne hne, hput.cell,
      Function.update_self]
  cases h with
  | direct probe home put => simp
  | displacedOwn own home next put take put' =>
    intro m hm
    rw [List.mem_singleton] at hm
    subst hm
    obtain ⟨hold, hnew⟩ := hmoved true own put take put'
    exact ⟨p.nextBid_lt _, p.nextBid_lt _, _, hold, _, _, hnew, rfl⟩
  | displacedProbing probing home next own put take put' =>
    intro m hm
    rw [List.mem_singleton] at hm
    subst hm
    obtain ⟨hold, hnew⟩ := hmoved false probing put take put'
    exact ⟨hhome, p.prevBid_lt hhome, _, hold, _, _, hnew, rfl⟩
  | stashed hq noRoom put => simp

/-- The displacements are reported right. -/
theorem told_displacements {r : InsertRes K V} (ptr : Ptr) (hit : r.it = some it)
    (h : Placed p s key value hash spread r.seg it r.moves) :
    ∀ d ∈ s.displacements ptr r, Told p ptr ptr s s d ∧ d.Right := by
  intro d hd
  obtain ⟨⟨fromBid, toBid⟩, hm, rfl⟩ := List.mem_map.mp hd
  obtain ⟨hfrom, hto, e, he, j, e', he', hsame⟩ := h.displaced _ hm
  have hentry : s.pair fromBid ((r.it.map Iter.slot).getD 0) = (e.key, e.value) := by
    rw [hit]
    exact pair_of_cell he
  dsimp only
  rw [hentry]
  refine ⟨⟨⟨⟨it.slot, e, he, rfl⟩, ?_⟩, ⟨rfl, p.lt_total_of_lt hfrom⟩, rfl,
    p.lt_total_of_lt hfrom, ?_⟩, rfl, _, rfl, rfl⟩
  · intro pl hpl
    cases hpl
    exact ⟨j, e', he', hsame⟩
  · intro pl hpl
    cases hpl
    exact ⟨p.lt_total_of_lt hto, rfl, Or.inl ⟨rfl, rfl⟩⟩

theorem moves_insertStash (bid : Nat) (key : K) (value : V) (fp : UInt8) (l : List Nat)
    (s : Segment K V) : (insertStash p bid key value fp l s).moves = [] := by
  induction l generalizing s with
  | nil => rfl
  | cons i l ih =>
    unfold insertStash
    dsimp only
    split
    · rfl
    · exact ih _

/-- An `InsertUniq` that finds no room displaces nothing. -/
theorem moves_insertUniq (s : Segment K V) (key : K) (value : V) (hash : UInt64) (spread : Bool)
    (hnone : (s.insertUniq p key value hash spread).it = none) :
    (s.insertUniq p key value hash spread).moves = [] := by
  unfold insertUniq at hnone ⊢
  dsimp only at hnone ⊢
  split at hnone
  · cases hnone
  split at hnone
  · cases hnone
  unfold insertDisplacing at hnone ⊢
  dsimp only at hnone ⊢
  split at hnone
  · cases hnone
  split at hnone
  · cases hnone
  exact moves_insertStash _ _ _ _ _ _

end Displacements

end Segment

namespace Table

variable (p : Policy K V)

/-! ### The notices of an insertion -/

section Notices

variable [Inhabited K] [Inhabited V]

/-- `DashTable::Split`. -/
def splitNotices (t : Table K V) (segId : Nat) : List (Notice K V) :=
  let source := t.segment segId
  let chunkSize := 2 ^ (t.globalDepth - (t.heap source).localDepth)
  let startIdx := chunkStart segId chunkSize
  let targetId := startIdx + chunkSize / 2
  let (t₁, target) := t.constructSegment p ((t.heap source).localDepth + 1) targetId
  (Segment.splitReports p source target (t₁.heap source) (t₁.heap target)).map
    (onMove t.globalDepth (t.split p segId).1)

/-- A round of growth. -/
def growNotices (t : Table K V) (sid : Nat) (hash : UInt64) : List (Notice K V) :=
  let (t, sid) := t.prepare sid hash
  t.splitNotices p sid

/-- An attempt on the target segment. -/
def attemptNotices (t : Table K V) (sid : Nat) (key : K) (value : V) (mode : InsertMode) :
    List (Notice K V) :=
  let (r, _) := t.tryTarget p sid key value mode
  ((t.seg sid).displacements (t.segment sid) r).map (onMove t.globalDepth (t.setSeg sid r.seg))

/-- The loop of `InsertInternal`. -/
def insertLoopNotices (key : K) (value : V) (mode : InsertMode) :
    Nat → Table K V → Nat → List (Notice K V)
  | 0, _, _ => []
  | fuel + 1, t, sid =>
    let (r, _) := t.tryTarget p sid key value mode
    let told := t.attemptNotices p sid key value mode
    let t := t.setSeg sid r.seg
    match r.it with
    | some _ => told
    | none =>
      let ((t', sid'), _) := t.grow p sid (p.hashFn key)
      told ++ t.growNotices p sid (p.hashFn key) ++ insertLoopNotices key value mode fuel t' sid'

def insertNotices (fuel : Nat) (t : Table K V) (key : K) (value : V) (mode : InsertMode) :
    List (Notice K V) :=
  insertLoopNotices p key value mode fuel t (t.segmentId (p.hashFn key))

/-- The segments that the loop splits, as they are when the attempt on them has failed. -/
def insertLoopSplits (key : K) (value : V) (mode : InsertMode) :
    Nat → Table K V → Nat → List (Segment K V)
  | 0, _, _ => []
  | fuel + 1, t, sid =>
    let (r, _) := t.tryTarget p sid key value mode
    let t := t.setSeg sid r.seg
    match r.it with
    | some _ => []
    | none =>
      let ((t', sid'), _) := t.grow p sid (p.hashFn key)
      t.seg sid :: insertLoopSplits key value mode fuel t' sid'

def insertSplits (fuel : Nat) (t : Table K V) (key : K) (value : V) (mode : InsertMode) :
    List (Segment K V) :=
  insertLoopSplits p key value mode fuel t (t.segmentId (p.hashFn key))

end Notices

/-! ### Cursors and places -/

variable {p} {t t' : Table K V}

/-- A cursor packed with an index of the segment locates the bucket it was packed with. -/
theorem locates_pack (hg : t.globalDepth ≤ 31) (hsize : t.segmentSize = 2 ^ t.globalDepth)
    {id bid : Nat} {pl : Place K V} (hid : id < 2 ^ t.globalDepth) (hptr : t.segment id = pl.ptr)
    (hbid : bid < 2 ^ 8) : t.Locates (.pack t.globalDepth id bid) pl ↔ bid = pl.bid := by
  have hpacks := DashCursor.packs_pack hg hid hbid
  unfold Locates
  rw [hpacks.segmentId_eq, hpacks.bucketId_eq, hsize]
  exact ⟨fun h => h.2.2, fun h => ⟨hid, hptr, h⟩⟩

/-- A call about the segments `s` and `dest` names real places when it names its buckets
    and the ids of the segments lead to them. -/
theorem names_onMove {left right : Ptr} {s dest : Segment K V} {r : Relocation K V}
    (htold : Segment.Told p left right s dest r) (hg : t.globalDepth ≤ 31)
    (hsize : t.segmentSize = 2 ^ t.globalDepth)
    (hleft : s.segmentId < 2 ^ t.globalDepth ∧ t.segment s.segmentId = left)
    (hright : dest.segmentId < 2 ^ t.globalDepth ∧ t.segment dest.segmentId = right) :
    (onMove t.globalDepth t r).Names ↔ r.Right := by
  have htotal := p.kTotalBuckets_lt
  have hbyte : ∀ bid < p.kTotalBuckets, bid < 2 ^ 8 := by
    intro bid hbid
    unfold Policy.kTotalBuckets kStashBucketNum at hbid
    omega
  have hsource : t.Locates (onMove t.globalDepth t r).source r.taken ↔
      r.move.bidFrom = r.taken.bid := by
    rw [onMove, htold.segmentFrom]
    exact locates_pack hg hsize hleft.1 (hleft.2.trans htold.taken.1.symm)
      (hbyte _ htold.bidFrom)
  have htarget : ∀ pl, r.put = some pl → t.Locates (onMove t.globalDepth t r).target pl := by
    intro pl hput
    obtain ⟨hbid, hto, hside⟩ := htold.put pl hput
    rw [onMove]
    rcases hside with ⟨hptr, hid⟩ | ⟨hptr, hid⟩
    · rw [hid]
      exact (locates_pack hg hsize hleft.1 (hleft.2.trans hptr.symm) (hto ▸ hbyte _ hbid)).mpr hto
    · rw [hid]
      exact (locates_pack hg hsize hright.1 (hright.2.trans hptr.symm) (hto ▸ hbyte _ hbid)).mpr hto
  constructor
  · rintro ⟨-, hfrom, pl, hput, -⟩
    exact ⟨hsource.mp hfrom, pl, hput, (htold.put pl hput).2.1⟩
  · rintro ⟨hfrom, pl, hput, -⟩
    exact ⟨htold.carried, hsource.mpr hfrom, pl, hput, htarget pl hput⟩

/-! ### Attempts -/

theorem moves_tryTarget (t : Table K V) (sid : Nat) (key : K) (value : V) (mode : InsertMode)
    (hres : (t.tryTarget p sid key value mode).2 = false) :
    (t.tryTarget p sid key value mode).1.moves = [] := by
  cases mode with
  | forceInsert =>
    exact Segment.moves_insertUniq _ _ _ _ _
      (Option.isNone_iff_eq_none.mp (Option.isSome_eq_false_iff.mp hres))
  | insertIfNotFound =>
    unfold tryTarget Segment.insert at hres ⊢
    dsimp only at hres ⊢
    split at hres
    · rfl
    · exact Segment.moves_insertUniq _ _ _ _ _
        (Option.isNone_iff_eq_none.mp (Option.isSome_eq_false_iff.mp hres))

section Growth

variable [p.Coherent]

/-- The notices of an attempt name real places. -/
theorem names_attemptNotices (hinv : t.Inv p) (hg : t.globalDepth ≤ 31) (hids : t.IdsFirst)
    {sid : Nat} (hsid : sid < 2 ^ t.globalDepth) (key : K) (value : V) (mode : InsertMode) :
    ∀ n ∈ t.attemptNotices p sid key value mode, n.Names := by
  have hsize := hinv.segmentSize
  have hmoves := moves_tryTarget (p := p) t sid key value mode
  have hid := hids.segment_segmentId (hsize.symm ▸ hsid)
  rw [hsize] at hid
  unfold attemptNotices
  dsimp only
  intro n hn
  obtain ⟨d, hd, rfl⟩ := List.mem_map.mp hn
  rcases tryTarget_cases p (hinv.segInv sid hsid) key value mode with
    ⟨-, hres, -⟩ | ⟨it, hit, -, hplaced, -⟩ | ⟨it, -, hres, -⟩
  · rw [Segment.displacements, hmoves hres] at hd
    cases hd
  · obtain ⟨htold, hright⟩ := Segment.told_displacements (t.segment sid) hit hplaced d hd
    exact (names_onMove (t := t.setSeg sid _) htold hg hsize hid hid).mpr hright
  · rw [Segment.displacements, hmoves hres] at hd
    cases hd

/-! ### Splits -/

variable [Inhabited K] [Inhabited V]

omit [p.Coherent] in
theorem splitNotices_eq (hinv : t.Inv p) (hg : t.globalDepth ≤ 31) {sid : Nat}
    (hsid : sid < 2 ^ t.globalDepth) (hlt : (t.seg sid).localDepth < t.globalDepth) {e : Nat}
    (he : e = 2 ^ (t.globalDepth - ((t.seg sid).localDepth + 1))) :
    t.splitNotices p sid = (Segment.splitReports p (t.segment sid) t.nextPtr (t.seg sid)
      (.new ((t.seg sid).localDepth + 1) (sid / (2 * e) * (2 * e) + e))).map
        (onMove t.globalDepth (t.split p sid).1) := by
  obtain ⟨hchunk, hstart, hhalf, hheap⟩ := block_of_split p hinv hg hsid hlt he
  unfold splitNotices constructSegment
  dsimp only
  rw [hchunk, hstart, hhalf, hheap, Function.update_self]
  rfl

omit [p.Coherent] in
/-- After a split the two ids lead to the segment and to the new one. -/
theorem places_of_split (hinv : t.Inv p) (hg : t.globalDepth ≤ 31) (hids : t.IdsFirst)
    {sid : Nat} (hsid : sid < 2 ^ t.globalDepth) (hlt : (t.seg sid).localDepth < t.globalDepth)
    {e : Nat} (he : e = 2 ^ (t.globalDepth - ((t.seg sid).localDepth + 1))) :
    ((t.seg sid).segmentId < 2 ^ t.globalDepth ∧
      (t.split p sid).1.segment (t.seg sid).segmentId = t.segment sid) ∧
    sid / (2 * e) * (2 * e) + e < 2 ^ t.globalDepth ∧
      (t.split p sid).1.segment (sid / (2 * e) * (2 * e) + e) = t.nextPtr := by
  have hpos : 0 < e := he ▸ Nat.pow_pos (by decide)
  have hchunk : 2 ^ (t.globalDepth - (t.seg sid).localDepth) = 2 * e :=
    he ▸ Directory.pow_sub_eq_two_mul hlt
  obtain ⟨hhalved, -⟩ := halvedAt_split_id p hinv hg hsid hlt he
  have hend : sid / (2 * e) * (2 * e) + 2 * e ≤ 2 ^ t.globalDepth := by
    have hblock := (hinv.block p hsid).1
    rwa [hchunk] at hblock
  have hid : (t.seg sid).segmentId = sid / (2 * e) * (2 * e) := by
    have hfirst := hinv.idsFirst_iff.mp hids sid hsid
    rwa [Directory.blockStart, show t.depthOf (t.segment sid) = (t.seg sid).localDepth from rfl,
      hchunk] at hfirst
  -- the lower half keeps the segment, the upper half has the new one
  have hlow : (t.seg sid).segmentId / e = 2 * (sid / (2 * e)) := by
    rw [hid, show sid / (2 * e) * (2 * e) = 2 * (sid / (2 * e)) * e by ring,
      Nat.mul_div_cancel _ hpos]
  have hhigh : (sid / (2 * e) * (2 * e) + e) / e = 2 * (sid / (2 * e)) + 1 := by
    rw [Nat.add_div_right _ hpos, ← hid, hlow]
  have hsegment := hids.segment_segmentId (hinv.segmentSize.symm ▸ hsid)
  rw [hinv.segmentSize] at hsegment
  refine ⟨⟨hsegment.1, ?_⟩, ?_, ?_⟩
  · rw [hhalved.segment, if_neg (by omega)]
    exact hsegment.2
  · omega
  · rw [hhalved.segment, if_pos hhigh]

/-- **The notices of a split name real places exactly when the segment fits and its stash
    stays.** -/
theorem names_splitNotices_iff (hinv : t.Inv p) (hg : t.globalDepth ≤ 31) (hids : t.IdsFirst)
    {sid : Nat} (hsid : sid < 2 ^ t.globalDepth) (hlt : (t.seg sid).localDepth < t.globalDepth) :
    (∀ n ∈ t.splitNotices p sid, n.Names) ↔
      (t.seg sid).SplitFits p ∧ (t.seg sid).StashStays p := by
  obtain ⟨e, he⟩ : ∃ e, e = 2 ^ (t.globalDepth - ((t.seg sid).localDepth + 1)) := ⟨_, rfl⟩
  have hs := hinv.segInv sid hsid
  obtain ⟨hhalved, -⟩ := halvedAt_split_id p hinv hg hsid hlt he
  obtain ⟨hleft, hright⟩ := places_of_split hinv hg hids hsid hlt he
  have hgd := hhalved.globalDepth
  have hsize : (t.split p sid).1.segmentSize = 2 ^ (t.split p sid).1.globalDepth := by
    rw [hhalved.segmentSize, hgd, hinv.segmentSize]
  have hnew := Segment.inv_new (V := V) p ((t.seg sid).localDepth + 1)
    (sid / (2 * e) * (2 * e) + e)
  have hiff : ∀ r ∈ Segment.splitReports p (t.segment sid) t.nextPtr (t.seg sid)
      (.new ((t.seg sid).localDepth + 1) (sid / (2 * e) * (2 * e) + e)),
      (onMove t.globalDepth (t.split p sid).1 r).Names ↔ r.Right := by
    intro r hr
    rw [← hgd] at hg hleft hright ⊢
    exact names_onMove (Segment.told_splitReports hs hnew r hr) hg hsize hleft hright
  rw [splitNotices_eq hinv hg hsid hlt he, List.forall_mem_map, forall₂_congr hiff]
  exact Segment.splitReports_right_iff hs _ _

/-- The notices of a round of growth. -/
theorem names_growNotices_iff (hinv : t.Inv p) (hg : t.globalDepth ≤ 31) (hids : t.IdsFirst)
    {hash : UInt64} (hlt : (t.seg (t.segmentId hash)).localDepth < 31) :
    ((∀ n ∈ t.growNotices p (t.segmentId hash) hash, n.Names) ↔
      (t.seg (t.segmentId hash)).SplitFits p ∧ (t.seg (t.segmentId hash)).StashStays p) ∧
    (t.grow p (t.segmentId hash) hash).1.1.IdsFirst := by
  obtain ⟨hprep, hid⟩ := prepared_prepare p hinv hg hlt
  obtain ⟨id, hseg⟩ := seg_prepare hinv hash hlt
  have hids₁ := idsFirst_prepare hinv hids (t.segmentId hash) hash
  have hlt₁ := hprep.lt
  rw [grow_eq_prepare]
  unfold growNotices
  dsimp only
  generalize t.prepare (t.segmentId hash) hash = r at *
  obtain ⟨t₁, sid⟩ := r
  dsimp only at *
  have hg₁ : t₁.globalDepth ≤ 31 := by
    rw [hprep.globalDepth]
    omega
  have hsid : sid < 2 ^ t₁.globalDepth := hid ▸ segmentId_lt hg₁ hash
  rw [← hid] at hlt₁
  refine ⟨?_, idsFirst_split hprep.inv hg₁ hids₁ hsid hlt₁⟩
  rw [names_splitNotices_iff hprep.inv hg₁ hids₁ hsid hlt₁, hseg]
  exact Iff.rfl

/-! ### The loop -/

/-- **The notices of an insertion**, and the ids it leaves. -/
theorem names_insertLoopNotices_iff (key : K) (value : V) (mode : InsertMode) (fuel : Nat)
    (hinv : t.Inv p) (hids : t.IdsFirst) {out : InsertOut K V}
    (hout : insertLoop p key value mode fuel t (t.segmentId (p.hashFn key)) = some out)
    (hg : out.table.globalDepth ≤ 31) :
    ((∀ n ∈ insertLoopNotices p key value mode fuel t (t.segmentId (p.hashFn key)), n.Names) ↔
      ∀ s ∈ insertLoopSplits p key value mode fuel t (t.segmentId (p.hashFn key)),
        s.SplitFits p ∧ s.StashStays p) ∧ out.table.IdsFirst := by
  induction fuel generalizing t out with
  | zero => cases hout
  | succ fuel ih =>
    have hg' : t.globalDepth ≤ 31 :=
      Nat.le_trans (globalDepth_insertLoop p key value mode _ t _ hout) hg
    have hsid := segmentId_lt hg' (p.hashFn key)
    have hattempt := names_attemptNotices hinv hg' hids hsid key value mode
    unfold insertLoop at hout
    unfold insertLoopNotices insertLoopSplits
    rcases tryTarget_cases p (hinv.segInv _ hsid) key value mode with
      ⟨hnone, -, hseg⟩ | ⟨it, hit, hres, hplaced, -⟩ | ⟨it, hit, hres, hseg, -⟩
    · simp only [hnone, hseg, setSeg_self, Option.map_eq_some_iff] at hout ⊢
      obtain ⟨out₁, hout₁, rfl⟩ := hout
      have hmono := Nat.le_trans (globalDepth_insertLoop p key value mode _ _ _ hout₁) hg
      obtain ⟨hgrew, hid⟩ := grew_grow p hinv (p.hashFn key) hmono
      obtain ⟨hgrow, hids'⟩ :=
        names_growNotices_iff hinv hg' hids (localDepth_lt_of_grow p hinv (p.hashFn key) hmono).2
      rw [hid] at hout₁ ⊢
      obtain ⟨hrest, hlast⟩ := ih hgrew.inv hids' hout₁ hg
      refine ⟨?_, hlast⟩
      rw [List.forall_mem_append, List.forall_mem_append, hgrow, hrest, List.forall_mem_cons]
      exact and_congr_left fun _ => and_iff_right hattempt
    · simp only [hit, hres, if_true, Option.some.injEq] at hout ⊢
      subst hout
      exact ⟨iff_of_true hattempt (by simp), hids.setSeg hplaced.localDepth.2⟩
    · simp only [hit, hres, hseg, setSeg_self, Bool.false_eq_true, if_false, Option.some.injEq]
        at hout ⊢
      subst hout
      exact ⟨iff_of_true hattempt (by simp), hids⟩

end Growth

/-! ### Runs -/

variable [Inhabited K] [Inhabited V]

/-- The operations of a run; `fuel` bounds the rounds of an insertion. -/
inductive TableOp (K V : Type) where
  | insert (key : K) (value : V) (mode : InsertMode) (fuel : Nat)
  | erase (key : K)
  | eraseIt (it : TableIter)
  | clear
deriving DecidableEq, Repr

/-- An insertion is a step when it returns with a directory of depth 31 or less, the
    erasure of an iterator when the iterator designates a busy slot. -/
def opStep (p : Policy K V) (t : Table K V) : TableOp K V → Option (Table K V)
  | .insert key value mode fuel =>
    (t.insertInternal p fuel key value mode).bind fun out =>
      if out.table.globalDepth ≤ 31 then some out.table else none
  | .erase key => some (t.erase p key).1
  | .eraseIt it =>
    if it.segId < t.segmentSize ∧ it.bucketId < p.kTotalBuckets ∧
        ((t.seg it.segId).bucket it.bucketId).isBusy it.slotId = true then
      some (t.eraseIt p it)
    else none
  | .clear => some (t.clear p)

/-- The notices of an operation. -/
def TableOp.notices (p : Policy K V) (t : Table K V) : TableOp K V → List (Notice K V)
  | .insert key value mode fuel => t.insertNotices p fuel key value mode
  | _ => []

/-- After the operation every segment has the id of its place, and every notice named
    real places. -/
def NamesPlaces (p : Policy K V) (t : Table K V) (op : TableOp K V) : Prop :=
  ∀ t', opStep p t op = some t' → (∀ n ∈ op.notices p t, n.Names) ∧ t'.IdsFirst

/-- An insertion only splits segments that fit and whose stash stays, and `Clear` moves
    no segment. -/
def Settles (p : Policy K V) (t : Table K V) : TableOp K V → Prop
  | .insert key value mode fuel =>
    ∀ s ∈ t.insertSplits p fuel key value mode, s.SplitFits p ∧ s.StashStays p
  | .clear => t.ClearMovesNothing
  | _ => True

instance (p : Policy K V) (t : Table K V) : ∀ op : TableOp K V, Decidable (Settles p t op)
  | .insert key value mode fuel =>
    inferInstanceAs (Decidable (∀ s ∈ t.insertSplits p fuel key value mode, _))
  | .erase _ => isTrue trivial
  | .eraseIt _ => isTrue trivial
  | .clear => inferInstanceAs (Decidable t.ClearMovesNothing)

theorem opStep_insert {key : K} {value : V} {mode : InsertMode} {fuel : Nat}
    (h : opStep p t (.insert key value mode fuel) = some t') :
    ∃ out, t.insertInternal p fuel key value mode = some out ∧ out.table.globalDepth ≤ 31 ∧
      out.table = t' := by
  obtain ⟨out, hout, hif⟩ := Option.bind_eq_some_iff.mp h
  split at hif
  · exact ⟨out, hout, ‹_›, Option.some.inj hif⟩
  · cases hif

theorem opStep_eraseIt {it : TableIter} (h : opStep p t (.eraseIt it) = some t') :
    (it.segId < t.segmentSize ∧ it.bucketId < p.kTotalBuckets ∧
      ((t.seg it.segId).bucket it.bucketId).isBusy it.slotId = true) ∧ t.eraseIt p it = t' := by
  obtain ⟨hbusy, heq⟩ := Option.ite_none_right_eq_some.mp h
  exact ⟨hbusy, Option.some.inj heq⟩

theorem reachable_step {op : TableOp K V} (h : Reachable p t) (hstep : opStep p t op = some t') :
    Reachable p t' := by
  cases op with
  | insert key value mode fuel =>
    obtain ⟨out, hout, hg, rfl⟩ := opStep_insert hstep
    exact .insert key value mode fuel h hout hg
  | erase key => exact Option.some.inj hstep ▸ .erase key h
  | eraseIt it =>
    obtain ⟨⟨hseg, hbucket, hbusy⟩, rfl⟩ := opStep_eraseIt hstep
    exact .eraseIt it h hseg hbucket hbusy
  | clear => exact Option.some.inj hstep ▸ .clear h

/-- The runs reach the reachable tables and no others. -/
theorem reachable_iff_run : Reachable p t ↔
    ∃ capacityLog ≤ 30, ∃ ops, run (opStep p) (new p capacityLog) ops = some t := by
  constructor
  · intro h
    have hsnoc : ∀ {t t' : Table K V} (op : TableOp K V), opStep p t op = some t' →
        (∃ capacityLog ≤ 30, ∃ ops, run (opStep p) (new p capacityLog) ops = some t) →
        ∃ capacityLog ≤ 30, ∃ ops, run (opStep p) (new p capacityLog) ops = some t' := by
      rintro t t' op hstep ⟨capacityLog, hlog, ops, hrun⟩
      refine ⟨capacityLog, hlog, ops ++ [op], run_append_eq_some.mpr ⟨t, hrun, ?_⟩⟩
      exact run_cons_eq_some.mpr ⟨t', hstep, rfl⟩
    induction h with
    | new capacityLog hlog => exact ⟨capacityLog, hlog, [], rfl⟩
    | @insert t key value mode fuel out _ hout hg ih =>
      refine hsnoc (.insert key value mode fuel) ?_ ih
      simp [opStep, hout, hg]
    | erase key _ ih => exact hsnoc (.erase key) rfl ih
    | eraseIt it _ hseg hbucket hbusy ih =>
      exact hsnoc (.eraseIt it) (if_pos ⟨hseg, hbucket, hbusy⟩) ih
    | clear _ ih => exact hsnoc .clear rfl ih
  · rintro ⟨capacityLog, hlog, ops, hrun⟩
    exact inv_run (C := fun _ _ => True) (fun _ _ _ h _ hstep => reachable_step h hstep)
      (.new capacityLog hlog) (fun _ _ _ _ _ _ => trivial) hrun

variable [p.Coherent]

/-- **One operation** on a reachable table whose ids are right. -/
theorem namesPlaces_iff_settles {op : TableOp K V} (h : Reachable p t) (hids : t.IdsFirst)
    (hstep : opStep p t op = some t') : NamesPlaces p t op ↔ Settles p t op := by
  have hrun := h.runInv
  have hname : NamesPlaces p t op ↔ (∀ n ∈ op.notices p t, n.Names) ∧ t'.IdsFirst := by
    unfold NamesPlaces
    rw [hstep]
    simp
  rw [hname]
  cases op with
  | insert key value mode fuel =>
    obtain ⟨out, hout, hg, rfl⟩ := opStep_insert hstep
    obtain ⟨hiff, hids'⟩ :=
      names_insertLoopNotices_iff key value mode fuel hrun.toInv hids hout hg
    exact (and_iff_left hids').trans hiff
  | erase key =>
    obtain rfl := Option.some.inj hstep
    exact iff_of_true ⟨by simp [TableOp.notices], hids.erase key⟩ trivial
  | eraseIt it =>
    obtain ⟨-, rfl⟩ := opStep_eraseIt hstep
    exact iff_of_true ⟨by simp [TableOp.notices], hids.eraseIt it⟩ trivial
  | clear =>
    obtain rfl := Option.some.inj hstep
    rw [and_iff_right (by simp [TableOp.notices])]
    exact idsFirst_clear_iff hrun.toInv hrun.initialDepth_le hids

/-- **The notices of a run.**  The ids are right from the constructor on and every
    `OnMove` of the run names real places exactly when no insertion of the run splits a
    segment that has too many migrants or whose stash does not stay, and no `Clear` moves
    a segment. -/
theorem namesPlaces_along_iff (capacityLog : Nat) (hlog : capacityLog ≤ 30)
    (ops : List (TableOp K V)) (hrun : run (opStep p) (new p capacityLog) ops = some t) :
    ((new p capacityLog : Table K V).IdsFirst ∧
        Along (opStep p) (NamesPlaces p) (new p capacityLog) ops) ↔
      Along (opStep p) (Settles p) (new p capacityLog) ops := by
  rw [and_iff_right (idsFirst_new hlog)]
  have hstart : Reachable p (new p capacityLog : Table K V) ∧
      (new p capacityLog : Table K V).IdsFirst := ⟨.new capacityLog hlog, idsFirst_new hlog⟩
  refine along_congr_of_run (I := fun t => Reachable p t ∧ t.IdsFirst) ?_ ?_ hstart hrun
  · rintro s op s' ⟨hreach, hids⟩ hstep
    exact namesPlaces_iff_settles hreach hids hstep
  · rintro s op s' ⟨hreach, hids⟩ hsettles hstep
    have hnames := (namesPlaces_iff_settles hreach hids hstep).mpr hsettles
    exact ⟨reachable_step hreach hstep, (hnames s' hstep).2⟩

/-! ### A split whose stash stays -/

/-- One slot to a bucket and three regular buckets to a segment. -/
def chain64 : Policy UInt64 UInt64 :=
  { narrow64 with
    kBucketNum := 3
    kBucketNum_pos := by decide
    kTotalBuckets_lt := by decide }

instance : chain64.Lawful where
  assignKey_eq _ _ := rfl
  assignValue_eq _ _ := rfl
  equal_iff _ _ := beq_iff_eq

/-- Six keys of home bucket 0 take two regular buckets and the stash, and one of home bucket 2 the
    third; it leaves in the split for an eighth key, and the others stay. -/
def settling : List (TableOp UInt64 UInt64) :=
  ((List.range 6).map (fun n => 2 ^ 63 + (1 + 3 * n) * 256) ++
    [2 ^ 63 + 2 ^ 62 + 512, 2 ^ 63 + 2 ^ 62]).map fun key =>
      .insert (UInt64.ofNat key) 0 .insertIfNotFound 2

theorem namesPlaces_along_settling :
    ∃ t, run (opStep chain64) (new chain64 1) settling = some t ∧ t.globalDepth = 2 ∧
      Along (opStep chain64) (NamesPlaces chain64) (new chain64 1) settling := by
  have hreads : (run (opStep chain64) (new chain64 1) settling).map (fun t => t.globalDepth) =
      some 2 := by decide +kernel
  obtain ⟨t, hrun, hdepth⟩ := Option.map_eq_some_iff.mp hreads
  have hsettles : Along (opStep chain64) (Settles chain64) (new chain64 1) settling := by
    decide +kernel
  exact ⟨t, hrun, hdepth, ((namesPlaces_along_iff 1 (by decide) settling hrun).mpr hsettles).2⟩

/-! ### Seven keys of one bucket -/

/-- Keys of home bucket 0, with the top bit of the hash set and the next one alternating. -/
def piledKey (n : Nat) : UInt64 := UInt64.ofNat (2 ^ 63 + n % 2 * 2 ^ 62 + 512 * n)

def pile (n : Nat) : List (TableOp UInt64 UInt64) :=
  (List.range n).map fun n => .insert (piledKey n) 0 .insertIfNotFound 2

theorem pile_succ (n : Nat) :
    pile (n + 1) = pile n ++ [.insert (piledKey n) 0 .insertIfNotFound 2] := by
  unfold pile
  rw [List.range_succ, List.map_append, List.map_singleton]

/-- Six keys fill the second segment.  The seventh splits it, and the keys with the next
    bit set leave its stash from physical buckets 3 and 5, which are reported as 1 and 3.
    `Clear` then leaves the segment at index 1 the id 2. -/
theorem not_namesPlaces_pile :
    (∃ t, run (opStep narrow64) (new narrow64 1) (pile 7) = some t ∧
      ¬ Along (opStep narrow64) (NamesPlaces narrow64) (new narrow64 1) (pile 7)) ∧
    ∃ t, run (opStep narrow64) (new narrow64 1) (pile 7 ++ [.clear]) = some t ∧ ¬ t.IdsFirst := by
  have hsix : (run (opStep narrow64) (new narrow64 1) (pile 6)).map (fun t =>
      (opStep narrow64 t (.insert (piledKey 6) 0 .insertIfNotFound 2)).isSome &&
        ((t.insertNotices narrow64 2 (piledKey 6) 0 .insertIfNotFound).any
          fun n => n.source.bucketId != n.relocation.taken.bid)) = some true := by decide +kernel
  have hcleared : (run (opStep narrow64) (new narrow64 1) (pile 7 ++ [.clear])).map (fun t =>
      (t.segmentSize, (t.seg 1).segmentId)) = some (2, 2) := by decide +kernel
  constructor
  · obtain ⟨t, hrun, hcheck⟩ := Option.map_eq_some_iff.mp hsix
    obtain ⟨hstep, hwrong⟩ := Bool.and_eq_true_iff.mp hcheck
    obtain ⟨t', hstep⟩ := Option.isSome_iff_exists.mp hstep
    obtain ⟨n, hn, hbid⟩ := List.any_eq_true.mp hwrong
    rw [pile_succ]
    refine ⟨t', run_append_eq_some.mpr ⟨t, hrun, run_cons_eq_some.mpr ⟨t', hstep, rfl⟩⟩, ?_⟩
    intro hall
    have hnames := (hall (pile 6) _ [] t rfl hrun t' hstep).1 n hn
    exact absurd hnames.source.2.2 (bne_iff_ne.mp hbid)
  · obtain ⟨t, hrun, hcheck⟩ := Option.map_eq_some_iff.mp hcleared
    obtain ⟨hsize, hid⟩ := Prod.mk.inj hcheck
    refine ⟨t, hrun, fun hids => ?_⟩
    have hlt := (hids.segment_segmentId (i := 1) (by omega)).1
    omega

end Table

end StorageEngine.DashTable
