/-
  StorageEngine/DashTable/TableTermination.lean
  =============================================
  **The insert loop ends, and its shifts stay in range.**

  `InsertInternal` splits its target until the new pair fits.  A split may move
  nothing, so that the only thing that surely changes is the local depth of the
  target: it grows by one.  At local depth 31 every pair of the target agrees with the
  new key in the top 31 bits of the hash, and an attempt fails only when the home
  bucket alone holds `kSlotNum` pairs.  Fewer than `kSlotNum` such pairs in the table
  therefore bound the number of splits, and with it the depth of the directory.

  The shift expressions of the source are listed beside the functions they occur in,
  with the count in `int` arithmetic and the width of the shifted operand.
-/
import StorageEngine.DashTable.TableRuns

namespace StorageEngine.DashTable

open StorageEngine SlotStore

variable {K V : Type}

/-! ### Shift expressions -/

/-- A shift expression: its count and the width of the shifted operand. -/
structure Shift where
  count : Int
  width : Nat
deriving DecidableEq, Repr

/-- The shifts C++ defines. -/
def Shift.InRange (s : Shift) : Prop := 0 ≤ s.count ∧ s.count < s.width

/-- `Segment::Split`: `hash >> (64 - local_depth_)` with the incremented depth, and
    `1u << slot` for the slots `ForEachSlot` hands out. -/
def Segment.splitShifts (p : Policy K V) (s : Segment K V) : List Shift :=
  ⟨64 - ((s.localDepth + 1 : Nat) : Int), 64⟩ ::
    (List.range p.kSlotNum).map fun slot : Nat => ⟨(slot : Int), 32⟩

namespace Table

variable (p : Policy K V)

/-- `SegmentId`: `hash >> (64 - global_depth_)`, unless the depth is 0. -/
def segmentIdShifts (t : Table K V) : List Shift :=
  if t.globalDepth ≠ 0 then [⟨64 - (t.globalDepth : Int), 64⟩] else []

/-- `NextSeg`: `1u << (global_depth_ - segment_[sid]->local_depth())`. -/
def nextSegShifts (t : Table K V) (sid : Nat) : List Shift :=
  [⟨(t.globalDepth : Int) - (t.seg sid).localDepth, 32⟩]

/-- `IncreaseDepth`: `1ul << (new_depth - global_depth_)` and `1ul << new_depth`. -/
def increaseDepthShifts (t : Table K V) (newDepth : Nat) : List Shift :=
  [⟨(newDepth : Int) - t.globalDepth, 64⟩, ⟨newDepth, 64⟩]

/-- `Split`: `1u << (global_depth_ - source->local_depth())`, and `Segment::Split`. -/
def splitShifts (t : Table K V) (segId : Nat) : List Shift :=
  ⟨(t.globalDepth : Int) - (t.seg segId).localDepth, 32⟩ :: (t.seg segId).splitShifts p

/-- One round of growth. -/
def growShifts (t : Table K V) (sid : Nat) (hash : UInt64) : List Shift :=
  if (t.seg sid).localDepth = t.globalDepth then
    let t' := t.increaseDepth (t.globalDepth + 1)
    t.increaseDepthShifts (t.globalDepth + 1) ++ t'.segmentIdShifts ++
      t'.splitShifts p (t'.segmentId hash)
  else t.splitShifts p sid

section Loop

variable [Inhabited K] [Inhabited V]

/-- The loop of `InsertInternal`. -/
def insertLoopShifts (key : K) (value : V) (mode : InsertMode) :
    Nat → Table K V → Nat → List Shift
  | 0, _, _ => []
  | fuel + 1, t, sid =>
    let (r, _) := t.tryTarget p sid key value mode
    let t := t.setSeg sid r.seg
    match r.it with
    | some _ => []
    | none =>
      let ((t', sid'), _) := t.grow p sid (p.hashFn key)
      t.growShifts p sid (p.hashFn key) ++ insertLoopShifts key value mode fuel t' sid'

def insertShifts (fuel : Nat) (t : Table K V) (key : K) (value : V) (mode : InsertMode) :
    List Shift :=
  t.segmentIdShifts ++ insertLoopShifts p key value mode fuel t (t.segmentId (p.hashFn key))

end Loop

/-- The shifts of looking a table up: `SegmentId`, and `NextSeg` of any index. -/
def readShifts (t : Table K V) : List Shift :=
  t.segmentIdShifts ++ (List.range t.segmentSize).flatMap t.nextSegShifts

section InRange

variable {p} {t : Table K V}

theorem inRange_segmentIdShifts (hg : t.globalDepth ≤ 31) :
    ∀ sh ∈ t.segmentIdShifts, sh.InRange := by
  intro sh hsh
  unfold segmentIdShifts at hsh
  split at hsh
  · rw [List.mem_singleton] at hsh
    subst hsh
    simp only [Shift.InRange]
    omega
  · cases hsh

theorem inRange_splitShifts (hg : t.globalDepth ≤ 31) {sid : Nat}
    (hle : (t.seg sid).localDepth ≤ t.globalDepth) : ∀ sh ∈ t.splitShifts p sid, sh.InRange := by
  intro sh hsh
  have hslots := p.kSlotNum_le
  simp only [splitShifts, Segment.splitShifts, List.mem_cons, List.mem_map, List.mem_range] at hsh
  rcases hsh with rfl | rfl | ⟨slot, hslot, rfl⟩
  all_goals
    simp only [Shift.InRange]
    omega

theorem inRange_readShifts (hinv : t.Inv p) (hg : t.globalDepth ≤ 31) :
    ∀ sh ∈ t.readShifts, sh.InRange := by
  intro sh hsh
  rw [readShifts, List.mem_append, List.mem_flatMap] at hsh
  rcases hsh with hsh | ⟨sid, hsid, hsh⟩
  · exact inRange_segmentIdShifts hg sh hsh
  · rw [List.mem_range, hinv.segmentSize] at hsid
    have hle : (t.seg sid).localDepth ≤ t.globalDepth := hinv.aligned.depth_le sid hsid
    rw [nextSegShifts, List.mem_singleton] at hsh
    subst hsh
    simp only [Shift.InRange]
    omega

theorem inRange_growShifts (hinv : t.Inv p) (hg : t.globalDepth ≤ 31) {hash : UInt64}
    (hlt : (t.seg (t.segmentId hash)).localDepth < 31) :
    ∀ sh ∈ t.growShifts p (t.segmentId hash) hash, sh.InRange := by
  intro sh hsh
  unfold growShifts at hsh
  split at hsh
  · rename_i heq
    have hdoubled := doubled_increaseDepth hinv.segmentSize
    have hgd := hdoubled.globalDepth
    have hg₁ : (t.increaseDepth (t.globalDepth + 1)).globalDepth ≤ 31 := by omega
    dsimp only at hsh
    rw [List.mem_append, List.mem_append] at hsh
    rcases hsh with (hsh | hsh) | hsh
    · simp only [increaseDepthShifts, List.mem_cons, List.not_mem_nil, or_false] at hsh
      rcases hsh with rfl | rfl
      all_goals
        simp only [Shift.InRange]
        omega
    · exact inRange_segmentIdShifts hg₁ sh hsh
    · exact inRange_splitShifts hg₁
        ((hdoubled.inv hinv).aligned.depth_le _ (segmentId_lt hg₁ hash)) sh hsh
  · exact inRange_splitShifts hg (hinv.aligned.depth_le _ (segmentId_lt hg hash)) sh hsh

end InRange

/-! ### Failed attempts -/

/-- How many stored keys agree with a hash in its top 31 bits. -/
def sharing (t : Table K V) (hash : UInt64) : Nat :=
  (t.entries p).countP fun x => hashTop 31 (p.hashFn x.1) = hashTop 31 hash

end Table

namespace Segment

variable (p : Policy K V)

/-- A full bucket alone holds `kSlotNum` pairs. -/
theorem card_contents_of_full {s : Segment K V} {i : Nat} (hi : i < p.kTotalBuckets)
    (h : s.Full p i) : p.kSlotNum ≤ (s.contents p).card := by
  have hcard : ((Finset.range p.kSlotNum).map ⟨fun j => (i, j), Prod.mk_right_injective i⟩).card =
      p.kSlotNum := by
    rw [Finset.card_map, Finset.card_range]
  rw [← hcard]
  apply card_le_card_gather
  · intro x hx
    obtain ⟨j, hj, rfl⟩ := Finset.mem_map.mp hx
    exact (p.mem_cells).mpr ⟨hi, Finset.mem_range.mp hj⟩
  · intro x hx
    obtain ⟨j, hj, rfl⟩ := Finset.mem_map.mp hx
    exact h j (Finset.mem_range.mp hj)
  · intro x e
    exact Multiset.card_singleton _

end Segment

namespace Table

variable (p : Policy K V)

theorem card_le_of_tryTarget [p.Movable] {t : Table K V} {sid : Nat} (hinv : (t.seg sid).Inv p)
    {key : K} {value : V} {mode : InsertMode}
    (hnone : (t.tryTarget p sid key value mode).1.it = none) :
    p.kSlotNum ≤ ((t.seg sid).contents p).card := by
  have huniq : ((t.seg sid).insertUniq p key value (p.hashFn key) true).it = none := by
    cases mode with
    | forceInsert => exact hnone
    | insertIfNotFound =>
      simp only [tryTarget, Segment.insert] at hnone
      split at hnone
      · cases hnone
      · exact hnone
  rcases Segment.insertUniq_cases p hinv.slotsWF key value (p.hashFn key) true with
    ⟨-, -, hroom, -⟩ | ⟨it, hit, -⟩
  · exact Segment.card_contents_of_full p (p.lt_total_of_lt (p.homeIndex_lt _)) hroom.home
  · rw [huniq] at hit
    cases hit

/-- The pairs of a segment of local depth 31 share the prefix of every hash that leads
    there. -/
theorem Inv.card_le_sharing {t : Table K V} (hinv : t.Inv p) (hg : t.globalDepth ≤ 31)
    (hash : UInt64) (hdeep : (t.seg (t.segmentId hash)).localDepth = 31) :
    ((t.seg (t.segmentId hash)).contents p).card ≤ t.sharing p hash := by
  have hsid := segmentId_lt hg hash
  have hself := hinv.hashPrefix_self p hg hash
  have hall : ∀ x ∈ (t.seg (t.segmentId hash)).contents p,
      hashTop 31 (p.hashFn x.1) = hashTop 31 hash := by
    intro x hx
    have hx' := hinv.hashPrefix _ hsid x hx
    rw [← hself, hdeep] at hx'
    exact hx'
  unfold sharing
  rw [entries_eq p t hsid, Multiset.countP_add, Multiset.countP_eq_card.mpr hall]
  exact Nat.le_add_right _ _

/-- An attempt that finds no room leaves a depth to split. -/
theorem Inv.localDepth_lt [p.Movable] {t : Table K V} (hinv : t.Inv p) (hg : t.globalDepth ≤ 31)
    {key : K} {value : V} {mode : InsertMode} (hfew : t.sharing p (p.hashFn key) < p.kSlotNum)
    (hnone : (t.tryTarget p (t.segmentId (p.hashFn key)) key value mode).1.it = none) :
    (t.seg (t.segmentId (p.hashFn key))).localDepth < 31 := by
  have hsid := segmentId_lt hg (p.hashFn key)
  have hle : (t.seg (t.segmentId (p.hashFn key))).localDepth ≤ t.globalDepth :=
    hinv.aligned.depth_le _ hsid
  have hcard := card_le_of_tryTarget p (hinv.segInv _ hsid) hnone
  by_contra hnot
  have hshare := hinv.card_le_sharing p hg (p.hashFn key) (by omega)
  omega

/-! ### The loop -/

variable [Inhabited K] [Inhabited V]

/-- A split makes the local depth of its target one larger. -/
theorem localDepth_split [p.Movable] {t : Table K V} (hinv : t.Inv p) (hg : t.globalDepth ≤ 31)
    {sid : Nat} (hsid : sid < 2 ^ t.globalDepth) (hlt : (t.seg sid).localDepth < t.globalDepth) :
    ((t.split p sid).1.seg sid).localDepth = (t.seg sid).localDepth + 1 := by
  obtain ⟨id, hhalved, -⟩ := halvedAt_split p hinv hg hsid hlt
  have hhalves := Segment.halves_split p (hinv.segInv sid hsid) ((t.seg sid).localDepth + 1) id
  rcases hhalved.cases hinv hsid hlt rfl hsid with
    ⟨-, -, -, hs⟩ | ⟨-, -, -, hs⟩ | ⟨hne, -, -⟩
  · rw [hs]
    exact hhalves.dest_depth
  · rw [hs]
    exact hhalves.source_depth
  · exact absurd rfl hne

variable [p.Coherent]

/-- **One round of the loop that does not return.** -/
structure Deepened (t t' : Table K V) (hash : UInt64) : Prop where
  inv : t'.Inv p
  globalDepth_le : t'.globalDepth ≤ 31
  localDepth : (t'.seg (t'.segmentId hash)).localDepth =
    (t.seg (t.segmentId hash)).localDepth + 1
  sharing_le : t'.sharing p hash ≤ t.sharing p hash

theorem deepened_grow {t : Table K V} (hinv : t.Inv p) (hg : t.globalDepth ≤ 31) {hash : UInt64}
    (hlt : (t.seg (t.segmentId hash)).localDepth < 31) :
    Deepened p t (t.grow p (t.segmentId hash) hash).1.1 hash ∧
      (t.grow p (t.segmentId hash) hash).1.2 =
        (t.grow p (t.segmentId hash) hash).1.1.segmentId hash := by
  obtain ⟨t₁, hprep, hgrow⟩ := prepared_grow p hinv hg hlt
  have hg₁ : t₁.globalDepth ≤ 31 := by
    rw [hprep.globalDepth]
    omega
  have hsid := segmentId_lt hg₁ hash
  have hgrew := grew_grow p hinv hash (by rw [hgrow]; exact hg₁)
  rw [hgrow] at hgrew ⊢
  refine ⟨⟨hgrew.1.inv, hg₁, ?_, ?_⟩, rfl⟩
  · have hdepth := localDepth_split p hprep.inv hg₁ hsid (hprep.lt p)
    rw [hprep.localDepth] at hdepth
    exact hdepth
  · -- a split only loses pairs
    unfold sharing
    rw [← hgrew.1.entries, Multiset.countP_add]
    exact Nat.le_add_right _ _

/-- The loop with one attempt more than the target has depths left. -/
theorem insertLoop_terminates (key : K) (value : V) (mode : InsertMode) (fuel : Nat)
    {t : Table K V} (hinv : t.Inv p) (hg : t.globalDepth ≤ 31)
    (hfew : t.sharing p (p.hashFn key) < p.kSlotNum)
    (hfuel : 31 - (t.seg (t.segmentId (p.hashFn key))).localDepth < fuel) :
    (∃ out, insertLoop p key value mode fuel t (t.segmentId (p.hashFn key)) = some out ∧
      out.table.globalDepth ≤ 31) ∧
    ∀ sh ∈ insertLoopShifts p key value mode fuel t (t.segmentId (p.hashFn key)), sh.InRange := by
  induction fuel generalizing t with
  | zero => omega
  | succ fuel ih =>
    have hsid := segmentId_lt hg (p.hashFn key)
    unfold insertLoop insertLoopShifts
    rcases tryTarget_cases p (hinv.segInv _ hsid) key value mode with
      ⟨hnone, -, hseg⟩ | ⟨it, hit, -⟩ | ⟨it, hit, -⟩
    · have hlt := hinv.localDepth_lt p hg hfew hnone
      obtain ⟨hdeep, hid⟩ := deepened_grow p hinv hg hlt
      have hnext := ih hdeep.inv hdeep.globalDepth_le (Nat.lt_of_le_of_lt hdeep.sharing_le hfew)
        (by rw [hdeep.localDepth]; omega)
      obtain ⟨⟨out, hout, hdepth⟩, hshifts⟩ := hnext
      simp only [hnone, hseg, setSeg_self]
      rw [hid, hout]
      refine ⟨⟨_, rfl, hdepth⟩, ?_⟩
      intro sh hsh
      rcases List.mem_append.mp hsh with hsh | hsh
      · exact inRange_growShifts hinv hg hlt sh hsh
      · exact hshifts sh hsh
    all_goals
      simp only [hit]
      refine ⟨⟨_, rfl, ?_⟩, by simp⟩
      dsimp only
      split <;> exact hg

/-- **`InsertInternal` terminates.**  When fewer than `kSlotNum` stored keys share the
    top 31 bits of the new key's hash, the loop returns after at most as many splits as
    the target is short of local depth 31 — one attempt more than splits —, the depth
    of the directory stays within 31, and every shift on the way and in later lookups
    is in range. -/
theorem insertInternal_terminates {t : Table K V} (h : Reachable p t) (key : K) (value : V)
    (mode : InsertMode) (hfew : t.sharing p (p.hashFn key) < p.kSlotNum) :
    let splits := 31 - (t.seg (t.segmentId (p.hashFn key))).localDepth
    ∃ out, t.insertInternal p (splits + 1) key value mode = some out ∧
      out.table.globalDepth ≤ 31 ∧
      (∀ sh ∈ t.insertShifts p (splits + 1) key value mode, sh.InRange) ∧
      ∀ sh ∈ out.table.readShifts, sh.InRange := by
  intro splits
  have hrun := h.runInv
  obtain ⟨⟨out, hout, hdepth⟩, hshifts⟩ := insertLoop_terminates p key value mode (splits + 1)
    hrun.toInv hrun.globalDepth_le hfew (Nat.lt_succ_self splits)
  obtain ⟨mid, hspec⟩ := insertLoop_spec p key value mode (splits + 1) hrun.toInv hout hdepth
  refine ⟨out, hout, hdepth, ?_, inRange_readShifts hspec.inv hdepth⟩
  intro sh hsh
  rcases List.mem_append.mp hsh with hsh | hsh
  · exact inRange_segmentIdShifts hrun.globalDepth_le sh hsh
  · exact hshifts sh hsh

/-- An insertion into a full segment, which is split. -/
theorem insertInternal_terminates_grown64 : ∃ t out, grown64 6 = some t ∧
    t.insertInternal narrow64 31 (spreadKey 6) 6 .forceInsert = some out ∧
    out.table.globalDepth ≤ 31 ∧ t.globalDepth < out.table.globalDepth := by
  have hreads : (grown64 6).map (fun t => (t.sharing narrow64 (spreadKey 6),
      (t.seg (t.segmentId (spreadKey 6))).localDepth)) = some (0, 1) := by decide +kernel
  obtain ⟨t, ht, hread⟩ := Option.map_eq_some_iff.mp hreads
  obtain ⟨hsharing, hdepth⟩ := Prod.mk.inj hread
  have hfew : t.sharing narrow64 (narrow64.hashFn (spreadKey 6)) < narrow64.kSlotNum := by
    show t.sharing narrow64 (spreadKey 6) < 1
    omega
  obtain ⟨out, hout, hle, -⟩ :=
    insertInternal_terminates narrow64 (reachable_grown64 ht) (spreadKey 6) 6 .forceInsert hfew
  rw [show narrow64.hashFn (spreadKey 6) = spreadKey 6 from rfl, hdepth] at hout
  have hgrows : ((grown64 6).bind fun t =>
      (t.insertInternal narrow64 31 (spreadKey 6) 6 .forceInsert).map fun out =>
        decide (t.globalDepth < out.table.globalDepth)) = some true := by decide +kernel
  rw [ht, Option.bind_some, hout, Option.map_some, Option.some_inj, decide_eq_true_eq] at hgrows
  exact ⟨t, out, ht, hout, hle, hgrows⟩

end Table

end StorageEngine.DashTable
