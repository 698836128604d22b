/-
  StorageEngine/Sharding/IteratorT.lean
  =====================================
  **Iterators that outlive a change of the table** (`sharding/db_slice.hpp`, class
  `DbSlice::IteratorT`).

  An iterator of a slice is a position of the table together with a key.  Before each use it
  is laundered: the position is kept if its slot is busy and still holds the key, else the
  key is looked up again.  The position is an index of the directory, and the directory may
  have doubled, have been split or have been compacted in between.

  Every access to `segment_` is checked here; `none` stands for one out of range.
-/
import StorageEngine.DashTable.TableMap
import Mathlib.Logic.Relation

namespace StorageEngine.Sharding

open StorageEngine.DashTable

variable {K V : Type}

section Checked

variable (p : Policy K V) (t : Table K V)

/-- `segment_[sid]`. -/
def segmentAt (sid : Nat) : Option (Segment K V) :=
  if sid < t.segmentSize then some (t.seg sid) else none

/-- `DashTable::Iterator::IsOccupied`. -/
def isOccupied (it : TableIter) : Option Bool :=
  if it.segId < t.segmentSize then
    (segmentAt t it.segId).map fun s => (s.bucket it.bucketId).isBusy it.slotId
  else some false

/-- `it->first`. -/
def keyAt (it : TableIter) : Option K :=
  (segmentAt t it.segId).map fun s => (s.bucket it.bucketId).key it.slotId

/-- `DashTable::Find`. -/
def findAt (key : K) : Option (Option TableIter) :=
  let sid := t.segmentId (p.hashFn key)
  (segmentAt t sid).map fun s =>
    (s.findIt p (p.hashFn key) (Table.eqPred p key)).map fun it => ⟨sid, it.index, it.slot⟩

end Checked

/-- `IteratorT`: the position, which is `none` for a done iterator, and the key. -/
structure IteratorT (K : Type) where
  it : Option TableIter
  key : K
deriving DecidableEq, Repr

namespace IteratorT

variable (p : Policy K V) (t : Table K V) (self : IteratorT K)

/-- `LaunderIfNeeded`. -/
def launderIfNeeded : Option (IteratorT K) :=
  match self.it with
  | none => some self
  | some it => do
    let occupied ← isOccupied t it
    let same ← if occupied then (keyAt t it).map fun first => p.equal first self.key else some false
    if same then some self
    else (findAt p t self.key).map fun found => { self with it := found }

/-- `GetInnerIt`. -/
def getInnerIt : Option (Option TableIter) := (self.launderIfNeeded p t).map IteratorT.it

end IteratorT

/-! ### Accesses in range -/

section InRange

variable {p : Policy K V} {t : Table K V}

theorem segmentAt_of_lt {sid : Nat} (h : sid < t.segmentSize) :
    segmentAt t sid = some (t.seg sid) :=
  if_pos h

theorem isOccupied_eq (it : TableIter) :
    isOccupied t it = some (decide (it.segId < t.segmentSize) &&
      ((t.seg it.segId).bucket it.bucketId).isBusy it.slotId) := by
  unfold isOccupied
  by_cases h : it.segId < t.segmentSize
  · rw [if_pos h, segmentAt_of_lt h, decide_eq_true h]
    rfl
  · rw [if_neg h, decide_eq_false h]
    rfl

/-- A lookup stays in range, and is the one of the table. -/
theorem findAt_eq (h : t.RunInv p) (key : K) : findAt p t key = some (t.find p key) := by
  have hsid : t.segmentId (p.hashFn key) < t.segmentSize :=
    h.segmentSize ▸ Table.segmentId_lt h.globalDepth_le _
  unfold findAt
  dsimp only
  rw [segmentAt_of_lt hsid]
  rfl

/-- Where the lookup leads to: an entry with the key, if there is one. -/
theorem find_designates [p.Lawful] (h : t.RunInv p) (key : K) :
    (∃ pos value, t.find p key = some pos ∧ t.Designates p pos key value) ∨
      (t.find p key = none ∧ ∀ value, (key, value) ∉ t.entries p) := by
  have hsid := Table.segmentId_lt h.globalDepth_le (p.hashFn key)
  unfold Table.find Table.findFirst
  dsimp only
  cases hfound : (t.seg (t.segmentId (p.hashFn key))).findIt p (p.hashFn key)
      (Table.eqPred p key) with
  | none =>
    exact Or.inr ⟨rfl, h.toInv.not_mem_of_findIt p h.globalDepth_le hfound (p.equal_self key)⟩
  | some it =>
    obtain ⟨hidx, e, he, hequal⟩ := Table.equal_of_findIt p (h.segInv _ hsid).slotsWF hfound
    obtain rfl := Policy.eq_of_equal hequal
    have hdes : t.Designates p ⟨t.segmentId (p.hashFn e.key), it.index, it.slot⟩ e.key e.value :=
      Table.designates_of_cellAt h.toInv hsid hidx he
    exact Or.inl ⟨_, e.value, rfl, hdes⟩

/-- What stands in a busy slot is an entry of the table. -/
theorem mem_entries_of_designates (h : t.RunInv p) {pos : TableIter} {key : K} {value : V}
    (hdes : t.Designates p pos key value) : (key, value) ∈ t.entries p := by
  obtain ⟨hseg, hbucket, hslot, hbusy, rfl, rfl⟩ := hdes
  rw [h.segmentSize] at hseg
  have hcell := Segment.cell_of_isBusy hbusy
  have hmem : (((t.seg pos.segId).bucket pos.bucketId).key pos.slotId,
      ((t.seg pos.segId).bucket pos.bucketId).value pos.slotId) ∈ (t.seg pos.segId).contents p :=
    (Segment.mem_contents p).mpr
      ⟨(pos.bucketId, pos.slotId), (p.mem_cells).mpr ⟨hbucket, hslot⟩, _, hcell, rfl, rfl⟩
  unfold Table.entries
  rw [Multiset.mem_sum]
  exact ⟨_, Directory.mem_items.mpr ⟨_, hseg, rfl⟩, hmem⟩

end InRange

/-! ### Laundering -/

section Launder

variable {p : Policy K V} [p.Lawful] {t : Table K V}

/-- The slot of the position is busy and holds the key. -/
def Current (t : Table K V) (it : TableIter) (key : K) : Prop :=
  it.segId < t.segmentSize ∧ ((t.seg it.segId).bucket it.bucketId).isBusy it.slotId = true ∧
    ((t.seg it.segId).bucket it.bucketId).key it.slotId = key

omit [p.Lawful] in
theorem current_of_designates {it : TableIter} {key : K} {value : V}
    (h : t.Designates p it key value) :
    Current t it key := ⟨h.1, h.2.2.2.1, h.2.2.2.2.1⟩

omit [p.Lawful] in
theorem keyAt_of_current {it : TableIter} {key : K} (h : Current t it key) :
    keyAt t it = some key := by
  unfold keyAt
  rw [segmentAt_of_lt h.1]
  exact congrArg some h.2.2

theorem getInnerIt_of_current {it : TableIter} {key : K} (h : Current t it key) :
    IteratorT.getInnerIt p t ⟨some it, key⟩ = some (some it) := by
  have hequal : p.equal key key = true := p.equal_self key
  unfold IteratorT.getInnerIt IteratorT.launderIfNeeded
  dsimp only
  rw [isOccupied_eq, keyAt_of_current h, decide_eq_true h.1, h.2.1]
  simp [hequal]

theorem getInnerIt_of_stale (hrun : t.RunInv p) {it : TableIter} {key : K}
    (h : ¬ Current t it key) :
    IteratorT.getInnerIt p t ⟨some it, key⟩ = some (t.find p key) := by
  unfold IteratorT.getInnerIt IteratorT.launderIfNeeded
  dsimp only
  rw [isOccupied_eq, findAt_eq hrun]
  by_cases hseg : it.segId < t.segmentSize
  · rw [keyAt, segmentAt_of_lt hseg]
    cases hbusy : ((t.seg it.segId).bucket it.bucketId).isBusy it.slotId with
    | false => simp
    | true =>
      have hkey : ¬ p.equal (((t.seg it.segId).bucket it.bucketId).key it.slotId) key = true :=
        fun hequal => h ⟨hseg, hbusy, Policy.eq_of_equal hequal⟩
      simp [hseg, hkey]
  · simp [hseg]

/-- **One use of an iterator**: it leads to a busy slot with its key, or it is done and no slot
    holds the key. -/
theorem getInnerIt_spec (h : t.RunInv p) {it : TableIter} (hbucket : it.bucketId < p.kTotalBuckets)
    (key : K) :
    (∃ pos value, IteratorT.getInnerIt p t ⟨some it, key⟩ = some (some pos) ∧
        t.Designates p pos key value) ∨
      (IteratorT.getInnerIt p t ⟨some it, key⟩ = some none ∧
        ∀ value, (key, value) ∉ t.entries p) := by
  by_cases hcurrent : Current t it key
  · rw [getInnerIt_of_current hcurrent]
    obtain ⟨hseg, hbusy, rfl⟩ := hcurrent
    rw [h.segmentSize] at hseg
    have hdes := Table.designates_of_cellAt h.toInv hseg hbucket (Segment.cell_of_isBusy hbusy)
    exact Or.inl ⟨it, _, rfl, hdes⟩
  · rw [getInnerIt_of_stale h hcurrent]
    rcases find_designates h key with ⟨pos, value, hfind, hdes⟩ | ⟨hfind, habsent⟩
    · exact Or.inl ⟨pos, value, congrArg some hfind, hdes⟩
    · exact Or.inr ⟨congrArg some hfind, habsent⟩

end Launder

/-! ### Stale iterators -/

section Later

variable [Inhabited K] [Inhabited V] (p : Policy K V)

/-- A step of the table.  An insertion that returns is one step with the displacements, the
    splits and the doublings it caused, as long as the directory does not outgrow depth 31. -/
inductive TableStep (t : Table K V) : Table K V → Prop where
  | insert (key : K) (value : V) (mode : InsertMode) (fuel : Nat) {out : Table.InsertOut K V}
      (hout : t.insertInternal p fuel key value mode = some out)
      (hg : out.table.globalDepth ≤ 31) : TableStep t out.table
  | erase (key : K) : TableStep t (t.erase p key).1
  | eraseIt (it : TableIter) (hseg : it.segId < t.segmentSize)
      (hbucket : it.bucketId < p.kTotalBuckets)
      (hbusy : ((t.seg it.segId).bucket it.bucketId).isBusy it.slotId = true) :
      TableStep t (t.eraseIt p it)
  | clear : TableStep t (t.clear p)

/-- The tables after any number of steps. -/
abbrev Later : Table K V → Table K V → Prop := Relation.ReflTransGen (TableStep p)

variable {p} {t₀ t : Table K V}

theorem TableStep.reachable (hstep : TableStep p t₀ t) (h : Table.Reachable p t₀) :
    Table.Reachable p t := by
  cases hstep with
  | insert key value mode fuel hout hg => exact .insert key value mode fuel h hout hg
  | erase key => exact .erase key h
  | eraseIt it hseg hbucket hbusy => exact .eraseIt it h hseg hbucket hbusy
  | clear => exact .clear h

theorem Later.reachable (hlater : Later p t₀ t) (h : Table.Reachable p t₀) :
    Table.Reachable p t := by
  induction hlater with
  | refl => exact h
  | tail _ hstep ih => exact hstep.reachable ih

/-- **Laundering is exact.**  An iterator that was made at an entry of a key leads, after any
    steps of the table, to a busy slot with this key if the table holds the key, and is done
    otherwise; no access on the way is out of range. -/
theorem getInnerIt_later [p.Lawful] (h₀ : Table.Reachable p t₀) {it : TableIter}
    {key : K} {value : V} (hheld : t₀.Designates p it key value) (hlater : Later p t₀ t) :
    ∃ found, IteratorT.getInnerIt p t ⟨some it, key⟩ = some found ∧
      ((∃ v, (key, v) ∈ t.entries p) → ∃ pos v, found = some pos ∧ t.Designates p pos key v) ∧
      ((∀ v, (key, v) ∉ t.entries p) → found = none) := by
  have hrun : t.RunInv p := (hlater.reachable h₀).runInv
  rcases getInnerIt_spec hrun hheld.2.1 key with ⟨pos, v, hinner, hdes⟩ | ⟨hinner, habsent⟩
  · refine ⟨some pos, hinner, fun _ => ⟨pos, v, rfl, hdes⟩, fun hnone => ?_⟩
    exact absurd (mem_entries_of_designates hrun hdes) (hnone v)
  · refine ⟨none, hinner, fun ⟨v, hv⟩ => ?_, fun _ => rfl⟩
    exact absurd hv (habsent v)

end Later

/-- An iterator at a key that a split then takes to another segment: it leads to the new place,
    and is done after `Clear`. -/
theorem getInnerIt_later_grown64 : ∃ t out v pos v', Table.grown64 6 = some t ∧
    t.Designates narrow64 ⟨1, 5, 0⟩ (Table.spreadKey 5) v ∧
    t.insertInternal narrow64 2 (Table.spreadKey 6) 6 .insertIfNotFound = some out ∧
    IteratorT.getInnerIt narrow64 out.table ⟨some ⟨1, 5, 0⟩, Table.spreadKey 5⟩ = some (some pos) ∧
    pos ≠ ⟨1, 5, 0⟩ ∧ out.table.Designates narrow64 pos (Table.spreadKey 5) v' ∧
    IteratorT.getInnerIt narrow64 (out.table.clear narrow64) ⟨some ⟨1, 5, 0⟩, Table.spreadKey 5⟩ =
      some none := by
  have hreads : ((Table.grown64 6).bind fun t =>
      (t.insertInternal narrow64 2 (Table.spreadKey 6) 6 .insertIfNotFound).map fun out =>
        ((t.find narrow64 (Table.spreadKey 5),
          (out.table.find narrow64 (Table.spreadKey 5)).isSome),
            ((out.table.seg 1).bucket 5).isBusy 0, decide (out.table.globalDepth ≤ 31))) =
      some ((some ⟨1, 5, 0⟩, true), false, true) := by decide +kernel
  obtain ⟨t, ht, hreads⟩ := Option.bind_eq_some_iff.mp hreads
  obtain ⟨out, hout, hreads⟩ := Option.map_eq_some_iff.mp hreads
  simp only [Prod.mk.injEq, decide_eq_true_eq] at hreads
  obtain ⟨⟨hbefore, hafter⟩, hleft, hdepth⟩ := hreads
  have hreach := Table.reachable_grown64 ht
  have hstep : TableStep narrow64 t out.table :=
    .insert (Table.spreadKey 6) 6 .insertIfNotFound 2 hout hdepth
  have hrun := (hstep.reachable hreach).runInv
  -- the iterator is made before the insertion
  obtain ⟨v, hheld⟩ : ∃ v, t.Designates narrow64 ⟨1, 5, 0⟩ (Table.spreadKey 5) v := by
    rcases find_designates hreach.runInv (Table.spreadKey 5) with ⟨pos, v, hfind, hdes⟩ | ⟨hnone, -⟩
    · exact ⟨v, Option.some.inj (hfind.symm.trans hbefore) ▸ hdes⟩
    · cases hnone.symm.trans hbefore
  -- the insertion keeps the key
  obtain ⟨found, hinner, hpos, -⟩ := getInnerIt_later hreach hheld (.single hstep)
  obtain ⟨pos, v', rfl, hdes⟩ := hpos (by
    rcases find_designates hrun (Table.spreadKey 5) with ⟨pos, v, -, hdes⟩ | ⟨hnone, -⟩
    · exact ⟨v, mem_entries_of_designates hrun hdes⟩
    · rw [hnone] at hafter
      cases hafter)
  have hmoved : pos ≠ ⟨1, 5, 0⟩ := by
    rintro rfl
    exact absurd hdes.2.2.2.1 (ne_true_of_eq_false hleft)
  -- nothing is left after `Clear`
  obtain ⟨found', hinner', -, hdone⟩ :=
    getInnerIt_later hreach hheld ((Relation.ReflTransGen.single hstep).tail .clear)
  obtain rfl := hdone fun w hw => by
    rw [(Table.cleared_clear narrow64 hrun.toInv hrun.initialDepth_le).entries] at hw
    exact absurd hw (Multiset.notMem_zero _)
  exact ⟨t, out, v, pos, v', ht, hheld, hout, hinner, hmoved, hdes, hinner'⟩

end StorageEngine.Sharding
