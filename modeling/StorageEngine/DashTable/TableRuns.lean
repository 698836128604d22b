/-
  StorageEngine/DashTable/TableRuns.lean
  ======================================
  **The directory over whole runs.**

  The tables reached from the constructor by insertions in either mode, erasures and
  `Clear`.  Splits that drop entries are allowed here: the directory does not depend
  on whether the entries of a split found room.
-/
import StorageEngine.DashTable.TableErase

namespace StorageEngine.DashTable

open StorageEngine SlotStore

variable {K V : Type} [Inhabited K] [Inhabited V]

namespace Table

variable (p : Policy K V)

/-- The tables reached from a constructed one.  An insertion that returns is a step with
    the splits and doublings it caused, as long as the directory does not outgrow depth
    31; an erased iterator designates a busy slot. -/
inductive Reachable : Table K V → Prop where
  | new (capacityLog : Nat) (hlog : capacityLog ≤ 30) : Reachable (new p capacityLog)
  | insert {t : Table K V} (key : K) (value : V) (mode : InsertMode) (fuel : Nat)
      {out : InsertOut K V} (h : Reachable t)
      (hout : t.insertInternal p fuel key value mode = some out)
      (hg : out.table.globalDepth ≤ 31) : Reachable out.table
  | erase {t : Table K V} (key : K) (h : Reachable t) : Reachable (t.erase p key).1
  | eraseIt {t : Table K V} (it : TableIter) (h : Reachable t) (hseg : it.segId < t.segmentSize)
      (hbucket : it.bucketId < p.kTotalBuckets)
      (hbusy : ((t.seg it.segId).bucket it.bucketId).isBusy it.slotId = true) :
      Reachable (t.eraseIt p it)
  | clear {t : Table K V} (h : Reachable t) : Reachable (t.clear p)

/-! ### The steps -/

variable [p.Coherent]

omit [Inhabited K] [Inhabited V] in
/-- `Erase(key)`: nothing, or a pair with an equal key is gone. -/
theorem erase_spec {t : Table K V} (hinv : t.Inv p) (hg : t.globalDepth ≤ 31) (key : K) :
    ((t.erase p key) = (t, 0) ∧
      ∀ k, p.equal k key = true → ∀ v, (k, v) ∉ t.entries p) ∨
    ∃ k v, p.equal k key = true ∧ (t.erase p key).2 = 1 ∧ (t.erase p key).1.Inv p ∧
      (k, v) ::ₘ (t.erase p key).1.entries p = t.entries p ∧
      (t.erase p key).1.size = t.size - 1 ∧
      (t.erase p key).1.globalDepth = t.globalDepth ∧
      (t.erase p key).1.initialDepth = t.initialDepth := by
  have hsid := segmentId_lt hg (p.hashFn key)
  unfold erase
  dsimp only
  cases hfound : (t.seg (t.segmentId (p.hashFn key))).findIt p (p.hashFn key) (eqPred p key) with
  | none =>
    exact Or.inl ⟨rfl, fun k hequal => hinv.not_mem_of_findIt p hg hfound hequal⟩
  | some it =>
    obtain ⟨hidx, e, he, hequal⟩ := equal_of_findIt p (hinv.segInv _ hsid).slotsWF hfound
    obtain ⟨hinv', hentries⟩ := erased_spec p hinv hsid hidx he
    rw [Policy.Coherent.hashFn_eq _ _ hequal] at hinv' hentries
    exact Or.inr ⟨e.key, e.value, hequal, rfl, hinv'.withSize _, hentries, rfl, rfl, rfl⟩

omit [Inhabited K] [Inhabited V] [p.Coherent] in
/-- `Erase(iterator)` at a busy slot. -/
theorem eraseIt_spec {t : Table K V} (hinv : t.Inv p) {it : TableIter}
    (hseg : it.segId < 2 ^ t.globalDepth) (hbucket : it.bucketId < p.kTotalBuckets)
    {e : Entry K V} (he : t.cellAt it = some e) :
    (t.eraseIt p it).Inv p ∧ (e.key, e.value) ::ₘ (t.eraseIt p it).entries p = t.entries p := by
  have hkey : ((t.seg it.segId).bucket it.bucketId).key it.slotId = e.key :=
    (Bucket.key_of_cell he).1
  obtain ⟨hinv', hentries⟩ := erased_spec p hinv hseg (show it.iter.index < _ from hbucket) he
  unfold eraseIt
  dsimp only
  rw [hkey]
  exact ⟨hinv'.withSize _, hentries⟩

/-- What holds of every table of a run. -/
structure RunInv (t : Table K V) : Prop extends t.Inv p where
  globalDepth_le : t.globalDepth ≤ 31
  initialDepth_le : t.initialDepth ≤ 30

theorem Reachable.runInv {t : Table K V} (h : Reachable p t) : t.RunInv p := by
  induction h with
  | new capacityLog hlog =>
    obtain ⟨hinv, -, -, hgd, hinit⟩ := inv_new (V := V) p hlog
    exact ⟨hinv, by omega, by omega⟩
  | insert key value mode fuel _ hout hg ih =>
    obtain ⟨mid, hspec⟩ := insertLoop_spec p key value mode fuel ih.toInv hout hg
    exact ⟨hspec.inv, hg, hspec.initialDepth ▸ ih.initialDepth_le⟩
  | @erase t key _ ih =>
    rcases erase_spec p ih.toInv ih.globalDepth_le key with
      ⟨hsame, -⟩ | ⟨k, v, -, -, hinv, -, -, hgd, hinit⟩
    · rw [hsame]
      exact ih
    · exact ⟨hinv, hgd ▸ ih.globalDepth_le, hinit ▸ ih.initialDepth_le⟩
  | @eraseIt t it _ hseg hbucket hbusy ih =>
    rw [ih.segmentSize] at hseg
    have hinv := (eraseIt_spec p ih.toInv hseg hbucket (Segment.cell_of_isBusy hbusy)).1
    exact ⟨hinv, ih.globalDepth_le, ih.initialDepth_le⟩
  | @clear t _ ih =>
    have hc := cleared_clear p ih.toInv ih.initialDepth_le
    have hgd := hc.globalDepth
    have hinit := hc.initialDepth
    have := ih.initialDepth_le
    exact ⟨hc.inv, by omega, by omega⟩

/-! ### The directory -/

omit [Inhabited K] [Inhabited V] [p.Coherent] in
/-- The directory indices of a segment form one aligned block. -/
theorem Inv.block {t : Table K V} (h : t.Inv p) {i : Nat} (hi : i < 2 ^ t.globalDepth) :
    let chunk := 2 ^ (t.globalDepth - (t.seg i).localDepth)
    let start := i / chunk * chunk
    start + chunk ≤ 2 ^ t.globalDepth ∧
      ∀ j < 2 ^ t.globalDepth, t.segment j = t.segment i ↔ start ≤ j ∧ j < start + chunk := by
  intro chunk start
  have hpos : 0 < chunk := Nat.pow_pos (by decide)
  have hle : (t.seg i).localDepth ≤ t.globalDepth := h.aligned.depth_le i hi
  have hpow : 2 ^ t.globalDepth = 2 ^ (t.seg i).localDepth * chunk := by
    rw [← pow_add, Nat.add_sub_cancel' hle]
  constructor
  · rw [hpow, ← Nat.succ_mul]
    apply Nat.mul_le_mul_right
    rw [hpow] at hi
    exact Nat.div_lt_of_lt_mul (by rwa [Nat.mul_comm] at hi)
  · intro j hj
    rw [h.aligned.eq_iff i hi j hj, show t.depthOf (t.segment i) = (t.seg i).localDepth from rfl,
      Nat.div_eq_iff hpos]
    exact and_congr_right fun _ => (Nat.lt_iff_le_pred (Nat.add_pos_right _ hpos)).symm

/-- **The extendible directory.**  In every reachable table the directory has
    `2 ^ global_depth_` entries; the indices of a segment form one aligned block of the
    length its local depth says; a stored key belongs to the block that its hash leads
    to; the counters agree with the number of distinct segments; `IterateDistinct`
    visits each of these exactly once; and `Clear` restores the initial directory. -/
theorem reachable_directory {t : Table K V} (h : Reachable p t) :
    t.segmentSize = 2 ^ t.globalDepth ∧
    (∀ i < t.segmentSize, (t.seg i).localDepth ≤ t.globalDepth ∧
      ∃ start, 2 ^ (t.globalDepth - (t.seg i).localDepth) ∣ start ∧
        start + 2 ^ (t.globalDepth - (t.seg i).localDepth) ≤ t.segmentSize ∧
        ∀ j < t.segmentSize, t.segment j = t.segment i ↔
          start ≤ j ∧ j < start + 2 ^ (t.globalDepth - (t.seg i).localDepth)) ∧
    (∀ i < t.segmentSize, ∀ b < p.kTotalBuckets, ∀ k, ((t.seg i).bucket b).isBusy k = true →
      hashTop (t.seg i).localDepth (p.hashFn (((t.seg i).bucket b).key k)) =
        i / 2 ^ (t.globalDepth - (t.seg i).localDepth) ∧
      t.segmentId (p.hashFn (((t.seg i).bucket b).key k)) < t.segmentSize ∧
      t.segment (t.segmentId (p.hashFn (((t.seg i).bucket b).key k))) = t.segment i) ∧
    (t.uniqueSegments.toNat = ((Finset.range t.segmentSize).image t.segment).card ∧
      t.bucketCount = t.uniqueSegments * numBuckets p) ∧
    ((t.iterateDistinct.map t.segment).Nodup ∧
      ∀ ptr, ptr ∈ t.iterateDistinct.map t.segment ↔ ∃ i < t.segmentSize, t.segment i = ptr) ∧
    ((t.clear p).globalDepth = t.initialDepth ∧ (t.clear p).segmentSize = 2 ^ t.initialDepth ∧
      ∀ i < 2 ^ t.initialDepth, ∀ j < 2 ^ t.initialDepth,
        (t.clear p).segment i = (t.clear p).segment j → i = j) := by
  have hrun := h.runInv
  have hinv := hrun.toInv
  have hsize := hinv.segmentSize
  rw [hsize]
  refine ⟨rfl, ?_, ?_, ⟨hinv.unique, hinv.buckets⟩, ?_, ?_⟩
  · intro i hi
    obtain ⟨hend, hblock⟩ := hinv.block p hi
    exact ⟨hinv.aligned.depth_le i hi, _, Nat.dvd_mul_left _ _, hend, hblock⟩
  · intro i hi b hb k hbusy
    have hcell := Segment.cell_of_isBusy hbusy
    have hslot := Segment.slot_lt_of_cell p (hinv.segInv i hi).slotsWF hcell
    have hmem : (((t.seg i).bucket b).key k, ((t.seg i).bucket b).value k) ∈
        (t.seg i).contents p :=
      (Segment.mem_contents p).mpr ⟨(b, k), (p.mem_cells).mpr ⟨hb, hslot⟩, _, hcell, rfl, rfl⟩
    exact ⟨hinv.hashPrefix i hi _ hmem, segmentId_lt hrun.globalDepth_le _,
      hinv.seg_of_mem hrun.globalDepth_le hi hmem⟩
  · have hwalk := hinv.aligned.walk_visits (Directory.isStart_zero _ _)
    have hmem := hinv.aligned.toFinset_visits
    rw [← hsize] at hwalk hmem
    refine ⟨hwalk.nodup, fun ptr => ?_⟩
    have := Finset.ext_iff.mp hmem ptr
    rwa [List.mem_toFinset, Directory.mem_items] at this
  · have hc := cleared_clear p hinv hrun.initialDepth_le
    have hgd := hc.globalDepth
    refine ⟨hgd, by rw [hc.inv.segmentSize, hgd], ?_⟩
    intro i hi j hj heq
    have hinj : Set.InjOn (t.clear p).segment (Finset.range (2 ^ t.initialDepth)) := by
      rw [← Finset.card_image_iff, Finset.card_range, ← hgd]
      exact hc.items.trans (by rw [hgd])
    exact hinj (Finset.mem_coe.mpr (Finset.mem_range.mpr hi))
      (Finset.mem_coe.mpr (Finset.mem_range.mpr hj)) heq

/-! ### A table that grows -/

/-- Insertions one after the other, as long as they return and drop nothing. -/
def insertAll (fuel : Nat) : Table K V → List (K × V) → Option (Table K V)
  | t, [] => some t
  | t, (key, value) :: l =>
    (t.insertInternal p fuel key value .insertIfNotFound).bind fun out =>
      if out.dropped.isEmpty ∧ out.table.globalDepth ≤ 31 then insertAll fuel out.table l else none

variable {p}

omit [p.Coherent] in
theorem insertAll_cons {fuel : Nat} {t t' : Table K V} {key : K} {value : V} {l : List (K × V)}
    (h : insertAll p fuel t ((key, value) :: l) = some t') :
    ∃ out, t.insertInternal p fuel key value .insertIfNotFound = some out ∧ out.dropped = [] ∧
      out.table.globalDepth ≤ 31 ∧ insertAll p fuel out.table l = some t' := by
  obtain ⟨out, hout, hrest⟩ := Option.bind_eq_some_iff.mp h
  obtain ⟨⟨hdropped, hdepth⟩, hrest⟩ := Option.ite_none_right_eq_some.mp hrest
  exact ⟨out, hout, List.isEmpty_iff.mp hdropped, hdepth, hrest⟩

omit [p.Coherent] in
theorem reachable_insertAll {fuel : Nat} {t t' : Table K V} {l : List (K × V)}
    (h : Reachable p t) (hrun : insertAll p fuel t l = some t') : Reachable p t' := by
  induction l generalizing t with
  | nil => exact Option.some.inj hrun ▸ h
  | cons x l ih =>
    obtain ⟨out, hout, -, hdepth, hrest⟩ := insertAll_cons hrun
    exact ih (.insert x.1 x.2 .insertIfNotFound fuel h hout hdepth) hrest

/-- Keys of both home buckets of `narrow64`, with the top bit of the hash set and the next one
    alternating. -/
def spreadKey (n : Nat) : UInt64 :=
  UInt64.ofNat (2 ^ 63 + n % 2 * 2 ^ 62 + n * 2 ^ 33 + n / 2 % 2 * 2 ^ 8)

def spreadPairs (n : Nat) : List (UInt64 × UInt64) :=
  (List.range n).map fun n => (spreadKey n, UInt64.ofNat n)

/-- Six keys fill the second of two segments, and the seventh splits it. -/
def grown64 (n : Nat) : Option (Table UInt64 UInt64) :=
  insertAll narrow64 2 (new narrow64 1) (spreadPairs n)

theorem reachable_grown64 {n : Nat} {t : Table UInt64 UInt64} (h : grown64 n = some t) :
    Reachable narrow64 t :=
  reachable_insertAll (.new 1 (by decide)) h

theorem reachable_directory_grown64 : ∃ t, grown64 7 = some t ∧ Reachable narrow64 t ∧
    t.segmentSize = 2 ^ t.globalDepth ∧ t.globalDepth = 2 ∧
    ((Finset.range 4).image t.segment).card = 3 := by
  have hreads : (grown64 7).map (fun t => (t.globalDepth, t.uniqueSegments)) = some (2, 3) := by
    decide +kernel
  obtain ⟨t, ht, hread⟩ := Option.map_eq_some_iff.mp hreads
  obtain ⟨hdepth, hunique⟩ := Prod.mk.inj hread
  have hreach := reachable_grown64 ht
  obtain ⟨hsize, -, -, ⟨hcard, -⟩, -⟩ := reachable_directory narrow64 hreach
  rw [hunique, hsize, hdepth] at hcard
  exact ⟨t, ht, hreach, hsize, hdepth, hcard.symm⟩

end Table

end StorageEngine.DashTable
