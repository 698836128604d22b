/-
  StorageEngine/DashTable/TableMap.lean
  =====================================
  **The table is a finite map.**

  The specification is a map with insert-if-absent.  A run of table operations is run
  on the map as well; the pairs stored in the table stay the entries of the map, and
  every answer of the table is the one the map gives.
-/
import StorageEngine.FiniteMap
import StorageEngine.DashTable.TableRuns

namespace StorageEngine.DashTable

open StorageEngine SlotStore FiniteMap

variable {K V : Type}

/-- The operations of a run.  `eraseFound` is `Erase` of the iterator that `Find`
    returns for the key. -/
inductive MapOp (K V : Type) where
  | insert (key : K) (value : V)
  | insertNew (key : K) (value : V)
  | erase (key : K)
  | eraseFound (key : K)
  | clear
  | find (key : K)

namespace MapOp

variable [DecidableEq K]

/-- The insert-if-absent map. -/
def apply (m : Finmap fun _ : K => V) : MapOp K V → Finmap fun _ : K => V
  | .insert key value => if key ∈ m then m else m.insert key value
  | .insertNew key value => m.insert key value
  | .erase key => m.erase key
  | .eraseFound key => m.erase key
  | .clear => ∅
  | .find _ => m

/-- `InsertNew` may only be called with an absent key. -/
def Allowed {K V : Type} (m : Finmap fun _ : K => V) : MapOp K V → Prop
  | .insertNew key _ => key ∉ m
  | _ => True

end MapOp

namespace Table

variable (p : Policy K V)

section Runs

variable [Inhabited K] [Inhabited V]

/-- The insertion returns, its splits find room for every entry, and the directory stays
    within depth 31. -/
def Inserts (t : Table K V) (key : K) (value : V) (mode : InsertMode) (out : InsertOut K V) :
    Prop :=
  (∃ fuel, t.insertInternal p fuel key value mode = some out) ∧ out.dropped = [] ∧
    out.table.globalDepth ≤ 31

inductive MapStep (t : Table K V) : MapOp K V → Table K V → Prop where
  | insert {key : K} {value : V} {out : InsertOut K V}
      (h : t.Inserts p key value .insertIfNotFound out) : MapStep t (.insert key value) out.table
  | insertNew {key : K} {value : V} {out : InsertOut K V}
      (h : t.Inserts p key value .forceInsert out) : MapStep t (.insertNew key value) out.table
  | erase (key : K) : MapStep t (.erase key) (t.erase p key).1
  | eraseFound {key : K} {it : TableIter} (h : t.find p key = some it) :
      MapStep t (.eraseFound key) (t.eraseIt p it)
  | clear : MapStep t .clear (t.clear p)
  | find (key : K) : MapStep t (.find key) t

/-- A run of the table, with the map after the same operations. -/
inductive MapRun [DecidableEq K] : Table K V → (Finmap fun _ : K => V) → Prop where
  | new (capacityLog : Nat) (hlog : capacityLog ≤ 30) : MapRun (new p capacityLog) ∅
  | step {t t' : Table K V} {m : Finmap fun _ : K => V} {op : MapOp K V} (h : MapRun t m)
      (hop : op.Allowed m) (hstep : t.MapStep p op t') : MapRun t' (op.apply m)

end Runs

/-- The iterator points to a busy slot that holds the pair. -/
def Designates (t : Table K V) (it : TableIter) (key : K) (value : V) : Prop :=
  it.segId < t.segmentSize ∧ it.bucketId < p.kTotalBuckets ∧ it.slotId < p.kSlotNum ∧
    ((t.seg it.segId).bucket it.bucketId).isBusy it.slotId = true ∧
    ((t.seg it.segId).bucket it.bucketId).key it.slotId = key ∧
    ((t.seg it.segId).bucket it.bucketId).value it.slotId = value

/-! ### The refinement -/

/-- The table stands for the map. -/
structure Refines (t : Table K V) (m : Finmap fun _ : K => V) : Prop extends t.RunInv p where
  represents : Represents (t.entries p) m
  size_eq : t.size = m.keys.card

variable {p}
variable {t : Table K V} {m : Finmap fun _ : K => V}

theorem designates_of_cellAt (hinv : t.Inv p) {it : TableIter} {e : Entry K V}
    (hseg : it.segId < 2 ^ t.globalDepth) (hbucket : it.bucketId < p.kTotalBuckets)
    (he : t.cellAt it = some e) : t.Designates p it e.key e.value := by
  obtain ⟨hkey, hvalue, -, -⟩ := Bucket.key_of_cell he
  exact ⟨hinv.segmentSize ▸ hseg, hbucket,
    Segment.slot_lt_of_cell p (hinv.segInv _ hseg).slotsWF he, Bucket.busy_of_cell he, hkey, hvalue⟩

/-- No two busy slots hold equal keys. -/
theorem Refines.slot_unique (h : t.Refines p m) {i i' b b' k k' : Nat}
    (hi : i < 2 ^ t.globalDepth) (hi' : i' < 2 ^ t.globalDepth) (hb : b < p.kTotalBuckets)
    (hb' : b' < p.kTotalBuckets) (hbusy : ((t.seg i).bucket b).isBusy k = true)
    (hbusy' : ((t.seg i').bucket b').isBusy k' = true)
    (heq : ((t.seg i).bucket b).key k = ((t.seg i').bucket b').key k') :
    t.segment i = t.segment i' ∧ b = b' ∧ k = k' := by
  have hcell := Segment.cell_of_isBusy hbusy
  have hcell' := Segment.cell_of_isBusy hbusy'
  have hmem := (p.mem_cells).mpr ⟨hb, Segment.slot_lt_of_cell p (h.segInv i hi).slotsWF hcell⟩
  have hmem' := (p.mem_cells).mpr ⟨hb', Segment.slot_lt_of_cell p (h.segInv i' hi').slotsWF hcell'⟩
  have hseg : t.segment i = t.segment i' := by
    have h₁ := h.toInv.seg_of_mem h.globalDepth_le hi
      ((Segment.mem_contents p).mpr ⟨_, hmem, _, hcell, rfl, rfl⟩)
    have h₂ := h.toInv.seg_of_mem h.globalDepth_le hi'
      ((Segment.mem_contents p).mpr ⟨_, hmem', _, hcell', rfl, rfl⟩)
    rw [← h₁, ← h₂, heq]
  refine ⟨hseg, ?_⟩
  by_contra hne
  have hcells : (b, k) ≠ (b', k') := fun hpair => hne (Prod.mk.inj hpair)
  have hsame : t.seg i' = t.seg i := seg_congr hseg.symm
  rw [hsame] at hcell' heq
  have hle := add_le_gather (c := fun _ (e : Entry K V) => ({(e.key, e.value)} : Multiset (K × V)))
    hmem hmem' hcells hcell hcell'
  dsimp only at hle
  rw [← heq] at hle
  refine h.represents.not_pair_le (hle.trans ?_)
  rw [entries_eq p t hi]
  exact Multiset.le_add_right _ _

section Lookup

variable [p.Lawful]

/-- A found slot holds the key with the value of the map. -/
theorem Refines.found [DecidableEq K] (h : t.Refines p m) {key : K} {it : Iter}
    (hfound : (t.seg (t.segmentId (p.hashFn key))).findIt p (p.hashFn key) (eqPred p key) =
      some it) : ∃ e, (t.seg (t.segmentId (p.hashFn key))).cell it.at = some e ∧
      it.index < p.kTotalBuckets ∧ e.key = key ∧ m.lookup key = some e.value := by
  have hsid := segmentId_lt h.globalDepth_le (p.hashFn key)
  obtain ⟨hidx, e, he, hequal⟩ := equal_of_findIt p (h.segInv _ hsid).slotsWF hfound
  obtain rfl := Policy.eq_of_equal hequal
  refine ⟨e, he, hidx, rfl, ?_⟩
  rw [h.represents.lookup_eq_some, h.toInv.mem_entries h.globalDepth_le, Segment.mem_contents]
  exact ⟨it.at, (p.mem_cells).mpr
    ⟨hidx, Segment.slot_lt_of_cell p (h.segInv _ hsid).slotsWF he⟩, e, he, rfl, rfl⟩

theorem Refines.notFound (h : t.Refines p m) {key : K}
    (hfound : (t.seg (t.segmentId (p.hashFn key))).findIt p (p.hashFn key) (eqPred p key) = none) :
    key ∉ m := by
  rw [h.represents.mem_keys]
  rintro ⟨v, hv⟩
  exact h.toInv.not_mem_of_findIt p h.globalDepth_le hfound (p.equal_self key) v hv

/-- `Find` answers as the map does. -/
theorem Refines.find_spec [DecidableEq K] (h : t.Refines p m) (key : K) :
    match t.find p key with
    | none => m.lookup key = none
    | some it => ∃ v, m.lookup key = some v ∧ t.Designates p it key v := by
  have hsid := segmentId_lt h.globalDepth_le (p.hashFn key)
  unfold find findFirst
  dsimp only
  cases hfound : (t.seg (t.segmentId (p.hashFn key))).findIt p (p.hashFn key) (eqPred p key) with
  | none => exact Finmap.lookup_eq_none.mpr (h.notFound hfound)
  | some it =>
    obtain ⟨e, he, hidx, rfl, hlookup⟩ := h.found hfound
    have hdes : t.Designates p ⟨t.segmentId (p.hashFn e.key), it.index, it.slot⟩ e.key e.value :=
      designates_of_cellAt h.toInv hsid hidx he
    exact ⟨e.value, hlookup, hdes⟩

end Lookup

/-! ### The steps -/

variable [p.Lawful]

section Insert

variable [Inhabited K] [Inhabited V]

omit [p.Lawful] in
/-- An insertion of a key that the target segment finds returns at once. -/
theorem insertInternal_of_found {key : K} {value : V} {fuel : Nat} {out : InsertOut K V} {it : Iter}
    (hfound : (t.seg (t.segmentId (p.hashFn key))).findIt p (p.hashFn key) (eqPred p key) = some it)
    (hout : t.insertInternal p fuel key value .insertIfNotFound = some out) : out.table = t := by
  cases fuel with
  | zero => cases hout
  | succ fuel =>
    unfold insertInternal insertLoop at hout
    simp only [tryTarget, Segment.insert, hfound, setSeg_self, Bool.false_eq_true, if_false,
      Option.some.injEq] at hout
    rw [← hout]

variable [DecidableEq K]

/-- **Insertion** in either mode, `InsertNew` with an absent key only. -/
theorem Refines.insert_spec (h : t.Refines p m) {key : K} {value : V} {mode : InsertMode}
    {out : InsertOut K V} (hout : t.Inserts p key value mode out)
    (hnew : mode = .forceInsert → key ∉ m) :
    out.table.Refines p (if key ∈ m then m else m.insert key value) ∧
      (out.inserted = true ↔ key ∉ m) ∧
      out.table.Designates p out.it key ((m.lookup key).getD value) ∧
      (out.inserted = false → out.table = t) := by
  obtain ⟨⟨fuel, hfuel⟩, hdropped, hg⟩ := hout
  obtain ⟨mid, hspec⟩ := insertLoop_spec p key value mode fuel h.toInv hfuel hg
  have hmid : mid = t.entries p := by
    have := hspec.mid_eq
    rwa [hdropped, Multiset.coe_nil, add_zero] at this
  subst hmid
  have hinit : out.table.initialDepth ≤ 30 := hspec.initialDepth ▸ h.initialDepth_le
  have hseg : out.it.segId < 2 ^ out.table.globalDepth := hspec.valid.1 ▸ segmentId_lt hg _
  rcases hspec.cases with ⟨hins, hentries, hsize, habsent, e, he, rfl, rfl⟩ |
    ⟨hins, hmode, hentries, hsize, e, he, hequal, hmem⟩
  · have hk : e.key ∉ m := by
      cases mode with
      | forceInsert => exact hnew rfl
      | insertIfNotFound =>
        rw [h.represents.mem_keys]
        rintro ⟨v, hv⟩
        exact habsent rfl _ (p.equal_self _) v hv
    have hrep := h.represents.insert hk e.value
    rw [if_neg hk, hins, Finmap.lookup_eq_none.mpr hk]
    refine ⟨⟨⟨hspec.inv, hg, hinit⟩, hentries ▸ hrep, ?_⟩, ⟨fun _ => hk, fun _ => rfl⟩,
      designates_of_cellAt hspec.inv hseg hspec.valid.2 he, fun hf => by cases hf⟩
    rw [hsize, h.size_eq, ← h.represents.card, ← hrep.card, Multiset.card_cons]
  · obtain rfl := Policy.eq_of_equal hequal
    have hlookup := h.represents.lookup_eq_some.mpr hmem
    have hk : e.key ∈ m := Finmap.mem_of_lookup_eq_some hlookup
    rw [if_pos hk, hins, hlookup]
    refine ⟨⟨⟨hspec.inv, hg, hinit⟩, hentries ▸ h.represents, hsize ▸ h.size_eq⟩,
      ⟨Bool.false_ne_true.elim, fun hf => absurd hk hf⟩,
      designates_of_cellAt hspec.inv hseg hspec.valid.2 he, fun _ => ?_⟩
    subst hmode
    cases hfound : (t.seg (t.segmentId (p.hashFn e.key))).findIt p (p.hashFn e.key)
        (eqPred p e.key) with
    | none => exact absurd hk (h.notFound hfound)
    | some it => exact insertInternal_of_found hfound hfuel

end Insert

section Erase

variable [DecidableEq K]

omit [p.Lawful] in
/-- Removing one pair. -/
theorem Refines.erased (h : t.Refines p m) {t' : Table K V} {key : K} {value : V} (hinv : t'.Inv p)
    (hentries : (key, value) ::ₘ t'.entries p = t.entries p) (hsize : t'.size = t.size - 1)
    (hgd : t'.globalDepth = t.globalDepth) (hinit : t'.initialDepth = t.initialDepth) :
    t'.Refines p (m.erase key) := by
  have hrep : Represents (t'.entries p) (m.erase key) := (hentries ▸ h.represents).erase
  refine ⟨⟨hinv, hgd ▸ h.globalDepth_le, hinit ▸ h.initialDepth_le⟩, hrep, ?_⟩
  rw [hsize, h.size_eq, ← h.represents.card, ← hrep.card, ← hentries, Multiset.card_cons,
    Nat.add_sub_cancel]

/-- **`Erase(key)`.** -/
theorem Refines.erase_spec (h : t.Refines p m) (key : K) :
    (t.erase p key).1.Refines p (m.erase key) ∧
      (t.erase p key).2 = if key ∈ m then 1 else 0 := by
  rcases Table.erase_spec p h.toInv h.globalDepth_le key with
    ⟨hsame, habsent⟩ | ⟨k, v, hequal, hone, hinv, hentries, hsize, hgd, hinit⟩
  · have hk : key ∉ m := by
      rw [h.represents.mem_keys]
      rintro ⟨v, hv⟩
      exact habsent key (p.equal_self key) v hv
    rw [hsame, if_neg hk, erase_of_notMem hk]
    exact ⟨h, rfl⟩
  · obtain rfl := Policy.eq_of_equal hequal
    have hk : k ∈ m :=
      h.represents.mem_keys.mpr ⟨v, hentries ▸ Multiset.mem_cons_self _ _⟩
    rw [if_pos hk]
    exact ⟨h.erased hinv hentries hsize hgd hinit, hone⟩

/-- **`Erase(iterator)`** with the iterator of `Find`. -/
theorem Refines.eraseIt_spec (h : t.Refines p m) {key : K} {it : TableIter}
    (hfind : t.find p key = some it) : (t.eraseIt p it).Refines p (m.erase key) := by
  have hspec := h.find_spec key
  rw [hfind] at hspec
  obtain ⟨v, -, hseg, hbucket, -, hbusy, rfl, rfl⟩ := hspec
  rw [h.segmentSize] at hseg
  obtain ⟨hinv, hentries⟩ :=
    Table.eraseIt_spec p h.toInv hseg hbucket (Segment.cell_of_isBusy hbusy)
  exact h.erased hinv hentries rfl rfl rfl

end Erase

omit [p.Lawful] in
theorem Refines.clear_spec (h : t.Refines p m) : (t.clear p).Refines p ∅ := by
  have hc := cleared_clear p h.toInv h.initialDepth_le
  have hgd := hc.globalDepth
  have hinit := hc.initialDepth
  have hle := h.initialDepth_le
  exact ⟨⟨hc.inv, by omega, by omega⟩, hc.entries ▸ represents_empty, hc.size⟩

/-! ### Runs -/

variable [Inhabited K] [Inhabited V] [DecidableEq K]

theorem MapRun.refines (h : MapRun p t m) : t.Refines p m := by
  induction h with
  | new capacityLog hlog =>
    obtain ⟨hinv, hentries, hsize, hgd, hinit⟩ := inv_new (V := V) p hlog
    exact ⟨⟨hinv, by omega, by omega⟩, hentries ▸ represents_empty, hsize⟩
  | step _ hop hstep ih =>
    cases hstep with
    | insert hout => exact (ih.insert_spec hout fun hf => by cases hf).1
    | insertNew hout =>
      have hspec := (ih.insert_spec hout fun _ => hop).1
      rw [if_neg hop] at hspec
      exact hspec
    | erase key => exact (ih.erase_spec key).1
    | eraseFound hfind => exact ih.eraseIt_spec hfind
    | clear => exact ih.clear_spec
    | find key => exact ih

variable (p)

/-- **The table refines the map.**  After every run: `Find` returns a busy slot with the
    key and the value of the map exactly when the key is in the map; no two busy slots
    hold equal keys; the size is the number of keys; an insertion answers whether the
    key was absent, changes nothing when it was not, and returns the pair's place; and
    `Erase` counts the key. -/
theorem table_refines_map (h : MapRun p t m) :
    (∀ key, match t.find p key with
      | none => m.lookup key = none
      | some it => ∃ v, m.lookup key = some v ∧ t.Designates p it key v) ∧
    (∀ i < t.segmentSize, ∀ i' < t.segmentSize, ∀ b < p.kTotalBuckets, ∀ b' < p.kTotalBuckets,
      ∀ k k', ((t.seg i).bucket b).isBusy k = true → ((t.seg i').bucket b').isBusy k' = true →
        p.equal (((t.seg i).bucket b).key k) (((t.seg i').bucket b').key k') = true →
        t.segment i = t.segment i' ∧ b = b' ∧ k = k') ∧
    t.size = m.keys.card ∧
    (∀ key value out, t.Inserts p key value .insertIfNotFound out →
      (out.inserted = true ↔ key ∉ m) ∧ (out.inserted = false → out.table = t) ∧
      out.table.Designates p out.it key ((m.lookup key).getD value)) ∧
    (∀ key value out, key ∉ m → t.Inserts p key value .forceInsert out →
      out.table.Designates p out.it key value) ∧
    (∀ key, (t.erase p key).2 = if key ∈ m then 1 else 0) := by
  have href := h.refines
  refine ⟨href.find_spec, ?_, href.size_eq, ?_, ?_, fun key => (href.erase_spec key).2⟩
  · intro i hi i' hi' b hb b' hb' k k' hbusy hbusy' heq
    rw [href.segmentSize] at hi hi'
    exact href.slot_unique hi hi' hb hb' hbusy hbusy' (Policy.eq_of_equal heq)
  · intro key value out hout
    obtain ⟨-, hins, hdes, hsame⟩ := href.insert_spec hout fun hf => by cases hf
    exact ⟨hins, hsame, hdes⟩
  · intro key value out hk hout
    have hdes := (href.insert_spec hout fun _ => hk).2.2.1
    rw [Finmap.lookup_eq_none.mpr hk] at hdes
    exact hdes

variable {p} in
omit [p.Lawful] in
/-- Insertions one after the other are a run. -/
theorem mapRun_insertAll {fuel : Nat} {l : List (K × V)} {t t' : Table K V}
    {m : Finmap fun _ : K => V} (h : MapRun p t m) (hrun : insertAll p fuel t l = some t') :
    MapRun p t' (l.foldl (fun m x => (MapOp.insert x.1 x.2).apply m) m) := by
  induction l generalizing t m with
  | nil => exact Option.some.inj hrun ▸ h
  | cons x l ih =>
    obtain ⟨out, hout, hdropped, hdepth, hrest⟩ := insertAll_cons hrun
    have hins : t.Inserts p x.1 x.2 .insertIfNotFound out := ⟨⟨fuel, hout⟩, hdropped, hdepth⟩
    have hstep : t.MapStep p (.insert x.1 x.2) out.table := .insert hins
    have hallowed : (MapOp.insert x.1 x.2).Allowed m := trivial
    exact ih (h.step hallowed hstep) hrest

/-- The map of `grown64`. -/
def spreadMap (n : Nat) : Finmap fun _ : UInt64 => UInt64 :=
  (spreadPairs n).foldl (fun m x => (MapOp.insert x.1 x.2).apply m) ∅

theorem mapRun_grown64 {n : Nat} {t : Table UInt64 UInt64} (h : grown64 n = some t) :
    MapRun narrow64 t (spreadMap n) :=
  mapRun_insertAll (.new 1 (by decide)) h

theorem table_refines_map_grown64 : ∃ t, grown64 7 = some t ∧ MapRun narrow64 t (spreadMap 7) ∧
    t.size = 7 ∧ ∃ it, t.find narrow64 (spreadKey 2) = some it ∧
      t.Designates narrow64 it (spreadKey 2) 2 := by
  have hsome : (grown64 7).isSome = true := by decide +kernel
  obtain ⟨t, ht⟩ := Option.isSome_iff_exists.mp hsome
  have hrun := mapRun_grown64 ht
  obtain ⟨hfind, -, hsize, -⟩ := table_refines_map narrow64 hrun
  have hcard : (spreadMap 7).keys.card = 7 := by decide +kernel
  have hlookup : (spreadMap 7).lookup (spreadKey 2) = some 2 := by decide +kernel
  have hspec := hfind (spreadKey 2)
  refine ⟨t, ht, hrun, hsize.trans hcard, ?_⟩
  cases hit : t.find narrow64 (spreadKey 2) with
  | none =>
    rw [hit] at hspec
    rw [hlookup] at hspec
    cases hspec
  | some it =>
    rw [hit] at hspec
    obtain ⟨v, hv, hdes⟩ := hspec
    rw [hlookup] at hv
    exact ⟨it, rfl, Option.some.inj hv ▸ hdes⟩

end Table

end StorageEngine.DashTable
