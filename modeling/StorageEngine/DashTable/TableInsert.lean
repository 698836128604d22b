/-
  StorageEngine/DashTable/TableInsert.lean
  ========================================
  **Insertion into the table.**

  One round of `InsertInternal` either answers — with a new pair, or with the slot of
  an equal key — or grows the table and goes on.  A round of growth keeps the directory
  invariant and the stored pairs (apart from dropped ones), so the whole loop does.
-/
import StorageEngine.DashTable.TableGrowth

namespace StorageEngine.DashTable

open StorageEngine SlotStore

variable {K V : Type}

namespace Table

variable (p : Policy K V)

/-- The entry an iterator designates. -/
def cellAt (t : Table K V) (it : TableIter) : Option (Entry K V) :=
  (t.seg it.segId).cell (it.bucketId, it.slotId)

/-! ### One attempt -/

theorem setSeg_self (t : Table K V) (sid : Nat) : t.setSeg sid (t.seg sid) = t := by
  simp [setSeg, seg]

/-- A key that hashes to the segment fits its prefix. -/
theorem Inv.hashPrefix_self {t : Table K V} (hinv : t.Inv p) (hg : t.globalDepth ≤ 31)
    (hash : UInt64) :
    hashTop (t.seg (t.segmentId hash)).localDepth hash = t.segmentId hash /
      2 ^ (t.globalDepth - (t.seg (t.segmentId hash)).localDepth) := by
  have hle : (t.seg (t.segmentId hash)).localDepth ≤ t.globalDepth :=
    hinv.aligned.depth_le _ (segmentId_lt hg hash)
  have hdiv := hashTop_div hle (by omega) hash
  rw [← segmentId_eq hg] at hdiv
  exact hdiv.symm

/-- Placing a pair in the segment its hash leads to. -/
theorem placed_spec {t : Table K V} (hinv : t.Inv p) (hg : t.globalDepth ≤ 31) {key : K}
    {value : V} {s' : Segment K V} {it : Iter} {moves : List (Nat × Nat)}
    (hplaced : Segment.Placed p (t.seg (t.segmentId (p.hashFn key))) key value (p.hashFn key)
      true s' it moves) :
    (t.setSeg (t.segmentId (p.hashFn key)) s').Inv p ∧
      (t.setSeg (t.segmentId (p.hashFn key)) s').entries p = (key, value) ::ₘ t.entries p := by
  have hsid := segmentId_lt hg (p.hashFn key)
  have hdepth := hplaced.localDepth.1
  refine ⟨hinv.setSeg p hsid (hplaced.inv (hinv.segInv _ hsid)) hdepth ?_, ?_⟩
  · intro x hx
    rw [hplaced.contents, Multiset.mem_cons] at hx
    rw [hdepth]
    rcases hx with rfl | hx
    · exact hinv.hashPrefix_self p hg (p.hashFn key)
    · exact hinv.hashPrefix _ hsid x hx
  · rw [entries_eq p (t.setSeg _ s') (i := t.segmentId (p.hashFn key)) hsid, seg_setSeg_self,
      others_setSeg, hplaced.contents, entries_eq p t hsid, Multiset.cons_add]

section Attempt

variable [p.Movable]

/-- What the attempt on the target segment can do. -/
theorem tryTarget_cases {t : Table K V} {sid : Nat} (hinv : (t.seg sid).Inv p) (key : K)
    (value : V) (mode : InsertMode) :
    let r := t.tryTarget p sid key value mode
    let found := (t.seg sid).findIt p (p.hashFn key) (eqPred p key)
    (r.1.it = none ∧ r.2 = false ∧ r.1.seg = t.seg sid) ∨
    (∃ it, r.1.it = some it ∧ r.2 = true ∧
      Segment.Placed p (t.seg sid) key value (p.hashFn key) true r.1.seg it r.1.moves ∧
      (mode = .insertIfNotFound → found = none)) ∨
    (∃ it, r.1.it = some it ∧ r.2 = false ∧ r.1.seg = t.seg sid ∧
      mode = .insertIfNotFound ∧ found = some it) := by
  intro r found
  have huniq := Segment.insertUniq_cases p hinv.slotsWF key value (p.hashFn key) true
  cases mode with
  | forceInsert =>
    have hr : r = ((t.seg sid).insertUniq p key value (p.hashFn key) true,
      ((t.seg sid).insertUniq p key value (p.hashFn key) true).it.isSome) := rfl
    rw [hr]
    rcases huniq with ⟨hnone, hseg, -⟩ | ⟨it, hit, hplaced⟩
    · exact Or.inl ⟨hnone, by simp [hnone], hseg⟩
    · exact Or.inr (Or.inl ⟨it, hit, by simp [hit], hplaced, fun h => by cases h⟩)
  | insertIfNotFound =>
    have hr : r = (t.seg sid).insert p key value (p.hashFn key) (eqPred p key) := rfl
    rw [hr]
    unfold Segment.insert
    cases hfound : (t.seg sid).findIt p (p.hashFn key) (eqPred p key) with
    | some it => exact Or.inr (Or.inr ⟨it, rfl, rfl, rfl, rfl, hfound⟩)
    | none =>
      rcases huniq with ⟨hnone, hseg, -⟩ | ⟨it, hit, hplaced⟩
      · exact Or.inl ⟨hnone, by simp [hnone], hseg⟩
      · exact Or.inr (Or.inl ⟨it, hit, by simp [hit], hplaced, fun _ => hfound⟩)

end Attempt

/-- A found slot of the target segment belongs to an equal key. -/
theorem equal_of_findIt {t : Table K V} {sid : Nat} {key : K} {it : Iter}
    (hwf : (t.seg sid).SlotsWF p)
    (h : (t.seg sid).findIt p (p.hashFn key) (eqPred p key) = some it) :
    it.index < p.kTotalBuckets ∧
      ∃ e, (t.seg sid).cell it.at = some e ∧ p.equal e.key key = true :=
  Segment.findIt_some p hwf h

/-- No equal key is stored when the target segment does not find one. -/
theorem Inv.not_mem_of_findIt [p.Coherent] {t : Table K V} (hinv : t.Inv p)
    (hg : t.globalDepth ≤ 31) {key : K}
    (h : (t.seg (t.segmentId (p.hashFn key))).findIt p (p.hashFn key) (eqPred p key) = none)
    {k : K} (hequal : p.equal k key = true) (v : V) : (k, v) ∉ t.entries p := by
  have hhash := Policy.Coherent.hashFn_eq k key hequal
  rw [hinv.mem_entries hg, Segment.mem_contents, hhash]
  rintro ⟨x, hx, e, he, rfl, -⟩
  have hno := Segment.findIt_none p (hinv.segInv _ (segmentId_lt hg _)) h ((p.mem_cells).mp hx).1
    he hhash
  rw [show eqPred p key e.key = true from hequal] at hno
  cases hno

/-! ### Growth -/

variable [Inhabited K] [Inhabited V]

theorem globalDepth_grow (t : Table K V) (sid : Nat) (hash : UInt64) :
    t.globalDepth ≤ (t.grow p sid hash).1.1.globalDepth := by
  unfold grow
  by_cases heq : (t.seg sid).localDepth = t.globalDepth
  · simp only [heq, if_true]
    exact Nat.le_succ _
  · simp only [heq, if_false]
    exact Nat.le_refl _

/-- What a round of growth keeps. -/
structure Grew (t t' : Table K V) (dropped : List (K × V)) : Prop where
  inv : t'.Inv p
  entries : t'.entries p + (dropped : Multiset (K × V)) = t.entries p
  size : t'.size = t.size
  initialDepth : t'.initialDepth = t.initialDepth
  finer : Directory.Finer t.globalDepth t.segment t'.globalDepth t'.segment

variable [p.Movable]

theorem grew_split {t : Table K V} (hinv : t.Inv p) (hg : t.globalDepth ≤ 31) {sid : Nat}
    (hsid : sid < 2 ^ t.globalDepth) (hlt : (t.seg sid).localDepth < t.globalDepth) :
    Grew p t (t.split p sid).1 (t.split p sid).2 := by
  obtain ⟨id, hhalved, hdropped⟩ := halvedAt_split p hinv hg hsid hlt
  refine ⟨hhalved.inv hinv hg hsid hlt rfl rfl, ?_, hhalved.size, hhalved.initialDepth,
    hhalved.finer hinv hsid hlt rfl⟩
  rw [hdropped]
  exact hhalved.entries hinv hsid hlt rfl rfl

/-- A table in which the segment of `hash` can be split: `t` itself, or `t` with its
    directory doubled when the segment owned a single entry. -/
structure Prepared (t t₁ : Table K V) (hash : UInt64) : Prop where
  inv : t₁.Inv p
  globalDepth : t₁.globalDepth =
    max t.globalDepth ((t.seg (t.segmentId hash)).localDepth + 1)
  localDepth : (t₁.seg (t₁.segmentId hash)).localDepth = (t.seg (t.segmentId hash)).localDepth
  entries : t₁.entries p = t.entries p
  size : t₁.size = t.size
  initialDepth : t₁.initialDepth = t.initialDepth
  finer : Directory.Finer t.globalDepth t.segment t₁.globalDepth t₁.segment

/-- The table and the index that a round of growth splits at: with the directory doubled
    when the target owned a single entry. -/
def prepare (t : Table K V) (sid : Nat) (hash : UInt64) : Table K V × Nat :=
  if (t.seg sid).localDepth = t.globalDepth then
    (t.increaseDepth (t.globalDepth + 1), (t.increaseDepth (t.globalDepth + 1)).segmentId hash)
  else (t, sid)

omit [p.Movable] in
theorem grow_eq_prepare (t : Table K V) (sid : Nat) (hash : UInt64) :
    t.grow p sid hash =
      ((((t.prepare sid hash).1.split p (t.prepare sid hash).2).1, (t.prepare sid hash).2),
        ((t.prepare sid hash).1.split p (t.prepare sid hash).2).2) := by
  unfold grow prepare
  by_cases heq : (t.seg sid).localDepth = t.globalDepth
  · simp only [heq, if_true]
  · simp only [heq, if_false]

omit [Inhabited K] [Inhabited V] [p.Movable] in
theorem prepared_prepare {t : Table K V} (hinv : t.Inv p) (hg : t.globalDepth ≤ 31) {hash : UInt64}
    (hlt : (t.seg (t.segmentId hash)).localDepth < 31) :
    Prepared p t (t.prepare (t.segmentId hash) hash).1 hash ∧
      (t.prepare (t.segmentId hash) hash).2 =
        (t.prepare (t.segmentId hash) hash).1.segmentId hash := by
  unfold prepare
  by_cases heq : (t.seg (t.segmentId hash)).localDepth = t.globalDepth
  · rw [if_pos heq]
    have hdoubled := doubled_increaseDepth hinv.segmentSize
    have hg₁ : (t.increaseDepth (t.globalDepth + 1)).globalDepth ≤ 31 := by
      rw [hdoubled.globalDepth]
      omega
    refine ⟨⟨hdoubled.inv hinv, ?_, ?_, hdoubled.entries, hdoubled.size, hdoubled.initialDepth,
      hdoubled.finer⟩, rfl⟩
    · rw [hdoubled.globalDepth, heq]
      omega
    · rw [seg, hdoubled.segment_segmentId hg₁ hash, (hdoubled.heap _).2]
      rfl
  · rw [if_neg heq]
    have hle : (t.seg (t.segmentId hash)).localDepth ≤ t.globalDepth :=
      hinv.aligned.depth_le _ (segmentId_lt hg hash)
    refine ⟨⟨hinv, ?_, rfl, rfl, rfl, rfl, .refl _ _⟩, rfl⟩
    dsimp only
    omega

omit [p.Movable] in
theorem prepared_grow {t : Table K V} (hinv : t.Inv p) (hg : t.globalDepth ≤ 31) {hash : UInt64}
    (hlt : (t.seg (t.segmentId hash)).localDepth < 31) :
    ∃ t₁, Prepared p t t₁ hash ∧ t.grow p (t.segmentId hash) hash =
      (((t₁.split p (t₁.segmentId hash)).1, t₁.segmentId hash),
        (t₁.split p (t₁.segmentId hash)).2) := by
  obtain ⟨hprep, hid⟩ := prepared_prepare p hinv hg hlt
  refine ⟨_, hprep, ?_⟩
  rw [grow_eq_prepare, hid]

omit [Inhabited K] [Inhabited V] [p.Movable] in
theorem Prepared.lt {t t₁ : Table K V} {hash : UInt64} (h : Prepared p t t₁ hash) :
    (t₁.seg (t₁.segmentId hash)).localDepth < t₁.globalDepth := by
  rw [h.localDepth, h.globalDepth]
  omega

omit [p.Movable] in
/-- A round of growth within depth 31 had a depth left to split. -/
theorem localDepth_lt_of_grow {t : Table K V} (hinv : t.Inv p) (hash : UInt64)
    (hg : (t.grow p (t.segmentId hash) hash).1.1.globalDepth ≤ 31) :
    t.globalDepth ≤ 31 ∧ (t.seg (t.segmentId hash)).localDepth < 31 := by
  have hg' : t.globalDepth ≤ 31 := Nat.le_trans (globalDepth_grow p t _ hash) hg
  have hle : (t.seg (t.segmentId hash)).localDepth ≤ t.globalDepth :=
    hinv.aligned.depth_le _ (segmentId_lt hg' hash)
  refine ⟨hg', ?_⟩
  by_contra hnot
  have heq : (t.seg (t.segmentId hash)).localDepth = t.globalDepth := by omega
  have hdeep : (t.grow p (t.segmentId hash) hash).1.1.globalDepth = t.globalDepth + 1 := by
    unfold grow
    simp only [heq, if_true]
    rfl
  omega

theorem grew_grow {t : Table K V} (hinv : t.Inv p) (hash : UInt64)
    (hg : (t.grow p (t.segmentId hash) hash).1.1.globalDepth ≤ 31) :
    Grew p t (t.grow p (t.segmentId hash) hash).1.1 (t.grow p (t.segmentId hash) hash).2 ∧
      (t.grow p (t.segmentId hash) hash).1.2 =
        (t.grow p (t.segmentId hash) hash).1.1.segmentId hash := by
  obtain ⟨hg', hlt⟩ := localDepth_lt_of_grow p hinv hash hg
  obtain ⟨t₁, hprep, hgrow⟩ := prepared_grow p hinv hg' hlt
  rw [hgrow] at hg ⊢
  have hg₁ : t₁.globalDepth ≤ 31 := hg
  have hsplit := grew_split p hprep.inv hg₁ (segmentId_lt hg₁ hash) (hprep.lt p)
  refine ⟨⟨hsplit.inv, ?_, hsplit.size.trans hprep.size,
    hsplit.initialDepth.trans hprep.initialDepth, hprep.finer.trans hsplit.finer⟩, rfl⟩
  rw [hsplit.entries, hprep.entries]

/-! ### The loop -/

/-- What an insertion that returns has done, in terms of the pairs `mid` that the splits
    on the way left: a new pair was added, or an equal key was found. -/
structure InsertSpec (t : Table K V) (key : K) (value : V) (mode : InsertMode)
    (out : InsertOut K V) (mid : Multiset (K × V)) : Prop where
  inv : out.table.Inv p
  finer : Directory.Finer t.globalDepth t.segment out.table.globalDepth out.table.segment
  initialDepth : out.table.initialDepth = t.initialDepth
  mid_eq : mid + (out.dropped : Multiset (K × V)) = t.entries p
  valid : out.it.segId = out.table.segmentId (p.hashFn key) ∧ out.it.bucketId < p.kTotalBuckets
  cases :
    (out.inserted = true ∧ out.table.entries p = (key, value) ::ₘ mid ∧
      out.table.size = t.size + 1 ∧
      (mode = .insertIfNotFound → ∀ k, p.equal k key = true → ∀ v, (k, v) ∉ mid) ∧
      ∃ e, out.table.cellAt out.it = some e ∧ e.key = key ∧ e.value = value) ∨
    (out.inserted = false ∧ mode = .insertIfNotFound ∧ out.table.entries p = mid ∧
      out.table.size = t.size ∧
      ∃ e, out.table.cellAt out.it = some e ∧ p.equal e.key key = true ∧ (e.key, e.value) ∈ mid)

omit [p.Movable] in
theorem globalDepth_insertLoop (key : K) (value : V) (mode : InsertMode) (fuel : Nat)
    (t : Table K V) (sid : Nat) {out : InsertOut K V}
    (hout : insertLoop p key value mode fuel t sid = some out) :
    t.globalDepth ≤ out.table.globalDepth := by
  induction fuel generalizing t sid out with
  | zero => cases hout
  | succ fuel ih =>
    unfold insertLoop at hout
    dsimp only at hout
    split at hout
    · cases hout
      dsimp only
      split <;> exact Nat.le_refl _
    · obtain ⟨out₁, hout₁, rfl⟩ := Option.map_eq_some_iff.mp hout
      have hnext := ih _ _ hout₁
      exact Nat.le_trans (globalDepth_grow p (t.setSeg sid _) sid (p.hashFn key)) hnext

omit [p.Movable] in
/-- **`InsertInternal`.** -/
theorem insertLoop_spec [p.Coherent] (key : K) (value : V) (mode : InsertMode) (fuel : Nat)
    {t : Table K V} (hinv : t.Inv p) {out : InsertOut K V}
    (hout : insertLoop p key value mode fuel t (t.segmentId (p.hashFn key)) = some out)
    (hg : out.table.globalDepth ≤ 31) :
    ∃ mid, InsertSpec p t key value mode out mid := by
  induction fuel generalizing t out with
  | zero => cases hout
  | succ fuel ih =>
    have hg' : t.globalDepth ≤ 31 :=
      Nat.le_trans (globalDepth_insertLoop p key value mode _ t _ hout) hg
    have hsid := segmentId_lt hg' (p.hashFn key)
    unfold insertLoop at hout
    rcases tryTarget_cases p (hinv.segInv _ hsid) key value mode with
      ⟨hnone, hres, hseg⟩ | ⟨it, hit, hres, hplaced, habsent⟩ | ⟨it, hit, hres, hseg, hmode, hfound⟩
    · -- no room: grow and go on
      simp only [hnone, hseg, setSeg_self, Option.map_eq_some_iff] at hout
      obtain ⟨out₁, hout₁, rfl⟩ := hout
      have hmono := globalDepth_insertLoop p key value mode _ _ _ hout₁
      obtain ⟨hgrew, hid⟩ := grew_grow p hinv (p.hashFn key) (Nat.le_trans hmono hg)
      rw [hid] at hout₁
      obtain ⟨mid, hspec⟩ := ih hgrew.inv hout₁ hg
      refine ⟨mid, hspec.inv, hgrew.finer.trans hspec.finer,
        hspec.initialDepth.trans hgrew.initialDepth, ?_, hspec.valid, ?_⟩
      · rw [← hgrew.entries, ← hspec.mid_eq, ← Multiset.coe_add, add_comm (Multiset.ofList _),
          add_assoc]
      · have hcases := hspec.cases
        rw [hgrew.size] at hcases
        exact hcases
    · simp only [hit, hres, if_true, Option.some.injEq] at hout
      subst hout
      obtain ⟨hinv', hentries⟩ := placed_spec p hinv hg' hplaced
      obtain ⟨hidx, e, he, hk, hv⟩ := hplaced.at
      refine ⟨t.entries p, hinv'.withSize _, .refl _ _, rfl, by simp, ⟨rfl, hidx⟩,
        Or.inl ⟨rfl, hentries, rfl, ?_, e, ?_, hk, hv⟩⟩
      · intro hm k hequal v
        exact hinv.not_mem_of_findIt p hg' (habsent hm) hequal v
      · have hseg := seg_setSeg_self t (t.segmentId (p.hashFn key))
          (t.tryTarget p (t.segmentId (p.hashFn key)) key value mode).1.seg
        exact (congrArg (fun s => s.cell it.at) hseg).trans he
    · simp only [hit, hres, hseg, setSeg_self, Bool.false_eq_true, if_false, Option.some.injEq]
        at hout
      subst hout
      obtain ⟨hidx, e, he, hk⟩ := equal_of_findIt p (hinv.segInv _ hsid).slotsWF hfound
      refine ⟨t.entries p, hinv, .refl _ _, rfl, by simp, ⟨rfl, hidx⟩,
        Or.inr ⟨rfl, hmode, rfl, rfl, e, he, hk, ?_⟩⟩
      have hslot := Segment.slot_lt_of_cell p (hinv.segInv _ hsid).slotsWF he
      have hcontents := (Segment.mem_contents p).mpr
        ⟨it.at, (p.mem_cells).mpr ⟨hidx, hslot⟩, e, he, rfl, rfl⟩
      rw [entries_eq p t hsid]
      exact Multiset.mem_add.mpr (Or.inl hcontents)

end Table

end StorageEngine.DashTable
