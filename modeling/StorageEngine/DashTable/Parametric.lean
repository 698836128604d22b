/-
  StorageEngine/DashTable/Parametric.lean
  =======================================
  **Tables that hold different content alike.**

  A table looks at a key only through `HashFn` and `Equal`, and at a value not at all.  Two
  tables with the same directory, whose segments are alike, answer every call alike and
  stay so, through displacements, splits and doublings.
-/
import StorageEngine.DashTable.Alike
import StorageEngine.DashTable.TableRuns

namespace StorageEngine.DashTable

open StorageEngine

variable {K V K' V' : Type} {p : Policy K V} {q : Policy K' V'} {R : K → K' → Prop}
  {S : V → V' → Prop}

/-! ### Related results -/

section Rel

variable {α β γ δ : Type} {r : α → β → Prop} {r' : γ → δ → Prop} {x : Option α} {y : Option β}

theorem rel_map (h : Option.Rel r x y) {f : α → γ} {g : β → δ}
    (hfg : ∀ a b, r a b → r' (f a) (g b)) :
    Option.Rel r' (x.map f) (y.map g) := by
  cases h with
  | none => exact .none
  | some h => exact .some (hfg _ _ h)

theorem rel_bind (h : Option.Rel r x y) {f : α → Option γ} {g : β → Option δ}
    (hfg : ∀ a b, r a b → Option.Rel r' (f a) (g b)) : Option.Rel r' (x.bind f) (y.bind g) := by
  cases h with
  | none => exact .none
  | some h => exact hfg _ _ h

theorem map_eq_of_rel (h : Option.Rel r x y) {f : α → γ} {g : β → γ}
    (hfg : ∀ a b, r a b → f a = g b) :
    x.map f = y.map g := by
  cases h with
  | none => rfl
  | some h => exact congrArg some (hfg _ _ h)

end Rel

namespace Segment

variable {s : Segment K V} {s' : Segment K' V'}

/-! ### Split -/

/-- Every busy slot stays busy. -/
def Grows (s s₁ : Segment K V) : Prop :=
  ∀ i j, (s.bucket i).isBusy j = true → (s₁.bucket i).isBusy j = true

theorem grows_setBucket {b : Bucket K V} {i : Nat}
    (h : ∀ j, (s.bucket i).isBusy j = true → b.isBusy j = true) : Grows s (s.setBucket i b) := by
  intro i' j hj
  show (Function.update s.bucket i b i').isBusy j = true
  by_cases hi : i' = i
  · subst hi
    rw [Function.update_self]
    exact h j hj
  · rw [Function.update_of_ne hi]
    exact hj

theorem Grows.trans {s₁ s₂ : Segment K V} (h : Grows s s₁) (h' : Grows s₁ s₂) : Grows s s₂ :=
  fun i j hj => h' i j (h i j hj)

theorem grows_moveOut (i slot : Nat) : Grows s (s.setBucket i ((s.bucket i).moveOut p slot)) :=
  grows_setBucket fun _ hj => hj

theorem grows_tryInsert (i : Nat) (u : K) (v : V) (fp : UInt8) (probe : Bool) :
    Grows s (s.tryInsert p i u v fp probe).1 := by
  apply grows_setBucket
  intro j hj
  show ((s.bucket i).tryInsertToBucket p u v fp probe).1.isBusy j = true
  unfold Bucket.tryInsertToBucket
  split
  · exact hj
  · show ((s.bucket i).slotb.setSlot _ probe).busy.getLsbD j = true
    simp only [SlotBitmap.setSlot, BitVec.getLsbD_or, Bool.or_eq_true]
    exact Or.inl hj

theorem grows_removeStashReference (stashPos : Nat) (hash : UInt64) :
    Grows s (s.removeStashReference p stashPos hash) := by
  intro i j hj
  have hraw :=
    congrFun (raw_unsetStashPtr p s (p.homeIndex hash) (fingerprint hash) stashPos) (i, j)
  exact (congrArg Prod.fst hraw).trans hj

/-- The variables of two `Split`s. -/
structure SplitState.Alike (p : Policy K V) (R : K → K' → Prop) (S : V → V' → Prop)
    (st : SplitState K V) (st' : SplitState K' V') : Prop where
  source : st.source.Alike p R S st'.source
  dest : st.dest.Alike p R S st'.dest
  invalidMask : st'.invalidMask = st.invalidMask
  moves : st'.moves = st.moves
  dropped : st'.dropped.length = st.dropped.length
  asserted : st'.asserted = st.asserted

section Related

variable (hpq : p.Relates q R S)

include hpq

/-- `TryMoveFromStash` of a busy slot. -/
theorem Alike.tryMoveFromStash (h : s.Alike p R S s') {stashId stashSlot : Nat}
    (hbusy : (s.bucket (p.kBucketNum + stashId)).isBusy stashSlot = true) (hash : UInt64) :
    (s.tryMoveFromStash p stashId stashSlot hash).1.Alike p R S
        (s'.tryMoveFromStash q stashId stashSlot hash).1 ∧
      (s'.tryMoveFromStash q stashId stashSlot hash).2 =
        (s.tryMoveFromStash p stashId stashSlot hash).2 ∧
      Grows s (s.tryMoveFromStash p stashId stashSlot hash).1 := by
  have hkey := (h.bucket _).key _ hbusy
  have hvalue := (h.bucket _).value _ hbusy
  have hdone : ∀ {s₁ : Segment K V} {s₂ : Segment K' V'}, s₁.Alike p R S s₂ →
      Segment.Alike p R S ((s₁.setBucket (p.kBucketNum + stashId)
          ((s₁.bucket (p.kBucketNum + stashId)).moveOut p stashSlot)).removeStashReference p
            stashId hash)
        ((s₂.setBucket (p.kBucketNum + stashId)
          ((s₂.bucket (p.kBucketNum + stashId)).moveOut q stashSlot)).removeStashReference q
            stashId hash) :=
    fun hseg => (hseg.setBucket ((hseg.bucket _).moveOut hpq _) _).removeStashReference
      hpq.toSameShape stashId hash
  have hgrows : ∀ {s₁ : Segment K V}, Grows s s₁ →
      Grows s ((s₁.setBucket (p.kBucketNum + stashId)
        ((s₁.bucket (p.kBucketNum + stashId)).moveOut p stashSlot)).removeStashReference p
          stashId hash) :=
    fun hs => (hs.trans (grows_moveOut _ _)).trans (grows_removeStashReference _ _)
  unfold Segment.tryMoveFromStash
  dsimp only
  rw [hpq.kBucketNum, hpq.homeIndex, hpq.nextBid]
  have hone := grows_tryInsert (p := p) (s := s) (p.homeIndex hash)
    ((s.bucket (p.kBucketNum + stashId)).key stashSlot)
      ((s.bucket (p.kBucketNum + stashId)).value stashSlot)
    (fingerprint hash) false
  rcases h.tryInsert hpq hkey hvalue (p.homeIndex hash) (fingerprint hash) false with
    ⟨-, hp, hq⟩ | ⟨s₁, s₂, slot, hp, hq, hseg⟩
  · rw [hp, hq]
    dsimp only
    have htwo := grows_tryInsert (p := p) (s := s) (p.nextBid (p.homeIndex hash))
      ((s.bucket (p.kBucketNum + stashId)).key stashSlot)
        ((s.bucket (p.kBucketNum + stashId)).value stashSlot)
      (fingerprint hash) true
    rcases h.tryInsert hpq hkey hvalue (p.nextBid (p.homeIndex hash)) (fingerprint hash) true with
      ⟨-, hp, hq⟩ | ⟨s₁, s₂, slot, hp, hq, hseg⟩
    · rw [hp, hq]
      exact ⟨h, rfl, fun _ _ hj => hj⟩
    · rw [hp] at htwo
      rw [hp, hq]
      exact ⟨hdone hseg, rfl, hgrows htwo⟩
  · rw [hp] at hone
    rw [hp, hq]
    exact ⟨hdone hseg, rfl, hgrows hone⟩

namespace SplitState

variable {st : SplitState K V} {st' : SplitState K' V'}

/-- Migrating a busy slot. -/
theorem Alike.migrate (h : st.Alike p R S st') (i : Nat) {bid slot : Nat}
    (hbusy : (st.source.bucket bid).isBusy slot = true) (hash : UInt64) :
    (st.migrate p i bid slot hash).Alike p R S (st'.migrate q i bid slot hash) ∧
      Grows st.source (st.migrate p i bid slot hash).source := by
  have hb := h.source.bucket bid
  have hinsert := h.dest.insertUniq hpq (hb.key slot hbusy) (hb.value slot hbusy) hash false
  unfold SplitState.migrate
  dsimp only
  rw [hinsert.it, h.source.segmentId, h.dest.segmentId, h.invalidMask, h.moves]
  cases (st.dest.insertUniq p ((st.source.bucket bid).key slot) ((st.source.bucket bid).value slot)
    hash false).it with
  | some it =>
    exact ⟨⟨h.source.setBucket (hb.moveOut hpq slot) bid, hinsert.seg, rfl, rfl, h.dropped,
      h.asserted⟩, grows_moveOut bid slot⟩
  | none =>
    refine ⟨⟨h.source, hinsert.seg, rfl, rfl, ?_, h.asserted⟩, fun _ _ hj => hj⟩
    simpa using h.dropped

theorem Alike.regularSlot (h : st.Alike p R S st') {i slot : Nat}
    (hbusy : (st.source.bucket i).isBusy slot = true) :
    (regularSlot p i st slot).Alike p R S (regularSlot q i st' slot) ∧
      Grows st.source (regularSlot p i st slot).source := by
  unfold SplitState.regularSlot
  dsimp only
  rw [hpq.hashFn ((h.source.bucket i).key slot hbusy), h.source.localDepth]
  split
  · exact ⟨h, fun _ _ hj => hj⟩
  · exact h.migrate hpq i hbusy _

theorem Alike.stashSlot (h : st.Alike p R S st') {i slot : Nat}
    (hbusy : (st.source.bucket (p.kBucketNum + i)).isBusy slot = true) :
    (stashSlot p i st slot).Alike p R S (stashSlot q i st' slot) ∧
      Grows st.source (stashSlot p i st slot).source := by
  unfold SplitState.stashSlot
  dsimp only
  rw [hpq.kBucketNum, hpq.hashFn ((h.source.bucket _).key slot hbusy), h.source.localDepth,
    hpq.homeIndex]
  split
  · obtain ⟨hseg, hit, hgrows⟩ := h.source.tryMoveFromStash hpq hbusy
      (p.hashFn ((st.source.bucket (p.kBucketNum + i)).key slot))
    rcases hp : st.source.tryMoveFromStash p i slot
      (p.hashFn ((st.source.bucket (p.kBucketNum + i)).key slot)) with ⟨s₁, it⟩
    rcases hq : st'.source.tryMoveFromStash q i slot
      (p.hashFn ((st.source.bucket (p.kBucketNum + i)).key slot)) with ⟨s₂, it'⟩
    rw [hp, hq] at hseg hit
    rw [hp] at hgrows
    obtain rfl : it' = it := hit
    cases it' with
    | none => exact ⟨⟨hseg, h.dest, h.invalidMask, h.moves, h.dropped, h.asserted⟩, hgrows⟩
    | some it =>
      refine ⟨⟨hseg, h.dest, ?_, ?_, h.dropped, ?_⟩, hgrows⟩
      · rw [h.invalidMask]
      · rw [h.moves, h.source.segmentId]
      · rw [h.asserted, h.source.overflowAssert hpq.toSameShape]
  · obtain ⟨hmigrate, hgrows⟩ := h.migrate hpq i hbusy
      (p.hashFn ((st.source.bucket (p.kBucketNum + i)).key slot))
    refine ⟨⟨hmigrate.source.removeStashReference hpq.toSameShape i _, hmigrate.dest,
      hmigrate.invalidMask, hmigrate.moves, hmigrate.dropped, ?_⟩,
        hgrows.trans (grows_removeStashReference _ _)⟩
    rw [hmigrate.asserted, hmigrate.source.overflowAssert hpq.toSameShape]

omit hpq in
theorem Alike.flush (h : st.Alike p R S st') (bid : Nat) :
    (flush bid st).Alike p R S (flush bid st') := by
  refine ⟨?_, h.dest, rfl, h.moves, h.dropped, h.asserted⟩
  unfold SplitState.flush
  rw [h.invalidMask]
  exact h.source.setBucket ((h.source.bucket bid).clearSlots _) bid

omit hpq in
/-- A loop over slots that are busy at its start. -/
theorem alike_foldl (f : SplitState K V → Nat → SplitState K V)
    (f' : SplitState K' V' → Nat → SplitState K' V') (bid : Nat)
    (hf : ∀ {st st'} {slot : Nat}, Alike p R S st st' → (st.source.bucket bid).isBusy slot = true →
      Alike p R S (f st slot) (f' st' slot) ∧ Grows st.source (f st slot).source)
    (h : st.Alike p R S st') {l : List Nat}
    (hl : ∀ slot ∈ l, (st.source.bucket bid).isBusy slot = true) :
    (l.foldl f st).Alike p R S (l.foldl f' st') := by
  induction l generalizing st st' with
  | nil => exact h
  | cons slot l ih =>
    obtain ⟨hslot, hrest⟩ := List.forall_mem_cons.mp hl
    obtain ⟨hstep, hgrows⟩ := hf h hslot
    exact ih hstep fun j hj => hgrows bid j (hrest j hj)

omit hpq in
theorem isBusy_of_mem_busySlots {b : Bucket K V} {slot : Nat} (h : slot ∈ b.busySlots p) :
    b.isBusy slot = true := (List.mem_filter.mp h).2

theorem Alike.regularBucket (h : st.Alike p R S st') (i : Nat) :
    (regularBucket p st i).Alike p R S (regularBucket q st' i) := by
  unfold SplitState.regularBucket
  rw [(h.source.bucket i).busySlots hpq.toSameShape]
  apply Alike.flush
  apply alike_foldl (SplitState.regularSlot p i) (SplitState.regularSlot q i) i
  · intro st st' slot h hbusy
    exact h.regularSlot hpq hbusy
  · exact h
  · intro slot
    exact isBusy_of_mem_busySlots

theorem Alike.stashBucket (h : st.Alike p R S st') (i : Nat) :
    (stashBucket p st i).Alike p R S (stashBucket q st' i) := by
  unfold SplitState.stashBucket
  rw [hpq.kBucketNum, (h.source.bucket _).busySlots hpq.toSameShape]
  apply Alike.flush
  apply alike_foldl (SplitState.stashSlot p i) (SplitState.stashSlot q i) (p.kBucketNum + i)
  · intro st st' slot h hbusy
    exact h.stashSlot hpq hbusy
  · exact h
  · intro slot
    exact isBusy_of_mem_busySlots

end SplitState

theorem Alike.split (h : s.Alike p R S s') {dest : Segment K V} {dest' : Segment K' V'}
    (hdest : dest.Alike p R S dest') : (s.split p dest).Alike p R S (s'.split q dest') := by
  have hfold : ∀ {f : SplitState K V → Nat → SplitState K V} {f' : SplitState K' V' → Nat →
      SplitState K' V'}, (∀ {st st'}, SplitState.Alike p R S st st' →
        ∀ i, (f st i).Alike p R S (f' st' i)) →
      ∀ (l : List Nat) {st st'}, SplitState.Alike p R S st st' →
        (l.foldl f st).Alike p R S (l.foldl f' st') := by
    intro f f' hf l
    induction l with
    | nil => exact fun hst => hst
    | cons i l ih => exact fun hst => ih (hf hst i)
  unfold Segment.split
  dsimp only
  rw [hpq.kBucketNum, h.localDepth]
  apply hfold fun hst i => hst.stashBucket hpq i
  apply hfold fun hst i => hst.regularBucket hpq i
  exact ⟨⟨h.bucket, rfl, h.segmentId⟩, ⟨hdest.bucket, rfl, hdest.segmentId⟩, rfl, rfl, rfl, rfl⟩

end Related

end Segment

/-! ### Tables -/

/-- Tables with the same directory over segments that are alike. -/
structure Table.Alike (p : Policy K V) (R : K → K' → Prop) (S : V → V' → Prop) (t : Table K V)
    (t' : Table K' V') : Prop where
  heap : ∀ ptr, (t.heap ptr).Alike p R S (t'.heap ptr)
  segment : t'.segment = t.segment
  segmentSize : t'.segmentSize = t.segmentSize
  nextPtr : t'.nextPtr = t.nextPtr
  size : t'.size = t.size
  uniqueSegments : t'.uniqueSegments = t.uniqueSegments
  bucketCount : t'.bucketCount = t.bucketCount
  initialDepth : t'.initialDepth = t.initialDepth
  globalDepth : t'.globalDepth = t.globalDepth

namespace Table

variable {t : Table K V} {t' : Table K' V'}

theorem Alike.seg (h : t.Alike p R S t') (sid : Nat) : (t.seg sid).Alike p R S (t'.seg sid) := by
  unfold Table.seg
  rw [h.segment]
  exact h.heap _

theorem Alike.segmentId (h : t.Alike p R S t') (hash : UInt64) :
    t'.segmentId hash = t.segmentId hash := by
  unfold Table.segmentId
  rw [h.globalDepth]

theorem alike_update {f : Ptr → Segment K V} {f' : Ptr → Segment K' V'}
    (hf : ∀ ptr, (f ptr).Alike p R S (f' ptr)) {s : Segment K V} {s' : Segment K' V'}
    (hs : s.Alike p R S s') (ptr₀ ptr : Ptr) :
    (Function.update f ptr₀ s ptr).Alike p R S (Function.update f' ptr₀ s' ptr) := by
  by_cases hptr : ptr = ptr₀
  · rw [hptr, Function.update_self, Function.update_self]
    exact hs
  · rw [Function.update_of_ne hptr, Function.update_of_ne hptr]
    exact hf ptr

theorem Alike.setSeg (h : t.Alike p R S t') {s : Segment K V} {s' : Segment K' V'}
    (hs : s.Alike p R S s') (sid : Nat) : (t.setSeg sid s).Alike p R S (t'.setSeg sid s') := by
  refine ⟨?_, h.segment, h.segmentSize, h.nextPtr, h.size, h.uniqueSegments, h.bucketCount,
    h.initialDepth, h.globalDepth⟩
  unfold Table.setSeg
  rw [h.segment]
  exact alike_update h.heap hs _

theorem Alike.withSize (h : t.Alike p R S t') (n : Nat) :
    Alike p R S { t with size := n } { t' with size := n } :=
  ⟨h.heap, h.segment, h.segmentSize, h.nextPtr, rfl, h.uniqueSegments, h.bucketCount,
    h.initialDepth, h.globalDepth⟩

theorem Alike.withSegment (h : t.Alike p R S t') (segment : Nat → Ptr) :
    Alike p R S { t with segment := segment } { t' with segment := segment } :=
  ⟨h.heap, rfl, h.segmentSize, h.nextPtr, h.size, h.uniqueSegments, h.bucketCount, h.initialDepth,
    h.globalDepth⟩

theorem Alike.withDepth (h : t.Alike p R S t') (globalDepth : Nat) :
    Alike p R S { t with globalDepth := globalDepth } { t' with globalDepth := globalDepth } :=
  ⟨h.heap, h.segment, h.segmentSize, h.nextPtr, h.size, h.uniqueSegments, h.bucketCount,
    h.initialDepth, rfl⟩

theorem Alike.withSegmentSize (h : t.Alike p R S t') (segmentSize : Nat) :
    Alike p R S { t with segmentSize := segmentSize } { t' with segmentSize := segmentSize } :=
  ⟨h.heap, h.segment, rfl, h.nextPtr, h.size, h.uniqueSegments, h.bucketCount, h.initialDepth,
    h.globalDepth⟩

theorem Alike.replicateEntry (h : t.Alike p R S t') (replCnt i : Nat) :
    (t.replicateEntry replCnt i).Alike p R S (t'.replicateEntry replCnt i) := by
  have hentry := h.withSegment fun j =>
    if i * replCnt ≤ j ∧ j < i * replCnt + replCnt then t.segment i else t.segment j
  have hseg := hentry.seg i
  have hrenamed : Segment.Alike p R S { Table.seg _ i with segmentId := i * replCnt }
      { Table.seg _ i with segmentId := i * replCnt } := ⟨hseg.bucket, hseg.localDepth, rfl⟩
  unfold Table.replicateEntry
  dsimp only
  rw [h.segment]
  exact hentry.setSeg hrenamed i

theorem Alike.increaseDepth (h : t.Alike p R S t') (newDepth : Nat) :
    (t.increaseDepth newDepth).Alike p R S (t'.increaseDepth newDepth) := by
  have hfold : ∀ replCnt (l : List Nat) {t : Table K V} {t' : Table K' V'}, t.Alike p R S t' →
      (l.foldl (Table.replicateEntry replCnt) t).Alike p R S
        (l.foldl (Table.replicateEntry replCnt) t') := by
    intro replCnt l
    induction l with
    | nil => exact fun h => h
    | cons i l ih => exact fun h => ih (h.replicateEntry replCnt i)
  have hrepl : 2 ^ (newDepth - t'.globalDepth) = 2 ^ (newDepth - t.globalDepth) := by
    rw [h.globalDepth]
  have hrange : (List.range t'.segmentSize).reverse = (List.range t.segmentSize).reverse := by
    rw [h.segmentSize]
  unfold Table.increaseDepth
  dsimp only
  rw [hrepl, hrange]
  exact (hfold _ _ (h.withSegmentSize (2 ^ newDepth))).withDepth newDepth

theorem eqPred_alike (hpq : p.Relates q R S) {key : K} {key' : K'} (hkey : R key key') :
    ∀ {k k'}, R k k' → eqPred q key' k' = eqPred p key k :=
  fun hk => hpq.equal hk hkey

theorem Alike.find (hpq : p.Relates q R S) (h : t.Alike p R S t') {key : K} {key' : K'}
    (hkey : R key key') :
    t'.find q key' = t.find p key := by
  unfold Table.find Table.findFirst
  dsimp only
  rw [hpq.hashFn hkey, h.segmentId, (h.seg _).findIt hpq (eqPred_alike hpq hkey)]

/-- `Erase(iterator)` of a busy slot. -/
theorem Alike.eraseIt (hpq : p.Relates q R S) (h : t.Alike p R S t') {it : TableIter}
    (hslot : it.slotId < p.kSlotNum)
    (hbusy : ((t.seg it.segId).bucket it.bucketId).isBusy it.slotId = true) :
    (t.eraseIt p it).Alike p R S (t'.eraseIt q it) := by
  have hhash := hpq.hashFn (((h.seg it.segId).bucket it.bucketId).key it.slotId hbusy)
  have herased := h.setSeg ((h.seg it.segId).erase hpq.toSameShape it.iter hslot
    (p.hashFn (((t.seg it.segId).bucket it.bucketId).key it.slotId))) it.segId
  unfold Table.eraseIt
  dsimp only
  rw [hhash, herased.size]
  exact herased.withSize _

/-- `Erase(key)`. -/
theorem Alike.erase (hpq : p.Relates q R S) (h : t.Alike p R S t') {key : K} {key' : K'}
    (hkey : R key key') :
    (t.erase p key).1.Alike p R S (t'.erase q key').1 ∧
    (t'.erase q key').2 = (t.erase p key).2 := by
  have hseg := h.seg (t.segmentId (p.hashFn key))
  unfold Table.erase
  dsimp only
  rw [hpq.hashFn hkey, h.segmentId, hseg.findIt hpq (eqPred_alike hpq hkey)]
  cases hfound : (t.seg (t.segmentId (p.hashFn key))).findIt p (p.hashFn key) (eqPred p key) with
  | none => exact ⟨h, rfl⟩
  | some it =>
    obtain ⟨-, e, he, -⟩ := Segment.findIt_some p hseg.slotsWF hfound
    have hslot : it.slot < p.kSlotNum := Segment.slot_lt_of_cell p hseg.slotsWF he
    have herased := h.setSeg (hseg.erase hpq.toSameShape it hslot (p.hashFn key))
      (t.segmentId (p.hashFn key))
    dsimp only
    rw [herased.size]
    exact ⟨herased.withSize _, rfl⟩

section Insert

variable [Inhabited K] [Inhabited V] [Inhabited K'] [Inhabited V']

theorem alike_newSegment (depth id : Nat) :
    Segment.Alike p R S (Segment.new depth id) (Segment.new depth id) :=
  ⟨fun _ => ⟨SlotBitmap.wf_empty _, rfl, rfl, rfl, fun _ hj => by simp [Segment.new, Bucket.isBusy,
    Bucket.getBusy, SlotBitmap.getBusy] at hj, fun _ hj => by simp [Segment.new, Bucket.isBusy,
    Bucket.getBusy, SlotBitmap.getBusy] at hj⟩, rfl, rfl⟩

/-- The results of an insertion. -/
structure InsertOut.Alike (p : Policy K V) (R : K → K' → Prop) (S : V → V' → Prop)
    (out : InsertOut K V) (out' : InsertOut K' V') : Prop where
  table : out.table.Alike p R S out'.table
  it : out'.it = out.it
  inserted : out'.inserted = out.inserted
  dropped : out'.dropped.length = out.dropped.length

variable (hpq : p.Relates q R S)

include hpq

theorem Alike.constructSegment (h : t.Alike p R S t') (depth id : Nat) :
    (t.constructSegment p depth id).1.Alike p R S (t'.constructSegment q depth id).1 ∧
      (t'.constructSegment q depth id).2 = (t.constructSegment p depth id).2 := by
  refine ⟨⟨?_, h.segment, h.segmentSize, ?_, h.size, h.uniqueSegments, ?_, h.initialDepth,
    h.globalDepth⟩, ?_⟩
  · show ∀ ptr, Segment.Alike p R S (Function.update t.heap t.nextPtr (Segment.new depth id) ptr)
      (Function.update t'.heap t'.nextPtr (Segment.new depth id) ptr)
    rw [h.nextPtr]
    exact alike_update h.heap (alike_newSegment depth id) _
  · exact congrArg (· + 1) h.nextPtr
  · show t'.bucketCount + numBuckets q = t.bucketCount + numBuckets p
    unfold numBuckets
    rw [h.bucketCount, hpq.kBucketNum]
  · exact h.nextPtr

theorem alike_new (capacityLog : Nat) : (new p capacityLog).Alike p R S (new q capacityLog) := by
  have hround : ∀ {t : Table K V} {t' : Table K' V'}, t.Alike p R S t' → ∀ i,
      (t.constructAt p i).Alike p R S (t'.constructAt q i) := by
    intro t t' h i
    obtain ⟨hsegment, hptr⟩ := h.constructSegment hpq t.globalDepth i
    unfold constructAt
    dsimp only
    rw [h.globalDepth, hptr, hsegment.segment]
    exact hsegment.withSegment _
  have hfold : ∀ (l : List Nat) {t : Table K V} {t' : Table K' V'}, t.Alike p R S t' →
      (l.foldl (constructAt p) t).Alike p R S (l.foldl (constructAt q) t') := by
    intro l
    induction l with
    | nil => exact fun h => h
    | cons i l ih => exact fun h => ih (hround h i)
  exact hfold _ ⟨fun _ => alike_newSegment 0 0, rfl, rfl, rfl, rfl, rfl, rfl, rfl, rfl⟩

theorem Alike.split (h : t.Alike p R S t') (segId : Nat) :
    (t.split p segId).1.Alike p R S (t'.split q segId).1 ∧
      (t'.split q segId).2.length = (t.split p segId).2.length := by
  have hdepth : (t'.heap (t.segment segId)).localDepth = (t.heap (t.segment segId)).localDepth :=
    (h.heap _).localDepth
  obtain ⟨hconstruct, hptr⟩ := h.constructSegment hpq ((t.heap (t.segment segId)).localDepth + 1)
    (chunkStart segId (2 ^ (t.globalDepth - (t.heap (t.segment segId)).localDepth)) +
      2 ^ (t.globalDepth - (t.heap (t.segment segId)).localDepth) / 2)
  have hsplit := (hconstruct.heap (t.segment segId)).split hpq (hconstruct.heap
    (t.constructSegment p ((t.heap (t.segment segId)).localDepth + 1)
      (chunkStart segId (2 ^ (t.globalDepth - (t.heap (t.segment segId)).localDepth)) +
        2 ^ (t.globalDepth - (t.heap (t.segment segId)).localDepth) / 2)).2)
  unfold Table.split
  dsimp only
  rw [h.segment, hdepth, h.globalDepth, hptr]
  refine ⟨⟨?_, ?_, hconstruct.segmentSize, hconstruct.nextPtr, hconstruct.size, ?_,
    hconstruct.bucketCount, hconstruct.initialDepth, hconstruct.globalDepth⟩, hsplit.dropped⟩
  · exact alike_update (alike_update hconstruct.heap hsplit.source _) hsplit.dest _
  · dsimp only
    rw [hconstruct.segment]
  · dsimp only
    rw [hconstruct.uniqueSegments]

theorem Alike.grow (h : t.Alike p R S t') (sid : Nat) (hash : UInt64) :
    (t.grow p sid hash).1.1.Alike p R S (t'.grow q sid hash).1.1 ∧
      (t'.grow q sid hash).1.2 = (t.grow p sid hash).1.2 ∧
      (t'.grow q sid hash).2.length = (t.grow p sid hash).2.length := by
  unfold Table.grow
  dsimp only
  rw [(h.seg sid).localDepth, h.globalDepth]
  split
  · have hdeeper := h.increaseDepth (t.globalDepth + 1)
    dsimp only
    rw [hdeeper.segmentId]
    obtain ⟨hsplit, hlength⟩ :=
      hdeeper.split hpq ((t.increaseDepth (t.globalDepth + 1)).segmentId hash)
    exact ⟨hsplit, rfl, hlength⟩
  · obtain ⟨hsplit, hlength⟩ := h.split hpq sid
    exact ⟨hsplit, rfl, hlength⟩

omit [Inhabited K] [Inhabited V] [Inhabited K'] [Inhabited V'] in
theorem Alike.tryTarget (h : t.Alike p R S t') {key : K} {key' : K'} {value : V} {value' : V'}
    (hkey : R key key') (hvalue : S value value') (sid : Nat) (mode : InsertMode) :
    (t.tryTarget p sid key value mode).1.Alike p R S (t'.tryTarget q sid key' value' mode).1 ∧
      (t'.tryTarget q sid key' value' mode).2 = (t.tryTarget p sid key value mode).2 := by
  unfold Table.tryTarget
  rw [hpq.hashFn hkey]
  cases mode with
  | forceInsert =>
    have hinsert := (h.seg sid).insertUniq hpq hkey hvalue (p.hashFn key) true
    refine ⟨hinsert, ?_⟩
    dsimp only
    rw [hinsert.it]
  | insertIfNotFound => exact (h.seg sid).insert hpq hkey hvalue _ (eqPred_alike hpq hkey)

/-- **Insertions into two tables.**  Either both return, with the same answer, or neither does
    within the fuel. -/
theorem Alike.insertLoop {key : K} {key' : K'} {value : V} {value' : V'} (hkey : R key key')
    (hvalue : S value value') (mode : InsertMode) (fuel : Nat) (h : t.Alike p R S t') (sid : Nat) :
    Option.Rel (InsertOut.Alike p R S) (Table.insertLoop p key value mode fuel t sid)
      (Table.insertLoop q key' value' mode fuel t' sid) := by
  induction fuel generalizing t t' sid with
  | zero => exact .none
  | succ fuel ih =>
    obtain ⟨htry, hres⟩ := h.tryTarget hpq hkey hvalue sid mode
    have hset := h.setSeg htry.seg sid
    unfold Table.insertLoop
    dsimp only
    rw [htry.it, hres, hpq.hashFn hkey]
    cases (t.tryTarget p sid key value mode).1.it with
    | some it =>
      refine .some ⟨?_, rfl, rfl, rfl⟩
      cases (t.tryTarget p sid key value mode).2 with
      | true =>
        simp only [if_true]
        rw [hset.size]
        exact hset.withSize _
      | false => exact hset
    | none =>
      obtain ⟨hgrow, hsid, hlength⟩ := hset.grow hpq sid (p.hashFn key)
      dsimp only
      rw [hsid]
      refine rel_map (ih hgrow _) ?_
      intro out out' hout
      refine ⟨hout.table, hout.it, hout.inserted, ?_⟩
      simp only [List.length_append, hlength, hout.dropped]

theorem Alike.insertInternal (h : t.Alike p R S t') {key : K} {key' : K'} {value : V} {value' : V'}
    (hkey : R key key') (hvalue : S value value') (mode : InsertMode) (fuel : Nat) :
    Option.Rel (InsertOut.Alike p R S) (t.insertInternal p fuel key value mode)
      (t'.insertInternal q fuel key' value' mode) := by
  unfold Table.insertInternal
  rw [hpq.hashFn hkey, h.segmentId]
  exact h.insertLoop hpq hkey hvalue mode fuel _

end Insert

/-! ### Runs -/

/-- A call of a table. -/
inductive Call (K V : Type) where
  | insert (key : K) (value : V) (mode : InsertMode)
  | erase (key : K)
  | find (key : K)
  | size

/-- What it returns. -/
inductive Answer where
  | inserted (it : TableIter) (inserted : Bool)
  | erased (count : Nat)
  | found (it : Option TableIter)
  | size (n : Nat)
deriving DecidableEq

section Calls

variable [Inhabited K] [Inhabited V]

/-- One call.  An insertion that has not returned within the fuel has no answer. -/
def call (p : Policy K V) (fuel : Nat) (t : Table K V) : Call K V → Option (Table K V × Answer)
  | .insert key value mode =>
    (t.insertInternal p fuel key value mode).map fun out =>
      (out.table, .inserted out.it out.inserted)
  | .erase key => some ((t.erase p key).1, .erased (t.erase p key).2)
  | .find key => some (t, .found (t.find p key))
  | .size => some (t, .size t.size)

/-- Calls one after the other, with their answers. -/
def calls (p : Policy K V) (fuel : Nat) : Table K V → List (Call K V) →
    Option (Table K V × List Answer)
  | t, [] => some (t, [])
  | t, c :: cs =>
    (t.call p fuel c).bind fun (t, a) => (calls p fuel t cs).map fun (t, as) => (t, a :: as)

end Calls

/-- Calls of the same kind with related arguments. -/
inductive Call.Alike (R : K → K' → Prop) (S : V → V' → Prop) : Call K V → Call K' V' → Prop where
  | insert {key : K} {key' : K'} {value : V} {value' : V'} (hkey : R key key')
      (hvalue : S value value')
      (mode : InsertMode) : Alike R S (.insert key value mode) (.insert key' value' mode)
  | erase {key : K} {key' : K'} (hkey : R key key') : Alike R S (.erase key) (.erase key')
  | find {key : K} {key' : K'} (hkey : R key key') : Alike R S (.find key) (.find key')
  | size : Alike R S .size .size

section

variable [Inhabited K] [Inhabited V] [Inhabited K'] [Inhabited V'] (hpq : p.Relates q R S)

include hpq

theorem Alike.call (h : t.Alike p R S t') {c : Call K V} {c' : Call K' V'} (hc : c.Alike R S c')
    (fuel : Nat) :
    Option.Rel (fun x x' => x.1.Alike p R S x'.1 ∧ x'.2 = x.2) (t.call p fuel c)
    (t'.call q fuel c') := by
  cases hc with
  | insert hkey hvalue mode =>
    refine rel_map (h.insertInternal hpq hkey hvalue mode fuel) ?_
    intro out out' hout
    refine ⟨hout.table, ?_⟩
    rw [hout.it, hout.inserted]
  | erase hkey =>
    obtain ⟨htable, hcount⟩ := h.erase hpq hkey
    exact .some ⟨htable, congrArg Answer.erased hcount⟩
  | find hkey => exact .some ⟨h, congrArg Answer.found (h.find hpq hkey)⟩
  | size => exact .some ⟨h, congrArg Answer.size h.size⟩

theorem Alike.calls (h : t.Alike p R S t') {cs : List (Call K V)} {cs' : List (Call K' V')}
    (hcs : List.Forall₂ (Call.Alike R S) cs cs') (fuel : Nat) :
    Option.Rel (fun x x' => x.1.Alike p R S x'.1 ∧ x'.2 = x.2) (t.calls p fuel cs)
      (t'.calls q fuel cs') := by
  induction hcs generalizing t t' with
  | nil => exact .some ⟨h, rfl⟩
  | cons hc _ ih =>
    refine rel_bind (h.call hpq hc fuel) ?_
    rintro ⟨t₁, a⟩ ⟨t₁', a'⟩ ⟨htable, rfl⟩
    refine rel_map (ih htable) ?_
    rintro ⟨t₂, as⟩ ⟨t₂', as'⟩ ⟨htable', rfl⟩
    exact ⟨htable', rfl⟩

/-- **A table sees of its keys no more than `HashFn` and `Equal`, and nothing of its values.**  Two
    tables that are made with the same depth and are called with related arguments answer
    every call alike. -/
theorem calls_eq {cs : List (Call K V)} {cs' : List (Call K' V')}
    (hcs : List.Forall₂ (Call.Alike R S) cs cs') (capacityLog fuel : Nat) :
    ((new q capacityLog).calls q fuel cs').map Prod.snd =
      ((new p capacityLog).calls p fuel cs).map Prod.snd := by
  refine (map_eq_of_rel ((alike_new hpq capacityLog).calls hpq hcs fuel) ?_).symm
  intro x x' h
  exact h.2.symm

end

/-- Seven insertions, with a split and a doubling, and three more calls. -/
def spreadCalls (f : Nat → UInt64) : List (Call UInt64 UInt64) :=
  (List.range 7).map (fun n => .insert (spreadKey n) (f n) .insertIfNotFound) ++
    [.erase (spreadKey 0), .find (spreadKey 6), .size]

/-- Other values under the same keys. -/
theorem calls_eq_spreadCalls : ∃ as,
    ((new narrow64 1).calls narrow64 2 (spreadCalls .ofNat)).map Prod.snd = some as ∧
    as.getLast? = some (.size 6) ∧
    ((new narrow64 1).calls narrow64 2 (spreadCalls fun _ => 0)).map Prod.snd = some as := by
  have hrelates : narrow64.Relates narrow64 (fun k k' => k' = k) (fun _ _ => True) :=
    { kSlotNum := rfl, kBucketNum := rfl, hashFn := fun h => h
      equal := by
        rintro a _ b _ rfl rfl
        rfl
      assignKey := fun _ _ _ _ h => h, movedKey := fun h => h, assignValue := fun _ _ _ _ h => h
      movedValue := fun h => h }
  have hcalls : List.Forall₂ (Call.Alike (fun k k' : UInt64 => k' = k) (fun _ _ => True))
      (spreadCalls .ofNat) (spreadCalls fun _ => 0) := by
    refine List.rel_append ?_
      (.cons (.erase rfl) (.cons (.find rfl) (.cons .size .nil)))
    rw [List.forall₂_map_left_iff, List.forall₂_map_right_iff, List.forall₂_same]
    intro n _
    exact .insert (R := fun k k' => k' = k) (S := fun _ _ => True) rfl trivial _
  have hsize : ((new narrow64 1).calls narrow64 2 (spreadCalls .ofNat)).map
      (fun x => x.2.getLast?) = some (some (.size 6)) := by decide +kernel
  obtain ⟨⟨t, as⟩, hrun, hlast⟩ := Option.map_eq_some_iff.mp hsize
  have hanswers := congrArg (Option.map Prod.snd) hrun
  exact ⟨as, hanswers, hlast, (calls_eq hrelates hcalls 1 2).trans hanswers⟩

end Table

end StorageEngine.DashTable
