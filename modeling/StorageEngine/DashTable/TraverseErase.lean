/-
  StorageEngine/DashTable/TraverseErase.lean
  ==========================================
  **Traverse with a callback that erases** (`Segment::TraverseLogicalBucket`,
  `Bucket::ForEachSlot`, `DashTable::Traverse`).

  The callback gets the iterator of an entry and may erase this entry from the table that is
  being traversed.  `ForEachSlot` reads the words of a bucket before its first call; the other
  buckets, the present bit of the stash, the keys of stash entries and the next position are
  read afterwards, from the table as the callback has left it.

  What has been erased is described by the slots: every slot keeps what it had, unless it was
  to be erased and is empty now.  Positions are ranked as for a traversal of a table that does
  not change, so after each visit the entries to erase are gone up to a rank.
-/
import StorageEngine.WhileLoop
import StorageEngine.DashTable.Traverse

namespace StorageEngine.DashTable

open StorageEngine SlotStore WhileLoop

variable {K V : Type}

namespace Table

/-! ### The traversal -/

section Callback

variable (p : Policy K V) (cb : Table K V → TableIter → Option (Table K V))

/-- The callback on a slot; the flag is `found`. -/
def visitSlot (sid b : Nat) (st : Table K V × Bool) (slot : Nat) : Option (Table K V × Bool) :=
  (cb st.1 ⟨sid, b, slot⟩).map fun t => (t, true)

/-- `ForEachSlot` on a bucket, with the busy bits and the probe bits from before the calls. -/
def forEachSlot (sid b : Nat) (f : Table K V × Bool → Nat → Bool → Option (Table K V × Bool))
    (st : Table K V × Bool) : Option (Table K V × Bool) :=
  let bucket := (st.1.seg sid).bucket b
  (bucket.busySlots p).foldlM
    (fun st slot => f st slot ((bucket.getProbe p true).getLsbD slot)) st

/-- The entries of a bucket with a given probe bit. -/
def visitProbed (sid b : Nat) (probe : Bool) (st : Table K V × Bool) :
    Option (Table K V × Bool) :=
  if ((st.1.seg sid).bucket b).getProbe p probe ≠ 0#32 then
    forEachSlot p sid b
      (fun st slot bit => if bit = probe then visitSlot cb sid b st slot else some st) st
  else some st

/-- The entries of a stash bucket with a given home bucket. -/
def visitStashBucket (sid bid : Nat) (st : Table K V × Bool) (i : Nat) :
    Option (Table K V × Bool) :=
  let j := p.kBucketNum + i
  forEachSlot p sid j
    (fun st slot _ =>
      if p.homeIndex (p.hashFn (((st.1.seg sid).bucket j).key slot)) = bid then
        visitSlot cb sid j st slot
      else some st) st

/-- `TraverseLogicalBucket` of the segment at an index, with its result. -/
def visitLogicalBucket (sid bid : Nat) (t : Table K V) : Option (Table K V × Bool) := do
  let st ← visitProbed p cb sid bid false (t, false)
  let st ← visitProbed p cb sid (p.nextBid bid) true st
  if ((st.1.seg sid).bucket bid).stash.hasStash then
    (List.range kStashBucketNum).foldlM (visitStashBucket p cb sid bid) st
  else some st

/-- A round of the loop of `Traverse`, which leaves with the table and the cursor. -/
def traverseRound :
    Table K V × Nat × Nat → (Table K V × Nat × Nat) ⊕ Option (Table K V × DashCursor)
  | (t, bid, sid) =>
    match visitLogicalBucket p cb sid bid t with
    | none => .inr none
    | some (t, fetched) =>
      match t.advance p bid sid with
      | none => .inr (some (t, ⟨0⟩))
      | some (bid, sid) =>
        if fetched then .inr (some (t, DashCursor.pack t.globalDepth sid bid))
        else .inl (t, bid, sid)

/-- `Traverse`.  The loop has a round for each bucket and segment at most. -/
def traverseWith (t : Table K V) (curs : DashCursor) : Option (Table K V × DashCursor) :=
  let sid := curs.segmentId t.globalDepth
  let bid := curs.bucketId
  if p.kBucketNum ≤ bid ∨ t.segmentSize ≤ sid then some (t, ⟨0⟩)
  else (run (traverseRound p cb) (p.kBucketNum * t.segmentSize) (t, bid, sid)).join

/-- A round of `do cursor = Traverse(cursor, cb) while (cursor)`. -/
def sweepRound : Table K V × DashCursor → (Table K V × DashCursor) ⊕ Option (Table K V)
  | (t, c) =>
    match traverseWith p cb t c with
    | none => .inr none
    | some (t, c) => if c.val = 0 then .inr (some t) else .inl (t, c)

/-- The whole loop, from a cursor that was not set. -/
def sweep (fuel : Nat) (t : Table K V) : Option (Table K V) :=
  (run (sweepRound p cb) fuel (t, {})).join

end Callback

/-! ### Erased entries -/

variable {p : Policy K V}

/-- The table represents some map. -/
def IsMap (p : Policy K V) (t : Table K V) : Prop := ∃ m, t.Refines p m

theorem IsMap.runInv {t : Table K V} (h : t.IsMap p) : t.RunInv p := by
  obtain ⟨m, hm⟩ := h
  exact hm.toRunInv

/-- `t'` is `t` without the entries that are to go. -/
structure Erased (p : Policy K V) (t t' : Table K V) (gone : Nat → Nat × Nat → Entry K V → Prop) :
    Prop where
  isMap : t'.IsMap p
  segment : t'.segment = t.segment
  segmentSize : t'.segmentSize = t.segmentSize
  globalDepth : t'.globalDepth = t.globalDepth
  mem : ∀ i < 2 ^ t.globalDepth, ∀ x : Nat × Nat, x.1 < p.kTotalBuckets → ∀ e,
    (t'.seg i).cell x = some e ↔ (t.seg i).cell x = some e ∧ ¬ gone i x e

section Erased

variable {t t' t'' : Table K V} {gone gone' : Nat → Nat × Nat → Entry K V → Prop}

theorem Erased.refl (h : t.IsMap p) : Erased p t t fun _ _ _ => False where
  isMap := h
  segment := rfl
  segmentSize := rfl
  globalDepth := rfl
  mem i _ x _ e := by
    rw [not_false_eq_true, and_true]

theorem Erased.congr (h : Erased p t t' gone)
    (hgone : ∀ i < 2 ^ t.globalDepth, ∀ x : Nat × Nat, x.1 < p.kTotalBuckets → ∀ e,
      (t.seg i).cell x = some e → (gone i x e ↔ gone' i x e)) : Erased p t t' gone' where
  isMap := h.isMap
  segment := h.segment
  segmentSize := h.segmentSize
  globalDepth := h.globalDepth
  mem i hi x hx e := by
    rw [h.mem i hi x hx e]
    refine and_congr_right fun he => ?_
    rw [hgone i hi x hx e he]

theorem Erased.trans (h : Erased p t t' gone) (h' : Erased p t' t'' gone') :
    Erased p t t'' fun i x e => gone i x e ∨ gone' i x e where
  isMap := h'.isMap
  segment := h'.segment.trans h.segment
  segmentSize := h'.segmentSize.trans h.segmentSize
  globalDepth := h'.globalDepth.trans h.globalDepth
  mem i hi x hx e := by
    rw [h'.mem i (h.globalDepth ▸ hi) x hx e, h.mem i hi x hx e, not_or, and_assoc]

/-- A block of the directory still starts where it did. -/
theorem Erased.isStart (h : Erased p t t' gone) {sid : Nat} (hsid : sid < 2 ^ t.globalDepth)
    (hstart : Directory.IsStart t.globalDepth t.segment sid) :
    sid < 2 ^ t'.globalDepth ∧ Directory.IsStart t'.globalDepth t'.segment sid := by
  rw [h.globalDepth, h.segment]
  exact ⟨hsid, hstart⟩

/-- Erasing one entry. -/
theorem erased_eraseIt [DecidableEq K] (h : t.IsMap p) {it : TableIter}
    (hseg : it.segId < 2 ^ t.globalDepth) (hbucket : it.bucketId < p.kTotalBuckets) {e : Entry K V}
    (he : t.cellAt it = some e) : Erased p t (t.eraseIt p it) fun i x _ =>
      t.segment i = t.segment it.segId ∧ x = it.iter.at := by
  obtain ⟨m, hm⟩ := h
  have hkey : ((t.seg it.segId).bucket it.bucketId).key it.slotId = e.key :=
    (Bucket.key_of_cell he).1
  obtain ⟨hinv, hentries⟩ := eraseIt_spec p hm.toInv hseg hbucket he
  have hbusy : (t.seg it.segId).cell it.iter.at = some e := he
  have hcell : (((t.seg it.segId).destroySlot p it.iter).delete p it.iter (p.hashFn e.key)).cell =
      Function.update (t.seg it.segId).cell it.iter.at none :=
    Segment.cell_destroy_delete p (hm.segInv _ hseg).slotsWF hbusy _
  refine ⟨⟨m.erase e.key, hm.erased hinv hentries rfl rfl rfl⟩, rfl, rfl, rfl, ?_⟩
  intro i _ x _ e'
  have hseg' : (t.eraseIt p it).seg i = if t.segment i = t.segment it.segId then
      ((t.seg it.segId).destroySlot p it.iter).delete p it.iter (p.hashFn e.key) else t.seg i := by
    rw [← hkey]
    exact seg_setSeg t it.segId _ i
  rw [hseg']
  by_cases hi : t.segment i = t.segment it.segId
  · rw [if_pos hi, hcell]
    by_cases hx : x = it.iter.at
    · simp [hi, hx]
    · rw [Function.update_of_ne hx, seg_congr hi]
      simp [hx]
  · rw [if_neg hi]
    simp [hi]

end Erased

/-! ### One visit -/

section Visit

variable [DecidableEq K] {due : K → V → Bool} {cb : Table K V → TableIter → Option (Table K V)}
  {t : Table K V}

/-- The callback erases the entry that it gets if that is due, and does nothing else. -/
def ErasesDue (p : Policy K V) (due : K → V → Bool)
    (cb : Table K V → TableIter → Option (Table K V)) : Prop :=
  ∀ (t : Table K V) (it : TableIter) (e : Entry K V), t.IsMap p → it.segId < t.segmentSize →
    it.bucketId < p.kTotalBuckets → t.cellAt it = some e →
    cb t it = some (if due e.key e.value then t.eraseIt p it else t)

omit [DecidableEq K] in
/-- A slot has one entry, whichever index of the segment it is read through. -/
theorem entry_unique {i sid : Nat} {x y : Nat × Nat} {e e' : Entry K V}
    (he : (t.seg sid).cell y = some e) (he' : (t.seg i).cell x = some e')
    (hseg : t.segment i = t.segment sid) (hx : x = y) : e = e' := by
  rw [hx, seg_congr hseg, he] at he'
  exact Option.some.inj he'

theorem ErasesDue.visitSlot (hcb : ErasesDue p due cb) (h : t.IsMap p) {sid b slot : Nat}
    (hsid : sid < 2 ^ t.globalDepth) (hb : b < p.kTotalBuckets) {e : Entry K V}
    (he : (t.seg sid).cell (b, slot) = some e) (found : Bool) :
    ∃ t', visitSlot cb sid b (t, found) slot = some (t', true) ∧
      Erased p t t' fun i x e => t.segment i = t.segment sid ∧ x = (b, slot) ∧
        due e.key e.value = true := by
  refine ⟨if due e.key e.value then t.eraseIt p ⟨sid, b, slot⟩ else t, ?_, ?_⟩
  · unfold Table.visitSlot
    rw [hcb t ⟨sid, b, slot⟩ e h (h.runInv.segmentSize ▸ hsid) hb he]
    rfl
  · by_cases hdue : due e.key e.value = true
    · rw [if_pos hdue]
      have herased : Erased p t (t.eraseIt p ⟨sid, b, slot⟩) fun i x _ =>
          t.segment i = t.segment sid ∧ x = (b, slot) := erased_eraseIt h hsid hb he
      apply herased.congr
      intro i _ x _ e' he'
      constructor
      · rintro ⟨hseg, hx⟩
        exact ⟨hseg, hx, entry_unique he he' hseg hx ▸ hdue⟩
      · rintro ⟨hseg, hx, -⟩
        exact ⟨hseg, hx⟩
    · rw [if_neg hdue]
      apply (Erased.refl h).congr
      intro i _ x _ e' he'
      refine iff_of_false id ?_
      rintro ⟨hseg, hx, hdue'⟩
      exact hdue (entry_unique he he' hseg hx ▸ hdue')

/-- A slot that passes a test on its entry, or is left alone. -/
theorem ErasesDue.visitIf (hcb : ErasesDue p due cb) (h : t.IsMap p) {sid b slot : Nat}
    (hsid : sid < 2 ^ t.globalDepth) (hb : b < p.kTotalBuckets) {e : Entry K V}
    (he : (t.seg sid).cell (b, slot) = some e) (found : Bool) {c : Prop} [Decidable c]
    {q : Entry K V → Prop} (hq : c ↔ q e) :
    ∃ t' found', (if c then Table.visitSlot cb sid b (t, found) slot else some (t, found)) =
        some (t', found') ∧
      Erased p t t' fun i x e => t.segment i = t.segment sid ∧ (x = (b, slot) ∧ q e) ∧
        due e.key e.value = true := by
  by_cases hpass : c
  · obtain ⟨t', hvisit, hgone⟩ := hcb.visitSlot h hsid hb he found
    refine ⟨t', true, ?_, hgone.congr ?_⟩
    · rw [if_pos hpass, hvisit]
    · intro i _ x _ e' he'
      refine and_congr_right fun hseg => and_congr_left fun _ => ?_
      refine (and_iff_left_of_imp fun hx => ?_).symm
      exact entry_unique he he' hseg hx ▸ hq.mp hpass
  · refine ⟨t, found, if_neg hpass, (Erased.refl h).congr ?_⟩
    intro i _ x _ e' he'
    refine iff_of_false id ?_
    rintro ⟨hseg, ⟨hx, hqe⟩, -⟩
    exact hpass (hq.mpr (entry_unique he he' hseg hx ▸ hqe))

/-- A loop over busy slots of a bucket, with a test that only depends on the entry in the slot. -/
theorem visit_slots (hcb : ErasesDue p due cb) {sid b : Nat} (hb : b < p.kTotalBuckets)
    {test : Table K V × Bool → Nat → Prop} [∀ st j, Decidable (test st j)] {q : Entry K V → Prop}
    (l : List Nat) (hnodup : l.Nodup) (h : t.IsMap p) (hsid : sid < 2 ^ t.globalDepth)
    (found : Bool) (hbusy : ∀ j ∈ l, ∃ e, (t.seg sid).cell (b, j) = some e)
    (htest : ∀ st, ∀ j ∈ l, ∀ e, (t.seg sid).cell (b, j) = some e →
      (st.1.seg sid).cell (b, j) = some e → (test st j ↔ q e)) :
    ∃ t' found', l.foldlM (fun st j => if test st j then visitSlot cb sid b st j else some st)
        (t, found) = some (t', found') ∧
      Erased p t t' fun i x e => t.segment i = t.segment sid ∧ (x.1 = b ∧ x.2 ∈ l ∧ q e) ∧
        due e.key e.value = true := by
  induction l generalizing t found with
  | nil =>
    refine ⟨t, found, rfl, (Erased.refl h).congr ?_⟩
    intro i _ x _ e _
    simp
  | cons j l ih =>
    obtain ⟨hj, hnodup'⟩ := List.nodup_cons.mp hnodup
    obtain ⟨e, he⟩ := hbusy j List.mem_cons_self
    have hq := htest (t, found) j List.mem_cons_self e he he
    obtain ⟨t₁, found₁, hfirst, hgone⟩ := hcb.visitIf h hsid hb he found hq
    -- the other slots are what they were
    have hother : ∀ j' ∈ l, ∀ e', (t₁.seg sid).cell (b, j') = some e' ↔
        (t.seg sid).cell (b, j') = some e' := by
      intro j' hj' e'
      rw [hgone.mem sid hsid (b, j') hb e', and_iff_left]
      rintro ⟨-, ⟨hx, -⟩, -⟩
      exact hj ((Prod.mk.inj hx).2 ▸ hj')
    obtain ⟨t₂, found₂, hrest, hgone'⟩ := ih (t := t₁) hnodup' hgone.isMap
      (hgone.globalDepth ▸ hsid) found₁
      (fun j' hj' => by
        obtain ⟨e', he'⟩ := hbusy j' (List.mem_cons_of_mem j hj')
        exact ⟨e', (hother j' hj' e').mpr he'⟩)
      (fun st j' hj' e' he' hst =>
        htest st j' (List.mem_cons_of_mem j hj') e' ((hother j' hj' e').mp he') hst)
    refine ⟨t₂, found₂, ?_, (hgone.trans hgone').congr ?_⟩
    · rw [List.foldlM_cons, hfirst]
      exact hrest
    · intro i _ x _ e' _
      rw [hgone.segment, ← and_or_left, ← or_and_right, List.mem_cons]
      refine and_congr_right fun _ => and_congr_left fun _ => ?_
      constructor
      · rintro (⟨rfl, hqe⟩ | ⟨hx, hmem, hqe⟩)
        · exact ⟨rfl, Or.inl rfl, hqe⟩
        · exact ⟨hx, Or.inr hmem, hqe⟩
      · rintro ⟨hx, hslot | hmem, hqe⟩
        · exact Or.inl ⟨Prod.ext hx hslot, hqe⟩
        · exact Or.inr ⟨hx, hmem, hqe⟩

/-- A loop over all busy slots of a bucket. -/
theorem visit_bucket (hcb : ErasesDue p due cb) {sid b : Nat} (hb : b < p.kTotalBuckets)
    {test : Table K V × Bool → Nat → Prop} [∀ st j, Decidable (test st j)] {q : Entry K V → Prop}
    (h : t.IsMap p) (hsid : sid < 2 ^ t.globalDepth) (found : Bool)
    (htest : ∀ st j e, (t.seg sid).cell (b, j) = some e → (st.1.seg sid).cell (b, j) = some e →
      (test st j ↔ q e)) :
    ∃ t' found', (((t.seg sid).bucket b).busySlots p).foldlM
        (fun st j => if test st j then visitSlot cb sid b st j else some st) (t, found) =
          some (t', found') ∧
      Erased p t t' fun i x e => t.segment i = t.segment sid ∧ (x.1 = b ∧ q e) ∧
        due e.key e.value = true := by
  have hwf := (h.runInv.segInv sid hsid).slotsWF
  have hmem : ∀ j, j ∈ ((t.seg sid).bucket b).busySlots p ↔
      ∃ e, (t.seg sid).cell (b, j) = some e := by
    intro j
    rw [Bucket.mem_busySlots p (hwf b)]
    exact Option.ne_none_iff_exists'
  obtain ⟨t', found', hvisit, hgone⟩ := visit_slots hcb hb (((t.seg sid).bucket b).busySlots p)
    (Bucket.nodup_busySlots p _) h hsid found (fun j hj => (hmem j).mp hj)
    (fun st j _ => htest st j)
  refine ⟨t', found', hvisit, hgone.congr ?_⟩
  intro i _ x _ e he
  refine and_congr_right fun hseg => and_congr_left fun _ => and_congr_right fun hx => ?_
  refine and_iff_right ((hmem x.2).mpr ⟨e, ?_⟩)
  rw [← hx, seg_congr hseg.symm]
  exact he

/-- The entries with a given probe bit.  The mask test only skips loops without such an entry. -/
theorem visitProbed_spec (hcb : ErasesDue p due cb) (h : t.IsMap p) {sid b : Nat}
    (hsid : sid < 2 ^ t.globalDepth) (hb : b < p.kTotalBuckets) (probe found : Bool) :
    ∃ t' found', visitProbed p cb sid b probe (t, found) = some (t', found') ∧
      Erased p t t' fun i x e => t.segment i = t.segment sid ∧ (x.1 = b ∧ e.probe = probe) ∧
        due e.key e.value = true := by
  have hwf := (h.runInv.segInv sid hsid).slotsWF
  unfold visitProbed forEachSlot
  dsimp only
  split
  · apply visit_bucket hcb hb h hsid found
    intro st j e he _
    rw [Segment.getLsbD_getProbe_of_cell p hwf he]
    simp
  · rename_i hzero
    refine ⟨t, found, rfl, (Erased.refl h).congr ?_⟩
    intro i _ x _ e he
    refine iff_of_false id ?_
    rintro ⟨hseg, ⟨hx, hprobe⟩, -⟩
    have he' : (t.seg sid).cell (b, x.2) = some e := by
      rw [← hx, seg_congr hseg.symm]
      exact he
    have hbit := Segment.getLsbD_getProbe_of_cell p hwf he' probe
    rw [not_not.mp hzero, hprobe] at hbit
    simp at hbit

theorem visitStashBucket_spec (hcb : ErasesDue p due cb) (h : t.IsMap p) {sid : Nat}
    (hsid : sid < 2 ^ t.globalDepth) (bid : Nat) {q : Nat} (hq : q < kStashBucketNum)
    (found : Bool) :
    ∃ t' found', visitStashBucket p cb sid bid (t, found) q = some (t', found') ∧
      Erased p t t' fun i x e => t.segment i = t.segment sid ∧
        (x.1 = p.kBucketNum + q ∧ p.homeIndex (p.hashFn e.key) = bid) ∧
          due e.key e.value = true := by
  unfold visitStashBucket forEachSlot
  dsimp only
  apply visit_bucket hcb (p.stash_lt_total hq) h hsid found
  intro st j e _ he
  rw [show ((st.1.seg sid).bucket (p.kBucketNum + q)).key j = e.key from (Bucket.key_of_cell he).1]

theorem visitStash_spec (hcb : ErasesDue p due cb) {sid : Nat} (bid : Nat) (l : List Nat)
    (hl : ∀ q ∈ l, q < kStashBucketNum) (h : t.IsMap p) (hsid : sid < 2 ^ t.globalDepth)
    (found : Bool) :
    ∃ t' found', l.foldlM (visitStashBucket p cb sid bid) (t, found) = some (t', found') ∧
      Erased p t t' fun i x e => t.segment i = t.segment sid ∧
        ((∃ q ∈ l, x.1 = p.kBucketNum + q) ∧ p.homeIndex (p.hashFn e.key) = bid) ∧
          due e.key e.value = true := by
  induction l generalizing t found with
  | nil =>
    refine ⟨t, found, rfl, (Erased.refl h).congr ?_⟩
    intro i _ x _ e _
    simp
  | cons q l ih =>
    obtain ⟨t₁, found₁, hfirst, hgone⟩ :=
      visitStashBucket_spec hcb h hsid bid (hl q List.mem_cons_self) found
    obtain ⟨t₂, found₂, hrest, hgone'⟩ := ih (fun q' hq' => hl q' (List.mem_cons_of_mem q hq'))
      hgone.isMap (hgone.globalDepth ▸ hsid) found₁
    refine ⟨t₂, found₂, ?_, (hgone.trans hgone').congr ?_⟩
    · rw [List.foldlM_cons, hfirst]
      exact hrest
    · intro i _ x _ e _
      rw [hgone.segment, ← and_or_left, ← or_and_right, ← or_and_right]
      simp only [List.mem_cons, exists_eq_or_imp]

/-- The present bit only skips loops that would find nothing. -/
theorem visitPresent_spec (hcb : ErasesDue p due cb) (h : t.IsMap p) {sid bid : Nat}
    (hsid : sid < 2 ^ t.globalDepth) (hbid : bid < p.kBucketNum) (found : Bool) :
    ∃ t' found', (if ((t.seg sid).bucket bid).stash.hasStash then
        (List.range kStashBucketNum).foldlM (visitStashBucket p cb sid bid) (t, found)
      else some (t, found)) = some (t', found') ∧
      Erased p t t' fun i x e => t.segment i = t.segment sid ∧
        ((∃ q ∈ List.range kStashBucketNum, x.1 = p.kBucketNum + q) ∧
          p.homeIndex (p.hashFn e.key) = bid) ∧ due e.key e.value = true := by
  split
  · exact visitStash_spec hcb bid _ (fun q hq => List.mem_range.mp hq) h hsid found
  · rename_i hno
    refine ⟨t, found, rfl, (Erased.refl h).congr ?_⟩
    intro i _ x _ e he
    refine iff_of_false id ?_
    rintro ⟨hseg, ⟨⟨q, hq, hx⟩, hhome⟩, -⟩
    have hinv := h.runInv.segInv sid hsid
    have he' : (t.seg sid).cell (p.kBucketNum + q, x.2) = some e := by
      rw [← hx, seg_congr hseg.symm]
      exact he
    exact hno (hinv.hasStash_of_cell p hbid (List.mem_range.mp hq) he' hhome)

/-- **One visit** erases the due entries at home in the bucket of the segment. -/
theorem visitLogicalBucket_spec (hcb : ErasesDue p due cb) (h : t.IsMap p) {sid bid : Nat}
    (hsid : sid < 2 ^ t.globalDepth) (hbid : bid < p.kBucketNum) :
    ∃ t' found, visitLogicalBucket p cb sid bid t = some (t', found) ∧
      Erased p t t' fun i _ e => t.segment i = t.segment sid ∧
        p.homeIndex (p.hashFn e.key) = bid ∧ due e.key e.value = true := by
  obtain ⟨t₁, found₁, hown, hgone₁⟩ :=
    visitProbed_spec hcb h hsid (p.lt_total_of_lt hbid) false false
  obtain ⟨t₂, found₂, hnext, hgone₂⟩ := visitProbed_spec hcb hgone₁.isMap
    (hgone₁.globalDepth ▸ hsid) (p.lt_total_of_lt (p.nextBid_lt bid)) true found₁
  have hgone₁₂ := hgone₁.trans hgone₂
  have hsid₂ : sid < 2 ^ t₂.globalDepth := hgone₁₂.globalDepth ▸ hsid
  obtain ⟨t₃, found₃, hstash, hgone₃⟩ := visitPresent_spec hcb hgone₂.isMap hsid₂ hbid found₂
  refine ⟨t₃, found₃, ?_, (hgone₁₂.trans hgone₃).congr ?_⟩
  · unfold visitLogicalBucket
    rw [hown]
    simp only [Option.bind_eq_bind, Option.bind_some]
    rw [hnext]
    exact hstash
  · intro i hi x hx e he
    rw [hgone₁₂.segment, hgone₁.segment, ← and_or_left, ← or_and_right, ← and_or_left,
      ← or_and_right]
    refine and_congr_right fun hseg => and_congr_left fun _ => ?_
    exact Segment.home_iff_parts p (h.runInv.segInv i hi) hbid hx he

/-! ### The loops -/

/-- In terms of ranks, a visit erases the due entries of an interval. -/
theorem visit_ranks (hcb : ErasesDue p due cb) (h : t.IsMap p) {sid bid : Nat}
    (hsid : sid < 2 ^ t.globalDepth) (hbid : bid < p.kBucketNum)
    (hstart : Directory.IsStart t.globalDepth t.segment sid) :
    ∃ t' found, visitLogicalBucket p cb sid bid t = some (t', found) ∧
      Erased p t t' fun _ _ e => (position t.globalDepth bid sid ≤ hashRank p (p.hashFn e.key) ∧
        hashRank p (p.hashFn e.key) < position t.globalDepth bid (t'.nextSeg sid)) ∧
          due e.key e.value = true := by
  obtain ⟨t', found, hvisit, hgone⟩ := visitLogicalBucket_spec hcb h hsid hbid
  refine ⟨t', found, hvisit, hgone.congr ?_⟩
  intro i hi x hx e he
  have hg := h.runInv.globalDepth_le
  obtain ⟨hsid', hstart'⟩ := hgone.isStart hsid hstart
  have hblock := hgone.isMap.runInv.toInv.block_of_isStart hsid' hstart'
  rw [hgone.globalDepth, hgone.segment] at hblock
  have hidx : (⟨x.1, x.2⟩ : Iter).index < p.kTotalBuckets := hx
  have hseg := segment_eq_of_cell h.runInv.toInv hg hi hidx he
  rw [hashRank_between p (by omega) hblock.1, ← segmentId_eq hg,
    ← hblock.2 _ (segmentId_lt hg _), hseg, ← and_assoc,
    and_comm (a := t.segment i = t.segment sid)]

variable {t₀ : Table K V}

/-- The due entries are gone up to a position, and the position is the first index of a block. -/
structure SweptTo (p : Policy K V) (due : K → V → Bool) (t₀ t : Table K V) (bid sid : Nat) :
    Prop where
  erased : Erased p t₀ t fun _ _ e =>
    hashRank p (p.hashFn e.key) < position t₀.globalDepth bid sid ∧ due e.key e.value = true
  bid_lt : bid < p.kBucketNum
  sid_lt : sid < 2 ^ t₀.globalDepth
  isStart : Directory.IsStart t₀.globalDepth t₀.segment sid

/-- All due entries are gone. -/
def Swept (p : Policy K V) (due : K → V → Bool) (t₀ t : Table K V) : Prop :=
  Erased p t₀ t fun _ _ e => due e.key e.value = true

/-- The number of a position among all of them. -/
def index (t₀ : Table K V) (bid sid : Nat) : Nat := bid * t₀.segmentSize + sid

omit [DecidableEq K] in
theorem index_lt_of_advance {bid sid bid' sid' : Nat} (hsid : sid < t.segmentSize)
    (h : t.advance p bid sid = some (bid', sid')) : t.index bid sid < t.index bid' sid' := by
  unfold index
  rcases t.advance_cases p bid sid with ⟨-, -, hnone⟩ | ⟨-, -, hsome⟩ | ⟨-, hsome⟩
  · rw [hnone] at h
    cases h
  · rw [hsome] at h
    cases h
    rw [Nat.succ_mul]
    omega
  · rw [hsome] at h
    cases h
    exact Nat.add_lt_add_left (t.lt_nextSeg sid) _

omit [DecidableEq K] in
theorem index_lt {bid sid : Nat} (hbid : bid < p.kBucketNum) (hsid : sid < t.segmentSize) :
    t.index bid sid < p.kBucketNum * t.segmentSize := by
  have hle : (bid + 1) * t.segmentSize ≤ p.kBucketNum * t.segmentSize :=
    Nat.mul_le_mul_right _ hbid
  rw [Nat.succ_mul] at hle
  unfold index
  omega

omit [DecidableEq K] in
theorem hashRank_lt (p : Policy K V) (hash : UInt64) : hashRank p hash < p.kBucketNum * 2 ^ 64 := by
  have hhome : (p.homeIndex hash + 1) * 2 ^ 64 ≤ p.kBucketNum * 2 ^ 64 :=
    Nat.mul_le_mul_right _ (p.homeIndex_lt hash)
  have hlt : hash.toNat < 2 ^ 64 := hash.toNat_lt
  rw [Nat.succ_mul] at hhome
  unfold hashRank
  omega

omit [DecidableEq K] in
/-- A visit of the next interval extends what is gone. -/
theorem SweptTo.past {t' : Table K V} {bid sid : Nat} (h : SweptTo p due t₀ t bid sid)
    (hgone : Erased p t t' fun _ _ e =>
      (position t.globalDepth bid sid ≤ hashRank p (p.hashFn e.key) ∧
        hashRank p (p.hashFn e.key) < position t.globalDepth bid (t'.nextSeg sid)) ∧
          due e.key e.value = true) :
    Erased p t₀ t' fun _ _ e =>
      hashRank p (p.hashFn e.key) < position t₀.globalDepth bid (t'.nextSeg sid) ∧
        due e.key e.value = true := by
  have hlt : position t.globalDepth bid sid < position t.globalDepth bid (t'.nextSeg sid) := by
    rw [← hgone.globalDepth]
    exact t'.position_lt_nextSeg bid sid
  apply (h.erased.trans hgone).congr
  intro _ _ _ _ e _
  rw [← h.erased.globalDepth, ← or_and_right]
  apply and_congr_left
  intro _
  constructor
  · rintro (hbefore | ⟨-, hinside⟩)
    · exact hbefore.trans hlt
    · exact hinside
  · intro hpast
    exact (Nat.lt_or_ge _ _).imp_right fun hle => ⟨hle, hpast⟩

/-- After a visit the next position is further on, or everything is swept. -/
theorem SweptTo.visit (hcb : ErasesDue p due cb) {bid sid : Nat} (h : SweptTo p due t₀ t bid sid) :
    ∃ t' found, visitLogicalBucket p cb sid bid t = some (t', found) ∧
      ((t'.advance p bid sid = none ∧ Swept p due t₀ t') ∨
      ∃ bid' sid', t'.advance p bid sid = some (bid', sid') ∧ SweptTo p due t₀ t' bid' sid' ∧
        t₀.index bid sid < t₀.index bid' sid' ∧ (sid' ≠ 0 ∨ bid' ≠ 0)) := by
  obtain ⟨hsid, hstart⟩ := h.erased.isStart h.sid_lt h.isStart
  obtain ⟨t', found, hvisit, hgone⟩ := visit_ranks hcb h.erased.isMap hsid h.bid_lt hstart
  refine ⟨t', found, hvisit, ?_⟩
  have hall := h.past hgone
  have hinv := hall.isMap.runInv
  obtain ⟨hsid', hstart'⟩ := hall.isStart h.sid_lt h.isStart
  cases hadvance : t'.advance p bid sid with
  | none =>
    refine Or.inl ⟨rfl, hall.congr ?_⟩
    intro _ _ _ _ e _
    have hend := advance_none hinv.toInv hinv.globalDepth_le h.bid_lt hsid' hstart' hadvance
    rw [hall.globalDepth] at hend
    rw [hend]
    exact and_iff_right (hashRank_lt p _)
  | some next =>
    obtain ⟨bid', sid'⟩ := next
    obtain ⟨hpos, hbid', hsid'', hne, hstart''⟩ :=
      advance_some hinv.toInv hinv.globalDepth_le h.bid_lt hsid' hstart' hadvance
    rw [hall.globalDepth] at hpos hsid'' hstart''
    rw [hall.segment] at hstart''
    refine Or.inr ⟨bid', sid', rfl, ⟨?_, hbid', hsid'', hstart''⟩, ?_, hne⟩
    · rw [hpos]
      exact hall
    · have hlt := index_lt_of_advance (hinv.segmentSize ▸ hsid') hadvance
      unfold index at hlt ⊢
      rw [hall.segmentSize] at hlt
      exact hlt

omit [DecidableEq K] in
theorem SweptTo.index_lt {bid sid : Nat} (h : SweptTo p due t₀ t bid sid) :
    t₀.index bid sid < p.kBucketNum * t₀.segmentSize := by
  have hsize := h.erased.isMap.runInv.segmentSize
  rw [h.erased.segmentSize, h.erased.globalDepth] at hsize
  exact Table.index_lt h.bid_lt (hsize ▸ h.sid_lt)

/-- What a call that starts at a position returns. -/
structure Resumes (p : Policy K V) (due : K → V → Bool) (t₀ : Table K V) (start : Nat)
    (t' : Table K V) (c : DashCursor) (bid sid : Nat) : Prop where
  swept : SweptTo p due t₀ t' bid sid
  packs : c.Packs t₀.globalDepth sid bid
  val_ne_zero : c.val ≠ 0
  lt : start < t₀.index bid sid

def CallEnds (p : Policy K V) (due : K → V → Bool) (t₀ : Table K V) (start : Nat)
    (r : Option (Table K V × DashCursor)) : Prop :=
  ∃ t' c, r = some (t', c) ∧
    ((c.val = 0 ∧ Swept p due t₀ t') ∨ ∃ bid sid, Resumes p due t₀ start t' c bid sid)

/-- A round of `Traverse`. -/
theorem traverseRound_spec (hcb : ErasesDue p due cb) {bid sid : Nat}
    (h : SweptTo p due t₀ t bid sid) :
    (∃ r, traverseRound p cb (t, bid, sid) = .inr r ∧
      CallEnds p due t₀ (t₀.index bid sid) r) ∨
    ∃ t' bid' sid', traverseRound p cb (t, bid, sid) = .inl (t', bid', sid') ∧
      SweptTo p due t₀ t' bid' sid' ∧ t₀.index bid sid < t₀.index bid' sid' := by
  obtain ⟨t', found, hvisit, ⟨hend, hswept⟩ | ⟨bid', sid', hnext, hswept, hlt, hne⟩⟩ := h.visit hcb
  · refine Or.inl ⟨some (t', ⟨0⟩), ?_, t', ⟨0⟩, rfl, Or.inl ⟨rfl, hswept⟩⟩
    unfold traverseRound
    dsimp only
    rw [hvisit]
    dsimp only
    rw [hend]
  · cases found with
    | false =>
      refine Or.inr ⟨t', bid', sid', ?_, hswept, hlt⟩
      unfold traverseRound
      dsimp only
      rw [hvisit]
      dsimp only
      rw [hnext]
      rfl
    | true =>
      have hrun := hswept.erased.isMap.runInv
      have hgd := hswept.erased.globalDepth
      have hnum := p.kTotalBuckets_lt
      have hbid' := hswept.bid_lt
      have hpacks := DashCursor.packs_pack (hgd ▸ hrun.globalDepth_le) hswept.sid_lt
        (show bid' < 2 ^ 8 by omega)
      refine Or.inl ⟨some (t', DashCursor.pack t₀.globalDepth sid' bid'), ?_, t', _, rfl,
        Or.inr ⟨bid', sid', hswept, hpacks, hpacks.val_ne_zero hne, hlt⟩⟩
      unfold traverseRound
      dsimp only
      rw [hvisit]
      dsimp only
      rw [hnext, ← hgd]
      rfl

omit [DecidableEq K] in
theorem CallEnds.mono {start start' : Nat} {r : Option (Table K V × DashCursor)}
    (h : CallEnds p due t₀ start r) (hle : start' ≤ start) : CallEnds p due t₀ start' r := by
  obtain ⟨t', c, hr, hend | ⟨bid, sid, hresumes⟩⟩ := h
  · exact ⟨t', c, hr, Or.inl hend⟩
  · exact ⟨t', c, hr, Or.inr ⟨bid, sid, hresumes.swept, hresumes.packs, hresumes.val_ne_zero,
      Nat.lt_of_le_of_lt hle hresumes.lt⟩⟩

/-- **A call of `Traverse`** returns, further on. -/
theorem traverseWith_spec (hcb : ErasesDue p due cb) {bid sid : Nat}
    (h : SweptTo p due t₀ t bid sid) {c : DashCursor} (hc : c.Packs t₀.globalDepth sid bid) :
    CallEnds p due t₀ (t₀.index bid sid) (traverseWith p cb t c) := by
  have hsize := h.erased.isMap.runInv.segmentSize
  have hgd := h.erased.globalDepth
  have hsid := h.sid_lt
  have hbid := h.bid_lt
  obtain ⟨r, hrun, hr⟩ : ∃ r, run (traverseRound p cb)
      (p.kBucketNum * t₀.segmentSize - t₀.index bid sid - 1 + 1) (t, bid, sid) = some r ∧
        CallEnds p due t₀ (t₀.index bid sid) r := by
    apply run_of_variant (I := fun x : Table K V × Nat × Nat =>
        SweptTo p due t₀ x.1 x.2.1 x.2.2 ∧ t₀.index bid sid ≤ t₀.index x.2.1 x.2.2)
      (fun x => p.kBucketNum * t₀.segmentSize - t₀.index x.2.1 x.2.2 - 1) ?_ ?_
      ⟨h, Nat.le_refl _⟩
    · rintro ⟨t₁, bid₁, sid₁⟩ ⟨t₂, bid₂, sid₂⟩ ⟨hswept, hle⟩ hround
      rcases traverseRound_spec hcb hswept with
        ⟨r, hr, -⟩ | ⟨t', bid', sid', hnext, hswept', hlt⟩
      · rw [hr] at hround
        cases hround
      · rw [hnext] at hround
        cases hround
        have hbound := hswept'.index_lt
        refine ⟨⟨hswept', Nat.le_trans hle hlt.le⟩, ?_⟩
        dsimp only at hlt hbound ⊢
        omega
    · rintro ⟨t₁, bid₁, sid₁⟩ r ⟨hswept, hle⟩ hround
      rcases traverseRound_spec hcb hswept with
        ⟨r', hr, hends⟩ | ⟨t', bid', sid', hnext, -, -⟩
      · rw [hr] at hround
        cases hround
        exact hends.mono hle
      · rw [hnext] at hround
        cases hround
  have hlt := h.index_lt
  have hfuel : run (traverseRound p cb) (p.kBucketNum * t.segmentSize) (t, bid, sid) = some r := by
    apply run_mono hrun
    rw [h.erased.segmentSize]
    omega
  unfold traverseWith
  rw [hgd, hc.segmentId_eq, hc.bucketId_eq]
  dsimp only
  rw [if_neg (by rw [hsize, hgd]; omega), hfuel]
  exact hr

/-- A round of the sweep. -/
theorem sweepRound_spec (hcb : ErasesDue p due cb) {bid sid : Nat}
    (h : SweptTo p due t₀ t bid sid) {c : DashCursor} (hc : c.Packs t₀.globalDepth sid bid) :
    (∃ t', sweepRound p cb (t, c) = .inr (some t') ∧ Swept p due t₀ t') ∨
    ∃ t' c' bid' sid', sweepRound p cb (t, c) = .inl (t', c') ∧
      Resumes p due t₀ (t₀.index bid sid) t' c' bid' sid' := by
  obtain ⟨t', c', hcall, ⟨hzero, hall⟩ | ⟨bid', sid', hresumes⟩⟩ := traverseWith_spec hcb h hc
  · refine Or.inl ⟨t', ?_, hall⟩
    unfold sweepRound
    dsimp only
    rw [hcall]
    exact if_pos hzero
  · refine Or.inr ⟨t', c', bid', sid', ?_, hresumes⟩
    unfold sweepRound
    dsimp only
    rw [hcall]
    exact if_neg hresumes.val_ne_zero

omit [DecidableEq K] in
theorem sweptTo_start (h : t.IsMap p) : SweptTo p due t t 0 0 := by
  refine ⟨(Erased.refl h).congr ?_, p.kBucketNum_pos, Nat.pow_pos (by decide),
    Directory.isStart_zero _ _⟩
  intro _ _ _ _ e _
  refine iff_of_false id ?_
  rintro ⟨hlt, -⟩
  unfold position at hlt
  omega

/-- **The whole sweep** ends, and erases exactly the due entries. -/
theorem sweep_spec (hcb : ErasesDue p due cb) (h : t.IsMap p) :
    ∃ n t', Swept p due t t' ∧ ∀ fuel, n ≤ fuel → sweep p cb fuel t = some t' := by
  have hpacks : DashCursor.Packs {} t.globalDepth 0 0 := by
    refine ⟨h.runInv.globalDepth_le, Nat.pow_pos (by decide), by decide, ?_⟩
    rw [Nat.zero_mul]
    rfl
  obtain ⟨r, ⟨n, hends⟩, t', rfl, hall⟩ : ∃ r, Ends (sweepRound p cb) (t, {}) r ∧
      ∃ t', r = some t' ∧ Swept p due t t' := by
    apply exists_ends (I := fun x : Table K V × DashCursor =>
        ∃ bid sid, SweptTo p due t x.1 bid sid ∧ x.2.Packs t.globalDepth sid bid)
      (fun x => p.kBucketNum * t.segmentSize -
        t.index x.2.bucketId (x.2.segmentId t.globalDepth)) ?_ ?_ ⟨0, 0, sweptTo_start h, hpacks⟩
    · rintro ⟨t₁, c₁⟩ ⟨t₂, c₂⟩ ⟨bid, sid, hswept, hc⟩ hround
      rcases sweepRound_spec hcb hswept hc with
        ⟨t', hleave, -⟩ | ⟨t', c', bid', sid', hnext, hresumes⟩
      · rw [hleave] at hround
        cases hround
      · rw [hnext] at hround
        cases hround
        refine ⟨⟨bid', sid', hresumes.swept, hresumes.packs⟩, ?_⟩
        have hbound := hresumes.swept.index_lt
        have hlt := hresumes.lt
        dsimp only at hbound hlt hc ⊢
        rw [hc.segmentId_eq, hc.bucketId_eq, hresumes.packs.segmentId_eq,
          hresumes.packs.bucketId_eq]
        omega
    · rintro ⟨t₁, c₁⟩ r ⟨bid, sid, hswept, hc⟩ hround
      rcases sweepRound_spec hcb hswept hc with
        ⟨t', hleave, hall⟩ | ⟨t', c', bid', sid', hnext, -⟩
      · rw [hleave] at hround
        cases hround
        exact ⟨t', rfl, hall⟩
      · rw [hnext] at hround
        cases hround
  refine ⟨n, t', hall, ?_⟩
  intro fuel hle
  unfold sweep
  rw [run_mono hends hle]
  rfl

/-! ### The map of a swept table -/

/-- A binding of the map is an entry in a slot. -/
theorem lookup_iff_cell {m : Finmap fun _ : K => V} (h : t.Refines p m) {key : K}
    {value : V} : m.lookup key = some value ↔ ∃ i < 2 ^ t.globalDepth, ∃ x : Nat × Nat,
      x.1 < p.kTotalBuckets ∧ ∃ e, (t.seg i).cell x = some e ∧ e.key = key ∧ e.value = value := by
  rw [h.represents.lookup_eq_some]
  unfold entries
  rw [Multiset.mem_sum]
  constructor
  · rintro ⟨ptr, hptr, hmem⟩
    obtain ⟨i, hi, rfl⟩ := Directory.mem_items.mp hptr
    obtain ⟨x, hx, e, he⟩ := (Segment.mem_contents p).mp hmem
    exact ⟨i, hi, x, ((p.mem_cells).mp hx).1, e, he⟩
  · rintro ⟨i, hi, x, hx, e, he, hkv⟩
    have hslot := Segment.slot_lt_of_cell p (h.segInv i hi).slotsWF he
    exact ⟨t.segment i, Directory.mem_items.mpr ⟨i, hi, rfl⟩,
      (Segment.mem_contents p).mpr ⟨x, (p.mem_cells).mpr ⟨hx, hslot⟩, e, he, hkv⟩⟩

/-- Exactly the due bindings are gone. -/
theorem Swept.lookup {t' : Table K V} {m m' : Finmap fun _ : K => V} (hswept : Swept p due t t')
    (h : t.Refines p m) (h' : t'.Refines p m') (key : K) :
    m'.lookup key = (m.lookup key).filter fun value => !due key value := by
  apply Option.ext
  intro value
  rw [Option.filter_eq_some_iff, lookup_iff_cell h, lookup_iff_cell h', hswept.globalDepth,
    Bool.not_eq_true']
  constructor
  · rintro ⟨i, hi, x, hx, e, he, rfl, rfl⟩
    obtain ⟨he, hdue⟩ := (hswept.mem i hi x hx e).mp he
    exact ⟨⟨i, hi, x, hx, e, he, rfl, rfl⟩, Bool.not_eq_true _ ▸ hdue⟩
  · rintro ⟨⟨i, hi, x, hx, e, he, rfl, rfl⟩, hdue⟩
    refine ⟨i, hi, x, hx, e, (hswept.mem i hi x hx e).mpr ⟨he, ?_⟩, rfl, rfl⟩
    rw [hdue]
    exact Bool.false_ne_true

/-- The keys whose binding is due. -/
def dueKeys (due : K → V → Bool) (m : Finmap fun _ : K => V) : Finset K :=
  m.keys.filter fun key => (m.lookup key).any (due key) = true

theorem Swept.size_eq {t' : Table K V} {m m' : Finmap fun _ : K => V} (hswept : Swept p due t t')
    (h : t.Refines p m) (h' : t'.Refines p m') : t'.size + (dueKeys due m).card = t.size := by
  have hkeys : m'.keys = m.keys.filter fun key => ¬ (m.lookup key).any (due key) = true := by
    ext key
    rw [Finset.mem_filter, Finmap.mem_keys, Finmap.mem_keys, ← Finmap.lookup_isSome,
      ← Finmap.lookup_isSome, hswept.lookup h h' key]
    cases m.lookup key with
    | none => simp
    | some value => cases hdue : due key value <;> simp [hdue]
  rw [h.size_eq, h'.size_eq, hkeys, Nat.add_comm]
  exact Finset.card_filter_add_card_filter_not _

end Visit

end Table

end StorageEngine.DashTable
