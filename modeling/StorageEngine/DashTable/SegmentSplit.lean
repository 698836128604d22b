/-
  StorageEngine/DashTable/SegmentSplit.lean
  =========================================
  **Splitting a segment.**

  `Split` walks over the buckets of the source, pushes every entry whose next hash
  bit is set into `dest_right`, and clears the moved slots bucket by bucket.  Until
  the clearing, the slots of moved entries still read as busy; the proofs follow
  the *live* source, in which they are already cleared.

  The two results are independent of each other: what the source keeps
  (`SplitSource`), and that the destination is the fold of `InsertUniq` over the
  migrating entries of the original source in visiting order (`split_dest`).
-/
import StorageEngine.DashTable.SegmentOps

namespace StorageEngine.DashTable

open StorageEngine SlotStore

variable {K V : Type}

namespace Segment

variable (p : Policy K V)

/-! ### The entries of a segment in visiting order -/

/-- The pair in a slot. -/
def pair (s : Segment K V) (i j : Nat) : K × V := ((s.bucket i).key j, (s.bucket i).value j)

/-- The pairs of one bucket, in slot order. -/
def bucketPairs (s : Segment K V) (i : Nat) : List (K × V) :=
  ((s.bucket i).busySlots p).map (s.pair i)

/-- The pairs of a segment, bucket by bucket. -/
def pairs (s : Segment K V) : List (K × V) :=
  (List.range p.kTotalBuckets).flatMap (s.bucketPairs p)

/-- The pairs that leave the segment when its local depth becomes `depth`. -/
def migrants (s : Segment K V) (depth : Nat) : List (K × V) :=
  (s.pairs p).filter fun x => !isMine depth (p.hashFn x.1)

theorem pair_of_cell {s : Segment K V} {i j : Nat} {e : Entry K V} (h : s.cell (i, j) = some e) :
    s.pair i j = (e.key, e.value) := by
  obtain ⟨hk, hv, -, -⟩ := Bucket.key_of_cell h
  rw [pair, hk, hv]

theorem contents_eq_pairs (s : Segment K V) : s.contents p = (s.pairs p : Multiset (K × V)) := by
  have hslot : ∀ i j, (s.cell (i, j)).elim (0 : Multiset (K × V)) (fun e => {(e.key, e.value)}) =
      if (s.bucket i).getBusy.getLsbD j then {s.pair i j} else 0 := by
    intro i j
    cases hbusy : (s.bucket i).slotb.busy.getLsbD j with
    | false => simp [cell, Bucket.cell, hbusy, Bucket.getBusy, SlotBitmap.getBusy]
    | true => simp [cell, Bucket.cell, hbusy, Bucket.getBusy, SlotBitmap.getBusy, pair]
  have hbucket : ∀ i, ∑ j ∈ Finset.range p.kSlotNum,
      (s.cell (i, j)).elim (0 : Multiset (K × V)) (fun e => {(e.key, e.value)}) =
        (s.bucketPairs p i : Multiset (K × V)) := by
    intro i
    simp only [hslot, bucketPairs, Bucket.busySlots]
    induction p.kSlotNum with
    | zero => simp
    | succ n ih =>
      rw [Finset.sum_range_succ, ih, List.range_succ, List.filter_append, List.map_append,
        ← Multiset.coe_add]
      cases hbusy : (s.bucket i).getBusy.getLsbD n with
      | false => simp [hbusy]
      | true => simp [hbusy]
  unfold contents gather Policy.cells pairs
  rw [Finset.sum_product]
  simp only [hbucket]
  induction p.kTotalBuckets with
  | zero => simp
  | succ n ih =>
    rw [Finset.sum_range_succ, ih, List.range_succ, List.flatMap_append, ← Multiset.coe_add]
    simp

theorem busySlots_congr {s s' : Segment K V} {i : Nat}
    (h : ∀ j, s'.cell (i, j) = s.cell (i, j)) :
    (s'.bucket i).busySlots p = (s.bucket i).busySlots p := by
  apply List.filter_congr
  intro j _
  have := congrArg Option.isSome (h j)
  simpa [cell, Bucket.cell_isSome, Bucket.getBusy, SlotBitmap.getBusy] using this

/-! ### The destination -/

/-- One migration into the destination: the segment and the pairs that found no slot. -/
def pushRight (d : Segment K V × List (K × V)) (x : K × V) : Segment K V × List (K × V) :=
  let r := d.1.insertUniq p x.1 x.2 (p.hashFn x.1) false
  (r.seg, if r.it.isSome then d.2 else d.2 ++ [x])

/-! ### The live source -/

namespace SplitState

/-- The source with the moved slots of bucket `bid` cleared. -/
def live (bid : Nat) (st : SplitState K V) : Segment K V := (st.flush bid).source

theorem cell_live (bid : Nat) (st : SplitState K V) (x : Nat × Nat) :
    (st.live bid).cell x =
      if x.1 = bid ∧ st.invalidMask.getLsbD x.2 = true then none else st.source.cell x := by
  by_cases hx : x.1 = bid
  · subst hx
    have := Bucket.cell_clearSlots (st.source.bucket x.1) st.invalidMask x.2
    simpa [cell, live, flush] using this
  · simp [cell, live, flush, hx]

theorem stash_live (bid : Nat) (st : SplitState K V) (i : Nat) :
    ((st.live bid).bucket i).stash = (st.source.bucket i).stash :=
  (frame_setBucket rfl : SameFrame st.source (st.live bid)).stash i

theorem slotsWF_live {st : SplitState K V} (h : st.source.SlotsWF p) (bid : Nat) :
    (st.live bid).SlotsWF p :=
  h.setBucket p bid ((h bid).clearSlots _)

/-- A slot that is live is busy in the source and not marked. -/
theorem source_of_live {bid j : Nat} {st : SplitState K V} {e : Entry K V}
    (h : (st.live bid).cell (bid, j) = some e) :
    st.source.cell (bid, j) = some e ∧ st.invalidMask.getLsbD j = false := by
  rw [cell_live] at h
  by_cases hmask : st.invalidMask.getLsbD j = true
  · simp [hmask] at h
  · simpa [hmask] using h

/-- Marking a slot empties it in the live source, whatever the move left in it. -/
theorem cell_live_mark {b j : Nat} (hj : j < 32) {s t : SplitState K V}
    (hmask : t.invalidMask = s.invalidMask ||| 1#32 <<< j)
    (hcell : ∀ x, x ≠ (b, j) → t.source.cell x = s.source.cell x) :
    (t.live b).cell = Function.update (s.live b).cell (b, j) none := by
  funext x
  by_cases hx : x = (b, j)
  · subst hx
    rw [cell_live, hmask, BitMask.getLsbD_or_bit _ hj]
    simp
  · rw [Function.update_of_ne hx, cell_live, cell_live, hmask, BitMask.getLsbD_or_bit _ hj,
      hcell x hx]
    by_cases hb : x.1 = b
    · have hj' : x.2 ≠ j := fun h => hx (Prod.ext hb h)
      simp [hj']
    · simp [hb]

theorem cell_setBucket_moveOut (s : Segment K V) {i j : Nat} {x : Nat × Nat} (hx : x ≠ (i, j)) :
    (s.setBucket i ((s.bucket i).moveOut p j)).cell x = s.cell x := by
  obtain ⟨i', j'⟩ := x
  by_cases hi : i' = i
  · subst hi
    have hj : j' ≠ j := fun h => hx (by rw [h])
    simp [cell, Bucket.cell_moveOut_of_ne p _ hj]
  · simp [cell, hi]

/-! ### One slot -/

/-- What migrating a live slot does. -/
theorem migrate_spec {st : SplitState K V} (hwf : st.source.SlotsWF p) {i bid j : Nat}
    {e : Entry K V} (hlive : (st.live bid).cell (bid, j) = some e) :
    let st' := st.migrate p i bid j (p.hashFn e.key)
    st'.source.SlotsWF p ∧ (∀ b, (st'.source.bucket b).stash = (st.source.bucket b).stash) ∧
      (st'.live bid).cell = Function.update (st.live bid).cell (bid, j) none ∧
      (st'.dest, st'.dropped) = pushRight p (st.dest, st.dropped) (e.key, e.value) ∧
      st'.source.localDepth = st.source.localDepth ∧
      st'.source.segmentId = st.source.segmentId := by
  intro st'
  obtain ⟨hbusy, -⟩ := source_of_live hlive
  have hj := Nat.lt_trans (slot_lt_of_cell p hwf hbusy) p.kSlotNum_lt
  obtain ⟨hk, hv, -, -⟩ := Bucket.key_of_cell (b := st.source.bucket bid) hbusy
  have hsource : st'.source = st.source ∨
      st'.source = st.source.setBucket bid ((st.source.bucket bid).moveOut p j) := by
    simp only [st', migrate]
    split
    · exact Or.inr rfl
    · exact Or.inl rfl
  refine ⟨?_, ?_, cell_live_mark hj rfl ?_, ?_, ?_, ?_⟩
  · rcases hsource with h | h <;> rw [h]
    · exact hwf
    · exact hwf.setBucket p bid (hwf bid)
  · intro b
    rcases hsource with h | h <;> rw [h]
    exact (frame_setBucket (b := (st.source.bucket bid).moveOut p j) rfl :
      SameFrame st.source _).stash b
  · intro x hx
    rcases hsource with h | h <;> rw [h]
    exact cell_setBucket_moveOut p _ hx
  · simp only [st', migrate, pushRight, hk, hv]
  · rcases hsource with h | h <;> rw [h]
    rfl
  · rcases hsource with h | h <;> rw [h]
    rfl

/-- The state of a split of `s` while it works on bucket `bid`, with the slots `l` of
    the bucket still to visit and the pairs `moved` already sent to the destination. -/
structure Progress (s : Segment K V) (init : Segment K V × List (K × V)) (bid : Nat)
    (l : List Nat) (moved : List (K × V)) (st : SplitState K V) : Prop where
  slotsWF : st.source.SlotsWF p
  inv : (st.live bid).Inv p
  ahead : ∀ x, bid < x.1 → (st.live bid).cell x = s.cell x
  here : ∀ j ∈ l, ∃ e, (st.live bid).cell (bid, j) = some e ∧ s.cell (bid, j) = some e
  behind : ∀ x e, x.1 < bid ∨ (x.1 = bid ∧ x.2 ∉ l) → (st.live bid).cell x = some e →
    isMine s.localDepth (p.hashFn e.key) = true
  dest : (st.dest, st.dropped) = moved.foldl (pushRight p) init
  contents : (st.live bid).contents p + (moved : Multiset (K × V)) = s.contents p
  localDepth : st.source.localDepth = s.localDepth
  segmentId : st.source.segmentId = s.segmentId
  asserted : st.asserted = true

/-- The filter of `migrants` on one slot. -/
def leaving (s : Segment K V) (bid j : Nat) : List (K × V) :=
  [s.pair bid j].filter fun x => !isMine s.localDepth (p.hashFn x.1)

section Progress

variable {p}
variable {s : Segment K V} {init : Segment K V × List (K × V)} {bid j : Nat} {l : List Nat}
  {moved : List (K × V)} {st st' : SplitState K V} {e : Entry K V}

/-- A slot that was visited before slot `j`. -/
theorem Progress.mine_of_ne (h : Progress p s init bid (j :: l) moved st) {x : Nat × Nat}
    (hx : x.1 < bid ∨ (x.1 = bid ∧ x.2 ∉ l)) (hne : x ≠ (bid, j))
    (he : (st.live bid).cell x = some e) : isMine s.localDepth (p.hashFn e.key) = true := by
  refine h.behind x e (hx.imp_right fun hx => ⟨hx.1, ?_⟩) he
  intro hmem
  rcases List.mem_cons.mp hmem with heq | hmem
  · exact hne (Prod.ext hx.1 heq)
  · exact hx.2 hmem

/-- The slot stays as it is. -/
theorem Progress.keep (h : Progress p s init bid (j :: l) moved st)
    (he : (st.live bid).cell (bid, j) = some e)
    (hmine : isMine s.localDepth (p.hashFn e.key) = true) : Progress p s init bid l moved st where
  slotsWF := h.slotsWF
  inv := h.inv
  ahead := h.ahead
  here j' hj' := h.here j' (List.mem_cons_of_mem j hj')
  behind := by
    rintro ⟨i', j'⟩ e' hx he'
    by_cases hj' : (i', j') = (bid, j)
    · rw [hj', he, Option.some_inj] at he'
      exact he' ▸ hmine
    · exact h.mine_of_ne hx hj' he'
  dest := h.dest
  contents := h.contents
  localDepth := h.localDepth
  segmentId := h.segmentId
  asserted := h.asserted

/-- The slot's entry leaves the segment. -/
theorem Progress.migrate (h : Progress p s init bid (j :: l) moved st) (hj : j ∉ l)
    (hbid : bid < p.kTotalBuckets) (he : (st.live bid).cell (bid, j) = some e)
    (hwf : st'.source.SlotsWF p) (hinv : (st'.live bid).Inv p)
    (hcell : (st'.live bid).cell = Function.update (st.live bid).cell (bid, j) none)
    (hdest : (st'.dest, st'.dropped) = pushRight p (st.dest, st.dropped) (e.key, e.value))
    (hdepth : st'.source.localDepth = st.source.localDepth)
    (hid : st'.source.segmentId = st.source.segmentId) (hasserted : st'.asserted = true) :
    Progress p s init bid l (moved ++ [(e.key, e.value)]) st' where
  slotsWF := hwf
  inv := hinv
  ahead x hx := by
    have hne : x ≠ (bid, j) := fun heq => by simp [heq] at hx
    rw [hcell, Function.update_of_ne hne]
    exact h.ahead x hx
  here j' hj' := by
    have hne : (bid, j') ≠ (bid, j) := fun heq => hj ((Prod.mk.inj heq).2 ▸ hj')
    rw [hcell, Function.update_of_ne hne]
    exact h.here j' (List.mem_cons_of_mem j hj')
  behind := by
    intro x e' hx he'
    rw [hcell] at he'
    by_cases hne : x = (bid, j)
    · rw [hne, Function.update_self] at he'
      cases he'
    · rw [Function.update_of_ne hne] at he'
      exact h.mine_of_ne hx hne he'
  dest := by rw [hdest, h.dest, List.foldl_append]; rfl
  contents := by
    have hslot := slot_lt_of_cell p h.inv.slotsWF he
    have htake :=
      gather_take (g := fun _ (e : Entry K V) => ({(e.key, e.value)} : Multiset (K × V)))
      ((p.mem_cells).mpr ⟨hbid, hslot⟩) he
    have hold := h.contents
    unfold Segment.contents at hold ⊢
    rw [hcell, ← hold, ← htake, ← Multiset.coe_add, Multiset.coe_singleton]
    ac_rfl
  localDepth := hdepth.trans h.localDepth
  segmentId := hid.trans h.segmentId
  asserted := hasserted

/-- A stash entry that stays is moved back to a regular bucket. -/
theorem Progress.unstash (h : Progress p s init bid (j :: l) moved st) (hj : j ∉ l)
    (hbid : bid < p.kTotalBuckets) (he : (st.live bid).cell (bid, j) = some e)
    (hmine : isMine s.localDepth (p.hashFn e.key) = true) {i' j' : Nat} (hi' : i' < bid)
    (hj' : j' < p.kSlotNum) (flag : Bool) (hfree : (st.live bid).cell (i', j') = none)
    (hwf : st'.source.SlotsWF p) (hinv : (st'.live bid).Inv p)
    (hcell : (st'.live bid).cell = Function.update
      (Function.update (st.live bid).cell (i', j') (some { e with probe := flag })) (bid, j) none)
    (hdest : (st'.dest, st'.dropped) = (st.dest, st.dropped))
    (hdepth : st'.source.localDepth = st.source.localDepth)
    (hid : st'.source.segmentId = st.source.segmentId) (hasserted : st'.asserted = true) :
    Progress p s init bid l moved st' where
  slotsWF := hwf
  inv := hinv
  ahead x hx := by
    have hne : x ≠ (bid, j) := fun heq => by simp [heq] at hx
    have hne' : x ≠ (i', j') := fun heq => by
      rw [heq] at hx
      exact Nat.lt_asymm hi' hx
    rw [hcell, Function.update_of_ne hne, Function.update_of_ne hne']
    exact h.ahead x hx
  here k hk := by
    have hne : (bid, k) ≠ (bid, j) := fun heq => hj ((Prod.mk.inj heq).2 ▸ hk)
    have hne' : (bid, k) ≠ (i', j') := fun heq => Nat.ne_of_gt hi' (Prod.mk.inj heq).1
    rw [hcell, Function.update_of_ne hne, Function.update_of_ne hne']
    exact h.here k (List.mem_cons_of_mem j hk)
  behind := by
    intro x e' hx he'
    rw [hcell] at he'
    by_cases hne : x = (bid, j)
    · rw [hne, Function.update_self] at he'
      cases he'
    rw [Function.update_of_ne hne] at he'
    by_cases hne' : x = (i', j')
    · rw [hne', Function.update_self, Option.some_inj] at he'
      rw [← he']
      exact hmine
    · rw [Function.update_of_ne hne'] at he'
      exact h.mine_of_ne hx hne he'
  dest := hdest.trans h.dest
  contents := by
    have hne : (bid, j) ≠ (i', j') := fun heq => Nat.ne_of_gt hi' (Prod.mk.inj heq).1
    have hslot := slot_lt_of_cell p h.inv.slotsWF he
    have hbusy : Function.update (st.live bid).cell (i', j') (some { e with probe := flag })
        (bid, j) = some e := by
      rw [Function.update_of_ne hne]
      exact he
    have htake :=
      gather_take (g := fun _ (e : Entry K V) => ({(e.key, e.value)} : Multiset (K × V)))
      ((p.mem_cells).mpr ⟨hbid, hslot⟩) hbusy
    rw [gather_put ((p.mem_cells).mpr ⟨Nat.lt_trans hi' hbid, hj'⟩) hfree] at htake
    have hold := h.contents
    unfold Segment.contents at hold ⊢
    rw [hcell, add_left_cancel htake]
    exact hold
  localDepth := hdepth.trans h.localDepth
  segmentId := hid.trans h.segmentId
  asserted := hasserted

/-! ### The callbacks -/

/-- The assertions of `UnsetStashPtr` only read the stash members, which clearing
    slots does not touch. -/
theorem Progress.overflowAssert {q : Nat}
    (h : Progress p s init (p.kBucketNum + q) l moved st) (hq : q < kStashBucketNum)
    (he : (st.live (p.kBucketNum + q)).cell (p.kBucketNum + q, j) = some e) :
    st.source.overflowAssert p (p.homeIndex (p.hashFn e.key)) (fingerprint (p.hashFn e.key)) q =
      true := by
  have hlive := h.inv.overflowAssert p hq he
  unfold Segment.overflowAssert at hlive ⊢
  rw [stash_live, stash_live] at hlive
  exact hlive

theorem leaving_of_cell (he : s.cell (bid, j) = some e) :
    leaving p s bid j =
      if isMine s.localDepth (p.hashFn e.key) then [] else [(e.key, e.value)] := by
  rw [leaving, pair_of_cell he]
  cases hmine : isMine s.localDepth (p.hashFn e.key) <;> simp [hmine]

theorem Progress.regularSlot (h : Progress p s init bid (j :: l) moved st) (hj : j ∉ l)
    (hbid : bid < p.kBucketNum) :
    Progress p s init bid l (moved ++ leaving p s bid j) (st.regularSlot p bid j) := by
  obtain ⟨e, he, hs⟩ := h.here j List.mem_cons_self
  have hkey := (Bucket.key_of_cell (b := st.source.bucket bid) (source_of_live he).1).1
  rw [leaving_of_cell hs]
  unfold SplitState.regularSlot
  dsimp only
  rw [hkey, h.localDepth]
  by_cases hmine : isMine s.localDepth (p.hashFn e.key) = true
  · rw [if_pos hmine, if_pos hmine, List.append_nil]
    exact h.keep he hmine
  · rw [if_neg hmine, if_neg hmine]
    obtain ⟨hwf, hstash, hcell, hdest, hdepth, hid⟩ := migrate_spec p h.slotsWF (i := bid) he
    have htake : Take p (st.live bid) ((st.migrate p bid bid j (p.hashFn e.key)).live bid)
        (bid, j) e := by
      refine ⟨slot_lt_of_cell p h.inv.slotsWF he, he, hcell, slotsWF_live p hwf bid, ?_,
        hdepth, hid⟩
      intro b
      rw [stash_live, stash_live]
      exact hstash b
    exact h.migrate hj (p.lt_total_of_lt hbid) he hwf (h.inv.takeRegular p htake hbid) hcell hdest
      hdepth hid h.asserted

/-- Clearing marked slots of a stash bucket commutes with filling a regular slot. -/
theorem put_live {s₁ : Segment K V} {x : Nat × Nat} {e' : Entry K V}
    (hput : Put p st.source s₁ x e') (hx : x.1 ≠ bid) :
    Put p (st.live bid) (({ st with source := s₁ } : SplitState K V).live bid) x e' := by
  have hframe : SameFrame (st.live bid) (({ st with source := s₁ } : SplitState K V).live bid) :=
    ⟨fun i => by rw [stash_live, stash_live]; exact hput.frame.stash i, hput.frame.localDepth,
      hput.frame.segmentId⟩
  refine ⟨hput.slot_lt, ?_, ?_, slotsWF_live p hput.slotsWF bid, hframe⟩
  · rw [cell_live, if_neg (fun h => hx h.1)]
    exact hput.free
  · funext z
    rw [cell_live]
    by_cases hz : z = x
    · rw [hz, Function.update_self, if_neg (fun h => hx h.1), hput.cell, Function.update_self]
    · rw [Function.update_of_ne hz, cell_live, hput.cell, Function.update_of_ne hz]

section Movable

variable [p.Movable]

/-- What `TryMoveFromStash` can do on a busy slot: nothing, when both buckets are
    full, or fill a regular slot, move the content out and drop the reference. -/
theorem tryMoveFromStash_cases {s : Segment K V} (hwf : s.SlotsWF p) {q j : Nat} {e : Entry K V}
    (he : s.cell (p.kBucketNum + q, j) = some e) (hfp : e.fp = fingerprint (p.hashFn e.key)) :
    s.tryMoveFromStash p q j (p.hashFn e.key) = (s, none) ∨
    ∃ (flag : Bool) (s₁ : Segment K V) (i' j' : Nat),
      i' = (if flag then p.nextBid (p.homeIndex (p.hashFn e.key))
        else p.homeIndex (p.hashFn e.key)) ∧
      Put p s s₁ (i', j') { e with probe := flag } ∧
      s.tryMoveFromStash p q j (p.hashFn e.key) =
        ((s₁.setBucket (p.kBucketNum + q)
          ((s₁.bucket (p.kBucketNum + q)).moveOut p j)).removeStashReference p q (p.hashFn e.key),
          some ⟨i', j'⟩) := by
  obtain ⟨hk, hv, -, -⟩ := Bucket.key_of_cell (b := s.bucket (p.kBucketNum + q)) he
  unfold tryMoveFromStash
  simp only [hk, hv]
  rcases tryInsert_cases p hwf (p.homeIndex (p.hashFn e.key)) e.key e.value
    (fingerprint (p.hashFn e.key)) false with ⟨-, hres⟩ | ⟨-, s₁, j', hres, hput⟩
  · simp only [hres]
    rcases tryInsert_cases p hwf (p.nextBid (p.homeIndex (p.hashFn e.key))) e.key e.value
      (fingerprint (p.hashFn e.key)) true with ⟨-, hres'⟩ | ⟨-, s₁, j', hres', hput⟩
    · exact Or.inl (by simp only [hres'])
    · exact Or.inr ⟨true, s₁, _, j', rfl, by rw [hfp]; exact hput, by simp only [hres', if_true]⟩
  · exact Or.inr ⟨false, s₁, _, j', rfl, by rw [hfp]; exact hput, by simp [hres]⟩

/-- A stash slot whose entry stays in the segment. -/
theorem Progress.stashSlot_mine {q : Nat}
    (h : Progress p s init (p.kBucketNum + q) (j :: l) moved st)
    (hj : j ∉ l) (hq : q < kStashBucketNum)
    (he : (st.live (p.kBucketNum + q)).cell (p.kBucketNum + q, j) = some e)
    (hmine : isMine s.localDepth (p.hashFn e.key) = true) :
    Progress p s init (p.kBucketNum + q) l moved (st.stashSlot p q j) := by
  have hsource := (source_of_live he).1
  have hkey := (Bucket.key_of_cell (b := st.source.bucket (p.kBucketNum + q)) hsource).1
  have hassert := h.overflowAssert hq he
  have hfp := (h.inv.stashed q hq j e he).1
  unfold SplitState.stashSlot
  dsimp only
  rw [hkey, h.localDepth, if_pos hmine]
  rcases tryMoveFromStash_cases h.slotsWF hsource hfp with
    hres | ⟨flag, s₁, i', j', hi', hput, hres⟩
  · rw [hres]
    exact h.keep he hmine
  · rw [hres]
    have hylt := p.homeIndex_lt (p.hashFn e.key)
    have hi'lt : i' < p.kBucketNum := by
      rw [hi']
      cases flag <;> simp [hylt, p.nextBid_lt]
    have hne : i' ≠ p.kBucketNum + q := by omega
    have hput' := put_live hput hne
    have hfits : Fits p i' { e with probe := flag } := by
      refine ⟨hfp, ?_⟩
      rw [hi']
      cases flag <;> simp [p.prevBid_nextBid hylt]
    have hinv₁ := h.inv.putRegular p hput' hi'lt hfits
    have hj32 := Nat.lt_trans (slot_lt_of_cell p h.slotsWF hsource) p.kSlotNum_lt
    have hcell := cell_live_mark (b := p.kBucketNum + q) hj32
      (s := { st with source := s₁ })
      (t := { st with
        source := (s₁.setBucket (p.kBucketNum + q)
          ((s₁.bucket (p.kBucketNum + q)).moveOut p j)).removeStashReference p q (p.hashFn e.key)
        invalidMask := st.invalidMask ||| 1#32 <<< j
        moves := st.moves ++ [⟨st.source.segmentId, q, st.source.segmentId, i'⟩]
        asserted := st.asserted && st.source.overflowAssert p (p.homeIndex (p.hashFn e.key))
          (fingerprint (p.hashFn e.key)) q }) rfl
      (fun x hx => by
        rw [removeStashReference, cell_unsetStashPtr]
        exact cell_setBucket_moveOut p s₁ hx)
    have hwf₂ : (s₁.setBucket (p.kBucketNum + q)
        ((s₁.bucket (p.kBucketNum + q)).moveOut p j)).SlotsWF p :=
      hput.slotsWF.setBucket p _ (hput.slotsWF (p.kBucketNum + q))
    have hwf := hwf₂.unsetStashPtr p (p.homeIndex (p.hashFn e.key))
      (fingerprint (p.hashFn e.key)) q
    have hbusy : (({ st with source := s₁ } : SplitState K V).live (p.kBucketNum + q)).cell
        (p.kBucketNum + q, j) = some e := by
      rw [hput'.cell, Function.update_of_ne (fun heq => hne (Prod.mk.inj heq).1.symm)]
      exact he
    have hframe := frame_unsetStashPtr p (s₁.setBucket (p.kBucketNum + q)
      ((s₁.bucket (p.kBucketNum + q)).moveOut p j)) (p.homeIndex (p.hashFn e.key))
      (fingerprint (p.hashFn e.key)) q
    have hasserted : (st.asserted && st.source.overflowAssert p (p.homeIndex (p.hashFn e.key))
        (fingerprint (p.hashFn e.key)) q) = true := by
      rw [h.asserted, hassert, Bool.and_self]
    refine h.unstash hj (p.stash_lt_total hq) he hmine
      (show i' < _ by omega) hput.slot_lt flag hput'.free hwf ?_ ?_ rfl
      (hframe.1.trans hput.frame.localDepth) (hframe.2.trans hput.frame.segmentId) hasserted
    · refine hinv₁.takeStash p hq hbusy hcell (slotsWF_live p hwf _) fun i => ?_
      rw [stash_live]
      refine unsetStashPtr_congr p (fun b => ?_) _ _ _ i
      rw [stash_live]
      exact (frame_setBucket (b := (s₁.bucket (p.kBucketNum + q)).moveOut p j) rfl :
        SameFrame s₁ _).stash b
    · rw [hcell, hput'.cell]

omit [p.Movable] in
/-- A stash slot whose entry leaves the segment. -/
theorem Progress.stashSlot_leaving {q : Nat}
    (h : Progress p s init (p.kBucketNum + q) (j :: l) moved st)
    (hj : j ∉ l) (hq : q < kStashBucketNum)
    (he : (st.live (p.kBucketNum + q)).cell (p.kBucketNum + q, j) = some e)
    (hmine : ¬ isMine s.localDepth (p.hashFn e.key) = true) :
    Progress p s init (p.kBucketNum + q) l (moved ++ [(e.key, e.value)]) (st.stashSlot p q j) := by
  have hsource := (source_of_live he).1
  have hkey := (Bucket.key_of_cell (b := st.source.bucket (p.kBucketNum + q)) hsource).1
  have hassert := h.overflowAssert hq he
  unfold SplitState.stashSlot
  dsimp only
  rw [hkey, h.localDepth, if_neg hmine]
  obtain ⟨hwf, hstash, hcell, hdest, hdepth, hid⟩ := migrate_spec p h.slotsWF (i := q) he
  set st₁ := st.migrate p q (p.kBucketNum + q) j (p.hashFn e.key)
  have hasserted : (st₁.asserted && st₁.source.overflowAssert p (p.homeIndex (p.hashFn e.key))
      (fingerprint (p.hashFn e.key)) q) = true := by
    have hst₁ : st₁.asserted = st.asserted := rfl
    have hsame : st₁.source.overflowAssert p (p.homeIndex (p.hashFn e.key))
        (fingerprint (p.hashFn e.key)) q = st.source.overflowAssert p
          (p.homeIndex (p.hashFn e.key)) (fingerprint (p.hashFn e.key)) q := by
      unfold Segment.overflowAssert
      rw [hstash, hstash]
    rw [hst₁, hsame, h.asserted, hassert, Bool.and_self]
  have hlive : (({ st₁ with
      source := st₁.source.removeStashReference p q (p.hashFn e.key)
      asserted := st₁.asserted && st₁.source.overflowAssert p (p.homeIndex (p.hashFn e.key))
        (fingerprint (p.hashFn e.key)) q } :
      SplitState K V).live (p.kBucketNum + q)).cell = (st₁.live (p.kBucketNum + q)).cell := by
    funext x
    rw [cell_live, cell_live, removeStashReference, cell_unsetStashPtr]
  have hwf' := hwf.unsetStashPtr p (p.homeIndex (p.hashFn e.key)) (fingerprint (p.hashFn e.key)) q
  have hframe := frame_unsetStashPtr p st₁.source (p.homeIndex (p.hashFn e.key))
    (fingerprint (p.hashFn e.key)) q
  refine h.migrate hj (p.stash_lt_total hq) he hwf' ?_ (hlive.trans hcell) hdest
    (hframe.1.trans hdepth) (hframe.2.trans hid) hasserted
  refine h.inv.takeStash p hq he (hlive.trans hcell) (slotsWF_live p hwf' _) fun i => ?_
  rw [stash_live]
  refine unsetStashPtr_congr p (fun b => ?_) _ _ _ i
  rw [stash_live]
  exact hstash b

theorem Progress.stashSlot {q : Nat}
    (h : Progress p s init (p.kBucketNum + q) (j :: l) moved st) (hj : j ∉ l)
    (hq : q < kStashBucketNum) :
    Progress p s init (p.kBucketNum + q) l (moved ++ leaving p s (p.kBucketNum + q) j)
      (st.stashSlot p q j) := by
  obtain ⟨e, he, hs⟩ := h.here j List.mem_cons_self
  rw [leaving_of_cell hs]
  by_cases hmine : isMine s.localDepth (p.hashFn e.key) = true
  · rw [if_pos hmine, List.append_nil]
    exact h.stashSlot_mine hj hq he hmine
  · rw [if_neg hmine]
    exact h.stashSlot_leaving hj hq he hmine

end Movable

/-! ### Rounds -/

/-- The state of a split of `s` between two rounds: `bid` buckets are done. -/
structure Between (p : Policy K V) (s : Segment K V) (init : Segment K V × List (K × V)) (bid : Nat)
    (moved : List (K × V)) (st : SplitState K V) : Prop where
  mask : st.invalidMask = 0#32
  inv : st.source.Inv p
  ahead : ∀ x, bid ≤ x.1 → st.source.cell x = s.cell x
  behind : ∀ x e, x.1 < bid → st.source.cell x = some e →
    isMine s.localDepth (p.hashFn e.key) = true
  dest : (st.dest, st.dropped) = moved.foldl (pushRight p) init
  contents : st.source.contents p + (moved : Multiset (K × V)) = s.contents p
  localDepth : st.source.localDepth = s.localDepth
  segmentId : st.source.segmentId = s.segmentId
  asserted : st.asserted = true

theorem cell_live_of_mask (hmask : st.invalidMask = 0#32) (bid : Nat) :
    (st.live bid).cell = st.source.cell := by
  funext x
  rw [cell_live, hmask]
  simp

theorem Between.start (h : Between p s init bid moved st) :
    (st.source.bucket bid).busySlots p = (s.bucket bid).busySlots p ∧
      Progress p s init bid ((s.bucket bid).busySlots p) moved st := by
  have hlive := cell_live_of_mask h.mask bid
  have hslots := busySlots_congr p fun j => h.ahead (bid, j) (Nat.le_refl bid)
  have hmem : ∀ j, j ∈ (s.bucket bid).busySlots p ↔ st.source.cell (bid, j) ≠ none := by
    intro j
    rw [← hslots]
    exact Bucket.mem_busySlots p (h.inv.slotsWF bid)
  refine ⟨hslots, h.inv.slotsWF, ?_, ?_, ?_, ?_, h.dest, ?_, h.localDepth, h.segmentId,
    h.asserted⟩
  · exact h.inv.congr p hlive (slotsWF_live p h.inv.slotsWF bid) (stash_live bid st)
  · intro x hx
    rw [hlive]
    exact h.ahead x (Nat.le_of_lt hx)
  · intro j hj
    obtain ⟨e, he⟩ := Option.ne_none_iff_exists'.mp ((hmem j).mp hj)
    exact ⟨e, by rw [hlive]; exact he, by rw [← h.ahead (bid, j) (Nat.le_refl bid)]; exact he⟩
  · rintro ⟨i', j'⟩ e hx he
    rw [hlive] at he
    rcases hx with hx | ⟨rfl, hx⟩
    · exact h.behind _ e hx he
    · exact absurd ((hmem j').mpr (by rw [he]; simp)) hx
  · rw [contents_congr hlive]
    exact h.contents

theorem Progress.finish (h : Progress p s init bid [] moved st) :
    Between p s init (bid + 1) moved (st.flush bid) where
  mask := rfl
  inv := h.inv
  ahead x hx := h.ahead x hx
  behind x e hx he := by
    refine h.behind x e ?_ he
    rcases Nat.lt_succ_iff_lt_or_eq.mp hx with hx | hx
    · exact Or.inl hx
    · exact Or.inr ⟨hx, by simp⟩
  dest := h.dest
  contents := h.contents
  localDepth := h.localDepth
  segmentId := h.segmentId
  asserted := h.asserted

/-- A whole round, from the step on one slot. -/
theorem Progress.round {step : SplitState K V → Nat → SplitState K V}
    (hstep : ∀ st j l moved, Progress p s init bid (j :: l) moved st → j ∉ l →
      Progress p s init bid l (moved ++ leaving p s bid j) (step st j))
    (hl : l.Nodup) (h : Progress p s init bid l moved st) :
    Progress p s init bid []
      (moved ++ (l.map (s.pair bid)).filter fun x => !isMine s.localDepth (p.hashFn x.1))
      (l.foldl step st) := by
  induction l generalizing moved st with
  | nil => simpa using h
  | cons j l ih =>
    obtain ⟨hj, hl⟩ := List.nodup_cons.mp hl
    have hnext := ih hl (hstep st j l moved h hj)
    rw [List.append_assoc, leaving, ← List.filter_append] at hnext
    exact hnext

/-- The pairs leaving the first `n` buckets. -/
def leavingFirst (p : Policy K V) (s : Segment K V) (n : Nat) : List (K × V) :=
  ((List.range n).flatMap (s.bucketPairs p)).filter fun x => !isMine s.localDepth (p.hashFn x.1)

theorem leavingFirst_succ (s : Segment K V) (n : Nat) :
    leavingFirst p s (n + 1) = leavingFirst p s n ++
      (s.bucketPairs p n).filter fun x => !isMine s.localDepth (p.hashFn x.1) := by
  simp [leavingFirst, List.range_succ, List.filter_append]

theorem Between.round {step : SplitState K V → Nat → SplitState K V}
    (hstep : ∀ st j l moved, Progress p s init bid (j :: l) moved st → j ∉ l →
      Progress p s init bid l (moved ++ leaving p s bid j) (step st j))
    (h : Between p s init bid (leavingFirst p s bid) st) :
    Between p s init (bid + 1) (leavingFirst p s (bid + 1))
      ((((st.source.bucket bid).busySlots p).foldl step st).flush bid) := by
  obtain ⟨hslots, hprogress⟩ := h.start
  rw [hslots, leavingFirst_succ]
  exact (hprogress.round hstep (Bucket.nodup_busySlots p _)).finish

theorem Between.regular (h : Between p s init 0 (leavingFirst p s 0) st) :
    ∀ n ≤ p.kBucketNum, Between p s init n (leavingFirst p s n)
      ((List.range n).foldl (regularBucket p) st) := by
  intro n
  induction n with
  | zero => intro _; exact h
  | succ n ih =>
    intro hn
    rw [List.range_succ, List.foldl_append]
    exact (ih (by omega)).round fun st j l moved h hj => h.regularSlot hj (by omega)

theorem Between.stash [p.Movable]
    (h : Between p s init p.kBucketNum (leavingFirst p s p.kBucketNum) st) :
    ∀ n ≤ kStashBucketNum, Between p s init (p.kBucketNum + n) (leavingFirst p s (p.kBucketNum + n))
      ((List.range n).foldl (stashBucket p) st) := by
  intro n
  induction n with
  | zero => intro _; exact h
  | succ n ih =>
    intro hn
    rw [List.range_succ, List.foldl_append]
    exact (ih (by omega)).round fun st j l moved h hj => h.stashSlot hj (by omega)

end Progress

end SplitState

/-! ### The result of Split -/

theorem localDepth_irrelevant {s : Segment K V} (hinv : s.Inv p) (depth : Nat) :
    ({ s with localDepth := depth } : Segment K V).Inv p :=
  hinv.congr p rfl hinv.slotsWF fun _ => rfl

/-- What the source keeps. -/
structure SplitSource (s s' : Segment K V) : Prop where
  inv : s'.Inv p
  contents : s'.contents p + (s.migrants p (s.localDepth + 1) : Multiset (K × V)) = s.contents p
  mine : ∀ x e, x.1 < p.kTotalBuckets → s'.cell x = some e →
    isMine (s.localDepth + 1) (p.hashFn e.key) = true
  localDepth : s'.localDepth = s.localDepth + 1
  segmentId : s'.segmentId = s.segmentId

/-- `Split` before its first round. -/
theorem SplitState.between_start {s : Segment K V} (hinv : s.Inv p) (dest : Segment K V) :
    SplitState.Between p { s with localDepth := s.localDepth + 1 }
      ({ dest with localDepth := s.localDepth + 1 }, []) 0
      (SplitState.leavingFirst p { s with localDepth := s.localDepth + 1 } 0)
      { source := { s with localDepth := s.localDepth + 1 }
        dest := { dest with localDepth := s.localDepth + 1 } } := by
  refine ⟨rfl, localDepth_irrelevant p hinv _, fun _ _ => rfl, ?_, rfl, ?_, rfl, rfl, rfl⟩
  · intro x e hx
    omega
  · simp [SplitState.leavingFirst]

/-- **What `Split` does**: the source keeps its own entries and the invariant, and
    the destination is `InsertUniq` folded over the others. -/
theorem split_spec [p.Movable] {s : Segment K V} (hinv : s.Inv p) (dest : Segment K V) :
    SplitSource p s (split p s dest).source ∧ (split p s dest).asserted = true ∧
      ((split p s dest).dest, (split p s dest).dropped) =
        (s.migrants p (s.localDepth + 1)).foldl (pushRight p)
          ({ dest with localDepth := s.localDepth + 1 }, []) := by
  set s₁ : Segment K V := { s with localDepth := s.localDepth + 1 } with hs₁
  have hstart := SplitState.between_start p hinv dest
  have hend := (hstart.regular p.kBucketNum (Nat.le_refl _)).stash kStashBucketNum (Nat.le_refl _)
  have hmoved : SplitState.leavingFirst p s₁ (p.kBucketNum + kStashBucketNum) =
      s.migrants p (s.localDepth + 1) := rfl
  rw [hmoved] at hend
  exact ⟨⟨hend.inv, hend.contents, fun x e hx he => hend.behind x e hx he, hend.localDepth,
    hend.segmentId⟩, hend.asserted, hend.dest⟩

/-! ### The destination keeps the invariant -/

/-- The destination of a split with the pairs it could not take. -/
structure Receives (d d' : Segment K V × List (K × V)) (l : List (K × V)) : Prop where
  inv : d'.1.Inv p
  contents : d'.1.contents p + (d'.2 : Multiset (K × V)) =
    d.1.contents p + (d.2 : Multiset (K × V)) + (l : Multiset (K × V))
  localDepth : d'.1.localDepth = d.1.localDepth
  segmentId : d'.1.segmentId = d.1.segmentId

variable [p.Movable]

theorem receives_pushRight {d : Segment K V × List (K × V)} (hinv : d.1.Inv p) (x : K × V) :
    Receives p d (pushRight p d x) [x] := by
  unfold pushRight
  rcases insertUniq_cases p hinv.slotsWF x.1 x.2 (p.hashFn x.1) false with
    ⟨hnone, hseg, -⟩ | ⟨it, hit, hplaced⟩
  · simp only [hnone, hseg, Option.isSome_none, Bool.false_eq_true, if_false]
    refine ⟨hinv, ?_, rfl, rfl⟩
    rw [← Multiset.coe_add, add_assoc]
  · simp only [hit, Option.isSome_some, if_true]
    refine ⟨hplaced.inv hinv, ?_, hplaced.localDepth.1, hplaced.localDepth.2⟩
    rw [hplaced.contents, Multiset.coe_singleton, ← Multiset.singleton_add]
    ac_rfl

theorem receives_foldl {d : Segment K V × List (K × V)} (hinv : d.1.Inv p) (l : List (K × V)) :
    Receives p d (l.foldl (pushRight p) d) l := by
  induction l generalizing d with
  | nil => exact ⟨hinv, by simp, rfl, rfl⟩
  | cons x l ih =>
    have hx := receives_pushRight p hinv x
    have hl := ih hx.inv
    refine ⟨hl.inv, ?_, hl.localDepth.trans hx.localDepth, hl.segmentId.trans hx.segmentId⟩
    rw [List.foldl_cons, hl.contents, hx.contents, add_assoc, Multiset.coe_add,
      List.singleton_append]

/-- The destination of a split of `s` into an empty segment. -/
theorem split_receives {s dest : Segment K V} (hinv : s.Inv p) (hdest : dest.Inv p)
    (hempty : dest.contents p = 0) :
    (split p s dest).dest.Inv p ∧
      (split p s dest).dest.contents p + ((split p s dest).dropped : Multiset (K × V)) =
        (s.migrants p (s.localDepth + 1) : Multiset (K × V)) ∧
      (split p s dest).dest.localDepth = s.localDepth + 1 ∧
      (split p s dest).dest.segmentId = dest.segmentId := by
  have hrecv := receives_foldl p (d := ({ dest with localDepth := s.localDepth + 1 }, []))
    (localDepth_irrelevant p hdest (s.localDepth + 1)) (s.migrants p (s.localDepth + 1))
  rw [← (split_spec p hinv dest).2.2] at hrecv
  refine ⟨hrecv.inv, ?_, hrecv.localDepth, hrecv.segmentId⟩
  have hzero : ({ dest with localDepth := s.localDepth + 1 } : Segment K V).contents p = 0 := hempty
  have := hrecv.contents
  simpa [hzero] using this

end Segment

end StorageEngine.DashTable
