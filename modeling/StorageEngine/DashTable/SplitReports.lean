/-
  StorageEngine/DashTable/SplitReports.lean
  =========================================
  **What a split tells of the entries it moves** (`on_move_cb` in `Segment::Split`).

  Every call of the callback is recorded with the entry that moved, the bucket it was
  taken from and the bucket it was put in, so that the bucket numbers in the call can
  be compared with the buckets.  The loop over the regular buckets reports them as they
  are.  The loop over the stash buckets reports `i` where the entry was in physical
  bucket `kBucketNum + i`, so that a split reports right only when nothing moves out of
  the stash (`splitReports_right_iff`); and an entry that found no slot is reported with
  the bucket `kNanBid`.
-/
import StorageEngine.Report
import StorageEngine.DashTable.Table
import StorageEngine.DashTable.SplitRoom

namespace StorageEngine.DashTable

open StorageEngine SlotStore Report

variable {K V : Type}

/-- A physical bucket at some moment: the address of its segment and the segment as it is then. -/
structure Place (K V : Type) where
  ptr : Ptr
  seg : Segment K V
  bid : Nat

/-- The bucket holds the pair. -/
def Place.Holds (pl : Place K V) (x : K × V) : Prop :=
  ∃ j e, pl.seg.cell (pl.bid, j) = some e ∧ (e.key, e.value) = x

/-- A call of a move callback: its arguments, the entry that moved, the bucket it was
    taken from and the bucket it is in now, if it found one. -/
structure Relocation (K V : Type) where
  move : Move
  entry : K × V
  taken : Place K V
  put : Option (Place K V)

namespace Relocation

/-- The entry was where it is said to have been taken from, and is where it is said to be. -/
structure Carried (r : Relocation K V) : Prop where
  taken : r.taken.Holds r.entry
  put : ∀ pl, r.put = some pl → pl.Holds r.entry

/-- The entry found a slot, and the call names both buckets. -/
def Right (r : Relocation K V) : Prop :=
  r.move.bidFrom = r.taken.bid ∧ ∃ pl, r.put = some pl ∧ r.move.bidTo = pl.bid

/-- The entry, when it found no slot. -/
def lost (r : Relocation K V) : List (K × V) := if r.put.isSome then [] else [r.entry]

end Relocation

namespace Segment

variable (p : Policy K V)

/-! ### The calls -/

section Reports

-- the addresses of the segment and of `dest_right`
variable (left right : Ptr)

namespace SplitState

/-- The call for an entry that `migrate` handles. -/
def migrateReport (i bid slot : Nat) (st : SplitState K V) (hash : UInt64) : Relocation K V :=
  let b := st.source.bucket bid
  let r := st.dest.insertUniq p (b.key slot) (b.value slot) hash false
  { move := ⟨st.source.segmentId, i, st.dest.segmentId, (r.it.map Iter.index).getD 0xFF⟩
    entry := (b.key slot, b.value slot)
    taken := ⟨left, st.source, bid⟩
    put := r.it.map fun it => ⟨right, r.seg, it.index⟩ }

/-- The calls of `regularSlot`. -/
def regularReports (i : Nat) (st : SplitState K V) (slot : Nat) : List (Relocation K V) :=
  let hash := p.hashFn ((st.source.bucket i).key slot)
  if isMine st.source.localDepth hash then [] else [st.migrateReport p left right i i slot hash]

/-- The calls of `stashSlot`. -/
def stashReports (i : Nat) (st : SplitState K V) (slot : Nat) : List (Relocation K V) :=
  let bid := p.kBucketNum + i
  let hash := p.hashFn ((st.source.bucket bid).key slot)
  if isMine st.source.localDepth hash then
    match st.source.tryMoveFromStash p i slot hash with
    | (s, some it) =>
      [{ move := ⟨st.source.segmentId, i, st.source.segmentId, it.index⟩
         entry := ((st.source.bucket bid).key slot, (st.source.bucket bid).value slot)
         taken := ⟨left, st.source, bid⟩
         put := some ⟨left, s, it.index⟩ }]
    | (_, none) => []
  else [st.migrateReport p left right i bid slot hash]

def regularBucketReports (st : SplitState K V) (i : Nat) : List (Relocation K V) :=
  reports (regularSlot p i) (regularReports p left right i) st ((st.source.bucket i).busySlots p)

def stashBucketReports (st : SplitState K V) (i : Nat) : List (Relocation K V) :=
  reports (stashSlot p i) (stashReports p left right i) st
    ((st.source.bucket (p.kBucketNum + i)).busySlots p)

end SplitState

/-- The state of `Split` before its first loop. -/
def splitStart (s dest : Segment K V) : SplitState K V :=
  { source := { s with localDepth := s.localDepth + 1 }
    dest := { dest with localDepth := s.localDepth + 1 } }

/-- The state of `Split` between its loops. -/
def splitMiddle (s dest : Segment K V) : SplitState K V :=
  (List.range p.kBucketNum).foldl (SplitState.regularBucket p) (splitStart s dest)

/-- The calls of the first loop of `Split`. -/
def splitRegularReports (s dest : Segment K V) : List (Relocation K V) :=
  reports (SplitState.regularBucket p) (SplitState.regularBucketReports p left right)
    (splitStart s dest) (List.range p.kBucketNum)

/-- The calls of its second loop. -/
def splitStashReports (s dest : Segment K V) : List (Relocation K V) :=
  reports (SplitState.stashBucket p) (SplitState.stashBucketReports p left right)
    (splitMiddle p s dest) (List.range kStashBucketNum)

def splitReports (s dest : Segment K V) : List (Relocation K V) :=
  splitRegularReports p left right s dest ++ splitStashReports p left right s dest

/-! ### The calls and the split -/

variable {p left right}

namespace SplitState

/-- What `log` collects of the calls of one round, and of a whole loop. -/
theorem moves_regularSlot (i : Nat) (st : SplitState K V) (slot : Nat) :
    (st.regularSlot p i slot).moves =
      st.moves ++ (st.regularReports p left right i slot).flatMap (fun r => [r.move]) := by
  unfold regularSlot regularReports
  dsimp only
  split
  · simp
  · rfl

theorem moves_stashSlot (i : Nat) (st : SplitState K V) (slot : Nat) :
    (st.stashSlot p i slot).moves =
      st.moves ++ (st.stashReports p left right i slot).flatMap (fun r => [r.move]) := by
  unfold stashSlot stashReports
  dsimp only
  split
  · rcases tryMoveFromStash p st.source i slot
        (p.hashFn ((st.source.bucket (p.kBucketNum + i)).key slot)) with ⟨moved, _ | it⟩
    · exact (List.append_nil _).symm
    · rfl
  · rfl

theorem dropped_migrate (i bid slot : Nat) (st : SplitState K V) (hash : UInt64) :
    (st.migrate p i bid slot hash).dropped =
      st.dropped ++ (st.migrateReport p left right i bid slot hash).lost := by
  unfold migrate migrateReport Relocation.lost
  dsimp only
  rw [Option.isSome_map]
  split
  · simp
  · rfl

theorem dropped_regularSlot (i : Nat) (st : SplitState K V) (slot : Nat) :
    (st.regularSlot p i slot).dropped =
      st.dropped ++ (st.regularReports p left right i slot).flatMap Relocation.lost := by
  unfold regularSlot regularReports
  dsimp only
  split
  · simp
  · rw [List.flatMap_singleton]
    exact dropped_migrate i i slot st _

theorem dropped_stashSlot (i : Nat) (st : SplitState K V) (slot : Nat) :
    (st.stashSlot p i slot).dropped =
      st.dropped ++ (st.stashReports p left right i slot).flatMap Relocation.lost := by
  unfold stashSlot stashReports
  dsimp only
  split
  · rcases tryMoveFromStash p st.source i slot
        (p.hashFn ((st.source.bucket (p.kBucketNum + i)).key slot)) with ⟨moved, _ | it⟩
    · exact (List.append_nil _).symm
    · exact (List.append_nil _).symm
  · rw [List.flatMap_singleton]
    exact dropped_migrate i _ slot st _

end SplitState

/-- A log kept by `Split` that every slot extends by what its calls say. -/
theorem log_split {F : Type} (log : SplitState K V → List F) {f : Relocation K V → List F}
    (hflush : ∀ bid (st : SplitState K V), log (st.flush bid) = log st)
    (hregular : ∀ i (st : SplitState K V) slot, log (st.regularSlot p i slot) =
      log st ++ (st.regularReports p left right i slot).flatMap f)
    (hstash : ∀ i (st : SplitState K V) slot, log (st.stashSlot p i slot) =
      log st ++ (st.stashReports p left right i slot).flatMap f)
    (s dest : Segment K V) :
    log (split p s dest) = log (splitStart s dest) ++
      (splitReports p left right s dest).flatMap f := by
  have hfirst : log (splitMiddle p s dest) = log (splitStart s dest) ++
      (splitRegularReports p left right s dest).flatMap f := by
    refine log_foldl (fun st i => ?_) _ _
    exact (hflush i _).trans (log_foldl (hregular i) st _)
  have hsecond : log (split p s dest) = log (splitMiddle p s dest) ++
      (splitStashReports p left right s dest).flatMap f := by
    refine log_foldl (fun st i => ?_) _ _
    exact (hflush _ _).trans (log_foldl (hstash i) st _)
  rw [hsecond, hfirst, splitReports, List.flatMap_append, List.append_assoc]

variable (left right) in
/-- The calls are those that `Split` records. -/
theorem map_move_splitReports (s dest : Segment K V) :
    (splitReports p left right s dest).map Relocation.move = (split p s dest).moves := by
  rw [log_split SplitState.moves (fun _ _ => rfl) SplitState.moves_regularSlot
    SplitState.moves_stashSlot s dest, List.map_eq_flatMap]
  rfl

variable (left right) in
/-- The entries that found no slot are those that `Split` drops. -/
theorem flatMap_lost_splitReports (s dest : Segment K V) :
    (splitReports p left right s dest).flatMap Relocation.lost = (split p s dest).dropped :=
  (log_split SplitState.dropped (fun _ _ => rfl) SplitState.dropped_regularSlot
    SplitState.dropped_stashSlot s dest).symm

/-! ### Every call is about a move -/

/-- What the calls of a split of `s` into `dest` get right in any case: the entry, the
    segments, and the bucket of an entry that found a slot. -/
structure Told (p : Policy K V) (left right : Ptr) (s dest : Segment K V) (r : Relocation K V) :
    Prop where
  carried : r.Carried
  taken : r.taken.ptr = left ∧ r.taken.bid < p.kTotalBuckets
  segmentFrom : r.move.segmentFrom = s.segmentId
  bidFrom : r.move.bidFrom < p.kTotalBuckets
  put : ∀ pl, r.put = some pl → pl.bid < p.kTotalBuckets ∧ r.move.bidTo = pl.bid ∧
    (pl.ptr = left ∧ r.move.segmentTo = s.segmentId ∨
      pl.ptr = right ∧ r.move.segmentTo = dest.segmentId)

variable {s : Segment K V} {init : Segment K V × List (K × V)} {bid j : Nat} {l : List Nat}
  {moved : List (K × V)} {st : SplitState K V} {e : Entry K V}

namespace SplitState

section Told

variable [p.Movable]

/-- The call for a migrating entry. -/
theorem Progress.told_migrate (h : Progress p s init bid l moved st) (hinit : init.1.Inv p)
    (hbid : bid < p.kTotalBuckets) {i : Nat} (hi : i < p.kTotalBuckets)
    (he : (st.live bid).cell (bid, j) = some e) (hash : UInt64) :
    Told p left right s init.1 (st.migrateReport p left right i bid j hash) := by
  have hsource := (source_of_live he).1
  have hrecv : Receives p init (st.dest, st.dropped) moved := by
    rw [h.dest]
    exact receives_foldl p hinit moved
  have hpair : ((st.source.bucket bid).key j, (st.source.bucket bid).value j) = (e.key, e.value) :=
    pair_of_cell hsource
  obtain ⟨hk, hv⟩ := Prod.mk.inj hpair
  unfold migrateReport
  dsimp only
  rw [hk, hv]
  have hput : ∀ it, (st.dest.insertUniq p e.key e.value hash false).it = some it →
      it.index < p.kTotalBuckets ∧
        ∃ e', (st.dest.insertUniq p e.key e.value hash false).seg.cell it.at = some e' ∧
          e'.key = e.key ∧ e'.value = e.value := by
    intro it hit
    rcases insertUniq_cases p hrecv.inv.slotsWF e.key e.value hash false with
      ⟨hnone, -⟩ | ⟨it', hit', hplaced⟩
    · rw [hnone] at hit
      cases hit
    · rw [hit', Option.some_inj] at hit
      exact hit ▸ hplaced.at
  refine ⟨⟨⟨j, e, hsource, rfl⟩, ?_⟩, ⟨rfl, hbid⟩, h.segmentId, hi, ?_⟩
  · intro pl hpl
    obtain ⟨it, hit, rfl⟩ := Option.map_eq_some_iff.mp hpl
    obtain ⟨-, e', he', hk', hv'⟩ := hput it hit
    exact ⟨it.slot, e', he', Prod.ext hk' hv'⟩
  · intro pl hpl
    obtain ⟨it, hit, rfl⟩ := Option.map_eq_some_iff.mp hpl
    refine ⟨(hput it hit).1, ?_, Or.inr ⟨rfl, hrecv.segmentId⟩⟩
    dsimp only
    rw [hit]
    rfl

/-- A call of the first loop names the bucket the entry was taken from. -/
theorem Progress.told_regular (h : Progress p s init bid (j :: l) moved st) (hinit : init.1.Inv p)
    (hbid : bid < p.kBucketNum) :
    ∀ r ∈ st.regularReports p left right bid j,
      Told p left right s init.1 r ∧ r.move.bidFrom = r.taken.bid := by
  intro r hr
  obtain ⟨e, he, -⟩ := h.here j List.mem_cons_self
  have htotal := p.lt_total_of_lt hbid
  unfold regularReports at hr
  dsimp only at hr
  split at hr
  · cases hr
  · rw [List.mem_singleton] at hr
    rw [hr]
    exact ⟨h.told_migrate hinit htotal htotal he _, rfl⟩

/-- A call of the second loop does not. -/
theorem Progress.told_stash {q : Nat} (h : Progress p s init (p.kBucketNum + q) (j :: l) moved st)
    (hinit : init.1.Inv p) (hq : q < kStashBucketNum) :
    ∀ r ∈ st.stashReports p left right q j,
      Told p left right s init.1 r ∧ r.move.bidFrom ≠ r.taken.bid := by
  intro r hr
  obtain ⟨e, he, -⟩ := h.here j List.mem_cons_self
  have hsource := (source_of_live he).1
  have htotal := p.stash_lt_total hq
  have hpos := p.kBucketNum_pos
  have hne : q ≠ p.kBucketNum + q := by omega
  have hq' : q < p.kTotalBuckets := by omega
  have hpair : ((st.source.bucket (p.kBucketNum + q)).key j,
      (st.source.bucket (p.kBucketNum + q)).value j) = (e.key, e.value) := pair_of_cell hsource
  obtain ⟨hk, hv⟩ := Prod.mk.inj hpair
  have hfp := (h.inv.stashed q hq j e he).1
  unfold stashReports at hr
  dsimp only at hr
  rw [hk, hv] at hr
  split at hr
  · rcases tryMoveFromStash_cases h.slotsWF hsource hfp with
      hres | ⟨flag, s₁, i', j', hi', hput, hres⟩
    · rw [hres] at hr
      cases hr
    · rw [hres, List.mem_singleton] at hr
      subst hr
      have hi'lt : i' < p.kBucketNum := by
        rw [hi']
        cases flag <;> simp [p.homeIndex_lt, p.nextBid_lt]
      refine ⟨⟨⟨⟨j, e, hsource, rfl⟩, ?_⟩, ⟨rfl, htotal⟩, h.segmentId, hq', ?_⟩, hne⟩
      · intro pl hpl
        cases hpl
        refine ⟨j', { e with probe := flag }, ?_, rfl⟩
        have hother : (i', j') ≠ (p.kBucketNum + q, j) := by
          intro heq
          have := (Prod.mk.inj heq).1
          omega
        rw [removeStashReference, cell_unsetStashPtr, cell_setBucket_moveOut p s₁ hother,
          hput.cell, Function.update_self]
      · intro pl hpl
        cases hpl
        exact ⟨p.lt_total_of_lt hi'lt, rfl, Or.inl ⟨rfl, h.segmentId⟩⟩
  · rw [List.mem_singleton] at hr
    rw [hr]
    exact ⟨h.told_migrate hinit htotal hq' he _, hne⟩

omit [p.Movable] in
/-- The calls of a round, from those on one slot. -/
theorem Between.forall_reports {step : SplitState K V → Nat → SplitState K V}
    {tell : SplitState K V → Nat → List (Relocation K V)} {Q : Relocation K V → Prop}
    (hstep : ∀ st j l moved, Progress p s init bid (j :: l) moved st → j ∉ l →
      Progress p s init bid l (moved ++ leaving p s bid j) (step st j))
    (htell : ∀ st j l moved, Progress p s init bid (j :: l) moved st → ∀ r ∈ tell st j, Q r)
    (h : Between p s init bid moved st) :
    ∀ r ∈ reports step tell st ((st.source.bucket bid).busySlots p), Q r := by
  obtain ⟨hslots, hprogress⟩ := h.start
  rw [hslots]
  refine Report.forall_reports
    (I := fun l st => l.Nodup ∧ ∃ moved, Progress p s init bid l moved st) ?_
    ⟨Bucket.nodup_busySlots p _, moved, hprogress⟩
  rintro st j l ⟨hnodup, moved, hj⟩
  obtain ⟨hmem, hnodup⟩ := List.nodup_cons.mp hnodup
  exact ⟨htell st j l moved hj, hnodup, _, hstep st j l moved hj hmem⟩

end Told

end SplitState

section Movable

variable [p.Movable]

theorem told_splitRegularReports {s dest : Segment K V} (hinv : s.Inv p) (hdest : dest.Inv p) :
    ∀ r ∈ splitRegularReports p left right s dest,
      Told p left right s dest r ∧ r.move.bidFrom = r.taken.bid := by
  intro r hr
  obtain ⟨i, hi, hr⟩ := mem_reports_range.mp hr
  have hbetween := (SplitState.between_start p hinv dest).regular i (Nat.le_of_lt hi)
  obtain ⟨htold, hbid⟩ := hbetween.forall_reports
    (fun st j l moved h hj => h.regularSlot hj hi)
    (fun st j l moved h => h.told_regular (localDepth_irrelevant p hdest _) hi) r hr
  exact ⟨⟨htold.carried, htold.taken, htold.segmentFrom, htold.bidFrom, htold.put⟩, hbid⟩

theorem told_splitStashReports {s dest : Segment K V} (hinv : s.Inv p) (hdest : dest.Inv p) :
    ∀ r ∈ splitStashReports p left right s dest,
      Told p left right s dest r ∧ r.move.bidFrom ≠ r.taken.bid := by
  intro r hr
  obtain ⟨q, hq, hr⟩ := mem_reports_range.mp hr
  have hmiddle := (SplitState.between_start p hinv dest).regular p.kBucketNum (Nat.le_refl _)
  have hbetween := hmiddle.stash q (Nat.le_of_lt hq)
  obtain ⟨htold, hbid⟩ := hbetween.forall_reports
    (fun st j l moved h hj => h.stashSlot hj hq)
    (fun st j l moved h => h.told_stash (localDepth_irrelevant p hdest _) hq) r hr
  exact ⟨⟨htold.carried, htold.taken, htold.segmentFrom, htold.bidFrom, htold.put⟩, hbid⟩

theorem told_splitReports {s dest : Segment K V} (hinv : s.Inv p) (hdest : dest.Inv p) :
    ∀ r ∈ splitReports p left right s dest, Told p left right s dest r := by
  intro r hr
  rcases List.mem_append.mp hr with hr | hr
  · exact (told_splitRegularReports hinv hdest r hr).1
  · exact (told_splitStashReports hinv hdest r hr).1

end Movable

/-! ### When the second loop is silent -/

/-- A stash entry that stays, with no room in its home bucket or the next one. -/
def Stuck (p : Policy K V) (s : Segment K V) (e : Entry K V) : Prop :=
  isMine s.localDepth (p.hashFn e.key) = true ∧ s.Full p (p.homeIndex (p.hashFn e.key)) ∧
    s.Full p (p.nextBid (p.homeIndex (p.hashFn e.key)))

variable [p.Movable]

/-- `TryMoveFromStash` fails without a trace exactly when both buckets are full. -/
theorem tryMoveFromStash_eq_none {s : Segment K V} (hwf : s.SlotsWF p) (q j : Nat) (hash : UInt64) :
    (s.tryMoveFromStash p q j hash).2 = none ↔
      s.Full p (p.homeIndex hash) ∧ s.Full p (p.nextBid (p.homeIndex hash)) := by
  unfold tryMoveFromStash
  dsimp only
  rcases tryInsert_cases p hwf (p.homeIndex hash) ((s.bucket (p.kBucketNum + q)).key j)
    ((s.bucket (p.kBucketNum + q)).value j) (fingerprint hash) false with
    ⟨hhome, hres⟩ | ⟨hhome, s₁, j', hres, -⟩
  · rw [hres]
    dsimp only
    rcases tryInsert_cases p hwf (p.nextBid (p.homeIndex hash))
      ((s.bucket (p.kBucketNum + q)).key j) ((s.bucket (p.kBucketNum + q)).value j)
      (fingerprint hash) true with ⟨hnext, hres'⟩ | ⟨hnext, s₁, j', hres', -⟩
    · simp [hres', hhome, hnext]
    · simp [hres', hnext]
  · simp [hres, hhome]

namespace SplitState

/-- A slot the second loop is silent on. -/
theorem stashReports_eq_nil_iff (hwf : st.source.SlotsWF p) {q : Nat}
    (he : st.source.cell (p.kBucketNum + q, j) = some e) :
    st.stashReports p left right q j = [] ↔ Stuck p st.source e := by
  have hkey := (Bucket.key_of_cell (b := st.source.bucket (p.kBucketNum + q)) he).1
  have hnone := tryMoveFromStash_eq_none hwf q j (p.hashFn e.key)
  unfold stashReports Stuck
  dsimp only
  rw [hkey, ← hnone]
  by_cases hmine : isMine st.source.localDepth (p.hashFn e.key) = true
  · rw [if_pos hmine]
    cases hmove : st.source.tryMoveFromStash p q j (p.hashFn e.key) with
    | mk s o => cases o <;> simp [hmine]
  · simp [hmine]

/-- … is left as it is. -/
theorem stashSlot_of_silent (hwf : st.source.SlotsWF p) {q : Nat}
    (he : st.source.cell (p.kBucketNum + q, j) = some e) (hfp : e.fp = fingerprint (p.hashFn e.key))
    (hsilent : st.stashReports p left right q j = []) : st.stashSlot p q j = st := by
  have hkey := (Bucket.key_of_cell (b := st.source.bucket (p.kBucketNum + q)) he).1
  obtain ⟨hmine, hfull⟩ := (stashReports_eq_nil_iff hwf he).mp hsilent
  have hnone := (tryMoveFromStash_eq_none hwf q j (p.hashFn e.key)).mpr hfull
  have hstay : st.source.tryMoveFromStash p q j (p.hashFn e.key) = (st.source, none) := by
    rcases tryMoveFromStash_cases hwf he hfp with hres | ⟨-, s₁, i', j', -, -, hres⟩
    · exact hres
    · rw [hres] at hnone
      cases hnone
  unfold stashSlot
  dsimp only
  rw [hkey, if_pos hmine, hstay]

omit [p.Movable] in
/-- Clearing nothing. -/
theorem flush_of_mask (hmask : st.invalidMask = 0#32) (bid : Nat) : st.flush bid = st := by
  have hbucket : (st.source.bucket bid).clearSlots st.invalidMask = st.source.bucket bid := by
    rw [hmask, Bucket.clearSlots, SlotBitmap.clearSlots, BitVec.not_zero, BitVec.and_allOnes,
      BitVec.and_allOnes]
  have hsource : st.source.setBucket bid ((st.source.bucket bid).clearSlots st.invalidMask) =
      st.source := by
    rw [hbucket]
    simp [setBucket]
  unfold flush
  rw [hsource, ← hmask]

theorem Between.stashBucketReports_eq_nil_iff (left right : Ptr)
    (h : Between p s init p.kBucketNum moved st) {q : Nat} (hq : q < kStashBucketNum) :
    (st.stashBucketReports p left right q = [] ↔
      ∀ j e, st.source.cell (p.kBucketNum + q, j) = some e → Stuck p st.source e) ∧
    (st.stashBucketReports p left right q = [] → st.stashBucket p q = st) := by
  have hwf := h.inv.slotsWF
  have hbusy : ∀ j, j ∈ (st.source.bucket (p.kBucketNum + q)).busySlots p →
      ∃ e, st.source.cell (p.kBucketNum + q, j) = some e := fun j hj =>
    Option.ne_none_iff_exists'.mp ((Bucket.mem_busySlots p (hwf _)).mp hj)
  have hidle : ∀ j ∈ (st.source.bucket (p.kBucketNum + q)).busySlots p,
      st.stashReports p left right q j = [] → st.stashSlot p q j = st := by
    intro j hj hsilent
    obtain ⟨e, he⟩ := hbusy j hj
    exact stashSlot_of_silent hwf he (h.inv.stashed q hq j e he).1 hsilent
  have hnil := reports_eq_nil_iff hidle
  refine ⟨hnil.trans ?_, fun hsilent => ?_⟩
  · constructor
    · intro hall j e he
      have hmem : j ∈ (st.source.bucket (p.kBucketNum + q)).busySlots p :=
        (Bucket.mem_busySlots p (hwf _)).mpr (Option.ne_none_iff_exists'.mpr ⟨e, he⟩)
      exact (stashReports_eq_nil_iff hwf he).mp (hall j hmem)
    · intro hall j hj
      obtain ⟨e, he⟩ := hbusy j hj
      exact (stashReports_eq_nil_iff hwf he).mpr (hall j e he)
  · unfold stashBucket
    rw [foldl_eq_of_silent hidle (hnil.mp hsilent)]
    exact flush_of_mask h.mask _

/-! ### The segment between the two loops -/

/-- `s'` is `s` without some of the entries that leave. -/
def Thinned (p : Policy K V) (s s' : Segment K V) : Prop :=
  ∀ x, s'.cell x = s.cell x ∨
    s'.cell x = none ∧ ∃ e, s.cell x = some e ∧ isMine s.localDepth (p.hashFn e.key) = false

omit [p.Movable] in
theorem Progress.thinned (h : Progress p s init bid (j :: l) moved st)
    (hthin : Thinned p s (st.live bid)) : Thinned p s ((st.regularSlot p bid j).live bid) := by
  obtain ⟨e, he, hs⟩ := h.here j List.mem_cons_self
  have hkey := (Bucket.key_of_cell (b := st.source.bucket bid) (source_of_live he).1).1
  unfold SplitState.regularSlot
  dsimp only
  rw [hkey, h.localDepth]
  by_cases hmine : isMine s.localDepth (p.hashFn e.key) = true
  · rw [if_pos hmine]
    exact hthin
  · rw [if_neg hmine]
    obtain ⟨-, -, hcell, -⟩ := migrate_spec p h.slotsWF (i := bid) he
    intro x
    rw [hcell]
    by_cases hx : x = (bid, j)
    · subst hx
      rw [Function.update_self]
      exact Or.inr ⟨rfl, e, hs, by simpa using hmine⟩
    · rw [Function.update_of_ne hx]
      exact hthin x

omit [p.Movable] in
theorem Progress.thinned_foldl (h : Progress p s init bid l moved st) (hbid : bid < p.kBucketNum)
    (hl : l.Nodup) (hthin : Thinned p s (st.live bid)) :
    Thinned p s ((l.foldl (SplitState.regularSlot p bid) st).live bid) := by
  induction l generalizing moved st with
  | nil => exact hthin
  | cons j l ih =>
    obtain ⟨hj, hl⟩ := List.nodup_cons.mp hl
    exact ih (h.regularSlot hj hbid) hl (h.thinned hthin)

omit [p.Movable] in
/-- The first loop only takes entries that leave. -/
theorem Between.thinned (h : Between p s init 0 (leavingFirst p s 0) st)
    (hthin : Thinned p s st.source) (n : Nat) (hn : n ≤ p.kBucketNum) :
    Thinned p s ((List.range n).foldl (regularBucket p) st).source := by
  induction n with
  | zero => exact hthin
  | succ n ih =>
    rw [List.range_succ, List.foldl_append]
    have hbetween := h.regular n (by omega)
    obtain ⟨hslots, hprogress⟩ := hbetween.start
    have hlive : Thinned p s (((List.range n).foldl (regularBucket p) st).live n) := by
      intro x
      rw [cell_live_of_mask hbetween.mask]
      exact ih (by omega) x
    have hround := hprogress.thinned_foldl (by omega) (Bucket.nodup_busySlots p _) hlive
    rw [← hslots] at hround
    exact hround

end SplitState

/-! ### Splits that report right -/

/-- Bucket `i` is full of entries that the next split leaves in the segment. -/
def Settled (p : Policy K V) (s : Segment K V) (i : Nat) : Prop :=
  ∀ j < p.kSlotNum, ∃ e, s.cell (i, j) = some e ∧
    isMine (s.localDepth + 1) (p.hashFn e.key) = true

/-- The next split moves nothing out of the stash: every stash entry stays in the
    segment, and the two buckets it could go back to are full of entries that stay. -/
def StashStays (p : Policy K V) (s : Segment K V) : Prop :=
  ∀ q < kStashBucketNum, ∀ j e, s.cell (p.kBucketNum + q, j) = some e →
    isMine (s.localDepth + 1) (p.hashFn e.key) = true ∧
      s.Settled p (p.homeIndex (p.hashFn e.key)) ∧
      s.Settled p (p.nextBid (p.homeIndex (p.hashFn e.key)))

instance (p : Policy K V) (s : Segment K V) (i : Nat) : Decidable (s.Settled p i) :=
  inferInstanceAs (Decidable (∀ j < p.kSlotNum, ∃ e ∈ s.cell (i, j),
    isMine (s.localDepth + 1) (p.hashFn e.key) = true))

/-- A bitmap has 32 bits, so that no further slot is busy. -/
instance (p : Policy K V) (s : Segment K V) : Decidable (s.StashStays p) :=
  have (q j : Nat) : Decidable (∀ e ∈ s.cell (p.kBucketNum + q, j),
      isMine (s.localDepth + 1) (p.hashFn e.key) = true ∧
        s.Settled p (p.homeIndex (p.hashFn e.key)) ∧
        s.Settled p (p.nextBid (p.homeIndex (p.hashFn e.key)))) := Option.decidableForallMem _
  decidable_of_iff (∀ q < kStashBucketNum, ∀ j < 32, ∀ e ∈ s.cell (p.kBucketNum + q, j), _) <|
    forall₂_congr fun _ _ =>
      ⟨fun h j e he => h j (BitVec.lt_of_getLsbD (Bucket.busy_of_cell he)) e he,
        fun h j _ e he => h j e he⟩

variable {s dest : Segment K V}

omit [p.Movable] in
/-- The buckets that are full when the second loop starts. -/
theorem full_splitMiddle_iff (hinv : s.Inv p) {i : Nat} (hi : i < p.kBucketNum) :
    (splitMiddle p s dest).source.Full p i ↔ s.Settled p i := by
  have hstart := SplitState.between_start p hinv dest
  have hmiddle := hstart.regular p.kBucketNum (Nat.le_refl _)
  have hthin := hstart.thinned (fun x => Or.inl rfl) p.kBucketNum (Nat.le_refl _)
  constructor
  · intro hfull j hj
    obtain ⟨e, he⟩ := Option.ne_none_iff_exists'.mp (hfull j hj)
    have hmine := hmiddle.behind (i, j) e hi he
    rcases hthin (i, j) with hsame | ⟨hnone, -⟩
    · exact ⟨e, hsame.symm.trans he, hmine⟩
    · exact absurd (he.symm.trans hnone) (by simp)
  · intro hsettled j hj
    obtain ⟨e, he, hmine⟩ := hsettled j hj
    rcases hthin (i, j) with hsame | ⟨-, e', he', hleaves⟩
    · intro hnone
      exact absurd (he.symm.trans (hsame.symm.trans hnone)) (by simp)
    · obtain rfl : e = e' := Option.some.inj (he.symm.trans he')
      exact absurd (hmine.symm.trans hleaves) (by simp)

theorem splitStashReports_eq_nil_iff (left right : Ptr) (hinv : s.Inv p) (dest : Segment K V) :
    splitStashReports p left right s dest = [] ↔ s.StashStays p := by
  have hstart := SplitState.between_start p hinv dest
  have hmiddle := hstart.regular p.kBucketNum (Nat.le_refl _)
  have hdepth : (splitMiddle p s dest).source.localDepth = s.localDepth + 1 := hmiddle.localDepth
  have hcell : ∀ q j, (splitMiddle p s dest).source.cell (p.kBucketNum + q, j) =
      s.cell (p.kBucketNum + q, j) := fun q j => hmiddle.ahead _ (Nat.le_add_right _ _)
  have hstuck : ∀ e, Stuck p (splitMiddle p s dest).source e ↔
      isMine (s.localDepth + 1) (p.hashFn e.key) = true ∧
        s.Settled p (p.homeIndex (p.hashFn e.key)) ∧
        s.Settled p (p.nextBid (p.homeIndex (p.hashFn e.key))) := by
    intro e
    rw [Stuck, hdepth, full_splitMiddle_iff hinv (p.homeIndex_lt _),
      full_splitMiddle_iff hinv (p.nextBid_lt _)]
  have hround := fun q (hq : q < kStashBucketNum) =>
    hmiddle.stashBucketReports_eq_nil_iff left right hq
  have hnil : splitStashReports p left right s dest = [] ↔
      ∀ q ∈ List.range kStashBucketNum,
        (splitMiddle p s dest).stashBucketReports p left right q = [] :=
    reports_eq_nil_iff fun q hq => (hround q (List.mem_range.mp hq)).2
  rw [hnil]
  constructor
  · intro hall q hq j e he
    have hsilent := (hround q hq).1.mp (hall q (List.mem_range.mpr hq))
    exact (hstuck e).mp (hsilent j e ((hcell q j).trans he))
  · intro hstays q hq
    refine (hround q (List.mem_range.mp hq)).1.mpr fun j e he => (hstuck e).mpr ?_
    exact hstays q (List.mem_range.mp hq) j e ((hcell q j).symm.trans he)

omit [p.Movable] in
/-- **A split into a new segment reports right exactly when it drops nothing and moves
    nothing out of the stash.** -/
theorem splitReports_right_iff [Inhabited K] [Inhabited V] [p.Movable] (hinv : s.Inv p)
    (depth id : Nat) :
    (∀ r ∈ splitReports p left right s (.new depth id), r.Right) ↔
      s.SplitFits p ∧ s.StashStays p := by
  have hnew : (Segment.new depth id : Segment K V).Inv p := inv_new p depth id
  have hlength := split_dropped_length p hinv depth id
  have hlost := flatMap_lost_splitReports (p := p) left right s (.new depth id)
  have hdropped : (split p s (.new depth id)).dropped = [] ↔ s.SplitFits p := by
    rw [← List.length_eq_zero_iff, hlength, SplitFits]
    omega
  rw [← hdropped, ← hlost, ← splitStashReports_eq_nil_iff left right hinv (.new depth id)]
  constructor
  · intro hright
    constructor
    · refine List.flatMap_eq_nil_iff.mpr fun r hr => ?_
      obtain ⟨-, pl, hput, -⟩ := hright r hr
      simp [Relocation.lost, hput]
    · refine List.eq_nil_iff_forall_not_mem.mpr fun r hr => ?_
      exact (told_splitStashReports hinv hnew r hr).2
        (hright r (List.mem_append_right _ hr)).1
  · rintro ⟨hfound, hsilent⟩ r hr
    have hlost := List.flatMap_eq_nil_iff.mp hfound r hr
    rw [splitReports, hsilent, List.append_nil] at hr
    obtain ⟨htold, hbid⟩ := told_splitRegularReports hinv hnew r hr
    cases hput : r.put with
    | none => simp [Relocation.lost, hput] at hlost
    | some pl => exact ⟨hbid, pl, hput, (htold.put pl hput).2.1⟩

end Reports

end Segment

end StorageEngine.DashTable
