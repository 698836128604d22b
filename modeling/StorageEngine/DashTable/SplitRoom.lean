/-
  StorageEngine/DashTable/SplitRoom.lean
  ======================================
  **When a split finds room for everything.**

  Whether the re-insertions of `Split` succeed depends only on the sequence of home
  buckets of the migrating entries, and on them only through the number of own and
  probing entries of each bucket.  `Load` keeps these numbers, `Load.place` is
  `InsertUniq` on them, and `Load.leftOver` counts the entries of a sequence that no
  regular bucket takes.  The destination drops exactly what exceeds the four stash
  buckets (`split_dropped_length`).
-/
import StorageEngine.DashTable.SegmentRuns

namespace StorageEngine.DashTable

open StorageEngine SlotStore

variable {K V : Type}

/-- The number of own and of probing entries of each regular bucket. -/
structure Load where
  own : Nat → Nat := fun _ => 0
  probing : Nat → Nat := fun _ => 0

namespace Load

variable (p : Policy K V)

def total (w : Load) (i : Nat) : Nat := w.own i + w.probing i

/-- Room in bucket `i`. -/
def room (w : Load) (i : Nat) : Bool := w.total i < p.kSlotNum

def addOwn (w : Load) (i : Nat) : Load :=
  { w with own := Function.update w.own i (w.own i + 1) }

def addProbing (w : Load) (i : Nat) : Load :=
  { w with probing := Function.update w.probing i (w.probing i + 1) }

def removeOwn (w : Load) (i : Nat) : Load :=
  { w with own := Function.update w.own i (w.own i - 1) }

def removeProbing (w : Load) (i : Nat) : Load :=
  { w with probing := Function.update w.probing i (w.probing i - 1) }

/-- An entry with home `y` takes a slot of `y`, else of the next bucket, else one that
    an own entry of the next bucket leaves by moving on, else one that a probing entry
    of `y` leaves by moving back to its home. -/
def place (w : Load) (y : Nat) : Option Load :=
  let n := p.nextBid y
  if w.room p y then some (w.addOwn y)
  else if w.room p n then some (w.addProbing n)
  else if 0 < w.own n ∧ w.room p (p.nextBid n) then
    some (((w.addProbing (p.nextBid n)).removeOwn n).addProbing n)
  else if 0 < w.probing y ∧ w.room p (p.prevBid y) then
    some (((w.addOwn (p.prevBid y)).removeProbing y).addOwn y)
  else none

/-- How many entries of a sequence of homes find no regular slot. -/
def leftOver : Load → List Nat → Nat
  | _, [] => 0
  | w, y :: ys =>
    match w.place p y with
    | some w' => leftOver w' ys
    | none => leftOver w ys + 1

end Load

namespace Segment

variable (p : Policy K V)

/-! ### Counting the entries of a bucket -/

/-- The entries of bucket `i` with the given probe bit. -/
def rowCount (s : Segment K V) (i : Nat) (flag : Bool) : Nat :=
  gather (Finset.range p.kSlotNum) (fun j => s.cell (i, j)) fun _ e =>
    if e.probe = flag then 1 else 0

/-- The entries of bucket `i`. -/
def rowTotal (s : Segment K V) (i : Nat) : Nat :=
  gather (Finset.range p.kSlotNum) (fun j => s.cell (i, j)) fun _ _ => 1

theorem rowTotal_eq (s : Segment K V) (i : Nat) :
    s.rowTotal p i = s.rowCount p i false + s.rowCount p i true := by
  unfold rowTotal rowCount gather
  rw [← Finset.sum_add_distrib]
  apply Finset.sum_congr rfl
  intro j _
  dsimp only
  cases s.cell (i, j) with
  | none => rfl
  | some e => cases hprobe : e.probe <;> simp [hprobe]

theorem rowTotal_le (s : Segment K V) (i : Nat) : s.rowTotal p i ≤ p.kSlotNum := by
  calc s.rowTotal p i ≤ ∑ _j ∈ Finset.range p.kSlotNum, 1 := by
        unfold rowTotal gather
        apply Finset.sum_le_sum
        intro j _
        dsimp only
        cases s.cell (i, j) <;> simp
    _ = p.kSlotNum := by simp

theorem full_iff_rowTotal (s : Segment K V) (i : Nat) :
    s.Full p i ↔ s.rowTotal p i = p.kSlotNum := by
  constructor
  · intro hfull
    have : s.rowTotal p i = ∑ _j ∈ Finset.range p.kSlotNum, 1 := by
      unfold rowTotal gather
      apply Finset.sum_congr rfl
      intro j hj
      obtain ⟨e, he⟩ := Option.ne_none_iff_exists'.mp (hfull j (Finset.mem_range.mp hj))
      simp [he]
    simpa using this
  · intro htotal j hj hfree
    have hlt : s.rowTotal p i < ∑ _j ∈ Finset.range p.kSlotNum, 1 := by
      unfold rowTotal gather
      apply Finset.sum_lt_sum
      · intro k _
        dsimp only
        cases s.cell (i, k) <;> simp
      · exact ⟨j, Finset.mem_range.mpr hj, by simp [hfree]⟩
    have hlt' : s.rowTotal p i < p.kSlotNum := by simpa using hlt
    omega

theorem not_full_iff_rowTotal (s : Segment K V) (i : Nat) :
    ¬ s.Full p i ↔ s.rowTotal p i < p.kSlotNum := by
  rw [full_iff_rowTotal]
  have := rowTotal_le p s i
  omega

theorem hasProbe_iff_rowCount {s : Segment K V} (hwf : s.SlotsWF p) (i : Nat) (flag : Bool) :
    s.HasProbe i flag ↔ 0 < s.rowCount p i flag := by
  unfold rowCount gather
  rw [Nat.pos_iff_ne_zero, Ne, Finset.sum_eq_zero_iff]
  constructor
  · rintro ⟨j, e, he, hflag⟩ hzero
    have := hzero j (Finset.mem_range.mpr (slot_lt_of_cell p hwf he))
    simp [he, hflag] at this
  · intro hne
    by_contra hno
    refine hne fun j _ => ?_
    dsimp only
    cases hc : s.cell (i, j) with
    | none => rfl
    | some e =>
      have : e.probe ≠ flag := fun hflag => hno ⟨j, e, hc, hflag⟩
      simp [this]

theorem row_update (c : Nat × Nat → Option (Entry K V)) (x : Nat × Nat) (o : Option (Entry K V))
    (i : Nat) : (fun j => Function.update c x o (i, j)) =
      if i = x.1 then Function.update (fun j => c (i, j)) x.2 o else fun j => c (i, j) := by
  funext j
  by_cases hi : i = x.1
  · subst hi
    rw [if_pos rfl]
    by_cases hj : j = x.2
    · subst hj
      simp
    · have hne : (x.1, j) ≠ x := fun h => hj (by rw [← h])
      simp [hj, hne]
  · have hne : (i, j) ≠ x := fun h => hi (by rw [← h])
    simp [hi, hne]

theorem Put.rowCount {s s' : Segment K V} {x : Nat × Nat} {e : Entry K V} (h : Put p s s' x e)
    (i : Nat) (flag : Bool) : s'.rowCount p i flag =
      (if i = x.1 ∧ e.probe = flag then 1 else 0) + s.rowCount p i flag := by
  unfold Segment.rowCount
  rw [h.cell, row_update]
  by_cases hi : i = x.1
  · subst hi
    rw [if_pos rfl]
    refine (gather_put (Finset.mem_range.mpr h.slot_lt) h.free).trans ?_
    simp only [true_and]
    rfl
  · simp [hi]

theorem Take.rowCount {s s' : Segment K V} {x : Nat × Nat} {e : Entry K V} (h : Take p s s' x e)
    (i : Nat) (flag : Bool) : (if i = x.1 ∧ e.probe = flag then 1 else 0) + s'.rowCount p i flag =
      s.rowCount p i flag := by
  unfold Segment.rowCount
  rw [h.cell, row_update]
  by_cases hi : i = x.1
  · subst hi
    rw [if_pos rfl]
    refine Eq.trans ?_ (gather_take (Finset.mem_range.mpr h.slot_lt) h.busy)
    simp
  · simp [hi]

theorem rowCount_congr {s s' : Segment K V} (h : s'.cell = s.cell) (i : Nat) (flag : Bool) :
    s'.rowCount p i flag = s.rowCount p i flag := by
  unfold rowCount
  rw [h]

/-- The entries in stash buckets. -/
def stashCount (s : Segment K V) : Nat :=
  ∑ q ∈ Finset.range kStashBucketNum, s.rowTotal p (p.kBucketNum + q)

theorem stashCount_congr {s s' : Segment K V}
    (h : ∀ q < kStashBucketNum, ∀ flag, s'.rowCount p (p.kBucketNum + q) flag =
      s.rowCount p (p.kBucketNum + q) flag) : s'.stashCount p = s.stashCount p := by
  apply Finset.sum_congr rfl
  intro q hq
  rw [rowTotal_eq, rowTotal_eq, h q (Finset.mem_range.mp hq), h q (Finset.mem_range.mp hq)]

theorem Put.stashCount_regular {s s' : Segment K V} {x : Nat × Nat} {e : Entry K V}
    (h : Put p s s' x e) (hx : x.1 < p.kBucketNum) : s'.stashCount p = s.stashCount p := by
  apply stashCount_congr
  intro q _ flag
  have hne : p.kBucketNum + q ≠ x.1 := by omega
  rw [h.rowCount p, if_neg (fun hq => hne hq.1), zero_add]

theorem Take.stashCount_regular {s s' : Segment K V} {x : Nat × Nat} {e : Entry K V}
    (h : Take p s s' x e) (hx : x.1 < p.kBucketNum) : s'.stashCount p = s.stashCount p := by
  apply stashCount_congr
  intro q _ flag
  have hne : p.kBucketNum + q ≠ x.1 := by omega
  rw [← h.rowCount p, if_neg (fun hq => hne hq.1), zero_add]

theorem Put.stashCount_stash {s s' : Segment K V} {q j : Nat} {e : Entry K V}
    (h : Put p s s' (p.kBucketNum + q, j) e) (hq : q < kStashBucketNum) :
    s'.stashCount p = s.stashCount p + 1 := by
  have hrow : ∀ q', s'.rowTotal p (p.kBucketNum + q') =
      (if q' = q then 1 else 0) + s.rowTotal p (p.kBucketNum + q') := by
    intro q'
    rw [rowTotal_eq, rowTotal_eq, h.rowCount p, h.rowCount p]
    by_cases hqq : q' = q
    · subst hqq
      cases e.probe <;> simp <;> omega
    · simp [hqq]
  unfold Segment.stashCount
  simp only [hrow]
  rw [Finset.sum_add_distrib, Finset.sum_ite_eq' _ q (fun _ => 1),
    if_pos (Finset.mem_range.mpr hq), add_comm]

theorem stashCount_le (s : Segment K V) : s.stashCount p ≤ 4 * p.kSlotNum := by
  calc s.stashCount p ≤ ∑ _q ∈ Finset.range kStashBucketNum, p.kSlotNum :=
        Finset.sum_le_sum fun q _ => rowTotal_le p s _
    _ = 4 * p.kSlotNum := by simp [kStashBucketNum]

theorem stashFull_iff (s : Segment K V) : s.StashFull p ↔ s.stashCount p = 4 * p.kSlotNum := by
  have hsum : ∑ _q ∈ Finset.range kStashBucketNum, p.kSlotNum = 4 * p.kSlotNum := by
    simp [kStashBucketNum]
  unfold StashFull stashCount
  rw [← hsum, Finset.sum_eq_sum_iff_of_le fun q _ => rowTotal_le p s _]
  constructor
  · intro h q hq
    exact (full_iff_rowTotal p s _).mp (h q (Finset.mem_range.mp hq))
  · intro h q hq
    exact (full_iff_rowTotal p s _).mpr (h q (Finset.mem_range.mpr hq))

theorem Put.not_full {s s' : Segment K V} {x : Nat × Nat} {e : Entry K V} (h : Put p s s' x e) :
    ¬ s.Full p x.1 :=
  fun hfull => hfull x.2 h.slot_lt h.free

/-! ### InsertUniq on counts -/

/-- `w` counts the entries of the regular buckets of `s`. -/
def Counts (w : Load) (s : Segment K V) : Prop :=
  ∀ i < p.kBucketNum, w.own i = s.rowCount p i false ∧ w.probing i = s.rowCount p i true

section Counts

variable {p}
variable {w : Load} {s s' : Segment K V}

theorem Counts.room_iff (h : Counts p w s) {i : Nat} (hi : i < p.kBucketNum) :
    w.room p i = true ↔ ¬ s.Full p i := by
  rw [not_full_iff_rowTotal, rowTotal_eq, ← (h i hi).1, ← (h i hi).2]
  exact decide_eq_true_iff

theorem Counts.room_eq_false (h : Counts p w s) {i : Nat} (hi : i < p.kBucketNum)
    (hfull : s.Full p i) : w.room p i = false := by
  rw [← Bool.not_eq_true, h.room_iff hi, not_not]
  exact hfull

/-- A step that adds one entry to bucket `i`. -/
theorem Counts.put (h : Counts p w s) {i j : Nat} {e : Entry K V} (hput : Put p s s' (i, j) e) :
    Counts p (if e.probe then w.addProbing i else w.addOwn i) s' := by
  intro k hk
  obtain ⟨hown, hprobing⟩ := h k hk
  rw [hput.rowCount p, hput.rowCount p, ← hown, ← hprobing]
  cases hprobe : e.probe with
  | true =>
    by_cases hki : k = i
    · subst hki
      simp [Load.addProbing, add_comm]
    · simp [Load.addProbing, hki]
  | false =>
    by_cases hki : k = i
    · subst hki
      simp [Load.addOwn, add_comm]
    · simp [Load.addOwn, hki]

/-- A step that removes one entry from bucket `i`. -/
theorem Counts.take (h : Counts p w s) {i j : Nat} {e : Entry K V} (htake : Take p s s' (i, j) e) :
    Counts p (if e.probe then w.removeProbing i else w.removeOwn i) s' := by
  intro k hk
  obtain ⟨hown, hprobing⟩ := h k hk
  have hfalse := htake.rowCount p k false
  have htrue := htake.rowCount p k true
  cases hprobe : e.probe with
  | true =>
    by_cases hki : k = i
    · subst hki
      simp only [hprobe, and_true, if_true, Bool.true_eq_false, and_false, if_false, zero_add]
        at hfalse htrue
      simp only [Load.removeProbing, if_true, Function.update_self]
      omega
    · simp only [hki, false_and, if_false, zero_add] at hfalse htrue
      simp only [Load.removeProbing, if_true, Function.update_of_ne hki]
      omega
  | false =>
    by_cases hki : k = i
    · subst hki
      simp only [hprobe, and_true, if_true, Bool.false_eq_true, and_false, if_false, zero_add]
        at hfalse htrue
      simp only [Load.removeOwn, Bool.false_eq_true, if_false, Function.update_self]
      omega
    · simp only [hki, false_and, if_false, zero_add] at hfalse htrue
      simp only [Load.removeOwn, Bool.false_eq_true, if_false, Function.update_of_ne hki]
      omega

theorem Counts.congr (h : Counts p w s)
    (hrow : ∀ i < p.kBucketNum, ∀ flag, s'.rowCount p i flag = s.rowCount p i flag) :
    Counts p w s' := by
  intro i hi
  rw [hrow i hi, hrow i hi]
  exact h i hi

/-- The third and fourth way are closed exactly when the code finds no entry to move
    or no room for it. -/
theorem Counts.place_eq_none (h : Counts p w s) (hwf : s.SlotsWF p) {y : Nat}
    (hy : y < p.kBucketNum) (hno : s.NoRoom p y) : w.place p y = none := by
  have hn := p.nextBid_lt y
  have hown : ¬ (0 < w.own (p.nextBid y) ∧ w.room p (p.nextBid (p.nextBid y)) = true) := by
    rw [(h _ hn).1, ← hasProbe_iff_rowCount p hwf, h.room_iff (p.nextBid_lt _)]
    rintro ⟨hhas, hroom⟩
    exact hno.own.elim (fun h => h hhas) hroom
  have hprobing : ¬ (0 < w.probing y ∧ w.room p (p.prevBid y) = true) := by
    rw [(h _ hy).2, ← hasProbe_iff_rowCount p hwf, h.room_iff (p.prevBid_lt hy)]
    rintro ⟨hhas, hroom⟩
    exact hno.probing.elim (fun h => h hhas) hroom
  unfold Load.place
  simp only [h.room_eq_false hy hno.home, h.room_eq_false hn hno.next, Bool.false_eq_true, if_false,
    if_neg hown, if_neg hprobing]

/-- **One `InsertUniq` without spreading, on counts.** -/
theorem Placed.counts {key : K} {value : V} {hash : UInt64} {it : Iter}
    {moves : List (Nat × Nat)} (h : Counts p w s)
    (hwf : s.SlotsWF p) (hplaced : Placed p s key value hash false s' it moves) :
    (∃ w', w.place p (p.homeIndex hash) = some w' ∧ Counts p w' s' ∧
      s'.stashCount p = s.stashCount p) ∨
    (w.place p (p.homeIndex hash) = none ∧ Counts p w s' ∧
      s'.stashCount p = s.stashCount p + 1) := by
  have hy := p.homeIndex_lt hash
  have hn := p.nextBid_lt (p.homeIndex hash)
  cases hplaced with
  | direct probe home put =>
    left
    cases probe with
    | false =>
      have hroom := (h.room_iff hy).mpr (put.not_full p)
      refine ⟨w.addOwn (p.homeIndex hash), ?_, h.put put, put.stashCount_regular p hy⟩
      simp only [Load.place, hroom, if_true]
    | true =>
      have hhome := h.room_eq_false hy (home rfl rfl)
      have hroom := (h.room_iff hn).mpr (put.not_full p)
      refine ⟨w.addProbing (p.nextBid (p.homeIndex hash)), ?_, h.put put,
        put.stashCount_regular p hn⟩
      simp only [Load.place, hhome, Bool.false_eq_true, if_false, hroom, if_true]
  | @displacedOwn e s₁ s₂ s' j j' own home next put take put' =>
    left
    have hhas : s.HasProbe (p.nextBid (p.homeIndex hash)) false :=
      ⟨j, e, cell_of_displaced true own put take.busy, own⟩
    have hpos : 0 < w.own (p.nextBid (p.homeIndex hash)) := by
      rw [(h _ hn).1]
      exact (hasProbe_iff_rowCount p hwf _ _).mp hhas
    have hroom := (h.room_iff (p.nextBid_lt _)).mpr (put.not_full p)
    have hcounts := ((h.put put).take take).put put'
    rw [own] at hcounts
    refine ⟨_, ?_, hcounts, ?_⟩
    · simp only [Load.place, h.room_eq_false hy home, h.room_eq_false hn next, Bool.false_eq_true,
        if_false, hpos, hroom, and_self, if_true]
    · rw [put'.stashCount_regular p hn, take.stashCount_regular p hn,
        put.stashCount_regular p (p.nextBid_lt _)]
  | @displacedProbing e s₁ s₂ s' j j' probing home next own put take put' =>
    left
    have hhas : s.HasProbe (p.homeIndex hash) true :=
      ⟨j, e, cell_of_displaced false probing put take.busy, probing⟩
    have hpos : 0 < w.probing (p.homeIndex hash) := by
      rw [(h _ hy).2]
      exact (hasProbe_iff_rowCount p hwf _ _).mp hhas
    have hroom := (h.room_iff (p.prevBid_lt hy)).mpr (put.not_full p)
    have hown : ¬ (0 < w.own (p.nextBid (p.homeIndex hash)) ∧
        w.room p (p.nextBid (p.nextBid (p.homeIndex hash))) = true) := by
      rw [(h _ hn).1, ← hasProbe_iff_rowCount p hwf, h.room_iff (p.nextBid_lt _)]
      rintro ⟨hhas, hroom⟩
      exact own.elim (fun h => h hhas) hroom
    have hcounts := ((h.put put).take take).put put'
    rw [probing] at hcounts
    refine ⟨_, ?_, hcounts, ?_⟩
    · simp only [Load.place, h.room_eq_false hy home, h.room_eq_false hn next, Bool.false_eq_true,
        if_false, if_neg hown, hpos, hroom, and_self, if_true]
    · rw [put'.stashCount_regular p hy, take.stashCount_regular p hy,
        put.stashCount_regular p (p.prevBid_lt hy)]
  | @stashed s₁ q j hq noRoom put =>
    right
    have hcell := cell_setStashPtr (p := p) s₁ (p.homeIndex hash) q (fingerprint hash)
    refine ⟨h.place_eq_none hwf hy noRoom, h.congr ?_, ?_⟩
    · intro i hi flag
      have hne : i ≠ p.kBucketNum + q := by omega
      rw [rowCount_congr p hcell, put.rowCount p, if_neg (fun h => hne h.1), zero_add]
    · rw [stashCount_congr p fun q' _ flag => rowCount_congr p hcell _ flag,
        put.stashCount_stash p hq]

variable [p.Movable]

/-- **The destination of a split, on counts**: what the regular buckets leave over goes
    to the stash, and what the stash cannot hold is dropped. -/
theorem foldl_pushRight_dropped (l : List (K × V)) {d : Segment K V × List (K × V)}
    (h : Counts p w d.1) (hinv : d.1.Inv p) :
    (l.foldl (pushRight p) d).2.length = d.2.length +
      (d.1.stashCount p + w.leftOver p (l.map fun x => p.homeIndex (p.hashFn x.1)) -
        4 * p.kSlotNum) := by
  have hle := fun s : Segment K V => stashCount_le p s
  induction l generalizing d w with
  | nil =>
    have := hle d.1
    simp only [List.foldl_nil, List.map_nil, Load.leftOver]
    omega
  | cons x l ih =>
    have hrecv := receives_pushRight p hinv x
    rw [List.foldl_cons, List.map_cons, Load.leftOver]
    rcases insertUniq_cases p hinv.slotsWF x.1 x.2 (p.hashFn x.1) false with
      ⟨hnone, hseg, hno, hfull⟩ | ⟨it, hit, hplaced⟩
    · have hpush : pushRight p d x = (d.1, d.2 ++ [x]) := by
        simp [pushRight, hnone, hseg]
      have hstash := (stashFull_iff p d.1).mp hfull
      rw [hpush, ih (d := (d.1, d.2 ++ [x])) h hinv,
        h.place_eq_none hinv.slotsWF (p.homeIndex_lt _) hno]
      simp only [List.length_append, List.length_singleton]
      omega
    · have hpush : pushRight p d x =
          ((d.1.insertUniq p x.1 x.2 (p.hashFn x.1) false).seg, d.2) := by
        simp [pushRight, hit]
      rw [hpush] at hrecv ⊢
      generalize (d.1.insertUniq p x.1 x.2 (p.hashFn x.1) false).seg = s₁ at hrecv hplaced
      rcases hplaced.counts h hinv.slotsWF with
        ⟨w', hplace, hcounts, hstash⟩ | ⟨hplace, hcounts, hstash⟩
      · rw [ih (d := (s₁, d.2)) hcounts hrecv.inv, hplace, ← hstash]
      · rw [ih (d := (s₁, d.2)) hcounts hrecv.inv, hplace]
        dsimp only
        omega

end Counts

/-! ### Splits of grown segments -/

variable [Inhabited K] [Inhabited V]

/-- The home buckets of the entries that leave in the next split, in visiting order. -/
def migrantHomes (s : Segment K V) : List Nat :=
  (s.migrants p (s.localDepth + 1)).map fun x => p.homeIndex (p.hashFn x.1)

/-- The regular buckets of an empty segment leave over no more of the migrating entries
    than the stash buckets can hold. -/
def SplitFits (s : Segment K V) : Prop :=
  Load.leftOver p {} (s.migrantHomes p) ≤ kStashBucketNum * p.kSlotNum

instance (s : Segment K V) : Decidable (s.SplitFits p) :=
  inferInstanceAs (Decidable (_ ≤ _))

/-- The segments reached from an empty one by spreading insertions, deletions and
    splits, whether or not the splits found room. -/
inductive Grown : Segment K V → Prop where
  | new (depth id : Nat) : Grown (new depth id)
  | insertUniq {s : Segment K V} (key : K) (value : V) (h : Grown s) :
      Grown (s.insertUniq p key value (p.hashFn key) true).seg
  | delete {s : Segment K V} (it : Iter) (h : Grown s) (index : it.index < p.kTotalBuckets)
      (busy : s.isBusy it = true) :
      Grown (s.delete p it (p.hashFn ((s.bucket it.index).key it.slot)))
  | splitSource {s : Segment K V} (depth id : Nat) (h : Grown s) :
      Grown (split p s (.new depth id)).source
  | splitDest {s : Segment K V} (depth id : Nat) (h : Grown s) :
      Grown (split p s (.new depth id)).dest

theorem counts_new (depth id : Nat) : Counts p {} (new depth id : Segment K V) := by
  intro i _
  have hrow : ∀ flag, (new depth id : Segment K V).rowCount p i flag = 0 := fun flag =>
    gather_eq_zero fun j _ e he => by
      rw [cell_new] at he
      cases he
  exact ⟨(hrow false).symm, (hrow true).symm⟩

theorem stashCount_new (depth id : Nat) : (new depth id : Segment K V).stashCount p = 0 :=
  Finset.sum_eq_zero fun q _ => gather_eq_zero fun j _ e he => by
    rw [cell_new] at he
    cases he

section Lawful

variable [p.Movable]

theorem Grown.inv {s : Segment K V} (h : Grown p s) : s.Inv p := by
  apply Built.inv p
  induction h with
  | new depth id => exact .new depth id
  | insertUniq key value _ ih => exact .insertUniq key value true ih
  | delete it _ index busy ih => exact .delete it ih index busy
  | splitSource depth id _ ih => exact .splitSource depth id ih
  | splitDest depth id _ ih => exact .splitDest depth id ih

/-- How many entries a split drops. -/
theorem split_dropped_length {s : Segment K V} (hinv : s.Inv p) (depth id : Nat) :
    (split p s (.new depth id)).dropped.length =
      Load.leftOver p {} (s.migrantHomes p) - kStashBucketNum * p.kSlotNum := by
  have hfold := foldl_pushRight_dropped (s.migrants p (s.localDepth + 1))
    (d := ({ (new depth id : Segment K V) with localDepth := s.localDepth + 1 }, []))
    (counts_new p (s.localDepth + 1) id) (inv_new p (s.localDepth + 1) id)
  rw [← (split_spec p hinv (.new depth id)).2.2] at hfold
  have hstash : ({ (new depth id : Segment K V) with localDepth := s.localDepth + 1 } :
      Segment K V).stashCount p = 0 := stashCount_new p (s.localDepth + 1) id
  rw [hstash, zero_add, List.length_nil, zero_add] at hfold
  exact hfold

/-- **A split of a grown segment drops nothing exactly when it fits.**  Then every
    `InsertUniq` of `Split` found a slot, and the two halves hold what the segment
    held. -/
theorem split_complete_iff {s : Segment K V} (h : Grown p s) (depth id : Nat) :
    ((split p s (.new depth id)).dropped = [] ∧
      (split p s (.new depth id)).source.contents p + (split p s (.new depth id)).dest.contents p =
        s.contents p) ↔ s.SplitFits p := by
  have hinv := h.inv p
  have hlength := split_dropped_length p hinv depth id
  have hsource := (split_spec p hinv (.new depth id)).1.contents
  have hdest := (split_receives p hinv (inv_new p depth id) (contents_new p depth id)).2.1
  unfold SplitFits
  constructor
  · rintro ⟨hdropped, -⟩
    rw [hdropped, List.length_nil] at hlength
    omega
  · intro hfits
    have hdropped : (split p s (.new depth id)).dropped = [] := by
      rw [← List.length_eq_zero_iff]
      omega
    rw [hdropped, Multiset.coe_nil, add_zero] at hdest
    rw [← hdest] at hsource
    exact ⟨hdropped, hsource⟩

theorem grown_filled (n : Nat) : Grown narrow64 (filled n) := by
  induction n with
  | zero => exact .new 0 0
  | succ n ih =>
    rw [filled, List.range_succ, List.foldl_append]
    exact .insertUniq (mixedKey n) (UInt64.ofNat n) ih

/-- Half of the entries of a full segment leave it, and all six find a slot. -/
theorem split_complete_iff_filled :
    (filled 6).SplitFits narrow64 ∧ (split narrow64 (filled 6) (.new 1 1)).dropped = [] ∧
    (split narrow64 (filled 6) (.new 1 1)).source.contents narrow64 +
      (split narrow64 (filled 6) (.new 1 1)).dest.contents narrow64 =
        (filled 6).contents narrow64 ∧
    ((split narrow64 (filled 6) (.new 1 1)).dest.contents narrow64).card = 3 := by
  have hfits : (filled 6).SplitFits narrow64 := by decide +kernel
  obtain ⟨hdropped, hcontents⟩ := (split_complete_iff narrow64 (grown_filled 6) 1 1).mpr hfits
  exact ⟨hfits, hdropped, hcontents, by decide +kernel⟩

end Lawful

/-! ### A segment whose split drops an entry -/

/-- The `t`-th key with the given home bucket and the top hash bit set. -/
def crowdedKey (home t : Nat) : UInt64 := UInt64.ofNat (2 ^ 63 + (home + 40 + 56 * t) * 256)

/-- 28 keys of home 55 fill buckets 55 and 0, then 14 keys of home 0 fill bucket 1, one
    key of home 1 goes to bucket 2, and 56 more keys of home 55 fill the stash. -/
def crowdedKeys : List UInt64 :=
  (List.range 28).map (crowdedKey 55) ++ (List.range 14).map (crowdedKey 0) ++
    [crowdedKey 1 0] ++ (List.range' 28 56).map (crowdedKey 55)

def crowded : Segment UInt64 UInt64 :=
  crowdedKeys.foldl (fun s k => (s.insertUniq dash64 k k (dash64.hashFn k) true).seg) (new 0 0)

theorem grown_foldl (l : List UInt64) {s : Segment UInt64 UInt64} (h : Grown dash64 s) :
    Grown dash64 (l.foldl (fun s k => (s.insertUniq dash64 k k (dash64.hashFn k) true).seg) s) := by
  induction l generalizing s with
  | nil => exact h
  | cons k l ih => exact ih (.insertUniq k k h)

set_option maxRecDepth 100000 in
theorem crowded_leftOver : Load.leftOver dash64 {} (crowded.migrantHomes dash64) = 57 := by
  decide +kernel

/-- In the destination bucket 0 is taken by the keys of home 0 before those of home 55
    in bucket 55 are visited, so that 57 entries are left over for 56 stash slots. -/
theorem split_crowded_drops :
    Grown dash64 crowded ∧ (split dash64 crowded (.new 1 1)).dropped.length = 1 ∧
      (split dash64 crowded (.new 1 1)).source.contents dash64 +
        (split dash64 crowded (.new 1 1)).dest.contents dash64 ≠ crowded.contents dash64 := by
  have hgrown : Grown dash64 crowded := grown_foldl crowdedKeys (.new 0 0)
  have hlength := split_dropped_length dash64 (hgrown.inv dash64) 1 1
  rw [crowded_leftOver] at hlength
  have hone : (split dash64 crowded (.new 1 1)).dropped.length = 1 := hlength
  refine ⟨hgrown, hone, fun heq => ?_⟩
  have hsource := (split_spec dash64 (hgrown.inv dash64) (.new 1 1)).1.contents
  have hdest := (split_receives dash64 (hgrown.inv dash64) (inv_new dash64 1 1)
    (contents_new dash64 1 1)).2.1
  rw [← hdest, ← heq, ← add_assoc] at hsource
  have hcard := congrArg Multiset.card hsource
  rw [Multiset.card_add, Multiset.coe_card, hone] at hcard
  omega

end Segment

end StorageEngine.DashTable
