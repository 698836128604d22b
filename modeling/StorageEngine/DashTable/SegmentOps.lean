/-
  StorageEngine/DashTable/SegmentOps.lean
  =======================================
  **The segment operations keep the invariant.**

  Four rules cover every operation: an entry is put into or taken from a regular
  slot it belongs to, or put into or taken from a stash slot together with its
  reference.  `InsertUniq` and `Delete` are instances; `FindIt` reads the invariant.
-/
import StorageEngine.DashTable.SegmentInvariant

namespace StorageEngine.DashTable

open StorageEngine SlotStore

variable {K V : Type}

namespace Segment

variable (p : Policy K V)

/-! ### The invariant only reads the slots and the stash members -/

theorem refs_congr {s s' : Segment K V} (h : ∀ i, (s'.bucket i).stash = (s.bucket i).stash)
    (y : Nat) : s'.refs p y = s.refs p y := by
  unfold refs
  rw [h, h]

theorem overflow_congr {s s' : Segment K V} (h : ∀ i, (s'.bucket i).stash = (s.bucket i).stash)
    (y : Nat) : s'.overflow y = s.overflow y := by
  unfold overflow
  rw [h]

theorem hasStash_congr {s s' : Segment K V} (h : ∀ i, (s'.bucket i).stash = (s.bucket i).stash)
    (y : Nat) : s'.hasStash y = s.hasStash y := by
  unfold hasStash
  rw [h]

theorem stashPairs_congr {s s' : Segment K V} (h : s'.cell = s.cell) (y : Nat) :
    s'.stashPairs p y = s.stashPairs p y := by
  unfold stashPairs
  rw [h]

/-- Where an entry of a regular bucket may be. -/
def Fits (i : Nat) (e : Entry K V) : Prop :=
  e.fp = fingerprint (p.hashFn e.key) ∧
    p.homeIndex (p.hashFn e.key) = if e.probe then p.prevBid i else i

/-- The part of the invariant that is about one home bucket and its stash entries. -/
structure Accounted (s : Segment K V) (y : Nat) : Prop where
  refs_le : s.refs p y ≤ s.stashPairs p y
  overflow_eq : (s.refs p y).card + s.overflow y = (s.stashPairs p y).card
  present_iff : s.hasStash y = true ↔ s.stashPairs p y ≠ 0

variable {p} in
theorem Inv.accounted {s : Segment K V} (hinv : s.Inv p) {y : Nat} (hy : y < p.kBucketNum) :
    s.Accounted p y :=
  ⟨hinv.refs_le y hy, hinv.overflow_eq y hy, hinv.present_iff y hy⟩

variable {p} in
theorem Accounted.congr {s s' : Segment K V} {y : Nat} (h : s.Accounted p y)
    (hrefs : s'.refs p y = s.refs p y) (hpairs : s'.stashPairs p y = s.stashPairs p y)
    (hover : s'.overflow y = s.overflow y) (hhas : s'.hasStash y = s.hasStash y) :
    s'.Accounted p y := by
  refine ⟨?_, ?_, ?_⟩
  · rw [hrefs, hpairs]
    exact h.refs_le
  · rw [hrefs, hpairs, hover]
    exact h.overflow_eq
  · rw [hhas, hpairs]
    exact h.present_iff

variable {p} in
/-- A step that writes one cell: the new entry has to fit where it is put, and every home
    bucket has to be accounted for again. -/
theorem Inv.update {s s' : Segment K V} (hinv : s.Inv p) {x : Nat × Nat}
    {o : Option (Entry K V)} (hcell : s'.cell = Function.update s.cell x o)
    (hslots : s'.SlotsWF p) (hstash : ∀ i, (s'.bucket i).stash.WF)
    (hregular : x.1 < p.kBucketNum → ∀ e, o = some e → Fits p x.1 e)
    (hstashed : p.kBucketNum ≤ x.1 → ∀ e, o = some e →
      e.fp = fingerprint (p.hashFn e.key) ∧ e.probe = false)
    (hacc : ∀ y < p.kBucketNum, s'.Accounted p y) : s'.Inv p where
  slotsWF := hslots
  stashWF := hstash
  home i hi j e he := by
    rw [hcell] at he
    by_cases hx : (i, j) = x
    · subst hx
      rw [Function.update_self] at he
      exact hregular hi e he
    · rw [Function.update_of_ne hx] at he
      exact hinv.home i hi j e he
  stashed q hq j e he := by
    rw [hcell] at he
    by_cases hx : (p.kBucketNum + q, j) = x
    · subst hx
      rw [Function.update_self] at he
      exact hstashed (Nat.le_add_right _ _) e he
    · rw [Function.update_of_ne hx] at he
      exact hinv.stashed q hq j e he
  refs_le y hy := (hacc y hy).refs_le
  overflow_eq y hy := (hacc y hy).overflow_eq
  present_iff y hy := (hacc y hy).present_iff

theorem Inv.congr {s s' : Segment K V} (hinv : s.Inv p) (hcell : s'.cell = s.cell)
    (hwf : s'.SlotsWF p) (hstash : ∀ i, (s'.bucket i).stash = (s.bucket i).stash) : s'.Inv p := by
  have hacc : ∀ y < p.kBucketNum, s'.Accounted p y := fun y hy =>
    (hinv.accounted hy).congr (refs_congr p hstash y) (stashPairs_congr p hcell y)
      (overflow_congr hstash y) (hasStash_congr hstash y)
  refine ⟨hwf, fun i => by rw [hstash]; exact hinv.stashWF i, ?_, ?_,
    fun y hy => (hacc y hy).refs_le, fun y hy => (hacc y hy).overflow_eq,
    fun y hy => (hacc y hy).present_iff⟩
  · rw [hcell]
    exact hinv.home
  · rw [hcell]
    exact hinv.stashed

/-! ### The four rules -/

theorem Inv.putRegular {s s' : Segment K V} (hinv : s.Inv p) {i j : Nat} {e : Entry K V}
    (hput : Put p s s' (i, j) e) (hi : i < p.kBucketNum) (hfits : Fits p i e) : s'.Inv p := by
  apply hinv.update hput.cell hput.slotsWF
  · intro k
    rw [hput.frame.stash]
    exact hinv.stashWF k
  · rintro - e' he'
    obtain rfl := Option.some.inj he'
    exact hfits
  · intro hge
    exact absurd hi (Nat.not_lt.mpr hge)
  · intro y hy
    exact (hinv.accounted hy).congr (refs_congr p hput.frame.stash y)
      (stashPairs_put_regular p hput.cell hput.free hi y) (overflow_congr hput.frame.stash y)
      (hasStash_congr hput.frame.stash y)

theorem Inv.takeRegular {s s' : Segment K V} (hinv : s.Inv p) {i j : Nat} {e : Entry K V}
    (htake : Take p s s' (i, j) e) (hi : i < p.kBucketNum) : s'.Inv p := by
  apply hinv.update htake.cell htake.slotsWF
  · intro k
    rw [htake.frame.stash]
    exact hinv.stashWF k
  · rintro - e' he'
    cases he'
  · rintro - e' he'
    cases he'
  · intro y hy
    exact (hinv.accounted hy).congr (refs_congr p htake.frame.stash y)
      (stashPairs_take_regular p htake.cell hi y) (overflow_congr htake.frame.stash y)
      (hasStash_congr htake.frame.stash y)

/-- The overflow counter of a home bucket is at most the number of its stash
    entries. -/
theorem Inv.overflow_le {s : Segment K V} (hinv : s.Inv p) {y : Nat} (hy : y < p.kBucketNum) :
    s.overflow y ≤ 64 := by
  have := hinv.overflow_eq y hy
  have := card_stashPairs_le p s y
  omega

/-- An entry put into a stash bucket, with `SetStashPtr` for its home. -/
theorem Inv.putStash {s s' : Segment K V} (hinv : s.Inv p) {q j : Nat} {e : Entry K V}
    (hput : Put p s s' (p.kBucketNum + q, j) e) (hq : q < kStashBucketNum)
    (hfp : e.fp = fingerprint (p.hashFn e.key)) (hprobe : e.probe = false) :
    (s'.setStashPtr p (p.homeIndex (p.hashFn e.key)) q e.fp).Inv p := by
  set y := p.homeIndex (p.hashFn e.key) with hy
  have hylt : y < p.kBucketNum := p.homeIndex_lt _
  have hwf' : ∀ i, (s'.bucket i).stash.WF := fun i => by
    rw [hput.frame.stash]; exact hinv.stashWF i
  have hover : s'.overflow y < 255 := by
    rw [overflow_congr hput.frame.stash]
    have := hinv.overflow_le p hylt
    omega
  obtain ⟨hstep, hhas, hcase⟩ := setStashPtr_spec p hwf' hylt hq e.fp hover
  have hpairs : ∀ y', (s'.setStashPtr p y q e.fp).stashPairs p y' =
      (if y = y' then {(e.fp, q)} else 0) + s.stashPairs p y' := fun y' => by
    rw [stashPairs_congr p hstep.cell]
    exact stashPairs_put p hq hput.slot_lt hput.free hput.cell y'
  have hrefs : ∀ y', s'.refs p y' = s.refs p y' := refs_congr p hput.frame.stash
  have hcell : (s'.setStashPtr p y q e.fp).cell =
      Function.update s.cell (p.kBucketNum + q, j) (some e) := hstep.cell.trans hput.cell
  apply hinv.update hcell (hstep.slotsWF hput.slotsWF) hstep.stashWF
  · intro hlt
    dsimp only at hlt
    omega
  · rintro - e' he'
    obtain rfl := Option.some.inj he'
    exact ⟨hfp, hprobe⟩
  intro y' hy'
  have hold := hinv.accounted hy'
  by_cases hyy : y = y'
  · subst hyy
    have hcard := hold.overflow_eq
    have hpairsy : (s'.setStashPtr p y q e.fp).stashPairs p y = (e.fp, q) ::ₘ s.stashPairs p y := by
      rw [hpairs, if_pos rfl, Multiset.singleton_add]
    refine ⟨?_, ?_, by simp [hhas, hpairsy]⟩
    · rw [hpairsy]
      rcases hcase with ⟨hr, -⟩ | ⟨hr, -⟩
      · rw [hr, hrefs]
        exact Multiset.cons_le_cons _ hold.refs_le
      · rw [hr, hrefs]
        exact hold.refs_le.trans (Multiset.le_cons_self _ _)
    · rw [hpairsy, Multiset.card_cons]
      rcases hcase with ⟨hr, ho⟩ | ⟨hr, ho⟩
      · rw [hr, ho, hrefs, overflow_congr hput.frame.stash, Multiset.card_cons]
        omega
      · rw [hr, ho, hrefs, overflow_congr hput.frame.stash]
        omega
  · have hne := Ne.symm hyy
    exact hold.congr ((hstep.refs y' hy' hne).trans (hrefs y'))
      ((hpairs y').trans (by rw [if_neg hyy, zero_add]))
      ((hstep.overflow y' hne).trans (overflow_congr hput.frame.stash y'))
      ((hstep.hasStash y' hne).trans (hasStash_congr hput.frame.stash y'))

/-- The stash members after `UnsetStashPtr` depend only on those before. -/
theorem unsetStashPtr_congr {s s' : Segment K V}
    (h : ∀ i, (s'.bucket i).stash = (s.bucket i).stash) (y : Nat) (fp : UInt8) (q : Nat) (i : Nat) :
    ((s'.unsetStashPtr p y fp q).bucket i).stash = ((s.unsetStashPtr p y fp q).bucket i).stash := by
  have hforget : ∀ i, ((s'.forgetRef p y fp q).bucket i).stash =
      ((s.forgetRef p y fp q).bucket i).stash := by
    intro i
    unfold forgetRef
    rw [h y, h (p.nextBid y)]
    split
    · rw [stash_setStash, stash_setStash, h]
    · split <;> rw [stash_setStash, stash_setStash, h]
  have hleft :
      (s'.forgetRef p y fp q).noStashLeft p y = (s.forgetRef p y fp q).noStashLeft p y := by
    unfold noStashLeft
    rw [hforget, hforget]
  unfold unsetStashPtr
  simp only [hleft, hforget]
  split
  · rw [stash_setStash, stash_setStash, hforget]
  · exact hforget i

/-- A stash entry without a reference of its own is counted as an overflow of its
    home bucket. -/
theorem Inv.overflow_pos {s : Segment K V} (hinv : s.Inv p) {q j : Nat} {e : Entry K V}
    (hq : q < kStashBucketNum) (hbusy : s.cell (p.kBucketNum + q, j) = some e)
    (hno : (e.fp, q) ∉ s.refs p (p.homeIndex (p.hashFn e.key))) :
    0 < s.overflow (p.homeIndex (p.hashFn e.key)) := by
  have hylt := p.homeIndex_lt (p.hashFn e.key)
  have hmem : (e.fp, q) ∈ s.stashPairs p (p.homeIndex (p.hashFn e.key)) :=
    (mem_stashPairs p).mpr ⟨hq, j, slot_lt_of_cell p hinv.slotsWF hbusy, e, hbusy, rfl, rfl⟩
  by_contra hzero
  have hcard := hinv.overflow_eq _ hylt
  have heq := Multiset.eq_of_le_of_card_le (hinv.refs_le _ hylt) (by omega)
  exact hno (heq ▸ hmem)

theorem Inv.overflowAssert {s : Segment K V} (hinv : s.Inv p) {q j : Nat} {e : Entry K V}
    (hq : q < kStashBucketNum) (hbusy : s.cell (p.kBucketNum + q, j) = some e) :
    s.overflowAssert p (p.homeIndex (p.hashFn e.key)) (fingerprint (p.hashFn e.key)) q = true := by
  rw [← (hinv.stashed q hq j e hbusy).1]
  unfold Segment.overflowAssert
  set y := p.homeIndex (p.hashFn e.key)
  rcases StashPtrs.clearStash_cases (hinv.stashWF y) e.fp q false with
    ⟨-, hno⟩ | ⟨st, hown, -⟩
  · rcases StashPtrs.clearStash_cases (hinv.stashWF (p.nextBid y)) e.fp q true with
      ⟨-, hno'⟩ | ⟨st, hnext, -⟩
    · have hpos := hinv.overflow_pos p hq hbusy fun hmem =>
        (Multiset.mem_add.mp hmem).elim hno hno'
      have hover : (s.bucket y).stash.hasStashOverflow = true := by
        rw [StashPtrs.hasStashOverflow, decide_eq_true_eq, BitVec.lt_def]
        exact hpos
      rw [hover, Bool.or_true]
    · simp [hnext]
  · simp [hown]

/-- An entry taken from a stash bucket, with `UnsetStashPtr` for its home — in
    either order. -/
theorem Inv.takeStash {s s' : Segment K V} (hinv : s.Inv p) {q j : Nat} {e : Entry K V}
    (hq : q < kStashBucketNum) (hbusy : s.cell (p.kBucketNum + q, j) = some e)
    (hcell : s'.cell = Function.update s.cell (p.kBucketNum + q, j) none) (hwf : s'.SlotsWF p)
    (hstash : ∀ i, (s'.bucket i).stash =
      ((s.removeStashReference p q (p.hashFn e.key)).bucket i).stash) : s'.Inv p := by
  have hfp := (hinv.stashed q hq j e hbusy).1
  have hj := slot_lt_of_cell p hinv.slotsWF hbusy
  have hpos := hinv.overflow_pos p hq hbusy
  set y := p.homeIndex (p.hashFn e.key) with hy
  have hylt : y < p.kBucketNum := p.homeIndex_lt _
  have hpairs := stashPairs_take p hq hj hbusy hcell
  have hmem : (e.fp, q) ∈ s.stashPairs p y :=
    (mem_stashPairs p).mpr ⟨hq, j, hj, e, hbusy, rfl, rfl⟩
  have hyle := hinv.refs_le y hylt
  have hycard := hinv.overflow_eq y hylt
  have hpairsy : (e.fp, q) ::ₘ s'.stashPairs p y = s.stashPairs p y := by
    have := hpairs y
    rwa [if_pos rfl, Multiset.singleton_add] at this
  have hnotmem : (e.fp, q) ∉ s.refs p y → s.refs p y ≤ s'.stashPairs p y := fun hno => by
    rw [← hpairsy] at hyle
    exact (Multiset.le_cons_of_notMem hno).mp hyle
  obtain ⟨hstep, hhas, hcase⟩ := unsetStashPtr_spec p hinv.stashWF hylt e.fp q hpos
  have hs'' : s.removeStashReference p q (p.hashFn e.key) = s.unsetStashPtr p y e.fp q := by
    rw [removeStashReference, hfp]
  rw [hs''] at hstash
  have hcard' : ((s.unsetStashPtr p y e.fp q).refs p y).card +
      (s.unsetStashPtr p y e.fp q).overflow y = (s'.stashPairs p y).card := by
    rw [← hpairsy, Multiset.card_cons] at hycard
    rcases hcase with ⟨hr, ho⟩ | ⟨-, hr, ho⟩
    · rw [← hr, Multiset.card_cons] at hycard
      omega
    · rw [hr]
      omega
  apply hinv.update hcell hwf
  · intro i
    rw [hstash]
    exact hstep.stashWF i
  · rintro - e' he'
    cases he'
  · rintro - e' he'
    cases he'
  intro y' hy'
  by_cases hyy : y = y'
  · subst hyy
    refine ⟨?_, ?_, ?_⟩
    · rw [refs_congr p hstash]
      rcases hcase with ⟨hr, -⟩ | ⟨hno, hr, -⟩
      · rw [← hr, ← hpairsy] at hyle
        exact (Multiset.cons_le_cons_iff _).mp hyle
      · rw [hr]
        exact hnotmem hno
    · rw [refs_congr p hstash, overflow_congr hstash]
      exact hcard'
    · have hpresent : s.hasStash y = true :=
        (hinv.present_iff y hylt).mpr fun h0 => by simp [h0] at hmem
      rw [hasStash_congr hstash, hhas, and_iff_right hpresent, not_iff_not,
        ← Multiset.card_eq_zero, ← Multiset.card_eq_zero (s := s'.stashPairs p y), ← hcard']
      omega
  · have hne := Ne.symm hyy
    have hsame := hpairs y'
    rw [if_neg hyy, zero_add] at hsame
    exact (hinv.accounted hy').congr ((refs_congr p hstash y').trans (hstep.refs y' hy' hne)) hsame
      ((overflow_congr hstash y').trans (hstep.overflow y' hne))
      ((hasStash_congr hstash y').trans (hstep.hasStash y' hne))

/-! ### Construction and Clear -/

theorem inv_of_empty {s : Segment K V} (hcell : ∀ x, x.1 < p.kTotalBuckets → s.cell x = none)
    (hwf : s.SlotsWF p) (hstash : ∀ i, (s.bucket i).stash.WF)
    (hbusy : ∀ i < p.kBucketNum, (s.bucket i).stash.stashBusy = 0#8 ∧
      (s.bucket i).stash.overflowCount = 0#8) : s.Inv p := by
  have hpairs : ∀ y, s.stashPairs p y = 0 := fun y => gather_eq_zero fun x hx e he => by
    rw [hcell x ((p.mem_cells).mp hx).1] at he
    cases he
  have hrefs : ∀ y < p.kBucketNum, s.refs p y = 0 := fun y hy => by
    rw [refs, StashPtrs.refs_eq_zero (hbusy y hy).1,
      StashPtrs.refs_eq_zero (hbusy _ (p.nextBid_lt y)).1, zero_add]
  refine ⟨hwf, hstash, ?_, ?_, ?_, ?_, ?_⟩
  · intro i hi j e he
    rw [hcell _ (p.lt_total_of_lt hi)] at he
    cases he
  · intro q hq j e he
    rw [hcell _ (p.stash_lt_total hq)] at he
    cases he
  · intro y hy
    rw [hrefs y hy, hpairs]
  · intro y hy
    rw [hrefs y hy, hpairs, overflow, (hbusy y hy).2]
    rfl
  · intro y hy
    rw [hpairs, hasStash, StashPtrs.hasStash_eq, (hbusy y hy).1]
    simp

theorem contents_of_empty {s : Segment K V}
    (hcell : ∀ x, x.1 < p.kTotalBuckets → s.cell x = none) : s.contents p = 0 :=
  gather_eq_zero fun x hx e he => by
    rw [hcell x ((p.mem_cells).mp hx).1] at he
    cases he

section New

variable [Inhabited K] [Inhabited V]

theorem cell_new (depth id : Nat) (x : Nat × Nat) : (new depth id : Segment K V).cell x = none := by
  simp [cell, new, Bucket.cell]

theorem inv_new (depth id : Nat) : (new depth id : Segment K V).Inv p :=
  inv_of_empty p (fun x _ => cell_new depth id x) (fun _ => SlotBitmap.wf_empty _)
    (fun _ => StashPtrs.wf_empty) fun _ _ => ⟨rfl, rfl⟩

theorem contents_new (depth id : Nat) : (new depth id : Segment K V).contents p = 0 :=
  contents_of_empty p fun x _ => cell_new depth id x

end New

theorem cell_clear (s : Segment K V) {x : Nat × Nat} (hx : x.1 < p.kTotalBuckets) :
    (s.clear p).cell x = none := by
  simp [cell, clear, hx, Bucket.cell, SlotBitmap.clear]

theorem inv_clear {s : Segment K V} (hwf : s.SlotsWF p) (hstash : ∀ i, (s.bucket i).stash.WF) :
    (s.clear p).Inv p := by
  refine inv_of_empty p (fun x hx => cell_clear p s hx) ?_ ?_ ?_
  · intro i
    by_cases hi : i < p.kTotalBuckets
    · simpa [clear, hi, SlotBitmap.clear] using SlotBitmap.wf_empty p.kSlotNum
    · simpa [clear, hi] using hwf i
  · intro i
    by_cases hi : i < p.kTotalBuckets
    · simpa [clear, hi] using StashPtrs.wf_clearStashPtrs _
    · simpa [clear, hi] using hstash i
  · intro i hi
    simp [clear, p.lt_total_of_lt hi, StashPtrs.clearStashPtrs]

theorem contents_clear (s : Segment K V) : (s.clear p).contents p = 0 :=
  contents_of_empty p fun _ hx => cell_clear p s hx

/-! ### InsertUniq -/

section Placed

variable {p}
variable {s s' : Segment K V} {key : K} {value : V} {spread : Bool} {it : Iter}
  {moves : List (Nat × Nat)}

/-- An entry displaced from a bucket was there before the displacement. -/
theorem cell_of_displaced {s₁ : Segment K V} {e : Entry K V} {i i' j j' : Nat} (flag : Bool)
    (hflag : e.probe = !flag) (hput : Put p s s₁ (i', j') { e with probe := flag })
    (hbusy : s₁.cell (i, j) = some e) : s.cell (i, j) = some e := by
  rw [hput.cell] at hbusy
  by_cases hx : (i, j) = (i', j')
  · rw [hx, Function.update_self, Option.some_inj] at hbusy
    rw [← hbusy] at hflag
    cases flag <;> cases hflag
  · rwa [Function.update_of_ne hx] at hbusy

theorem Placed.inv (hinv : s.Inv p) (h : Placed p s key value (p.hashFn key) spread s' it moves) :
    s'.Inv p := by
  have hhome := p.homeIndex_lt (p.hashFn key)
  have hnext := p.nextBid_lt (p.homeIndex (p.hashFn key))
  cases h with
  | direct probe home put =>
    cases probe with
    | true => exact hinv.putRegular p put hnext ⟨rfl, by simp [p.prevBid_nextBid hhome]⟩
    | false => exact hinv.putRegular p put hhome ⟨rfl, by simp⟩
  | displacedOwn own home next put take put' =>
    have he := hinv.home _ hnext _ _ (cell_of_displaced true own put take.busy)
    rw [own, if_neg Bool.false_ne_true] at he
    have h₁ := hinv.putRegular p put (p.nextBid_lt _)
      ⟨he.1, by simp [p.prevBid_nextBid hnext, he.2]⟩
    have h₂ := h₁.takeRegular p take hnext
    exact h₂.putRegular p put' hnext ⟨rfl, by simp [p.prevBid_nextBid hhome]⟩
  | displacedProbing probing home next own put take put' =>
    have he := hinv.home _ hhome _ _ (cell_of_displaced false probing put take.busy)
    rw [probing, if_pos rfl] at he
    have h₁ := hinv.putRegular p put (p.prevBid_lt hhome) ⟨he.1, by simp [he.2]⟩
    have h₂ := h₁.takeRegular p take hhome
    exact h₂.putRegular p put' hhome ⟨rfl, by simp⟩
  | stashed hq noRoom put =>
    have := hinv.putStash p put hq rfl rfl
    exact this

/-- `SetStashPtr` leaves the slots alone. -/
theorem cell_setStashPtr (s : Segment K V) (y q : Nat) (fp : UInt8) :
    (s.setStashPtr p y q fp).cell = s.cell := by
  unfold setStashPtr recordRef
  split
  · simp
  · split <;> simp

theorem frame_setStashPtr (s : Segment K V) (y q : Nat) (fp : UInt8) :
    (s.setStashPtr p y q fp).localDepth = s.localDepth ∧
      (s.setStashPtr p y q fp).segmentId = s.segmentId := by
  unfold setStashPtr recordRef
  split
  · exact ⟨rfl, rfl⟩
  · split <;> exact ⟨rfl, rfl⟩

theorem contents_congr {s s' : Segment K V} (h : s'.cell = s.cell) :
    s'.contents p = s.contents p := by
  unfold contents
  rw [h]

theorem Placed.contents {hash : UInt64} (h : Placed p s key value hash spread s' it moves) :
    s'.contents p = (key, value) ::ₘ s.contents p := by
  have hhome := p.lt_total_of_lt (p.homeIndex_lt hash)
  have hnext := fun i => p.lt_total_of_lt (p.nextBid_lt i)
  cases h with
  | direct probe home put =>
    cases probe with
    | true => exact put.contents p (hnext _)
    | false => exact put.contents p hhome
  | displacedOwn own home next put take put' =>
    rw [put'.contents p (hnext _)]
    have := take.contents p (hnext _)
    rw [put.contents p (hnext _)] at this
    rw [(Multiset.cons_inj_right _).mp this]
  | displacedProbing probing home next own put take put' =>
    rw [put'.contents p hhome]
    have := take.contents p hhome
    rw [put.contents p (p.lt_total_of_lt (p.prevBid_lt (p.homeIndex_lt hash)))] at this
    rw [(Multiset.cons_inj_right _).mp this]
  | stashed hq noRoom put =>
    rw [contents_congr (cell_setStashPtr _ _ _ _), put.contents p (p.stash_lt_total hq)]

/-- The returned iterator designates the placed pair. -/
theorem Placed.at {hash : UInt64} (h : Placed p s key value hash spread s' it moves) :
    it.index < p.kTotalBuckets ∧ ∃ e, s'.cell it.at = some e ∧ e.key = key ∧ e.value = value := by
  have hhome := p.lt_total_of_lt (p.homeIndex_lt hash)
  have hnext := fun i => p.lt_total_of_lt (p.nextBid_lt i)
  cases h with
  | direct probe home put =>
    refine ⟨by cases probe <;> simp [hhome, hnext], ⟨key, value, fingerprint hash, probe⟩, ?_,
      rfl, rfl⟩
    simp [Iter.at, put.cell]
  | displacedOwn own home next put take put' =>
    refine ⟨hnext _, ⟨key, value, fingerprint hash, true⟩, ?_, rfl, rfl⟩
    simp [Iter.at, put'.cell]
  | displacedProbing probing home next own put take put' =>
    refine ⟨hhome, ⟨key, value, fingerprint hash, false⟩, ?_, rfl, rfl⟩
    simp [Iter.at, put'.cell]
  | stashed hq noRoom put =>
    refine ⟨p.stash_lt_total hq, ⟨key, value, fingerprint hash, false⟩, ?_, rfl, rfl⟩
    simp [Iter.at, cell_setStashPtr, put.cell]

theorem Placed.localDepth {hash : UInt64} (h : Placed p s key value hash spread s' it moves) :
    s'.localDepth = s.localDepth ∧ s'.segmentId = s.segmentId := by
  cases h with
  | direct probe home put => exact ⟨put.frame.localDepth, put.frame.segmentId⟩
  | displacedOwn own home next put take put' =>
    have h := put.frame.trans (take.frame.trans put'.frame)
    exact ⟨h.localDepth, h.segmentId⟩
  | displacedProbing probing home next own put take put' =>
    have h := put.frame.trans (take.frame.trans put'.frame)
    exact ⟨h.localDepth, h.segmentId⟩
  | stashed hq noRoom put =>
    exact ⟨(frame_setStashPtr _ _ _ _).1.trans put.frame.localDepth,
      (frame_setStashPtr _ _ _ _).2.trans put.frame.segmentId⟩

end Placed

/-! ### Delete -/

theorem cell_unsetStashPtr (s : Segment K V) (y : Nat) (fp : UInt8) (q : Nat) :
    (s.unsetStashPtr p y fp q).cell = s.cell := by
  have hforget : (s.forgetRef p y fp q).cell = s.cell := by
    unfold forgetRef
    split
    · simp
    · split <;> simp
  unfold unsetStashPtr
  dsimp only
  split
  · rw [cell_setStash, hforget]
  · exact hforget

theorem SlotsWF.unsetStashPtr {s : Segment K V} (h : s.SlotsWF p) (y : Nat) (fp : UInt8)
    (q : Nat) : (s.unsetStashPtr p y fp q).SlotsWF p := by
  have hforget : (s.forgetRef p y fp q).SlotsWF p := by
    unfold forgetRef
    split
    · exact h.setStash p _ _
    · split <;> exact h.setStash p _ _
  unfold Segment.unsetStashPtr
  dsimp only
  split
  · exact hforget.setStash p _ _
  · exact hforget

theorem frame_unsetStashPtr (s : Segment K V) (y : Nat) (fp : UInt8) (q : Nat) :
    (s.unsetStashPtr p y fp q).localDepth = s.localDepth ∧
      (s.unsetStashPtr p y fp q).segmentId = s.segmentId := by
  have hforget : (s.forgetRef p y fp q).localDepth = s.localDepth ∧
      (s.forgetRef p y fp q).segmentId = s.segmentId := by
    unfold forgetRef
    split
    · exact ⟨rfl, rfl⟩
    · split <;> exact ⟨rfl, rfl⟩
  unfold unsetStashPtr
  dsimp only
  split <;> exact hforget

/-- The stash members after `Delete`. -/
def stashAfterDelete (s : Segment K V) (it : Iter) (hash : UInt64) (i : Nat) : StashPtrs :=
  if p.kBucketNum ≤ it.index then
    ((s.removeStashReference p (it.index - p.kBucketNum) hash).bucket i).stash
  else (s.bucket i).stash

/-- What `Delete` of a busy slot does, whatever the hash it is given. -/
theorem delete_effect {s : Segment K V} (hwf : s.SlotsWF p) {it : Iter} {e : Entry K V}
    (hbusy : s.cell it.at = some e) (hash : UInt64) :
    let s' := s.delete p it hash
    s'.SlotsWF p ∧ s'.cell = Function.update s.cell it.at none ∧
      (∀ i, (s'.bucket i).stash = s.stashAfterDelete p it hash i) ∧
      s'.localDepth = s.localDepth ∧ s'.segmentId = s.segmentId := by
  unfold stashAfterDelete delete
  by_cases hstash : p.kBucketNum ≤ it.index
  · simp only [if_pos hstash, removeStashReference]
    have hframe := frame_unsetStashPtr p s (p.homeIndex hash) (fingerprint hash)
      (it.index - p.kBucketNum)
    have hcell := cell_unsetStashPtr p s (p.homeIndex hash) (fingerprint hash)
      (it.index - p.kBucketNum)
    have htake := take_delete p (hwf.unsetStashPtr p (p.homeIndex hash) (fingerprint hash)
      (it.index - p.kBucketNum)) (i := it.index) (j := it.slot) (e :=
        e) (by rw [hcell]; exact hbusy)
    rw [← hcell]
    exact ⟨htake.slotsWF, htake.cell, htake.frame.stash, htake.frame.localDepth.trans hframe.1,
      htake.frame.segmentId.trans hframe.2⟩
  · simp only [if_neg hstash]
    have htake := take_delete p hwf (i := it.index) (j := it.slot) hbusy
    exact ⟨htake.slotsWF, htake.cell, htake.frame.stash, htake.frame.localDepth,
      htake.frame.segmentId⟩

/-- An emptied slot with its reference dropped keeps the invariant. -/
theorem Inv.deleted {s s' : Segment K V} (hinv : s.Inv p) {it : Iter} {e : Entry K V}
    (hindex : it.index < p.kTotalBuckets) (hbusy : s.cell it.at = some e)
    (hcell : s'.cell = Function.update s.cell it.at none) (hwf : s'.SlotsWF p)
    (hstash : ∀ i, (s'.bucket i).stash = s.stashAfterDelete p it (p.hashFn e.key) i) :
    s'.Inv p ∧ (e.key, e.value) ::ₘ s'.contents p = s.contents p := by
  have hslot := slot_lt_of_cell p hinv.slotsWF hbusy
  have hcontents : (e.key, e.value) ::ₘ s'.contents p = s.contents p := by
    unfold contents
    rw [hcell]
    exact gather_take (g := fun _ (e : Entry K V) => ({(e.key, e.value)} : Multiset (K × V)))
      ((p.mem_cells).mpr ⟨hindex, hslot⟩) hbusy
  refine ⟨?_, hcontents⟩
  unfold stashAfterDelete at hstash
  by_cases hidx : p.kBucketNum ≤ it.index
  · simp only [if_pos hidx] at hstash
    have hsum : it.at = (p.kBucketNum + (it.index - p.kBucketNum), it.slot) := by
      rw [Iter.at, Nat.add_sub_cancel' hidx]
    have hq : it.index - p.kBucketNum < kStashBucketNum := by
      unfold Policy.kTotalBuckets at hindex
      omega
    rw [hsum] at hbusy hcell
    exact hinv.takeStash p hq hbusy hcell hwf hstash
  · simp only [if_neg hidx] at hstash
    have hframe : SameFrame s { s' with localDepth := s.localDepth, segmentId := s.segmentId } :=
      ⟨hstash, rfl, rfl⟩
    have htake :
        Take p s { s' with localDepth := s.localDepth, segmentId := s.segmentId } it.at e :=
      ⟨hslot, hbusy, hcell, hwf, hframe⟩
    exact (hinv.takeRegular p htake (by omega)).congr p rfl hwf fun _ => rfl

/-- `Delete` of a busy slot, with the hash of its key. -/
theorem delete_spec {s : Segment K V} (hinv : s.Inv p) {it : Iter} {e : Entry K V}
    (hindex : it.index < p.kTotalBuckets) (hbusy : s.cell it.at = some e) :
    let s' := s.delete p it (p.hashFn e.key)
    s'.Inv p ∧ (e.key, e.value) ::ₘ s'.contents p = s.contents p ∧
      s'.localDepth = s.localDepth ∧ s'.segmentId = s.segmentId := by
  obtain ⟨hwf, hcell, hstash, hdepth, hid⟩ :=
    delete_effect p hinv.slotsWF hbusy (p.hashFn e.key)
  obtain ⟨hinv', hcontents⟩ := hinv.deleted p hindex hbusy hcell hwf hstash
  exact ⟨hinv', hcontents, hdepth, hid⟩

/-! ### FindIt -/

/-- The stash references name every stash entry of a home bucket without overflow. -/
theorem Inv.refs_eq {s : Segment K V} (hinv : s.Inv p) {y : Nat} (hy : y < p.kBucketNum)
    (hover : (s.bucket y).stash.hasStashOverflow = false) :
    s.refs p y = s.stashPairs p y := by
  have hzero : s.overflow y = 0 := by
    have : ¬ 0#8 < (s.bucket y).stash.overflowCount := by
      simpa [StashPtrs.hasStashOverflow] using hover
    rw [BitVec.lt_def] at this
    simp only [BitVec.toNat_ofNat] at this
    unfold overflow
    omega
  have hcard := hinv.overflow_eq y hy
  exact Multiset.eq_of_le_of_card_le (hinv.refs_le y hy) (by omega)

/-- Every home bucket sees its stash entries: in the references of `y` and the next
    bucket, or by overflow. -/
theorem findIt_stash {s : Segment K V} (hinv : s.Inv p) {hash : UInt64} {pred : K → Bool}
    {q j : Nat} {e : Entry K V} (hq : q < kStashBucketNum)
    (hbusy : s.cell (p.kBucketNum + q, j) = some e) (hhash : p.hashFn e.key = hash)
    (hnone : s.findIt p hash pred = none) : pred e.key = false := by
  set y := p.homeIndex hash with hy
  have hylt : y < p.kBucketNum := p.homeIndex_lt _
  obtain ⟨hfp, hprobe⟩ := hinv.stashed q hq j e hbusy
  rw [hhash] at hfp
  have hj := slot_lt_of_cell p hinv.slotsWF hbusy
  have hmem : (e.fp, q) ∈ s.stashPairs p y :=
    (mem_stashPairs p).mpr ⟨hq, j, hj, e, hbusy, by rw [hhash], rfl⟩
  have hhas : (s.bucket y).stash.hasStash = true :=
    (hinv.present_iff y hylt).mpr fun h0 => by simp [h0] at hmem
  -- a reference the search skipped holds no match
  have hiter : ∀ (st : StashPtrs) (flag : Bool), st.iterateStash (fingerprint hash) flag
      (fun _ pos => (s.bucket (p.kBucketNum + pos)).findByFp p (fingerprint hash) false pred) =
        none → (e.fp, q) ∈ st.refs flag → pred e.key = false := by
    intro st flag hit href
    obtain ⟨i, hi, hr⟩ := StashPtrs.mem_refs.mp href
    rw [StashPtrs.iterateStash, List.findSome?_eq_none_iff] at hit
    have hno := hit i (List.mem_range.mpr hi)
    have hpos : st.posAt i = q := by
      unfold StashPtrs.refCell at hr
      split at hr
      · simpa using (congrArg (fun r => r.2.1) (Option.some_inj.mp hr))
      · cases hr
    have hmatch : st.matchesAt (fingerprint hash) flag i = true :=
      (StashPtrs.matchesAt_iff hi).mpr (by rw [hr, hpos, hfp])
    rw [if_pos hmatch, hpos, Option.map_eq_none_iff] at hno
    exact Bucket.findByFp_none p (hinv.slotsWF _) hno hbusy hfp hprobe
  unfold findIt at hnone
  simp only [← hy, hhas, Bool.not_true, Bool.false_eq_true, if_false] at hnone
  split at hnone
  · cases hnone
  split at hnone
  · cases hnone
  split at hnone
  · rw [List.findSome?_eq_none_iff] at hnone
    have hno := hnone q (List.mem_range.mpr hq)
    rw [Option.map_eq_none_iff] at hno
    exact Bucket.findByFp_none p (hinv.slotsWF _) hno hbusy hfp hprobe
  · rename_i hover
    rw [← hinv.refs_eq p hylt (by simpa using hover), refs, Multiset.mem_add] at hmem
    split at hnone
    · cases hnone
    · rename_i hown
      split at hnone
      · cases hnone
      · rename_i hnext
        rcases hmem with hmem | hmem
        · exact hiter _ _ hown hmem
        · exact hiter _ _ hnext hmem

/-- `FindIt` answers "not found" only when no entry with the hash satisfies the
    predicate. -/
theorem findIt_none {s : Segment K V} (hinv : s.Inv p) {hash : UInt64} {pred : K → Bool}
    (hnone : s.findIt p hash pred = none) {x : Nat × Nat} {e : Entry K V}
    (hx : x.1 < p.kTotalBuckets) (hbusy : s.cell x = some e) (hhash : p.hashFn e.key = hash) :
    pred e.key = false := by
  obtain ⟨i, j⟩ := x
  by_cases hi : i < p.kBucketNum
  · obtain ⟨hfp, hhome⟩ := hinv.home i hi j e hbusy
    rw [hhash] at hfp hhome
    unfold findIt at hnone
    dsimp only at hnone
    cases hflag : e.probe with
    | false =>
      rw [hflag, if_neg Bool.false_ne_true] at hhome
      split at hnone
      · cases hnone
      · rename_i hown
        exact Bucket.findByFp_none p (hinv.slotsWF _) hown (j := j) (by rw [hhome]; exact hbusy)
          hfp hflag
    | true =>
      rw [hflag, if_pos rfl] at hhome
      split at hnone
      · cases hnone
      split at hnone
      · cases hnone
      · rename_i hnext
        exact Bucket.findByFp_none p (hinv.slotsWF _) hnext (j := j)
          (by rw [hhome, p.nextBid_prevBid hi]; exact hbusy) hfp hflag
  · have hidx : i = p.kBucketNum + (i - p.kBucketNum) := by omega
    have hq : i - p.kBucketNum < kStashBucketNum := by
      unfold Policy.kTotalBuckets at hx
      dsimp only at hx
      omega
    rw [hidx] at hbusy
    exact findIt_stash p hinv hq hbusy hhash hnone

theorem iterateStash_some {s : Segment K V} (hwf : s.SlotsWF p) {st : StashPtrs} {fp : UInt8}
    {flag : Bool} {pred : K → Bool} {pos sid : Nat}
    (h : st.iterateStash fp flag (fun _ pos =>
      (s.bucket (p.kBucketNum + pos)).findByFp p fp false pred) = some (pos, sid)) :
    pos < kStashBucketNum ∧ ∃ e, s.cell (p.kBucketNum + pos, sid) = some e ∧ pred e.key = true := by
  obtain ⟨i, -, hfound⟩ := List.exists_of_findSome?_eq_some h
  split at hfound
  · obtain ⟨sid', hsid, heq⟩ := Option.map_eq_some_iff.mp hfound
    obtain ⟨rfl, rfl⟩ := Prod.mk.inj heq
    obtain ⟨e, he, -, -, hpred⟩ := Bucket.findByFp_some p (hwf _) hsid
    exact ⟨st.posAt_lt i, e, he, hpred⟩
  · cases hfound

/-- A found iterator designates a busy slot that satisfies the predicate. -/
theorem findIt_some {s : Segment K V} (hwf : s.SlotsWF p) {hash : UInt64} {pred : K → Bool}
    {it : Iter} (h : s.findIt p hash pred = some it) :
    it.index < p.kTotalBuckets ∧ ∃ e, s.cell it.at = some e ∧ pred e.key = true := by
  unfold findIt at h
  dsimp only at h
  split at h
  · rename_i hown
    cases h
    obtain ⟨e, he, -, -, hpred⟩ := Bucket.findByFp_some p (hwf _) hown
    exact ⟨p.lt_total_of_lt (p.homeIndex_lt hash), e, he, hpred⟩
  split at h
  · rename_i hnext
    cases h
    obtain ⟨e, he, -, -, hpred⟩ := Bucket.findByFp_some p (hwf _) hnext
    exact ⟨p.lt_total_of_lt (p.nextBid_lt _), e, he, hpred⟩
  split at h
  · cases h
  split at h
  · obtain ⟨i, hi, hfound⟩ := List.exists_of_findSome?_eq_some h
    obtain ⟨sid, hsid, rfl⟩ := Option.map_eq_some_iff.mp hfound
    obtain ⟨e, he, -, -, hpred⟩ := Bucket.findByFp_some p (hwf _) hsid
    exact ⟨p.stash_lt_total (List.mem_range.mp hi), e, he, hpred⟩
  · split at h
    · rename_i hown
      cases h
      obtain ⟨hpos, e, he, hpred⟩ := iterateStash_some p hwf hown
      exact ⟨p.stash_lt_total hpos, e, he, hpred⟩
    · split at h
      · rename_i hnext
        cases h
        obtain ⟨hpos, e, he, hpred⟩ := iterateStash_some p hwf hnext
        exact ⟨p.stash_lt_total hpos, e, he, hpred⟩
      · cases h

end Segment

end StorageEngine.DashTable
