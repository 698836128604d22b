/-
  StorageEngine/DashTable/SegmentMap.lean
  =======================================
  **Segments as containers**: what a caller of `FindIt` and `InsertUniq` can rely on.

  `FindIt` looks at two buckets through fingerprints and probe bits and at the stash
  through references; a plain scan looks at every slot.  On every segment the
  operations build the two agree, for any predicate that only holds of keys with the
  given hash.  `InsertUniq` tries up to eight places, two of them after moving another
  entry away; it adds its pair and nothing else, or leaves the segment as it was.
-/
import StorageEngine.DashTable.SegmentRuns

namespace StorageEngine.DashTable

open StorageEngine SlotStore

variable {K V : Type} [Inhabited K] [Inhabited V]

namespace Segment

variable (p : Policy K V)

/-! ### Lookup -/

/-- All `kTotalBuckets * kSlotNum` slots, bucket by bucket. -/
def positions : List Iter :=
  (List.range p.kTotalBuckets).flatMap fun i => (List.range p.kSlotNum).map fun j => ⟨i, j⟩

/-- The plain scan: every busy slot whose key satisfies the predicate. -/
def scan (s : Segment K V) (pred : K → Bool) : List Iter :=
  (positions p).filter fun it => s.isBusy it && pred ((s.bucket it.index).key it.slot)

omit [Inhabited K] [Inhabited V] in
theorem mem_positions {it : Iter} :
    it ∈ positions p ↔ it.index < p.kTotalBuckets ∧ it.slot < p.kSlotNum := by
  simp only [positions, List.mem_flatMap, List.mem_range, List.mem_map]
  constructor
  · rintro ⟨i, hi, j, hj, rfl⟩
    exact ⟨hi, hj⟩
  · rintro ⟨hi, hj⟩
    exact ⟨it.index, hi, it.slot, hj, rfl⟩

omit [Inhabited K] [Inhabited V] in
theorem mem_scan {s : Segment K V} (hwf : s.SlotsWF p) {pred : K → Bool} {it : Iter} :
    it ∈ s.scan p pred ↔
      it.index < p.kTotalBuckets ∧ ∃ e, s.cell it.at = some e ∧ pred e.key = true := by
  rw [scan, List.mem_filter, mem_positions, Bool.and_eq_true]
  constructor
  · rintro ⟨⟨hi, -⟩, hbusy, hpred⟩
    exact ⟨hi, _, cell_of_isBusy hbusy, hpred⟩
  · rintro ⟨hi, e, he, hpred⟩
    have hkey : (s.bucket it.index).key it.slot = e.key := (Bucket.key_of_cell he).1
    refine ⟨⟨hi, slot_lt_of_cell p hwf he⟩, Bucket.busy_of_cell he, ?_⟩
    rw [hkey]
    exact hpred

/-- **`FindIt` agrees with a plain scan.**  A predicate that only holds of keys with
    the hash is found exactly when some slot of the segment matches it, and the
    iterator is one of the matches. -/
theorem findIt_agrees_scan [p.Movable] {s : Segment K V} (h : Built p s) (hash : UInt64)
    (pred : K → Bool) (hpred : ∀ k, pred k = true → p.hashFn k = hash) :
    (s.scan p pred ≠ [] → ∃ it ∈ s.scan p pred, s.findIt p hash pred = some it) ∧
    (s.scan p pred = [] → s.findIt p hash pred = none) := by
  have hinv := h.inv p
  cases hfind : s.findIt p hash pred with
  | some it =>
    have hmem : it ∈ s.scan p pred :=
      (mem_scan p hinv.slotsWF).mpr (findIt_some p hinv.slotsWF hfind)
    refine ⟨fun _ => ⟨it, hmem, rfl⟩, fun hnil => ?_⟩
    rw [hnil] at hmem
    cases hmem
  | none =>
    refine ⟨fun hne => ?_, fun _ => rfl⟩
    obtain ⟨it, hmem⟩ := List.exists_mem_of_ne_nil _ hne
    obtain ⟨hi, e, he, hkey⟩ := (mem_scan p hinv.slotsWF).mp hmem
    -- a match the search missed has the hash it was searched with
    have hmissed := findIt_none p hinv hfind hi he (hpred e.key hkey)
    rw [hkey] at hmissed
    cases hmissed

/-- The last key of a full segment is found in the stash; a key that was not inserted is not. -/
theorem findIt_agrees_scan_filled :
    (∃ it ∈ (filled 6).scan narrow64 (fun k => k == mixedKey 5), narrow64.kBucketNum ≤ it.index ∧
      (filled 6).findIt narrow64 (mixedKey 5) (fun k => k == mixedKey 5) = some it) ∧
    (filled 6).findIt narrow64 (mixedKey 6) (fun k => k == mixedKey 6) = none := by
  have hbuilt := (reachable_filled 6).built
  have hagree (key : UInt64) := findIt_agrees_scan narrow64 hbuilt key (fun k => k == key)
    (fun _ hk => beq_iff_eq.mp hk)
  have hstashed : (filled 6).scan narrow64 (fun k => k == mixedKey 5) = [⟨5, 0⟩] := by
    decide +kernel
  have habsent : (filled 6).scan narrow64 (fun k => k == mixedKey 6) = [] := by decide +kernel
  obtain ⟨it, hmem, hfind⟩ := (hagree (mixedKey 5)).1 (by simp [hstashed])
  refine ⟨⟨it, hmem, ?_, hfind⟩, (hagree (mixedKey 6)).2 habsent⟩
  rw [hstashed, List.mem_singleton] at hmem
  rw [hmem]
  decide

/-! ### Insertion -/

/-- The buckets an entry may sit in: its home, the next one, or the stash. -/
def Hosts (hash : UInt64) (i : Nat) : Prop :=
  i = p.homeIndex hash ∨ i = p.nextBid (p.homeIndex hash) ∨
    ∃ q < kStashBucketNum, i = p.kBucketNum + q

/-- Adding the entry `e` at `x`: into a free slot, or into the slot of a busy entry
    `d` that moved to a free slot `y` first.  No other slot changes. -/
inductive Adds (s s' : Segment K V) (x : Nat × Nat) (e : Entry K V) : List (Nat × Nat) → Prop where
  | free (free : s.cell x = none) (cell : s'.cell = Function.update s.cell x (some e)) :
      Adds s s' x e []
  | displacing {d : Entry K V} {y : Nat × Nat} (busy : s.cell x = some d) (free : s.cell y = none)
      (cell : s'.cell = Function.update
        (Function.update s.cell y (some { d with probe := !d.probe })) x (some e)) :
      Adds s s' x e [(x.1, y.1)]

section Placed

variable {p}
variable {s s' : Segment K V} {key : K} {value : V} {hash : UInt64} {spread : Bool} {it : Iter}
  {moves : List (Nat × Nat)}

omit [Inhabited K] [Inhabited V]

theorem Placed.hosts (h : Placed p s key value hash spread s' it moves) :
    Hosts p hash it.index := by
  cases h with
  | direct probe home put =>
    cases probe with
    | true => exact Or.inr (Or.inl rfl)
    | false => exact Or.inl rfl
  | displacedOwn own home next put take put' => exact Or.inr (Or.inl rfl)
  | displacedProbing probing home next own put take put' => exact Or.inl rfl
  | stashed hq noRoom put => exact Or.inr (Or.inr ⟨_, hq, rfl⟩)

/-- A displacement and the insertion into the vacated slot, taken together. -/
theorem adds_of_displaced {s₁ s₂ : Segment K V} {d e : Entry K V} {x y : Nat × Nat} (flag : Bool)
    (hflag : d.probe = !flag) (hput : Put p s s₁ y { d with probe := flag })
    (htake : Take p s₁ s₂ x d) (hput' : Put p s₂ s' x e) : Adds s s' x e [(x.1, y.1)] := by
  have hbusy : s.cell x = some d := cell_of_displaced flag hflag hput htake.busy
  refine .displacing hbusy hput.free ?_
  rw [hput'.cell, htake.cell, Function.update_idem, hput.cell, hflag, Bool.not_not]

theorem Placed.adds (h : Placed p s key value hash spread s' it moves) :
    ∃ probe, Adds s s' it.at ⟨key, value, fingerprint hash, probe⟩ moves := by
  cases h with
  | direct probe home put => exact ⟨probe, .free put.free put.cell⟩
  | displacedOwn own home next put take put' =>
    exact ⟨true, adds_of_displaced true own put take put'⟩
  | displacedProbing probing home next own put take put' =>
    exact ⟨false, adds_of_displaced false probing put take put'⟩
  | stashed hq noRoom put =>
    refine ⟨false, .free put.free ?_⟩
    rw [cell_setStashPtr, put.cell]
    rfl

end Placed

/-- **`InsertUniq` adds exactly one entry or changes nothing.**  A not-found iterator
    leaves every bucket as it was.  A found one designates the new pair, in its home
    bucket, the next one or the stash; the pairs are those before and the new one; and
    the only other slots touched are those of a reported displacement, which took a
    busy entry to a slot that was free. -/
theorem insertUniq_adds [p.Movable] {s : Segment K V} (h : Built p s) (key : K) (value : V)
    (hash : UInt64) (spread : Bool) :
    let r := s.insertUniq p key value hash spread
    (r.it = none → r.seg = s) ∧
    ∀ it, r.it = some it →
      r.seg.contents p = (key, value) ::ₘ s.contents p ∧
      r.seg.isBusy it = true ∧ (r.seg.bucket it.index).key it.slot = key ∧
      (r.seg.bucket it.index).value it.slot = value ∧
      Hosts p hash it.index ∧
      ∃ probe, Adds s r.seg it.at ⟨key, value, fingerprint hash, probe⟩ r.moves := by
  intro r
  rcases insertUniq_cases p (h.inv p).slotsWF key value hash spread with
    ⟨hnone, hseg, -⟩ | ⟨it, hit, hplaced⟩
  · refine ⟨fun _ => hseg, fun it hit => ?_⟩
    rw [hnone] at hit
    cases hit
  · refine ⟨fun hnone => ?_, fun it' hit' => ?_⟩
    · rw [hit] at hnone
      cases hnone
    · rw [hit, Option.some_inj] at hit'
      subst hit'
      obtain ⟨-, e, he, hkey, hvalue⟩ := hplaced.at
      obtain ⟨hk, hv, -⟩ := Bucket.key_of_cell he
      exact ⟨hplaced.contents, Bucket.busy_of_cell he, hk.trans hkey, hv.trans hvalue,
        hplaced.hosts, hplaced.adds⟩

/-- Keys of homes 0 and 1 in turn. -/
def pairedKey (n : Nat) : UInt64 := UInt64.ofNat ((n % 2 + 56 * n) * 256)

/-- Without spreading, 28 of them fill the first two buckets. -/
def paired (n : Nat) : Segment UInt64 UInt64 :=
  (List.range n).foldl (fun s k =>
    (s.insertUniq dash64 (pairedKey k) (UInt64.ofNat k) (pairedKey k) false).seg) (new 0 0)

theorem built_paired (n : Nat) : Built dash64 (paired n) := by
  induction n with
  | zero => exact .new 0 0
  | succ n ih =>
    rw [paired, List.range_succ, List.foldl_append]
    exact .insertUniq (pairedKey n) (UInt64.ofNat n) false ih

/-- A further key of home 0 takes the slot of an entry that moves from bucket 1 to bucket 2. -/
theorem insertUniq_adds_paired :
    let r := (paired 28).insertUniq dash64 (pairedKey 28) 28 (pairedKey 28) true
    ∃ it probe, r.it = some it ∧ r.moves = [(1, 2)] ∧
      r.seg.contents dash64 = (pairedKey 28, 28) ::ₘ (paired 28).contents dash64 ∧
      Adds (paired 28) r.seg it.at ⟨pairedKey 28, 28, fingerprint (pairedKey 28), probe⟩
        [(1, 2)] := by
  intro r
  have hreads : (r.it, r.moves) = (some ⟨1, 0⟩, [(1, 2)]) := by decide +kernel
  obtain ⟨hit, hmoves⟩ := Prod.mk.inj hreads
  obtain ⟨hcontents, -, -, -, -, probe, hadds⟩ := (insertUniq_adds dash64 (built_paired 28)
    (pairedKey 28) 28 (pairedKey 28) true).2 _ hit
  exact ⟨_, probe, hit, hmoves, hcontents, hmoves ▸ hadds⟩

end Segment

end StorageEngine.DashTable
