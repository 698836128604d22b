/-
  StorageEngine/Sharding/ExpireIfNeeded.lean
  ==========================================
  **Expiry on access** (`sharding/db_slice.cpp`, both functions `DbSlice::ExpireIfNeeded`).

  An iterator is handed to `ExpireIfNeeded` and a new one comes back: a done one if the entry
  was due and has been deleted.  The slots of the table hold the string of a key, and beside it
  the expiry that the key carries and the value; moves transfer what a slot holds.
-/
import StorageEngine.Sharding.DbSlice
import StorageEngine.Sharding.IteratorT

namespace StorageEngine.Sharding

open StorageEngine.DashTable StorageEngine.Redis

instance : Inhabited Entry := ⟨⟨none, .empty⟩⟩

/-- `PrimeTablePolicy`, with the `std::hash` of a string. -/
def primeTablePolicy (hashStr : Bytes → UInt64) : Policy Bytes Entry where
  kSlotNum := 14
  kBucketNum := 56
  hashFn := hashStr
  equal s1 s2 := s1 == s2
  destroyKey _ := []
  destroyValue _ := ⟨none, .empty⟩
  assignKey _ s := s
  movedKey s := s
  assignValue _ s := s
  movedValue s := s
  kSlotNum_pos := dash64.kSlotNum_pos
  kSlotNum_le := dash64.kSlotNum_le
  kBucketNum_pos := dash64.kBucketNum_pos
  kTotalBuckets_lt := dash64.kTotalBuckets_lt

instance (hashStr : Bytes → UInt64) : (primeTablePolicy hashStr).Lawful where
  assignKey_eq _ _ := rfl
  assignValue_eq _ _ := rfl
  equal_iff _ _ := beq_iff_eq

/-- `IteratorT::FromPrime`: the key of the new iterator is a string that was never filled. -/
def IteratorT.fromPrime : Option TableIter → IteratorT Bytes
  | none => ⟨none, []⟩
  | some it => ⟨some it, []⟩

section ExpireIfNeeded

variable (hashStr : Bytes → UInt64) (now : UInt64) (t : Table Bytes Entry)

/-- `it->second`, with the expiry that `it->first` carries. -/
def entryAt (it : TableIter) : Option Entry :=
  (segmentAt t it.segId).map fun s => (s.bucket it.bucketId).value it.slotId

/-- `PerformDeletionAtomic`.  An iterator that is done must not be erased. -/
def performDeletionAtomic (delIt : IteratorT Bytes) : Option (Table Bytes Entry) := do
  let inner ← delIt.getInnerIt (primeTablePolicy hashStr) t
  inner.map fun it => t.eraseIt (primeTablePolicy hashStr) it

/-- `ExpireIfNeeded` of an iterator of the table. -/
def expireIfNeededPrime (it : TableIter) : Option (Table Bytes Entry × Option TableIter) := do
  let e ← entryAt t it
  match e.expire with
  | none => some (t, some it)
  | some expireTime =>
    if now.toInt64 < expireTime.toInt64 then some (t, some it)
    else
      let key ← keyAt t it
      let t ← performDeletionAtomic hashStr t ⟨some it, key⟩
      some (t, none)

/-- `ExpireIfNeeded` of an iterator of the slice.  One that is done must not be read. -/
def expireIfNeeded (it : IteratorT Bytes) : Option (Table Bytes Entry × IteratorT Bytes) := do
  let inner ← it.getInnerIt (primeTablePolicy hashStr) t
  let pos ← inner
  (expireIfNeededPrime hashStr now t pos).map fun (t, it) => (t, IteratorT.fromPrime it)

end ExpireIfNeeded

/-! ### What it is for -/

/-- When the iterator is used it leads to the entry of the key. -/
def StandsOn (hashStr : Bytes → UInt64) (t : Table Bytes Entry) (it : IteratorT Bytes) (key : Bytes)
    (e : Entry) : Prop :=
  ∃ pos, it.getInnerIt (primeTablePolicy hashStr) t = some (some pos) ∧
    t.Designates (primeTablePolicy hashStr) pos key e

/-- The entry has no expiry, or one that is still ahead. -/
def Entry.Live (now : UInt64) (e : Entry) : Prop := ∀ expire, e.expire = some expire → now < expire

/-- A live entry is left where it is, and the new iterator leads to it; one that is due is
    removed, and the new iterator is done. -/
structure KeepsLive (hashStr : Bytes → UInt64) (now : UInt64) (t : Table Bytes Entry)
    (m : PrimeTable) (it : IteratorT Bytes) (e : Entry) : Prop where
  live : e.Live now → ∃ it', expireIfNeeded hashStr now t it = some (t, it') ∧
    StandsOn hashStr t it' it.key e ∧ it'.key = it.key
  due : ¬ e.Live now → ∃ t' it', expireIfNeeded hashStr now t it = some (t', it') ∧
    t'.Refines (primeTablePolicy hashStr) (m.erase it.key) ∧
    it'.getInnerIt (primeTablePolicy hashStr) t' = some none

/-! ### What it does -/

section Spec

variable {hashStr : Bytes → UInt64} {now : UInt64} {t : Table Bytes Entry} {m : PrimeTable}
  {pos : TableIter} {key : Bytes} {e : Entry}

theorem entryAt_of_designates (h : t.Designates (primeTablePolicy hashStr) pos key e) :
    entryAt t pos = some e := by
  unfold entryAt
  rw [segmentAt_of_lt h.1]
  exact congrArg some h.2.2.2.2.2

/-- Below 2^63 times are compared as they are. -/
theorem toInt64_lt_iff {a b : UInt64} (ha : a.toNat < 2 ^ 63) (hb : b.toNat < 2 ^ 63) :
    a.toInt64 < b.toInt64 ↔ a < b := by
  rw [Int64.lt_iff_toInt_lt, toInt_toInt64, toInt_toInt64, if_pos ha, if_pos hb,
    UInt64.lt_iff_toNat_lt]
  exact Int.ofNat_lt

/-- An entry is erased, or left, by what its expiry is as an `int64_t`. -/
theorem expireIfNeededPrime_eq (h : t.Designates (primeTablePolicy hashStr) pos key e) :
    expireIfNeededPrime hashStr now t pos =
      some (if e.expire.any fun expire => !decide (now.toInt64 < expire.toInt64) then
        (t.eraseIt (primeTablePolicy hashStr) pos, none) else (t, some pos)) := by
  have hcurrent := current_of_designates h
  unfold expireIfNeededPrime performDeletionAtomic
  rw [entryAt_of_designates h, keyAt_of_current hcurrent]
  simp only [Option.bind_eq_bind, Option.bind_some]
  rw [getInnerIt_of_current hcurrent]
  cases he : e.expire with
  | none => rfl
  | some expireTime =>
    by_cases hlt : now.toInt64 < expireTime.toInt64
    · simp [hlt]
    · simp [hlt]

variable (hnow : now.toNat < 2 ^ 63)
    (hexpire : ∀ expire, e.expire = some expire → expire.toNat < 2 ^ 63)
include hnow hexpire

/-- Below 2^63 it is erased if it is not live. -/
theorem any_not_lt_iff :
    (e.expire.any fun expire => !decide (now.toInt64 < expire.toInt64)) = true ↔
    ¬ e.Live now := by
  unfold Entry.Live
  cases he : e.expire with
  | none => simp
  | some expireTime =>
    have hlt := toInt64_lt_iff hnow (hexpire _ he)
    simp [hlt]

theorem expireIfNeededPrime_of_live (h : t.Designates (primeTablePolicy hashStr) pos key e)
    (hlive : e.Live now) : expireIfNeededPrime hashStr now t pos = some (t, some pos) := by
  rw [expireIfNeededPrime_eq h, if_neg]
  exact mt (any_not_lt_iff hnow hexpire).mp (not_not_intro hlive)

theorem expireIfNeededPrime_of_due (href : t.Refines (primeTablePolicy hashStr) m)
    (h : t.Designates (primeTablePolicy hashStr) pos key e) (hdue : ¬ e.Live now) :
    ∃ t', expireIfNeededPrime hashStr now t pos = some (t', none) ∧
      t'.Refines (primeTablePolicy hashStr) (m.erase key) := by
  refine ⟨t.eraseIt (primeTablePolicy hashStr) pos, ?_, ?_⟩
  · rw [expireIfNeededPrime_eq h, if_pos]
    exact (any_not_lt_iff hnow hexpire).mpr hdue
  · obtain ⟨hseg, hbucket, -, hbusy, rfl, rfl⟩ := h
    rw [href.segmentSize] at hseg
    obtain ⟨hinv, hentries⟩ := Table.eraseIt_spec (primeTablePolicy hashStr) href.toInv hseg hbucket
      (Segment.cell_of_isBusy hbusy)
    exact href.erased hinv hentries rfl rfl rfl

/-- The new iterator for a live entry is on its slot, under the empty key. -/
theorem expireIfNeeded_of_live {it : IteratorT Bytes}
    (hinner : it.getInnerIt (primeTablePolicy hashStr) t = some (some pos))
    (h : t.Designates (primeTablePolicy hashStr) pos key e) (hlive : e.Live now) :
    expireIfNeeded hashStr now t it = some (t, ⟨some pos, []⟩) := by
  unfold expireIfNeeded
  rw [hinner]
  simp only [Option.bind_eq_bind, Option.bind_some]
  rw [expireIfNeededPrime_of_live hnow hexpire h hlive]
  rfl

theorem expireIfNeeded_of_due {it : IteratorT Bytes} (href : t.Refines (primeTablePolicy hashStr) m)
    (hinner : it.getInnerIt (primeTablePolicy hashStr) t = some (some pos))
    (h : t.Designates (primeTablePolicy hashStr) pos key e) (hdue : ¬ e.Live now) :
    ∃ t', expireIfNeeded hashStr now t it = some (t', ⟨none, []⟩) ∧
      t'.Refines (primeTablePolicy hashStr) (m.erase key) := by
  obtain ⟨t', hprime, hrefines⟩ := expireIfNeededPrime_of_due hnow hexpire href h hdue
  refine ⟨t', ?_, hrefines⟩
  unfold expireIfNeeded
  rw [hinner]
  simp only [Option.bind_eq_bind, Option.bind_some]
  rw [hprime]
  rfl

end Spec

theorem standsOn_of_designates {hashStr : Bytes → UInt64} {t : Table Bytes Entry} {pos : TableIter}
    {key : Bytes} {e : Entry} (h : t.Designates (primeTablePolicy hashStr) pos key e) :
    StandsOn hashStr t ⟨some pos, key⟩ key e :=
  ⟨pos, getInnerIt_of_current (current_of_designates h), h⟩

/-- **When `ExpireIfNeeded` keeps live entries reachable**: the entry is due, or its key is the
    empty string, which is what the new iterator takes for its key. -/
theorem keepsLive_iff (hashStr : Bytes → UInt64) (now : UInt64) (t : Table Bytes Entry)
    (m : PrimeTable) (href : t.Refines (primeTablePolicy hashStr) m)
    (it : IteratorT Bytes) (e : Entry) (hvalid : StandsOn hashStr t it it.key e)
    (hnow : now.toNat < 2 ^ 63)
    (hexpire : ∀ expire, e.expire = some expire → expire.toNat < 2 ^ 63) :
    KeepsLive hashStr now t m it e ↔ ¬ e.Live now ∨ it.key = [] := by
  obtain ⟨pos, hinner, hdes⟩ := hvalid
  constructor
  · intro hkeeps
    by_cases hlive : e.Live now
    · obtain ⟨it', heq, -, hkey⟩ := hkeeps.live hlive
      rw [expireIfNeeded_of_live hnow hexpire hinner hdes hlive] at heq
      cases heq
      exact Or.inr hkey.symm
    · exact Or.inl hlive
  · intro hwhen
    refine ⟨fun hlive => ?_, fun hdue => ?_⟩
    · have hempty : it.key = [] := hwhen.resolve_left (not_not_intro hlive)
      refine ⟨_, expireIfNeeded_of_live hnow hexpire hinner hdes hlive, ?_, hempty.symm⟩
      rw [hempty] at hdes ⊢
      exact standsOn_of_designates hdes
    · obtain ⟨t', heq, hrefines⟩ := expireIfNeeded_of_due hnow hexpire href hinner hdes hdue
      exact ⟨t', _, heq, hrefines, rfl⟩

/-- A slice with one key, which has an expiry. -/
def oneKey : Option (Table.InsertOut Bytes Entry) :=
  (Table.new (primeTablePolicy fun _ => 0) 0).insertInternal (primeTablePolicy fun _ => 0) 1
    (text "k") ⟨some 5, .str (text "v")⟩ .forceInsert

/-- A first insertion that needs no split. -/
theorem refines_of_first {hashStr : Bytes → UInt64} {key : Bytes} {e : Entry}
    {out : Table.InsertOut Bytes Entry}
    (hout : (Table.new (primeTablePolicy hashStr) 0).insertInternal (primeTablePolicy hashStr) 1
      key e .forceInsert = some out)
    (hreads : (out.dropped == [] && out.table.globalDepth == 0) = true) :
    out.table.Refines (primeTablePolicy hashStr) (Finmap.insert key e ∅) ∧
      out.table.Designates (primeTablePolicy hashStr) out.it key e := by
  rw [Bool.and_eq_true, beq_iff_eq, beq_iff_eq] at hreads
  have hinserts : Table.Inserts (primeTablePolicy hashStr) (Table.new _ 0) key e .forceInsert out :=
    ⟨⟨1, hout⟩, hreads.1, hreads.2 ▸ Nat.zero_le 31⟩
  have hrun : Table.MapRun (primeTablePolicy hashStr) (Table.new _ 0) ∅ := .new 0 (by decide)
  obtain ⟨href, -, hdes, -⟩ := hrun.refines.insert_spec hinserts fun _ => Finmap.notMem_empty
  rw [if_neg Finmap.notMem_empty] at href
  rw [Finmap.lookup_empty, Option.getD_none] at hdes
  exact ⟨href, hdes⟩

theorem exists_oneKey : ∃ out, oneKey = some out ∧
    out.table.Refines (primeTablePolicy fun _ => 0)
      (Finmap.insert (text "k") ⟨some 5, .str (text "v")⟩ ∅) ∧
    out.table.Designates (primeTablePolicy fun _ => 0) out.it (text "k")
      ⟨some 5, .str (text "v")⟩ := by
  have hsome : oneKey.isSome = true := by decide +kernel
  obtain ⟨out, hout⟩ := Option.isSome_iff_exists.mp hsome
  have hreads : oneKey.all fun out => out.dropped == [] && out.table.globalDepth == 0 := by
    decide +kernel
  rw [hout, Option.all_some] at hreads
  exact ⟨out, hout, refines_of_first hout hreads⟩

theorem keepsLive_due : ∃ out, oneKey = some out ∧
    KeepsLive (fun _ => 0) 7 out.table (Finmap.insert (text "k") ⟨some 5, .str (text "v")⟩ ∅)
      ⟨some out.it, text "k"⟩ ⟨some 5, .str (text "v")⟩ := by
  obtain ⟨out, hout, href, hdes⟩ := exists_oneKey
  refine ⟨out, hout, (keepsLive_iff _ 7 _ _ href ⟨some out.it, text "k"⟩ _
    (standsOn_of_designates hdes) (by decide) ?_).mpr (Or.inl ?_)⟩
  · intro expire hexpire
    cases hexpire
    decide
  · intro hlive
    exact absurd (hlive 5 rfl) (by decide)

/-- The iterator that comes back for a live entry has lost it: it is done when it is used. -/
theorem not_keepsLive_live : ∃ out, oneKey = some out ∧
    expireIfNeeded (fun _ => 0) 3 out.table ⟨some out.it, text "k"⟩ =
      some (out.table, ⟨some out.it, []⟩) ∧
    IteratorT.getInnerIt (primeTablePolicy fun _ => 0) out.table ⟨some out.it, []⟩ = some none ∧
    ¬ KeepsLive (fun _ => 0) 3 out.table (Finmap.insert (text "k") ⟨some 5, .str (text "v")⟩ ∅)
      ⟨some out.it, text "k"⟩ ⟨some 5, .str (text "v")⟩ := by
  obtain ⟨out, hout, href, hdes⟩ := exists_oneKey
  have hexpire : ∀ expire, Entry.expire ⟨some 5, .str (text "v")⟩ = some expire → expire = 5 := by
    intro expire h
    exact (Option.some.inj h).symm
  have hlive : Entry.Live 3 ⟨some 5, .str (text "v")⟩ := by
    intro expire h
    rw [hexpire expire h]
    decide
  have heq : expireIfNeeded (fun _ => 0) 3 out.table ⟨some out.it, text "k"⟩ =
      some (out.table, ⟨some out.it, []⟩) := by
    apply expireIfNeeded_of_live (by decide) _ _ hdes hlive
    · intro expire h
      rw [hexpire expire h]
      decide
    · exact getInnerIt_of_current (current_of_designates hdes)
  have hdone : oneKey.all fun out =>
      IteratorT.getInnerIt (primeTablePolicy fun _ => 0) out.table ⟨some out.it,
        []⟩ == some none := by
    decide +kernel
  rw [hout, Option.all_some, beq_iff_eq] at hdone
  refine ⟨out, hout, heq, hdone, fun hkeeps => ?_⟩
  obtain ⟨it', heq', -, hkey⟩ := hkeeps.live hlive
  rw [heq] at heq'
  cases heq'
  exact absurd (show [] = text "k" from hkey) (by decide +kernel)

end StorageEngine.Sharding
