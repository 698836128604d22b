/-
  StorageEngine/Sharding/ExpireAll.lean
  =====================================
  **The sweep over all databases** (`sharding/db_slice.cpp`, `DbSlice::ExpireAllIfNeeded`).

  Each database is traversed with a callback that hands the entries with an expiry to
  `ExpireIfNeeded`, which erases those that are due from the table under the traversal.  An
  expiry is stored as a `uint64_t` and read as an `int64_t`.
-/
import StorageEngine.DashTable.TraverseErase
import StorageEngine.Sharding.ExpireIfNeeded
import Mathlib.Data.Option.Basic

namespace StorageEngine.Sharding

open StorageEngine.DashTable StorageEngine.Redis

/-- `db_arr_`: a database that was never created is null. -/
abbrev DbTableArray := List (Option (Table Bytes Entry))

section ExpireAll

variable (hashStr : Bytes → UInt64) (now : UInt64)

/-- The callback of the traversal. -/
def expireCallback (t : Table Bytes Entry) (it : TableIter) : Option (Table Bytes Entry) := do
  let e ← entryAt t it
  if e.expire.isSome then (expireIfNeededPrime hashStr now t it).map Prod.fst else some t

/-- `ExpireAllIfNeeded`, with a number of calls of `Traverse` for a database that may or may not
    be enough. -/
def expireAllIfNeeded (fuel : Nat) (dbs : DbTableArray) : Option DbTableArray :=
  dbs.mapM fun db =>
    match db with
    | none => some none
    | some t => (t.sweep (primeTablePolicy hashStr) (expireCallback hashStr now) fuel).map some

/-! ### What it is for -/

/-- The expiry of the entry, as the number that the code reads, is not ahead. -/
def Entry.due (e : Entry) : Bool :=
  e.expire.any fun expire => decide (expire.toInt64.toInt ≤ (now.toNat : Int))

/-- The database has lost exactly the keys whose entries were to go. -/
structure LosesExactly (gone : Entry → Bool) (t t' : Table Bytes Entry) : Prop where
  map : ∀ m, t.Refines (primeTablePolicy hashStr) m →
    ∃ m', t'.Refines (primeTablePolicy hashStr) m' ∧
      (∀ key, m'.lookup key = (m.lookup key).filter fun e => !gone e) ∧
      t'.size + (m.keys.filter fun key => (m.lookup key).any gone = true).card = t.size
  segInv : ∀ i < t'.segmentSize, (t'.seg i).Inv (primeTablePolicy hashStr)

/-- The sweep ends, and every database has lost exactly the keys whose entries were to go. -/
def ExpiresExactly (gone : Entry → Bool) (dbs : DbTableArray) : Prop :=
  ∃ n dbs', (∀ fuel, n ≤ fuel → expireAllIfNeeded hashStr now fuel dbs = some dbs') ∧
    List.Forall₂ (Option.Rel (LosesExactly hashStr gone)) dbs dbs'

end ExpireAll

/-! ### What it does -/

variable {hashStr : Bytes → UInt64} {now : UInt64}

theorem not_lt_iff_le (hnow : now.toNat < 2 ^ 63) (expire : UInt64) :
    ¬ now.toInt64 < expire.toInt64 ↔ expire.toInt64.toInt ≤ (now.toNat : Int) := by
  rw [Int64.lt_iff_toInt_lt, toInt_toInt64 now, if_pos hnow, Int.not_lt]

theorem erasesDue_expireCallback (hnow : now.toNat < 2 ^ 63) :
    Table.ErasesDue (primeTablePolicy hashStr) (fun _ e => e.due now)
      (expireCallback hashStr now) := by
  intro t it entry hmap hseg hbucket hcell
  have hinv := hmap.runInv.toInv
  have hdes := Table.designates_of_cellAt hinv (hinv.segmentSize ▸ hseg) hbucket hcell
  have hdue : (entry.value.expire.any fun expire => !decide (now.toInt64 < expire.toInt64)) =
      entry.value.due now := by
    unfold Entry.due
    congr 1
    funext expire
    rw [← decide_not]
    exact decide_eq_decide.mpr (not_lt_iff_le hnow expire)
  unfold expireCallback
  rw [entryAt_of_designates hdes, expireIfNeededPrime_eq hdes, hdue]
  change _ = some (if entry.value.due now then t.eraseIt (primeTablePolicy hashStr) it else t)
  simp only [Option.bind_eq_bind, Option.bind_some]
  cases hexpire : entry.value.expire with
  | none =>
    have hlive : entry.value.due now = false := by
      unfold Entry.due
      rw [hexpire]
      rfl
    simp [hlive]
  | some expire =>
    cases entry.value.due now with
    | false => rfl
    | true => rfl

/-- The databases are swept one after the other. -/
theorem expireAllIfNeeded_spec (hashStr : Bytes → UInt64) (hnow : now.toNat < 2 ^ 63)
    (dbs : DbTableArray) (hdbs : ∀ t, some t ∈ dbs → t.IsMap (primeTablePolicy hashStr)) :
    ∃ n dbs', (∀ fuel, n ≤ fuel → expireAllIfNeeded hashStr now fuel dbs = some dbs') ∧
      List.Forall₂ (Option.Rel (Table.Swept (primeTablePolicy hashStr) fun _ e => e.due now))
        dbs dbs' := by
  unfold expireAllIfNeeded
  induction dbs with
  | nil => exact ⟨0, [], fun _ _ => rfl, .nil⟩
  | cons db dbs ih =>
    obtain ⟨n, dbs', hrun, hall⟩ := ih fun t ht => hdbs t (List.mem_cons_of_mem db ht)
    cases db with
    | none =>
      refine ⟨n, none :: dbs', ?_, .cons .none hall⟩
      intro fuel hle
      rw [List.mapM_cons, hrun fuel hle]
      rfl
    | some t =>
      obtain ⟨n', t', hswept, hsweep⟩ := Table.sweep_spec (erasesDue_expireCallback hnow)
        (hdbs t List.mem_cons_self)
      refine ⟨max n n', some t' :: dbs', ?_, .cons (.some hswept) hall⟩
      intro fuel hle
      rw [List.mapM_cons, hrun fuel (Nat.le_trans (Nat.le_max_left n n') hle)]
      dsimp only
      rw [hsweep fuel (Nat.le_trans (Nat.le_max_right n n') hle)]
      rfl

theorem losesExactly_of_swept {due : Entry → Bool} {t t' : Table Bytes Entry}
    (hswept : Table.Swept (primeTablePolicy hashStr) (fun _ e => due e) t t') :
    LosesExactly hashStr due t t' := by
  refine ⟨?_, ?_⟩
  · intro m hm
    obtain ⟨m', hm'⟩ := hswept.isMap
    exact ⟨m', hm', hswept.lookup hm hm', hswept.size_eq hm hm'⟩
  · intro i hi
    have hinv := hswept.isMap.runInv.toInv
    exact hinv.segInv i (hinv.segmentSize ▸ hi)

/-- **`ExpireAllIfNeeded`** ends, and removes from every database exactly the keys whose expiry,
    as an `int64_t`, is not after the clock. -/
theorem expiresExactly_due (hashStr : Bytes → UInt64) (now : UInt64) (hnow : now.toNat < 2 ^ 63)
    (dbs : DbTableArray) (hdbs : ∀ t, some t ∈ dbs → t.IsMap (primeTablePolicy hashStr)) :
    ExpiresExactly hashStr now (fun e => e.due now) dbs := by
  obtain ⟨n, dbs', hrun, hall⟩ := expireAllIfNeeded_spec hashStr hnow dbs hdbs
  refine ⟨n, dbs', hrun, hall.imp ?_⟩
  intro db db' hrel
  cases hrel with
  | some hswept => exact .some (losesExactly_of_swept hswept)
  | none => exact .none

/-- Two databases, of which one was never created. -/
theorem expiresExactly_due_oneKey : ∃ out, oneKey = some out ∧
    ExpiresExactly (fun _ => 0) 7 (fun e => e.due 7) [none, some out.table] := by
  obtain ⟨out, hout, href, -⟩ := exists_oneKey
  refine ⟨out, hout, expiresExactly_due (fun _ => 0) 7 (by decide) [none, some out.table] ?_⟩
  intro t ht
  rcases List.mem_cons.mp ht with hnone | ht
  · cases hnone
  · cases List.mem_singleton.mp ht
    exact ⟨_, href⟩

/-- A slice with one key, whose expiry is 2⁶³. -/
def farKey : Option (Table.InsertOut Bytes Entry) :=
  (Table.new (primeTablePolicy fun _ => 0) 0).insertInternal (primeTablePolicy fun _ => 0) 1
    (text "k") ⟨some 9223372036854775808, .str (text "v")⟩ .forceInsert

/-- The key is removed at the time 7, as if its expiry were negative. -/
theorem not_expiresExactly_far : ∃ out, farKey = some out ∧
    ¬ ExpiresExactly (fun _ => 0) 7 (fun e => e.expire.any fun expire => decide (expire ≤ 7))
      [some out.table] := by
  have hsome : farKey.isSome = true := by decide +kernel
  obtain ⟨out, hout⟩ := Option.isSome_iff_exists.mp hsome
  have hreads : farKey.all fun out => out.dropped == [] && out.table.globalDepth == 0 := by
    decide +kernel
  rw [hout, Option.all_some] at hreads
  obtain ⟨href, -⟩ := refines_of_first hout hreads
  refine ⟨out, hout, ?_⟩
  rintro ⟨n, dbs', hrun, hall⟩
  obtain ⟨n', dbs'', hrun', hall'⟩ := expireAllIfNeeded_spec (fun _ => 0)
    (show UInt64.toNat 7 < 2 ^ 63 by decide) [some out.table] (by
      intro t ht
      cases List.mem_singleton.mp ht
      exact ⟨_, href⟩)
  have hsame : dbs' = dbs'' := by
    have h := hrun (max n n') (Nat.le_max_left n n')
    rw [hrun' (max n n') (Nat.le_max_right n n')] at h
    exact (Option.some.inj h).symm
  subst hsame
  cases hall with
  | cons hrel _ =>
  cases hall' with
  | cons hrel' _ =>
  cases hrel with
  | some hloses =>
  cases hrel' with
  | some hswept =>
  obtain ⟨m', hm', hkept, -⟩ := hloses.map _ href
  have hgone := hswept.lookup href hm' (text "k")
  rw [hkept, Finmap.lookup_insert] at hgone
  revert hgone
  decide

end StorageEngine.Sharding
