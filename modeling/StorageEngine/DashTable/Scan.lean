/-
  StorageEngine/DashTable/Scan.lean
  =================================
  **Scans under growth.**

  A scan calls `Traverse` with the cursor of the previous call until that is the end;
  between the calls the table may be changed by insertions and erasures.  The state of
  a scan is one token.  Its rank does not depend on the depth of the directory, and
  growth only cuts blocks into smaller ones, so the token still names the first index
  of a block; the keys handed out so far are those below its rank.
-/
import StorageEngine.DashTable.Traverse

namespace StorageEngine.DashTable

open StorageEngine SlotStore

variable {K V : Type}

inductive ScanPhase where
  | running (c : DashCursor)
  | done
deriving DecidableEq, Repr

namespace Table

variable (p : Policy K V)

/-- A scan: the current table, the tables there were before during the scan, the map, the
    phase, and the keys passed to the callback.  Between two calls any operation but
    `Clear` may happen. -/
inductive Scan [Inhabited K] [Inhabited V] [DecidableEq K] :
    Table K V → List (Table K V) → (Finmap fun _ : K => V) → ScanPhase → List K → Prop where
  | start {t : Table K V} {m : Finmap fun _ : K => V} (h : MapRun p t m) :
      Scan t [] m (.running ⟨0⟩) []
  | call {t : Table K V} {past : List (Table K V)} {m : Finmap fun _ : K => V} {c : DashCursor}
      {seen : List K} (h : Scan t past m (.running c) seen) :
      Scan t past m
        (if (t.traverse p c).2.val = 0 then .done else .running (t.traverse p c).2)
        (seen ++ (t.traverse p c).1.map t.keyAt)
  | mutate {t t' : Table K V} {past : List (Table K V)} {m : Finmap fun _ : K => V}
      {c : DashCursor} {seen : List K} {op : MapOp K V} (h : Scan t past m (.running c) seen)
      (hop : op.Allowed m) (hclear : op ≠ .clear) (hstep : t.MapStep p op t') :
      Scan t' (t :: past) (op.apply m) (.running c) seen

/-- The loop `do cursor = Traverse(cursor, cb) while (cursor)` on an unchanged table. -/
def scanLoop (t : Table K V) : Nat → DashCursor → Option (List TableIter)
  | 0, _ => none
  | fuel + 1, c =>
    let r := t.traverse p c
    if r.2.val = 0 then some r.1 else (scanLoop t fuel r.2).map (r.1 ++ ·)

/-! ### Growth and the cursor -/

variable {p}
variable {t t' : Table K V} {m : Finmap fun _ : K => V}

/-- Every operation but `Clear` only refines the directory. -/
theorem MapStep.finer [Inhabited K] [Inhabited V] [p.Lawful] {op : MapOp K V}
    (hstep : t.MapStep p op t') (hinv : t.Inv p) (hclear : op ≠ .clear) :
    Directory.Finer t.globalDepth t.segment t'.globalDepth t'.segment := by
  cases hstep with
  | @insert key value out h =>
    obtain ⟨⟨fuel, hout⟩, -, hg⟩ := h
    obtain ⟨mid, hspec⟩ := insertLoop_spec p key value _ fuel hinv hout hg
    exact hspec.finer
  | @insertNew key value out h =>
    obtain ⟨⟨fuel, hout⟩, -, hg⟩ := h
    obtain ⟨mid, hspec⟩ := insertLoop_spec p key value _ fuel hinv hout hg
    exact hspec.finer
  | erase key =>
    unfold Table.erase
    dsimp only
    split
    · exact .refl _ _
    · exact .refl _ _
  | eraseFound h => exact .refl _ _
  | clear => exact absurd rfl hclear
  | find key => exact .refl _ _

/-- The token still names the first index of a block. -/
theorem ResumesAt.finer {c : DashCursor} {bid sid : Nat} (h : t.ResumesAt (p := p) c bid sid)
    (hfiner : Directory.Finer t.globalDepth t.segment t'.globalDepth t'.segment)
    (hg : t'.globalDepth ≤ 31) :
    t'.ResumesAt (p := p) c bid (sid * 2 ^ (t'.globalDepth - t.globalDepth)) :=
  ⟨h.toPacks.deeper hfiner.le hg, h.bid_lt_num, hfiner.isStart h.segId_lt h.isStart⟩

theorem ResumesAt.rank_lt {c : DashCursor} {bid sid : Nat} (h : t.ResumesAt (p := p) c bid sid) :
    c.rank < p.kBucketNum * 2 ^ 64 := by
  have hbid := h.bid_lt_num
  have hd := h.depth_le
  have hlt : sid * 2 ^ (64 - t.globalDepth) < 2 ^ 64 := by
    have hg : t.globalDepth ≤ 64 := by omega
    rw [← pow_mul_pow_sub 2 hg]
    exact Nat.mul_lt_mul_of_pos_right h.segId_lt (Nat.pow_pos (by decide))
  rw [h.toPacks.rank_eq, position]
  omega

/-- Ranks below a position, in terms of bucket and directory index. -/
theorem hashRank_lt_position (hg : t.globalDepth ≤ 31) (bid : Nat) {sid : Nat}
    (hsid : sid ≤ 2 ^ t.globalDepth) (hash : UInt64) :
    hashRank p hash < position t.globalDepth bid sid ↔
      p.homeIndex hash < bid ∨ p.homeIndex hash = bid ∧ t.segmentId hash < sid := by
  have hpos : 0 < 2 ^ (64 - t.globalDepth) := Nat.pow_pos (by decide)
  have hbound := mul_pow_le (show t.globalDepth ≤ 64 by omega) hsid
  have hlt : hash.toNat < 2 ^ 64 := hash.toNat_lt
  rw [segmentId_eq hg, hashTop, Nat.div_lt_iff_lt_mul hpos, hashRank, position]
  omega

/-! ### The invariant of a scan -/

/-- The rank up to which a scan has handed out the keys. -/
def reached (p : Policy K V) : ScanPhase → Nat
  | .running c => c.rank
  | .done => p.kBucketNum * 2 ^ 64

section Invariant

variable [DecidableEq K]

structure ScanInv [Inhabited K] [Inhabited V] (p : Policy K V) (t : Table K V)
    (past : List (Table K V)) (m : Finmap fun _ : K => V) (phase : ScanPhase)
    (seen : List K) : Prop where
  run : MapRun p t m
  resumes : ∀ c, phase = .running c → ∃ bid sid, t.ResumesAt (p := p) c bid sid
  count : ∀ key, (∀ t' ∈ t :: past, t'.Holds p key) →
    seen.count key = if hashRank p (p.hashFn key) < reached p phase then 1 else 0
  held : ∀ key ∈ seen, ∃ t' ∈ t :: past, t'.Holds p key

omit [DecidableEq K] in
theorem resumesAt_zero (href : t.Refines p m) : t.ResumesAt (p := p) ⟨0⟩ 0 0 :=
  ⟨⟨href.globalDepth_le, Nat.pow_pos (by decide), by decide, by simp⟩, p.kBucketNum_pos,
    Directory.isStart_zero _ _⟩

/-- The keys of one call are counted once when they lie in its interval. -/
theorem CallSpec.count {start : Nat} {r : List TableIter × DashCursor}
    (h : CallSpec p t start r) {key : K} (hkey : t.Holds p key) :
    (r.1.map t.keyAt).count key =
      if start ≤ hashRank p (p.hashFn key) ∧ hashRank p (p.hashFn key) < stopRank p r.2
      then 1 else 0 := by
  have hmem := h.mem key
  split
  · rename_i hrange
    exact List.count_eq_one_of_mem h.nodup (hmem.mpr ⟨hkey, hrange⟩)
  · rename_i hrange
    exact List.count_eq_zero.mpr fun hin => hrange (hmem.mp hin).2

theorem Scan.inv [Inhabited K] [Inhabited V] [p.Lawful] {past : List (Table K V)}
    {phase : ScanPhase} {seen : List K}
    (h : Scan p t past m phase seen) : ScanInv p t past m phase seen := by
  induction h with
  | start hrun =>
    refine ⟨hrun, ?_, fun key _ => by simp [reached, DashCursor.rank], by simp⟩
    intro c hc
    cases hc
    exact ⟨0, 0, resumesAt_zero hrun.refines⟩
  | @call t past m c seen _ ih =>
    obtain ⟨bid, sid, hres⟩ := ih.resumes c rfl
    have hcall := traverse_spec ih.run.refines hres
    generalize t.traverse p c = r at hcall ⊢
    have hreached : reached p (if r.2.val = 0 then .done else .running r.2) = stopRank p r.2 := by
      unfold stopRank
      split <;> rfl
    refine ⟨ih.run, ?_, ?_, ?_⟩
    · intro c' hc'
      split at hc'
      · cases hc'
      · rename_i hne
        cases hc'
        exact hcall.resumes hne
    · intro key hkey
      have hlt := hcall.lt
      rw [List.count_append, ih.count key hkey, hcall.count (hkey t List.mem_cons_self), hreached,
        show reached p (.running c) = c.rank from rfl]
      split_ifs <;> omega
    · intro key hkey
      rcases List.mem_append.mp hkey with hin | hin
      · exact ih.held key hin
      · exact ⟨t, List.mem_cons_self, ((hcall.mem key).mp hin).1⟩
  | @mutate t t' past m c seen op _ hop hclear hstep ih =>
    have hrun := MapRun.step ih.run hop hstep
    refine ⟨hrun, ?_, ?_, ?_⟩
    · intro c' hc'
      obtain ⟨bid, sid, hres⟩ := ih.resumes c' hc'
      exact ⟨bid, _, hres.finer (hstep.finer ih.run.refines.toInv hclear)
        hrun.refines.globalDepth_le⟩
    · intro key hkey
      exact ih.count key fun t₁ ht₁ => hkey t₁ (List.mem_cons_of_mem _ ht₁)
    · intro key hkey
      obtain ⟨t₁, ht₁, hholds⟩ := ih.held key hkey
      exact ⟨t₁, List.mem_cons_of_mem _ ht₁, hholds⟩

end Invariant

/-! ### Termination on an unchanged table -/

theorem exists_scanLoop (href : t.Refines p m) {c : DashCursor} {bid sid : Nat}
    (hres : t.ResumesAt (p := p) c bid sid) : ∃ fuel, (t.scanLoop p fuel c).isSome = true := by
  -- each call raises the rank of the cursor
  induction hn : p.kBucketNum * 2 ^ 64 - c.rank using Nat.strong_induction_on
    generalizing c bid sid with
  | _ n ih =>
    have hcall := traverse_spec href hres
    have hlt := hcall.lt
    by_cases hzero : (t.traverse p c).2.val = 0
    · exact ⟨1, by simp [scanLoop, hzero]⟩
    · obtain ⟨bid', sid', hres'⟩ := hcall.resumes hzero
      rw [stopRank, if_neg hzero] at hlt
      have hbound := hres'.rank_lt
      obtain ⟨fuel, hfuel⟩ := ih _ (by omega) hres' rfl
      exact ⟨fuel + 1, by simp [scanLoop, hzero, hfuel]⟩

/-! ### The guarantee -/

variable (p)

/-- **The scan guarantee.**  At every point of a scan the cursor decodes at the current
    depth to the first directory index of a block, and a key held throughout has been
    passed once if it lies before that position and not at all otherwise; so at the end
    it has been passed exactly once.  A key never held is never passed.  Without
    changes, the rest of the scan ends.  A token decodes at a larger depth to the index
    scaled by the growth. -/
theorem scan_guarantee [Inhabited K] [Inhabited V] [DecidableEq K] [p.Lawful]
    {past : List (Table K V)} {phase : ScanPhase} {seen : List K}
    (h : Scan p t past m phase seen) :
    (∀ c, phase = .running c →
      c.bucketId < p.kBucketNum ∧ c.segmentId t.globalDepth < t.segmentSize ∧
      (∀ j < t.segmentSize, t.segment j = t.segment (c.segmentId t.globalDepth) →
        c.segmentId t.globalDepth ≤ j) ∧
      (∀ key, (∀ t' ∈ t :: past, t'.Holds p key) → seen.count key =
        if p.homeIndex (p.hashFn key) < c.bucketId ∨ p.homeIndex (p.hashFn key) = c.bucketId ∧
          t.segmentId (p.hashFn key) < c.segmentId t.globalDepth then 1 else 0) ∧
      ∃ fuel, (t.scanLoop p fuel c).isSome = true) ∧
    (phase = .done → ∀ key, (∀ t' ∈ t :: past, t'.Holds p key) → seen.count key = 1) ∧
    (∀ key, (∀ t' ∈ t :: past, ¬ t'.Holds p key) → key ∉ seen) ∧
    (∀ depth depth' sid bid, depth ≤ depth' → depth' ≤ 31 → sid < 2 ^ depth → bid < p.kBucketNum →
      (DashCursor.pack depth sid bid).segmentId depth' = sid * 2 ^ (depth' - depth) ∧
      (DashCursor.pack depth sid bid).bucketId = bid) := by
  have hscan := h.inv
  have href := hscan.run.refines
  have hsize := href.segmentSize
  refine ⟨?_, ?_, ?_, ?_⟩
  · intro c hc
    obtain ⟨bid, sid, hres⟩ := hscan.resumes c hc
    rw [hres.toPacks.bucketId_eq, hres.toPacks.segmentId_eq, hsize]
    refine ⟨hres.bid_lt_num, hres.segId_lt, ?_, ?_, exists_scanLoop href hres⟩
    · intro j hj hseg
      exact (((href.toInv.block_of_isStart hres.segId_lt hres.isStart).2 j hj).mp hseg).1
    · intro key hkey
      have hlt :=
        hashRank_lt_position (p := p) href.globalDepth_le bid hres.segId_lt.le (p.hashFn key)
      rw [← hres.toPacks.rank_eq] at hlt
      rw [hscan.count key hkey, hc, show reached p (.running c) = c.rank from rfl]
      exact if_congr hlt rfl rfl
  · intro hdone key hkey
    have hhome := p.homeIndex_lt (p.hashFn key)
    have hhash : (p.hashFn key).toNat < 2 ^ 64 := (p.hashFn key).toNat_lt
    rw [hscan.count key hkey, hdone, if_pos]
    show hashRank p (p.hashFn key) < p.kBucketNum * 2 ^ 64
    unfold hashRank
    omega
  · intro key hkey hin
    obtain ⟨t₁, ht₁, hholds⟩ := hscan.held key hin
    exact hkey t₁ ht₁ hholds
  · intro depth depth' sid bid hle hd hsid hbid
    have hnum := p.kTotalBuckets_lt
    have hpacks :=
      (DashCursor.packs_pack (Nat.le_trans hle hd) hsid (show bid < 2 ^ 8 by omega)).deeper
      hle hd
    exact ⟨hpacks.segmentId_eq, hpacks.bucketId_eq⟩

/-! ### A scan of a table that grows -/

/-- `traverseFrom` with a bound on its steps, for evaluation. -/
def traverseWithin (t : Table K V) : Nat → Nat → Nat → Option (List TableIter × DashCursor)
  | 0, _, _ => none
  | n + 1, bid, sid =>
    let visited := ((t.seg sid).traverseLogicalBucket p bid).map
      fun it => (⟨sid, it.index, it.slot⟩ : TableIter)
    match t.advance p bid sid with
    | none => some (visited, ⟨0⟩)
    | some (bid', sid') =>
      if visited = [] then traverseWithin t n bid' sid'
      else some (visited, DashCursor.pack t.globalDepth sid' bid')

variable {p} in
theorem traverseFrom_of_within {n bid sid : Nat} {r : List TableIter × DashCursor}
    (h : t.traverseWithin p n bid sid = some r) : t.traverseFrom p bid sid = r := by
  induction n generalizing bid sid with
  | zero => cases h
  | succ n ih =>
    rw [traverseFrom]
    simp only [traverseWithin] at h
    cases hadv : t.advance p bid sid with
    | none =>
      rw [hadv] at h
      exact Option.some.inj h
    | some next =>
      obtain ⟨bid', sid'⟩ := next
      rw [hadv] at h
      simp only at h ⊢
      split at h
      · rename_i hvisited
        rw [if_pos hvisited]
        exact ih h
      · rename_i hvisited
        rw [if_neg hvisited]
        exact Option.some.inj h

/-- Calls of `Traverse` one after the other, up to the end of the scan. -/
def scanCalls (t : Table K V) : Nat → ScanPhase × List K → Option (ScanPhase × List K)
  | 0, s => some s
  | _ + 1, (.done, seen) => some (.done, seen)
  | n + 1, (.running c, seen) =>
    (t.traverseWithin p 64 c.bucketId (c.segmentId t.globalDepth)).bind fun r =>
      if c.bucketId < p.kBucketNum ∧ c.segmentId t.globalDepth < t.segmentSize then
        scanCalls t n (if r.2.val = 0 then .done else .running r.2, seen ++ r.1.map t.keyAt)
      else none

variable {p} in
theorem Scan.calls [Inhabited K] [Inhabited V] [DecidableEq K] {past : List (Table K V)}
    {phase : ScanPhase} {seen : List K} {s : ScanPhase × List K} (h : Scan p t past m phase seen)
    {n : Nat} (hcalls : scanCalls p t n (phase, seen) = some s) : Scan p t past m s.1 s.2 := by
  induction n generalizing phase seen with
  | zero => exact Option.some.inj hcalls ▸ h
  | succ n ih =>
    cases phase with
    | done => exact Option.some.inj hcalls ▸ h
    | running c =>
      obtain ⟨r, hr, hrest⟩ := Option.bind_eq_some_iff.mp hcalls
      obtain ⟨⟨hbid, hsid⟩, hrest⟩ := Option.ite_none_right_eq_some.mp hrest
      have htraverse : t.traverse p c = r := by
        rw [traverse, if_neg (by omega)]
        exact traverseFrom_of_within hr
      subst htraverse
      exact ih (.call h) hrest

variable {p} in
theorem Refines.holds [DecidableEq K] [p.Lawful] (h : t.Refines p m) {key : K} (hmem : key ∈ m) :
    t.Holds p key := by
  have hspec := h.find_spec key
  cases hfind : t.find p key with
  | none =>
    rw [hfind] at hspec
    exact absurd hmem (Finmap.lookup_eq_none.mp hspec)
  | some it =>
    rw [hfind] at hspec
    obtain ⟨v, -, hseg, hbucket, -, hbusy, hkey, -⟩ := hspec
    exact ⟨it, hseg, hbucket, hbusy, hkey⟩

/-- Six keys; one call of `Traverse`, which passes four of them; a seventh key, whose insertion
    splits a segment and doubles the directory; and the calls up to the end. -/
theorem scan_guarantee_grown64 : ∃ t out seen seen', grown64 6 = some t ∧
    t.scanCalls narrow64 1 (.running ⟨0⟩, []) = some (.running ⟨1⟩, seen) ∧ seen.length = 4 ∧
    t.insertInternal narrow64 2 (spreadKey 6) 6 .insertIfNotFound = some out ∧
    t.globalDepth = 1 ∧ out.table.globalDepth = 2 ∧
    out.table.scanCalls narrow64 4 (.running ⟨1⟩, seen) = some (.done, seen') ∧
    ∀ n < 6, seen'.count (spreadKey n) = 1 := by
  have hreads : ((grown64 6).bind fun t =>
      (t.scanCalls narrow64 1 (.running ⟨0⟩, [])).bind fun s =>
      (t.insertInternal narrow64 2 (spreadKey 6) 6 .insertIfNotFound).bind fun out =>
      (out.table.scanCalls narrow64 4 s).map fun s' =>
        ((t.globalDepth, out.table.globalDepth, out.dropped), s.1, s.2.length, s'.1)) =
      some ((1, 2, []), .running ⟨1⟩, 4, .done) := by
    decide +kernel
  obtain ⟨t, ht, hreads⟩ := Option.bind_eq_some_iff.mp hreads
  obtain ⟨⟨phase, seen⟩, hfirst, hreads⟩ := Option.bind_eq_some_iff.mp hreads
  obtain ⟨out, hout, hreads⟩ := Option.bind_eq_some_iff.mp hreads
  obtain ⟨⟨phase', seen'⟩, hrest, hreads⟩ := Option.map_eq_some_iff.mp hreads
  simp only [Prod.mk.injEq] at hreads
  obtain ⟨⟨hbefore, hafter, hdropped⟩, rfl, hlength, rfl⟩ := hreads
  have hrun := mapRun_grown64 ht
  have hins : t.Inserts narrow64 (spreadKey 6) 6 .insertIfNotFound out :=
    ⟨⟨2, hout⟩, hdropped, by omega⟩
  have hallowed : (MapOp.insert (spreadKey 6) (6 : UInt64)).Allowed (spreadMap 6) := trivial
  have hstep : t.MapStep narrow64 (.insert (spreadKey 6) 6) out.table := .insert hins
  have hgrown := (((Scan.start hrun).calls hfirst).mutate hallowed (by simp) hstep).calls hrest
  refine ⟨t, out, seen, seen', ht, hfirst, hlength, hout, hbefore, hafter, hrest, ?_⟩
  intro n hn
  refine (scan_guarantee narrow64 hgrown).2.1 rfl (spreadKey n) ?_
  have hmem : ∀ n < 6, spreadKey n ∈ spreadMap 6 ∧
      spreadKey n ∈ (MapOp.insert (spreadKey 6) 6).apply (spreadMap 6) := by decide +kernel
  intro t' ht'
  rcases List.mem_cons.mp ht' with rfl | ht'
  · exact (hrun.step hallowed hstep).refines.holds (hmem n hn).2
  · obtain rfl := List.mem_singleton.mp ht'
    exact hrun.refines.holds (hmem n hn).1

end Table

end StorageEngine.DashTable
