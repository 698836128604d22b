/-
  StorageEngine/DashTable/ValueWrite.lean
  =======================================
  **Writes through an iterator** (`dash_table.hpp`, `Iterator::operator->`).

  A caller may assign to the value of the entry that an iterator stands on.  The table keeps
  its shape, and for the map the key is bound to the new value.
-/
import StorageEngine.DashTable.TableMap

namespace StorageEngine.DashTable

open StorageEngine SlotStore FiniteMap

variable {K V : Type}

namespace Segment

/-- `it->second = v`. -/
def writeValue (s : Segment K V) (it : Iter) (v : V) : Segment K V :=
  let b := s.bucket it.index
  s.setBucket it.index { b with value := Function.update b.value it.slot v }

variable {p : Policy K V} {s : Segment K V} {it : Iter} {e : Entry K V}

theorem cell_writeValue (hbusy : s.cell it.at = some e) (v : V) :
    (s.writeValue it v).cell = Function.update s.cell it.at (some { e with value := v }) := by
  apply cell_setBucket
  funext j
  by_cases hj : j = it.slot
  · subst hj
    have hcell : (s.bucket it.index).cell it.slot = some e := hbusy
    obtain ⟨hkey, -, hfp, hprobe⟩ := Bucket.key_of_cell hcell
    have hbit : (s.bucket it.index).slotb.busy.getLsbD it.slot = true := Bucket.busy_of_cell hcell
    simp [Bucket.cell, hbit, hkey, hfp, hprobe]
  · simp [Bucket.cell, hj]

theorem stash_writeValue (v : V) (i : Nat) :
    ((s.writeValue it v).bucket i).stash = (s.bucket i).stash := by
  by_cases hi : i = it.index
  · subst hi
    simp [writeValue]
  · simp [writeValue, hi]

theorem stashPairs_writeValue (hbusy : s.cell it.at = some e) (v : V) (y : Nat) :
    (s.writeValue it v).stashPairs p y = s.stashPairs p y := by
  apply gather_congr
  intro x _
  rw [cell_writeValue hbusy]
  by_cases hx : x = it.at
  · rw [hx, Function.update_self, hbusy]
    rfl
  · rw [Function.update_of_ne hx]

/-- The key stays in its place, so that the segment keeps its invariant. -/
theorem Inv.writeValue (h : s.Inv p) (hindex : it.index < p.kTotalBuckets)
    (hbusy : s.cell it.at = some e) (v : V) : (s.writeValue it v).Inv p := by
  refine h.update (cell_writeValue hbusy v)
    (h.slotsWF.setBucket p _ (h.slotsWF it.index)) ?_ ?_ ?_ ?_
  · intro i
    rw [stash_writeValue]
    exact h.stashWF i
  · intro hregular e' he'
    obtain rfl := Option.some.inj he'
    exact h.home it.index hregular it.slot e hbusy
  · intro hstashed e' he'
    obtain rfl := Option.some.inj he'
    have hq : it.index - p.kBucketNum < kStashBucketNum := by
      unfold Policy.kTotalBuckets at hindex
      exact Nat.sub_lt_left_of_lt_add hstashed hindex
    have hat : (p.kBucketNum + (it.index - p.kBucketNum), it.slot) = it.at := by
      exact congrArg (·, it.slot) (Nat.add_sub_cancel' hstashed)
    exact h.stashed _ hq it.slot e (hat ▸ hbusy)
  · intro y hy
    exact (h.accounted hy).congr (refs_congr p (stash_writeValue v) y)
      (stashPairs_writeValue hbusy v y)
      (overflow_congr (stash_writeValue v) y) (hasStash_congr (stash_writeValue v) y)

/-- One pair has the new value. -/
theorem contents_writeValue (h : s.SlotsWF p) (hindex : it.index < p.kTotalBuckets)
    (hbusy : s.cell it.at = some e) (v : V) :
    ∃ rest, s.contents p = (e.key, e.value) ::ₘ rest ∧
      (s.writeValue it v).contents p = (e.key, v) ::ₘ rest := by
  have hmem : it.at ∈ p.cells := (p.mem_cells).mpr ⟨hindex, slot_lt_of_cell p h hbusy⟩
  refine ⟨gather p.cells (Function.update s.cell it.at none) fun _ e => {(e.key, e.value)}, ?_, ?_⟩
  · exact (gather_take hmem hbusy).symm
  · have hput := gather_put (g := fun _ (e : Entry K V) => ({(e.key, e.value)} : Multiset (K × V)))
      (e := { e with value := v }) hmem (Function.update_self it.at none s.cell)
    rw [Function.update_idem, ← cell_writeValue hbusy v] at hput
    exact hput

end Segment

namespace Table

/-- `it->second = v`. -/
def writeValue (t : Table K V) (it : TableIter) (v : V) : Table K V :=
  t.setSeg it.segId ((t.seg it.segId).writeValue it.iter v)

variable {p : Policy K V} {t : Table K V} {m : Finmap fun _ : K => V}

/-- **A write through an iterator** binds its key to the value. -/
theorem Refines.writeValue [DecidableEq K] (h : t.Refines p m) {it : TableIter}
    {key : K} {value : V} (hdes : t.Designates p it key value)
    (v : V) : (t.writeValue it v).Refines p (m.insert key v) := by
  obtain ⟨hseg, hbucket, -, hbusy, hkey, hvalue⟩ := hdes
  rw [h.segmentSize] at hseg
  obtain ⟨e, hcell, rfl, rfl⟩ : ∃ e, (t.seg it.segId).cell it.iter.at = some e ∧ e.key = key ∧
      e.value = value := ⟨_, Segment.cell_of_isBusy hbusy, hkey, hvalue⟩
  have hsegInv := h.segInv it.segId hseg
  obtain ⟨rest, hcontents, hcontents'⟩ :=
    Segment.contents_writeValue hsegInv.slotsWF hbucket hcell v
  have hinv : (t.writeValue it v).Inv p := by
    refine h.toInv.setSeg p hseg (hsegInv.writeValue hbucket hcell v) rfl ?_
    intro x hx
    have hprefix := h.hashPrefix it.segId hseg
    rw [hcontents] at hprefix
    rw [hcontents', Multiset.mem_cons] at hx
    rcases hx with rfl | hx
    · exact hprefix (e.key, e.value) (Multiset.mem_cons_self _ _)
    · exact hprefix x (Multiset.mem_cons_of_mem hx)
  have hentries := entries_eq p t hseg
  have hentries' : (t.writeValue it v).entries p = (e.key, v) ::ₘ (rest + t.others p it.segId) := by
    rw [entries_eq p (t.writeValue it v) hseg]
    unfold Table.writeValue
    rw [seg_setSeg_self, others_setSeg, hcontents', Multiset.cons_add]
  rw [hcontents, Multiset.cons_add] at hentries
  have hrep : Represents ((t.writeValue it v).entries p) (m.insert e.key v) := by
    rw [hentries']
    exact (hentries ▸ h.represents).write v
  refine ⟨⟨hinv, h.globalDepth_le, h.initialDepth_le⟩, hrep, ?_⟩
  rw [← hrep.card, hentries', Multiset.card_cons]
  show t.size = _
  rw [h.size_eq, ← h.represents.card, hentries, Multiset.card_cons]

end Table

end StorageEngine.DashTable
