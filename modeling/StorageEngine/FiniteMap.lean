/-
  StorageEngine/FiniteMap.lean
  ============================
  **Multisets of pairs that are finite maps.**

  A container is a bag of key/value pairs.  It represents a finite map when the bag is
  the map's own set of entries; then no key occurs twice, and adding a pair with a new
  key and removing a pair are the map's `insert` and `erase`.
-/
import Mathlib.Data.Finmap
import Mathlib.Algebra.Order.Group.Multiset

namespace StorageEngine.FiniteMap

variable {K V : Type*}

def toEntry (x : K × V) : Sigma fun _ : K => V := ⟨x.1, x.2⟩

theorem toEntry_injective : Function.Injective (toEntry : K × V → Sigma fun _ : K => V) := by
  rintro ⟨k, v⟩ ⟨k', v'⟩ h
  cases h
  rfl

/-- The pairs are the entries of the map. -/
def Represents (e : Multiset (K × V)) (m : Finmap fun _ : K => V) : Prop :=
  e.map toEntry = m.entries

variable {e e' : Multiset (K × V)} {m : Finmap fun _ : K => V} {k : K} {v : V}

theorem represents_empty : Represents (0 : Multiset (K × V)) ∅ := rfl

theorem Represents.keys (h : Represents e m) : e.map Prod.fst = m.keys.val := by
  show e.map Prod.fst = m.entries.keys
  rw [← h, Multiset.keys, Multiset.map_map]
  rfl

theorem Represents.nodup_keys (h : Represents e m) : (e.map Prod.fst).Nodup := by
  rw [h.keys]
  exact m.keys.nodup

theorem Represents.card (h : Represents e m) : Multiset.card e = m.keys.card := by
  rw [← Multiset.card_map Prod.fst e, h.keys]
  rfl

theorem Represents.mem_keys (h : Represents e m) : k ∈ m ↔ ∃ v, (k, v) ∈ e := by
  rw [← Finmap.mem_keys, ← Finset.mem_val, ← h.keys, Multiset.mem_map]
  constructor
  · rintro ⟨⟨k', v⟩, hmem, rfl⟩
    exact ⟨v, hmem⟩
  · rintro ⟨v, hmem⟩
    exact ⟨(k, v), hmem, rfl⟩

/-- Two pairs of the bag with the same key are one occurrence. -/
theorem Represents.not_pair_le (h : Represents e m) {v' : V} : ¬ ({(k, v)} + {(k, v')} ≤ e) := by
  intro hle
  have hnodup := Multiset.nodup_of_le (Multiset.map_le_map hle) h.nodup_keys
  simp at hnodup

variable [DecidableEq K]

theorem Represents.lookup_eq_some (h : Represents e m) : m.lookup k = some v ↔ (k, v) ∈ e := by
  rw [Finmap.lookup_eq_some_iff, ← h]
  exact Multiset.mem_map_of_injective (a := (k, v)) toEntry_injective

theorem Represents.insert (h : Represents e m) (hk : k ∉ m) (v : V) :
    Represents ((k, v) ::ₘ e) (m.insert k v) := by
  unfold Represents
  rw [Multiset.map_cons, h, Finmap.entries_insert_of_notMem hk]
  rfl

theorem Represents.erase (h : Represents ((k, v) ::ₘ e) m) : Represents e (m.erase k) := by
  have hnodup : (k ::ₘ e.map Prod.fst).Nodup := by
    rw [← Multiset.map_cons Prod.fst (k, v)]
    exact h.nodup_keys
  have hkeys : (e.map toEntry).NodupKeys := by
    rw [← Multiset.nodup_keys, Multiset.keys, Multiset.map_map]
    exact (Multiset.nodup_cons.mp hnodup).2
  -- the map of the remaining pairs is the erased one, since inserting `k` gives `m` back
  have hrest : Represents e ⟨e.map toEntry, hkeys⟩ := rfl
  have hk : k ∉ (⟨e.map toEntry, hkeys⟩ : Finmap fun _ : K => V) := by
    rw [hrest.mem_keys]
    rintro ⟨v', hv'⟩
    exact (Multiset.nodup_cons.mp hnodup).1 (Multiset.mem_map_of_mem Prod.fst hv')
  have hm : m = (⟨e.map toEntry, hkeys⟩ : Finmap fun _ : K => V).insert k v :=
    Finmap.ext (h.symm.trans (hrest.insert hk v))
  have herase : m.erase k = ⟨e.map toEntry, hkeys⟩ := by
    apply Finmap.ext_lookup
    intro x
    by_cases hx : x = k
    · subst hx
      rw [Finmap.lookup_erase, Finmap.lookup_eq_none.mpr hk]
    · rw [Finmap.lookup_erase_ne hx, hm, Finmap.lookup_insert_of_ne _ hx]
  rw [herase]
  exact hrest

/-- Giving the key of a pair another value. -/
theorem Represents.write (h : Represents ((k, v) ::ₘ e) m) (v' : V) :
    Represents ((k, v') ::ₘ e) (m.insert k v') := by
  have hinsert := h.erase.insert Finmap.notMem_erase_self v'
  have heq : (m.erase k).insert k v' = m.insert k v' := by
    apply Finmap.ext_lookup
    intro x
    by_cases hx : x = k
    · subst hx
      rw [Finmap.lookup_insert, Finmap.lookup_insert]
    · rw [Finmap.lookup_insert_of_ne _ hx, Finmap.lookup_insert_of_ne _ hx,
        Finmap.lookup_erase_ne hx]
  rwa [heq] at hinsert

/-- Erasing a key that is not there. -/
theorem erase_of_notMem (h : k ∉ m) : m.erase k = m := by
  apply Finmap.ext_lookup
  intro x
  by_cases hx : x = k
  · subst hx
    rw [Finmap.lookup_erase, Finmap.lookup_eq_none.mpr h]
  · rw [Finmap.lookup_erase_ne hx]

end StorageEngine.FiniteMap
