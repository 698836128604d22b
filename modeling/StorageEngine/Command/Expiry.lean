/-
  StorageEngine/Command/Expiry.lean
  =================================
  **`EXPIRE` and `TTL`** (`command_layer/generic_family.cpp`).

  The coroutines of these two commands take a key where the others take the arguments of the
  command, and so their promises are made without a context.  Their first `co_await` goes
  through it.  Here what the handlers do is compared with what the commands are for.
-/
import StorageEngine.Command.Invoke

namespace StorageEngine.Command

open StorageEngine.Redis StorageEngine.Sharding

/-- The key has this expiry, in milliseconds. -/
def ExpiresAt (db : DbSlice) (key : Bytes) (atMs : Nat) : Prop :=
  ∃ expire, (db.prime.lookup key).bind Entry.expire = some expire ∧ expire.toNat = atMs

namespace Store

variable {size : UInt32} {hash : Bytes → UInt64}

/-- The slice of a key. -/
def slice (st : Store size hash) (key : Bytes) : DbSlice := st.ns (shard size (hash key))

/-- `EXPIRE key secs` at a time makes exactly this key expire `secs` seconds later, and `TTL key`
    then says how long that is. -/
def ExpiresKey (st : Store size hash) (now : UInt64) (key : Bytes) (secs : Nat) : Prop :=
  ∃ ns' : Namespace,
    handleExpire size hash now [text "EXPIRE", key, decimal secs] st.ns =
      .ended ns' (some (.status (text "OK"))) ∧
    ExpiresAt (ns' (shard size (hash key))) key (now.toNat + 1000 * secs) ∧
    ((ns' (shard size (hash key))).prime.lookup key).map Entry.value =
      ((st.slice key).prime.lookup key).map Entry.value ∧
    (∀ sid k, (sid, k) ≠ (shard size (hash key), key) →
      (ns' sid).prime.lookup k = (st.ns sid).prime.lookup k) ∧
    ∀ now' : UInt64, now.toNat ≤ now'.toNat → now'.toNat < now.toNat + 1000 * secs →
      handleTtl size hash now' [text "TTL", key] ns' =
        .ended ns' (some (.int (now.toNat + 1000 * secs - now'.toNat)))

/-- For a key that is not there both commands reply with an error, and change nothing. -/
def RefusesKey (st : Store size hash) (now : UInt64) (key : Bytes) (secs : Nat) : Prop :=
  handleExpire size hash now [text "EXPIRE", key, decimal secs] st.ns =
      .ended st.ns (some .error) ∧
    ∀ now' : UInt64, handleTtl size hash now' [text "TTL", key] st.ns = .ended st.ns (some .error)

/-- The commands act on the key that they name. -/
def ActsOnKey (st : Store size hash) (now : UInt64) (key : Bytes) (secs : Nat) : Prop :=
  (st.Present key → st.ExpiresKey now key secs) ∧ (¬ st.Present key → st.RefusesKey now key secs)

theorem not_expiresKey (st : Store size hash) (now : UInt64) (key : Bytes) (secs : Nat) :
    ¬ st.ExpiresKey now key secs := by
  rintro ⟨ns', hended, -⟩
  exact handleExpire_ne_ended _ hended

theorem not_refusesKey (st : Store size hash) (now : UInt64) (key : Bytes) (secs : Nat) :
    ¬ st.RefusesKey now key secs := by
  rintro ⟨hended, -⟩
  exact handleExpire_ne_ended _ hended

/-- **`EXPIRE` and `TTL` never act on the key that they name**: whether it is there or not, the
    handler does not come to an end. -/
theorem not_actsOnKey (st : Store size hash) (now : UInt64) (key : Bytes) (secs : Nat) :
    ¬ st.ActsOnKey now key secs := by
  rintro ⟨hexpires, hrefuses⟩
  by_cases hpresent : st.Present key
  · exact st.not_expiresKey now key secs (hexpires hpresent)
  · exact st.not_refusesKey now key secs (hrefuses hpresent)

/-- `EXPIRE a 10` for a key that is there, and for one that is not, and `TTL` of both. -/
theorem not_actsOnKey_twoKeys :
    twoKeys.Present (text "a") ∧ ¬ twoKeys.Present (text "c") ∧
      (∀ key ∈ [text "a", text "c"],
        handleExpire 1 (fun _ => 0) 0 [text "EXPIRE", key, decimal 10] twoKeys.ns = .undefined ∧
          handleTtl 1 (fun _ => 0) 0 [text "TTL", key] twoKeys.ns = .undefined) ∧
      ¬ twoKeys.ActsOnKey 0 (text "a") 10 := by
  refine ⟨by decide +kernel, by decide +kernel, ?_, ?_⟩
  · intro key _
    exact ⟨handleExpire_eq, handleTtl_eq⟩
  · rintro ⟨hacts, -⟩
    obtain ⟨ns', hended, -⟩ := hacts (by decide +kernel)
    exact handleExpire_ne_ended _ hended

end Store

end StorageEngine.Command
