/-
  StorageEngine/DashTable/CompactObj.lean
  =======================================
  **The keys and values of the table** (`sharding/DashTable/compact_obj.hpp` and
  `compact_obj.cpp`, classes `CompactObj` and `CompactKey`).

  An object is a union of a string, a string with an expiry and an integer, with a tag.
  The tag and the member that is alive are kept by hand: some functions assign to a
  string that must be there, some end its lifetime, some change only the tag and some
  only the content.
-/
import StorageEngine.Redis.ReplyBuilder
import StorageEngine.StepMachine

namespace StorageEngine.DashTable

open StorageEngine.Redis StorageEngine.StepMachine

/-- `TagEnum`, and the tag 0. -/
inductive Tag where
  | zero
  | int
  | str
  | ttlStr
deriving DecidableEq, Repr

/-- The union `U`: the member that is alive, with its content. -/
inductive Member where
  | none
  | int (ival : Int64)
  | str (s : Bytes)
  | ttlStr (s : Bytes) (expMs : UInt64)
deriving DecidableEq

/-- The tag that names the member. -/
def Member.tag : Member → Tag
  | .none => .zero
  | .int _ => .int
  | .str _ => .str
  | .ttlStr _ _ => .ttlStr

/-- A string is alive that can be assigned to as `str_`.  The string of `ttl_str_` is at the same
    place; whether it may be used under the other name is left open (`shared`). -/
def Member.holdsStr (shared : Bool) : Member → Bool
  | .str _ => true
  | .ttlStr _ _ => shared
  | .none | .int _ => false

/-- A string is alive that can be assigned to as that of `ttl_str_`. -/
def Member.holdsTtlStr (shared : Bool) : Member → Bool
  | .ttlStr _ _ => true
  | .str _ => shared
  | .none | .int _ => false

structure CompactObj where
  tag : Tag
  u : Member
deriving DecidableEq

namespace CompactObj

variable (o : CompactObj)

/-- `CompactObj(bool)`: the union starts with an empty string, and without a tag. -/
def fresh : CompactObj := ⟨.zero, .str []⟩

/-- `SetString`: what `u_.str_ = str` comes to where a string is alive.  On a string that was
    destroyed or overwritten it is undefined; `canSetString` and `assignTo` below say where it is
    not. -/
def setString (_ : CompactObj) (s : Bytes) : CompactObj := ⟨.str, .str s⟩

def setInt (_ : CompactObj) (ival : Int64) : CompactObj := ⟨.int, .int ival⟩

/-- `SetTtlStr`, under the same proviso; it leaves the tag alone. -/
def setTtlStr (s : Bytes) (expMs : UInt64) : CompactObj := { o with u := .ttlStr s expMs }

/-- `CompactObj(std::string_view, bool)`. -/
def ofString (s : Bytes) : CompactObj := fresh.setString s

/-- `Reset`: the member that the tag names is destroyed.  There is nothing to destroy of an
    integer. -/
def reset : CompactObj :=
  match o.tag with
  | .zero => o
  | .int | .str | .ttlStr => ⟨.zero, .none⟩

/-- `operator=(CompactObj&&)`: the member that the tag of the source names is copied.  A source
    without a tag leaves the object alone.  Like the setters, this is what comes out where the
    member that is assigned to is alive; where it is, is said below. -/
def assign (src : CompactObj) : CompactObj :=
  match src.tag, src.u with
  | .int, .int ival => o.setInt ival
  | .str, .str s => o.setString s
  | .ttlStr, .ttlStr s expMs => o.setTtlStr s expMs
  | _, _ => o

/-- `CompactObj(CompactObj&&)`. -/
def moveConstruct (src : CompactObj) : CompactObj := fresh.assign src

/-- `CompactKey::SetExpireTime`.  A key without an expiry assigns its string to the string of the
    other member, which is at the same place; `selfMove` is what a string is after it was
    moved to itself. -/
def setExpireTime (selfMove : Bytes → Bytes) (absMs : UInt64) : CompactObj :=
  match o.tag, o.u with
  | .ttlStr, .ttlStr s _ => { o with u := .ttlStr s absMs }
  | .ttlStr, _ => o
  | _, .str s => ⟨.ttlStr, .ttlStr (selfMove s) absMs⟩
  | _, _ => { o with tag := .ttlStr }

/-- `CompactKey::ClearExpireTime`. -/
def clearExpireTime : CompactObj :=
  match o.tag, o.u with
  | .ttlStr, .ttlStr s _ => o.setString s
  | _, _ => o

/-! ### What an object shows -/

/-- `ToString`, where the tag names the member that is alive; without a tag the process ends. -/
def toString : Option Bytes :=
  match o.tag, o.u with
  | .int, .int ival => some (toString64 ival.toInt)
  | .str, .str s => some s
  | .ttlStr, .ttlStr s _ => some s
  | _, _ => none

/-- `HashCode`, with the `std::hash` of an integer and of a string. -/
def hashCode (hashInt : Int64 → UInt64) (hashStr : Bytes → UInt64) : Option UInt64 :=
  match o.tag, o.u with
  | .int, .int ival => some (hashInt ival)
  | .str, .str s => some (hashStr s)
  | .ttlStr, .ttlStr s _ => some (hashStr s)
  | _, _ => none

/-- `CompactKey::HasExpire`. -/
def hasExpire : Bool := o.tag = .ttlStr

/-- `CompactKey::GetExpireTime`. -/
def getExpireTime : Option UInt64 :=
  match o.tag, o.u with
  | .ttlStr, .ttlStr _ expMs => some expMs
  | .ttlStr, _ => none
  | _, _ => some 0

/-- Two objects have the same tag and show the same. -/
structure SameValue (hashInt : Int64 → UInt64) (hashStr : Bytes → UInt64) (a b : CompactObj) :
    Prop where
  tag : a.tag = b.tag
  toString : a.toString = b.toString
  hashCode : a.hashCode hashInt hashStr = b.hashCode hashInt hashStr
  hasExpire : a.hasExpire = b.hasExpire
  getExpireTime : a.getExpireTime = b.getExpireTime

/-- The tag is 0 or names the member that is alive. -/
def Readable : Prop := o.tag = .zero ∨ o.tag = o.u.tag

instance : Decidable o.Readable := inferInstanceAs (Decidable (_ ∨ _))

theorem sameValue_refl (hashInt : Int64 → UInt64) (hashStr : Bytes → UInt64) :
    SameValue hashInt hashStr o o := ⟨rfl, rfl, rfl, rfl, rfl⟩

/-- Objects without a tag show the same: nothing. -/
theorem sameValue_zero_iff {hashInt : Int64 → UInt64} {hashStr : Bytes → UInt64}
    (dst : CompactObj) (u : Member) :
    SameValue hashInt hashStr dst ⟨.zero, u⟩ ↔ dst.tag = .zero := by
  constructor
  · intro h
    exact h.tag
  · intro h
    obtain ⟨tag, du⟩ := dst
    obtain rfl : tag = .zero := h
    exact ⟨rfl, rfl, rfl, rfl, rfl⟩

/-! ### Accesses to the union

A member may be read, assigned to or destroyed only while it is alive; an integer may also be
stored where nothing is alive. -/

def canSetString : Bool := o.u.tag == .str

def canSetInt : Bool := o.u.tag == .zero || o.u.tag == .int

def canSetTtlStr : Bool := o.u.tag == .ttlStr

def canReset : Bool :=
  match o.tag with
  | .zero | .int => true
  | .str => o.u.tag == .str
  | .ttlStr => o.u.tag == .ttlStr

def canAssign (src : CompactObj) : Bool :=
  match src.tag with
  | .zero => true
  | .int => src.u.tag == .int && o.canSetInt
  | .str => src.u.tag == .str && o.canSetString
  | .ttlStr => src.u.tag == .ttlStr && o.canSetTtlStr

/-- A key without an expiry reads one string and assigns to the other. -/
def canSetExpireTime : Bool :=
  if o.tag = .ttlStr then o.u.tag == .ttlStr else o.u.tag == .str && o.u.tag == .ttlStr

/-- A key with an expiry reads one string, and `SetString` assigns to the other. -/
def canClearExpireTime : Bool :=
  if o.tag = .ttlStr then o.u.tag == .ttlStr && o.canSetString else true

/-- The tag names the member that is alive. -/
def TagLive : Prop := o.tag = o.u.tag

variable {o}

theorem TagLive.cases (h : o.TagLive) :
    o = ⟨.zero, .none⟩ ∨ (∃ ival, o = ⟨.int, .int ival⟩) ∨ (∃ s, o = ⟨.str, .str s⟩) ∨
      ∃ s expMs, o = ⟨.ttlStr, .ttlStr s expMs⟩ := by
  obtain ⟨tag, u⟩ := o
  obtain rfl : tag = u.tag := h
  cases u with
  | none => exact Or.inl rfl
  | int ival => exact Or.inr (Or.inl ⟨ival, rfl⟩)
  | str s => exact Or.inr (Or.inr (Or.inl ⟨s, rfl⟩))
  | ttlStr s expMs => exact Or.inr (Or.inr (Or.inr ⟨s, expMs, rfl⟩))

/-! ### Move assignments -/

variable (o)

/-- `operator=(CompactObj&&)`, if it is defined: a string is assigned to one that is alive, and an
    integer is stored whatever was there. -/
def assignTo (shared : Bool) (src : CompactObj) : Option CompactObj :=
  match src.tag with
  | .zero | .int => some (o.assign src)
  | .str => if o.u.holdsStr shared then some (o.assign src) else none
  | .ttlStr => if o.u.holdsTtlStr shared then some (o.assign src) else none

theorem assignTo_str (shared : Bool) (s : Bytes) : o.assignTo shared ⟨.str, .str s⟩ =
    if o.u.holdsStr shared then some (o.setString s) else none := rfl

theorem assignTo_ttlStr (shared : Bool) (s : Bytes) (expMs : UInt64) :
    o.assignTo shared ⟨.ttlStr, .ttlStr s expMs⟩ =
      if o.u.holdsTtlStr shared then some (o.setTtlStr s expMs) else none := rfl

/-- The assignment is defined, and the target then shows what the source has shown. -/
def Transfers (shared : Bool) (hashInt : Int64 → UInt64) (hashStr : Bytes → UInt64)
    (dst src : CompactObj) : Prop :=
  ∃ out, dst.assignTo shared src = some out ∧ SameValue hashInt hashStr out src

/-- When it does: for an integer, for a string where one is alive, and for a string with an expiry
    or for nothing where the target has the tag already. -/
def TransfersWhen (shared : Bool) (dst src : CompactObj) : Prop :=
  match src.tag with
  | .zero => dst.tag = .zero
  | .int => True
  | .str => dst.u.holdsStr shared = true
  | .ttlStr => dst.tag = .ttlStr ∧ dst.u.holdsTtlStr shared = true

/-- **When a move assignment transfers the value.** -/
theorem transfers_iff (shared : Bool) (hashInt : Int64 → UInt64) (hashStr : Bytes → UInt64)
    (src dst : CompactObj) (hsrc : src.Readable) :
    Transfers shared hashInt hashStr dst src ↔ TransfersWhen shared dst src := by
  obtain ⟨tag, u⟩ := src
  have hempty : Transfers shared hashInt hashStr dst ⟨.zero, u⟩ ↔
      TransfersWhen shared dst ⟨.zero, u⟩ := by
    have hsame : dst.assignTo shared ⟨.zero, u⟩ = some dst := by cases u <;> rfl
    unfold Transfers
    rw [hsame]
    constructor
    · rintro ⟨out, hout, hshows⟩
      obtain rfl := Option.some.inj hout
      exact (sameValue_zero_iff _ u).mp hshows
    · intro hzero
      exact ⟨dst, rfl, (sameValue_zero_iff _ u).mpr hzero⟩
  rcases hsrc with hzero | hlive
  · obtain rfl : tag = .zero := hzero
    exact hempty
  · obtain rfl : tag = u.tag := hlive
    cases u with
    | none => exact hempty
    | int ival => exact iff_of_true ⟨_, rfl, sameValue_refl _ _ _⟩ trivial
    | str s =>
      show Transfers _ _ _ dst ⟨.str, .str s⟩ ↔ dst.u.holdsStr shared = true
      unfold Transfers
      rw [assignTo_str]
      by_cases halive : dst.u.holdsStr shared = true
      · rw [if_pos halive]
        exact iff_of_true ⟨_, rfl, sameValue_refl _ _ _⟩ halive
      · rw [if_neg halive]
        exact iff_of_false (by simp) halive
    | ttlStr s expMs =>
      show Transfers _ _ _ dst ⟨.ttlStr, .ttlStr s expMs⟩ ↔
        dst.tag = .ttlStr ∧ dst.u.holdsTtlStr shared = true
      unfold Transfers
      rw [assignTo_ttlStr]
      by_cases halive : dst.u.holdsTtlStr shared = true
      · rw [if_pos halive, and_iff_left halive]
        constructor
        · rintro ⟨out, hout, hshows⟩
          obtain rfl := Option.some.inj hout
          exact hshows.tag
        · intro htag
          obtain ⟨dtag, du⟩ := dst
          obtain rfl : dtag = .ttlStr := htag
          exact ⟨_, rfl, sameValue_refl _ _ _⟩
      · rw [if_neg halive]
        exact iff_of_false (by simp) fun h => halive h.2

/-- A string that is assigned to a slot with an old string, and one with an expiry to a slot with an
    old expiry. -/
theorem transfers_strings :
    Transfers false (fun _ => 0) (fun _ => 1) ⟨.str, .str (text "old")⟩ ⟨.str, .str (text "k")⟩ ∧
      Transfers false (fun _ => 0) (fun _ => 1) ⟨.ttlStr, .ttlStr (text "old") 3⟩
        ⟨.ttlStr, .ttlStr (text "k") 5⟩ :=
  ⟨(transfers_iff false (fun _ => 0) (fun _ => 1) _ _ (Or.inr rfl)).mpr rfl,
    (transfers_iff false (fun _ => 0) (fun _ => 1) _ _ (Or.inr rfl)).mpr ⟨rfl, rfl⟩⟩

/-- A key with an expiry that is moved to a slot with an old key loses the expiry at best; an empty
    value leaves the old value of the slot where it is; and a string that is moved to a slot
    whose string was destroyed, or that holds an integer, is assigned to no string at all. -/
theorem not_transfers :
    (∀ shared, ¬ Transfers shared (fun _ => 0) (fun _ => 1) ⟨.str, .str (text "old")⟩
        ⟨.ttlStr, .ttlStr (text "k") 5⟩) ∧
      (∀ shared, ¬ Transfers shared (fun _ => 0) (fun _ => 1) ⟨.str, .str (text "old")⟩ fresh) ∧
      (∀ shared, ¬ Transfers shared (fun _ => 0) (fun _ => 1) (reset ⟨.str, .str (text "old")⟩)
        ⟨.str, .str (text "k")⟩) ∧
      ∀ shared, ¬ Transfers shared (fun _ => 0) (fun _ => 1) ⟨.int, .int 7⟩
        ⟨.str, .str (text "k")⟩ := by
  refine ⟨?_, ?_, ?_, ?_⟩
  · rintro shared ⟨out, hout, hshows⟩
    rw [assignTo_ttlStr] at hout
    split at hout
    · obtain rfl := Option.some.inj hout
      exact absurd hshows.hasExpire (by decide)
    · cases hout
  · rintro shared ⟨out, hout, hshows⟩
    obtain rfl := Option.some.inj hout
    exact absurd hshows.tag (by decide)
  · rintro shared ⟨out, hout, -⟩
    cases hout
  · rintro shared ⟨out, hout, -⟩
    cases hout

end CompactObj

/-! ### Sequences of operations on several objects -/

/-- Operations on the objects of a pool.  Where an object is constructed, the one that was there
    is destroyed first. -/
inductive ObjAction where
  | construct (i : Nat) (s : Bytes)
  | setString (i : Nat) (s : Bytes)
  | setInt (i : Nat) (ival : Int64)
  | setExpireTime (i : Nat) (absMs : UInt64)
  | clearExpireTime (i : Nat)
  | reset (i : Nat)
  | assign (i j : Nat)
  | moveConstruct (i j : Nat)
deriving DecidableEq

abbrev Pool := Nat → CompactObj

/-- The objects as they are constructed from strings. -/
def Pool.ofStrings (f : Nat → Bytes) : Pool := fun i => .ofString (f i)

namespace ObjAction

/-- The object that is changed. -/
def target : ObjAction → Nat
  | construct i _ | setString i _ | setInt i _ | setExpireTime i _ | clearExpireTime i | reset i
  | assign i _ | moveConstruct i _ => i

/-- Every member that the operation reads, assigns to or destroys is alive. -/
def legal (pool : Pool) : ObjAction → Bool
  | construct i _ => (pool i).canReset && CompactObj.fresh.canSetString
  | setString i _ => (pool i).canSetString
  | setInt i _ => (pool i).canSetInt
  | setExpireTime i _ => (pool i).canSetExpireTime
  | clearExpireTime i => (pool i).canClearExpireTime
  | reset i => (pool i).canReset
  | assign i j => (pool i).canAssign (pool j)
  | moveConstruct i j => (pool i).canReset && CompactObj.fresh.canAssign (pool j)

/-- The object after the operation. -/
def result (selfMove : Bytes → Bytes) (pool : Pool) : ObjAction → CompactObj
  | construct _ s => .ofString s
  | setString i s => (pool i).setString s
  | setInt i ival => (pool i).setInt ival
  | setExpireTime i absMs => (pool i).setExpireTime selfMove absMs
  | clearExpireTime i => (pool i).clearExpireTime
  | reset i => (pool i).reset
  | assign i j => (pool i).assign (pool j)
  | moveConstruct _ j => .moveConstruct (pool j)

/-- The operations that respect the union, by the tags: `SetString` on a string, `SetInt` on an
    integer or nothing, `SetExpireTime` only where there is an expiry and `ClearExpireTime`
    only where there is none, an assignment from nothing, or from a member to the same member
    (an integer also to nothing), a move construction from a string. -/
def Allowed (pool : Pool) : ObjAction → Prop
  | construct _ _ | reset _ => True
  | setString i _ => (pool i).tag = .str
  | setInt i _ => (pool i).tag = .zero ∨ (pool i).tag = .int
  | setExpireTime i _ => (pool i).tag = .ttlStr
  | clearExpireTime i => (pool i).tag ≠ .ttlStr
  | assign i j =>
    (pool j).tag = .zero ∨ (pool i).tag = (pool j).tag ∨
      ((pool j).tag = .int ∧ (pool i).tag = .zero)
  | moveConstruct _ j => (pool j).tag = .str

end ObjAction

namespace Pool

/-- An operation, if it touches only members that are alive. -/
def step (selfMove : Bytes → Bytes) (pool : Pool) (a : ObjAction) : Option Pool :=
  if a.legal pool then some (Function.update pool a.target (a.result selfMove pool)) else none

/-- Every tag names the member that is alive. -/
def TagsLive (pool : Pool) : Prop := ∀ i, (pool i).TagLive

/-- The operation touches only members that are alive, and leaves every tag the name of the
    member that is alive then. -/
def Sound (selfMove : Bytes → Bytes) (pool : Pool) (a : ObjAction) : Prop :=
  ∃ pool', pool.step selfMove a = some pool' ∧ pool'.TagsLive

theorem tagsLive_ofStrings (f : Nat → Bytes) : (ofStrings f).TagsLive := fun _ => rfl

/-- Only the object that is changed can get a wrong tag. -/
theorem sound_iff {selfMove : Bytes → Bytes} {pool : Pool} (h : pool.TagsLive) (a : ObjAction) :
    pool.Sound selfMove a ↔ a.legal pool = true ∧ (a.result selfMove pool).TagLive := by
  unfold Sound step
  constructor
  · rintro ⟨pool', hstep, hlive⟩
    split at hstep
    · rename_i hlegal
      obtain rfl := Option.some.inj hstep
      have hself := hlive a.target
      rw [Function.update_self] at hself
      exact ⟨hlegal, hself⟩
    · cases hstep
  · rintro ⟨hlegal, hself⟩
    refine ⟨_, if_pos hlegal, ?_⟩
    intro i
    by_cases hi : i = a.target
    · rw [hi, Function.update_self]
      exact hself
    · rw [Function.update_of_ne hi]
      exact h i

section Allowed

attribute [local simp] ObjAction.legal ObjAction.result ObjAction.Allowed Member.tag
  CompactObj.TagLive CompactObj.canReset CompactObj.canSetString CompactObj.canSetInt
  CompactObj.canSetTtlStr CompactObj.canSetExpireTime CompactObj.canClearExpireTime
  CompactObj.canAssign CompactObj.fresh CompactObj.ofString CompactObj.setString
  CompactObj.setInt CompactObj.setTtlStr CompactObj.setExpireTime CompactObj.clearExpireTime
  CompactObj.reset CompactObj.assign CompactObj.moveConstruct

/-- One operation on objects whose tags are right: it is sound exactly if the tags allow it. -/
theorem legal_and_tagLive_iff {selfMove : Bytes → Bytes} {pool : Pool} (h : pool.TagsLive)
    (a : ObjAction) :
    a.legal pool = true ∧ (a.result selfMove pool).TagLive ↔ a.Allowed pool := by
  cases a with
  | construct i s =>
    rcases (h i).cases with hi | ⟨_, hi⟩ | ⟨_, hi⟩ | ⟨_, _, hi⟩ <;> simp [hi]
  | setString i s =>
    rcases (h i).cases with hi | ⟨_, hi⟩ | ⟨_, hi⟩ | ⟨_, _, hi⟩ <;> simp [hi]
  | setInt i ival =>
    rcases (h i).cases with hi | ⟨_, hi⟩ | ⟨_, hi⟩ | ⟨_, _, hi⟩ <;> simp [hi]
  | setExpireTime i absMs =>
    rcases (h i).cases with hi | ⟨_, hi⟩ | ⟨_, hi⟩ | ⟨_, _, hi⟩ <;> simp [hi]
  | clearExpireTime i =>
    rcases (h i).cases with hi | ⟨_, hi⟩ | ⟨_, hi⟩ | ⟨_, _, hi⟩ <;> simp [hi]
  | reset i =>
    rcases (h i).cases with hi | ⟨_, hi⟩ | ⟨_, hi⟩ | ⟨_, _, hi⟩ <;> simp [hi]
  | assign i j =>
    rcases (h i).cases with hi | ⟨_, hi⟩ | ⟨_, hi⟩ | ⟨_, _, hi⟩ <;>
      rcases (h j).cases with hj | ⟨_, hj⟩ | ⟨_, hj⟩ | ⟨_, _, hj⟩ <;> simp [hi, hj]
  | moveConstruct i j =>
    rcases (h i).cases with hi | ⟨_, hi⟩ | ⟨_, hi⟩ | ⟨_, _, hi⟩ <;>
      rcases (h j).cases with hj | ⟨_, hj⟩ | ⟨_, hj⟩ | ⟨_, _, hj⟩ <;> simp [hi, hj]

end Allowed

/-- **When the tags name the live members.**  In a sequence of operations on objects that were
    constructed from strings, every operation touches only members that are alive and leaves
    every tag right exactly if the tags allow every operation at its time. -/
theorem along_sound_iff (selfMove : Bytes → Bytes) (f : Nat → Bytes) (as : List ObjAction) :
    Along (step selfMove) (Sound selfMove) (ofStrings f) as ↔
      Along (step selfMove) (fun pool a => a.Allowed pool) (ofStrings f) as := by
  have hiff : ∀ (pool : Pool) (a : ObjAction), pool.TagsLive →
      (pool.Sound selfMove a ↔ a.Allowed pool) := by
    intro pool a h
    rw [sound_iff h, legal_and_tagLive_iff h]
  refine along_congr hiff ?_ (tagsLive_ofStrings f)
  intro pool a pool' h hallowed hstep
  obtain ⟨pool'', hstep', hlive⟩ := (hiff pool a h).mpr hallowed
  rw [hstep] at hstep'
  exact Option.some.inj hstep' ▸ hlive

/-- A slot whose key was erased, and to which another key is then assigned. -/
theorem not_sound_reinsert :
    ¬ Along (step id) (Sound id) (ofStrings fun _ => text "k") [.reset 0,
      .setString 0 (text "l")] := by
  intro h
  obtain ⟨-, hnext⟩ := along_cons.mp h
  obtain ⟨⟨pool, hstep, -⟩, -⟩ := along_cons.mp (hnext _ rfl)
  cases hstep

end Pool

end StorageEngine.DashTable
