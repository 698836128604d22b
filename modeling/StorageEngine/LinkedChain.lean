/-
  StorageEngine/LinkedChain.lean
  ==============================
  **Singly linked chains in a memory of links.**

  A cell has one link, to another cell or to nothing.  A chain is the list of the cells
  that are met from a first link on, up to the end.  A write to a link outside a chain does
  not change it; a cell outside is pushed by a write of the first link into its own; and a
  cell is turned over from one chain to another by the same write.
-/
import Mathlib.Data.List.Nodup
import Mathlib.Logic.Function.Basic

namespace StorageEngine.LinkedChain

variable {C : Type*}

/-- The cells from a first link on are those of the list. -/
def Chain (next : C → Option C) : Option C → List C → Prop
  | first, [] => first = none
  | first, c :: cs => first = some c ∧ Chain next (next c) cs

variable {next : C → Option C} {first : Option C} {c : C} {cs : List C}

@[simp] theorem chain_nil : Chain next first [] ↔ first = none := Iff.rfl

@[simp] theorem chain_none : Chain next none cs ↔ cs = [] := by
  cases cs with
  | nil => exact iff_of_true rfl rfl
  | cons c cs => exact iff_of_false (fun h => nomatch h.1) (List.cons_ne_nil c cs)

/-- A chain that begins with a cell is that cell and the chain behind it. -/
theorem chain_some : Chain next (some c) cs ↔ ∃ rest, cs = c :: rest ∧
    Chain next (next c) rest := by
  cases cs with
  | nil => exact iff_of_false (fun h => nomatch h) fun ⟨rest, h, _⟩ => nomatch h
  | cons c' cs =>
    constructor
    · rintro ⟨hfirst, hrest⟩
      obtain rfl := Option.some.inj hfirst
      exact ⟨cs, rfl, hrest⟩
    · rintro ⟨rest, heq, hrest⟩
      obtain ⟨rfl, rfl⟩ := List.cons.inj heq
      exact ⟨rfl, hrest⟩

variable [DecidableEq C]

/-- A write to a link outside a chain. -/
theorem Chain.frame (h : Chain next first cs) (hc : c ∉ cs) (link : Option C) :
    Chain (Function.update next c link) first cs := by
  induction cs generalizing first with
  | nil => exact h
  | cons c' cs ih =>
    rw [List.mem_cons, not_or] at hc
    obtain ⟨hne, hnotMem⟩ := hc
    refine ⟨h.1, ?_⟩
    rw [Function.update_of_ne (Ne.symm hne)]
    exact ih h.2 hnotMem

/-- A cell is pushed. -/
theorem Chain.push (h : Chain next first cs) (hc : c ∉ cs) :
    Chain (Function.update next c first) (some c) (c :: cs) := by
  refine ⟨rfl, ?_⟩
  rw [Function.update_self]
  exact h.frame hc first

/-- The first cell of a chain is turned over to another one. -/
theorem Chain.turn {head : Option C} {done rest : List C} (hdone : Chain next head done)
    (hrest : Chain next (some c) (c :: rest)) (hc : c ∉ done) (hnodup : (c :: rest).Nodup) :
    Chain (Function.update next c head) (some c) (c :: done) ∧
    Chain (Function.update next c head) (next c) rest :=
  ⟨hdone.push hc, hrest.2.frame (List.nodup_cons.mp hnodup).1 head⟩

/-! ### Trails -/

section Trail

omit [DecidableEq C]

/-- Each cell of the list leads to the next one, or has no link yet and the link is pending; the
    last cell has no link. -/
def Trail (next : C → Option C) (pending : C → C → Prop) : List C → Prop
  | [] => True
  | [c] => next c = none
  | c :: d :: cs => (next c = some d ∨ next c = none ∧ pending c d) ∧ Trail next pending (d :: cs)

variable {pending pending' : C → C → Prop} {d e : C}

/-- The cell behind another one in a list without repetitions. -/
theorem infix_unique (hnodup : cs.Nodup) (hd : [c, d] <:+: cs) (he : [c, e] <:+: cs) : d = e := by
  induction cs with
  | nil => exact absurd (List.infix_nil.mp hd) (List.cons_ne_nil c [d])
  | cons first cs ih =>
    obtain ⟨hfirst, hnodup⟩ := List.nodup_cons.mp hnodup
    rcases List.infix_cons_iff.mp hd with hd' | hd'
    · obtain ⟨rfl, rest, rfl⟩ := List.cons_prefix_cons.mp hd'
      rcases List.infix_cons_iff.mp he with he' | he'
      · have hfront := (List.cons_prefix_cons.mp he').2
        exact (List.cons_prefix_cons.mp hfront).1.symm
      · exact absurd (he'.subset (by simp)) hfirst
    · rcases List.infix_cons_iff.mp he with he' | he'
      · obtain rfl := (List.cons_prefix_cons.mp he').1
        exact absurd (hd'.subset (by simp)) hfirst
      · exact ih hnodup hd' he'

/-- A trail only depends on the links of its cells. -/
theorem Trail.congr {next' : C → Option C} (h : Trail next pending cs)
    (hnext : ∀ x ∈ cs, next' x = next x)
    (hpending : ∀ x ∈ cs, ∀ y, pending x y → pending' x y) : Trail next' pending' cs := by
  induction cs with
  | nil => trivial
  | cons first cs ih =>
    cases cs with
    | nil =>
      rw [Trail, hnext first (by simp)]
      exact h
    | cons second cs =>
      refine ⟨?_, ih h.2 ?_ ?_⟩
      · rw [hnext first (by simp)]
        exact h.1.imp_right fun hcut => ⟨hcut.1, hpending first (by simp) second hcut.2⟩
      · exact fun x hx => hnext x (List.mem_cons_of_mem first hx)
      · exact fun x hx => hpending x (List.mem_cons_of_mem first hx)

/-- The front of a trail is used up. -/
theorem Trail.tail (h : Trail next pending (c :: cs)) : Trail next pending cs := by
  cases cs with
  | nil => trivial
  | cons d cs => exact h.2

theorem Trail.next_eq_some (h : Trail next pending (c :: cs)) (hd : next c = some d) :
    ∃ rest, cs = d :: rest := by
  cases cs with
  | nil =>
    rw [Trail, hd] at h
    cases h
  | cons e rest =>
    rcases h.1 with hnext | ⟨hnone, -⟩
    · obtain rfl := Option.some.inj (hd.symm.trans hnext)
      exact ⟨rest, rfl⟩
    · rw [hd] at hnone
      cases hnone

theorem Trail.next_last (h : Trail next pending cs) (hlast : cs.getLast? = some c) :
    next c = none := by
  induction cs with
  | nil => cases hlast
  | cons first cs ih =>
    cases cs with
    | nil =>
      obtain rfl := Option.some.inj hlast
      exact h
    | cons second cs => exact ih h.2 (by rwa [List.getLast?_cons_cons] at hlast)

/-- A trail grows at its end, with a link that is still to be written. -/
theorem Trail.snoc (h : Trail next pending cs) (hlast : cs.getLast? = some c) (hd : next d = none)
    (hpending : pending c d) : Trail next pending (cs ++ [d]) := by
  induction cs with
  | nil => cases hlast
  | cons first cs ih =>
    cases cs with
    | nil =>
      obtain rfl := Option.some.inj hlast
      exact ⟨.inr ⟨h, hpending⟩, hd⟩
    | cons second cs => exact ⟨h.1, ih h.2 (by rwa [List.getLast?_cons_cons] at hlast)⟩

variable [DecidableEq C]

/-- A pending link is written. -/
theorem Trail.link (h : Trail next pending cs) (hnodup : cs.Nodup) (hin : [c, d] <:+: cs)
    (hpending : ∀ x y, x ≠ c → pending x y → pending' x y) :
    Trail (Function.update next c (some d)) pending' cs := by
  induction cs with
  | nil => trivial
  | cons first cs ih =>
    obtain ⟨hfirst, hnodup'⟩ := List.nodup_cons.mp hnodup
    cases cs with
    | nil => exact absurd hin.length_le (by simp)
    | cons second cs =>
      by_cases heq : first = c
      · subst heq
        have hne : ∀ x ∈ second :: cs, x ≠ first := fun x hx heq => hfirst (heq ▸ hx)
        obtain rfl := infix_unique hnodup hin ⟨[], cs, rfl⟩
        refine ⟨.inl (Function.update_self ..), h.2.congr ?_ ?_⟩
        · exact fun x hx => Function.update_of_ne (hne x hx) _ _
        · exact fun x hx y => hpending x y (hne x hx)
      · refine ⟨?_, ih h.2 hnodup' ?_⟩
        · rw [Function.update_of_ne heq]
          exact h.1.imp_right fun hcut => ⟨hcut.1, hpending _ _ heq hcut.2⟩
        · rcases List.infix_cons_iff.mp hin with hfront | hbehind
          · exact absurd (List.cons_prefix_cons.mp hfront).1.symm heq
          · exact hbehind

end Trail

end StorageEngine.LinkedChain
