/-
  Doq.Lib.FinMap — finite maps, as `AList`s with one value type, and sums over
  their entries.

  `total f m` adds `f k v` up over the entries of `m`, in any commutative monoid: a
  multiset of the things a map holds, or a count of them. An insertion or an erasure
  changes a total by the summand of its own key only.
-/

import Mathlib.Data.List.AList
import Mathlib.Algebra.BigOperators.Group.List.Basic
import Mathlib.Algebra.Order.Group.Multiset

namespace Doq.Lib

abbrev FinMap (κ α : Type) := AList (fun _ : κ => α)

namespace FinMap

variable {κ α : Type} [DecidableEq κ] {M : Type} [AddCommMonoid M]

def total (f : κ → α → M) (m : FinMap κ α) : M := (m.entries.map fun e => f e.1 e.2).sum

def filter (p : κ → α → Bool) (m : FinMap κ α) : FinMap κ α :=
  ⟨m.entries.filter fun e => p e.1 e.2, m.nodupKeys.sublist List.filter_sublist⟩

/-! ## Lookups -/

theorem lookup_insert_eq (m : FinMap κ α) (k k' : κ) (v : α) :
    (m.insert k v).lookup k' = if k' = k then some v else m.lookup k' := by
  by_cases h : k' = k
  · subst h; rw [if_pos rfl, AList.lookup_insert]
  · rw [if_neg h, AList.lookup_insert_ne h]

theorem lookup_erase_eq (m : FinMap κ α) (k k' : κ) :
    (m.erase k).lookup k' = if k' = k then none else m.lookup k' := by
  by_cases h : k' = k
  · subst h; rw [if_pos rfl, AList.lookup_erase]
  · rw [if_neg h, AList.lookup_erase_ne h]

theorem mem_entries {m : FinMap κ α} {k : κ} {v : α} : ⟨k, v⟩ ∈ m.entries ↔ m.lookup k = some v :=
  AList.mem_lookup_iff.symm

theorem lookup_filter (p : κ → α → Bool) (m : FinMap κ α) (k : κ) :
    (m.filter p).lookup k = (m.lookup k).filter (p k) := by
  apply Option.ext
  intro v
  have h : (m.filter p).lookup k = some v ↔ ⟨k, v⟩ ∈ m.entries ∧ p k v = true := by
    rw [← mem_entries]; simp [filter]
  rw [h, mem_entries, Option.filter_eq_some_iff]

/-! ## Totals -/

theorem perm_of_lookup {m : FinMap κ α} {k : κ} {v : α} (h : m.lookup k = some v) :
    m.entries.Perm (⟨k, v⟩ :: (m.erase k).entries) := by
  have hk : k ∈ m.entries.keys := List.mem_keys_of_mem (mem_entries.mpr h)
  obtain ⟨b, l₁, l₂, hn, he, hr⟩ := List.exists_of_kerase hk
  have hb : b = v := by
    have : m.lookup k = some b := mem_entries.mp (by rw [he]; simp)
    rw [h] at this; exact (Option.some.inj this).symm
  subst hb
  show m.entries.Perm (⟨k, b⟩ :: List.kerase k m.entries)
  rw [hr]
  rw [he]
  exact List.perm_middle

theorem total_of_lookup (f : κ → α → M) {m : FinMap κ α} {k : κ} {v : α} (h : m.lookup k = some v) :
    total f m = f k v + total f (m.erase k) := by
  unfold total
  rw [((perm_of_lookup h).map _).sum_eq, List.map_cons, List.sum_cons]

theorem erase_of_lookup_none {m : FinMap κ α} {k : κ} (h : m.lookup k = none) : m.erase k = m := by
  apply AList.ext
  exact List.kerase_of_notMem_keys (AList.lookup_eq_none.mp h)

theorem total_insert (f : κ → α → M) (m : FinMap κ α) (k : κ) (v : α) :
    total f (m.insert k v) = f k v + total f (m.erase k) := by
  unfold total
  rw [AList.entries_insert, List.map_cons, List.sum_cons]
  rfl

theorem total_insert_new (f : κ → α → M) {m : FinMap κ α} {k : κ} (v : α) (h : m.lookup k = none) :
    total f (m.insert k v) = f k v + total f m := by
  rw [total_insert, erase_of_lookup_none h]

/-- Replacing a value by one of the same summand keeps the total. -/
theorem total_insert_same (f : κ → α → M) {m : FinMap κ α} {k : κ} {v v' : α} (h : m.lookup k = some v)
    (hf : f k v' = f k v) : total f (m.insert k v') = total f m := by
  rw [total_insert, total_of_lookup f h, hf]

theorem total_congr {f g : κ → α → M} {m : FinMap κ α} (h : ∀ k v, m.lookup k = some v → f k v = g k v) :
    total f m = total g m := by
  unfold total
  congr 1
  apply List.map_congr_left
  intro e he
  exact h e.1 e.2 (mem_entries.mp he)

theorem total_eq_zero {f : κ → α → M} {m : FinMap κ α} (h : ∀ k v, m.lookup k = some v → f k v = 0) : total f m = 0 := by
  rw [total_congr (g := fun _ _ => (0 : M)) h]
  simp [total]

/-- Two maps with the same lookups have the same totals, whatever the order of their entries. -/
theorem total_ext (f : κ → α → M) {m m' : FinMap κ α} (h : ∀ k, m.lookup k = m'.lookup k) :
    total f m = total f m' := by
  have hp : m.entries.Perm m'.entries := by
    apply List.lookup_ext m.nodupKeys m'.nodupKeys
    intro k v
    show v ∈ m.lookup k ↔ v ∈ m'.lookup k
    rw [h k]
  exact (hp.map _).sum_eq

/-- A map changed value by value has the total of the changed summands. -/
theorem total_map (f : κ → α → M) {m m' : FinMap κ α} (g : κ → α → α)
    (h : ∀ k, m'.lookup k = (m.lookup k).map (g k)) : total f m' = total (fun k v => f k (g k v)) m := by
  have hkeys : (m.entries.map fun e => (⟨e.1, g e.1 e.2⟩ : Sigma fun _ : κ => α)).keys = m.entries.keys := by
    simp [List.keys, Function.comp_def]
  let mv : FinMap κ α := ⟨m.entries.map fun e => ⟨e.1, g e.1 e.2⟩, by
    unfold List.NodupKeys; rw [hkeys]; exact m.nodupKeys⟩
  have hmv : ∀ k, m'.lookup k = mv.lookup k := fun k => by
    rw [h k]
    apply Option.ext
    intro v
    rw [← mem_entries, Option.map_eq_some_iff]
    constructor
    · rintro ⟨a, ha, rfl⟩
      exact List.mem_map.mpr ⟨⟨k, a⟩, mem_entries.mpr ha, rfl⟩
    · intro hv
      obtain ⟨⟨k', a⟩, he, heq⟩ := List.mem_map.mp hv
      cases heq
      exact ⟨a, mem_entries.mp he, rfl⟩
  rw [total_ext f hmv]
  unfold total
  rw [List.map_map]
  rfl

theorem le_total (f : κ → α → Nat) {m : FinMap κ α} {k : κ} {v : α} (h : m.lookup k = some v) : f k v ≤ total f m := by
  rw [total_of_lookup f h]
  exact Nat.le_add_right _ _

/-- A total over multisets holds what some entry's summand holds. -/
theorem mem_total {β : Type} {f : κ → α → Multiset β} {m : FinMap κ α} {b : β} :
    b ∈ total f m ↔ ∃ k v, m.lookup k = some v ∧ b ∈ f k v := by
  have hl : ∀ l : List (Multiset β), b ∈ l.sum ↔ ∃ s ∈ l, b ∈ s := by
    intro l
    induction l with
    | nil => simp
    | cons s l ih => simp [ih]
  unfold total
  rw [hl]
  constructor
  · intro hex
    obtain ⟨s, hs, hb⟩ := hex
    obtain ⟨e, he, rfl⟩ := List.mem_map.mp hs
    exact ⟨e.1, e.2, mem_entries.mp he, hb⟩
  · intro hex
    obtain ⟨k, v, h, hb⟩ := hex
    exact ⟨f k v, List.mem_map.mpr ⟨⟨k, v⟩, mem_entries.mpr h, rfl⟩, hb⟩

/-- A total of summands none of which is negative is positive when one of them is. -/
theorem total_pos {f : κ → α → Int} (hf : ∀ k v, 0 ≤ f k v) {m : FinMap κ α} :
    0 < total f m ↔ ∃ k v, m.lookup k = some v ∧ 0 < f k v := by
  have hl : ∀ l : List (Sigma fun _ : κ => α), 0 ≤ (l.map fun e => f e.1 e.2).sum ∧
      (0 < (l.map fun e => f e.1 e.2).sum ↔ ∃ e ∈ l, 0 < f e.1 e.2) := by
    intro l
    induction l with
    | nil => simp
    | cons e l ih =>
      have he := hf e.1 e.2
      rw [List.map_cons, List.sum_cons]
      refine ⟨by omega, ?_⟩
      rw [List.exists_mem_cons_iff, ← ih.2]
      omega
  unfold total
  rw [(hl m.entries).2]
  constructor
  · intro hex
    obtain ⟨e, he, hpos⟩ := hex
    exact ⟨e.1, e.2, mem_entries.mp he, hpos⟩
  · intro hex
    obtain ⟨k, v, h, hpos⟩ := hex
    exact ⟨⟨k, v⟩, mem_entries.mpr h, hpos⟩

omit [DecidableEq κ] in
/-- A total commutes with a homomorphism: a count of a multiset of entries is a sum of counts. -/
theorem map_total {N : Type} [AddCommMonoid N] (φ : M →+ N) (f : κ → α → M) (m : FinMap κ α) :
    φ (total f m) = total (fun k v => φ (f k v)) m := by
  unfold total
  rw [map_list_sum, List.map_map]
  rfl

omit [DecidableEq κ] in
/-- A total of ones is a count of entries. -/
theorem total_indicator (p : κ → α → Bool) (m : FinMap κ α) :
    total (fun k v => if p k v then (1 : Int) else 0) m = m.entries.countP fun e => p e.1 e.2 := by
  unfold total
  induction m.entries with
  | nil => rfl
  | cons e l ih =>
    rw [List.map_cons, List.sum_cons, ih, List.countP_cons]
    cases hp : p e.1 e.2 <;> simp [hp, add_comm]

end FinMap

end Doq.Lib
