/-
  Doq.Memory.PriorityQueueProofs — what each operation of the indexed heap does to the
  items it holds, and that the index and the heap order survive it
  (see `Doq.Memory.PriorityQueue`).
-/

import Doq.Memory.PriorityQueue
import Mathlib.Data.Multiset.Basic

namespace Doq.Memory.PriorityMemoryQueue

open Lib

/-! ## The order -/

theorem before_iff {m : Bool} {a b : Item} :
    before m a b = true ↔
      if m then a.priority < b.priority ∨ a.priority = b.priority ∧ a.id.toNat < b.id.toNat
      else b.priority < a.priority ∨ a.priority = b.priority ∧ b.id.toNat < a.id.toNat := by
  unfold before
  cases m <;> split <;> simp [UInt64.lt_iff_toNat_lt] <;> omega

/-- In a min-first queue: not after the other one in the order of (priority, id). -/
theorem not_before_iff {a b : Item} :
    before true b a = false ↔ a.priority < b.priority ∨ a.priority = b.priority ∧ a.id ≤ b.id := by
  rw [← Bool.not_eq_true, before_iff, UInt64.le_iff_toNat_le]
  simp only [if_true]
  omega

theorem before_strictWeak (m : Bool) : Heap.StrictWeak (before m) where
  asymm {a b} := by
    rw [← Bool.not_eq_true, before_iff, before_iff]
    cases m <;> simp only [if_true, if_false, Bool.false_eq_true] <;> omega
  negTrans {a b c} := by
    rw [← Bool.not_eq_true, ← Bool.not_eq_true, ← Bool.not_eq_true, before_iff, before_iff, before_iff]
    cases m <;> simp only [if_true, if_false, Bool.false_eq_true] <;> omega

/-- Only items of one id tie. -/
theorem before_total {m : Bool} {a b : Item} (hab : before m a b = false) (hba : before m b a = false) : a.id = b.id := by
  rw [← Bool.not_eq_true, before_iff] at hab hba
  apply UInt64.toNat_inj.mp
  cases m <;> simp only [if_true, if_false, Bool.false_eq_true] at hab hba <;> omega

/-! ## Swaps -/

theorem getElem?_swapIfInBounds {a : Array Item} {i j : Nat} (hi : i < a.size) (hj : j < a.size) (k : Nat) :
    (a.swapIfInBounds i j)[k]? = if k = i then a[j]? else if k = j then a[i]? else a[k]? := by
  rw [Array.getElem?_eq_getElem hi, Array.getElem?_eq_getElem hj]
  simp only [Array.swapIfInBounds, hi, hj, dif_pos, Array.getElem?_swap]
  by_cases h1 : k = i
  · subst h1; by_cases h2 : j = k <;> simp [h2]
  · by_cases h2 : k = j
    · subst h2; simp [h1]
    · simp [h1, h2, Ne.symm h1, Ne.symm h2]

theorem getElem!_of {a : Array Item} {k : Nat} {it : Item} (h : a[k]? = some it) : a[k]! = it := by
  rw [getElem!_def, h]

theorem swap_items {pq : PriorityMemoryQueue} {i j : Nat} (hi : i < pq.items.size) :
    (pq.swap i j).items = pq.items.swapIfInBounds i j := by
  unfold swap
  rw [if_pos (by omega)]

@[simp] theorem swap_minFirst (pq : PriorityMemoryQueue) (i j : Nat) : (pq.swap i j).minFirst = pq.minFirst := by
  unfold swap; split <;> rfl

@[simp] theorem swap_size (pq : PriorityMemoryQueue) (i j : Nat) : (pq.swap i j).items.size = pq.items.size := by
  unfold swap; split <;> simp

theorem swap_getElem? {pq : PriorityMemoryQueue} {i j : Nat} (hi : i < pq.items.size) (hj : j < pq.items.size) (k : Nat) :
    (pq.swap i j).items[k]? = if k = i then pq.items[j]? else if k = j then pq.items[i]? else pq.items[k]? := by
  rw [swap_items hi, getElem?_swapIfInBounds hi hj]

theorem heap_lawful (m : Bool) :
    Heap.Lawful (heap m) (fun pq => pq.items.size) (fun pq k => pq.items[k]!) (before m) where
  less _ _ _ := rfl
  len_swap := swap_size
  ent_swap s i j k hi hj := by
    show (s.swap i j).items[k]! = _
    simp only [getElem!_def, swap_getElem? hi hj]
    by_cases h1 : k = i
    · simp only [h1, if_true]
    · rw [if_neg h1, if_neg h1]
      by_cases h2 : k = j <;> simp only [h2, if_true, if_false]

/-- The index after a swap, at the ids of the two swapped items. -/
theorem swap_lookup {pq : PriorityMemoryQueue} {i j : Nat} {x y : Item} (hx : pq.items[i]? = some x)
    (hy : pq.items[j]? = some y) (id : UInt64) :
    (pq.swap i j).idToIndex.lookup id =
      if id = x.id then some j else if id = y.id then some i else pq.idToIndex.lookup id := by
  have hi : i < pq.items.size := (Array.getElem?_eq_some_iff.mp hx).1
  have hj : j < pq.items.size := (Array.getElem?_eq_some_iff.mp hy).1
  have h1 : (pq.items.swapIfInBounds i j)[i]! = y :=
    getElem!_of (by rw [getElem?_swapIfInBounds hi hj, if_pos rfl, hy])
  have h2 : (pq.items.swapIfInBounds i j)[j]! = x := by
    apply getElem!_of
    rw [getElem?_swapIfInBounds hi hj]
    split
    · rename_i h; subst h; exact hx
    · rw [if_pos rfl, hx]
  unfold swap
  rw [if_pos (by omega)]
  simp only [h1, h2, FinMap.lookup_insert_eq]

theorem Exact.inj {pq : PriorityMemoryQueue} (h : Exact pq) {a b : Nat} {x y : Item} (ha : pq.items[a]? = some x)
    (hb : pq.items[b]? = some y) (hid : x.id = y.id) : a = b := by
  have := h.total a x ha
  rw [hid, h.total b y hb] at this
  exact (Option.some.inj this).symm

theorem Sound.swap {pq : PriorityMemoryQueue} (h : Sound pq) {i j : Nat} (hi : i < pq.items.size) (hj : j < pq.items.size) :
    Sound (pq.swap i j) where
  indexed id k hk := by
    have hx := Array.getElem?_eq_getElem hi
    have hy := Array.getElem?_eq_getElem hj
    rw [swap_lookup hx hy] at hk
    rw [swap_getElem? hi hj]
    split at hk
    · rename_i hid
      cases hk
      split
      · rename_i hji; subst hji; exact ⟨_, hx, hid.symm⟩
      · exact ⟨_, by rw [if_pos rfl, hx], hid.symm⟩
    · rename_i hnx
      split at hk
      · rename_i hid
        cases hk
        exact ⟨_, by rw [if_pos rfl, hy], hid.symm⟩
      · rename_i hny
        obtain ⟨it, hit, rfl⟩ := h.indexed id k hk
        have hki : k ≠ i := by rintro rfl; rw [hx] at hit; cases hit; exact hnx rfl
        have hkj : k ≠ j := by rintro rfl; rw [hy] at hit; cases hit; exact hny rfl
        exact ⟨it, by rw [if_neg hki, if_neg hkj, hit], rfl⟩

theorem Exact.swap {pq : PriorityMemoryQueue} (h : Exact pq) {i j : Nat} (hi : i < pq.items.size) (hj : j < pq.items.size) :
    Exact (pq.swap i j) where
  toSound := h.toSound.swap hi hj
  total k it hk := by
    have hx := Array.getElem?_eq_getElem hi
    have hy := Array.getElem?_eq_getElem hj
    rw [swap_lookup hx hy]
    rw [swap_getElem? hi hj] at hk
    split at hk
    · rename_i hki; subst hki
      split
      · rename_i hid; rw [h.inj hk hx hid]
      · rw [hy] at hk; cases hk; rw [if_pos rfl]
    · rename_i hki
      split at hk
      · rename_i hkj; subst hkj
        rw [hx] at hk; cases hk; rw [if_pos rfl]
      · rename_i hkj
        rw [if_neg fun e => hki (h.inj hk hx e), if_neg fun e => hkj (h.inj hk hy e)]
        exact h.total k it hk

/-- What any sequence of swaps keeps. -/
structure Reordered (pq pq' : PriorityMemoryQueue) : Prop where
  minFirst : pq'.minFirst = pq.minFirst
  perm : pq'.items.toList.Perm pq.items.toList
  sound : Sound pq → Sound pq'
  exact : Exact pq → Exact pq'

theorem Reordered.refl (pq : PriorityMemoryQueue) : Reordered pq pq := ⟨rfl, List.Perm.refl _, id, id⟩

theorem Reordered.size {pq pq' : PriorityMemoryQueue} (h : Reordered pq pq') : pq'.items.size = pq.items.size := by
  simpa using h.perm.length_eq

theorem Reordered.held {pq pq' : PriorityMemoryQueue} (h : Reordered pq pq') : pq'.held = pq.held :=
  Multiset.coe_eq_coe.mpr h.perm

theorem Reordered.swap {pq s : PriorityMemoryQueue} (h : Reordered pq s) {i j : Nat} (hi : i < pq.items.size)
    (hj : j < pq.items.size) : Reordered pq (s.swap i j) := by
  rw [← h.size] at hi hj
  refine ⟨by rw [swap_minFirst, h.minFirst], ?_, fun hs => (h.sound hs).swap hi hj, fun he => (h.exact he).swap hi hj⟩
  rw [swap_items hi]
  simp only [Array.swapIfInBounds, hi, hj, dif_pos]
  exact (Array.perm_iff_toList_perm.mp (Array.swap_perm hi hj)).trans h.perm

/-! ## The sifting operations -/

theorem up_reordered {m : Bool} {pq : PriorityMemoryQueue} {j : Nat} (hj : j < pq.items.size) :
    Reordered pq (Heap.up (heap m) pq j) :=
  Heap.up_keeps (fun _ _ _ hi hj h => h.swap hi hj) hj (Reordered.refl pq)

theorem fix_reordered {m : Bool} {pq : PriorityMemoryQueue} {i : Nat} (hi : i < pq.items.size) :
    Reordered pq (Heap.fix (heap m) pq i pq.items.size) :=
  Heap.fix_keeps (fun _ _ _ hi hj h => h.swap hi hj) hi (Nat.le_refl _) (Reordered.refl pq)

theorem remove_reordered {m : Bool} {pq : PriorityMemoryQueue} {i n : Nat} (hi : i < pq.items.size) (hn : n < pq.items.size) :
    Reordered pq (Heap.remove (heap m) pq i n) :=
  Heap.remove_keeps (fun _ _ _ hi hj h => h.swap hi hj) hi hn (Reordered.refl pq)

/-- `Pop` is `Remove` at the root, on a queue of two or more. -/
theorem pop_reordered {m : Bool} {pq : PriorityMemoryQueue} {n : Nat} (hn : n < pq.items.size) :
    Reordered pq (Heap.pop (heap m) pq n) :=
  Heap.pop_keeps (fun _ _ _ hi hj h => h.swap hi hj) hn (Reordered.refl pq)

/-- Swaps inside the first `n` positions leave position `n` alone. -/
theorem last_keeps {n : Nat} {x : Item} (s : PriorityMemoryQueue) (i j : Nat) (hi : i < n) (hj : j < n)
    (h : s.items[n]? = some x) : (s.swap i j).items[n]? = some x := by
  have hn : n < s.items.size := (Array.getElem?_eq_some_iff.mp h).1
  rw [swap_getElem? (by omega) (by omega), if_neg (by omega), if_neg (by omega), h]

/-- The removed item ends at the last position. -/
theorem remove_last {m : Bool} {pq : PriorityMemoryQueue} {i n : Nat} {x : Item} (hx : pq.items[i]? = some x) (hi : i ≤ n)
    (hn : n < pq.items.size) : (Heap.remove (heap m) pq i n).items[n]? = some x := by
  unfold Heap.remove
  split
  · rename_i h; subst h; exact hx
  · have h : (pq.swap i n).items[n]? = some x := by
      rw [swap_getElem? (by omega) hn, if_neg (by omega), if_pos rfl, hx]
    exact Heap.fix_keeps (fun s a b ha hb h => last_keeps s a b ha hb h) (by omega) (Nat.le_refl n) h

theorem pop_last {m : Bool} {pq : PriorityMemoryQueue} {n : Nat} {x : Item} (hx : pq.items[0]? = some x)
    (hn : n < pq.items.size) : (Heap.pop (heap m) pq n).items[n]? = some x := by
  have h : (pq.swap 0 n).items[n]? = some x := by
    rw [swap_getElem? (by omega) hn]
    split
    · rename_i h; subst h; exact hx
    · rw [if_pos rfl, hx]
  exact Heap.down_keeps (fun s a b ha hb h => last_keeps s a b ha hb h) (Nat.le_refl n) h

/-! ## Push and the cut -/

/-- One item more. -/
structure Grown (pq : PriorityMemoryQueue) (it : Item) (pq' : PriorityMemoryQueue) : Prop where
  minFirst : pq'.minFirst = pq.minFirst
  held : pq'.held = it ::ₘ pq.held
  sound : Sound pq → Sound pq'
  exact : Exact pq → it.id ∉ pq.ids → Exact pq'
  heaped : Heaped pq → Heaped pq'

/-- One item less. -/
structure Shrunk (pq : PriorityMemoryQueue) (it : Item) (pq' : PriorityMemoryQueue) : Prop where
  minFirst : pq'.minFirst = pq.minFirst
  held : pq.held = it ::ₘ pq'.held
  sound : Sound pq → Sound pq'
  exact : Exact pq → Exact pq'
  heaped : Heaped pq → Heaped pq'

theorem mem_held {pq : PriorityMemoryQueue} {it : Item} : it ∈ pq.held ↔ ∃ k : Nat, pq.items[k]? = some it := by
  unfold held
  rw [Multiset.mem_coe, Array.mem_toList_iff, Array.mem_iff_getElem?]

theorem push_getElem? (pq : PriorityMemoryQueue) (it : Item) (k : Nat) :
    (pq.push it).items[k]? = if k = pq.items.size then some it else pq.items[k]? := by
  simp only [push, Array.getElem?_push]

theorem push_sound {pq : PriorityMemoryQueue} (it : Item) (h : Sound pq) : Sound (pq.push it) where
  indexed id k hk := by
    simp only [push, FinMap.lookup_insert_eq] at hk
    rw [push_getElem?]
    split at hk
    · cases hk; exact ⟨it, by rw [if_pos rfl], (by assumption : _ = _).symm⟩
    · obtain ⟨x, hx, hid⟩ := h.indexed id k hk
      have := (Array.getElem?_eq_some_iff.mp hx).1
      exact ⟨x, by rw [if_neg (by omega), hx], hid⟩

theorem push_exact {pq : PriorityMemoryQueue} {it : Item} (h : Exact pq) (hn : it.id ∉ pq.ids) : Exact (pq.push it) where
  toSound := push_sound it h.toSound
  total k x hk := by
    rw [push_getElem?] at hk
    simp only [push, FinMap.lookup_insert_eq]
    split at hk
    · rename_i e; cases hk; rw [if_pos rfl, e]
    · have hne : x.id ≠ it.id := fun e => hn (e ▸ Multiset.mem_map_of_mem _ (mem_held.mpr ⟨k, hk⟩))
      rw [if_neg hne]; exact h.total k x hk

theorem heapPush_grown (pq : PriorityMemoryQueue) (it : Item) : Grown pq it (pq.heapPush it) := by
  have hlen : (pq.push it).len - 1 = pq.items.size := by simp [len, push]
  have hsize : (pq.push it).items.size = pq.items.size + 1 := by simp [push]
  have hr : Reordered (pq.push it) (pq.heapPush it) := by
    unfold heapPush
    exact up_reordered (by omega)
  refine ⟨hr.minFirst, ?_, fun h => hr.sound (push_sound it h), fun h hn => hr.exact (push_exact h hn), ?_⟩
  · rw [hr.held]
    simp only [held, push, Array.toList_push, Multiset.cons_coe]
    exact Multiset.coe_eq_coe.mpr (List.perm_append_singleton _ _)
  · intro h
    unfold Heaped
    rw [hr.size, hr.minFirst, hsize]
    unfold heapPush
    simp only [hlen]
    refine Heap.up_ordered (before_strictWeak _) (heap_lawful _) (Nat.lt_succ_self _) (by omega) ?_
    exact Heap.Ordered.up_append h fun k hk => by
      simp only [getElem!_def, push_getElem?, show k ≠ pq.items.size by omega, if_false]

section Cut

variable {s : PriorityMemoryQueue} {n : Nat} {x : Item} (hn : s.items.size = n + 1) (hx : s.items[n]? = some x)
include hn

theorem getElem?_pop (k : Nat) : s.items.pop[k]? = if k < n then s.items[k]? else none := by
  rw [Array.getElem?_pop, hn]; rfl

include hx

theorem back?_eq : s.items.back? = some x := by rw [Array.back?, hn]; exact hx

/-- The cut queue. -/
theorem pop_eq : s.pop = (some x, { s with items := s.items.pop, idToIndex := if n = 0 then ∅ else s.idToIndex.erase x.id }) := by
  simp only [pop, back?_eq hn hx, Array.size_pop, hn, Nat.add_sub_cancel]

theorem pop_lookup {id : UInt64} {k : Nat} (h : s.pop.2.idToIndex.lookup id = some k) :
    id ≠ x.id ∧ s.idToIndex.lookup id = some k := by
  simp only [pop_eq hn hx] at h
  split at h
  · cases h
  · rw [FinMap.lookup_erase_eq] at h
    split at h
    · cases h
    · exact ⟨by assumption, h⟩

theorem pop_sound (h : Sound s) : Sound s.pop.2 where
  indexed id k hk := by
    obtain ⟨hid, hk⟩ := pop_lookup hn hx hk
    obtain ⟨it, hit, rfl⟩ := h.indexed id k hk
    have hkn : k ≠ n := by rintro rfl; rw [hx] at hit; cases hit; exact hid rfl
    have := (Array.getElem?_eq_some_iff.mp hit).1
    refine ⟨it, ?_, rfl⟩
    rw [pop_eq hn hx]
    simp only [getElem?_pop hn, if_pos (show k < n by omega), hit]

theorem pop_exact (h : Exact s) : Exact s.pop.2 where
  toSound := pop_sound hn hx h.toSound
  total k it hk := by
    rw [pop_eq hn hx] at hk ⊢
    simp only [getElem?_pop hn] at hk
    split at hk
    · rename_i hkn
      have hne : it.id ≠ x.id := fun e => by have := h.inj hk hx e; omega
      simp only [show n ≠ 0 by omega, if_false, FinMap.lookup_erase_eq, hne]
      exact h.total k it hk
    · cases hk

theorem pop_held : s.held = x ::ₘ s.pop.2.held := by
  have hb := back?_eq hn hx
  rw [← Array.getLast?_toList] at hb
  have hl : s.items.toList = s.items.pop.toList ++ [x] := by
    rw [Array.toList_pop, List.dropLast_append_getLast? x hb]
  simp only [held, pop_eq hn hx, hl, Multiset.cons_coe]
  exact Multiset.coe_eq_coe.mpr (List.perm_append_singleton _ _)

/-- The cut of the last position, once swaps have brought the leaving item there. -/
theorem pop_shrunk {pq : PriorityMemoryQueue} (hr : Reordered pq s)
    (ho : Heaped pq → Heap.Ordered (before pq.minFirst) (fun k => s.items[k]!) n) :
    s.pop.1 = some x ∧ Shrunk pq x s.pop.2 := by
  have hmin : s.pop.2.minFirst = pq.minFirst := by rw [pop_eq hn hx]; exact hr.minFirst
  refine ⟨by rw [pop_eq hn hx], hmin, by rw [← hr.held, pop_held hn hx],
    fun h => pop_sound hn hx (hr.sound h), fun h => pop_exact hn hx (hr.exact h), fun h => ?_⟩
  unfold Heaped
  rw [hmin, pop_eq hn hx]
  simp only [Array.size_pop, hn, Nat.add_sub_cancel]
  intro c h0 hc
  have := ho h c h0 hc
  simp only [getElem!_def] at this ⊢
  simp only [getElem?_pop hn, if_pos hc, if_pos (show (c - 1) / 2 < n by omega)]
  exact this

end Cut

/-! ## What each operation does -/

theorem heapRemove_spec {pq : PriorityMemoryQueue} {i : Nat} {x : Item} (hx : pq.items[i]? = some x) :
    ∃ pq', pq.heapRemove i = (some x, pq') ∧ Shrunk pq x pq' := by
  have hi : i < pq.items.size := (Array.getElem?_eq_some_iff.mp hx).1
  obtain ⟨n, hn⟩ : ∃ n, pq.items.size = n + 1 := ⟨pq.items.size - 1, by omega⟩
  have hlen : pq.len - 1 = n := by simp [len, hn]
  unfold heapRemove
  rw [hlen]
  have hr : Reordered pq (Heap.remove (heap pq.minFirst) pq i n) := remove_reordered hi (by omega)
  obtain ⟨h1, h2⟩ := pop_shrunk (by rw [hr.size, hn]) (remove_last hx (by omega) (by omega)) hr fun h => by
    refine Heap.remove_ordered (before_strictWeak _) (heap_lawful _) (by omega) (by omega) ?_
    rw [← hn]; exact h
  exact ⟨_, Prod.ext h1 rfl, h2⟩

/-- `heap.Pop` returns the first item of the order. -/
theorem heapPop_spec {pq : PriorityMemoryQueue} (h : 0 < pq.items.size) :
    ∃ x pq', pq.items[0]? = some x ∧ pq.heapPop = (some x, pq') ∧ Shrunk pq x pq' ∧
      (Heaped pq → ∀ y ∈ pq.held, before pq.minFirst y x = false) := by
  obtain ⟨n, hn⟩ : ∃ n, pq.items.size = n + 1 := ⟨pq.items.size - 1, by omega⟩
  have hx : pq.items[0]? = some pq.items[0] := Array.getElem?_eq_getElem h
  have hlen : pq.len - 1 = n := by simp [len, hn]
  unfold heapPop
  rw [hlen]
  have hr : Reordered pq (Heap.pop (heap pq.minFirst) pq n) := pop_reordered (by omega)
  obtain ⟨h1, h2⟩ := pop_shrunk (by rw [hr.size, hn]) (pop_last hx (by omega)) hr fun h => by
    refine Heap.pop_ordered (before_strictWeak _) (heap_lawful _) (by omega) ?_
    rw [← hn]; exact h
  refine ⟨_, _, hx, Prod.ext h1 rfl, h2, fun hh y hy => ?_⟩
  obtain ⟨k, hk⟩ := mem_held.mp hy
  have := Heap.Ordered.root_first (before_strictWeak _) hh (Array.getElem?_eq_some_iff.mp hk).1
  simpa only [getElem!_of hk, getElem!_of hx] using this

/-- A popped item is not after any other one. -/
theorem heapPop_first {pq pq' : PriorityMemoryQueue} {it y : Item} (hpop : pq.heapPop = (some it, pq'))
    (hh : Heaped pq) (hy : y ∈ pq.held) :
    before pq.minFirst y it = false := by
  have hpos : 0 < pq.items.size := by
    obtain ⟨k, hk⟩ := mem_held.mp hy
    have := (Array.getElem?_eq_some_iff.mp hk).1
    omega
  obtain ⟨x, _, _, he, _, hfirst⟩ := heapPop_spec hpos
  rw [hpop] at he; cases he
  exact hfirst hh y hy

theorem new_exact {m : Bool} : Exact (new m) where
  indexed id k h := by cases h
  total k it h := by simp [new] at h

theorem new_heaped {m : Bool} : Heaped (new m) := fun c _ hc => by simp [new] at hc

@[simp] theorem held_new (m : Bool) : (new m).held = 0 := rfl

theorem len_eq_card (pq : PriorityMemoryQueue) : pq.len = pq.held.card := by simp [len, held]

/-! ## Operations by id -/

/-- The index leads from `id` to `it`. -/
def Found (pq : PriorityMemoryQueue) (id : UInt64) (it : Item) : Prop :=
  ∃ k, pq.idToIndex.lookup id = some k ∧ pq.items[k]? = some it

def Missing (pq : PriorityMemoryQueue) (id : UInt64) : Prop := pq.idToIndex.lookup id = none

theorem Sound.missing_or_found {pq : PriorityMemoryQueue} (h : Sound pq) (id : UInt64) :
    Missing pq id ∨ ∃ it, Found pq id it := by
  unfold Missing
  cases hk : pq.idToIndex.lookup id with
  | none => exact Or.inl rfl
  | some k =>
    obtain ⟨it, hit, _⟩ := h.indexed id k hk
    exact Or.inr ⟨it, k, hk, hit⟩

theorem Found.mem {pq : PriorityMemoryQueue} {id : UInt64} {it : Item} (h : Found pq id it) : it ∈ pq.held := by
  obtain ⟨k, _, hit⟩ := h
  exact mem_held.mpr ⟨k, hit⟩

theorem Found.id_eq {pq : PriorityMemoryQueue} {id : UInt64} {it : Item} (hf : Found pq id it) (h : Sound pq) : it.id = id := by
  obtain ⟨k, hk, hit⟩ := hf
  obtain ⟨it', hit', hid⟩ := h.indexed id k hk
  rw [hit] at hit'; cases hit'; exact hid

theorem Exact.found {pq : PriorityMemoryQueue} (h : Exact pq) {it : Item} (hm : it ∈ pq.held) : Found pq it.id it := by
  obtain ⟨k, hk⟩ := mem_held.mp hm
  exact ⟨k, h.total k it hk, hk⟩

theorem Sound.missing {pq : PriorityMemoryQueue} (h : Sound pq) {id : UInt64} (hn : id ∉ pq.ids) : Missing pq id := by
  rcases h.missing_or_found id with hm | ⟨it, hf⟩
  · exact hm
  · exact absurd (hf.id_eq h ▸ Multiset.mem_map_of_mem _ hf.mem) hn

theorem Found.unique {pq : PriorityMemoryQueue} {id : UInt64} {a b : Item} (ha : Found pq id a) (hb : Found pq id b) : a = b := by
  obtain ⟨k, hk, hx⟩ := ha
  obtain ⟨l, hl, hy⟩ := hb
  rw [hk] at hl; cases hl
  rw [hx] at hy; exact Option.some.inj hy

/-- Under an exact index an id is held at most once. -/
theorem Exact.eq_of_id {pq : PriorityMemoryQueue} (h : Exact pq) {a b : Item} (ha : a ∈ pq.held) (hb : b ∈ pq.held)
    (hid : a.id = b.id) : a = b :=
  (h.found ha).unique (hid ▸ h.found hb)

theorem Exact.nodup {pq : PriorityMemoryQueue} (h : Exact pq) : pq.ids.Nodup := by
  unfold ids held
  rw [Multiset.map_coe, Multiset.coe_nodup]
  refine List.pairwise_iff_getElem.mpr fun i j hi hj hij e => ?_
  simp only [List.length_map, Array.length_toList] at hi hj
  simp only [List.getElem_map, Array.getElem_toList] at e
  have := h.inj (Array.getElem?_eq_getElem hi) (Array.getElem?_eq_getElem hj) e
  omega

theorem Shrunk.notMem {pq pq' : PriorityMemoryQueue} {it : Item} (h : Shrunk pq it pq') (he : Exact pq) : it.id ∉ pq'.ids := by
  have := he.nodup
  unfold ids at this
  rw [h.held, Multiset.map_cons] at this
  exact (Multiset.nodup_cons.mp this).1

section ById

variable {pq : PriorityMemoryQueue} {id : UInt64} {it : Item}

theorem get_missing (h : Missing pq id) : pq.get id = some none := by
  unfold Missing at h
  simp only [get, h]

theorem get_found (h : Found pq id it) : pq.get id = some (some it) := by
  obtain ⟨k, hk, hit⟩ := h
  simp only [get, hk, hit, Option.map_some]

theorem delete_missing (h : Missing pq id) : pq.delete id = some (none, pq) := by
  unfold Missing at h
  simp only [delete, h]

theorem delete_found (h : Found pq id it) (hs : Sound pq) : ∃ pq', pq.delete id = some (some it, pq') ∧ Shrunk pq it pq' := by
  have hid := h.id_eq hs
  obtain ⟨k, hk, hit⟩ := h
  have hlt : k < pq.items.size := (Array.getElem?_eq_some_iff.mp hit).1
  obtain ⟨pq', he, hsh⟩ := heapRemove_spec hit
  simp only [delete, hk, if_pos hlt, he]
  -- the second `delete(pq.idToIndex, id)` finds nothing new to remove
  have hsound : ∀ {q : PriorityMemoryQueue}, Sound q → Sound { q with idToIndex := q.idToIndex.erase id } := by
    intro q hq
    refine ⟨fun i k hk => ?_⟩
    simp only [FinMap.lookup_erase_eq] at hk
    split at hk
    · cases hk
    · exact hq.indexed i k hk
  refine ⟨_, rfl, hsh.minFirst, hsh.held, fun h => hsound (hsh.sound h), fun h => ?_, hsh.heaped⟩
  refine ⟨hsound (hsh.exact h).toSound, fun k x hx => ?_⟩
  have hne : x.id ≠ id := by
    intro e
    refine hsh.notMem h ?_
    rw [hid, ← e]
    exact Multiset.mem_map_of_mem _ (mem_held.mpr ⟨k, hx⟩)
  simp only [FinMap.lookup_erase_eq, if_neg hne]
  exact (hsh.exact h).total k x hx

@[simp] theorem setPriority_minFirst (k : Nat) (p : Int) : (pq.setPriority k p).minFirst = pq.minFirst := rfl
@[simp] theorem setPriority_idToIndex (k : Nat) (p : Int) : (pq.setPriority k p).idToIndex = pq.idToIndex := rfl
@[simp] theorem setPriority_size (k : Nat) (p : Int) : (pq.setPriority k p).items.size = pq.items.size := by simp [setPriority]

theorem setPriority_getElem? (k j : Nat) (p : Int) :
    (pq.setPriority k p).items[j]? = (pq.items[j]?).map fun x => if j = k then { x with priority := p } else x := by
  unfold setPriority
  simp only [Array.getElem?_modify]
  split
  · rename_i h; subst h; simp
  · rename_i h; simp [Ne.symm h]

/-- One item's priority replaced. -/
structure Replaced (pq : PriorityMemoryQueue) (it : Item) (priority : Int) (pq' : PriorityMemoryQueue) : Prop where
  minFirst : pq'.minFirst = pq.minFirst
  held : ∃ rest, pq.held = it ::ₘ rest ∧ pq'.held = { it with priority := priority } ::ₘ rest
  sound : Sound pq → Sound pq'
  exact : Exact pq → Exact pq'

theorem setPriority_replaced {k : Nat} (hit : pq.items[k]? = some it) (p : Int) : Replaced pq it p (pq.setPriority k p) where
  minFirst := rfl
  held := by
    have hlt : k < pq.items.toList.length := by simpa using (Array.getElem?_eq_some_iff.mp hit).1
    obtain ⟨l₁, a, l₂, hl, hk, hm⟩ := List.exists_of_modify (fun x : Item => { x with priority := p }) hlt
    have ha : a = it := by
      rw [← Array.getElem?_toList, hl, List.getElem?_append_right (by omega), hk] at hit
      simpa using hit
    subst ha
    refine ⟨((l₁ ++ l₂ : List Item) : Multiset Item), ?_, ?_⟩
    · simp only [PriorityMemoryQueue.held, hl, Multiset.cons_coe]
      exact Multiset.coe_eq_coe.mpr List.perm_middle
    · simp only [PriorityMemoryQueue.held, setPriority, Array.toList_modify, hm, Multiset.cons_coe]
      exact Multiset.coe_eq_coe.mpr List.perm_middle
  sound h := by
    refine ⟨fun id j hj => ?_⟩
    obtain ⟨x, hx, hid⟩ := h.indexed id j hj
    rw [setPriority_getElem?, hx]
    exact ⟨_, rfl, by split <;> exact hid⟩
  exact h := by
    refine ⟨⟨fun id j hj => ?_⟩, fun j x hx => ?_⟩
    · obtain ⟨x, hx, hid⟩ := h.indexed id j hj
      rw [setPriority_getElem?, hx]
      exact ⟨_, rfl, by split <;> exact hid⟩
    · rw [setPriority_getElem?, Option.map_eq_some_iff] at hx
      obtain ⟨y, hy, rfl⟩ := hx
      have hid : (if j = k then { y with priority := p } else y).id = y.id := by split <;> rfl
      rw [hid]
      exact h.total j y hy

theorem updatePriority_missing (h : Missing pq id) (p : Int) : pq.updatePriority id p = some pq := by
  unfold Missing at h
  simp only [updatePriority, h]

theorem updatePriority_found (h : Found pq id it) (p : Int) :
    ∃ pq', pq.updatePriority id p = some pq' ∧ Replaced pq it p pq' ∧ (Heaped pq → Heaped pq') := by
  obtain ⟨k, hk, hit⟩ := h
  have hlt : k < pq.items.size := (Array.getElem?_eq_some_iff.mp hit).1
  have hset := setPriority_replaced hit p
  have hr : Reordered (pq.setPriority k p) ((pq.setPriority k p).heapFix k) := fix_reordered (by simpa using hlt)
  simp only [updatePriority, hk, if_pos hlt]
  refine ⟨_, rfl, ⟨hr.minFirst, ?_, fun hs => hr.sound (hset.sound hs), fun hs => hr.exact (hset.exact hs)⟩, fun hh => ?_⟩
  · rw [hr.held]; exact hset.held
  · unfold Heaped
    rw [hr.size, hr.minFirst]
    unfold heapFix len
    refine Heap.fix_ordered (before_strictWeak _) (heap_lawful _) (by simpa using hlt) (Nat.le_refl _) ?_
    rw [setPriority_size]
    refine Heap.Ordered.hole (before_strictWeak _) hh fun j hj => ?_
    simp [getElem!_def, setPriority_getElem?, hj]

theorem itemUpdatePriority_found (h : Found pq id it) (p : Int) : Replaced pq it p (pq.itemUpdatePriority id p) := by
  obtain ⟨k, hk, hit⟩ := h
  simp only [itemUpdatePriority, hk]
  exact setPriority_replaced hit p

/-- The write through the pointer changes nothing that `UpdatePriority` of the same priority
    does not redo. -/
theorem updatePriority_itemUpdatePriority (pq : PriorityMemoryQueue) (id : UInt64) (p : Int) :
    (pq.itemUpdatePriority id p).updatePriority id p = pq.updatePriority id p := by
  cases hk : pq.idToIndex.lookup id with
  | none => simp only [itemUpdatePriority, hk]
  | some k =>
    have hset : (pq.setPriority k p).setPriority k p = pq.setPriority k p := by
      unfold setPriority
      simp only [mk.injEq, and_true, true_and]
      apply Array.ext_getElem?
      intro j
      simp only [Array.getElem?_modify]
      split <;> simp [Function.comp_def]
    simp only [itemUpdatePriority, updatePriority, hk, setPriority_idToIndex, setPriority_size, hset]

end ById

/-! ## The first item is determined by the items held -/

end Doq.Memory.PriorityMemoryQueue

namespace Doq.Memory

/-- One message's priority replaced. -/
def Repriced (ready ready' : Multiset Item) (id : UInt64) (v : Int) : Prop :=
  ∃ it rest, it.id = id ∧ ready = it ::ₘ rest ∧ ready' = { it with priority := v } ::ₘ rest

end Doq.Memory
