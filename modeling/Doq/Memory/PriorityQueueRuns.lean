/-
  Doq.Memory.PriorityQueueRuns — the indexed heap over whole runs
  (`pkg/queue/memory/priority_memory_queue.go`).

  What the heap is for is a table from ids to items that can give up its first item: `Does`
  says what each operation answers and does to such a table. The table of a queue is read off
  its items alone, so that the index has to be right for the operations to do as they should.

  Proved, for runs that push no id twice and pop no empty queue: the items stay a heap, the
  index stays exact, no operation panics, each does to the table what it should and nothing
  else; and what the pops give is decided by the ids and priorities in the table.
-/

import Doq.Lib.Run
import Doq.Memory.PriorityQueueProofs

namespace Doq.Memory.PriorityMemoryQueue

open Lib

variable {pq pq' : PriorityMemoryQueue} {minFirst : Bool}

inductive Op where
  | push (item : Item)
  | pop
  | get (id : UInt64)
  | delete (id : UInt64)
  | updatePriority (id : UInt64) (priority : Int)
  deriving DecidableEq, Repr

def step (pq : PriorityMemoryQueue) : Op → Go (Option Item × PriorityMemoryQueue)
  | .push item => some (none, pq.heapPush item)
  | .pop => some pq.heapPop
  | .get id => (pq.get id).map (·, pq)
  | .delete id => pq.delete id
  | .updatePriority id priority => (pq.updatePriority id priority).map (none, ·)

/-- A push of a new id, a pop of something. -/
def Admits (pq : PriorityMemoryQueue) : Op → Prop
  | .push item => item.id ∉ pq.ids
  | .pop => 0 < pq.len
  | _ => True

instance (pq : PriorityMemoryQueue) : (op : Op) → Decidable (pq.Admits op)
  | .push item => inferInstanceAs (Decidable (item.id ∉ pq.ids))
  | .pop => inferInstanceAs (Decidable (0 < pq.len))
  | .get _ | .delete _ | .updatePriority _ _ => isTrue trivial

/-! ## The table of a queue -/

abbrev Table := UInt64 → Option Item

/-- What an operation answers, and the table after it. -/
def Does (minFirst : Bool) (t : Table) : Op → Option Item → Table → Prop
  | .push item, answer, t' => answer = none ∧ t' = Function.update t item.id (some item)
  | .pop, answer, t' => ∃ it, answer = some it ∧ t it.id = some it ∧ (∀ id x, t id = some x → before minFirst x it = false) ∧
      t' = Function.update t it.id none
  | .get id, answer, t' => answer = t id ∧ t' = t
  | .delete id, answer, t' => answer = t id ∧ t' = Function.update t id none
  | .updatePriority id priority, answer, t' => answer = none ∧
      t' = Function.update t id ((t id).map fun it => { it with priority := priority })

/-- The items by their ids. -/
def table (pq : PriorityMemoryQueue) : Table := fun id => pq.items.toList.find? (·.id = id)

theorem table_eq_some {id : UInt64} {it : Item} (h : pq.ids.Nodup) : pq.table id = some it ↔ it ∈ pq.held ∧ it.id = id := by
  constructor
  · intro hf
    exact ⟨List.mem_of_find?_eq_some hf, by simpa using List.find?_some hf⟩
  · rintro ⟨hm, rfl⟩
    cases hf : pq.table it.id with
    | none =>
      have := List.find?_eq_none.mp hf it hm
      simp at this
    | some x =>
      have hx : x.id = it.id := by simpa using List.find?_some hf
      rw [Multiset.inj_on_of_nodup_map h x (List.mem_of_find?_eq_some hf) it hm hx]

theorem table_eq_none {id : UInt64} : pq.table id = none ↔ id ∉ pq.ids := by
  unfold table ids
  rw [List.find?_eq_none, Multiset.mem_map]
  constructor
  · rintro h ⟨it, hm, rfl⟩
    have := h it hm
    simp at this
  · intro h it hm he
    exact h ⟨it, hm, by simpa using he⟩

/-- A table with the right items is the queue's. -/
theorem table_eq {t : Table} (h : pq.ids.Nodup) (ht : ∀ id it, t id = some it ↔ it ∈ pq.held ∧ it.id = id) : pq.table = t := by
  funext id
  exact Option.ext fun it => (table_eq_some h).trans (ht id it).symm

/-! ## Each operation -/

structure Kept (minFirst : Bool) (pq : PriorityMemoryQueue) : Prop where
  direction : pq.minFirst = minFirst
  exact : pq.Exact
  heaped : pq.Heaped

theorem new_kept (minFirst : Bool) : Kept minFirst (new minFirst) := ⟨rfl, new_exact, new_heaped⟩

/-- One entry is written, the others are as they were. -/
theorem table_update {x : Item} {rest : Multiset Item} (hnd : pq.ids.Nodup) (hnd' : pq'.ids.Nodup) (hheld : pq'.held = x ::ₘ rest)
    (hrest : ∀ y, y.id ≠ x.id → (y ∈ rest ↔ y ∈ pq.held)) : pq'.table = Function.update pq.table x.id (some x) := by
  refine table_eq hnd' fun id y => ?_
  unfold ids at hnd'
  rw [hheld, Multiset.map_cons, Multiset.nodup_cons] at hnd'
  rw [hheld, Multiset.mem_cons]
  by_cases hid : id = x.id
  · subst hid
    rw [Function.update_self, Option.some.injEq]
    constructor
    · rintro rfl; exact ⟨Or.inl rfl, rfl⟩
    · rintro ⟨rfl | hy, hid⟩
      · rfl
      · exact absurd (hid ▸ Multiset.mem_map_of_mem _ hy) hnd'.1
  · rw [Function.update_of_ne hid, table_eq_some hnd]
    refine and_congr_left fun hy => ?_
    rw [hrest y (hy ▸ hid)]
    exact ⟨Or.inr, fun h => h.resolve_left fun e => hid (by rw [← hy, e])⟩

theorem Grown.table {it : Item} (h : Grown pq it pq') (he : pq.Exact) (he' : pq'.Exact) :
    pq'.table = Function.update pq.table it.id (some it) :=
  table_update he.nodup he'.nodup h.held fun _ _ => Iff.rfl

theorem Shrunk.table {it : Item} (h : Shrunk pq it pq') (he : pq.Exact) : pq'.table = Function.update pq.table it.id none := by
  refine table_eq (h.exact he).nodup fun id x => ?_
  by_cases hid : id = it.id
  · subst hid
    rw [Function.update_self]
    exact iff_of_false nofun fun ⟨hx, e⟩ => h.notMem he (e ▸ Multiset.mem_map_of_mem _ hx)
  · rw [Function.update_of_ne hid, table_eq_some he.nodup, h.held, Multiset.mem_cons]
    exact and_congr_left fun hx => ⟨fun h => h.resolve_left fun e => hid (by rw [← hx, e]), Or.inr⟩

theorem Replaced.table {it : Item} {v : Int} (h : Replaced pq it v pq') (he : pq.Exact) :
    pq'.table = Function.update pq.table it.id (some { it with priority := v }) := by
  obtain ⟨rest, hold, hnew⟩ := h.held
  refine table_update he.nodup (h.exact he).nodup hnew fun y hy => ?_
  rw [hold, Multiset.mem_cons]
  exact ⟨Or.inr, fun h => h.resolve_left fun e => hy (by rw [e])⟩

theorem Kept.missing {id : UInt64} (h : Kept minFirst pq) (hm : Missing pq id) : pq.table id = none := by
  rw [table_eq_none]
  intro hid
  obtain ⟨it, hit, rfl⟩ := Multiset.mem_map.mp hid
  obtain ⟨k, hk, _⟩ := h.exact.found hit
  unfold Missing at hm
  rw [hm] at hk
  cases hk

theorem Kept.found {id : UInt64} {it : Item} (h : Kept minFirst pq) (hf : Found pq id it) : it.id = id ∧ pq.table id = some it :=
  ⟨hf.id_eq h.exact.toSound, (table_eq_some h.exact.nodup).mpr ⟨hf.mem, hf.id_eq h.exact.toSound⟩⟩

theorem step_spec {op : Op} (h : Kept minFirst pq) (hop : pq.Admits op) :
    Returns (pq.step op) fun r => Kept minFirst r.2 ∧ Does minFirst pq.table op r.1 r.2.table := by
  cases op with
  | push item =>
    have hg := heapPush_grown pq item
    have he := hg.exact h.exact hop
    exact .intro ⟨⟨hg.minFirst.trans h.direction, he, hg.heaped h.heaped⟩, rfl, hg.table h.exact he⟩
  | pop =>
    obtain ⟨it, pq', _, hpop, hs, hfirst⟩ := heapPop_spec hop
    refine .of_eq (congrArg some hpop) ⟨⟨hs.minFirst.trans h.direction, hs.exact h.exact, hs.heaped h.heaped⟩, it,
      rfl, ?_, ?_, hs.table h.exact⟩
    · exact (table_eq_some h.exact.nodup).mpr ⟨hs.held ▸ Multiset.mem_cons_self it _, rfl⟩
    · intro id x hx
      rw [← h.direction]
      exact hfirst h.heaped x ((table_eq_some h.exact.nodup).mp hx).1
  | get id =>
    rcases h.exact.toSound.missing_or_found id with hm | ⟨it, hf⟩
    · exact .of_eq (by rw [step, get_missing hm]; rfl) ⟨h, (h.missing hm).symm, rfl⟩
    · exact .of_eq (by rw [step, get_found hf]; rfl) ⟨h, (h.found hf).2.symm, rfl⟩
  | delete id =>
    rcases h.exact.toSound.missing_or_found id with hm | ⟨it, hf⟩
    · refine .of_eq (delete_missing hm) ⟨h, (h.missing hm).symm, ?_⟩
      rw [← h.missing hm, Function.update_eq_self]
    · obtain ⟨pq', hd, hs⟩ := delete_found hf h.exact.toSound
      obtain ⟨rfl, ht⟩ := h.found hf
      exact .of_eq hd ⟨⟨hs.minFirst.trans h.direction, hs.exact h.exact, hs.heaped h.heaped⟩, ht.symm, hs.table h.exact⟩
  | updatePriority id priority =>
    rcases h.exact.toSound.missing_or_found id with hm | ⟨it, hf⟩
    · refine .of_eq (by rw [step, updatePriority_missing hm]; rfl) ⟨h, rfl, ?_⟩
      rw [h.missing hm, Option.map_none, ← h.missing hm, Function.update_eq_self]
    · obtain ⟨pq', hu, hr, hheap⟩ := updatePriority_found hf priority
      obtain ⟨rfl, ht⟩ := h.found hf
      refine .of_eq (by rw [step, hu]; rfl) ⟨⟨hr.minFirst.trans h.direction, hr.exact h.exact, hheap h.heaped⟩, rfl, ?_⟩
      rw [ht]
      exact hr.table h.exact

/-! ## The sequence of pops -/

/-- The next `n` pops. -/
def pops : Nat → PriorityMemoryQueue → List Item
  | 0, _ => []
  | n + 1, pq =>
    match pq.heapPop with
    | (some it, pq) => it :: pops n pq
    | (none, _) => []

def popAll (pq : PriorityMemoryQueue) : List Item := pops pq.len pq

/-- What the order of the pops goes by. -/
def key (it : Item) : UInt64 × Int := (it.id, it.priority)

theorem before_key {x y : Item} (hxy : before minFirst x y = false) (hyx : before minFirst y x = false) : key x = key y := by
  have hid := before_total hxy hyx
  rw [← Bool.not_eq_true, before_iff] at hxy hyx
  refine Prod.ext hid ?_
  show x.priority = y.priority
  cases minFirst <;> simp only [if_true, if_false, Bool.false_eq_true] at hxy hyx <;> omega

theorem Kept.pops (h : Kept minFirst pq) {n : Nat} (hn : pq.len = n) :
    (pops n pq : Multiset Item) = pq.held ∧ (pops n pq).Pairwise fun x y => before minFirst y x = false := by
  induction n generalizing pq with
  | zero =>
    rw [len_eq_card, Multiset.card_eq_zero] at hn
    exact ⟨hn.symm, .nil⟩
  | succ n ih =>
    obtain ⟨it, pq', _, hpop, hs, hfirst⟩ := heapPop_spec (show 0 < pq.items.size by unfold len at hn; omega)
    have hlen : pq'.len = n := by
      rw [len_eq_card, hs.held, Multiset.card_cons, ← len_eq_card] at hn
      omega
    obtain ⟨hall, hsorted⟩ := ih ⟨hs.minFirst.trans h.direction, hs.exact h.exact, hs.heaped h.heaped⟩ hlen
    rw [PriorityMemoryQueue.pops, hpop]
    refine ⟨by rw [hs.held, ← hall]; rfl, .cons (fun y hy => ?_) hsorted⟩
    rw [← h.direction]
    refine hfirst h.heaped y ?_
    rw [hs.held, ← hall]
    exact Multiset.mem_cons_of_mem hy

theorem Kept.mem_key (h : Kept minFirst pq) {id : UInt64} {v : Int} :
    (id, v) ∈ pq.held.map key ↔ (pq.table id).map (·.priority) = some v := by
  rw [Multiset.mem_map, Option.map_eq_some_iff]
  constructor
  · rintro ⟨it, hit, he⟩
    cases he
    exact ⟨it, (table_eq_some h.exact.nodup).mpr ⟨hit, rfl⟩, rfl⟩
  · rintro ⟨it, hit, rfl⟩
    obtain ⟨hm, rfl⟩ := (table_eq_some h.exact.nodup).mp hit
    exact ⟨it, hm, rfl⟩

theorem Kept.popAll_eq (h : Kept minFirst pq) (h' : Kept minFirst pq')
    (ht : ∀ id, (pq'.table id).map (·.priority) = (pq.table id).map (·.priority)) : pq'.popAll.map key = pq.popAll.map key := by
  obtain ⟨hall, hsorted⟩ := h.pops rfl
  obtain ⟨hall', hsorted'⟩ := h'.pops rfl
  have nodup : ∀ {q : PriorityMemoryQueue}, Kept minFirst q → (q.held.map key).Nodup := fun hq => by
    refine Multiset.Nodup.of_map Prod.fst ?_
    rw [Multiset.map_map]
    exact hq.exact.nodup
  have hkeys : pq'.held.map key = pq.held.map key :=
    (Multiset.Nodup.ext (nodup h') (nodup h)).mpr fun ⟨id, v⟩ => by rw [h'.mem_key, h.mem_key, ht]
  have hperm : (pq'.popAll.map key).Perm (pq.popAll.map key) := by
    rw [← Multiset.coe_eq_coe, ← Multiset.map_coe, ← Multiset.map_coe]
    unfold popAll
    rw [hall, hall', hkeys]
  -- `before` looks at the keys only
  have sorted : ∀ {l : List Item}, l.Pairwise (fun x y => before minFirst y x = false) →
      (l.map key).Pairwise fun j k => before minFirst ⟨k.1, k.2, ""⟩ ⟨j.1, j.2, ""⟩ = false := fun hl => List.pairwise_map.mpr hl
  refine hperm.eq_of_pairwise ?_ (sorted hsorted') (sorted hsorted)
  intro j k _ _ hjk hkj
  exact before_key hkj hjk

/-! ## Runs -/

theorem Runs.kept {events : List (Event PriorityMemoryQueue Op (Option Item))} (hrun : Run step (new minFirst) events pq)
    (hok : ∀ e ∈ events, e.before.Admits e.input) : Kept minFirst pq := by
  refine hrun.keeps (fun e he hs h => ?_) (new_kept minFirst)
  exact ((step_spec h (hok e he)).result hs).1

/-- The indexed heap over a run from the empty queue, in either direction. -/
theorem indexed_heap {events : List (Event PriorityMemoryQueue Op (Option Item))} (hrun : Run step (new minFirst) events pq)
    (hok : ∀ e ∈ events, e.before.Admits e.input) :
    (∀ i, 0 < i → i < pq.len → less minFirst pq i ((i - 1) / 2) = false) ∧
    (∀ id k, pq.idToIndex.lookup id = some k ↔ ∃ it, pq.items[k]? = some it ∧ it.id = id) ∧
    (∀ op, pq.Admits op → ∃ answer pq', pq.step op = some (answer, pq')) ∧
    (∀ e ∈ events, Does minFirst e.before.table e.input e.output e.after.table) ∧
    (∀ (later : List (Event PriorityMemoryQueue Op (Option Item))) (pq' : PriorityMemoryQueue),
      Run step (new minFirst) later pq' →
      (∀ e ∈ later, e.before.Admits e.input) → (∀ id, (pq'.table id).map (·.priority) = (pq.table id).map (·.priority)) →
      pq'.popAll.map key = pq.popAll.map key) := by
  have h := Runs.kept hrun hok
  refine ⟨fun i hi hlt => ?_, fun id k => ⟨h.exact.indexed id k, ?_⟩, fun op hop => ?_, fun e he => ?_,
    fun later pq' hrun' hok' ht => ?_⟩
  · have hheap := h.heaped i hi hlt
    rwa [h.direction] at hheap
  · rintro ⟨it, hit, rfl⟩
    exact h.exact.total k it hit
  · obtain ⟨⟨answer, pq'⟩, hs, _⟩ := step_spec h hop
    exact ⟨answer, pq', hs⟩
  · obtain ⟨earlier, later, rfl⟩ := List.append_of_mem he
    obtain ⟨hbefore, hs, _⟩ := hrun.at_event
    have hkept := Runs.kept hbefore fun e' he' => hok e' (List.mem_append_left _ he')
    exact ((step_spec hkept (hok e he)).result hs).2
  · exact h.popAll_eq (Runs.kept hrun' hok') ht

def mixedOps : List Op :=
  [.push ⟨1, 5, "a"⟩, .push ⟨2, 3, "a"⟩, .push ⟨3, 4, "b"⟩, .updatePriority 1 2, .get 3, .delete 2, .pop]

theorem mixedOps_runs : (exec step (new true) mixedOps).isSome := by decide +kernel

theorem indexed_heap_mixed :
    let r := (exec step (new true) mixedOps).get mixedOps_runs
    ∀ e ∈ r.1, Does true e.before.table e.input e.output e.after.table := by
  intro r
  exact (indexed_heap (Run.of_exec_isSome mixedOps_runs) (by decide +kernel)).2.2.2.1

end Doq.Memory.PriorityMemoryQueue
