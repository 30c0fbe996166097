/-
  Doq.Memory.MemoryQueueProofs — one specification for the three memory queues
  (see `Doq.Memory.MemoryQueue`).

  A memory queue is what it holds ready and what it counts as unacked per group. `Safe` is
  the invariant that survives any groups and ids, and `Inv` the one that good groups and
  fresh ids keep.

  Proved, for every kind of queue: on a `Safe` queue no method panics and each changes the
  ready messages as its name says; on an `Inv` queue `Get`, `Delete` and `UpdatePriority`
  reach exactly the message they name, and `UpdateWeights` and `MarkUnacked` count exactly.
-/

import Doq.Memory.MemoryQueue
import Doq.Memory.RoundRobinReady
import Doq.Memory.WeightedProofs

namespace Doq.Memory

open Lib

namespace DelayedQueue

variable {pq : DelayedQueue}

def held (pq : DelayedQueue) : Multiset Item := pq.queue.held

theorem peek_none (h : pq.queue.peek = none) : pq.queue.len = 0 := by
  unfold PriorityMemoryQueue.peek at h
  unfold PriorityMemoryQueue.len
  have := Array.getElem?_eq_none_iff.mp h
  omega

theorem dequeue_spec (now : Int) :
    Returns (pq.dequeue now) fun r =>
      match r.1 with
      | none => r.2 = pq ∧ ∀ head, pq.queue.peek = some head → now < head.priority
      | some it => pq.queue.peek = some it ∧ it.priority ≤ now ∧ pq.queue.Shrunk it r.2.queue ∧
        (pq.queue.Heaped → ∀ y ∈ pq.held, PriorityMemoryQueue.before pq.queue.minFirst y it = false) := by
  unfold dequeue
  split
  · rename_i hlen
    refine .intro ⟨rfl, fun head hh => ?_⟩
    unfold PriorityMemoryQueue.peek at hh
    have := (Array.getElem?_eq_some_iff.mp hh).1
    unfold PriorityMemoryQueue.len at hlen
    omega
  · rename_i hlen
    have hpos : 0 < pq.queue.items.size := Nat.pos_of_ne_zero hlen
    obtain ⟨x, queue, hx, hpop, hs, hfirst⟩ := PriorityMemoryQueue.heapPop_spec hpos
    refine .bind_eq (a := x) hx ?_
    split
    · rename_i hlt
      refine .intro ⟨rfl, fun head hh => ?_⟩
      have : x = head := Option.some.inj (hx.symm.trans hh)
      rw [← this]; exact hlt
    · rename_i hle
      rw [hpop]
      exact .intro ⟨hx, by simpa using hle, hs, hfirst⟩

end DelayedQueue

namespace MemoryQueue

variable {m : MemoryQueue} {group : String} {id : UInt64}

inductive Kind where
  | delayed
  | fairRoundRobin
  | fairWeighted
  deriving DecidableEq, Repr

def kind : MemoryQueue → Kind
  | delayed _ => .delayed
  | fairRoundRobin _ => .fairRoundRobin
  | fairWeighted _ => .fairWeighted

theorem eq_of_kind {m : MemoryQueue} (h : m.kind = .fairRoundRobin) : ∃ q, m = fairRoundRobin q := by
  cases m with
  | fairRoundRobin q => exact ⟨q, rfl⟩
  | delayed q => cases h
  | fairWeighted q => cases h

/-- The messages a dequeue may return, now or later. -/
def ready : MemoryQueue → Multiset Item
  | delayed q => q.held
  | fairRoundRobin q => q.ready
  | fairWeighted q => q.ready

/-- The group's counter; a delayed queue counts nothing. -/
def unacked : MemoryQueue → String → Int
  | delayed _, _ => 0
  | fairRoundRobin q, group => q.unacked group
  | fairWeighted q, group => q.unacked group

/-- Whether the group has a counter of unacked messages. -/
def counted : MemoryQueue → String → Bool
  | delayed _, _ => false
  | fairRoundRobin q, group => (q.unackedByGroup.lookup group).isSome
  | fairWeighted q, group => (q.unackedByGroup.lookup group).isSome

/-- A limit a Go `int` made from a `uint32` can be. -/
def Limit (maxUnacked : Int) : Prop := 0 ≤ maxUnacked ∧ maxUnacked ≤ maxInt64

def Safe : MemoryQueue → Prop
  | delayed q => q.queue.Sound ∧ q.queue.Heaped ∧ q.queue.minFirst = true
  | fairRoundRobin q => q.Safe
  | fairWeighted q => q.Safe none

/-! ## On any groups and ids -/

theorem Safe.len (h : Safe m) : m.len = m.ready.card := by
  cases m with
  | delayed q => exact congrArg Nat.cast (PriorityMemoryQueue.len_eq_card q.queue)
  | fairRoundRobin q => exact FairRoundRobinQueue.Safe.total h
  | fairWeighted q => exact congrArg Nat.cast (FairWeightedQueue.len_eq_card q)

/-- The message as the queue files it: the empty group of a round-robin queue is the
    default one. -/
theorem Safe.enqueue (h : Safe m) {item : Item} (hi : item.group = group) :
    Returns (m.enqueue group item) fun m' => Safe m' ∧ m'.kind = m.kind ∧
      ∃ it, it.id = item.id ∧ it.priority = item.priority ∧ (group ≠ "" → it = item) ∧ m'.ready = it ::ₘ m.ready := by
  cases m with
  | delayed q =>
    have hgr := PriorityMemoryQueue.heapPush_grown q.queue item
    exact .intro ⟨⟨hgr.sound h.1, hgr.heaped h.2.1, hgr.minFirst.trans h.2.2⟩, rfl, item, rfl, rfl, fun _ => rfl, hgr.held⟩
  | fairRoundRobin q =>
    obtain ⟨h1, h2⟩ := FairRoundRobinQueue.Safe.enqueue h group item
    refine .intro ⟨h1, rfl, FairRoundRobinQueue.filed group item, rfl, rfl, fun hg => ?_, h2⟩
    unfold FairRoundRobinQueue.filed FairRoundRobinQueue.groupOf
    rw [if_neg hg, ← hi]
  | fairWeighted q =>
    exact (FairWeightedQueue.enqueue_spec h fun _ => hi).map fun fq' he => ⟨he.safe, rfl, item, rfl, rfl, fun _ => rfl, he.ready⟩

theorem Safe.dequeue (h : Safe m) (ack : Bool) (seed : UInt64) (now : Int) :
    Returns (m.dequeue ack seed now) fun r => Safe r.2 ∧ r.2.kind = m.kind ∧
      match r.1 with
      | none => r.2.ready = m.ready
      | some it => m.ready = it ::ₘ r.2.ready := by
  cases m with
  | delayed q =>
    refine (DelayedQueue.dequeue_spec now).map fun r hr => ?_
    obtain ⟨it, q'⟩ := r
    cases it with
    | none => obtain ⟨rfl, _⟩ := hr; exact ⟨h, rfl, rfl⟩
    | some it =>
      obtain ⟨_, _, hs, _⟩ := hr
      exact ⟨⟨hs.sound h.1, hs.heaped h.2.1, hs.minFirst.trans h.2.2⟩, rfl, hs.held⟩
  | fairRoundRobin q =>
    refine (FairRoundRobinQueue.Safe.dequeue h ack).map fun r hr => ?_
    obtain ⟨it, q'⟩ := r
    cases it <;> exact ⟨hr.1, rfl, hr.2⟩
  | fairWeighted q =>
    refine (FairWeightedQueue.dequeue_spec h ack seed).map fun r hr => ?_
    obtain ⟨it, q'⟩ := r
    cases it with
    | none => obtain ⟨rfl, _⟩ := hr; exact ⟨h, rfl, rfl⟩
    | some it =>
      obtain ⟨_, _, _, _, rest, hr, he⟩ := hr
      exact ⟨he.safe, rfl, by rw [← he.ready] at hr; exact hr⟩

theorem Safe.get (h : Safe m) (group : String) (id : UInt64) :
    Returns (m.get group id) fun r => ∀ it, r = some it → it.id = id ∧ it ∈ m.ready := by
  cases m with
  | delayed q =>
    rcases h.1.missing_or_found id with hm | ⟨it, hf⟩
    · exact .of_eq (PriorityMemoryQueue.get_missing hm) fun it e => by cases e
    · exact .of_eq (PriorityMemoryQueue.get_found hf) fun it' e => by cases e; exact ⟨hf.id_eq h.1, hf.mem⟩
  | fairRoundRobin q => exact FairRoundRobinQueue.Safe.get h group id
  | fairWeighted q =>
    exact (FairWeightedQueue.get_spec h group id).mono fun r hr it e => ⟨(hr.1 it e).2.2, (hr.1 it e).1⟩

theorem Safe.delete (h : Safe m) (group : String) (id : UInt64) :
    Returns (m.delete group id) fun r => Safe r.2 ∧ r.2.kind = m.kind ∧
      match r.1 with
      | none => r.2 = m
      | some it => it.id = id ∧ m.ready = it ::ₘ r.2.ready := by
  cases m with
  | delayed q =>
    refine Returns.map (P := fun r : Option Item × DelayedQueue => ?_) ?_ ?_
    · exact Safe (delayed r.2) ∧ match r.1 with
        | none => r.2 = q
        | some it => it.id = id ∧ q.held = it ::ₘ r.2.held
    · unfold DelayedQueue.delete
      rcases h.1.missing_or_found id with hm | ⟨it, hf⟩
      · exact .bind_eq (PriorityMemoryQueue.delete_missing hm) (.intro ⟨h, rfl⟩)
      · obtain ⟨queue, hd, hs⟩ := PriorityMemoryQueue.delete_found hf h.1
        exact .bind_eq hd (.intro ⟨⟨hs.sound h.1, hs.heaped h.2.1, hs.minFirst.trans h.2.2⟩, hf.id_eq h.1, hs.held⟩)
    · intro r hr
      obtain ⟨it, q'⟩ := r
      cases it with
      | none => exact ⟨hr.1, rfl, congrArg delayed hr.2⟩
      | some it => exact ⟨hr.1, rfl, hr.2⟩
  | fairRoundRobin q =>
    refine (FairRoundRobinQueue.Safe.delete h group id).map fun r hr => ?_
    obtain ⟨it, q'⟩ := r
    cases it with
    | none => exact ⟨hr.1, rfl, congrArg fairRoundRobin hr.2⟩
    | some it => exact ⟨hr.1, rfl, hr.2⟩
  | fairWeighted q =>
    refine (FairWeightedQueue.delete_spec h group id).map fun r hr => ?_
    obtain ⟨it, q'⟩ := r
    cases it with
    | none => obtain ⟨rfl, _⟩ := hr; exact ⟨h, rfl, rfl⟩
    | some it =>
      obtain ⟨hh, rest, hr, he⟩ := hr
      exact ⟨he.safe, rfl, hh.2.2, by rw [← he.ready] at hr; exact hr⟩

theorem Safe.updatePriority (h : Safe m) (group : String) (id : UInt64) (v : Int) :
    Returns (m.updatePriority group id v) fun m' => Safe m' ∧ m'.kind = m.kind ∧
      (m'.ready = m.ready ∨ Repriced m.ready m'.ready id v) := by
  cases m with
  | delayed q =>
    refine Returns.map (P := fun q' => Safe (delayed q') ∧ (q'.held = q.held ∨ Repriced q.held q'.held id v)) ?_
      fun q' hq' => ⟨hq'.1, rfl, hq'.2⟩
    unfold DelayedQueue.updatePriority
    rcases h.1.missing_or_found id with hm | ⟨it, hf⟩
    · exact .bind_eq (PriorityMemoryQueue.updatePriority_missing hm v) (.intro ⟨h, Or.inl rfl⟩)
    · obtain ⟨queue, hu, hr, hh⟩ := PriorityMemoryQueue.updatePriority_found hf v
      obtain ⟨rest, h1, h2⟩ := hr.held
      exact .bind_eq hu (.intro ⟨⟨hr.sound h.1, hh h.2.1, hr.minFirst.trans h.2.2⟩, Or.inr ⟨it, rest, hf.id_eq h.1, h1, h2⟩⟩)
  | fairRoundRobin q => exact (FairRoundRobinQueue.Safe.updatePriority h group id v).map fun q' hq' => ⟨hq'.1, rfl, hq'.2⟩
  | fairWeighted q =>
    refine (FairWeightedQueue.updatePriority_spec h group id v).map fun q' hq' => ⟨hq'.1.safe, rfl, ?_⟩
    rcases hq'.2 with ⟨_, hr⟩ | ⟨it, rest, hh, h1, h2⟩
    · exact Or.inl hr
    · exact Or.inr ⟨it, rest, hh.2.2, h1, h2⟩

/-- The write through the pointer, and `UpdatePriority` after it, are `UpdatePriority` alone. -/
theorem itemUpdatePriority_updatePriority (m : MemoryQueue) (group : String) (id : UInt64) (v : Int) :
    (m.itemUpdatePriority group id v >>= fun m => m.updatePriority group id v) = m.updatePriority group id v := by
  cases m with
  | delayed q =>
    simp only [itemUpdatePriority, MemoryQueue.updatePriority, DelayedQueue.itemUpdatePriority, DelayedQueue.updatePriority,
      Option.bind_eq_bind, Option.bind_some, PriorityMemoryQueue.updatePriority_itemUpdatePriority]
  | fairRoundRobin q =>
    have := FairRoundRobinQueue.itemUpdatePriority_updatePriority q group id v
    simp only [Option.bind_eq_bind] at this
    simp only [itemUpdatePriority, MemoryQueue.updatePriority, ← this, Option.bind_eq_bind]
    cases q.itemUpdatePriority group id v <;> rfl
  | fairWeighted q =>
    have := FairWeightedQueue.itemUpdatePriority_updatePriority q group id v
    simp only [Option.bind_eq_bind] at this
    simp only [itemUpdatePriority, MemoryQueue.updatePriority, ← this, Option.bind_eq_bind]
    cases q.itemUpdatePriority group id v <;> rfl

theorem Safe.updateWeights (h : Safe m) (group : String) :
    Returns (m.updateWeights group) fun m' => Safe m' ∧ m'.kind = m.kind ∧ m'.ready = m.ready := by
  cases m with
  | delayed q => exact .intro ⟨h, rfl, rfl⟩
  | fairRoundRobin q =>
    obtain ⟨h1, h2⟩ := FairRoundRobinQueue.Safe.updateWeights h group
    exact .intro ⟨h1, rfl, h2⟩
  | fairWeighted q => exact (FairWeightedQueue.updateWeights_spec h group).map fun q' he => ⟨he.safe, rfl, he.ready⟩

theorem Safe.markUnacked (h : Safe m) (group : String) :
    Returns (m.markUnacked group) fun m' => Safe m' ∧ m'.kind = m.kind ∧ m'.ready = m.ready := by
  cases m with
  | delayed q => exact .intro ⟨h, rfl, rfl⟩
  | fairRoundRobin q =>
    obtain ⟨h1, h2⟩ := FairRoundRobinQueue.Safe.markUnacked h group
    exact .intro ⟨h1, rfl, h2⟩
  | fairWeighted q => exact (FairWeightedQueue.markUnacked_spec h group).map fun q' he => ⟨he.safe, rfl, he.ready⟩

theorem Safe.updateMaxUnacked (h : Safe m) {maxUnacked : Int} (hm : Limit maxUnacked) :
    Safe (m.updateMaxUnacked maxUnacked) ∧ (m.updateMaxUnacked maxUnacked).kind = m.kind ∧
      (m.updateMaxUnacked maxUnacked).ready = m.ready := by
  cases m with
  | delayed q => exact ⟨h, rfl, rfl⟩
  | fairRoundRobin q =>
    obtain ⟨h1, h2⟩ := FairRoundRobinQueue.Safe.updateMaxUnacked h maxUnacked
    exact ⟨h1, rfl, h2⟩
  | fairWeighted q => exact ⟨(FairWeightedQueue.updateMaxUnacked_spec h hm).1, rfl, rfl⟩

/-! ## On good groups and fresh ids -/

def Inv : MemoryQueue → Prop
  | delayed q => q.queue.Exact ∧ q.queue.Heaped ∧ q.queue.minFirst = true
  | fairRoundRobin q => q.Inv True
  | fairWeighted q => q.Safe none ∧ q.Full none

/-- The groups a kind of queue files under their own name. -/
def Accepts : Kind → String → Prop
  | .fairRoundRobin, group => FairRoundRobinQueue.GoodGroup group
  | _, _ => True

theorem Inv.safe (h : Inv m) : Safe m := by
  cases m with
  | delayed q => exact ⟨h.1.toSound, h.2⟩
  | fairRoundRobin q => exact FairRoundRobinQueue.Inv.safe h
  | fairWeighted q => exact h.1

/-- The queue after a method: what it holds ready, and what it counts. -/
structure Result (m m' : MemoryQueue) (ready' : Multiset Item) (unacked' : String → Int) : Prop where
  inv : Inv m'
  kind : m'.kind = m.kind
  ready : m'.ready = ready'
  unacked : ∀ g, m'.unacked g = unacked' g

/-- One more unacked message in a group, where the kind of queue counts them. -/
def charged (m : MemoryQueue) (ack : Bool) (group g : String) : Int :=
  m.unacked g + if m.kind ≠ .delayed ∧ ack = false ∧ g = group then 1 else 0

theorem unacked_of_eq {q q' : FairRoundRobinQueue} (h : q'.unackedByGroup = q.unackedByGroup) (g : String) :
    (fairRoundRobin q').unacked g = (fairRoundRobin q).unacked g := by
  show FairRoundRobinQueue.unacked _ g = q.unacked g
  unfold FairRoundRobinQueue.unacked
  rw [h]

theorem Inv.enqueue (h : Inv m) (hg : Accepts m.kind group) {item : Item} (hi : item.group = group)
    (hfresh : ∀ it ∈ m.ready, it.id ≠ item.id) :
    Returns (m.enqueue group item) fun m' => Result m m' (item ::ₘ m.ready) m.unacked := by
  cases m with
  | delayed q =>
    have hgr := PriorityMemoryQueue.heapPush_grown q.queue item
    refine .intro ⟨⟨hgr.exact h.1 fun hmem => ?_, hgr.heaped h.2.1, hgr.minFirst.trans h.2.2⟩, rfl, hgr.held, fun _ => rfl⟩
    obtain ⟨it, hit, hid⟩ := Multiset.mem_map.mp hmem
    exact hfresh it hit hid
  | fairRoundRobin q =>
    obtain ⟨h1, h2, h3, _⟩ := FairRoundRobinQueue.Inv.enqueue h hg fun _ => hfresh
    exact .intro ⟨h1, rfl, h2.trans (by rw [← hi]; rfl), unacked_of_eq h3⟩
  | fairWeighted q =>
    exact (FairWeightedQueue.enqueue_spec h.1 fun _ => hi).map fun q' he =>
      ⟨⟨he.safe, he.full h.2 hfresh⟩, rfl, he.ready, he.unacked h.2 hfresh⟩

theorem charge_unacked (q : FairRoundRobinQueue) {q' : FairRoundRobinQueue} {ack : Bool}
    (hu : q'.unackedByGroup = (q.charge ack group).unackedByGroup) (g : String) :
    q'.unacked g = (fairRoundRobin q).charged ack group g := by
  unfold charged FairRoundRobinQueue.unacked
  rw [hu]
  show _ = q.unacked g + _
  unfold FairRoundRobinQueue.charge
  cases ack
  · simp only [Bool.false_eq_true, if_false, FinMap.lookup_insert_eq]
    split
    · rename_i e; simp [e, kind]
    · rename_i e; simp [e, FairRoundRobinQueue.unacked]
  · simp [FairRoundRobinQueue.unacked]

theorem Inv.dequeue (h : Inv m) (ack : Bool) (seed : UInt64) (now : Int) :
    Returns (m.dequeue ack seed now) fun r =>
      match r.1 with
      | none => Result m r.2 m.ready m.unacked
      | some it => ∃ rest, m.ready = it ::ₘ rest ∧ Result m r.2 rest (m.charged ack it.group) := by
  cases m with
  | delayed q =>
    refine (DelayedQueue.dequeue_spec now).map fun r hr => ?_
    obtain ⟨it, q'⟩ := r
    cases it with
    | none => obtain ⟨rfl, _⟩ := hr; exact ⟨h, rfl, rfl, fun _ => rfl⟩
    | some it =>
      obtain ⟨_, _, hs, _⟩ := hr
      exact ⟨_, hs.held, ⟨hs.exact h.1, hs.heaped h.2.1, hs.minFirst.trans h.2.2⟩, rfl, rfl, fun _ => rfl⟩
  | fairRoundRobin q =>
    refine (FairRoundRobinQueue.Inv.dequeue h ack).map fun r hr => ?_
    obtain ⟨it, q'⟩ := r
    cases it with
    | none =>
      obtain ⟨h1, _, h2, h3⟩ := hr
      exact ⟨h1, rfl, h2, unacked_of_eq h3⟩
    | some it =>
      obtain ⟨h1, _, h2, h3⟩ := hr
      exact ⟨_, h2, h1, rfl, rfl, charge_unacked q h3⟩
  | fairWeighted q =>
    refine (FairWeightedQueue.dequeue_spec h.1 ack seed).map fun r hr => ?_
    obtain ⟨it, q'⟩ := r
    cases it with
    | none => obtain ⟨rfl, _⟩ := hr; exact ⟨h, rfl, rfl, fun _ => rfl⟩
    | some it =>
      obtain ⟨_, _, _, _, rest, hr, he⟩ := hr
      refine ⟨rest, hr, ⟨he.safe, he.full h.2 trivial⟩, rfl, he.ready, fun g => (he.unacked h.2 trivial g).trans ?_⟩
      simp [FairWeightedQueue.charged, charged, kind, unacked]

theorem Inv.get_ready (h : Inv m) {it : Item} (hit : it ∈ m.ready) : m.get it.group it.id = some (some it) := by
  cases m with
  | delayed q => exact PriorityMemoryQueue.get_found (h.1.found hit)
  | fairRoundRobin q =>
    obtain ⟨r, e, hr⟩ := FairRoundRobinQueue.Inv.get h trivial it.group it.id
    exact e.trans (congrArg some ((hr it).mpr ⟨hit, rfl, rfl⟩))
  | fairWeighted q =>
    obtain ⟨r, e, hr⟩ := FairWeightedQueue.get_spec h.1 it.group it.id
    exact e.trans (congrArg some (hr.2 h.2 it ⟨hit, rfl, rfl⟩))

theorem Safe.get_none (h : Safe m) (hn : ∀ it ∈ m.ready, it.id ≠ id) (group : String) : m.get group id = some none := by
  obtain ⟨r, e, hr⟩ := h.get group id
  cases r with
  | none => exact e
  | some it => exact absurd (hr it rfl).1 (hn it (hr it rfl).2)

theorem Safe.delete_none (h : Safe m) (hn : ∀ it ∈ m.ready, it.id ≠ id) (group : String) :
    m.delete group id = some (none, m) := by
  obtain ⟨⟨it, m'⟩, e, _, _, hr⟩ := h.delete group id
  cases it with
  | none => have hm : m' = m := hr; rw [e, hm]
  | some it =>
    refine absurd hr.1 (hn it ?_)
    rw [hr.2]; exact Multiset.mem_cons_self _ _

theorem Inv.delete_ready (h : Inv m) {it : Item} (hit : it ∈ m.ready) :
    Returns (m.delete it.group it.id) fun r => r.1 = some it ∧ ∃ rest, m.ready = it ::ₘ rest ∧ Result m r.2 rest m.unacked := by
  cases m with
  | delayed q =>
    obtain ⟨queue, hd, hs⟩ := PriorityMemoryQueue.delete_found (h.1.found hit) h.1.toSound
    refine Returns.of_eq (a := (some it, delayed ⟨queue⟩)) ?_
      ⟨rfl, _, hs.held, ⟨hs.exact h.1, hs.heaped h.2.1, hs.minFirst.trans h.2.2⟩,
      rfl, rfl, fun _ => rfl⟩
    simp only [MemoryQueue.delete, DelayedQueue.delete, hd, Option.bind_eq_bind, Option.bind_some]
    rfl
  | fairRoundRobin q =>
    refine (FairRoundRobinQueue.Inv.delete h it.group it.id).map fun r hr => ?_
    obtain ⟨x, q'⟩ := r
    obtain ⟨h1, _, h2, h3⟩ := hr
    cases x with
    | none => exact absurd ⟨hit, rfl, rfl⟩ (h3.2 trivial it)
    | some x =>
      have hx : x = it := FairRoundRobinQueue.Inv.holds_unique h trivial h3.1 ⟨hit, rfl, rfl⟩
      subst hx
      exact ⟨rfl, _, h3.2, h1, rfl, rfl, unacked_of_eq h2⟩
  | fairWeighted q =>
    refine (FairWeightedQueue.delete_spec h.1 it.group it.id).map fun r hr => ?_
    obtain ⟨x, q'⟩ := r
    cases x with
    | none => exact absurd ⟨hit, rfl, rfl⟩ (hr.2 h.2 it)
    | some x =>
      obtain ⟨hh, rest, hr, he⟩ := hr
      have hx : x = it := FairWeightedQueue.holds_unique h.1 h.2 hh ⟨hit, rfl, rfl⟩
      subst hx
      exact ⟨rfl, rest, hr, ⟨he.safe, he.full h.2 trivial⟩, rfl, he.ready, he.unacked h.2 trivial⟩

theorem Inv.updatePriority_none (h : Inv m) (hn : ∀ it ∈ m.ready, it.id ≠ id) (group : String) (v : Int) :
    Returns (m.updatePriority group id v) fun m' => Result m m' m.ready m.unacked := by
  cases m with
  | delayed q =>
    have hm : q.queue.Missing id := by
      rcases h.1.toSound.missing_or_found id with hm | ⟨it, hf⟩
      · exact hm
      · exact absurd (hf.id_eq h.1.toSound) (hn it hf.mem)
    refine Returns.of_eq (a := delayed q) ?_ ⟨h, rfl, rfl, fun _ => rfl⟩
    simp only [MemoryQueue.updatePriority, DelayedQueue.updatePriority, PriorityMemoryQueue.updatePriority_missing hm,
      Option.bind_eq_bind, Option.bind_some]
    rfl
  | fairRoundRobin q =>
    refine (FairRoundRobinQueue.Inv.updatePriority h group id v).map fun q' hq' => ?_
    obtain ⟨h1, _, h2, h3⟩ := hq'
    rcases h3 with ⟨_, hr⟩ | ⟨it, rest, hh, hr, _⟩
    · exact ⟨h1, rfl, hr, unacked_of_eq h2⟩
    · exact absurd hh.2.2 (hn it hh.1)
  | fairWeighted q =>
    refine (FairWeightedQueue.updatePriority_spec h.1 group id v).map fun q' hq' => ?_
    obtain ⟨he, h3⟩ := hq'
    rcases h3 with ⟨_, hr⟩ | ⟨it, rest, hh, hr, _⟩
    · exact ⟨⟨he.safe, he.full h.2 trivial⟩, rfl, hr, he.unacked h.2 trivial⟩
    · exact absurd hh.2.2 (hn it hh.1)

theorem Inv.updatePriority_ready (h : Inv m) {it : Item} (hit : it ∈ m.ready) (v : Int) :
    Returns (m.updatePriority it.group it.id v) fun m' =>
      ∃ rest, m.ready = it ::ₘ rest ∧ Result m m' ({ it with priority := v } ::ₘ rest) m.unacked := by
  cases m with
  | delayed q =>
    obtain ⟨queue, hu, hr, hh⟩ := PriorityMemoryQueue.updatePriority_found (h.1.found hit) v
    obtain ⟨rest, h1, h2⟩ := hr.held
    refine Returns.of_eq (a := delayed ⟨queue⟩) ?_
      ⟨rest, h1, ⟨hr.exact h.1, hh h.2.1, hr.minFirst.trans h.2.2⟩, rfl, h2, fun _ => rfl⟩
    simp only [MemoryQueue.updatePriority, DelayedQueue.updatePriority, hu, Option.bind_eq_bind, Option.bind_some]
    rfl
  | fairRoundRobin q =>
    refine (FairRoundRobinQueue.Inv.updatePriority h it.group it.id v).map fun q' hq' => ?_
    obtain ⟨h1, _, h2, h3⟩ := hq'
    rcases h3 with ⟨hn, _⟩ | ⟨x, rest, hh, hr, hr'⟩
    · exact absurd ⟨hit, rfl, rfl⟩ (hn trivial it)
    · have hx : x = it := FairRoundRobinQueue.Inv.holds_unique h trivial hh ⟨hit, rfl, rfl⟩
      subst hx
      exact ⟨rest, hr, h1, rfl, hr', unacked_of_eq h2⟩
  | fairWeighted q =>
    refine (FairWeightedQueue.updatePriority_spec h.1 it.group it.id v).map fun q' hq' => ?_
    obtain ⟨he, h3⟩ := hq'
    rcases h3 with ⟨hn, _⟩ | ⟨x, rest, hh, hr, hr'⟩
    · exact absurd ⟨hit, rfl, rfl⟩ (hn h.2 it)
    · have hx : x = it := FairWeightedQueue.holds_unique h.1 h.2 hh ⟨hit, rfl, rfl⟩
      subst hx
      exact ⟨rest, hr, ⟨he.safe, he.full h.2 trivial⟩, rfl, hr', he.unacked h.2 trivial⟩

/-- A release matched by an earlier delivery. -/
theorem Inv.updateWeights (h : Inv m) (hp : m.kind = .delayed ∨ 0 < m.unacked group) :
    Returns (m.updateWeights group) fun m' =>
      Result m m' m.ready fun g => m.unacked g - if m.kind ≠ .delayed ∧ g = group then 1 else 0 := by
  cases m with
  | delayed q => exact .intro ⟨h, rfl, rfl, fun g => by simp [kind]⟩
  | fairRoundRobin q =>
    obtain ⟨h1, h2, _, h3⟩ := FairRoundRobinQueue.Inv.updateWeights h group
    refine .intro ⟨h1, rfl, h2, fun g => (h3 g).trans ?_⟩
    have hpos : 0 < q.unacked group := hp.resolve_left (by simp [kind])
    show _ = q.unacked g - _
    by_cases e : g = group
    · subst e; simp [kind]; omega
    · simp [e]
  | fairWeighted q =>
    have hpos : 0 < q.unacked group := hp.resolve_left (by simp [kind])
    refine (FairWeightedQueue.updateWeights_spec h.1 group).map fun q' he =>
      ⟨⟨he.safe, he.full h.2 hpos⟩, rfl, he.ready, fun g => (he.unacked h.2 hpos g).trans ?_⟩
    simp [kind, unacked]

theorem Inv.markUnacked (h : Inv m) (group : String) :
    Returns (m.markUnacked group) fun m' => Result m m' m.ready (m.charged false group) := by
  cases m with
  | delayed q => exact .intro ⟨h, rfl, rfl, fun g => by simp [charged, kind, unacked]⟩
  | fairRoundRobin q =>
    obtain ⟨h1, h2, _, h3⟩ := FairRoundRobinQueue.Inv.markUnacked h group
    exact .intro ⟨h1, rfl, h2, charge_unacked q h3⟩
  | fairWeighted q =>
    refine (FairWeightedQueue.markUnacked_spec h.1 group).map fun q' he =>
      ⟨⟨he.safe, he.full h.2 trivial⟩, rfl, he.ready, fun g => (he.unacked h.2 trivial g).trans ?_⟩
    simp [FairWeightedQueue.charged, charged, kind, unacked]

theorem Inv.updateMaxUnacked (h : Inv m) {maxUnacked : Int} (hm : Limit maxUnacked) :
    Result m (m.updateMaxUnacked maxUnacked) m.ready m.unacked := by
  cases m with
  | delayed q => exact ⟨h, rfl, rfl, fun _ => rfl⟩
  | fairRoundRobin q =>
    obtain ⟨h1, h2, _, h3⟩ := FairRoundRobinQueue.Inv.updateMaxUnacked h maxUnacked
    exact ⟨h1, rfl, h2, unacked_of_eq h3⟩
  | fairWeighted q =>
    obtain ⟨h1, h2⟩ := FairWeightedQueue.updateMaxUnacked_spec h.1 hm
    exact ⟨⟨h1, h2 h.2⟩, rfl, rfl, fun _ => rfl⟩

/-! ## What every method keeps -/

/-- The methods that messages go through keep the property. -/
structure Closed (P : MemoryQueue → Prop) : Prop where
  enqueue : ∀ {m m' : MemoryQueue} {group : String} {item : Item}, Inv m → P m → item.group = group →
    m.enqueue group item = some m' → P m'
  dequeue : ∀ {m m' : MemoryQueue} {ack : Bool} {seed : UInt64} {now : Int} {it : Option Item}, Inv m → P m →
    m.dequeue ack seed now = some (it, m') → P m'
  delete : ∀ {m m' : MemoryQueue} {group : String} {id : UInt64} {it : Option Item}, Inv m → P m →
    m.delete group id = some (it, m') → P m'
  updatePriority : ∀ {m m' : MemoryQueue} {group : String} {id : UInt64} {v : Int}, Inv m → P m →
    m.updatePriority group id v = some m' → P m'
  updateWeights : ∀ {m m' : MemoryQueue} {group : String}, Inv m → P m → m.updateWeights group = some m' → P m'
  markUnacked : ∀ {m m' : MemoryQueue} {group : String}, Inv m → P m → m.markUnacked group = some m' → P m'

theorem Closed.and {P Q : MemoryQueue → Prop} (h : Closed P) (h' : Closed Q) : Closed fun m => P m ∧ Q m where
  enqueue hinv hm hi he := ⟨h.enqueue hinv hm.1 hi he, h'.enqueue hinv hm.2 hi he⟩
  dequeue hinv hm he := ⟨h.dequeue hinv hm.1 he, h'.dequeue hinv hm.2 he⟩
  delete hinv hm he := ⟨h.delete hinv hm.1 he, h'.delete hinv hm.2 he⟩
  updatePriority hinv hm he := ⟨h.updatePriority hinv hm.1 he, h'.updatePriority hinv hm.2 he⟩
  updateWeights hinv hm he := ⟨h.updateWeights hinv hm.1 he, h'.updateWeights hinv hm.2 he⟩
  markUnacked hinv hm he := ⟨h.markUnacked hinv hm.1 he, h'.markUnacked hinv hm.2 he⟩

/-- A relation between the queue before and after each method. -/
structure Steps (R : MemoryQueue → MemoryQueue → Prop) : Prop where
  enqueue : ∀ {m m' : MemoryQueue} {group : String} {item : Item}, Inv m → item.group = group →
    m.enqueue group item = some m' → R m m'
  dequeue : ∀ {m m' : MemoryQueue} {ack : Bool} {seed : UInt64} {now : Int} {it : Option Item}, Inv m →
    m.dequeue ack seed now = some (it, m') → R m m'
  delete : ∀ {m m' : MemoryQueue} {group : String} {id : UInt64} {it : Option Item}, Inv m →
    m.delete group id = some (it, m') → R m m'
  updatePriority : ∀ {m m' : MemoryQueue} {group : String} {id : UInt64} {v : Int}, Inv m →
    m.updatePriority group id v = some m' → R m m'
  updateWeights : ∀ {m m' : MemoryQueue} {group : String}, Inv m → m.updateWeights group = some m' → R m m'
  markUnacked : ∀ {m m' : MemoryQueue} {group : String}, Inv m → m.markUnacked group = some m' → R m m'

theorem Steps.closed {R : MemoryQueue → MemoryQueue → Prop} {P : MemoryQueue → Prop} (h : Steps R)
    (hP : ∀ {m m' : MemoryQueue}, R m m' → P m → P m') : Closed P where
  enqueue hinv hm hi he := hP (h.enqueue hinv hi he) hm
  dequeue hinv hm he := hP (h.dequeue hinv he) hm
  delete hinv hm he := hP (h.delete hinv he) hm
  updatePriority hinv hm he := hP (h.updatePriority hinv he) hm
  updateWeights hinv hm he := hP (h.updateWeights hinv he) hm
  markUnacked hinv hm he := hP (h.markUnacked hinv he) hm

theorem kind_steps : Steps fun m m' => m'.kind = m.kind where
  enqueue h hi he := ((h.safe.enqueue hi).result he).2.1
  dequeue {_ _ ack seed now _} h he := ((h.safe.dequeue ack seed now).result he).2.1
  delete {_ _ group id _} h he := ((h.safe.delete group id).result he).2.1
  updatePriority {_ _ group id v} h he := ((h.safe.updatePriority group id v).result he).2.1
  updateWeights {_ _ group} h he := ((h.safe.updateWeights group).result he).2.1
  markUnacked {_ _ group} h he := ((h.safe.markUnacked group).result he).2.1

theorem kind_closed (k : Kind) : Closed fun m => m.kind = k := kind_steps.closed fun hs hk => hs.trans hk

end MemoryQueue

end Doq.Memory
