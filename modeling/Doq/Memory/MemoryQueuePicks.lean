/-
  Doq.Memory.MemoryQueuePicks — which message a dequeue takes, and when there is one to take
  (see `Doq.Memory.MemoryQueueProofs`).

  A dequeue takes the first message of a heap: of the only one in a delayed queue, of the
  chosen group's in a fair one. A delayed queue has nothing to give before the scheduled time
  of its head. A fair queue with nothing in flight always has, if its groups have names: a
  weighted one takes the empty name for no group at all.
-/

import Doq.Memory.MemoryQueueProofs
import Doq.Memory.RoundRobinGroups
import Doq.Memory.WeightedFairness

namespace Doq.Memory

open Lib

namespace MemoryQueue

variable {m m' : MemoryQueue} {ack : Bool} {seed : UInt64} {now : Int} {it y : Item}

/-! ## The limit -/

/-- The limit in the queue's own field; a delayed queue has none. -/
def maxUnacked : MemoryQueue → Int
  | delayed _ => 0
  | fairRoundRobin q => q.maxUnacked
  | fairWeighted q => q.maxUnacked

/-- The weights of a weighted queue are up to date. -/
def Synced : MemoryQueue → Prop
  | fairWeighted q => q.Synced none
  | _ => True

/-- What no method but `UpdateMaxUnacked` changes: the limit stays, and so do weights that are
    up to date. -/
structure Settled (m m' : MemoryQueue) : Prop where
  max : m'.maxUnacked = m.maxUnacked
  synced : m.Synced → m'.Synced

theorem Settled.weighted {own : Prop} {q q' : FairWeightedQueue} {ready : Multiset Item} {unacked : String → Int} {proper : Prop}
    (h : FairWeightedQueue.Effect own q q' ready unacked proper) : Settled (fairWeighted q) (fairWeighted q') :=
  ⟨h.max, h.synced⟩

theorem Settled.fair {q q' : FairRoundRobinQueue} (h : q'.maxUnacked = q.maxUnacked) :
    Settled (fairRoundRobin q) (fairRoundRobin q') :=
  ⟨h, fun _ => trivial⟩

theorem Settled.refl (m : MemoryQueue) : Settled m m := ⟨rfl, id⟩

theorem Settled.delayed (q q' : DelayedQueue) : Settled (delayed q) (delayed q') := ⟨rfl, id⟩

theorem settled_steps : Steps Settled where
  enqueue {m m' group item} h hi he := by
    cases m with
    | delayed q => cases he; exact .delayed ..
    | fairRoundRobin q =>
      obtain rfl : fairRoundRobin (q.enqueue group item) = m' := Option.some.inj he
      exact .fair (FairRoundRobinQueue.enqueue_fields q group item).2.2.1
    | fairWeighted q =>
      obtain ⟨q', hq', rfl⟩ := Option.map_eq_some_iff.mp he
      exact .weighted ((FairWeightedQueue.enqueue_spec h.1 fun _ => hi).result hq')
  dequeue {m m' ack seed now it} h he := by
    cases m with
    | delayed q =>
      obtain ⟨⟨_, q'⟩, _, hr⟩ := Option.map_eq_some_iff.mp he
      cases hr
      exact .delayed ..
    | fairRoundRobin q =>
      obtain ⟨⟨_, q'⟩, hq', hr⟩ := Option.map_eq_some_iff.mp he
      cases hr
      exact .fair ((FairRoundRobinQueue.Inv.dequeue h ack).result hq').2.1
    | fairWeighted q =>
      obtain ⟨⟨item, q'⟩, hq', hr⟩ := Option.map_eq_some_iff.mp he
      cases hr
      have hspec := (FairWeightedQueue.dequeue_spec h.1 ack seed).result hq'
      cases item with
      | none => obtain ⟨rfl, _⟩ := hspec; exact .refl _
      | some item =>
        obtain ⟨_, _, _, _, _, _, heff⟩ := hspec
        exact .weighted heff
  delete {m m' group id it} h he := by
    cases m with
    | delayed q =>
      obtain ⟨⟨_, q'⟩, _, hr⟩ := Option.map_eq_some_iff.mp he
      cases hr
      exact .delayed ..
    | fairRoundRobin q =>
      obtain ⟨⟨_, q'⟩, hq', hr⟩ := Option.map_eq_some_iff.mp he
      cases hr
      exact .fair ((FairRoundRobinQueue.Inv.delete h group id).result hq').2.1
    | fairWeighted q =>
      obtain ⟨⟨item, q'⟩, hq', hr⟩ := Option.map_eq_some_iff.mp he
      cases hr
      have hspec := (FairWeightedQueue.delete_spec h.1 group id).result hq'
      cases item with
      | none => obtain ⟨rfl, _⟩ := hspec; exact .refl _
      | some item =>
        obtain ⟨_, _, _, heff⟩ := hspec
        exact .weighted heff
  updatePriority {m m' group id v} h he := by
    cases m with
    | delayed q =>
      obtain ⟨q', _, rfl⟩ := Option.map_eq_some_iff.mp he
      exact .delayed ..
    | fairRoundRobin q =>
      obtain ⟨q', hq', rfl⟩ := Option.map_eq_some_iff.mp he
      exact .fair ((FairRoundRobinQueue.Inv.updatePriority h group id v).result hq').2.1
    | fairWeighted q =>
      obtain ⟨q', hq', rfl⟩ := Option.map_eq_some_iff.mp he
      exact .weighted ((FairWeightedQueue.updatePriority_spec h.1 group id v).result hq').1
  updateWeights {m m' group} h he := by
    cases m with
    | delayed q => cases he; exact .refl _
    | fairRoundRobin q => cases he; exact .fair (FairRoundRobinQueue.Inv.updateWeights h group).2.2.1
    | fairWeighted q =>
      obtain ⟨q', hq', rfl⟩ := Option.map_eq_some_iff.mp he
      exact .weighted ((FairWeightedQueue.updateWeights_spec h.1 group).result hq')
  markUnacked {m m' group} h he := by
    cases m with
    | delayed q => cases he; exact .refl _
    | fairRoundRobin q => cases he; exact .fair (FairRoundRobinQueue.Inv.markUnacked h group).2.2.1
    | fairWeighted q =>
      obtain ⟨q', hq', rfl⟩ := Option.map_eq_some_iff.mp he
      exact .weighted ((FairWeightedQueue.markUnacked_spec h.1 group).result hq')

theorem maxUnacked_closed (limit : Int) : Closed fun m => m.maxUnacked = limit :=
  settled_steps.closed fun hs hm => hs.max.trans hm

theorem synced_closed : Closed Synced := settled_steps.closed fun hs => hs.synced

/-! ## With nothing in flight -/

theorem Inv.delivers (h : Inv m) (hkind : m.kind ≠ .delayed) (hmax : m.kind = .fairRoundRobin → 0 < m.maxUnacked)
    (hnamed : ∀ it ∈ m.ready, it.group ≠ "") (hready : m.ready ≠ 0) (hidle : ∀ g, m.unacked g = 0) (ack : Bool)
    (seed : UInt64) (now : Int) :
    ∃ it m', m.dequeue ack seed now = some (some it, m') := by
  cases m with
  | delayed q => exact absurd rfl hkind
  | fairRoundRobin q =>
    have h : q.Inv True := h
    obtain ⟨it, q', hd⟩ := (h.safe.dequeue_iff ack).mpr (h.loosen.serves_idle hready hidle (hmax rfl))
    exact ⟨it, fairRoundRobin q', by simp [MemoryQueue.dequeue, hd]⟩
  | fairWeighted q =>
    obtain ⟨it, hit⟩ := Multiset.exists_mem_of_ne_zero hready
    obtain ⟨⟨item, q'⟩, hd, hr⟩ := FairWeightedQueue.dequeue_spec h.1 ack seed
    have hne := FairWeightedQueue.sample_idle h.1 h.2 hnamed hit (hidle it.group) seed
    cases item with
    | some item => exact ⟨item, fairWeighted q', by simp [MemoryQueue.dequeue, hd]⟩
    | none =>
      have hent : q.queues.entries ≠ [] := fun h0 => by
        have hit : it ∈ q.ready := hit
        obtain ⟨g, queue, hq, _⟩ := FinMap.mem_total.mp hit
        have := FinMap.mem_entries.mpr hq
        rw [h0] at this
        exact absurd this List.not_mem_nil
      exact absurd hr.2 (not_or.mpr ⟨hent, hne⟩)

/-! ## In order -/

/-- The message taken is not after any other one of the queue, or of its group. -/
theorem Inv.dequeue_least (h : Inv m) (hd : m.dequeue ack seed now = some (some it, m')) (hy : y ∈ m.ready)
    (hg : m.kind = .delayed ∨ y.group = it.group) : it.priority < y.priority ∨ it.priority = y.priority ∧ it.id ≤ y.id := by
  cases m with
  | delayed q =>
    obtain ⟨⟨item, q'⟩, hq', hr⟩ := Option.map_eq_some_iff.mp hd
    cases hr
    obtain ⟨_, _, _, hfirst⟩ := (DelayedQueue.dequeue_spec now).result hq'
    rw [h.2.2] at hfirst
    exact PriorityMemoryQueue.not_before_iff.mp (hfirst h.2.1 y hy)
  | fairRoundRobin q =>
    obtain ⟨⟨item, q'⟩, hq', hr⟩ := Option.map_eq_some_iff.mp hd
    cases hr
    have h : q.Inv True := h
    exact h.loosen.picked_least ((h.safe.dequeue_picks ack).result hq').2 hy (hg.resolve_left nofun)
  | fairWeighted q =>
    obtain ⟨⟨item, q'⟩, hq', hr⟩ := Option.map_eq_some_iff.mp hd
    cases hr
    obtain ⟨_, _, _, hleast, _⟩ := (FairWeightedQueue.dequeue_spec h.1 ack seed).result hq'
    exact PriorityMemoryQueue.not_before_iff.mp (hleast y hy (hg.resolve_left nofun))

/-- A delayed queue gives a message that is due, and stays as it is when none is. -/
theorem Inv.dequeue_due (h : Inv m) (hk : m.kind = .delayed) (ack : Bool) (seed : UInt64) (now : Int) :
    Returns (m.dequeue ack seed now) fun r =>
      match r.1 with
      | none => r.2 = m ∧ ∀ it ∈ m.ready, now < it.priority
      | some it => it.priority ≤ now := by
  cases m with
  | fairRoundRobin q => cases hk
  | fairWeighted q => cases hk
  | delayed q =>
    refine (DelayedQueue.dequeue_spec now).map fun r hr => ?_
    obtain ⟨item, q'⟩ := r
    cases item with
    | some it => exact hr.2.1
    | none =>
      obtain ⟨rfl, hhead⟩ := hr
      refine ⟨rfl, fun it hit => ?_⟩
      have hpos : 0 < q'.queue.items.size := by
        have : 0 < q'.queue.len := by rw [PriorityMemoryQueue.len_eq_card]; exact Multiset.card_pos_iff_exists_mem.mpr ⟨it, hit⟩
        exact this
      obtain ⟨x, _, hx, _, _, hfirst⟩ := PriorityMemoryQueue.heapPop_spec hpos
      have hle := hfirst h.2.1 it hit
      rw [h.2.2] at hle
      have := hhead x hx
      rcases PriorityMemoryQueue.not_before_iff.mp hle with hlt | ⟨heq, _⟩ <;> omega

end MemoryQueue

end Doq.Memory
