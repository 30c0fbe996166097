/-
  Doq.Raft.Partition — what the store, the memory queue and the ack queue hold of a queue's
  messages.

  `Partition` says it for one state: every stored message is in exactly one of the memory
  queue and the ack queue, once, and they hold nothing else; a ready item is filed as its
  message is stored; and the counters of a fair queue count the messages in flight by their
  stored group. It is read off the broker that the queue refines.

  Proved:
  - `partition_holds`: every state of a run has it, if ids are enqueued only while they are
    not stored and a round-robin queue is given groups that it files under their own name.
-/

import Doq.Raft.Reenqueue
import Doq.Raft.Track

namespace Doq

open Lib Memory Storage

/-- The ids stored under a queue's name. -/
def Storage.Store.ids (store : Store) (name : String) : Multiset UInt64 :=
  ((store.messages.keys.filter (·.1 = name)).map Prod.snd : List UInt64)

theorem Storage.Store.mem_ids {store : Store} {name : String} {id : UInt64} :
    id ∈ store.ids name ↔ (store.messages.lookup (name, id)).isSome := by
  unfold Store.ids
  rw [AList.lookup_isSome, AList.mem_keys]
  simp

theorem Storage.Store.nodup_ids (store : Store) (name : String) : (store.ids name).Nodup := by
  unfold Store.ids
  rw [Multiset.coe_nodup]
  refine List.Nodup.map_on ?_ (store.messages.keys_nodup.filter _)
  intro x hx y hy h
  simp only [List.mem_filter, decide_eq_true_eq] at hx hy
  exact Prod.ext (hx.2.trans hy.2.symm) h

namespace Queue

/-- The messages of a queue are ready or in flight. -/
structure Partition (name : String) (config : QueueConfig) (m : MemoryQueue) (q : Queue) (store : Store) : Prop where
  /-- A stored id is held once, in one of the two, and no other id is held. -/
  once : ∀ id, (m.ready.map (·.id)).count id + (q.ackQueue.held.map (·.id)).count id =
    if (store.messages.lookup (name, id)).isSome then 1 else 0
  stats : Returns q.getStats fun info => info.ready + info.unacked = (store.ids name).card
  ready : ∀ it ∈ m.ready, ∃ msg, store.messages.lookup (name, it.id) = some msg ∧ it.group = msg.group ∧
    it.priority = msg.priority
  counted : Counted name config m q store

end Queue

namespace Refines

variable {name : String} {b : Broker} {q : Queue} {store : Store}

theorem once (h : Refines name b q store) (id : UInt64) :
    (b.memory.ready.map (·.id)).count id + (q.ackQueue.held.map (·.id)).count id =
      if (store.messages.lookup (name, id)).isSome then 1 else 0 := by
  rw [h.ready.count_key, h.ack.count_key, h.stored]
  match b.records id with
  | none => rfl
  | some ⟨msg, .ready⟩ => rfl
  | some ⟨msg, .inFlight d⟩ => rfl

/-- All that is held, against all that is stored. -/
theorem heldIds_eq (h : Refines name b q store) : Queue.heldIds b.memory q.ackQueue = store.ids name := by
  ext id
  unfold Queue.heldIds
  rw [Multiset.count_add, h.once]
  by_cases hs : (store.messages.lookup (name, id)).isSome
  · rw [if_pos hs, Multiset.count_eq_one_of_mem (store.nodup_ids name) (Store.mem_ids.mpr hs)]
  · rw [if_neg hs, Multiset.count_eq_zero.mpr fun hin => hs (Store.mem_ids.mp hin)]

theorem getStats (h : Refines name b q store) :
    Returns q.getStats fun info => info.ready + info.unacked = (store.ids name).card := by
  refine .bind_eq h.config_eq (.bind_eq h.queue_eq (.intro ?_))
  have hlen : (q.ackQueue.len : Int) = q.ackQueue.held.card :=
    congrArg Nat.cast (PriorityMemoryQueue.len_eq_card q.ackQueue.queue)
  rw [h.inv.safe.len, hlen, ← h.heldIds_eq, Queue.heldIds, Multiset.card_add, Multiset.card_map, Multiset.card_map]
  push_cast
  rfl

/-- An item in flight carries the group its message is stored under. -/
theorem counted (h : Refines name b q store) : Queue.Counted name b.config b.memory q store := by
  intro ht g
  rw [h.counts ht g]
  unfold Queue.inFlight
  refine congrArg Nat.cast (Multiset.countP_congr rfl fun it hit => ?_)
  obtain ⟨⟨msg, status⟩, hr, hi⟩ := Option.bind_eq_some_iff.mp ((h.ack.mem it).mp hit)
  cases status with
  | ready => cases hi
  | inFlight d =>
    cases hi
    rw [h.lookup_some hr]
    simp

theorem partition (h : Refines name b q store) : Queue.Partition name b.config b.memory q store where
  once := h.once
  stats := h.getStats
  ready it hit := by
    obtain ⟨msg, hr, _, hg, hp⟩ := h.record_of_ready hit
    exact ⟨msg, h.lookup_some hr, hg, hp⟩
  counted := h.counted

end Refines

namespace FSM

variable {name : String} {f : FSM} {events : List (Event FSM Entry Reply)} {q : Queue} {config : QueueConfig}

theorem partition_holds {cfg : Config} {leaderConfig : LeaderConfig} (h : Runs (new cfg leaderConfig) events f)
    (hok : ∀ e ∈ events, Admits name e.before e.input) (hq : f.queueManager.queues.lookup name = some q)
    (hc : q.config = some config) (ht : Queue.KnownType config.type) :
    ∃ m, q.queue = some m ∧ Queue.Partition name config m q f.queueManager.store := by
  obtain ⟨ob, htracks⟩ := h.tracks hok
  cases ob with
  | none =>
    -- a queue of a known type has a memory queue
    obtain ⟨c, _, hserved⟩ := htracks.safe.queue name q hq
    rw [hserved.config_eq] at hc; cases hc
    exact absurd ht (hserved.queue_eq_none.mp (htracks.absent rfl q hq))
  | some b =>
    obtain ⟨p, hp, _, href⟩ := htracks.present b rfl
    rw [hq] at hp; cases hp
    rw [href.config_eq] at hc; cases hc
    exact ⟨b.memory, href.queue_eq, href.partition⟩

/-- Two messages of a fair queue, one of them in flight. -/
def oneOfTwoDelivered : List Entry :=
  [⟨1, 0, .createQueue "jobs" "fair" { plain with strategy := .roundRobin }⟩, ⟨2, 0, .enqueue "jobs" 1 "a" 5 "" none⟩,
    ⟨3, 0, .enqueue "jobs" 2 "b" 7 "" none⟩, ⟨4, 0, .dequeue "jobs" false⟩]

theorem oneOfTwoDelivered_runs : (exec apply (new defaults (.new "n1" "" "")) oneOfTwoDelivered).isSome := rfl

theorem partition_holds_two :
    let r := (exec apply (new defaults (.new "n1" "" "")) oneOfTwoDelivered).get oneOfTwoDelivered_runs
    ∃ q config m, r.2.queueManager.queues.lookup "jobs" = some q ∧
      q.getStats.map (fun info => (info.ready, info.unacked)) = some (1, 1) ∧
      Queue.Partition "jobs" config m q r.2.queueManager.store := by
  intro r
  have hok : ∀ e ∈ r.1, Admits "jobs" e.before e.input := by decide
  obtain ⟨m, _, hp⟩ := partition_holds (Run.of_exec_isSome oneOfTwoDelivered_runs) hok rfl rfl (by decide)
  exact ⟨_, _, m, rfl, rfl, hp⟩

end FSM

end Doq
