/-
  Doq.Queue.Safety — what every method of a queue does, whatever its groups and ids
  (see `Doq.Queue.Queue`).

  `Live` is a queue with its configuration and memory queue in place and its indices
  sound. Ids may be held twice and groups may be such that the memory queue cannot find
  them again.

  Proved: on a `Live` queue no method panics when no store call fails, it stays `Live`, and
  the store changes only under the queue's own name. The ack queue changes as the method
  says: `Dequeue` and `Touch` set one deadline, `UpdatePriority` may overwrite one, and the
  others only take messages out. If no id is held twice before, and an enqueued id is not
  held, none is held twice after (`Distinct`).
-/

import Doq.Queue.Queue
import Doq.Memory.MemoryQueueProofs

namespace Doq

open Lib Memory Storage

/-! ## The ack queue -/

namespace Memory.DelayedQueue

variable {aq : DelayedQueue}

theorem get_spec (h : aq.queue.Sound) (id : UInt64) :
    Returns (aq.get id) fun r =>
      match r with
      | none => aq.queue.Missing id
      | some it => aq.queue.Found id it := by
  rcases h.missing_or_found id with hm | ⟨it, hf⟩
  · exact .of_eq (PriorityMemoryQueue.get_missing hm) hm
  · exact .of_eq (PriorityMemoryQueue.get_found hf) hf

theorem delete_spec (h : aq.queue.Sound) (id : UInt64) :
    Returns (aq.delete id) fun r =>
      match r.1 with
      | none => r.2 = aq ∧ aq.queue.Missing id
      | some it => aq.queue.Found id it ∧ aq.queue.Shrunk it r.2.queue := by
  unfold delete
  rcases h.missing_or_found id with hm | ⟨it, hf⟩
  · exact .bind_eq (PriorityMemoryQueue.delete_missing hm) (.intro ⟨rfl, hm⟩)
  · obtain ⟨queue, hd, hs⟩ := PriorityMemoryQueue.delete_found hf h
    exact .bind_eq hd (.intro ⟨hf, hs⟩)

/-- Taken out, or not there. -/
def Less (aq : DelayedQueue) (id : UInt64) (aq' : DelayedQueue) : Prop :=
  aq' = aq ∨ ∃ it, aq.queue.Found id it ∧ aq.queue.Shrunk it aq'.queue

theorem Less.sound {id : UInt64} {aq' : DelayedQueue} (h : Less aq id aq') (hs : aq.queue.Sound) : aq'.queue.Sound := by
  rcases h with rfl | ⟨it, _, hsh⟩
  · exact hs
  · exact hsh.sound hs

theorem Less.heaped {id : UInt64} {aq' : DelayedQueue} (h : Less aq id aq') (hh : aq.queue.Heaped) : aq'.queue.Heaped := by
  rcases h with rfl | ⟨it, _, hsh⟩
  · exact hh
  · exact hsh.heaped hh

theorem Less.mem {id : UInt64} {aq' : DelayedQueue} (h : Less aq id aq') {it : Item} (hit : it ∈ aq'.held) : it ∈ aq.held := by
  rcases h with rfl | ⟨x, _, hsh⟩
  · exact hit
  · unfold held; rw [hsh.held]; exact Multiset.mem_cons_of_mem hit

/-- An item taken out, by its id. -/
structure Taken (aq : DelayedQueue) (it : Item) (aq' : DelayedQueue) : Prop where
  delete_eq : aq.delete it.id = some (some it, aq')
  shrunk : aq.queue.Shrunk it aq'.queue

theorem taken (h : aq.queue.Exact) {it : Item} (hit : it ∈ aq.held) : ∃ aq', Taken aq it aq' := by
  obtain ⟨queue, hd, hs⟩ := PriorityMemoryQueue.delete_found (h.found hit) h.toSound
  exact ⟨⟨queue⟩, by simp only [DelayedQueue.delete, hd, Option.bind_eq_bind, Option.bind_some], hs⟩

end Memory.DelayedQueue

/-! ## The store -/

namespace Storage

/-- Nothing under another queue's name has changed, and no configuration. -/
structure StoreFrame (name : String) (store store' : Store) : Prop where
  messages : ∀ n id, n ≠ name → store'.messages.lookup (n, id) = store.messages.lookup (n, id)
  queues : store'.queues = store.queues

theorem StoreFrame.refl (name : String) (store : Store) : StoreFrame name store store := ⟨fun _ _ _ => rfl, rfl⟩

theorem StoreFrame.trans {name : String} {a b c : Store} (h : StoreFrame name a b) (h' : StoreFrame name b c) :
    StoreFrame name a c :=
  ⟨fun n id hn => (h'.messages n id hn).trans (h.messages n id hn), h'.queues.trans h.queues⟩

theorem StoreFrame.insert (name : String) (store : Store) (id : UInt64) (msg : Message) :
    StoreFrame name store { store with messages := store.messages.insert (name, id) msg } :=
  ⟨fun n id' hn => by rw [FinMap.lookup_insert_eq, if_neg (by simp [hn])], rfl⟩

theorem StoreFrame.erase (name : String) (store : Store) (id : UInt64) :
    StoreFrame name store { store with messages := store.messages.erase (name, id) } :=
  ⟨fun n id' hn => by rw [FinMap.lookup_erase_eq, if_neg (by simp [hn])], rfl⟩

namespace Store

variable {store : Store} {name : String} {id : UInt64} {msg : Message}

theorem dequeue_none (h : store.messages.lookup (name, id) = none) (ack : Bool) :
    store.dequeue noFaults name id ack = .error .keyNotFound := by
  simp only [dequeue, noFaults, Bool.false_eq_true, if_false, h]

theorem dequeue_acked (h : store.messages.lookup (name, id) = some msg) :
    store.dequeue noFaults name id true =
      .ok ({ msg with deliveryCount := msg.deliveryCount + 1 }, { store with messages := store.messages.erase (name, id) }) := by
  simp only [dequeue, noFaults, Bool.false_eq_true, if_false, if_true, h]

theorem dequeue_unacked (h : store.messages.lookup (name, id) = some msg) :
    store.dequeue noFaults name id false =
      .ok ({ msg with deliveryCount := msg.deliveryCount + 1 },
        { store with messages := store.messages.insert (name, id) { msg with deliveryCount := msg.deliveryCount + 1 } }) := by
  simp only [dequeue, noFaults, Bool.false_eq_true, if_false, h]

theorem get_none (h : store.messages.lookup (name, id) = none) : store.get noFaults name id = .error .messageNotFound := by
  simp only [get, noFaults, Bool.false_eq_true, if_false, h]

theorem get_some (h : store.messages.lookup (name, id) = some msg) : store.get noFaults name id = .ok msg := by
  simp only [get, noFaults, Bool.false_eq_true, if_false, h]

theorem delete_none (h : store.messages.lookup (name, id) = none) : store.delete noFaults name id = .error .messageNotFound := by
  simp only [delete, noFaults, Bool.false_eq_true, if_false, h]

theorem delete_some (h : store.messages.lookup (name, id) = some msg) :
    store.delete noFaults name id = .ok (msg, { store with messages := store.messages.erase (name, msg.id) }) := by
  simp only [delete, noFaults, Bool.false_eq_true, if_false, h]

theorem updatePriority_some (h : store.messages.lookup (name, id) = some msg) (priority : Int) :
    store.updatePriority noFaults name id priority =
      .ok ({ msg with priority := priority },
        { store with messages := store.messages.insert (name, id) { msg with priority := priority } }) := by
  simp only [updatePriority, noFaults, Bool.false_eq_true, if_false, h]

theorem updateMessage_none (h : store.messages.lookup (name, id) = none) (priority : Int) (content : String)
    (metadata : Option Metadata) : store.updateMessage noFaults name id priority content metadata = .error .keyNotFound := by
  simp only [updateMessage, noFaults, Bool.false_eq_true, if_false, h]

/-- Without a new content. -/
theorem updateMessage_some (h : store.messages.lookup (name, id) = some msg) (priority : Int) (metadata : Option Metadata) :
    store.updateMessage noFaults name id priority "" metadata =
      .ok { store with messages := store.messages.insert (name, id) { msg with
        priority := if priority ≠ 0 then priority else msg.priority
        metadata := if metadata.isSome then metadata else msg.metadata } } := by
  simp only [updateMessage, noFaults, Bool.false_eq_true, if_false, h, ne_eq, not_true_eq_false]

end Store

/-- Every message lies under its own id. -/
def Keyed (name : String) (store : Store) : Prop := ∀ id msg, store.messages.lookup (name, id) = some msg → msg.id = id

theorem Keyed.insert {name : String} {store : Store} (h : Keyed name store) {id : UInt64} (msg : Message) (hid : msg.id = id) :
    Keyed name { store with messages := store.messages.insert (name, id) msg } := by
  intro i m hm
  rw [FinMap.lookup_insert_eq] at hm
  split at hm
  · rename_i e; cases hm; cases e; exact hid
  · exact h i m hm

theorem Keyed.erase {name : String} {store : Store} (h : Keyed name store) (id : UInt64) :
    Keyed name { store with messages := store.messages.erase (name, id) } := by
  intro i m hm
  rw [FinMap.lookup_erase_eq] at hm
  split at hm
  · cases hm
  · exact h i m hm

end Storage

namespace Queue

variable {name : String} {config : QueueConfig} {m : MemoryQueue} {q : Queue} {store : Store} {cfg : Config} {id : UInt64}

structure Live (name : String) (config : QueueConfig) (m : MemoryQueue) (q : Queue) (store : Store) : Prop where
  config_eq : q.config = some config
  name_eq : config.name = name
  queue_eq : q.queue = some m
  memory : m.Safe
  ack : q.ackQueue.queue.Sound
  running : q.ackQueueMonitoring = true
  keyed : Keyed name store

/-- The ids held in memory, ready or in flight. -/
def heldIds (m : MemoryQueue) (aq : DelayedQueue) : Multiset UInt64 := m.ready.map (·.id) + aq.held.map (·.id)

/-- No id is held twice. -/
structure Distinct (m : MemoryQueue) (aq : DelayedQueue) : Prop where
  nodup : (heldIds m aq).Nodup
  exact : aq.queue.Exact

section Distinct

variable {m' : MemoryQueue} {aq aq' : DelayedQueue} {it : Item}

theorem heldIds_push (h : m'.ready = it ::ₘ m.ready) : heldIds m' aq = it.id ::ₘ heldIds m aq := by
  unfold heldIds; rw [h, Multiset.map_cons, Multiset.cons_add]

theorem heldIds_ackPush (h : aq'.held = it ::ₘ aq.held) : heldIds m aq' = it.id ::ₘ heldIds m aq := by
  unfold heldIds; rw [h, Multiset.map_cons, Multiset.add_cons]

theorem heldIds_ready (h : m'.ready = m.ready) : heldIds m' aq = heldIds m aq := by unfold heldIds; rw [h]

theorem heldIds_repriced {id : UInt64} {v : Int} (h : m'.ready = m.ready ∨ Repriced m.ready m'.ready id v) :
    heldIds m' aq = heldIds m aq := by
  rcases h with h | ⟨it, rest, _, h1, h2⟩
  · exact heldIds_ready h
  · unfold heldIds
    rw [h1, h2, Multiset.map_cons, Multiset.map_cons]

theorem heldIds_replaced {v : Int} (h : aq.queue.Replaced it v aq'.queue) : heldIds m aq' = heldIds m aq := by
  obtain ⟨rest, h1, h2⟩ := h.held
  unfold heldIds DelayedQueue.held
  rw [h1, h2, Multiset.map_cons, Multiset.map_cons]

theorem heldIds_less {id : UInt64} (h : DelayedQueue.Less aq id aq') : heldIds m aq' ≤ heldIds m aq := by
  rcases h with rfl | ⟨it, _, hs⟩
  · exact le_rfl
  · rw [heldIds_ackPush hs.held]
    exact Multiset.le_cons_self _ _

theorem Distinct.push (h : Distinct m aq) (hm : m'.ready = it ::ₘ m.ready) (hn : it.id ∉ heldIds m aq) : Distinct m' aq :=
  ⟨by rw [heldIds_push hm]; exact Multiset.nodup_cons.mpr ⟨hn, h.nodup⟩, h.exact⟩

theorem Distinct.pop (h : Distinct m aq) (hm : m.ready = it ::ₘ m'.ready) : Distinct m' aq ∧ it.id ∉ heldIds m' aq := by
  have := h.nodup
  rw [heldIds_push hm] at this
  exact ⟨⟨(Multiset.nodup_cons.mp this).2, h.exact⟩, (Multiset.nodup_cons.mp this).1⟩

theorem Distinct.ackPush (h : Distinct m aq) (hg : aq.queue.Grown it aq'.queue) (hn : it.id ∉ heldIds m aq) : Distinct m aq' := by
  refine ⟨by rw [heldIds_ackPush hg.held]; exact Multiset.nodup_cons.mpr ⟨hn, h.nodup⟩, hg.exact h.exact fun hm => hn ?_⟩
  exact Multiset.mem_add.mpr (Or.inr hm)

theorem Distinct.ackPop (h : Distinct m aq) (hs : aq.queue.Shrunk it aq'.queue) : Distinct m aq' ∧ it.id ∉ heldIds m aq' := by
  have hids : heldIds m aq = it.id ::ₘ heldIds m aq' := heldIds_ackPush hs.held
  have := h.nodup
  rw [hids] at this
  exact ⟨⟨(Multiset.nodup_cons.mp this).2, hs.exact h.exact⟩, (Multiset.nodup_cons.mp this).1⟩

theorem Distinct.ready_eq (h : Distinct m aq) (hm : m'.ready = m.ready) : Distinct m' aq :=
  ⟨by rw [heldIds_ready hm]; exact h.nodup, h.exact⟩

theorem Distinct.less (h : Distinct m aq) {id : UInt64} (hl : DelayedQueue.Less aq id aq') : Distinct m aq' := by
  rcases hl with rfl | ⟨it, _, hs⟩
  · exact h
  · exact (h.ackPop hs).1

theorem Distinct.repriced (h : Distinct m aq) {id : UInt64} {v : Int} (hr : m'.ready = m.ready ∨ Repriced m.ready m'.ready id v) :
    Distinct m' aq :=
  ⟨by rw [heldIds_repriced hr]; exact h.nodup, h.exact⟩

theorem Distinct.replaced (h : Distinct m aq) {v : Int} (hr : aq.queue.Replaced it v aq'.queue) : Distinct m aq' :=
  ⟨by rw [heldIds_replaced hr]; exact h.nodup, hr.exact h.exact⟩

end Distinct

theorem Live.prometheus (h : Live name config m q store) (cfg : Config) : q.updatePrometheusQueueSizes cfg = some () := by
  unfold updatePrometheusQueueSizes
  split
  · simp [h.queue_eq, h.config_eq]
  · rfl

/-- An id that is not held is found nowhere, under whatever group. -/
theorem get_unheld (h : Live name config m q store) {id : UInt64} (hn : id ∉ heldIds m q.ackQueue) (group : String) :
    m.get group id = some none ∧ q.ackQueue.get id = some none := by
  constructor
  · refine h.memory.get_none (fun it hit hid => hn ?_) group
    exact Multiset.mem_add.mpr (Or.inl (Multiset.mem_map.mpr ⟨it, hit, hid⟩))
  · obtain ⟨r, hget, hr⟩ := DelayedQueue.get_spec h.ack id
    cases r with
    | none => exact hget
    | some it => exact absurd (Multiset.mem_add.mpr (Or.inr (Multiset.mem_map.mpr ⟨it, hr.mem, hr.id_eq h.ack⟩))) hn

/-- The queue with another memory queue and ack queue. -/
theorem Live.update (h : Live name config m q store) {m' : MemoryQueue} (hm : m'.Safe) {aq : DelayedQueue} (ha : aq.queue.Sound)
    (n : Nat) {store' : Store} (hk : Keyed name store') :
    Live name config m' { q with queue := some m', ackQueue := aq, notifyCh := n } store' :=
  ⟨h.config_eq, h.name_eq, rfl, hm, ha, h.running, hk⟩

/-- A queue before and after a method that enqueues nothing new. -/
structure Kept (name : String) (config : QueueConfig) (m : MemoryQueue) (q : Queue) (store : Store)
    (m' : MemoryQueue) (q' : Queue) (store' : Store) : Prop where
  live : Live name config m' q' store'
  frame : StoreFrame name store store'
  kind : m'.kind = m.kind
  held : heldIds m' q'.ackQueue ≤ heldIds m q.ackQueue
  distinct : Distinct m q.ackQueue → Distinct m' q'.ackQueue

theorem Live.kept (h : Live name config m q store) : Kept name config m q store m q store :=
  ⟨h, .refl _ _, rfl, le_rfl, fun hd => hd⟩

/-! ## The methods -/

/-- A copy is added unless the memory queue finds the id under the message's group. -/
theorem Live.enqueue (h : Live name config m q store) (group : String) (priority : Int) (content : String)
    (metadata : Option Metadata) :
    Returns (q.enqueue store cfg noFaults id group priority content metadata) fun r => ∃ m',
      r.1 = .ok ⟨groupFor config group, id, priority, content, metadata, 0⟩ ∧
      r.2.2 = { store with messages := store.messages.insert (name, id) ⟨groupFor config group, id, priority, content,
        metadata, 0⟩ } ∧
      Live name config m' r.2.1 r.2.2 ∧ r.2.1.ackQueue = q.ackQueue ∧ m'.kind = m.kind ∧
      ((∃ it, m.get (groupFor config group) id = some (some it) ∧ m' = m) ∨
        m.get (groupFor config group) id = some none ∧ ∃ it, it.id = id ∧ m'.ready = it ::ₘ m.ready) := by
  have hk : Keyed name { store with
      messages := store.messages.insert (name, id) ⟨groupFor config group, id, priority, content, metadata, 0⟩ } :=
    h.keyed.insert _ rfl
  unfold Queue.enqueue
  refine .bind_eq h.config_eq ?_
  simp only [Store.enqueue, noFaults, Bool.false_eq_true, if_false, h.name_eq]
  refine .bind_eq h.queue_eq ?_
  obtain ⟨r, hget, hr⟩ := h.memory.get (groupFor config group) id
  refine .bind_eq hget ?_
  cases r with
  | some it => exact .intro ⟨m, rfl, rfl, { h with keyed := hk }, rfl, rfl, Or.inl ⟨it, hget, rfl⟩⟩
  | none =>
    have hi : (⟨id, priority, groupFor config group⟩ : Item).group = groupFor config group := rfl
    refine (h.memory.enqueue hi).bind fun m' hm' => ?_
    obtain ⟨h1, h2, it, h3, _, _, h4⟩ := hm'
    have hl := h.update h1 h.ack (q.notifyCh + 1) hk
    refine .bind_eq (hl.prometheus cfg) (.intro ⟨m', rfl, rfl, hl, rfl, h2, Or.inr ⟨hget, it, h3, h4⟩⟩)

/-- The id of a delivered message leaves the ready ones and, unless acked at once, enters the
    ack queue with the deadline of this delivery. -/
theorem Live.dequeue (h : Live name config m q store) (ack : Bool) (seed : UInt64) (now : Int) :
    Returns (q.dequeue store cfg noFaults ack seed now) fun r => ∃ m', Kept name config m q store m' r.2.1 r.2.2 ∧
      match r.1 with
      | .error _ => r.2.1.ackQueue = q.ackQueue
      | .ok msg =>
        if ack then r.2.1.ackQueue = q.ackQueue ∧ (Distinct m q.ackQueue → msg.id ∉ heldIds m' q.ackQueue)
        else ∃ x : Item, x.id = msg.id ∧ x.priority = ackDeadline config now ∧ q.ackQueue.queue.Grown x r.2.1.ackQueue.queue := by
  unfold Queue.dequeue
  refine .bind_eq h.queue_eq ?_
  split
  · exact .intro ⟨m, h.kept, rfl⟩
  · refine (h.memory.dequeue ack seed now).bind fun r hr => ?_
    obtain ⟨item, m'⟩ := r
    obtain ⟨hs, hk, hr⟩ := hr
    have hsame := h.update hs h.ack q.notifyCh h.keyed
    simp only
    cases item with
    | none => exact .intro ⟨m', ⟨hsame, .refl _ _, hk, (heldIds_ready hr).le, fun hd => hd.ready_eq hr⟩, rfl⟩
    | some item =>
      have hids : heldIds m q.ackQueue = item.id ::ₘ heldIds m' q.ackQueue := heldIds_push hr
      have hless : heldIds m' q.ackQueue ≤ heldIds m q.ackQueue := by rw [hids]; exact Multiset.le_cons_self _ _
      have hpop : Distinct m q.ackQueue → Distinct m' q.ackQueue ∧ item.id ∉ heldIds m' q.ackQueue := fun hd => hd.pop hr
      refine .bind_eq h.config_eq ?_
      simp only [h.name_eq]
      cases hm : store.messages.lookup (name, item.id) with
      | none =>
        rw [Store.dequeue_none hm]
        exact .intro ⟨m', ⟨hsame, .refl _ _, hk, hless, fun hd => (hpop hd).1⟩, rfl⟩
      | some msg =>
        have hid : msg.id = item.id := h.keyed _ _ hm
        cases ack with
        | true =>
          rw [Store.dequeue_acked hm]
          have hl := h.update hs h.ack q.notifyCh (h.keyed.erase item.id)
          exact .bind_eq (hl.prometheus cfg)
            (.intro ⟨m', ⟨hl, .erase _ _ _, hk, hless, fun hd => (hpop hd).1⟩, rfl, fun hd => hid ▸ (hpop hd).2⟩)
        | false =>
          rw [Store.dequeue_unacked hm]
          have hg := PriorityMemoryQueue.heapPush_grown q.ackQueue.queue ⟨item.id, ackDeadline config now, msg.group⟩
          have hkey := h.keyed.insert ({ msg with deliveryCount := msg.deliveryCount + 1 }) hid
          have hl := h.update hs (hg.sound h.ack) q.notifyCh hkey
          refine .bind_eq (hl.prometheus cfg)
            (.intro ⟨m', ⟨hl, .insert _ _ _ _, hk, ?_, fun hd => ?_⟩, ⟨item.id, ackDeadline config now, msg.group⟩,
              hid.symm, rfl, hg⟩)
          · exact ((heldIds_ackPush hg.held).trans hids.symm).le
          obtain ⟨hd', hn⟩ := hpop hd
          exact hd'.ackPush hg hn

/-- Releasing a slot changes counters only. -/
theorem releaseSlot_spec (hq : q.queue = some m) (hm : m.Safe) (config : QueueConfig) (group : String) :
    Returns (q.releaseSlot config group) fun q' => ∃ m', q' = { q with queue := some m' } ∧ m'.Safe ∧ m'.kind = m.kind ∧
      m'.ready = m.ready := by
  unfold releaseSlot
  split
  · refine .bind_eq hq ((hm.updateWeights group).bind fun m' hm' => .intro ⟨m', rfl, hm'⟩)
  · exact .intro ⟨m, by rw [← hq], hm, rfl, rfl⟩

theorem dropUnacked_spec (hq : q.queue = some m) (hm : m.Safe) (ha : q.ackQueue.queue.Sound) (config : QueueConfig)
    (group : String) (id : UInt64) :
    Returns (q.dropUnacked config group id) fun q' => ∃ m' aq, q' = { q with queue := some m', ackQueue := aq } ∧ m'.Safe ∧
      m'.kind = m.kind ∧ m'.ready = m.ready ∧ DelayedQueue.Less q.ackQueue id aq := by
  unfold dropUnacked
  refine (DelayedQueue.delete_spec ha id).bind fun r hr => ?_
  obtain ⟨item, aq⟩ := r
  cases item with
  | none =>
    obtain ⟨rfl, _⟩ := hr
    exact .intro ⟨m, q.ackQueue, by rw [← hq], hm, rfl, rfl, Or.inl rfl⟩
  | some item =>
    have hq' : ({ q with ackQueue := aq } : Queue).queue = some m := hq
    refine (releaseSlot_spec hq' hm config group).mono fun q' hq' => ?_
    obtain ⟨m', rfl, h1, h2, h3⟩ := hq'
    exact ⟨m', aq, rfl, h1, h2, h3, Or.inr ⟨item, hr⟩⟩

theorem Live.delete (h : Live name config m q store) (id : UInt64) :
    Returns (q.delete store noFaults id) fun r => ∃ m', Kept name config m q store m' r.2.1 r.2.2 ∧
      DelayedQueue.Less q.ackQueue id r.2.1.ackQueue := by
  unfold Queue.delete
  refine .bind_eq h.config_eq ?_
  simp only [h.name_eq]
  cases hm : store.messages.lookup (name, id) with
  | none =>
    rw [Store.delete_none hm]
    exact .intro ⟨m, h.kept, Or.inl rfl⟩
  | some msg =>
    rw [Store.delete_some hm]
    refine .bind_eq h.queue_eq ((h.memory.delete msg.group id).bind fun r hr => ?_)
    obtain ⟨item, m'⟩ := r
    obtain ⟨hs, hk, hr⟩ := hr
    have hd : heldIds m' q.ackQueue ≤ heldIds m q.ackQueue ∧ (Distinct m q.ackQueue → Distinct m' q.ackQueue) := by
      cases item with
      | none => have hm : m' = m := hr; rw [hm]; exact ⟨le_rfl, fun hd => hd⟩
      | some item => exact ⟨by rw [heldIds_push hr.2]; exact Multiset.le_cons_self _ _, fun hd => (hd.pop hr.2).1⟩
    have hq : ({ q with queue := some m' } : Queue).queue = some m' := rfl
    refine (dropUnacked_spec hq hs h.ack config msg.group id).bind fun q' hq' => ?_
    obtain ⟨m'', aq, rfl, hs', hk', hr', hl⟩ := hq'
    exact .intro ⟨m'', ⟨h.update hs' (hl.sound h.ack) q.notifyCh (h.keyed.erase msg.id), .erase _ _ _, hk'.trans hk,
      (heldIds_ready hr').le.trans ((heldIds_less hl).trans hd.1), fun hd0 => ((hd.2 hd0).less hl).ready_eq hr'⟩, hl⟩

theorem Live.touch (h : Live name config m q store) (id : UInt64) (now : Int) :
    Returns (q.touch store id now) fun r => Kept name config m q store m r.2.1 r.2.2 ∧ r.2.2 = store ∧
      ((r = (.error .messageNotFound, q, store) ∧ q.ackQueue.queue.Missing id) ∨
        r.1 = .ok () ∧ ∃ it, q.ackQueue.queue.Found id it ∧
          q.ackQueue.queue.Replaced it (ackDeadline config now) r.2.1.ackQueue.queue ∧
          (q.ackQueue.queue.Heaped → r.2.1.ackQueue.queue.Heaped)) := by
  unfold Queue.touch
  rcases h.ack.missing_or_found id with hm | ⟨it, hf⟩
  · exact .bind_eq (PriorityMemoryQueue.get_missing hm) (.intro ⟨h.kept, rfl, Or.inl ⟨rfl, hm⟩⟩)
  · refine .bind_eq (PriorityMemoryQueue.get_found hf) (.bind_eq h.config_eq ?_)
    obtain ⟨queue, hu, hr, hh⟩ := PriorityMemoryQueue.updatePriority_found hf (ackDeadline config now)
    have hu' : q.ackQueue.updatePriority id (ackDeadline config now) = some ⟨queue⟩ := by
      simp only [DelayedQueue.updatePriority, hu, Option.bind_eq_bind, Option.bind_some]
    refine .bind_eq hu' (.intro ⟨⟨?_, .refl _ _, rfl, (heldIds_replaced hr).le, fun hd => hd.replaced hr⟩, rfl,
      Or.inr ⟨rfl, it, hf, hr, hh⟩⟩)
    exact { h with ack := hr.sound h.ack }

theorem Live.releaseAcked (h : Live name config m q store) (id : UInt64) :
    Returns (q.releaseAcked store noFaults config id) fun r =>
      match r with
      | .error _ => True
      | .ok q' => ∃ m', q' = { q with queue := some m' } ∧ m'.Safe ∧ m'.kind = m.kind ∧ m'.ready = m.ready := by
  unfold Queue.releaseAcked
  have hsame : q = { q with queue := some m } := by rw [← h.queue_eq]
  split
  · cases hm : store.messages.lookup (config.name, id) with
    | none =>
      rw [Store.get_none hm]
      exact .intro trivial
    | some msg =>
      rw [Store.get_some hm]
      exact (releaseSlot_spec h.queue_eq h.memory config msg.group).bind fun q' hq' => .intro hq'
  · exact .intro ⟨m, hsame, h.memory, rfl, rfl⟩

theorem Live.acked (h : Live name config m q store) (id : UInt64) :
    Returns (q.ack store cfg noFaults id) fun r => ∃ m', Kept name config m q store m' r.2.1 r.2.2 ∧
      DelayedQueue.Less q.ackQueue id r.2.1.ackQueue := by
  unfold Queue.ack
  refine (DelayedQueue.get_spec h.ack id).bind fun item hitem => ?_
  cases item with
  | none => exact .intro ⟨m, h.kept, Or.inl rfl⟩
  | some item =>
    refine .bind_eq h.config_eq ((h.releaseAcked id).bind fun r hr => ?_)
    cases r with
    | error e => exact .intro ⟨m, h.kept, Or.inl rfl⟩
    | ok q' =>
      obtain ⟨m', rfl, hs, hk, hready⟩ := hr
      simp only [Store.ack, noFaults, Bool.false_eq_true, if_false, h.name_eq]
      obtain ⟨queue, hd, hsh⟩ := PriorityMemoryQueue.delete_found hitem h.ack
      have hd' : q.ackQueue.delete id = some (some item, ⟨queue⟩) := by
        simp only [DelayedQueue.delete, hd, Option.bind_eq_bind, Option.bind_some]
      have hl : DelayedQueue.Less q.ackQueue id ⟨queue⟩ := Or.inr ⟨item, hitem, hsh⟩
      have hlive := h.update hs (hl.sound h.ack) q.notifyCh (h.keyed.erase id)
      exact .bind_eq hd' (.bind_eq (hlive.prometheus cfg)
        (.intro ⟨m', ⟨hlive, .erase _ _ _, hk, (heldIds_ready hready).le.trans (heldIds_less hl),
          fun hd => (hd.less hl).ready_eq hready⟩, hl⟩))

/-- A failed delivery leaves the ack queue, whether it is requeued or dropped. -/
theorem Live.redeliverOrDrop (h : Live name config m q store) {item : Item} {message : Message}
    (hf : q.ackQueue.queue.Found message.id item) (newPriority : Int) :
    Returns (q.redeliverOrDrop store noFaults config message newPriority) fun r =>
      ∃ m', Kept name config m q store m' r.2.1 r.2.2 ∧
      DelayedQueue.Less q.ackQueue message.id r.2.1.ackQueue := by
  unfold Queue.redeliverOrDrop
  split
  · refine (h.delete message.id).bind fun r hr => ?_
    obtain ⟨r, q', store'⟩ := r
    cases r with
    | error e => exact .intro hr
    | ok u => exact .intro hr
  · obtain ⟨queue, hd, hsh⟩ := PriorityMemoryQueue.delete_found hf h.ack
    have hd' : q.ackQueue.delete message.id = some (some item, ⟨queue⟩) := by
      simp only [DelayedQueue.delete, hd, Option.bind_eq_bind, Option.bind_some]
    have hl : DelayedQueue.Less q.ackQueue message.id ⟨queue⟩ := Or.inr ⟨item, hf, hsh⟩
    refine .bind_eq hd' (.bind_eq h.queue_eq ?_)
    have hi : (⟨message.id, if newPriority ≠ 0 then newPriority else message.priority, message.group⟩ : Item).group =
      message.group := rfl
    refine (h.memory.enqueue hi).bind fun m' hm' => ?_
    obtain ⟨hs, hk, it, hid, _, _, hready⟩ := hm'
    have hq : ({ q with ackQueue := ⟨queue⟩, queue := some m' } : Queue).queue = some m' := rfl
    refine (releaseSlot_spec hq hs config message.group).bind fun q' hq' => ?_
    obtain ⟨m'', rfl, hs', hk', hready'⟩ := hq'
    refine .intro ⟨m'', ⟨h.update hs' (hl.sound h.ack) (q.notifyCh + 1) h.keyed, .refl _ _, hk'.trans hk, ?_, fun hd => ?_⟩, hl⟩
    · refine le_of_eq ?_
      rw [heldIds_ready hready', heldIds_push hready, hid, ← hf.id_eq h.ack]
      exact (heldIds_ackPush hsh.held).symm
    -- out of the ack queue, then among the ready
    obtain ⟨hd1, hn⟩ := hd.ackPop hsh
    refine (hd1.push hready ?_).ready_eq hready'
    rw [hid, ← hf.id_eq h.ack]
    exact hn

theorem keepNacked_spec (hk : Keyed name store) (hn : config.name = name) (message : Message) (dropped : Bool) (priority : Int)
    (metadata : Option Metadata) {store' : Store}
    (h : keepNacked store noFaults config message dropped priority metadata = .ok store') :
    Keyed name store' ∧ StoreFrame name store store' := by
  unfold keepNacked at h
  split at h
  · rw [hn] at h
    cases hm : store.messages.lookup (name, message.id) with
    | none => rw [Store.updateMessage_none hm] at h; cases h
    | some msg =>
      rw [Store.updateMessage_some hm] at h; cases h
      have hid : msg.id = message.id := hk _ _ hm
      exact ⟨hk.insert _ hid, .insert _ _ _ _⟩
  · cases h; exact ⟨hk, .refl _ _⟩

theorem Live.nack (h : Live name config m q store) (id : UInt64) (priority : Int) (metadata : Option Metadata) :
    Returns (q.nack store cfg noFaults id priority metadata) fun r => ∃ m', Kept name config m q store m' r.2.1 r.2.2 ∧
      DelayedQueue.Less q.ackQueue id r.2.1.ackQueue := by
  unfold Queue.nack
  refine (DelayedQueue.get_spec h.ack id).bind fun item hitem => ?_
  cases item with
  | none => exact .intro ⟨m, h.kept, Or.inl rfl⟩
  | some item =>
    have hid : item.id = id := hitem.id_eq h.ack
    refine .bind_eq h.config_eq ?_
    simp only [h.name_eq, hid]
    cases hm : store.messages.lookup (name, id) with
    | none =>
      rw [Store.get_none hm]
      exact .intro ⟨m, h.kept, Or.inl rfl⟩
    | some message =>
      rw [Store.get_some hm]
      have hmid : message.id = id := h.keyed _ _ hm
      refine (h.redeliverOrDrop (hmid ▸ hitem) priority).bind fun r hr => ?_
      obtain ⟨r, q', store'⟩ := r
      rw [hmid] at hr
      cases r with
      | error e => exact .intro hr
      | ok dropped =>
        obtain ⟨m', hkept, hl⟩ := hr
        simp only
        cases hs : keepNacked store' noFaults config message dropped priority metadata with
        | error e => exact .intro ⟨m', hkept, hl⟩
        | ok store'' =>
          obtain ⟨hkey, hframe⟩ := keepNacked_spec hkept.live.keyed h.name_eq message dropped priority metadata hs
          have hlive : Live name config m' q' store'' := { hkept.live with keyed := hkey }
          exact .bind_eq (hlive.prometheus cfg) (.intro
            ⟨m', ⟨hlive, hkept.frame.trans hframe, hkept.kind, hkept.held, hkept.distinct⟩, hl⟩)

theorem Live.ackTimeout (h : Live name config m q store) (id : UInt64) :
    Returns (q.ackTimeout store cfg noFaults id) fun r => ∃ m', Kept name config m q store m' r.2.1 r.2.2 ∧
      DelayedQueue.Less q.ackQueue id r.2.1.ackQueue := by
  unfold Queue.ackTimeout
  refine (DelayedQueue.get_spec h.ack id).bind fun item hitem => ?_
  cases item with
  | none => exact .intro ⟨m, h.kept, Or.inl rfl⟩
  | some item =>
    refine .bind_eq h.config_eq ?_
    simp only [h.name_eq]
    cases hm : store.messages.lookup (name, id) with
    | none =>
      rw [Store.get_none hm]
      refine (dropUnacked_spec h.queue_eq h.memory h.ack config item.group id).bind fun q' hq' => ?_
      obtain ⟨m', aq, rfl, hs, hk, hready, hl⟩ := hq'
      exact .intro ⟨m', ⟨h.update hs (hl.sound h.ack) q.notifyCh h.keyed, .refl _ _, hk,
        (heldIds_ready hready).le.trans (heldIds_less hl), fun hd => (hd.less hl).ready_eq hready⟩, hl⟩
    | some message =>
      rw [Store.get_some hm]
      have hmid : message.id = id := h.keyed _ _ hm
      refine (h.redeliverOrDrop (hmid ▸ hitem) 0).bind fun r hr => ?_
      obtain ⟨r, q', store'⟩ := r
      rw [hmid] at hr
      cases r with
      | error e => exact .intro hr
      | ok dropped =>
        obtain ⟨m', hkept, hl⟩ := hr
        exact .bind_eq (hkept.live.prometheus cfg) (.intro ⟨m', hkept, hl⟩)

theorem locate_spec (hm : m.Safe) (ha : q.ackQueue.queue.Sound) (group : String) (id : UInt64) :
    Returns (q.locate m group id) fun place =>
      match place with
      | none => True
      | some .ready => True
      | some .unacked => ∃ it, q.ackQueue.queue.Found id it := by
  unfold locate
  refine (hm.get group id).bind fun item _ => ?_
  cases item with
  | some item => exact .intro trivial
  | none =>
    refine (DelayedQueue.get_spec ha id).bind fun item hitem => .intro ?_
    cases item with
    | none => trivial
    | some item => exact ⟨item, hitem⟩

/-- The ready copy gets the priority, or else the in-flight item does in place of its deadline. -/
theorem Live.updatePriority (h : Live name config m q store) (id : UInt64) (newPriority : Int) :
    Returns (q.updatePriority store noFaults id newPriority) fun r => ∃ m', Kept name config m q store m' r.2.1 r.2.2 ∧
      (r.2.1.ackQueue = q.ackQueue ∨ (∃ it, q.ackQueue.queue.Found id it) ∧
        r.2.1.ackQueue = q.ackQueue.itemUpdatePriority id newPriority) := by
  unfold Queue.updatePriority
  refine .bind_eq h.config_eq ?_
  simp only [h.name_eq]
  cases hm : store.messages.lookup (name, id) with
  | none =>
    rw [Store.get_none hm]
    exact .intro ⟨m, h.kept, Or.inl rfl⟩
  | some msg =>
    rw [Store.get_some hm]
    have hid : msg.id = id := h.keyed _ _ hm
    have hkey := h.keyed.insert { msg with priority := newPriority } hid
    refine .bind_eq h.queue_eq ((locate_spec h.memory h.ack msg.group id).bind fun place hplace => ?_)
    match place, hplace with
    | none, _ => exact .intro ⟨m, h.kept, Or.inl rfl⟩
    | some .ready, _ =>
      simp only [Store.updatePriority_some hm]
      -- the write through the pointer is one with the update that follows
      have hone := MemoryQueue.itemUpdatePriority_updatePriority m msg.group id newPriority
      obtain ⟨m', hm', hs, hk, hr⟩ := h.memory.updatePriority msg.group id newPriority
      obtain ⟨m1, e1, e2⟩ := Option.bind_eq_some_iff.mp (hone.trans hm')
      have hw : q.writePriority m msg.group id newPriority .ready = some { q with queue := some m1 } := by
        simp only [writePriority, e1, Option.bind_eq_bind, Option.bind_some]
      exact .bind_eq hw (.bind_eq rfl (.bind_eq e2 (.intro ⟨m', ⟨h.update hs h.ack q.notifyCh hkey, .insert _ _ _ _, hk,
        (heldIds_repriced hr).le, fun hd => hd.repriced hr⟩, Or.inl rfl⟩)))
    | some .unacked, ⟨it, hf⟩ =>
      simp only [Store.updatePriority_some hm]
      have hrep := PriorityMemoryQueue.itemUpdatePriority_found hf newPriority
      refine .bind_eq rfl (.bind_eq h.queue_eq ((h.memory.updatePriority msg.group id newPriority).bind fun m' hm' => ?_))
      obtain ⟨hs, hk, hr⟩ := hm'
      exact .intro ⟨m', ⟨h.update hs (hrep.sound h.ack) q.notifyCh hkey, .insert _ _ _ _, hk,
        ((heldIds_repriced hr).trans (heldIds_replaced hrep)).le, fun hd => (hd.replaced hrep).repriced hr⟩,
          Or.inr ⟨⟨it, hf⟩, rfl⟩⟩

/-! ## New queues and new settings -/

/-- The types `Init` makes a memory queue for. -/
def KnownType (queueType : String) : Prop := toUpper queueType = "FAIR" ∨ toUpper queueType = "DELAYED"

instance (queueType : String) : Decidable (KnownType queueType) := inferInstanceAs (Decidable (_ ∨ _))

theorem limit_toNat (n : UInt32) : MemoryQueue.Limit (n.toNat : Int) := by
  have := n.toNat_lt
  unfold MemoryQueue.Limit maxInt64
  omega

theorem memoryQueue_unknown {queueType : String} (h : ¬ KnownType queueType) (settings : QueueSettings) :
    memoryQueue queueType settings = none := by
  unfold KnownType at h
  rw [not_or] at h
  unfold memoryQueue
  rw [if_neg h.1, if_neg h.2]

theorem memoryQueue_known {queueType : String} (h : KnownType queueType) (settings : QueueSettings) :
    ∃ m, memoryQueue queueType settings = some m ∧ m.Inv ∧ m.ready = 0 ∧ ∀ g, m.unacked g = 0 := by
  have hl := limit_toNat settings.maxUnacked
  unfold memoryQueue
  split
  · cases settings.strategy with
    | weighted => exact ⟨_, rfl, ⟨FairWeightedQueue.new_safe hl, FairWeightedQueue.new_full _⟩, rfl, fun _ => rfl⟩
    | roundRobin => exact ⟨_, rfl, FairRoundRobinQueue.new_inv _, rfl, fun _ => rfl⟩
    | unspecified => exact ⟨_, rfl, FairRoundRobinQueue.new_inv _, rfl, fun _ => rfl⟩
  · rw [if_pos (h.resolve_left ‹_›)]
    exact ⟨_, rfl, ⟨PriorityMemoryQueue.new_exact, PriorityMemoryQueue.new_heaped, rfl⟩, rfl, fun _ => rfl⟩

/-- What `CreateQueue` makes of a new queue, when its checks pass. -/
def created (name queueType : String) (settings : QueueSettings) : Queue := new.init queueType name settings

theorem created_inv {queueType : String} {settings : QueueSettings} (h : (created name queueType settings).queue = some m) :
    m.Inv ∧ m.ready = 0 ∧ ∀ g, m.unacked g = 0 := by
  have h : memoryQueue queueType settings = some m := h
  by_cases hk : KnownType queueType
  · obtain ⟨m', hm', hinv⟩ := memoryQueue_known hk settings
    rw [h] at hm'; cases hm'
    exact hinv
  · rw [memoryQueue_unknown hk] at h; cases h

theorem created_held {queueType : String} {settings : QueueSettings} (h : (created name queueType settings).queue = some m) :
    heldIds m (created name queueType settings).ackQueue = 0 := by
  unfold heldIds
  rw [(created_inv h).2.1]
  rfl

/-- The settings of a new queue, or why it is refused. -/
def newSettings (cfg : Config) (queueType : String) (settings : QueueSettings) : Except Err QueueSettings :=
  match checkType queueType settings, checkedAckTimeout cfg settings.ackTimeout with
  | .error e, _ => .error e
  | .ok (), .error e => .error e
  | .ok (), .ok ackTimeout => .ok { settings with ackTimeout := ackTimeout }

theorem createQueue_eq (store : Store) (cfg : Config) (queueType name : String) (settings : QueueSettings) :
    match newSettings cfg queueType settings with
    | .error e => ∃ q, new.createQueue store cfg noFaults queueType name settings = (.error e, q, store)
    | .ok settings' =>
      new.createQueue store cfg noFaults queueType name settings = (.ok (), created name queueType settings',
        { store with queues := store.queues.insert name ⟨name, queueType, settings'⟩ }) := by
  unfold Queue.createQueue newSettings
  cases checkType queueType settings with
  | error e => exact ⟨_, rfl⟩
  | ok u =>
    cases checkedAckTimeout cfg settings.ackTimeout with
    | error e => exact ⟨_, rfl⟩
    | ok ackTimeout =>
      simp only [Store.createQueue, noFaults, Bool.false_eq_true, if_false]
      rfl

/-- The settings `UpdateQueue` takes over, or why it refuses: the strategy stays, and no ack
    timeout means the default one. -/
def changedSettings (cfg : Config) (config : QueueConfig) (settings : QueueSettings) : Except Err QueueSettings :=
  if config.settings.strategy ≠ settings.strategy then .error .invalidQueueSettings
  else
    match checkedAckTimeout cfg settings.ackTimeout with
    | .error e => .error e
    | .ok ackTimeout => .ok { settings with ackTimeout := ackTimeout }

theorem updateQueue_eq (hc : q.config = some config) (store : Store) (cfg : Config) (settings : QueueSettings) :
    q.updateQueue store cfg noFaults settings =
      match changedSettings cfg config settings with
      | .error e => some (.error e, q, store)
      | .ok settings' => q.queue.map fun m =>
        (.ok (), { q with
            config := some { config with settings := settings' }
            queue := some (m.updateMaxUnacked settings'.maxUnacked.toNat) },
          { store with queues := store.queues.insert config.name { config with settings := settings' } }) := by
  unfold Queue.updateQueue changedSettings
  simp only [hc, Option.bind_eq_bind, Option.bind_some]
  by_cases hs : config.settings.strategy ≠ settings.strategy
  · rw [if_pos hs, if_pos hs]
  · rw [if_neg hs, if_neg hs]
    cases checkedAckTimeout cfg settings.ackTimeout with
    | error e => rfl
    | ok ackTimeout =>
      simp only [Store.updateQueue, noFaults, Bool.false_eq_true, if_false]
      cases q.queue <;> rfl

theorem Live.updated (h : Live name config m q store) (settings : QueueSettings) :
    Live name { config with settings := settings } (m.updateMaxUnacked settings.maxUnacked.toNat)
      { q with
        config := some { config with settings := settings }
        queue := some (m.updateMaxUnacked settings.maxUnacked.toNat) }
      { store with queues := store.queues.insert name { config with settings := settings } } :=
  ⟨rfl, h.name_eq, rfl, (h.memory.updateMaxUnacked (limit_toNat _)).1, h.ack, h.running, h.keyed⟩

/-! ## Queues of an unknown type -/

/-- A queue without a memory queue: nothing was ever stored in it. -/
structure Idle (name : String) (config : QueueConfig) (q : Queue) (store : Store) : Prop where
  config_eq : q.config = some config
  name_eq : config.name = name
  queue_eq : q.queue = none
  ack : q.ackQueue = .new false
  running : q.ackQueueMonitoring = true
  empty : ∀ id, store.messages.lookup (name, id) = none

section Idle

variable (h : Idle name config q store)
include h

theorem Idle.ack_get (id : UInt64) : q.ackQueue.get id = some none := by
  rw [h.ack]; exact PriorityMemoryQueue.get_missing rfl

theorem Idle.get (id : UInt64) : q.get store noFaults id = some (.error .messageNotFound) := by
  simp only [Queue.get, h.config_eq, Option.bind_eq_bind, Option.bind_some, h.name_eq, Store.get_none (h.empty id)]

theorem Idle.delete (id : UInt64) : q.delete store noFaults id = some (.error .messageNotFound, q, store) := by
  simp only [Queue.delete, h.config_eq, Option.bind_eq_bind, Option.bind_some, h.name_eq, Store.delete_none (h.empty id)]

theorem Idle.updatePriority (id : UInt64) (priority : Int) :
    q.updatePriority store noFaults id priority = some (.error .messageNotFound, q, store) := by
  simp only [Queue.updatePriority, h.config_eq, Option.bind_eq_bind, Option.bind_some, h.name_eq, Store.get_none (h.empty id)]

theorem Idle.touch (id : UInt64) (now : Int) : q.touch store id now = some (.error .messageNotFound, q, store) := by
  simp only [Queue.touch, h.ack_get, Option.bind_eq_bind, Option.bind_some]

theorem Idle.acked (id : UInt64) : q.ack store cfg noFaults id = some (.error .messageNotFound, q, store) := by
  simp only [Queue.ack, h.ack_get, Option.bind_eq_bind, Option.bind_some]

theorem Idle.nack (id : UInt64) (priority : Int) (metadata : Option Metadata) :
    q.nack store cfg noFaults id priority metadata = some (.error .messageNotFound, q, store) := by
  simp only [Queue.nack, h.ack_get, Option.bind_eq_bind, Option.bind_some]

theorem Idle.ackTimeout (id : UInt64) : q.ackTimeout store cfg noFaults id = some (.error .messageNotFound, q, store) := by
  simp only [Queue.ackTimeout, h.ack_get, Option.bind_eq_bind, Option.bind_some]

theorem Idle.dequeue (ack : Bool) (seed : UInt64) (now : Int) : q.dequeue store cfg noFaults ack seed now = none := by
  simp only [Queue.dequeue, h.queue_eq, Option.bind_eq_bind, Option.bind_none]

theorem Idle.enqueue (id : UInt64) (group : String) (priority : Int) (content : String) (metadata : Option Metadata) :
    q.enqueue store cfg noFaults id group priority content metadata = none := by
  simp only [Queue.enqueue, Store.enqueue, noFaults, Bool.false_eq_true, if_false, h.config_eq, h.queue_eq, Option.bind_eq_bind,
    Option.bind_some, Option.bind_none]

end Idle

end Queue

end Doq
