/-
  Doq.Queue.Refine — the queue does what the broker does (see `Doq.Queue.Broker`).

  `Refines name b q store` relates a queue and the store to a broker: the store holds the
  messages of the records, the memory queue is the broker's and holds exactly the ready
  ones, the ack queue exactly the ones in flight with their deadlines, each once, and the
  counters of a fair queue count the messages in flight.

  Proved: on related states every method returns, with the broker's answer and related
  states again, when no store call fails, an enqueued id is not stored and its group is one
  the memory queue files under its own name.
-/

import Doq.Lib.Listed
import Doq.Queue.Broker
import Doq.Queue.Safety

namespace Doq

open Lib Memory Storage

/-- What a broker's records are in the store and in memory. -/
structure Refines (name : String) (b : Broker) (q : Queue) (store : Store) : Prop where
  config_eq : q.config = some b.config
  name_eq : b.config.name = name
  queue_eq : q.queue = some b.memory
  running : q.ackQueueMonitoring = true
  inv : b.memory.Inv
  exact : q.ackQueue.queue.Exact
  maxFirst : q.ackQueue.queue.minFirst = false
  stored : ∀ id, store.messages.lookup (name, id) = (b.records id).map (·.message)
  ready : Listed Item.id b.memory.ready fun id => (b.records id).bind Record.readyItem
  ack : Listed Item.id q.ackQueue.held fun id => (b.records id).bind Record.ackItem
  keyed : ∀ id r, b.records id = some r → r.message.id = id
  accepts : ∀ id r, b.records id = some r → MemoryQueue.Accepts b.memory.kind r.message.group
  fair : b.config.type = "fair" → b.memory.kind ≠ .delayed
  counts : b.config.type = "fair" → ∀ g, b.memory.unacked g = q.ackQueue.held.countP (·.group = g)

namespace Refines

variable {name : String} {b : Broker} {q : Queue} {store : Store} {cfg : Config} {id : UInt64} {msg : Message} {d : Int}
  {m : MemoryQueue}

theorem live (h : Refines name b q store) : Queue.Live name b.config b.memory q store where
  config_eq := h.config_eq
  name_eq := h.name_eq
  queue_eq := h.queue_eq
  memory := h.inv.safe
  ack := h.exact.toSound
  running := h.running
  keyed i m hm := by
    rw [h.stored] at hm
    obtain ⟨r, hr, rfl⟩ := Option.map_eq_some_iff.mp hm
    exact h.keyed i r hr

theorem lookup_none (h : Refines name b q store) (hr : b.records id = none) : store.messages.lookup (name, id) = none := by
  rw [h.stored, hr]; rfl

theorem lookup_some (h : Refines name b q store) {status : Status} (hr : b.records id = some ⟨msg, status⟩) :
    store.messages.lookup (name, id) = some msg := by
  rw [h.stored, hr]; rfl

/-- A message that is not ready is not in the memory queue. -/
theorem not_ready (h : Refines name b q store) (hr : (b.records id).bind Record.readyItem = none) :
    ∀ it ∈ b.memory.ready, it.id ≠ id :=
  h.ready.notMem hr

theorem mem_ready (h : Refines name b q store) (hr : b.records id = some ⟨msg, .ready⟩) :
    ⟨id, msg.priority, msg.group⟩ ∈ b.memory.ready := by
  have hid : msg.id = id := h.keyed id _ hr
  have hl : (b.records id).bind Record.readyItem = some ⟨id, msg.priority, msg.group⟩ := by rw [hr, ← hid]; rfl
  exact h.ready.of_look hl

theorem missing (h : Refines name b q store) (hr : (b.records id).bind Record.ackItem = none) : q.ackQueue.queue.Missing id := by
  refine h.exact.toSound.missing fun hin => ?_
  obtain ⟨it, hit, hid⟩ := Multiset.mem_map.mp hin
  exact h.ack.notMem hr it hit hid

theorem found (h : Refines name b q store) (hr : b.records id = some ⟨msg, .inFlight d⟩) :
    q.ackQueue.queue.Found id ⟨id, d, msg.group⟩ := by
  have hid : msg.id = id := h.keyed id _ hr
  have hl : (b.records id).bind Record.ackItem = some ⟨id, d, msg.group⟩ := by rw [hr, ← hid]; rfl
  exact h.exact.found (h.ack.of_look hl)

/-- The record of a ready item. -/
theorem record_of_ready (h : Refines name b q store) {it : Item} (hit : it ∈ b.memory.ready) :
    ∃ msg, b.records it.id = some ⟨msg, .ready⟩ ∧ msg.id = it.id ∧ it.group = msg.group ∧ it.priority = msg.priority := by
  have hl := (h.ready.mem it).mp hit
  obtain ⟨r, hr, hi⟩ := Option.bind_eq_some_iff.mp hl
  obtain ⟨msg, status⟩ := r
  cases status with
  | ready =>
    cases hi
    exact ⟨msg, hr, rfl, rfl, rfl⟩
  | inFlight d => cases hi

/-- A queue just created is an empty broker. -/
theorem created {queueType : String} {settings : QueueSettings} {m : MemoryQueue} {store' : Store}
    (hm : Queue.memoryQueue queueType settings = some m) (hempty : ∀ id, store'.messages.lookup (name, id) = none) :
    Refines name ⟨⟨name, queueType, settings⟩, fun _ => none, m⟩ (Queue.created name queueType settings) store' := by
  have hq : (Queue.created name queueType settings).queue = some m := hm
  obtain ⟨hinv, hready, hun⟩ := Queue.created_inv hq
  exact {
    config_eq := rfl
    name_eq := rfl
    queue_eq := hq
    running := rfl
    inv := hinv
    exact := PriorityMemoryQueue.new_exact
    maxFirst := rfl
    stored := hempty
    ready := by rw [hready]; exact .empty
    ack := .empty
    keyed := nofun
    accepts := nofun
    fair := fun ht => by
      have ht : queueType = "fair" := ht
      subst ht
      unfold Queue.memoryQueue at hm
      rw [if_pos (by decide)] at hm
      cases hs : settings.strategy <;> rw [hs] at hm <;> cases hm <;> exact MemoryQueue.Kind.noConfusion
    counts := fun _ g => hun g }

/-- One record replaced, everywhere. -/
theorem put (h : Refines name b q store) {m : MemoryQueue} {aq : DelayedQueue} {store' : Store} {record : Option Record}
    (hinv : m.Inv) (hkind : m.kind = b.memory.kind) (hexact : aq.queue.Exact) (hmax : aq.queue.minFirst = false)
    (hready : Listed Item.id m.ready (Function.update (fun i =>
      (b.records i).bind Record.readyItem) id (record.bind Record.readyItem)))
    (hack : Listed Item.id aq.held (Function.update (fun i => (b.records i).bind Record.ackItem) id (record.bind Record.ackItem)))
    (hstored : ∀ i, store'.messages.lookup (name, i) =
      Function.update (fun i => (b.records i).map (·.message)) id (record.map (·.message)) i)
    (hrecord : ∀ r, record = some r → r.message.id = id ∧ MemoryQueue.Accepts b.memory.kind r.message.group)
    (hcounts : b.config.type = "fair" → ∀ g, m.unacked g = aq.held.countP (·.group = g)) (n : Nat) :
    Refines name (b.put id record m) { q with queue := some m, ackQueue := aq, notifyCh := n } store' where
  config_eq := h.config_eq
  name_eq := h.name_eq
  queue_eq := rfl
  running := h.running
  inv := hinv
  exact := hexact
  maxFirst := hmax
  stored i := by
    rw [hstored]
    exact (Function.apply_update (fun _ r => Option.map (·.message) r) b.records id record i).symm
  ready := hready.congr fun i => Function.apply_update (fun _ r => Option.bind r Record.readyItem) b.records id record i
  ack := hack.congr fun i => Function.apply_update (fun _ r => Option.bind r Record.ackItem) b.records id record i
  keyed i r hr := by
    have hr : Function.update b.records id record i = some r := hr
    by_cases e : i = id
    · rw [e, Function.update_self] at hr
      rw [e]; exact (hrecord r hr).1
    · rw [Function.update_of_ne e] at hr
      exact h.keyed i r hr
  accepts i r hr := by
    have hr : Function.update b.records id record i = some r := hr
    show MemoryQueue.Accepts m.kind _
    rw [hkind]
    by_cases e : i = id
    · rw [e, Function.update_self] at hr
      exact (hrecord r hr).2
    · rw [Function.update_of_ne e] at hr
      exact h.accepts i r hr
  fair ht := by
    show m.kind ≠ _
    rw [hkind]; exact h.fair ht
  counts := hcounts

/-- The ready messages stay when the record's status stays out of it. -/
theorem ready_same (h : Refines name b q store) {record : Option Record}
    (hr : record.bind Record.readyItem = (b.records id).bind Record.readyItem) :
    Listed Item.id b.memory.ready
      (Function.update (fun i => (b.records i).bind Record.readyItem) id (record.bind Record.readyItem)) := by
  rw [hr]
  exact h.ready.congr fun i => congrFun (Function.update_eq_self id fun i => (b.records i).bind Record.readyItem) i

theorem ack_same (h : Refines name b q store) {record : Option Record}
    (hr : record.bind Record.ackItem = (b.records id).bind Record.ackItem) :
    Listed Item.id q.ackQueue.held
      (Function.update (fun i => (b.records i).bind Record.ackItem) id (record.bind Record.ackItem)) := by
  rw [hr]
  exact h.ack.congr fun i => congrFun (Function.update_eq_self id fun i => (b.records i).bind Record.ackItem) i

theorem stored_insert (h : Refines name b q store) (id : UInt64) (msg : Message) (i : UInt64) :
    (store.messages.insert (name, id) msg).lookup (name, i) =
      Function.update (fun i => (b.records i).map (·.message)) id (some msg) i := by
  rw [FinMap.lookup_insert_eq]
  by_cases e : i = id
  · rw [e, if_pos rfl, Function.update_self]
  · rw [if_neg (by simp [e]), Function.update_of_ne e, h.stored]

theorem stored_erase (h : Refines name b q store) (id i : UInt64) :
    (store.messages.erase (name, id)).lookup (name, i) = Function.update (fun i => (b.records i).map (·.message)) id none i := by
  rw [FinMap.lookup_erase_eq]
  by_cases e : i = id
  · rw [e, if_pos rfl, Function.update_self]
  · rw [if_neg (by simp [e]), Function.update_of_ne e, h.stored]

/-! ## The methods -/

/-- The queue's method returns, as the broker's does. -/
def Follows {α : Type} (name : String) (store : Store) (x : Go (Queue.Outcome α)) (y : Go (Broker.Outcome α)) : Prop :=
  Returns x fun r => ∃ b', y = some (r.1, b') ∧ Refines name b' r.2.1 r.2.2 ∧ StoreFrame name store r.2.2

/-- Both refuse. -/
theorem refuse (α : Type) (h : Refines name b q store) (e : Err) :
    Follows name store (some ((.error e : Except Err α), q, store)) (some (.error e, b)) :=
  .intro ⟨b, rfl, h, .refl _ _⟩

theorem enqueue (h : Refines name b q store) (hnew : b.records id = none) {group : String}
    (hg : MemoryQueue.Accepts b.memory.kind (Queue.groupFor b.config group)) (priority : Int) (content : String)
    (metadata : Option Metadata) :
    Follows name store (q.enqueue store cfg noFaults id group priority content metadata)
      (b.enqueue id group priority content metadata) := by
  have hfresh : ∀ it ∈ b.memory.ready, it.id ≠ id := h.not_ready (by rw [hnew]; rfl)
  unfold Follows Queue.enqueue
  refine .bind_eq h.config_eq ?_
  simp only [Store.enqueue, noFaults, Bool.false_eq_true, if_false, h.name_eq]
  refine .bind_eq h.queue_eq (.bind_eq (h.inv.safe.get_none hfresh _) ?_)
  have hi : (⟨id, priority, Queue.groupFor b.config group⟩ : Item).group = Queue.groupFor b.config group := rfl
  obtain ⟨m, hm, hres⟩ := h.inv.enqueue hg hi hfresh
  have hput : Refines name (b.put id (some ⟨⟨Queue.groupFor b.config group, id, priority, content, metadata, 0⟩, .ready⟩) m)
      { q with queue := some m, ackQueue := q.ackQueue, notifyCh := q.notifyCh + 1 }
      { store with messages :=
        store.messages.insert (name, id) ⟨Queue.groupFor b.config group, id, priority, content, metadata, 0⟩ } := by
    refine h.put hres.inv hres.kind h.exact h.maxFirst ?_ (h.ack_same (by rw [hnew]; rfl)) (h.stored_insert id _) ?_ ?_ _
    · rw [hres.ready]
      refine h.ready.push (a := ⟨id, priority, Queue.groupFor b.config group⟩) ?_
      show (b.records id).bind _ = none
      rw [hnew]; rfl
    · intro r hr; cases hr; exact ⟨rfl, hg⟩
    · intro ht g
      rw [hres.unacked]; exact h.counts ht g
  refine .bind_eq hm (.bind_eq (hput.live.prometheus cfg) (.intro ⟨_, ?_, hput, .insert _ _ _ _⟩))
  unfold Broker.enqueue
  simp only [Option.bind_eq_bind, hm, Option.bind_some]

/-- A ready message delivered and acked at once. -/
theorem take (h : Refines name b q store) {it : Item} {rest : Multiset Item} (hrest : b.memory.ready = it ::ₘ rest)
    (hr : b.records it.id = some ⟨msg, .ready⟩) {m : MemoryQueue}
    (hres : MemoryQueue.Result b.memory m rest (b.memory.charged true it.group)) :
    Refines name (b.put it.id none m) { q with queue := some m }
      { store with messages := store.messages.erase (name, it.id) } := by
  refine h.put hres.inv hres.kind h.exact h.maxFirst ?_ (h.ack_same (by rw [hr]; rfl)) (h.stored_erase it.id)
    (fun r hr => by cases hr) ?_
    q.notifyCh
  · rw [hres.ready]
    exact h.ready.pop hrest
  · intro ht g
    rw [hres.unacked, ← h.counts ht g]
    simp [MemoryQueue.charged]

/-- A ready message delivered and now in flight. -/
theorem deliver (h : Refines name b q store) {it : Item} {rest : Multiset Item} (hrest : b.memory.ready = it ::ₘ rest)
    (hr : b.records it.id = some ⟨msg, .ready⟩) (hg : it.group = msg.group) {m : MemoryQueue}
    (hres : MemoryQueue.Result b.memory m rest (b.memory.charged false it.group)) {aq : DelayedQueue}
    (hgrown : q.ackQueue.queue.Grown ⟨it.id, d, msg.group⟩ aq.queue) :
    Refines name (b.put it.id (some ⟨{ msg with deliveryCount := msg.deliveryCount + 1 }, .inFlight d⟩) m)
      { q with queue := some m, ackQueue := aq }
      { store with messages :=
        store.messages.insert (name, it.id) { msg with deliveryCount := msg.deliveryCount + 1 } } := by
  have hheld : aq.held = ⟨it.id, d, msg.group⟩ ::ₘ q.ackQueue.held := hgrown.held
  have hid : msg.id = it.id := h.keyed it.id _ hr
  have hacc := h.accepts it.id _ hr
  have hnot : (b.records it.id).bind Record.ackItem = none := by rw [hr]; rfl
  have hout : it.id ∉ q.ackQueue.queue.ids := by
    intro hin
    obtain ⟨y, hy, hyid⟩ := Multiset.mem_map.mp hin
    exact h.ack.notMem hnot y hy hyid
  refine h.put hres.inv hres.kind (hgrown.exact h.exact hout) (hgrown.minFirst.trans h.maxFirst) ?_ ?_
    (h.stored_insert it.id _) ?_ ?_
    q.notifyCh
  · rw [hres.ready]
    exact h.ready.pop hrest
  · have hitem : (some (⟨{ msg with deliveryCount := msg.deliveryCount + 1 }, .inFlight d⟩ : Record)).bind Record.ackItem =
        some ⟨it.id, d, msg.group⟩ := by rw [← hid]; rfl
    rw [hitem, hheld]
    exact h.ack.push (a := ⟨it.id, d, msg.group⟩) hnot
  · intro r hr'; cases hr'
    exact ⟨hid, hacc⟩
  · intro ht g
    rw [hres.unacked, hheld, Multiset.countP_cons, MemoryQueue.charged, h.counts ht g]
    have hk := h.fair ht
    by_cases e : msg.group = g
    · simp [e, hg, hk]
    · simp [e, hg, Ne.symm e]

theorem dequeue (h : Refines name b q store) (ack : Bool) (seed : UInt64) (now : Int) :
    Follows name store (q.dequeue store cfg noFaults ack seed now) (b.dequeue ack seed now) := by
  unfold Follows Queue.dequeue Broker.dequeue
  refine .bind_eq h.queue_eq ?_
  by_cases hlen : b.memory.len = 0
  · rw [if_pos hlen, if_pos hlen]
    exact h.refuse Message .emptyQueue
  · rw [if_neg hlen, if_neg hlen]
    obtain ⟨⟨item, m⟩, hm, hres⟩ := h.inv.dequeue ack seed now
    refine .bind_eq hm ?_
    simp only [hm, Option.bind_eq_bind, Option.bind_some]
    cases item with
    | none =>
      refine .intro ⟨{ b with memory := m }, rfl, ?_, .refl _ _⟩
      exact { h with
        queue_eq := rfl
        inv := hres.inv
        ready := by rw [hres.ready]; exact h.ready
        accepts := by rw [hres.kind]; exact h.accepts
        fair := by rw [hres.kind]; exact h.fair
        counts := fun ht g => (hres.unacked g).trans (h.counts ht g) }
    | some it =>
      obtain ⟨rest, hrest, hres⟩ := hres
      obtain ⟨msg, hr, hid, hg, _⟩ := h.record_of_ready (hrest ▸ Multiset.mem_cons_self it rest)
      simp only [hr, Option.bind_some]
      refine .bind_eq h.config_eq ?_
      simp only [h.name_eq]
      cases ack with
      | true =>
        have hput := h.take hrest hr hres
        simp only [Store.dequeue_acked (h.lookup_some hr), if_true]
        exact .bind_eq (hput.live.prometheus cfg) (.intro ⟨_, rfl, hput, .erase _ _ _⟩)
      | false =>
        have hput := h.deliver hrest hr hg hres
          (PriorityMemoryQueue.heapPush_grown q.ackQueue.queue ⟨it.id, Queue.ackDeadline b.config now, msg.group⟩)
        simp only [Store.dequeue_unacked (h.lookup_some hr), Bool.false_eq_true, if_false]
        exact .bind_eq (hput.live.prometheus cfg) (.intro ⟨_, rfl, hput, .insert _ _ _ _⟩)

theorem get (h : Refines name b q store) (id : UInt64) :
    Returns (q.get store noFaults id) fun r => b.get id = some (r, b) := by
  unfold Queue.get Broker.get
  refine .bind_eq h.config_eq (.intro ?_)
  rw [h.name_eq]
  cases hr : b.records id with
  | none => rw [Store.get_none (h.lookup_none hr)]
  | some r => rw [Store.get_some (h.lookup_some hr)]

/-! ### Messages that leave flight -/

theorem releaseSlot_eq (h : q.queue = some m) (b : Broker) (group : String) :
    q.releaseSlot b.config group = (b.release m group).map fun m => { q with queue := some m } := by
  unfold Queue.releaseSlot Broker.release
  split
  · simp only [h, Option.bind_eq_bind, Option.bind_some]
    cases m.updateWeights group <;> rfl
  · rw [Option.map_some, ← h]

/-- The counters of a fair queue count a message in flight. -/
theorem unacked_pos (h : Refines name b q store) (hr : b.records id = some ⟨msg, .inFlight d⟩) (ht : b.config.type = "fair") :
    0 < b.memory.unacked msg.group := by
  rw [h.counts ht]
  exact Int.natCast_pos.mpr (Multiset.countP_pos.mpr ⟨_, (h.found hr).mem, rfl⟩)

/-- The slot of a message in flight. -/
theorem release (h : Refines name b q store) (hr : b.records id = some ⟨msg, .inFlight d⟩) (hinv : m.Inv)
    (hkind : m.kind = b.memory.kind)
    (hun : ∀ g, m.unacked g = b.memory.unacked g) :
    Returns (b.release m msg.group) fun m' => MemoryQueue.Result m m' m.ready fun g =>
      b.memory.unacked g - if b.config.type = "fair" ∧ g = msg.group then 1 else 0 := by
  unfold Broker.release
  split
  · rename_i ht
    have hpos : 0 < m.unacked msg.group := hun msg.group ▸ h.unacked_pos hr ht
    refine (hinv.updateWeights (Or.inr hpos)).mono fun m' hm' => { hm' with unacked := fun g => ?_ }
    rw [hm'.unacked, hun, hkind]
    simp [ht, h.fair ht]
  · rename_i ht
    exact .intro ⟨hinv, rfl, rfl, fun g => by simp [ht, hun]⟩

/-- The counters once a message has left flight. -/
theorem counts_released (h : Refines name b q store) {aq : DelayedQueue}
    (hs : q.ackQueue.queue.Shrunk ⟨id, d, msg.group⟩ aq.queue) {m' : MemoryQueue}
    (hun : ∀ g, m'.unacked g = b.memory.unacked g - if b.config.type = "fair" ∧ g = msg.group then 1 else 0)
    (ht : b.config.type = "fair") (g : String) : m'.unacked g = aq.held.countP (·.group = g) := by
  have hheld : q.ackQueue.held = ⟨id, d, msg.group⟩ ::ₘ aq.held := hs.held
  rw [hun, h.counts ht g, hheld, Multiset.countP_cons]
  by_cases e : msg.group = g
  · simp [ht, e]
  · simp [e, Ne.symm e]

/-- The ack queue without a message that was in flight. -/
theorem ack_pop (h : Refines name b q store) {aq : DelayedQueue} (hs : q.ackQueue.queue.Shrunk ⟨id, d, msg.group⟩ aq.queue)
    {record : Option Record} (hr : record.bind Record.ackItem = none) :
    Listed Item.id aq.held (Function.update (fun i => (b.records i).bind Record.ackItem) id (record.bind Record.ackItem)) := by
  have hheld : q.ackQueue.held = ⟨id, d, msg.group⟩ ::ₘ aq.held := hs.held
  rw [hr]
  exact h.ack.pop hheld

/-- A message in flight removed for good. -/
theorem drop (h : Refines name b q store) (hr : b.records id = some ⟨msg, .inFlight d⟩) {m' : MemoryQueue} {aq : DelayedQueue}
    (hres : MemoryQueue.Result b.memory m' b.memory.ready fun g =>
      b.memory.unacked g - if b.config.type = "fair" ∧ g = msg.group then 1 else 0)
    (hs : q.ackQueue.queue.Shrunk ⟨id, d, msg.group⟩ aq.queue) :
    Refines name (b.put id none m') { q with queue := some m', ackQueue := aq }
      { store with messages := store.messages.erase (name, id) } := by
  refine h.put hres.inv hres.kind (hs.exact h.exact) (hs.minFirst.trans h.maxFirst) ?_ (h.ack_pop hs rfl) (h.stored_erase id)
    (fun r hr => by cases hr) (h.counts_released hs hres.unacked) q.notifyCh
  rw [hres.ready]
  exact h.ready_same (by rw [hr]; rfl)

/-- Taking a message in flight out of the ack queue. -/
theorem ack_delete (h : Refines name b q store) (hr : b.records id = some ⟨msg, .inFlight d⟩) :
    ∃ aq, DelayedQueue.Taken q.ackQueue ⟨id, d, msg.group⟩ aq :=
  DelayedQueue.taken h.exact (h.found hr).mem

theorem delete_in_flight (h : Refines name b q store) (hr : b.records id = some ⟨msg, .inFlight d⟩) :
    ∃ m aq, b.release b.memory msg.group = some m ∧
      q.delete store noFaults id = some (.ok (), { q with queue := some m, ackQueue := aq },
        { store with messages := store.messages.erase (name, id) }) ∧
      MemoryQueue.Result b.memory m b.memory.ready (fun g =>
        b.memory.unacked g - if b.config.type = "fair" ∧ g = msg.group then 1 else 0) ∧
      DelayedQueue.Taken q.ackQueue ⟨id, d, msg.group⟩ aq := by
  have hid : msg.id = id := h.keyed id _ hr
  have hnone := h.inv.safe.delete_none (h.not_ready (by rw [hr]; rfl)) msg.group
  obtain ⟨m, hm, hres⟩ := h.release hr h.inv rfl fun _ => rfl
  obtain ⟨aq, hs⟩ := h.ack_delete hr
  have haq : q.ackQueue.delete id = some (some ⟨id, d, msg.group⟩, aq) := hs.delete_eq
  refine ⟨m, aq, hm, ?_, hres, hs⟩
  have hdrop : Queue.dropUnacked { q with queue := some b.memory } b.config msg.group id =
      some { q with queue := some m, ackQueue := aq } := by
    have hq : ({ q with queue := some b.memory, ackQueue := aq } : Queue).queue = some b.memory := rfl
    simp only [Queue.dropUnacked, haq, Option.bind_eq_bind, Option.bind_some, releaseSlot_eq hq b, hm, Option.map_some]
  rw [h.config_eq] at hdrop
  simp only [Queue.delete, h.config_eq, h.name_eq, Store.delete_some (h.lookup_some hr), hid, h.queue_eq, hnone, hdrop,
    Option.bind_eq_bind, Option.bind_some]

theorem delete (h : Refines name b q store) (id : UInt64) : Follows name store (q.delete store noFaults id) (b.delete id) := by
  unfold Follows Broker.delete
  match hr : b.records id with
  | none =>
    have hdel : q.delete store noFaults id = some (.error .messageNotFound, q, store) := by
      simp only [Queue.delete, h.config_eq, h.name_eq, Store.delete_none (h.lookup_none hr), Option.bind_eq_bind,
        Option.bind_some]
    rw [hdel]
    exact h.refuse Unit .messageNotFound
  | some ⟨msg, .ready⟩ =>
    have hid : msg.id = id := h.keyed id _ hr
    obtain ⟨⟨it, m⟩, hm, rfl, rest, hrest, hres⟩ := h.inv.delete_ready (h.mem_ready hr)
    have hm : b.memory.delete msg.group id = some (some ⟨id, msg.priority, msg.group⟩, m) := hm
    have hmiss := PriorityMemoryQueue.delete_missing (h.missing (by rw [hr]; rfl))
    have hput : Refines name (b.put id none m) { q with queue := some m, ackQueue := q.ackQueue, notifyCh := q.notifyCh }
        { store with messages := store.messages.erase (name, id) } := by
      refine h.put hres.inv hres.kind h.exact h.maxFirst ?_ (h.ack_same (by rw [hr]; rfl)) (h.stored_erase id)
        (fun r hr => by cases hr) (fun ht g => (hres.unacked g).trans (h.counts ht g)) _
      rw [hres.ready]
      exact h.ready.pop hrest
    refine .of_eq (a := (.ok (), { q with queue := some m }, { store with messages := store.messages.erase (name, id) })) ?_
      ⟨_, by simp only [hm, Option.bind_eq_bind, Option.bind_some], hput, .erase _ _ _⟩
    simp only [Queue.delete, h.config_eq, h.name_eq, Store.delete_some (h.lookup_some hr), hid, h.queue_eq, hm, Queue.dropUnacked,
      DelayedQueue.delete, hmiss, Option.bind_eq_bind, Option.bind_some]
  | some ⟨msg, .inFlight d⟩ =>
    obtain ⟨m, aq, hm, hdel, hres, hs⟩ := h.delete_in_flight hr
    exact .of_eq hdel ⟨_, by simp only [hm, Option.bind_eq_bind, Option.bind_some], h.drop hr hres hs.shrunk, .erase _ _ _⟩

/-- A message that is not in flight. -/
theorem not_in_flight (h : Refines name b q store) (hr : (b.records id).bind Record.ackItem = none) :
    q.ackQueue.get id = some none :=
  PriorityMemoryQueue.get_missing (h.missing hr)

theorem in_flight (h : Refines name b q store) (hr : b.records id = some ⟨msg, .inFlight d⟩) :
    q.ackQueue.get id = some (some ⟨id, d, msg.group⟩) :=
  PriorityMemoryQueue.get_found (h.found hr)

theorem stored_same (h : Refines name b q store) {status : Status} (hr : b.records id = some ⟨msg, status⟩) (i : UInt64) :
    store.messages.lookup (name, i) = Function.update (fun i => (b.records i).map (·.message)) id (some msg) i := by
  have hmsg : some msg = (b.records id).map (·.message) := by rw [hr]; rfl
  rw [hmsg, h.stored]
  exact (congrFun (Function.update_eq_self id fun i => (b.records i).map (·.message)) i).symm

/-- A message that stays in flight, with another deadline and perhaps other contents. -/
theorem move (h : Refines name b q store) (hr : b.records id = some ⟨msg, .inFlight d⟩) {d' : Int} {msg' : Message}
    (hid : msg'.id = id) (hg : msg'.group = msg.group) {aq : DelayedQueue}
    (hrep : q.ackQueue.queue.Replaced ⟨id, d, msg.group⟩ d' aq.queue)
    (hres : MemoryQueue.Result b.memory m b.memory.ready b.memory.unacked) {store' : Store}
    (hstored : ∀ i, store'.messages.lookup (name, i) =
      Function.update (fun i => (b.records i).map (·.message)) id (some msg') i) :
    Refines name (b.put id (some ⟨msg', .inFlight d'⟩) m) { q with queue := some m, ackQueue := aq } store' := by
  obtain ⟨rest, h1, h2⟩ := hrep.held
  have h1 : q.ackQueue.held = ⟨id, d, msg.group⟩ ::ₘ rest := h1
  have h2 : aq.held = ⟨id, d', msg.group⟩ ::ₘ rest := h2
  have hacc := h.accepts id _ hr
  refine h.put hres.inv hres.kind (hrep.exact h.exact) (hrep.minFirst.trans h.maxFirst) ?_ ?_ hstored ?_ ?_ q.notifyCh
  · rw [hres.ready]
    exact h.ready_same (by rw [hr]; rfl)
  · have hitem : (some (⟨msg', .inFlight d'⟩ : Record)).bind Record.ackItem = some ⟨id, d', msg.group⟩ := by
      rw [← hid, ← hg]; rfl
    rw [hitem, h2]
    exact h.ack.replace h1 rfl
  · intro r hr'; cases hr'
    exact ⟨hid, by rw [hg]; exact hacc⟩
  · intro ht g
    rw [hres.unacked, h.counts ht g, h1, h2, Multiset.countP_cons, Multiset.countP_cons]

theorem memory_same (h : Refines name b q store) : MemoryQueue.Result b.memory b.memory b.memory.ready b.memory.unacked :=
  ⟨h.inv, rfl, rfl, fun _ => rfl⟩

theorem touch (h : Refines name b q store) (id : UInt64) (now : Int) :
    Follows name store (q.touch store id now) (b.touch id now) := by
  unfold Follows Queue.touch Broker.touch
  match hr : b.records id with
  | none =>
    refine .bind_eq (h.not_in_flight (by rw [hr]; rfl)) ?_
    exact h.refuse Unit .messageNotFound
  | some ⟨msg, .ready⟩ =>
    refine .bind_eq (h.not_in_flight (by rw [hr]; rfl)) ?_
    exact h.refuse Unit .messageNotFound
  | some ⟨msg, .inFlight d⟩ =>
    refine .bind_eq (h.in_flight hr) (.bind_eq h.config_eq ?_)
    obtain ⟨queue, hu, hrep, _⟩ := PriorityMemoryQueue.updatePriority_found (h.found hr) (Queue.ackDeadline b.config now)
    have hu' : q.ackQueue.updatePriority id (Queue.ackDeadline b.config now) = some ⟨queue⟩ := by
      simp only [DelayedQueue.updatePriority, hu, Option.bind_eq_bind, Option.bind_some]
    have hput := h.move hr (h.keyed id _ hr) rfl hrep h.memory_same (h.stored_same hr)
    rw [← h.queue_eq] at hput
    exact .bind_eq hu' (.intro ⟨_, rfl, hput, .refl _ _⟩)

theorem acked (h : Refines name b q store) (id : UInt64) : Follows name store (q.ack store cfg noFaults id) (b.ack id) := by
  unfold Follows Queue.ack Broker.ack
  match hr : b.records id with
  | none =>
    refine .bind_eq (h.not_in_flight (by rw [hr]; rfl)) ?_
    exact h.refuse Unit .messageNotFound
  | some ⟨msg, .ready⟩ =>
    refine .bind_eq (h.not_in_flight (by rw [hr]; rfl)) ?_
    exact h.refuse Unit .messageNotFound
  | some ⟨msg, .inFlight d⟩ =>
    refine .bind_eq (h.in_flight hr) (.bind_eq h.config_eq ?_)
    obtain ⟨m, hm, hres⟩ := h.release hr h.inv rfl fun _ => rfl
    have hrel : q.releaseAcked store noFaults b.config id = some (.ok { q with queue := some m }) := by
      unfold Queue.releaseAcked
      split
      · rw [h.name_eq]
        simp only [Store.get_some (h.lookup_some hr), releaseSlot_eq h.queue_eq b, hm, Option.map_some, Option.bind_eq_bind,
          Option.bind_some]
      · rename_i ht
        have hsame : m = b.memory := by
          unfold Broker.release at hm
          rw [if_neg ht] at hm
          exact (Option.some.inj hm).symm
        rw [hsame, ← h.queue_eq]
    obtain ⟨aq, hs⟩ := h.ack_delete hr
    have haq : q.ackQueue.delete id = some (some ⟨id, d, msg.group⟩, aq) := hs.delete_eq
    have hput := h.drop hr hres hs.shrunk
    refine .bind_eq hrel ?_
    simp only [Store.ack, noFaults, Bool.false_eq_true, if_false, h.name_eq]
    refine .bind_eq haq (.bind_eq (hput.live.prometheus cfg) (.intro ⟨_, ?_, hput, .erase _ _ _⟩))
    simp only [hm, Option.bind_eq_bind, Option.bind_some]

/-! ### Failed deliveries -/

/-- A message in flight that is ready again, with the contents a failed delivery leaves. -/
theorem requeue (h : Refines name b q store) (hr : b.records id = some ⟨msg, .inFlight d⟩) {msg' : Message} (hid : msg'.id = id)
    (hg : msg'.group = msg.group) {m' : MemoryQueue} {aq : DelayedQueue}
    (hres : MemoryQueue.Result b.memory m' (⟨id, msg'.priority, msg.group⟩ ::ₘ b.memory.ready) fun g =>
      b.memory.unacked g - if b.config.type = "fair" ∧ g = msg.group then 1 else 0)
    (hs : q.ackQueue.queue.Shrunk ⟨id, d, msg.group⟩ aq.queue) {store' : Store}
    (hstored : ∀ i, store'.messages.lookup (name, i) =
      Function.update (fun i => (b.records i).map (·.message)) id (some msg') i) (n : Nat) :
    Refines name (b.put id (some ⟨msg', .ready⟩) m') { q with queue := some m', ackQueue := aq, notifyCh := n } store' := by
  have hacc := h.accepts id _ hr
  refine h.put hres.inv hres.kind (hs.exact h.exact) (hs.minFirst.trans h.maxFirst) ?_ (h.ack_pop hs rfl) hstored ?_
    (h.counts_released hs hres.unacked) n
  · have hitem : (some (⟨msg', .ready⟩ : Record)).bind Record.readyItem = some ⟨id, msg'.priority, msg.group⟩ := by
      rw [← hid, ← hg]; rfl
    rw [hitem, hres.ready]
    refine h.ready.push (a := ⟨id, msg'.priority, msg.group⟩) ?_
    show (b.records id).bind _ = none
    rw [hr]; rfl
  · intro r hr'; cases hr'
    exact ⟨hid, by rw [hg]; exact hacc⟩

theorem redeliverOrDrop_exhausted (h : Refines name b q store) (hr : b.records id = some ⟨msg, .inFlight d⟩)
    (hex : b.exhausted msg)
    (priority : Int) :
    ∃ m aq, b.release b.memory msg.group = some m ∧
      q.redeliverOrDrop store noFaults b.config msg priority = some (.ok true, { q with queue := some m, ackQueue := aq },
        { store with messages := store.messages.erase (name, id) }) ∧
      MemoryQueue.Result b.memory m b.memory.ready (fun g =>
        b.memory.unacked g - if b.config.type = "fair" ∧ g = msg.group then 1 else 0) ∧
      DelayedQueue.Taken q.ackQueue ⟨id, d, msg.group⟩ aq := by
  have hid : msg.id = id := h.keyed id _ hr
  obtain ⟨m, aq, hm, hdel, hres, hs⟩ := h.delete_in_flight hr
  refine ⟨m, aq, hm, ?_, hres, hs⟩
  unfold Broker.exhausted at hex
  simp only [Queue.redeliverOrDrop, if_pos hex, hid, hdel, Option.bind_eq_bind, Option.bind_some]

theorem redeliverOrDrop_again (h : Refines name b q store) (hr : b.records id = some ⟨msg, .inFlight d⟩) (hex : ¬ b.exhausted msg)
    {priority p : Int} (hp : p = if priority ≠ 0 then priority else msg.priority) :
    ∃ m m' aq, b.memory.enqueue msg.group ⟨id, p, msg.group⟩ = some m ∧ b.release m msg.group = some m' ∧
      q.redeliverOrDrop store noFaults b.config msg priority =
        some (.ok false, { q with queue := some m', ackQueue := aq, notifyCh := q.notifyCh + 1 }, store) ∧
      MemoryQueue.Result b.memory m' (⟨id, p, msg.group⟩ ::ₘ b.memory.ready) (fun g =>
        b.memory.unacked g - if b.config.type = "fair" ∧ g = msg.group then 1 else 0) ∧
      DelayedQueue.Taken q.ackQueue ⟨id, d, msg.group⟩ aq := by
  have hid : msg.id = id := h.keyed id _ hr
  have hi : (⟨id, p, msg.group⟩ : Item).group = msg.group := rfl
  obtain ⟨aq, hs⟩ := h.ack_delete hr
  have haq : q.ackQueue.delete id = some (some ⟨id, d, msg.group⟩, aq) := hs.delete_eq
  obtain ⟨m, hm, hres⟩ := h.inv.enqueue (h.accepts id _ hr) hi (h.not_ready (by rw [hr]; rfl))
  obtain ⟨m', hm', hres'⟩ := h.release hr hres.inv hres.kind hres.unacked
  have hq : ({ q with queue := some m, ackQueue := aq } : Queue).queue = some m := rfl
  refine ⟨m, m', aq, hm, hm', ?_, ⟨hres'.inv, hres'.kind.trans hres.kind, hres'.ready.trans hres.ready, hres'.unacked⟩, hs⟩
  unfold Broker.exhausted at hex
  simp only [Queue.redeliverOrDrop, if_neg hex, hid, haq, h.queue_eq, ← hp, hm, releaseSlot_eq hq b, hm', Option.map_some,
    Queue.notify, Option.bind_eq_bind, Option.bind_some]

/-- The store after `Nack` has kept the caller's priority and metadata. -/
theorem keepNacked (h : Refines name b q store) (hr : b.records id = some ⟨msg, .inFlight d⟩) (priority : Int)
    (metadata : Option Metadata) :
    ∃ store', Queue.keepNacked store noFaults b.config msg false priority metadata = .ok store' ∧ StoreFrame name store store' ∧
      ∀ i, store'.messages.lookup (name, i) =
        Function.update (fun i => (b.records i).map (·.message)) id (some (Broker.redelivered msg priority metadata)) i := by
  have hid : msg.id = id := h.keyed id _ hr
  unfold Queue.keepNacked
  split
  · rw [h.name_eq, hid, Store.updateMessage_some (h.lookup_some hr)]
    exact ⟨_, rfl, .insert _ _ _ _, h.stored_insert id _⟩
  · rename_i hno
    refine ⟨store, rfl, .refl _ _, ?_⟩
    have hsame : Broker.redelivered msg priority metadata = msg := by
      unfold Broker.redelivered
      by_cases hp : priority = 0
      · cases metadata with
        | none => simp [hp]
        | some md => simp at hno
      · cases metadata with
        | none => simp [hp] at hno; simp [hno]
        | some md => simp at hno
    rw [hsame]
    exact h.stored_same hr

theorem nack (h : Refines name b q store) (id : UInt64) (priority : Int) (metadata : Option Metadata) :
    Follows name store (q.nack store cfg noFaults id priority metadata) (b.nack id priority metadata) := by
  unfold Follows Queue.nack Broker.nack Broker.fail
  match hr : b.records id with
  | none =>
    refine .bind_eq (h.not_in_flight (by rw [hr]; rfl)) ?_
    exact h.refuse Unit .messageNotFound
  | some ⟨msg, .ready⟩ =>
    refine .bind_eq (h.not_in_flight (by rw [hr]; rfl)) ?_
    exact h.refuse Unit .messageNotFound
  | some ⟨msg, .inFlight d⟩ =>
    have hid : msg.id = id := h.keyed id _ hr
    refine .bind_eq (h.in_flight hr) (.bind_eq h.config_eq ?_)
    simp only [h.name_eq, Store.get_some (h.lookup_some hr)]
    by_cases hex : b.exhausted msg
    · obtain ⟨m, aq, hm, hredo, hres, hs⟩ := h.redeliverOrDrop_exhausted hr hex priority
      have hput := h.drop hr hres hs.shrunk
      refine .bind_eq hredo ?_
      simp only [Queue.keepNacked, Bool.true_eq_false, false_and, if_false, if_pos hex, hm, Option.bind_eq_bind, Option.bind_some]
      exact .bind_eq (hput.live.prometheus cfg) (.intro ⟨_, rfl, hput, .erase _ _ _⟩)
    · obtain ⟨m, m', aq, hm, hm', hredo, hres, hs⟩ := h.redeliverOrDrop_again hr hex rfl
      obtain ⟨store', hkeep, hframe, hstored⟩ := h.keepNacked hr priority metadata
      have hid' : (Broker.redelivered msg priority metadata).id = id := hid
      have hput := h.requeue hr hid' rfl hres hs.shrunk hstored (q.notifyCh + 1)
      refine .bind_eq hredo ?_
      have hm : b.memory.enqueue (Broker.redelivered msg priority metadata).group
          ⟨(Broker.redelivered msg priority metadata).id, (Broker.redelivered msg priority metadata).priority,
            (Broker.redelivered msg priority metadata).group⟩ = some m := by rw [← hid] at hm; exact hm
      have hm' : b.release m (Broker.redelivered msg priority metadata).group = some m' := hm'
      simp only [hkeep, if_neg hex, hm, hm', Option.bind_eq_bind, Option.bind_some]
      exact .bind_eq (hput.live.prometheus cfg) (.intro ⟨_, rfl, hput, hframe⟩)

/-- `AckTimeout` of a message in flight, which also says what becomes of the ack queue. -/
theorem ackTimeout_in_flight (h : Refines name b q store) (hr : b.records id = some ⟨msg, .inFlight d⟩) :
    Returns (q.ackTimeout store cfg noFaults id) fun r => ∃ b', b.ackTimeout id = some (.ok (), b') ∧ r.1 = .ok () ∧
      Refines name b' r.2.1 r.2.2 ∧ StoreFrame name store r.2.2 ∧
        DelayedQueue.Taken q.ackQueue ⟨id, d, msg.group⟩ r.2.1.ackQueue := by
  have hid : msg.id = id := h.keyed id _ hr
  have hsame : Broker.redelivered msg 0 none = msg := rfl
  unfold Queue.ackTimeout Broker.ackTimeout Broker.fail
  refine .bind_eq (h.in_flight hr) (.bind_eq h.config_eq ?_)
  simp only [h.name_eq, Store.get_some (h.lookup_some hr), hr]
  by_cases hex : b.exhausted msg
  · obtain ⟨m, aq, hm, hredo, hres, hs⟩ := h.redeliverOrDrop_exhausted hr hex 0
    have hput := h.drop hr hres hs.shrunk
    refine .bind_eq hredo ?_
    simp only [if_pos hex, hm, Option.bind_eq_bind, Option.bind_some]
    exact .bind_eq (hput.live.prometheus cfg) (.intro ⟨_, rfl, rfl, hput, .erase _ _ _, hs⟩)
  · have hp : msg.priority = if (0 : Int) ≠ 0 then 0 else msg.priority := rfl
    obtain ⟨m, m', aq, hm, hm', hredo, hres, hs⟩ := h.redeliverOrDrop_again hr hex hp
    have hput := h.requeue hr hid rfl hres hs.shrunk (h.stored_same hr) (q.notifyCh + 1)
    refine .bind_eq hredo ?_
    have hm : b.memory.enqueue msg.group ⟨msg.id, msg.priority, msg.group⟩ = some m := by rw [hid]; exact hm
    simp only [if_neg hex, hsame, hm, hm', Option.bind_eq_bind, Option.bind_some]
    exact .bind_eq (hput.live.prometheus cfg) (.intro ⟨_, rfl, rfl, hput, .refl _ _, hs⟩)

theorem ackTimeout (h : Refines name b q store) (id : UInt64) :
    Follows name store (q.ackTimeout store cfg noFaults id) (b.ackTimeout id) := by
  match hr : b.records id with
  | none =>
    unfold Follows Queue.ackTimeout Broker.ackTimeout Broker.fail
    rw [hr]
    refine .bind_eq (h.not_in_flight (by rw [hr]; rfl)) ?_
    exact h.refuse Unit .messageNotFound
  | some ⟨msg, .ready⟩ =>
    unfold Follows Queue.ackTimeout Broker.ackTimeout Broker.fail
    rw [hr]
    refine .bind_eq (h.not_in_flight (by rw [hr]; rfl)) ?_
    exact h.refuse Unit .messageNotFound
  | some ⟨msg, .inFlight d⟩ =>
    refine Returns.mono (h.ackTimeout_in_flight hr) fun r hr => ?_
    obtain ⟨b', hb, hok, href, hframe, _⟩ := hr
    exact ⟨b', by rw [hok]; exact hb, href, hframe⟩

/-! ### Priorities and settings -/

/-- A ready message with another priority. -/
theorem reprice (h : Refines name b q store) (hr : b.records id = some ⟨msg, .ready⟩) {priority : Int} {rest : Multiset Item}
    (hrest : b.memory.ready = ⟨id, msg.priority, msg.group⟩ ::ₘ rest)
    (hres : MemoryQueue.Result b.memory m (⟨id, priority, msg.group⟩ ::ₘ rest) b.memory.unacked) :
    Refines name (b.put id (some ⟨{ msg with priority := priority }, .ready⟩) m) { q with queue := some m }
      { store with messages := store.messages.insert (name, id) { msg with priority := priority } } := by
  have hid : msg.id = id := h.keyed id _ hr
  have hacc := h.accepts id _ hr
  refine h.put hres.inv hres.kind h.exact h.maxFirst ?_ (h.ack_same (by rw [hr]; rfl)) (h.stored_insert id _) ?_
    (fun ht g => (hres.unacked g).trans (h.counts ht g)) q.notifyCh
  · have hitem : (some (⟨{ msg with priority := priority }, .ready⟩ : Record)).bind Record.readyItem =
      some ⟨id, priority, msg.group⟩ := by
      rw [← hid]; rfl
    rw [hitem, hres.ready]
    exact h.ready.replace hrest rfl
  · intro r hr'; cases hr'
    exact ⟨hid, hacc⟩

theorem updatePriority (h : Refines name b q store) (id : UInt64) (priority : Int) :
    Follows name store (q.updatePriority store noFaults id priority) (b.updatePriority id priority) := by
  unfold Follows Queue.updatePriority Broker.updatePriority
  refine .bind_eq h.config_eq ?_
  simp only [h.name_eq]
  match hr : b.records id with
  | none =>
    simp only [Store.get_none (h.lookup_none hr)]
    exact h.refuse Unit .messageNotFound
  | some ⟨msg, .ready⟩ =>
    simp only [Store.get_some (h.lookup_some hr)]
    have hget : b.memory.get msg.group id = some (some ⟨id, msg.priority, msg.group⟩) := h.inv.get_ready (h.mem_ready hr)
    have hplace : q.locate b.memory msg.group id = some (some .ready) := by
      simp only [Queue.locate, hget, Option.bind_eq_bind, Option.bind_some]
    refine .bind_eq h.queue_eq (.bind_eq hplace ?_)
    simp only [Store.updatePriority_some (h.lookup_some hr)]
    obtain ⟨m, hm, rest, hrest, hres⟩ := h.inv.updatePriority_ready (h.mem_ready hr) priority
    have hm : b.memory.updatePriority msg.group id priority = some m := hm
    -- the write through the pointer is one with the update that follows
    obtain ⟨m1, e1, e2⟩ :=
      Option.bind_eq_some_iff.mp ((MemoryQueue.itemUpdatePriority_updatePriority b.memory msg.group id priority).trans hm)
    have hw : q.writePriority b.memory msg.group id priority .ready = some { q with queue := some m1 } := by
      simp only [Queue.writePriority, e1, Option.bind_eq_bind, Option.bind_some]
    refine .bind_eq hw (.bind_eq rfl (.bind_eq e2 (.intro ⟨_, ?_, h.reprice hr hrest hres, .insert _ _ _ _⟩)))
    simp only [hm, Option.bind_eq_bind, Option.bind_some]
  | some ⟨msg, .inFlight d⟩ =>
    simp only [Store.get_some (h.lookup_some hr)]
    have hout := h.not_ready (by rw [hr]; rfl)
    have hplace : q.locate b.memory msg.group id = some (some .unacked) := by
      simp only [Queue.locate, h.inv.safe.get_none hout, h.in_flight hr, Option.bind_eq_bind, Option.bind_some, Option.map_some]
    refine .bind_eq h.queue_eq (.bind_eq hplace ?_)
    simp only [Store.updatePriority_some (h.lookup_some hr)]
    obtain ⟨m, hm, hres⟩ := h.inv.updatePriority_none hout msg.group priority
    have hid : ({ msg with priority := priority } : Message).id = id := h.keyed id _ hr
    have hrep := PriorityMemoryQueue.itemUpdatePriority_found (h.found hr) priority
    have hput : Refines name (b.put id (some ⟨{ msg with priority := priority }, .inFlight priority⟩) m)
        { q with queue := some m, ackQueue := q.ackQueue.itemUpdatePriority id priority }
        { store with messages := store.messages.insert (name, id) { msg with priority := priority } } :=
      h.move hr hid rfl hrep hres (h.stored_insert id _)
    refine .bind_eq rfl (.bind_eq h.queue_eq (.bind_eq hm (.intro ⟨_, ?_, hput, .insert _ _ _ _⟩)))
    simp only [hm, Option.bind_eq_bind, Option.bind_some]

theorem update (h : Refines name b q store) {settings : QueueSettings} :
    Refines name (b.update settings)
      { q with
        config := some { b.config with settings := settings }
        queue := some (b.memory.updateMaxUnacked settings.maxUnacked.toNat) }
      { store with queues := store.queues.insert name { b.config with settings := settings } } := by
  have hres := h.inv.updateMaxUnacked (Queue.limit_toNat settings.maxUnacked)
  exact { h with
    config_eq := rfl
    queue_eq := rfl
    inv := hres.inv
    ready := by
      show Listed Item.id (b.memory.updateMaxUnacked settings.maxUnacked.toNat).ready _
      rw [hres.ready]; exact h.ready
    accepts := fun id r hr => by
      show MemoryQueue.Accepts (b.memory.updateMaxUnacked settings.maxUnacked.toNat).kind _
      rw [hres.kind]; exact h.accepts id r hr
    fair := fun ht => by
      show (b.memory.updateMaxUnacked settings.maxUnacked.toNat).kind ≠ _
      rw [hres.kind]; exact h.fair ht
    counts := fun ht g => (hres.unacked g).trans (h.counts ht g) }

end Refines

end Doq
