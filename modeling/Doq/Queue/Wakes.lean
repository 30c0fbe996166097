/-
  Doq.Queue.Wakes — which methods wake the waiting consumers (see `Doq.Queue.Queue`).

  `notify` closes the channel the consumers wait on; the model counts the channels closed.
  A method closes it or takes something from the memory queue (`Loss`), and what it takes can
  be told from the state before it: `lostByDelete`, `lostByAck`, `lostByFailure`,
  `lostByExpiry` and `lostByReprice`. `Woken` is that disjunction, and it is proved of every
  method of a queue whose memory queue files each stored group under its own name (`GoodGroups`).
-/

import Doq.Memory.MemoryQueueWakes
import Doq.Queue.Safety

namespace Doq

open Lib Memory Storage
open MemoryQueue (Loss Fit)

/-- The stored messages of the queue have groups that a memory queue of the kind files under
    their own names. -/
def Storage.GoodGroups (kind : MemoryQueue.Kind) (name : String) (store : Store) : Prop :=
  ∀ id msg, store.messages.lookup (name, id) = some msg → MemoryQueue.Accepts kind msg.group

namespace Storage

variable {kind : MemoryQueue.Kind} {name : String} {store : Store} {key : String × UInt64} {msg : Message}

theorem GoodGroups.insert (h : GoodGroups kind name store) (hg : MemoryQueue.Accepts kind msg.group) :
    GoodGroups kind name { store with messages := store.messages.insert key msg } := by
  intro id m hm
  rw [FinMap.lookup_insert_eq] at hm
  split at hm
  · cases hm; exact hg
  · exact h id m hm

theorem GoodGroups.erase (h : GoodGroups kind name store) (key : String × UInt64) :
    GoodGroups kind name { store with messages := store.messages.erase key } := by
  intro id m hm
  rw [FinMap.lookup_erase_eq] at hm
  split at hm
  · cases hm
  · exact h id m hm

end Storage

namespace Queue

variable {name : String} {config : QueueConfig} {m : MemoryQueue} {q q' : Queue} {store store' : Store} {cfg : Config}
    {id : UInt64}

/-- Some consumer would get a message at this reading of the clock. -/
def Ready (q : Queue) (clock : Int) : Prop := ∃ wait, q.peekReady clock = some (true, wait)

theorem ready_iff (hq : q.queue = some m) (clock : Int) : q.Ready clock ↔ (m.peekReady clock).1 = true := by
  unfold Ready Queue.peekReady
  rw [hq]
  simp only [Option.bind_eq_bind, Option.bind_some, Option.some.injEq]
  exact ⟨fun ⟨_, hw⟩ => by rw [hw], fun h => ⟨_, Prod.ext h rfl⟩⟩

/-- A delivery of the message waits for its ack. -/
def awaitsAck (q : Queue) (id : UInt64) : Bool :=
  match q.ackQueue.get id with
  | some (some _) => true
  | _ => false

/-- What `Delete` takes from the memory queue. -/
def lostByDelete (q : Queue) (config : QueueConfig) (store : Store) (id : UInt64) : Loss :=
  match store.messages.lookup (config.name, id) with
  | none => .nothing
  | some msg => .drop msg.group id (decide (config.type = "fair") && q.awaitsAck id)

/-- `Ack` frees the slot of the stored message's group. -/
def lostByAck (q : Queue) (config : QueueConfig) (store : Store) (id : UInt64) : Loss :=
  if q.awaitsAck id ∧ config.type = "fair" then
    match store.messages.lookup (config.name, id) with
    | none => .nothing
    | some msg => .release msg.group
  else .nothing

/-- A failed delivery takes a message only when it drops it. -/
def lostByFailure (q : Queue) (config : QueueConfig) (store : Store) (id : UInt64) : Loss :=
  if q.awaitsAck id then
    match store.messages.lookup (config.name, id) with
    | none => .nothing
    | some msg =>
      if config.settings.deliveryLimit > 0 ∧ msg.deliveryCount ≥ config.settings.deliveryLimit then
        q.lostByDelete config store id
      else .nothing
  else .nothing

/-- `AckTimeout` also frees the slot of a message that is gone from the store. -/
def lostByExpiry (q : Queue) (config : QueueConfig) (store : Store) (id : UInt64) : Loss :=
  match q.ackQueue.get id, store.messages.lookup (config.name, id) with
  | some (some item), none => if config.type = "fair" then .release item.group else .nothing
  | _, _ => q.lostByFailure config store id

def lostByReprice (q : Queue) (config : QueueConfig) (m : MemoryQueue) (store : Store) (id : UInt64) (priority : Int) : Loss :=
  match store.messages.lookup (config.name, id) with
  | none => .nothing
  | some msg =>
    match q.locate m msg.group id with
    | some (some _) => .reprice msg.group id priority
    | _ => .nothing

section Bounded

variable {priority : Int}

theorem lostByDelete_bounded : (q.lostByDelete config store id).Bounded := by
  unfold lostByDelete
  split <;> trivial

theorem lostByAck_bounded : (q.lostByAck config store id).Bounded := by
  unfold lostByAck
  split
  · split <;> trivial
  · trivial

theorem lostByFailure_bounded : (q.lostByFailure config store id).Bounded := by
  unfold lostByFailure
  split
  · split
    · trivial
    · split
      · exact lostByDelete_bounded
      · trivial
  · trivial

theorem lostByExpiry_bounded : (q.lostByExpiry config store id).Bounded := by
  unfold lostByExpiry
  split
  · split <;> trivial
  · exact lostByFailure_bounded

theorem lostByReprice_bounded : (q.lostByReprice config m store id priority).Bounded := by
  unfold lostByReprice
  split
  · trivial
  · split <;> trivial

end Bounded

/-- The consumers were woken and nothing was taken, or the memory queue is what the loss leaves
    of it. -/
def Turned (m : MemoryQueue) (q : Queue) (loss : Loss) (q' : Queue) : Prop :=
  ∃ m', q'.queue = some m' ∧ Fit m' ∧
    (loss = .nothing ∧ q.notifyCh < q'.notifyCh ∨ q'.notifyCh = q.notifyCh ∧ m.lose loss = some m')

structure Woken (name : String) (m : MemoryQueue) (q : Queue) (loss : Loss) (q' : Queue) (store' : Store) : Prop where
  turned : Turned m q loss q'
  groups : GoodGroups m.kind name store'

theorem Woken.same (hq : q.queue = some m) (hf : Fit m) (hg : GoodGroups m.kind name store) :
    Woken name m q .nothing q store :=
  ⟨⟨m, hq, hf, Or.inr ⟨rfl, rfl⟩⟩, hg⟩

theorem awaitsAck_of_get {item : Item} (h : q.ackQueue.get id = some (some item)) : q.awaitsAck id = true := by
  unfold awaitsAck; rw [h]

theorem not_awaitsAck_of_get (h : q.ackQueue.get id = some none) : q.awaitsAck id = false := by
  unfold awaitsAck; rw [h]

theorem Live.gauges (h : Live name config m q store) (m' : MemoryQueue) (aq : DelayedQueue) (n : Nat) (cfg : Config) :
    ({ q with queue := some m', ackQueue := aq, notifyCh := n } : Queue).updatePrometheusQueueSizes cfg = some () := by
  unfold updatePrometheusQueueSizes
  split
  · simp [h.config_eq]
  · rfl

/-- The group of a stored message is one that the memory queue accepts. -/
theorem Live.accepts (h : Live name config m q store) (hg : GoodGroups m.kind name store) {msg : Message}
    (hm : store.messages.lookup (config.name, id) = some msg) : MemoryQueue.Accepts m.kind msg.group :=
  hg id msg (h.name_eq ▸ hm)

/-! ## The methods -/

theorem Live.enqueue_woken (h : Live name config m q store) (hf : Fit m) (hg : GoodGroups m.kind name store) {group : String}
    (hgroup : MemoryQueue.Accepts m.kind (groupFor config group)) (priority : Int) (content : String)
    (metadata : Option Metadata) :
    Returns (q.enqueue store cfg noFaults id group priority content metadata) fun r => Woken name m q .nothing r.2.1 r.2.2 := by
  unfold Queue.enqueue
  refine .bind_eq h.config_eq ?_
  simp only [Store.enqueue, noFaults, Bool.false_eq_true, if_false, h.name_eq]
  obtain ⟨found, hget, _⟩ := h.memory.get (groupFor config group) id
  refine .bind_eq h.queue_eq (.bind_eq hget ?_)
  cases found with
  | some _ => exact .intro (.same h.queue_eq hf (hg.insert hgroup))
  | none =>
    have hi : (⟨id, priority, groupFor config group⟩ : Item).group = groupFor config group := rfl
    refine (hf.enqueue hgroup hi).bind fun m' hf' => ?_
    exact .bind_eq (h.gauges m' q.ackQueue (q.notifyCh + 1) cfg)
      (.intro ⟨⟨m', rfl, hf', Or.inl ⟨rfl, Nat.lt_succ_self _⟩⟩, hg.insert hgroup⟩)

/-- A delivery wakes nobody. -/
theorem Live.dequeue_woken (h : Live name config m q store) (hf : Fit m) (hg : GoodGroups m.kind name store) (ack : Bool)
    (seed : UInt64) (now : Int) :
    Returns (q.dequeue store cfg noFaults ack seed now) fun r =>
      Woken name m q (if m.len = 0 then .nothing else .take ack seed now) r.2.1 r.2.2 := by
  unfold Queue.dequeue
  refine .bind_eq h.queue_eq ?_
  split
  · exact .intro (.same h.queue_eq hf hg)
  · obtain ⟨⟨item, m'⟩, hd, hf'⟩ := hf.dequeue ack seed now
    have hlose : m.lose (.take ack seed now) = some m' := by simp only [MemoryQueue.lose, hd, Option.map_some]
    have hwoken : ∀ aq {store'}, GoodGroups m.kind name store' →
      Woken name m q (.take ack seed now) { q with queue := some m', ackQueue := aq } store' :=
      fun aq _ hg' => ⟨⟨m', rfl, hf', Or.inr ⟨rfl, hlose⟩⟩, hg'⟩
    refine .bind_eq hd ?_
    cases item with
    | none => exact .intro (hwoken q.ackQueue hg)
    | some item =>
      refine .bind_eq h.config_eq ?_
      simp only [h.name_eq]
      cases hm : store.messages.lookup (name, item.id) with
      | none =>
        rw [Store.dequeue_none hm]
        exact .intro (hwoken q.ackQueue hg)
      | some msg =>
        cases ack with
        | true =>
          rw [Store.dequeue_acked hm]
          exact .bind_eq (h.gauges m' q.ackQueue q.notifyCh cfg) (.intro (hwoken q.ackQueue (hg.erase _)))
        | false =>
          rw [Store.dequeue_unacked hm]
          have hgroup : MemoryQueue.Accepts m.kind msg.group := hg _ _ hm
          exact .bind_eq (h.gauges m' _ q.notifyCh cfg) (.intro (hwoken _ (hg.insert hgroup)))

/-- The slot of a message that leaves the ack queue, for fair queues. -/
theorem releaseSlot_fit (hq : q.queue = some m) (hf : Fit m) (config : QueueConfig) (group : String) :
    ∃ m', q.releaseSlot config group = some { q with queue := some m' } ∧ Fit m' ∧
      if config.type = "fair" then m.updateWeights group = some m' else m' = m := by
  unfold releaseSlot
  split
  · obtain ⟨m', hu, hf'⟩ := hf.updateWeights group
    exact ⟨m', by simp only [hq, hu, Option.bind_eq_bind, Option.bind_some], hf', hu⟩
  · exact ⟨m, by rw [← hq], hf, rfl⟩

theorem dropUnacked_fit (hq : q.queue = some m) (hf : Fit m) (ha : q.ackQueue.queue.Sound) (config : QueueConfig) (group : String)
    (id : UInt64) :
    ∃ m' aq, q.dropUnacked config group id = some { q with queue := some m', ackQueue := aq } ∧ Fit m' ∧
      if config.type = "fair" ∧ q.awaitsAck id then m.updateWeights group = some m' else m' = m := by
  unfold dropUnacked
  obtain ⟨⟨removed, aq⟩, hd, hr⟩ := DelayedQueue.delete_spec ha id
  cases removed with
  | none =>
    obtain ⟨rfl, hmiss⟩ := hr
    refine ⟨m, q.ackQueue, ?_, hf, ?_⟩
    · simp only [hd, Option.bind_eq_bind, Option.bind_some, ← hq]
    · simp [not_awaitsAck_of_get (PriorityMemoryQueue.get_missing hmiss)]
  | some item =>
    have hq' : ({ q with ackQueue := aq } : Queue).queue = some m := hq
    obtain ⟨m', hs, hf', hr'⟩ := releaseSlot_fit hq' hf config group
    refine ⟨m', aq, ?_, hf', ?_⟩
    · simp only [hd, hs, Option.bind_eq_bind, Option.bind_some]
    · have hin : q.awaitsAck id = true := awaitsAck_of_get (PriorityMemoryQueue.get_found hr.1)
      simpa [hin] using hr'

theorem Live.delete_woken (h : Live name config m q store) (hf : Fit m) (hg : GoodGroups m.kind name store) (id : UInt64) :
    Returns (q.delete store noFaults id) fun r => Woken name m q (q.lostByDelete config store id) r.2.1 r.2.2 := by
  unfold Queue.delete
  refine .bind_eq h.config_eq ?_
  cases hm : store.messages.lookup (config.name, id) with
  | none =>
    have hloss : q.lostByDelete config store id = .nothing := by simp only [lostByDelete, hm]
    rw [Store.delete_none hm, hloss]
    exact .intro (.same h.queue_eq hf hg)
  | some msg =>
    have hloss : q.lostByDelete config store id = .drop msg.group id (decide (config.type = "fair") && q.awaitsAck id) := by
      simp only [lostByDelete, hm]
    rw [Store.delete_some hm, hloss]
    obtain ⟨⟨gone, m₁⟩, hd, hf₁⟩ := hf.delete msg.group id
    have hq₁ : ({ q with queue := some m₁ } : Queue).queue = some m₁ := rfl
    obtain ⟨m', aq, hdrop, hf', hr⟩ := dropUnacked_fit hq₁ hf₁ h.ack config msg.group id
    refine .bind_eq h.queue_eq (.bind_eq hd (.bind_eq hdrop (.intro ⟨⟨m', rfl, hf', Or.inr ⟨rfl, ?_⟩⟩, hg.erase _⟩)))
    have hin : ({ q with queue := some m₁ } : Queue).awaitsAck id = q.awaitsAck id := rfl
    rw [hin] at hr
    simp only [MemoryQueue.lose, hd, Option.bind_eq_bind, Option.bind_some, Bool.and_eq_true, decide_eq_true_eq]
    split
    · rename_i hfree; rw [if_pos hfree] at hr; exact hr
    · rename_i hfree; rw [if_neg hfree] at hr; rw [hr]

theorem Live.releaseAcked_fit (h : Live name config m q store) (hf : Fit m) (hin : q.awaitsAck id = true) :
    Returns (q.releaseAcked store noFaults config id) fun r =>
      match r with
      | .error _ => q.lostByAck config store id = .nothing
      | .ok q' => ∃ m', q' = { q with queue := some m' } ∧ Fit m' ∧ m.lose (q.lostByAck config store id) = some m' := by
  unfold Queue.releaseAcked
  by_cases hfair : config.type = "fair"
  · rw [if_pos hfair]
    cases hm : store.messages.lookup (config.name, id) with
    | none =>
      rw [Store.get_none hm]
      exact .intro (by simp only [lostByAck, hin, hfair, hm, and_self, if_true])
    | some msg =>
      have hloss : q.lostByAck config store id = .release msg.group := by simp only [lostByAck, hin, hfair, hm, and_self, if_true]
      obtain ⟨m', hs, hf', hr⟩ := releaseSlot_fit h.queue_eq hf config msg.group
      rw [if_pos hfair] at hr
      rw [Store.get_some hm, hloss]
      exact .bind_eq hs (.intro ⟨m', rfl, hf', hr⟩)
  · rw [if_neg hfair]
    have hloss : q.lostByAck config store id = .nothing := by simp only [lostByAck, hfair, and_false, if_false]
    rw [hloss]
    exact .intro ⟨m, by rw [← h.queue_eq], hf, rfl⟩

/-- `Ack` wakes nobody, although it may free a slot. -/
theorem Live.ack_woken (h : Live name config m q store) (hf : Fit m) (hg : GoodGroups m.kind name store) (id : UInt64) :
    Returns (q.ack store cfg noFaults id) fun r => Woken name m q (q.lostByAck config store id) r.2.1 r.2.2 := by
  unfold Queue.ack
  obtain ⟨item, hget, hitem⟩ := DelayedQueue.get_spec h.ack id
  refine .bind_eq hget ?_
  cases item with
  | none =>
    have hloss : q.lostByAck config store id = .nothing := by
      simp only [lostByAck, not_awaitsAck_of_get hget, Bool.false_eq_true, false_and, if_false]
    rw [hloss]
    exact .intro (.same h.queue_eq hf hg)
  | some item =>
    refine .bind_eq h.config_eq ((h.releaseAcked_fit hf (awaitsAck_of_get hget)).bind fun r hr => ?_)
    cases r with
    | error e =>
      rw [hr]
      exact .intro (.same h.queue_eq hf hg)
    | ok q' =>
      obtain ⟨m', rfl, hf', hlose⟩ := hr
      simp only [Store.ack, noFaults, Bool.false_eq_true, if_false]
      obtain ⟨queue, hd, _⟩ := PriorityMemoryQueue.delete_found hitem h.ack
      have hd' : q.ackQueue.delete id = some (some item, ⟨queue⟩) := by
        simp only [DelayedQueue.delete, hd, Option.bind_eq_bind, Option.bind_some]
      exact .bind_eq hd' (.bind_eq (h.gauges m' ⟨queue⟩ q.notifyCh cfg)
        (.intro ⟨⟨m', rfl, hf', Or.inr ⟨rfl, hlose⟩⟩, hg.erase _⟩))

/-- A failed delivery that is requeued wakes the consumers, one that is dropped does not. -/
theorem Live.redeliverOrDrop_woken (h : Live name config m q store) (hf : Fit m) (hg : GoodGroups m.kind name store)
    {message : Message} {item : Item}
    (hm : store.messages.lookup (config.name, id) = some message) (hitem : q.ackQueue.queue.Found id item) (newPriority : Int) :
    Returns (q.redeliverOrDrop store noFaults config message newPriority) fun r =>
      Woken name m q (q.lostByFailure config store id) r.2.1 r.2.2 ∧ ∃ m', Live name config m' r.2.1 r.2.2 := by
  have hid : message.id = id := h.keyed id message (h.name_eq ▸ hm)
  have hlive := (h.redeliverOrDrop (hid ▸ hitem) newPriority).mono fun r ⟨m', hk, _⟩ => Exists.intro m' hk.live
  refine Returns.and ?_ hlive
  have hin : q.awaitsAck id = true := awaitsAck_of_get (PriorityMemoryQueue.get_found hitem)
  have hloss : q.lostByFailure config store id =
      if config.settings.deliveryLimit > 0 ∧ message.deliveryCount ≥ config.settings.deliveryLimit then
        q.lostByDelete config store id
      else .nothing := by
    simp only [lostByFailure, hin, hm, if_true]
  unfold Queue.redeliverOrDrop
  rw [hloss, hid]
  split
  · refine (h.delete_woken hf hg id).bind fun r hr => ?_
    obtain ⟨r, q', store'⟩ := r
    cases r with
    | error e => exact .intro hr
    | ok u => exact .intro hr
  · obtain ⟨⟨removed, aq⟩, hd, _⟩ := DelayedQueue.delete_spec h.ack id
    have hgroup : MemoryQueue.Accepts m.kind message.group := h.accepts hg hm
    have hi : (⟨id, if newPriority ≠ 0 then newPriority else message.priority, message.group⟩ : Item).group = message.group := rfl
    obtain ⟨m₁, he, hf₁⟩ := hf.enqueue hgroup hi
    have hq₁ : ({ q with ackQueue := aq, queue := some m₁ } : Queue).queue = some m₁ := rfl
    obtain ⟨m', hs, hf', _⟩ := releaseSlot_fit hq₁ hf₁ config message.group
    refine .bind_eq hd (.bind_eq h.queue_eq (.bind_eq he (.bind_eq hs (.intro ?_))))
    exact ⟨⟨m', rfl, hf', Or.inl ⟨rfl, Nat.lt_succ_self _⟩⟩, hg⟩

theorem keepNacked_groups {kind : MemoryQueue.Kind} (hg : GoodGroups kind config.name store) {message : Message}
    {dropped : Bool} {priority : Int} {metadata : Option Metadata}
    (h : keepNacked store noFaults config message dropped priority metadata = .ok store') :
    GoodGroups kind config.name store' := by
  unfold keepNacked at h
  split at h
  · cases hm : store.messages.lookup (config.name, message.id) with
    | none => rw [Store.updateMessage_none hm] at h; cases h
    | some msg =>
      rw [Store.updateMessage_some hm] at h
      cases h
      have hgroup : MemoryQueue.Accepts kind msg.group := hg _ _ hm
      exact hg.insert hgroup
  · cases h; exact hg

theorem Live.nack_woken (h : Live name config m q store) (hf : Fit m) (hg : GoodGroups m.kind name store) (id : UInt64)
    (priority : Int) (metadata : Option Metadata) :
    Returns (q.nack store cfg noFaults id priority metadata) fun r =>
      Woken name m q (q.lostByFailure config store id) r.2.1 r.2.2 := by
  unfold Queue.nack
  obtain ⟨item, hget, hitem⟩ := DelayedQueue.get_spec h.ack id
  refine .bind_eq hget ?_
  cases item with
  | none =>
    have hloss : q.lostByFailure config store id = .nothing := by
      simp only [lostByFailure, not_awaitsAck_of_get hget, Bool.false_eq_true, if_false]
    rw [hloss]
    exact .intro (.same h.queue_eq hf hg)
  | some item =>
    have hid : item.id = id := hitem.id_eq h.ack
    refine .bind_eq h.config_eq ?_
    rw [hid]
    cases hm : store.messages.lookup (config.name, id) with
    | none =>
      have hloss : q.lostByFailure config store id = .nothing := by
        simp only [lostByFailure, awaitsAck_of_get hget, hm, if_true]
      rw [Store.get_none hm, hloss]
      exact .intro (.same h.queue_eq hf hg)
    | some message =>
      rw [Store.get_some hm]
      refine (h.redeliverOrDrop_woken hf hg hm hitem priority).bind fun r hr => ?_
      obtain ⟨r, q', store'⟩ := r
      obtain ⟨hw, m', hl⟩ := hr
      cases r with
      | error e => exact .intro hw
      | ok dropped =>
        simp only
        cases hs : keepNacked store' noFaults config message dropped priority metadata with
        | error e => exact .intro hw
        | ok store'' =>
          have hgroups : GoodGroups m.kind name store'' := h.name_eq ▸ keepNacked_groups (h.name_eq ▸ hw.groups) hs
          exact .bind_eq (hl.prometheus cfg) (.intro ⟨hw.turned, hgroups⟩)

theorem Live.ackTimeout_woken (h : Live name config m q store) (hf : Fit m) (hg : GoodGroups m.kind name store) (id : UInt64) :
    Returns (q.ackTimeout store cfg noFaults id) fun r => Woken name m q (q.lostByExpiry config store id) r.2.1 r.2.2 := by
  unfold Queue.ackTimeout
  obtain ⟨item, hget, hitem⟩ := DelayedQueue.get_spec h.ack id
  refine .bind_eq hget ?_
  cases item with
  | none =>
    have hloss : q.lostByExpiry config store id = .nothing := by
      simp only [lostByExpiry, lostByFailure, hget, not_awaitsAck_of_get hget, Bool.false_eq_true, if_false]
    rw [hloss]
    exact .intro (.same h.queue_eq hf hg)
  | some item =>
    refine .bind_eq h.config_eq ?_
    cases hm : store.messages.lookup (config.name, id) with
    | none =>
      have hloss : q.lostByExpiry config store id = if config.type = "fair" then .release item.group else .nothing := by
        simp only [lostByExpiry, hget, hm]
      rw [Store.get_none hm, hloss]
      obtain ⟨m', aq, hdrop, hf', hr⟩ := dropUnacked_fit h.queue_eq hf h.ack config item.group id
      refine .bind_eq hdrop (.intro ⟨⟨m', rfl, hf', Or.inr ⟨rfl, ?_⟩⟩, hg⟩)
      simp only [awaitsAck_of_get hget, and_true] at hr
      split
      · rename_i hfair; rw [if_pos hfair] at hr; exact hr
      · rename_i hfair; rw [if_neg hfair] at hr; rw [hr]; rfl
    | some message =>
      have hloss : q.lostByExpiry config store id = q.lostByFailure config store id := by simp only [lostByExpiry, hget, hm]
      rw [Store.get_some hm, hloss]
      refine (h.redeliverOrDrop_woken hf hg hm hitem 0).bind fun r hr => ?_
      obtain ⟨r, q', store'⟩ := r
      obtain ⟨hw, m', hl⟩ := hr
      cases r with
      | error e => exact .intro hw
      | ok dropped => exact .bind_eq (hl.prometheus cfg) (.intro hw)

/-- `UpdatePriority` wakes nobody, although a message may be due then. -/
theorem Live.updatePriority_woken (h : Live name config m q store) (hf : Fit m) (hg : GoodGroups m.kind name store) (id : UInt64)
    (priority : Int) :
    Returns (q.updatePriority store noFaults id priority) fun r =>
      Woken name m q (q.lostByReprice config m store id priority) r.2.1 r.2.2 := by
  unfold Queue.updatePriority
  refine .bind_eq h.config_eq ?_
  cases hm : store.messages.lookup (config.name, id) with
  | none =>
    have hloss : q.lostByReprice config m store id priority = .nothing := by simp only [lostByReprice, hm]
    rw [Store.get_none hm, hloss]
    exact .intro (.same h.queue_eq hf hg)
  | some msg =>
    rw [Store.get_some hm]
    obtain ⟨place, hplace⟩ : ∃ place, q.locate m msg.group id = some place := by
      unfold locate
      obtain ⟨found, hfound, _⟩ := h.memory.get msg.group id
      obtain ⟨item, hitem, _⟩ := DelayedQueue.get_spec h.ack id
      cases found <;> simp [hfound, hitem]
    refine .bind_eq h.queue_eq (.bind_eq hplace ?_)
    cases place with
    | none =>
      have hloss : q.lostByReprice config m store id priority = .nothing := by simp only [lostByReprice, hm, hplace]
      rw [hloss]
      exact .intro (.same h.queue_eq hf hg)
    | some place =>
      have hloss : q.lostByReprice config m store id priority = .reprice msg.group id priority := by
        simp only [lostByReprice, hm, hplace]
      have hgroup : MemoryQueue.Accepts m.kind msg.group := h.accepts hg hm
      simp only
      rw [hloss, Store.updatePriority_some hm]
      obtain ⟨m', hu, hf'⟩ := hf.updatePriority msg.group id priority
      have hwoken : ∀ aq, Woken name m q (.reprice msg.group id priority) { q with queue := some m', ackQueue := aq }
          { store with messages := store.messages.insert (config.name, id) { msg with priority := priority } } :=
        fun aq => ⟨⟨m', rfl, hf', Or.inr ⟨rfl, hu⟩⟩, hg.insert hgroup⟩
      cases place with
      | ready =>
        have hboth := MemoryQueue.itemUpdatePriority_updatePriority m msg.group id priority
        rw [hu] at hboth
        obtain ⟨m₁, hitem, hu₁⟩ := Option.bind_eq_some_iff.mp hboth
        refine .bind_eq (a := { q with queue := some m₁ }) ?_ (.bind_eq rfl (.bind_eq hu₁ (.intro (hwoken q.ackQueue))))
        simp only [writePriority, hitem, Option.bind_eq_bind, Option.bind_some]
      | unacked => exact .bind_eq rfl (.bind_eq h.queue_eq (.bind_eq hu (.intro (hwoken _))))

theorem Live.touch_woken (h : Live name config m q store) (hf : Fit m) (hg : GoodGroups m.kind name store) (id : UInt64)
    (now : Int) :
    Returns (q.touch store id now) fun r => Woken name m q .nothing r.2.1 r.2.2 := by
  unfold Queue.touch
  obtain ⟨item, hget, hitem⟩ := DelayedQueue.get_spec h.ack id
  refine .bind_eq hget ?_
  cases item with
  | none => exact .intro (.same h.queue_eq hf hg)
  | some item =>
    obtain ⟨queue, hu, _⟩ := PriorityMemoryQueue.updatePriority_found hitem (ackDeadline config now)
    have hu' : q.ackQueue.updatePriority id (ackDeadline config now) = some ⟨queue⟩ := by
      simp only [DelayedQueue.updatePriority, hu, Option.bind_eq_bind, Option.bind_some]
    exact .bind_eq h.config_eq (.bind_eq hu' (.intro ⟨⟨m, h.queue_eq, hf, Or.inr ⟨rfl, rfl⟩⟩, hg⟩))

end Queue

end Doq
