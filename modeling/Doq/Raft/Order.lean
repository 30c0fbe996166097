/-
  Doq.Raft.Order — in which order messages are delivered, and when (see
  `Doq.Memory.MemoryQueuePicks`).

  A heap orders its items by priority and id, and an item's priority is the one its message
  is stored with, wherever the two were written: by an enqueue, a nack, a new priority or a
  restore. So what a dequeue takes can be said of the stored messages alone.

  Proved, over every life of a node:
  - `order_respected`: a delayed queue delivers the first ready message once it is due, and
    otherwise answers that it is empty and stays as it is; a fair queue delivers the first
    ready message of some group.
  - `deleted_neighbour_hides_due`: the delivery is missed when deleting another queue took
    the message out of the store.
-/

import Doq.Raft.Groups

namespace Doq

open Lib Memory Storage

namespace FSM

variable {name : String} {b : Broker} {f : FSM} {ack : Bool} {index : UInt64} {now : Int} {m : MemoryQueue}

/-- A stored message that is ready in memory. -/
def IsReady (f : FSM) (name : String) (msg : Message) : Prop :=
  f.queueManager.store.messages.lookup (name, msg.id) = some msg ∧ ∃ p ∈ f.inMemory name, ∃ it ∈ p.1.ready, it.id = msg.id

/-- The ready message with the least priority, and the least id of those. -/
def First (f : FSM) (name : String) (among : Message → Prop) (msg : Message) : Prop :=
  IsReady f name msg ∧ ∀ y, IsReady f name y → among y → msg.priority < y.priority ∨ msg.priority = y.priority ∧ msg.id ≤ y.id

/-- The message as its delivery reports it. -/
def delivered (name : String) (msg : Message) : Reply :=
  .response (.ofMessage name { msg with deliveryCount := msg.deliveryCount + 1 })

def emptyReply (name : String) : Reply := .response (.ofError "dequeue message from queue" name .emptyQueue)

/-- Nothing of a queue differs. -/
structure SameQueues (f f' : FSM) : Prop where
  store : f'.queueManager.store = f.queueManager.store
  queues : ∀ n, f'.queueManager.queues.lookup n = f.queueManager.queues.lookup n

/-- What a dequeue of a queue does, `p` its memory queue and its ack queue. -/
structure InOrder (name : String) (f : FSM) (p : MemoryQueue × DelayedQueue) : Prop where
  delayed : p.1.kind = .delayed → ∀ index now ack, Returns (f.apply ⟨index, now, .dequeue name ack⟩) fun r =>
    (∃ msg, First f name (fun _ => True) msg ∧ msg.priority ≤ now ∧ r.1 = delivered name msg) ∨
      ((∀ msg, IsReady f name msg → now < msg.priority) ∧ r.1 = emptyReply name ∧ SameQueues f r.2)
  fair : p.1.kind ≠ .delayed → ∀ index now ack, Returns (f.apply ⟨index, now, .dequeue name ack⟩) fun r =>
    (∃ msg, First f name (·.group = msg.group) msg ∧ r.1 = delivered name msg) ∨ r.1 = emptyReply name

/-! ## One state -/

/-- A ready message is one item of the memory queue. -/
theorem Tracks.isReady_iff (h : Tracks name (some b) f) {msg : Message} :
    IsReady f name msg ↔ b.records msg.id = some ⟨msg, .ready⟩ := by
  obtain ⟨q, hmem, _, href⟩ := h.inMemory
  constructor
  · rintro ⟨hstored, p, hp, it, hit, hid⟩
    rw [hmem] at hp; cases hp
    obtain ⟨msg', hr, _⟩ := href.record_of_ready hit
    rw [hid] at hr
    rw [href.lookup_some hr] at hstored; cases hstored
    exact hr
  · intro hr
    exact ⟨href.lookup_some hr, _, hmem, _, href.mem_ready hr, rfl⟩

theorem Tracks.delivers_first (h : Tracks name (some b) f) {it : Item} (hd : b.memory.dequeue ack index now = some (some it, m)) :
    ∃ msg, First f name (fun y => b.memory.kind = .delayed ∨ y.group = msg.group) msg ∧ msg.priority = it.priority ∧
      Returns (f.apply ⟨index, now, .dequeue name ack⟩) fun r => r.1 = delivered name msg := by
  obtain ⟨msg, hstored, hid, hg, hp, hret⟩ := h.delivers hd
  obtain ⟨q, hmem, _, href⟩ := h.inMemory
  obtain ⟨rest, hrest, _⟩ := (href.inv.dequeue ack index now).result hd
  refine ⟨msg, ⟨⟨by rw [hid]; exact hstored, _, hmem, it, hrest ▸ Multiset.mem_cons_self it rest, hid.symm⟩,
    fun y hy hamong => ?_⟩, hp.symm, hret⟩
  have hy := href.mem_ready (h.isReady_iff.mp hy)
  rw [← hp, hid]
  exact href.inv.dequeue_least hd hy (by rw [hg]; exact hamong)

theorem Tracks.answers_empty (h : Tracks name (some b) f) (hd : b.memory.dequeue ack index now = some (none, m)) :
    Returns (f.apply ⟨index, now, .dequeue name ack⟩) fun r => r.1 = emptyReply name := by
  refine (h.answers ⟨index, now, .dequeue name ack⟩ (admits_of_none rfl rfl rfl) rfl).mono ?_
  rintro r ⟨b', response, hres, hh, _⟩
  obtain ⟨o, hx, rfl⟩ := Broker.answer_eq hh
  unfold Broker.dequeue at hx
  split at hx
  · cases hx; exact hres
  · simp only [hd, Option.bind_eq_bind, Option.bind_some] at hx
    cases hx; exact hres

/-- A dequeue that finds nothing and leaves the memory queue as it is leaves everything. -/
theorem Tracks.stays (h : Tracks name (some b) f) (hd : b.memory.dequeue ack index now = some (none, b.memory)) :
    Returns (f.apply ⟨index, now, .dequeue name ack⟩) fun r => SameQueues f r.2 := by
  obtain ⟨q, hq, _, href⟩ := h.present b rfl
  have hsame : q.dequeue f.queueManager.store f.queueManager.config noFaults ack index now =
    some (.error .emptyQueue, q, f.queueManager.store) := by
    have hq' : ({ q with queue := some b.memory } : Queue) = q := by rw [← href.queue_eq]
    unfold Queue.dequeue
    simp only [href.queue_eq, hd, Option.bind_eq_bind, Option.bind_some, hq', ite_self]
  refine .of_eq (a := (emptyReply name, f.putQueue name q f.queueManager.store)) ?_ ⟨rfl, fun n => ?_⟩
  · rw [apply_handle rfl hq]
    unfold handle
    simp only [hsame, Option.map_some]
    rfl
  · show (f.queueManager.queues.insert name q).lookup n = _
    rw [FinMap.lookup_insert_eq]
    split
    · rename_i e; rw [e, hq]
    · rfl

theorem Tracks.inOrder (h : Tracks name (some b) f) {p : MemoryQueue × DelayedQueue} (hp : f.inMemory name = some p) :
    InOrder name f p := by
  obtain ⟨q, hmem, _, href⟩ := h.inMemory
  rw [hmem] at hp; cases hp
  refine ⟨fun hk index now ack => ?_, fun hk index now ack => ?_⟩
  · obtain ⟨⟨item, m⟩, hd, hdue⟩ := href.inv.dequeue_due hk ack index now
    cases item with
    | some it =>
      obtain ⟨msg, hfirst, hprio, hret⟩ := h.delivers_first hd
      exact hret.mono fun r hr => Or.inl ⟨msg, ⟨hfirst.1, fun y hy _ => hfirst.2 y hy (Or.inl hk)⟩, hprio ▸ hdue, hr⟩
    | none =>
      obtain ⟨rfl, hlater⟩ := hdue
      refine ((h.answers_empty hd).and (h.stays hd)).mono fun r hr => Or.inr ⟨fun msg hmsg => ?_, hr⟩
      exact hlater _ (href.mem_ready (h.isReady_iff.mp hmsg))
  · obtain ⟨⟨item, m⟩, hd, _⟩ := href.inv.dequeue ack index now
    cases item with
    | some it =>
      obtain ⟨msg, hfirst, _, hret⟩ := h.delivers_first hd
      exact hret.mono fun r hr => Or.inl ⟨msg, ⟨hfirst.1, fun y hy hg => hfirst.2 y hy (Or.inr hg)⟩, hr⟩
    | none => exact (h.answers_empty hd).mono fun r hr => Or.inr hr

/-! ## Over lives -/

theorem order_respected {cfg : Config} {leaderConfig : LeaderConfig} {events : List (Event FSM Happening (Option Reply))}
    (r : Lives (new cfg leaderConfig) events f) (hok : ∀ e ∈ events, Respects name e) {p : MemoryQueue × DelayedQueue}
    (hp : f.inMemory name = some p) : InOrder name f p := by
  obtain ⟨ob, ht, _⟩ := r.managed hok
  obtain ⟨b, _, rfl, _, _⟩ := ht.of_inMemory hp
  exact ht.inOrder hp

/-- Three messages, one of them delivered and nacked into the future. -/
def postponed : List Entry :=
  [⟨1, 0, .createQueue "jobs" "delayed" plain⟩, ⟨2, 0, .enqueue "jobs" 1 "a" 5 "" none⟩, ⟨3, 0, .enqueue "jobs" 2 "a" 7 "" none⟩,
    ⟨4, 0, .enqueue "jobs" 3 "a" 9 "" none⟩, ⟨5, 6, .dequeue "jobs" false⟩, ⟨6, 6, .nack "jobs" 1 8 none⟩]

theorem postponed_runs : (exec apply (new defaults (.new "n1" "" "")) postponed).isSome := by decide +kernel

def postponedEvents : List (Event FSM Entry Reply) :=
  ((exec apply (new defaults (.new "n1" "" "")) postponed).get postponed_runs).1

def postponedState : FSM := ((exec apply (new defaults (.new "n1" "" "")) postponed).get postponed_runs).2

/-- In a life that ends with a restore. -/
theorem order_respected_restored : ∃ events f, Lives (new defaults (.new "n1" "" "")) events f ∧
    events.getLast? = some ⟨postponedState, .restore postponedState ["jobs"], none, f⟩ ∧
      ∀ p, f.inMemory "jobs" = some p → InOrder "jobs" f p := by
  have r : Runs (new defaults (.new "n1" "" "")) postponedEvents postponedState := Run.of_exec_isSome postponed_runs
  obtain ⟨f, hocc⟩ := r.occurs_restore (.refl ["jobs"]) (by decide +kernel) (by decide +kernel)
  have hlives := r.lives.append (.cons hocc (.nil f))
  have hadmits : ∀ a ∈ postponedEvents, Admits "jobs" a.before a.input := by decide +kernel
  have hapart : postponedState.queueManager.store.Apart "jobs" := by decide +kernel
  refine ⟨_, f, hlives, by simp, fun p hp => order_respected hlives (fun e he => ?_) hp⟩
  rcases List.mem_append.mp he with he | he
  · obtain ⟨a, ha, rfl⟩ := List.mem_map.mp he
    exact hadmits a ha
  · rw [List.mem_singleton] at he
    subst he
    exact ⟨r.safe, rfl, .refl _, hapart⟩

/-- A message that is due, and ready in its queue's memory, is not delivered once the queue
    `jobs` was deleted: the scan of its keys took the message out of the store. -/
theorem deleted_neighbour_hides_due :
    (exec apply (new defaults (.new "n1" "" ""))
        [⟨1, 0, .createQueue "jobs" "delayed" plain⟩, ⟨2, 0, .createQueue "jobs:eu" "delayed" plain⟩,
        ⟨3, 0, .enqueue "jobs:eu" 1 "a" 5 "" none⟩,
          ⟨4, 0, .deleteQueue "jobs"⟩, ⟨5, 6, .dequeue "jobs:eu" false⟩]).map
      (fun r => (r.1.getLast?.map fun e => ((e.before.inMemory "jobs:eu").map fun p => p.1.len, e.output),
        (r.2.inMemory "jobs:eu").map fun p => p.1.len)) =
      some (some (some 1, .response (.ofError "dequeue message from queue" "jobs:eu" .keyNotFound)), some 0) := by
  decide +kernel

end FSM

end Doq
