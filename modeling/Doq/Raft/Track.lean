/-
  Doq.Raft.Track — the state machine keeps a broker for each queue (see
  `Doq.Queue.Broker`, `Doq.Raft.Fsm`).

  `Tracks name ob f` says that the queue `name` of the state is the broker `ob`, or that
  there is none. `Tracks.step` carries it over an entry: `Moved` lists what the entry did to
  the broker, with the reply, and `Did` what a command on messages did to its records.
  `Admits` is what it asks of the entry: an enqueued id is not stored, its group is one a
  round-robin queue files under its own name, and no other queue is deleted whose prefix
  scan meets this one's messages.

  Everything about runs of one queue is derived from `Runs.tracks`.
-/

import Doq.Queue.Refine
import Doq.Raft.Deadlines

namespace Doq

open Lib Memory Storage

/-! ## Commands on messages -/

namespace Broker

variable {b b' : Broker} {entry : Entry} {response : FSMResponse} {id : UInt64}

def answer {α : Type} (context queueName : String) (respond : α → FSMResponse) (r : Outcome α) : FSMResponse × Broker :=
  (FSM.responseTo context queueName respond r.1, r.2)

/-- A command on messages, as the broker answers it. -/
def handle (b : Broker) (entry : Entry) : Go (FSMResponse × Broker) :=
  match entry.command with
  | .enqueue n id group priority content metadata =>
    (b.enqueue id group priority content metadata).map (answer "enqueue message to queue" n (.ofMessage n))
  | .dequeue n ack => (b.dequeue ack entry.index entry.now).map (answer "dequeue message from queue" n (.ofMessage n))
  | .get n id => (b.get id).map (answer "get message from queue" n (.ofMessage n))
  | .delete n id => (b.delete id).map (answer "delete message from queue" n fun _ => .ofId n id)
  | .ack n id => (b.ack id).map (answer "ack message in queue" n fun _ => .ofId n id)
  | .nack n id priority metadata =>
    (b.nack id priority metadata).map (answer "nack message in queue" n fun _ =>
      { FSMResponse.ofId n id with metadata := metadata })
  | .touch n id => (b.touch id entry.now).map (answer "touch message in queue" n fun _ => .ofId n id)
  | .ackTimeout n id => (b.ackTimeout id).map (answer "expire ack of message in queue" n fun _ => .ofId n id)
  | .updatePriority n id priority =>
    (b.updatePriority id priority).map
      (answer "update priority for message in queue" n fun _ => { FSMResponse.ofId n id with priority := priority })
  | _ => none

/-- What a command on messages did to the records. -/
inductive Did (b : Broker) (entry : Entry) (response : FSMResponse) (b' : Broker) : Prop
  | refused (he : response.error ≠ none) (hr : b'.records = b.records)
  | read (n : String) (id : UInt64) (hc : entry.command = .get n id) (hr : b'.records = b.records)
  | enqueued (n : String) (id : UInt64) (group : String) (priority : Int) (content : String) (metadata : Option Metadata)
      (hc : entry.command = .enqueue n id group priority content metadata)
      (hr : b'.records = Function.update b.records id
        (some ⟨⟨Queue.groupFor b.config group, id, priority, content, metadata, 0⟩, .ready⟩))
      (hresp : response.error = none)
  | delivered (n : String) (ack : Bool) (id : UInt64) (msg : Message) (hc : entry.command = .dequeue n ack)
      (hbefore : b.records id = some ⟨msg, .ready⟩)
      (hr : b'.records = Function.update b.records id (if ack then none else
        some ⟨{ msg with deliveryCount := msg.deliveryCount + 1 }, .inFlight (Queue.ackDeadline b.config entry.now)⟩))
      (hresp : response = .ofMessage n { msg with deliveryCount := msg.deliveryCount + 1 }) (hid : msg.id = id)
  | removed (n : String) (id : UInt64) (record : Record)
      (hc : entry.command = .delete n id ∨ entry.command = .ack n id ∧ record.status ≠ .ready)
      (hbefore : b.records id = some record) (hr : b'.records = Function.update b.records id none) (hresp : response.error = none)
  /-- The last delivery failed. -/
  | dropped (id : UInt64) (msg : Message) (d : Int) (hc : entry.command.failed = some id) (hex : b.exhausted msg)
      (hbefore : b.records id = some ⟨msg, .inFlight d⟩) (hr : b'.records = Function.update b.records id none)
      (hresp : response.error = none)
  | requeued (id : UInt64) (msg : Message) (d : Int) (priority : Int) (metadata : Option Metadata)
      (hc : entry.command.failed = some id) (hex : ¬ b.exhausted msg) (hbefore : b.records id = some ⟨msg, .inFlight d⟩)
      (hr : b'.records = Function.update b.records id (some ⟨redelivered msg priority metadata, .ready⟩))
      (hresp : response.error = none)
  | touched (n : String) (id : UInt64) (msg : Message) (d : Int) (hc : entry.command = .touch n id)
      (hbefore : b.records id = some ⟨msg, .inFlight d⟩)
      (hr : b'.records = Function.update b.records id (some ⟨msg, .inFlight (Queue.ackDeadline b.config entry.now)⟩))
  | repriced (n : String) (id : UInt64) (priority : Int) (msg : Message) (status status' : Status)
      (hc : entry.command = .updatePriority n id priority) (hbefore : b.records id = some ⟨msg, status⟩)
      (hstatus : status' = .ready ↔ status = .ready)
      (hr : b'.records = Function.update b.records id (some ⟨{ msg with priority := priority }, status'⟩))

/-- A delivery that fails was in flight, and the message is dropped or put back. -/
theorem Did.failure (h : b.Did entry response b') (hc : entry.command.failed = some id) (herr : response.error = none) :
    ∃ msg d, b.records id = some ⟨msg, .inFlight d⟩ ∧
      (b.exhausted msg ∧ b'.records = Function.update b.records id none ∨
        ¬ b.exhausted msg ∧ ∃ priority metadata,
          b'.records = Function.update b.records id (some ⟨redelivered msg priority metadata, .ready⟩)) := by
  cases h with
  | refused herr' _ => exact absurd herr herr'
  | read _ _ hc' _ => rw [hc'] at hc; cases hc
  | enqueued _ _ _ _ _ _ hc' _ _ => rw [hc'] at hc; cases hc
  | delivered _ _ _ _ hc' _ _ _ _ => rw [hc'] at hc; cases hc
  | removed _ _ _ hc' _ _ _ => rcases hc' with hc' | ⟨hc', _⟩ <;> rw [hc'] at hc <;> cases hc
  | touched _ _ _ _ hc' _ _ => rw [hc'] at hc; cases hc
  | repriced _ _ _ _ _ _ hc' _ _ _ => rw [hc'] at hc; cases hc
  | dropped i msg d hc' hex hi hrec _ =>
    rw [hc] at hc'; cases hc'
    exact ⟨msg, d, hi, Or.inl ⟨hex, hrec⟩⟩
  | requeued i msg d priority metadata hc' hex hi hrec _ =>
    rw [hc] at hc'; cases hc'
    exact ⟨msg, d, hi, Or.inr ⟨hex, priority, metadata, hrec⟩⟩

/-- An `Ack` or a `Delete` that succeeds removes a record, an `Ack` only one in flight. -/
theorem Did.removal {n : String} (h : b.Did entry response b')
    (hc : entry.command = .ack n id ∨ entry.command = .delete n id) (herr : response.error = none) :
    ∃ record, b.records id = some record ∧ (entry.command = .ack n id → record.status ≠ .ready) ∧
      b'.records = Function.update b.records id none := by
  have hne : ∀ c, entry.command = c → c = .ack n id ∨ c = .delete n id := fun c h => h ▸ hc
  cases h with
  | refused herr' _ => exact absurd herr herr'
  | read _ _ hc' _ => rcases hne _ hc' with h | h <;> cases h
  | enqueued _ _ _ _ _ _ hc' _ _ => rcases hne _ hc' with h | h <;> cases h
  | delivered _ _ _ _ hc' _ _ _ _ => rcases hne _ hc' with h | h <;> cases h
  | touched _ _ _ _ hc' _ _ => rcases hne _ hc' with h | h <;> cases h
  | repriced _ _ _ _ _ _ hc' _ _ _ => rcases hne _ hc' with h | h <;> cases h
  | dropped _ _ _ hc' _ _ _ _ => rcases hc with h | h <;> rw [h] at hc' <;> cases hc'
  | requeued _ _ _ _ _ hc' _ _ _ _ => rcases hc with h | h <;> rw [h] at hc' <;> cases hc'
  | removed _ i record hc' hi hrec _ =>
    rcases hc' with hc' | ⟨hc', hstatus⟩ <;> rcases hne _ hc' with h | h <;> cases h
    · exact ⟨record, hi, fun h => (by rw [hc'] at h; cases h), hrec⟩
    · exact ⟨record, hi, fun _ => hstatus, hrec⟩

/-- Where a record comes from: it is the old one, a new message, the old one delivered or put
    back, or the old one in the same group, with the same count, and ready if it was. -/
inductive Origin (b : Broker) (entry : Entry) (response : FSMResponse) (id : UInt64) (r : Record) : Prop
  | kept (hb : b.records id = some r)
  | enqueued (group : String) (priority : Int) (content : String) (metadata : Option Metadata)
    (hc : entry.command.enqueued = some id)
      (hr : r = ⟨⟨Queue.groupFor b.config group, id, priority, content, metadata, 0⟩, .ready⟩) (hresp : response.error = none)
      (hgroup : entry.command.enqueuedGroup = some group)
  | delivered (n : String) (msg : Message) (hc : entry.command = .dequeue n false) (hb : b.records id = some ⟨msg, .ready⟩)
      (hr : r = ⟨{ msg with deliveryCount := msg.deliveryCount + 1 }, .inFlight (Queue.ackDeadline b.config entry.now)⟩)
      (hresp : response = .ofMessage n { msg with deliveryCount := msg.deliveryCount + 1 }) (hid : msg.id = id)
  | requeued (msg : Message) (d : Int) (priority : Int) (metadata : Option Metadata) (hc : entry.command.failed = some id)
      (hex : ¬ b.exhausted msg) (hb : b.records id = some ⟨msg, .inFlight d⟩)
        (hr : r = ⟨redelivered msg priority metadata, .ready⟩)
      (hresp : response.error = none)
  | changed (r₀ : Record) (hb : b.records id = some r₀) (hgroup : r.message.group = r₀.message.group)
      (hcount : r.message.deliveryCount = r₀.message.deliveryCount) (hstatus : r.status = .ready ↔ r₀.status = .ready)

/-- The record of an id after one record was replaced. -/
theorem update_cases {records : UInt64 → Option Record} {i : UInt64} {x : Option Record} {r : Record}
    (h : Function.update records i x id = some r) : (id = i ∧ x = some r) ∨ records id = some r := by
  by_cases e : id = i
  · rw [e, Function.update_self] at h
    exact Or.inl ⟨e, h⟩
  · rw [Function.update_of_ne e] at h
    exact Or.inr h

theorem Did.origin {r : Record} (hd : Did b entry response b') (hr : b'.records id = some r) : Origin b entry response id r := by
  cases hd with
  | refused _ hrec => exact .kept (hrec ▸ hr)
  | read _ _ _ hrec => exact .kept (hrec ▸ hr)
  | enqueued n i group priority content metadata hc hrec hresp =>
    rw [hrec] at hr
    rcases update_cases hr with ⟨rfl, hx⟩ | hr
    · cases hx; exact .enqueued group priority content metadata (by rw [hc]; rfl) rfl hresp (by rw [hc]; rfl)
    · exact .kept hr
  | delivered n ack i msg hc hi hrec hresp hid =>
    rw [hrec] at hr
    rcases update_cases hr with ⟨rfl, hx⟩ | hr
    · cases ack <;> cases hx
      exact .delivered n msg hc hi rfl hresp hid
    · exact .kept hr
  | removed n i record _ _ hrec _ =>
    rw [hrec] at hr
    rcases update_cases hr with ⟨_, hx⟩ | hr
    · cases hx
    · exact .kept hr
  | dropped i msg d _ _ _ hrec _ =>
    rw [hrec] at hr
    rcases update_cases hr with ⟨_, hx⟩ | hr
    · cases hx
    · exact .kept hr
  | requeued i msg d priority metadata hc hex hi hrec hresp =>
    rw [hrec] at hr
    rcases update_cases hr with ⟨rfl, hx⟩ | hr
    · cases hx; exact .requeued msg d priority metadata hc hex hi rfl hresp
    · exact .kept hr
  | touched n i msg d _ hi hrec =>
    rw [hrec] at hr
    rcases update_cases hr with ⟨rfl, hx⟩ | hr
    · cases hx; exact .changed _ hi rfl rfl (iff_of_false nofun nofun)
    · exact .kept hr
  | repriced n i priority msg status status' _ hi hstatus hrec =>
    rw [hrec] at hr
    rcases update_cases hr with ⟨rfl, hx⟩ | hr
    · cases hx; exact .changed _ hi rfl rfl hstatus
    · exact .kept hr

theorem answer_eq {α : Type} {x : Go (Outcome α)} {context n : String} {respond : α → FSMResponse}
    (h : x.map (answer context n respond) = some (response, b')) :
    ∃ r, x = some (r, b') ∧ response = FSM.responseTo context n respond r := by
  obtain ⟨⟨r, b''⟩, hx, hr⟩ := Option.map_eq_some_iff.mp h
  cases hr
  exact ⟨r, hx, rfl⟩

/-- A message removed, after its slot or its item. -/
theorem put_eq {μ : Type} {x : Go μ} (memory : μ → MemoryQueue) {record : Option Record} {r : Except Err Unit}
    (h : (do let m ← x; some ((.ok () : Except Err Unit), b.put id record (memory m))) = some (r, b')) :
    r = .ok () ∧ b'.config = b.config ∧ b'.records = Function.update b.records id record := by
  obtain ⟨m, _, hr⟩ := Option.bind_eq_some_iff.mp h
  cases hr
  exact ⟨rfl, rfl, rfl⟩

theorem fail_did {n context : String} {priority : Int} {metadata : Option Metadata} {respond : Unit → FSMResponse}
    (hc : entry.command.failed = some id) (hresp : (respond ()).error = none)
    (h : (b.fail id priority metadata).map (answer context n respond) = some (response, b')) :
    b'.config = b.config ∧ Did b entry response b' := by
  obtain ⟨r, hx, rfl⟩ := answer_eq h
  unfold fail at hx
  match hr : b.records id with
  | none => rw [hr] at hx; cases hx; exact ⟨rfl, .refused nofun rfl⟩
  | some ⟨msg, .ready⟩ => rw [hr] at hx; cases hx; exact ⟨rfl, .refused nofun rfl⟩
  | some ⟨msg, .inFlight d⟩ =>
    rw [hr] at hx
    dsimp only at hx
    split at hx
    · rename_i hex
      obtain ⟨rfl, hconf, hrec⟩ := put_eq (fun m => m) hx
      exact ⟨hconf, .dropped id msg d hc hex hr hrec hresp⟩
    · rename_i hex
      obtain ⟨m, _, hx⟩ := Option.bind_eq_some_iff.mp hx
      obtain ⟨rfl, hconf, hrec⟩ := put_eq (fun m => m) hx
      exact ⟨hconf, .requeued id msg d priority metadata hc hex hr hrec hresp⟩

end Broker

namespace Refines

variable {name : String} {b b' : Broker} {q : Queue} {store : Store} {entry : Entry} {response : FSMResponse}

theorem dequeue_did (h : Refines name b q store) {n : String} {ack : Bool} (hc : entry.command = .dequeue n ack)
    (hh : (b.dequeue ack entry.index entry.now).map (Broker.answer "dequeue message from queue" n (.ofMessage n)) =
      some (response, b')) :
    b'.config = b.config ∧ b.Did entry response b' := by
  obtain ⟨r, hx, rfl⟩ := Broker.answer_eq hh
  unfold Broker.dequeue at hx
  split at hx
  · cases hx; exact ⟨rfl, .refused nofun rfl⟩
  · obtain ⟨⟨item, m⟩, hm, hres⟩ := h.inv.dequeue ack entry.index entry.now
    simp only [hm, Option.bind_eq_bind, Option.bind_some] at hx
    cases item with
    | none => cases hx; exact ⟨rfl, .refused nofun rfl⟩
    | some it =>
      obtain ⟨rest, hrest, _⟩ := hres
      obtain ⟨msg, hr, hid, _⟩ := h.record_of_ready (hrest ▸ Multiset.mem_cons_self it rest)
      simp only [hr, Option.bind_some] at hx
      cases hx
      exact ⟨rfl, .delivered n ack it.id msg hc hr rfl rfl hid⟩

/-- What a command on messages does to the broker of a queue. -/
theorem did (h : Refines name b q store) (hh : b.handle entry = some (response, b')) :
    b'.config = b.config ∧ b.Did entry response b' := by
  unfold Broker.handle at hh
  cases hc : entry.command <;> rw [hc] at hh <;> dsimp only at hh
  case enqueue n id group priority content metadata =>
    obtain ⟨r, hx, rfl⟩ := Broker.answer_eq hh
    obtain ⟨m, _, hx⟩ := Option.bind_eq_some_iff.mp hx
    cases hx
    exact ⟨rfl, .enqueued n id group priority content metadata hc rfl rfl⟩
  case dequeue n ack => exact h.dequeue_did hc hh
  case get n id =>
    obtain ⟨r, hx, rfl⟩ := Broker.answer_eq hh
    unfold Broker.get at hx
    split at hx <;> cases hx <;> exact ⟨rfl, .read n id hc rfl⟩
  case delete n id =>
    obtain ⟨r, hx, rfl⟩ := Broker.answer_eq hh
    unfold Broker.delete at hx
    match hr : b.records id with
    | none => rw [hr] at hx; cases hx; exact ⟨rfl, .refused nofun rfl⟩
    | some ⟨msg, .ready⟩ =>
      rw [hr] at hx
      obtain ⟨rfl, hconf, hrec⟩ := Broker.put_eq Prod.snd hx
      exact ⟨hconf, .removed n id _ (Or.inl hc) hr hrec rfl⟩
    | some ⟨msg, .inFlight d⟩ =>
      rw [hr] at hx
      obtain ⟨rfl, hconf, hrec⟩ := Broker.put_eq (fun m => m) hx
      exact ⟨hconf, .removed n id _ (Or.inl hc) hr hrec rfl⟩
  case ack n id =>
    obtain ⟨r, hx, rfl⟩ := Broker.answer_eq hh
    unfold Broker.ack at hx
    match hr : b.records id with
    | none => rw [hr] at hx; cases hx; exact ⟨rfl, .refused nofun rfl⟩
    | some ⟨msg, .ready⟩ => rw [hr] at hx; cases hx; exact ⟨rfl, .refused nofun rfl⟩
    | some ⟨msg, .inFlight d⟩ =>
      rw [hr] at hx
      obtain ⟨rfl, hconf, hrec⟩ := Broker.put_eq (fun m => m) hx
      exact ⟨hconf, .removed n id _ (Or.inr ⟨hc, by simp⟩) hr hrec rfl⟩
  case nack n id priority metadata => exact Broker.fail_did (by rw [hc]; rfl) rfl hh
  case touch n id =>
    obtain ⟨r, hx, rfl⟩ := Broker.answer_eq hh
    unfold Broker.touch at hx
    match hr : b.records id with
    | none => rw [hr] at hx; cases hx; exact ⟨rfl, .refused nofun rfl⟩
    | some ⟨msg, .ready⟩ => rw [hr] at hx; cases hx; exact ⟨rfl, .refused nofun rfl⟩
    | some ⟨msg, .inFlight d⟩ => rw [hr] at hx; cases hx; exact ⟨rfl, .touched n id msg d hc hr rfl⟩
  case ackTimeout n id => exact Broker.fail_did (by rw [hc]; rfl) rfl hh
  case updatePriority n id priority =>
    obtain ⟨r, hx, rfl⟩ := Broker.answer_eq hh
    unfold Broker.updatePriority at hx
    match hr : b.records id with
    | none => rw [hr] at hx; cases hx; exact ⟨rfl, .refused nofun rfl⟩
    | some ⟨msg, status⟩ =>
      rw [hr] at hx
      obtain ⟨rfl, hconf, hrec⟩ := Broker.put_eq (fun m => m) hx
      refine ⟨hconf, .repriced n id priority msg status _ hc hr ?_ hrec⟩
      cases status <;> simp
  all_goals cases hh

theorem Follows.handled {α : Type} {x : Go (Queue.Outcome α)} {y : Go (Broker.Outcome α)} (h : Follows name store x y)
    (context n : String) (respond : α → FSMResponse) :
    Returns (x.map (FSM.wrap context n respond)) fun r =>
      ∃ b', y.map (Broker.answer context n respond) = some (r.1, b') ∧ Refines name b' r.2.1 r.2.2 ∧
        StoreFrame name store r.2.2 := by
  refine Returns.map h fun r hr => ?_
  obtain ⟨b', rfl, href, hframe⟩ := hr
  exact ⟨b', rfl, href, hframe⟩

theorem handle (h : Refines name b q store) (he : entry.command.queueName = some name)
    (hfresh : ∀ id ∈ entry.command.enqueued, b.records id = none)
    (hgroup : ∀ group ∈ entry.command.enqueuedGroup,
      MemoryQueue.Accepts b.memory.kind (Queue.groupFor b.config group)) (cfg : Config) :
    Returns (FSM.handle q store cfg entry) fun r =>
      ∃ b', b.handle entry = some (r.1, b') ∧ Refines name b' r.2.1 r.2.2 ∧ StoreFrame name store r.2.2 := by
  unfold FSM.handle Broker.handle
  cases hc : entry.command <;> rw [hc] at he hfresh hgroup <;> cases he
  case enqueue id group priority content metadata =>
    exact (h.enqueue (hfresh id rfl) (hgroup group rfl) priority content metadata).handled _ _ _
  case dequeue ack => exact (h.dequeue ack entry.index entry.now).handled _ _ _
  case get id =>
    refine Returns.map (h.get id) fun r hr => ?_
    exact ⟨b, by dsimp only; rw [hr]; rfl, h, .refl _ _⟩
  case delete id => exact (h.delete id).handled _ _ _
  case ack id => exact (h.acked id).handled _ _ _
  case nack id priority metadata => exact (h.nack id priority metadata).handled _ _ _
  case touch id => exact (h.touch id entry.now).handled _ _ _
  case ackTimeout id => exact (h.ackTimeout id).handled _ _ _
  case updatePriority id priority => exact (h.updatePriority id priority).handled _ _ _

end Refines

/-! ## Entries -/

namespace FSM

/-- What an entry must respect for the queue `name` to stay a broker. -/
structure Admits (name : String) (f : FSM) (entry : Entry) : Prop where
  fresh : entry.command.queueName = some name → ∀ id ∈ entry.command.enqueued, f.queueManager.store.messages.lookup
    (name, id) = none
  group : entry.command.queueName = some name → ∀ group ∈ entry.command.enqueuedGroup, ∀ p ∈ f.inMemory name,
    p.1.kind = .fairRoundRobin → FairRoundRobinQueue.GoodGroup group
  spares : ∀ n ∈ entry.command.deletedQueue, n ≠ name → ∀ key ∈ f.queueManager.store.messages.keys, key.1 = name →
    scanned n key = false

instance (name : String) (f : FSM) (entry : Entry) : Decidable (Admits name f entry) :=
  decidable_of_iff
    ((entry.command.queueName = some name → ∀ id ∈ entry.command.enqueued, f.queueManager.store.messages.lookup
      (name, id) = none) ∧
      (entry.command.queueName = some name → ∀ group ∈ entry.command.enqueuedGroup, ∀ p ∈ f.inMemory name,
        p.1.kind = .fairRoundRobin → FairRoundRobinQueue.GoodGroup group) ∧
      ∀ n ∈ entry.command.deletedQueue, n ≠ name → ∀ key ∈ f.queueManager.store.messages.keys, key.1 = name →
        scanned n key = false)
    ⟨fun h => ⟨h.1, h.2.1, h.2.2⟩, fun h => ⟨h.fresh, h.group, h.spares⟩⟩

/-- The queue `name` is the broker, or there is none: the queue is missing, or it has no
    memory queue and nothing is stored in it. -/
structure Tracks (name : String) (ob : Option Broker) (f : FSM) : Prop where
  safe : Safe f
  absent : ob = none → ∀ q, f.queueManager.queues.lookup name = some q → q.queue = none
  present : ∀ b, ob = some b → ∃ q, f.queueManager.queues.lookup name = some q ∧
    f.queueManager.store.queues.lookup name = some b.config ∧ Refines name b q f.queueManager.store

/-- What an entry did to the broker. -/
inductive Moved (name : String) (e : Event FSM Entry Reply) : Option Broker → Option Broker → Prop
  | aside (ob : Option Broker) (h : e.input.command.queueName = some name → ∃ r, e.output = .response r ∧ r.error ≠ none) :
      Moved name e ob ob
  | handled (b b' : Broker) (response : FSMResponse) (he : e.input.command.queueName = some name)
      (hh : b.handle e.input = some (response, b')) (hconf : b'.config = b.config) (hd : b.Did e.input response b')
      (hr : e.output = .response response) : Moved name e (some b) (some b')
  | created (queueType : String) (settings settings' : QueueSettings) (m : MemoryQueue)
      (he : e.input.command = .createQueue name queueType settings)
      (ha : Queue.newSettings e.before.queueManager.config queueType settings = .ok settings')
      (hm : Queue.memoryQueue queueType settings' = some m) :
      Moved name e none (some ⟨⟨name, queueType, settings'⟩, fun _ => none, m⟩)
  | updated (b : Broker) (settings settings' : QueueSettings) (he : e.input.command = .updateQueue name settings)
      (ha : Queue.changedSettings e.before.queueManager.config b.config settings = .ok settings') :
      Moved name e (some b) (some (b.update settings'))
  | deleted (ob : Option Broker) (he : e.input.command = .deleteQueue name) : Moved name e ob none

variable {name : String} {ob : Option Broker} {b : Broker} {f : FSM} {e : Event FSM Entry Reply} {q : Queue}

theorem tracks_new (cfg : Config) (leaderConfig : LeaderConfig) : Tracks name none (new cfg leaderConfig) :=
  ⟨new_safe cfg leaderConfig, fun _ _ h => (nomatch h), nofun⟩

theorem Tracks.inMemory (h : Tracks name (some b) f) : ∃ q, f.inMemory name = some (b.memory, q.ackQueue) ∧
    f.queueManager.store.queues.lookup name = some b.config ∧ Refines name b q f.queueManager.store := by
  obtain ⟨q, hq, hc, href⟩ := h.present b rfl
  exact ⟨q, inMemory_eq hq href.queue_eq, hc, href⟩

/-- The same broker when nothing under the name has changed. -/
theorem Tracks.same (h : Tracks name ob e.before) (hsafe : Safe e.after)
    (hq : e.after.queueManager.queues.lookup name = e.before.queueManager.queues.lookup name)
    (hc : e.after.queueManager.store.queues.lookup name = e.before.queueManager.store.queues.lookup name)
    (hm : ∀ id, e.after.queueManager.store.messages.lookup (name, id) = e.before.queueManager.store.messages.lookup (name, id)) :
    Tracks name ob e.after := by
  refine ⟨hsafe, fun hn q hq' => h.absent hn q (hq ▸ hq'), fun b hb => ?_⟩
  obtain ⟨q, hq', hc', href⟩ := h.present b hb
  exact ⟨q, hq.trans hq', hc.trans hc', { href with stored := fun id => (hm id).trans (href.stored id) }⟩

/-- A queue put under the name, as the broker `b`. -/
theorem tracks_put {store' : Store} (hsafe : Safe (f.putQueue name q store')) (hc : store'.queues.lookup name = some b.config)
    (href : Refines name b q store') : Tracks name (some b) (f.putQueue name q store') :=
  ⟨hsafe, nofun, fun _ hb => by cases hb; exact ⟨q, lookup_putQueue, hc, href⟩⟩

/-- What an admitted entry enqueues is new to the broker, in a group it takes. -/
theorem Tracks.enqueues (h : Tracks name (some b) f) {entry : Entry} (ha : Admits name f entry)
    (he : entry.command.queueName = some name) :
    (∀ id ∈ entry.command.enqueued, b.records id = none) ∧
      ∀ group ∈ entry.command.enqueuedGroup, MemoryQueue.Accepts b.memory.kind (Queue.groupFor b.config group) := by
  obtain ⟨q, hq, _, href⟩ := h.present b rfl
  constructor
  · intro id hid
    have := ha.fresh he id hid
    rw [href.stored] at this
    exact Option.map_eq_none_iff.mp this
  · intro group hg
    cases hk : b.memory.kind with
    | fairRoundRobin =>
      unfold Queue.groupFor
      split
      · exact (by decide : FairRoundRobinQueue.GoodGroup "default")
      · exact ha.group he group hg (b.memory, q.ackQueue) (inMemory_eq hq href.queue_eq) hk
    | delayed => trivial
    | fairWeighted => trivial

/-- A command on messages of a queue that is a broker is answered by the broker. -/
theorem Tracks.answers (h : Tracks name (some b) f) (entry : Entry) (ha : Admits name f entry)
    (he : entry.command.queueName = some name) :
    Returns (f.apply entry) fun r => ∃ b' response, r.1 = .response response ∧ b.handle entry = some (response, b') ∧
      b'.config = b.config ∧ b.Did entry response b' ∧ Tracks name (some b') r.2 := by
  obtain ⟨q, hq, hc, href⟩ := h.present b rfl
  obtain ⟨hfresh, hgroup⟩ := h.enqueues ha he
  obtain ⟨⟨response, q', store'⟩, hh, b', hb, href', hframe⟩ := href.handle he hfresh hgroup f.queueManager.config
  obtain ⟨hconf, hd⟩ := href.did hb
  have hap : f.apply entry = some (.response response, f.putQueue name q' store') := by
    rw [apply_handle he hq, hh]; rfl
  have hsafe := h.safe.step hap
  refine .of_eq hap ⟨b', response, rfl, hb, hconf, hd, tracks_put hsafe ?_ href'⟩
  rw [hframe.queues, hc, hconf]

theorem Tracks.handled (h : Tracks name (some b) e.before) (hs : e.before.apply e.input = some (e.output, e.after))
    (ha : Admits name e.before e.input) (he : e.input.command.queueName = some name) :
    ∃ b', Moved name e (some b) (some b') ∧ Tracks name (some b') e.after := by
  obtain ⟨b', response, hr, hb, hconf, hd, ht⟩ := (h.answers _ ha he).result hs
  exact ⟨b', .handled b b' response he hb hconf hd hr, ht⟩

/-- A command on messages when there is no broker: an error, or a panic. -/
theorem Tracks.unheard (h : Tracks name none e.before) (hs : e.before.apply e.input = some (e.output, e.after))
    (he : e.input.command.queueName = some name) (hq : e.before.queueManager.queues.lookup name = some q) :
    (∃ r, e.output = .response r ∧ r.error ≠ none) ∧ e.after = e.before.putQueue name q e.before.queueManager.store := by
  obtain ⟨config, _, hserved⟩ := h.safe.queue name q hq
  rcases hserved with ⟨_, m, hl⟩ | ⟨_, hi⟩
  · have hnone := h.absent rfl q hq
    rw [hl.queue_eq] at hnone; cases hnone
  · have hidle := Idle.handle hi he e.before.queueManager.config
    rw [apply_handle he hq] at hs
    split at hidle
    · rw [hidle] at hs; cases hs
    · obtain ⟨r, hr, herr⟩ := hidle
      rw [hr] at hs
      have hs : some (e.before.settle name (r, q, e.before.queueManager.store)) = some (e.output, e.after) := hs
      simp only [settle, Option.some.injEq, Prod.mk.injEq] at hs
      exact ⟨⟨r, hs.1.symm, herr⟩, hs.2.symm⟩

theorem Tracks.step (h : Tracks name ob e.before) (hs : e.before.apply e.input = some (e.output, e.after))
    (ha : Admits name e.before e.input) : ∃ ob', Moved name e ob ob' ∧ Tracks name ob' e.after := by
  have hsafe := h.safe.step hs
  cases h.safe.seen hs name with
  | elsewhere hne hq hc hm =>
    refine ⟨ob, .aside ob fun he => (hne (addressed_of_queueName he)).elim, h.same hsafe hq hc fun id => ?_⟩
    rcases hm id with hm | ⟨⟨n, hcmd, hn, hscan⟩, hnone⟩
    · exact hm
    · -- the scan of another queue's prefix met nothing of this one
      cases hl : e.before.queueManager.store.messages.lookup (name, id) with
      | none => exact hnone
      | some msg =>
        have hkey : (name, id) ∈ e.before.queueManager.store.messages.keys :=
          AList.mem_keys.mp (AList.lookup_isSome.mp (by rw [hl]; rfl))
        have := ha.spares n (by rw [hcmd]; rfl) hn (name, id) hkey rfl
        rw [hscan] at this; cases this
  | refused hcase hf =>
    refine ⟨ob, .aside ob fun he => ?_, h.same hsafe (by rw [hf]) (by rw [hf]) fun id => by rw [hf]⟩
    rcases hcase with ⟨_, hr⟩ | hmsg
    · exact ⟨_, hr, nofun⟩
    · rw [hmsg] at he; cases he
  | handled q q' response store' he hq hh hr hf =>
    cases ob with
    | some b =>
      obtain ⟨b', hmoved, htracks⟩ := h.handled hs ha he
      exact ⟨some b', hmoved, htracks⟩
    | none =>
      obtain ⟨herr, hafter⟩ := h.unheard hs he hq
      refine ⟨none, .aside none fun _ => herr, hsafe, fun _ p hp => ?_, nofun⟩
      rw [hafter, lookup_putQueue] at hp; cases hp
      exact h.absent rfl q hq
  | created queueType settings settings' he hq ha hf =>
    have hob : ob = none := by
      cases ob with
      | none => rfl
      | some b => obtain ⟨p, hp, _⟩ := h.present b rfl; rw [hq] at hp; cases hp
    subst hob
    have hempty := (h.safe.missing name hq).2
    cases hm : Queue.memoryQueue queueType settings' with
    | some m =>
      refine ⟨_, .created queueType settings settings' m he ha hm, ?_⟩
      rw [hf] at hsafe ⊢
      exact tracks_put hsafe (by rw [FinMap.lookup_insert_eq, if_pos rfl]) (.created hm hempty)
    | none =>
      refine ⟨none, .aside none fun hmsg => ?_, hsafe, fun _ p hp => ?_, nofun⟩
      · rw [he] at hmsg; cases hmsg
      · rw [hf, lookup_putQueue] at hp; cases hp
        exact hm
  | updated q m config settings settings' he hq hc hm ha hf =>
    cases ob with
    | none => rw [h.absent rfl q hq] at hm; cases hm
    | some b =>
      obtain ⟨p, hp, _, href⟩ := h.present b rfl
      rw [hq] at hp; cases hp
      rw [href.config_eq] at hc; cases hc
      rw [href.queue_eq] at hm; cases hm
      refine ⟨_, .updated b settings settings' he ha, ?_⟩
      rw [hf] at hsafe ⊢
      exact tracks_put hsafe (by rw [FinMap.lookup_insert_eq, if_pos rfl]; rfl) href.update
  | deleted he hq =>
    refine ⟨none, .deleted ob he, hsafe, fun _ p hp => ?_, nofun⟩
    rw [hq] at hp; cases hp

/-- Every state a run reaches is tracked. -/
theorem Runs.tracks {cfg : Config} {leaderConfig : LeaderConfig} {events : List (Event FSM Entry Reply)}
    (h : Runs (new cfg leaderConfig) events f) (hok : ∀ e ∈ events, Admits name e.before e.input) : ∃ ob, Tracks name ob f := by
  refine h.keeps (I := fun f => ∃ ob, Tracks name ob f) (fun e he hs hI => ?_) ⟨none, tracks_new cfg leaderConfig⟩
  obtain ⟨ob, hI⟩ := hI
  obtain ⟨ob', _, h'⟩ := hI.step hs (hok e he)
  exact ⟨ob', h'⟩

end FSM

end Doq
