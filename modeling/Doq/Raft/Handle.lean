/-
  Doq.Raft.Handle — what one entry does to one queue (see `Doq.Raft.Fsm`).

  `handle` is a command on messages without the lookup: the method, and the response it is
  wrapped in. `apply_handle` and `apply_missing` say that `Apply` is the lookup followed by
  it; the lemmas after them do the same for the commands on queues, and `Live.handle` says
  what it can do to a `Live` queue: it never panics, ids stay distinct unless an id that is
  held is enqueued, and the ack queue changes in one of six ways (`AckEffect`).
-/

import Doq.Queue.Safety
import Doq.Raft.Fsm

namespace Doq

open Lib Memory Storage

/-- The queue a command on messages works on. -/
def Command.queueName : Command → Option String
  | .enqueue queueName .. => some queueName
  | .dequeue queueName _ => some queueName
  | .get queueName _ => some queueName
  | .delete queueName _ => some queueName
  | .ack queueName _ => some queueName
  | .nack queueName .. => some queueName
  | .touch queueName _ => some queueName
  | .ackTimeout queueName _ => some queueName
  | .updatePriority queueName .. => some queueName
  | _ => none

/-- The id a command enqueues. -/
def Command.enqueued : Command → Option UInt64
  | .enqueue _ id _ _ _ _ => some id
  | _ => none

-- Ids are a finite type: left to itself instance search would decide this by going through them all.
instance (command : Command) (P : UInt64 → Prop) [DecidablePred P] : Decidable (∀ id ∈ command.enqueued, P id) :=
  Option.decidableForallMem command.enqueued

def Command.enqueuedGroup : Command → Option String
  | .enqueue _ _ group _ _ _ => some group
  | _ => none

def Command.deletedQueue : Command → Option String
  | .deleteQueue name => some name
  | _ => none

/-- The message a command reports as not processed. -/
def Command.failed : Command → Option UInt64
  | .nack _ id _ _ => some id
  | .ackTimeout _ id => some id
  | _ => none

/-- The message in flight a command works on. -/
def Command.inFlight : Command → Option UInt64
  | .ack _ id => some id
  | .nack _ id _ _ => some id
  | .touch _ id => some id
  | .ackTimeout _ id => some id
  | _ => none

theorem inFlight_of_failed {command : Command} {id : UInt64} (h : command.failed = some id) : command.inFlight = some id := by
  cases command <;> first | exact h | cases h

/-- The queue, message and priority of an `UpdatePriority`. -/
def Command.repriced : Command → Option (String × UInt64 × Int)
  | .updatePriority queueName id priority => some (queueName, id, priority)
  | _ => none

namespace FSM

/-- The response to what a method returned. -/
def responseTo {α : Type} (context queueName : String) (respond : α → FSMResponse) : Except Err α → FSMResponse
  | .error e => .ofError context queueName e
  | .ok a => respond a

def wrap {α : Type} (context queueName : String) (respond : α → FSMResponse) (r : Queue.Outcome α) :
    FSMResponse × Queue × Store :=
  (responseTo context queueName respond r.1, r.2)

/-- A command on messages, applied to its queue. -/
def handle (q : Queue) (store : Store) (cfg : Config) (entry : Entry) : Go (FSMResponse × Queue × Store) :=
  match entry.command with
  | .enqueue n id group priority content metadata =>
    (q.enqueue store cfg noFaults id group priority content metadata).map (wrap "enqueue message to queue" n (.ofMessage n))
  | .dequeue n ack =>
    (q.dequeue store cfg noFaults ack entry.index entry.now).map (wrap "dequeue message from queue" n (.ofMessage n))
  | .get n id => (q.get store noFaults id).map fun r => wrap "get message from queue" n (.ofMessage n) (r, q, store)
  | .delete n id => (q.delete store noFaults id).map (wrap "delete message from queue" n fun _ => .ofId n id)
  | .ack n id => (q.ack store cfg noFaults id).map (wrap "ack message in queue" n fun _ => .ofId n id)
  | .nack n id priority metadata =>
    (q.nack store cfg noFaults id priority metadata).map
      (wrap "nack message in queue" n fun _ => { FSMResponse.ofId n id with metadata := metadata })
  | .touch n id => (q.touch store id entry.now).map (wrap "touch message in queue" n fun _ => .ofId n id)
  | .ackTimeout n id => (q.ackTimeout store cfg noFaults id).map (wrap "expire ack of message in queue" n fun _ => .ofId n id)
  | .updatePriority n id priority =>
    (q.updatePriority store noFaults id priority).map
      (wrap "update priority for message in queue" n fun _ => { FSMResponse.ofId n id with priority := priority })
  | _ => none

variable {f : FSM} {name : String} {q : Queue} {entry : Entry}

/-- The state with one queue replaced, and the response. -/
def settle (f : FSM) (name : String) (r : FSMResponse × Queue × Store) : Reply × FSM :=
  (.response r.1, f.putQueue name r.2.1 r.2.2)

theorem onQueue_found (hq : f.queueManager.queues.lookup name = some q) {α : Type} (context : String)
    (method : Queue → Store → Config → Go (Queue.Outcome α)) (answer : α → FSMResponse) :
    respond (f.onQueue name context method answer) =
      ((method q f.queueManager.store f.queueManager.config).map (wrap context name answer)).map (f.settle name) := by
  simp only [onQueue, QueueManager.getQueue, hq, respond, Option.bind_eq_bind, Option.bind_some]
  cases method q f.queueManager.store f.queueManager.config with
  | none => rfl
  | some r => obtain ⟨r, q', store'⟩ := r; cases r <;> rfl

theorem apply_handle (he : entry.command.queueName = some name) (hq : f.queueManager.queues.lookup name = some q) :
    f.apply entry = (handle q f.queueManager.store f.queueManager.config entry).map (f.settle name) := by
  unfold apply handle
  cases hc : entry.command <;> rw [hc] at he <;> cases he
  case get id =>
    refine (onQueue_found hq _ _ _).trans ?_
    simp only [Option.bind_eq_bind]
    cases q.get f.queueManager.store noFaults id <;> rfl
  all_goals exact onQueue_found hq _ _ _

theorem onQueue_missing (hq : f.queueManager.queues.lookup name = none) (hs : f.queueManager.store.queues.lookup name = none)
    {α : Type} (context : String) (method : Queue → Store → Config → Go (Queue.Outcome α)) (answer : α → FSMResponse) :
    f.onQueue name context method answer = some (.ofError "queue" name .queueNotFound, f) := by
  simp only [onQueue, QueueManager.getQueue, hq, Queue.load, Store.loadQueue, hs, noFaults, Bool.false_eq_true, if_false,
    Option.bind_eq_bind, Option.bind_some]

theorem apply_missing (he : entry.command.queueName = some name) (hq : f.queueManager.queues.lookup name = none)
    (hs : f.queueManager.store.queues.lookup name = none) :
    f.apply entry = some (.response (.ofError "queue" name .queueNotFound), f) := by
  unfold apply
  cases hc : entry.command <;> rw [hc] at he <;> cases he <;>
    simp only [applyEnqueue, applyDequeue, applyGet, applyDelete, applyAck, applyNack, applyTouch, applyAckTimeout,
      applyUpdatePriority, onQueue_missing hq hs, respond, Option.bind_eq_bind, Option.bind_some]

/-! ## The commands on queues -/

section Queues

variable {settings : QueueSettings} {queueType : String} {config : QueueConfig}

theorem applyCreateQueue_found (hq : f.queueManager.queues.lookup name = some q) (queueType : String) (settings : QueueSettings) :
    f.applyCreateQueue name queueType settings = (.ofQueue name, f) := by
  simp only [applyCreateQueue, QueueManager.createQueue, hq, queueResponse]

theorem applyCreateQueue_new (hq : f.queueManager.queues.lookup name = none) (queueType : String) (settings : QueueSettings) :
    f.applyCreateQueue name queueType settings =
      match Queue.newSettings f.queueManager.config queueType settings with
      | .error e => (.ofError "create queue" name e, f)
      | .ok settings' => (.ofQueue name, f.putQueue name (Queue.created name queueType settings')
        { f.queueManager.store with queues := f.queueManager.store.queues.insert name ⟨name, queueType, settings'⟩ }) := by
  have hc := Queue.createQueue_eq f.queueManager.store f.queueManager.config queueType name settings
  cases hs : Queue.newSettings f.queueManager.config queueType settings with
  | error e =>
    rw [hs] at hc
    obtain ⟨q, hc⟩ := hc
    simp only [applyCreateQueue, QueueManager.createQueue, hq, hc, queueResponse]
  | ok settings' =>
    rw [hs] at hc
    simp only at hc
    simp only [applyCreateQueue, QueueManager.createQueue, hq, hc, queueResponse]
    rfl

theorem queueOrNew_missing (hq : f.queueManager.queues.lookup name = none) (hs : f.queueManager.store.queues.lookup name = none) :
    f.queueManager.queueOrNew name = some Queue.new := by
  simp only [QueueManager.queueOrNew, hq, Queue.load, Store.loadQueue, hs, noFaults, Bool.false_eq_true, if_false,
    Option.bind_eq_bind, Option.bind_some]

theorem queueOrNew_found (hq : f.queueManager.queues.lookup name = some q) : f.queueManager.queueOrNew name = some q := by
  simp only [QueueManager.queueOrNew, hq]

theorem applyUpdateQueue_missing (hq : f.queueManager.queues.lookup name = none)
    (hs : f.queueManager.store.queues.lookup name = none) (settings : QueueSettings) :
    f.applyUpdateQueue name settings = none := by
  simp only [applyUpdateQueue, QueueManager.updateQueue, queueOrNew_missing hq hs, Queue.updateQueue, Queue.new,
    Option.bind_eq_bind,
    Option.bind_some, Option.bind_none]

theorem applyUpdateQueue_found (hq : f.queueManager.queues.lookup name = some q) (hc : q.config = some config)
    (hn : config.name = name) (settings : QueueSettings) :
    f.applyUpdateQueue name settings =
      match Queue.changedSettings f.queueManager.config config settings with
      | .error e => some (.ofError "update queue" name e, f)
      | .ok settings' => q.queue.map fun m => (.ofQueue name, f.putQueue name
        { q with
          config := some { config with settings := settings' }
          queue := some (m.updateMaxUnacked settings'.maxUnacked.toNat) }
        { f.queueManager.store with
          queues := f.queueManager.store.queues.insert name { config with settings := settings' } }) := by
  subst hn
  have hu := Queue.updateQueue_eq hc f.queueManager.store f.queueManager.config settings
  cases hs : Queue.changedSettings f.queueManager.config config settings with
  | error e =>
    rw [hs] at hu
    simp only [applyUpdateQueue, QueueManager.updateQueue, queueOrNew_found hq, hu, Option.bind_eq_bind,
      Option.bind_some, queueResponse]
  | ok settings' =>
    rw [hs] at hu
    simp only [applyUpdateQueue, QueueManager.updateQueue, queueOrNew_found hq, hu, Option.bind_eq_bind, Option.bind_some]
    cases q.queue <;> rfl

/-- What `DeleteQueue` leaves. -/
def withoutQueue (f : FSM) (name : String) : FSM :=
  { f with queueManager := { f.queueManager with
    queues := f.queueManager.queues.erase name
    store := { queues := f.queueManager.store.queues.erase name
               messages := f.queueManager.store.messages.filter fun key _ => !scanned name key } } }

theorem applyDeleteQueue_missing (hq : f.queueManager.queues.lookup name = none)
    (hs : f.queueManager.store.queues.lookup name = none) :
    f.applyDeleteQueue name = some (.ofError "delete queue" name .queueNotFound, f) := by
  simp only [applyDeleteQueue, QueueManager.deleteQueue, queueOrNew_missing hq hs, Queue.deleteQueue, Queue.new, queueResponse,
    Option.bind_eq_bind, Option.bind_some]

theorem applyDeleteQueue_found (hq : f.queueManager.queues.lookup name = some q) (hc : q.config = some config)
    (hn : config.name = name) (hr : q.ackQueueMonitoring = true) :
    f.applyDeleteQueue name =
      if f.queueManager.config.prometheusEnabled = true ∧ q.queue = none then none
        else some (.ofQueue name, f.withoutQueue name) := by
  simp only [applyDeleteQueue, QueueManager.deleteQueue, queueOrNew_found hq, Queue.deleteQueue, hc, hn,
    Store.deleteQueue, noFaults,
    Bool.false_eq_true, if_false, Queue.stop, hr, if_true, Queue.updatePrometheusQueueSizes, Queue.notify, Option.bind_eq_bind,
    Option.bind_some]
  cases f.queueManager.config.prometheusEnabled <;> cases q.queue <;> rfl

end Queues

/-! ## What it does to a live queue -/

/-- The message whose ack deadline an entry sets, and the deadline: the entry's append time
    and the ack timeout in force. -/
def deadlineSet (config : QueueConfig) (entry : Entry) (response : FSMResponse) : Option (UInt64 × Int) :=
  if response.error = none then
    match entry.command with
    | .dequeue _ _ => some (response.id, Queue.ackDeadline config entry.now)
    | .touch _ id => some (id, Queue.ackDeadline config entry.now)
    | _ => none
  else none

/-- How an entry changes the ack queue of its queue. -/
inductive AckEffect (config : QueueConfig) (entry : Entry) (response : FSMResponse) (aq aq' : DelayedQueue) : Prop
  | same (hset : deadlineSet config entry response = none) (h : aq' = aq)
  | less (id : UInt64) (hset : deadlineSet config entry response = none) (h : DelayedQueue.Less aq id aq')
  /-- Delivered and acked at once. -/
  | taken (id : UInt64) (d : Int) (hset : deadlineSet config entry response = some (id, d)) (hout : id ∉ aq.queue.ids)
    (h : aq' = aq)
  | delivered (x : Item) (hset : deadlineSet config entry response = some (x.id, x.priority)) (hout : x.id ∉ aq.queue.ids)
      (h : aq.queue.Grown x aq'.queue)
  | touched (it : Item) (d : Int) (hset : deadlineSet config entry response = some (it.id, d)) (hf : aq.queue.Found it.id it)
      (h : aq.queue.Replaced it d aq'.queue) (hh : aq.queue.Heaped → aq'.queue.Heaped)
  /-- `UpdatePriority` of a message in flight: its deadline is overwritten in place. -/
  | overwritten (n : String) (it : Item) (priority : Int) (hc : entry.command = .updatePriority n it.id priority)
      (hset : deadlineSet config entry response = none) (hf : aq.queue.Found it.id it)
      (h : aq' = aq.itemUpdatePriority it.id priority)

/-- The entry enqueues nothing that is held. -/
def EnqueuesFresh (m : MemoryQueue) (aq : DelayedQueue) (entry : Entry) : Prop :=
  ∀ id ∈ entry.command.enqueued, id ∉ Queue.heldIds m aq

/-- A queue before and after an entry that names it. -/
structure Handled (name : String) (config : QueueConfig) (entry : Entry) (m : MemoryQueue) (q : Queue) (store : Store)
    (m' : MemoryQueue) (response : FSMResponse) (q' : Queue) (store' : Store) : Prop where
  live : Queue.Live name config m' q' store'
  frame : StoreFrame name store store'
  kind : m'.kind = m.kind
  held : ∀ id ∈ Queue.heldIds m' q'.ackQueue, id ∈ Queue.heldIds m q.ackQueue ∨ id ∈ entry.command.enqueued
  distinct : Queue.Distinct m q.ackQueue → EnqueuesFresh m q.ackQueue entry → Queue.Distinct m' q'.ackQueue
  ack : Queue.Distinct m q.ackQueue → AckEffect config entry response q.ackQueue q'.ackQueue

section Live

variable {config : QueueConfig} {m m' : MemoryQueue} {q' : Queue} {store store' : Store} {cfg : Config} {response : FSMResponse}

theorem Handled.of_kept (h : Queue.Kept name config m q store m' q' store')
    (ha : Queue.Distinct m q.ackQueue → AckEffect config entry response q.ackQueue q'.ackQueue) :
    Handled name config entry m q store m' response q' store' :=
  ⟨h.live, h.frame, h.kind, fun _ hid => Or.inl (Multiset.mem_of_le h.held hid), fun hd _ => h.distinct hd, ha⟩

theorem wrap_ok {α : Type} {context : String} {answer : α → FSMResponse} {r : Queue.Outcome α} {a : α} (h : r.1 = .ok a) :
    (wrap context name answer r).1 = answer a := by
  unfold wrap; rw [h]; rfl

theorem wrap_error {α : Type} {context : String} {answer : α → FSMResponse} {r : Queue.Outcome α} {e : Err} (h : r.1 = .error e) :
    (wrap context name answer r).1 = .ofError context name e := by
  unfold wrap; rw [h]; rfl

theorem deadlineSet_error (config : QueueConfig) (entry : Entry) (context : String) (e : Err) :
    deadlineSet config entry (.ofError context name e) = none := by
  simp [deadlineSet, FSMResponse.ofError]

/-- The commands that neither deliver nor touch. -/
theorem deadlineSet_other (config : QueueConfig) (response : FSMResponse) (hd : ∀ n a, entry.command ≠ .dequeue n a)
    (ht : ∀ n id, entry.command ≠ .touch n id) : deadlineSet config entry response = none := by
  unfold deadlineSet
  split
  · split
    · rename_i n a hc; exact absurd hc (hd n a)
    · rename_i n id hc; exact absurd hc (ht n id)
    · rfl
  · rfl

/-- The methods that only take messages out of the ack queue. -/
theorem less_handled {α : Type} {context : String} {answer : α → FSMResponse} {x : Go (Queue.Outcome α)} {id : UInt64}
    (hd : ∀ n a, entry.command ≠ .dequeue n a) (ht : ∀ n id, entry.command ≠ .touch n id)
    (hx : Returns x fun r => ∃ m', Queue.Kept name config m q store m' r.2.1 r.2.2 ∧
      DelayedQueue.Less q.ackQueue id r.2.1.ackQueue) :
    Returns (x.map (wrap context name answer)) fun r => ∃ m', Handled name config entry m q store m' r.1 r.2.1 r.2.2 := by
  refine hx.map fun r hr => ?_
  obtain ⟨m', hk, hl⟩ := hr
  exact ⟨m', .of_kept hk fun _ => .less id (deadlineSet_other _ _ hd ht) hl⟩

theorem dequeue_handled (h : Queue.Live name config m q store) {ack : Bool} (hc : entry.command = .dequeue name ack) :
    Returns ((q.dequeue store cfg noFaults ack entry.index entry.now).map
        (wrap "dequeue message from queue" name (.ofMessage name)))
      fun r => ∃ m', Handled name config entry m q store m' r.1 r.2.1 r.2.2 := by
  refine (h.dequeue ack entry.index entry.now).map fun r hr => ?_
  obtain ⟨m', hk, hr⟩ := hr
  refine ⟨m', .of_kept hk fun hd => ?_⟩
  cases hres : r.1 with
  | error e =>
    rw [hres] at hr
    rw [wrap_error hres]
    exact .same (deadlineSet_error _ _ _ _) hr
  | ok msg =>
    rw [hres] at hr
    rw [wrap_ok hres]
    have hset : deadlineSet config entry (.ofMessage name msg) = some (msg.id, Queue.ackDeadline config entry.now) := by
      simp [deadlineSet, hc, FSMResponse.ofMessage]
    cases ack with
    | true =>
      obtain ⟨haq, hn⟩ := hr
      refine .taken msg.id _ hset (fun hin => ?_) haq
      exact hn hd (Multiset.mem_add.mpr (Or.inr hin))
    | false =>
      obtain ⟨x, hid, hp, hg⟩ := hr
      refine .delivered x (by rw [hset, hid, hp]) (fun hin => ?_) hg
      have hids := (hk.distinct hd).exact.nodup
      unfold PriorityMemoryQueue.ids at hids
      rw [hg.held, Multiset.map_cons] at hids
      exact (Multiset.nodup_cons.mp hids).1 hin

theorem touch_handled (h : Queue.Live name config m q store) {id : UInt64} (hc : entry.command = .touch name id) :
    Returns ((q.touch store id entry.now).map (wrap "touch message in queue" name fun _ => .ofId name id))
      fun r => ∃ m', Handled name config entry m q store m' r.1 r.2.1 r.2.2 := by
  refine (h.touch id entry.now).map fun r hr => ?_
  obtain ⟨hk, _, hr⟩ := hr
  refine ⟨m, .of_kept hk fun _ => ?_⟩
  rcases hr with ⟨rfl, _⟩ | ⟨hok, it, hf, hrep, hh⟩
  · exact .same (deadlineSet_error _ _ _ _) rfl
  · have hid : it.id = id := hf.id_eq h.ack
    have hset : deadlineSet config entry (.ofId name id) = some (it.id, Queue.ackDeadline config entry.now) := by
      simp [deadlineSet, hc, FSMResponse.ofId, FSMResponse.ofQueue, hid]
    rw [wrap_ok hok]
    exact .touched it _ hset (hid.symm ▸ hf) hrep hh

theorem updatePriority_handled (h : Queue.Live name config m q store) {id : UInt64} {priority : Int}
    (hc : entry.command = .updatePriority name id priority) :
    Returns ((q.updatePriority store noFaults id priority).map (wrap "update priority for message in queue" name
        fun _ => { FSMResponse.ofId name id with priority := priority }))
      fun r => ∃ m', Handled name config entry m q store m' r.1 r.2.1 r.2.2 := by
  refine (h.updatePriority id priority).map fun r hr => ?_
  obtain ⟨m', hk, hr⟩ := hr
  refine ⟨m', .of_kept hk fun _ => ?_⟩
  have hset : ∀ resp, deadlineSet config entry resp = none := fun resp => deadlineSet_other _ _ (by simp [hc]) (by simp [hc])
  rcases hr with hsame | ⟨⟨it, hf⟩, hover⟩
  · exact .same (hset _) hsame
  · have hid : it.id = id := hf.id_eq h.ack
    subst hid
    exact .overwritten name it priority hc (hset _) hf hover

theorem Live.handle (h : Queue.Live name config m q store) (he : entry.command.queueName = some name) :
    Returns (handle q store cfg entry) fun r => ∃ m', Handled name config entry m q store m' r.1 r.2.1 r.2.2 := by
  unfold FSM.handle
  cases hc : entry.command <;> rw [hc] at he <;> cases he
  case enqueue id group priority content metadata =>
    refine (h.enqueue group priority content metadata).map fun r hr => ?_
    obtain ⟨m', _, hs, hl, haq, hk, hr⟩ := hr
    refine ⟨m', hl, ?_, hk, fun id' hid' => ?_, fun hd hf => ?_,
      fun _ => .same (deadlineSet_other _ _ (by simp [hc]) (by simp [hc])) haq⟩
    · show StoreFrame name store r.2.2
      rw [hs]; exact .insert _ _ _ _
    · have hid' : id' ∈ Queue.heldIds m' r.2.1.ackQueue := hid'
      rw [haq] at hid'
      rcases hr with ⟨it, _, rfl⟩ | ⟨_, it, hid, hready⟩
      · exact Or.inl hid'
      · rw [Queue.heldIds_push hready, Multiset.mem_cons, hid] at hid'
        rcases hid' with rfl | hid'
        · exact Or.inr (by rw [hc]; rfl)
        · exact Or.inl hid'
    · show Queue.Distinct m' r.2.1.ackQueue
      rw [haq]
      rcases hr with ⟨it, _, rfl⟩ | ⟨_, it, hid, hready⟩
      · exact hd
      · exact hd.push hready (by rw [hid]; exact hf id (by rw [hc]; rfl))
  case dequeue ack => exact dequeue_handled h hc
  case get id =>
    refine Returns.map (P := fun _ => True) ?_ fun r _ => ?_
    · refine .of_eq (a := store.get noFaults config.name id) ?_ trivial
      simp only [Queue.get, h.config_eq, Option.bind_eq_bind, Option.bind_some]
    · exact ⟨m, .of_kept h.kept fun _ => .same (deadlineSet_other _ _ (by simp [hc]) (by simp [hc])) rfl⟩
  case delete id => exact less_handled (by simp [hc]) (by simp [hc]) (h.delete id)
  case ack id => exact less_handled (by simp [hc]) (by simp [hc]) (h.acked id)
  case nack id priority metadata => exact less_handled (by simp [hc]) (by simp [hc]) (h.nack id priority metadata)
  case touch id => exact touch_handled h hc
  case ackTimeout id => exact less_handled (by simp [hc]) (by simp [hc]) (h.ackTimeout id)
  case updatePriority id priority => exact updatePriority_handled h hc

end Live

end FSM

end Doq
