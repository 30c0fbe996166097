/-
  Doq.Queue.Queue — one queue: its configuration, its memory queue, its ack queue, and the
  operations on them and on the store (`pkg/queue/queue.go`).

  A method takes the queue, the store and the store calls that fail, and returns an error
  or a result with the queue and the store after it. `config` and `queue` are the struct's
  nilable fields: reading a method through a nil one is a panic. `notifyCh` counts the
  channels closed so far. Ack deadlines and `now` are Unix seconds, and an ack deadline is
  the priority of its item in the ack queue.

  The ack queue is made with `NewDelayedQueue(false)`: its head is the latest deadline.
-/

import Doq.Memory.MemoryQueue
import Doq.Storage.Store

namespace Doq

open Lib Memory Storage

structure Queue where
  config : Option QueueConfig
  queue : Option MemoryQueue
  ackQueue : DelayedQueue
  /-- Whether the ack monitor's channel is open. -/
  ackQueueMonitoring : Bool
  notifyCh : Nat

namespace Queue

/-- What a method returns: an error or a result, the queue and the store. -/
abbrev Outcome (α : Type) := Except Err α × Queue × Store

def new : Queue := ⟨none, none, .new false, false, 0⟩

/-- The memory queue of a type and its settings; an unknown type has none. -/
def memoryQueue (queueType : String) (settings : QueueSettings) : Option MemoryQueue :=
  if toUpper queueType = "FAIR" then
    match settings.strategy with
    | .weighted => some (.fairWeighted (.new settings.maxUnacked.toNat))
    | _ => some (.fairRoundRobin (.new settings.maxUnacked.toNat))
  else if toUpper queueType = "DELAYED" then some (.delayed (.new true))
  else none

def init (q : Queue) (queueType queueName : String) (settings : QueueSettings) : Queue :=
  { q with
    config := some ⟨queueName, queueType, settings⟩
    queue := memoryQueue queueType settings
    ackQueueMonitoring := true }

structure QueueInfo where
  name : String
  type : String
  settings : QueueSettings
  ready : Int
  unacked : Int
  total : Int
  deriving DecidableEq, Repr

def getStats (q : Queue) : Go QueueInfo := do
  let config ← q.config
  let queue ← q.queue
  some ⟨config.name, config.type, config.settings, queue.len, q.ackQueue.len, queue.len + q.ackQueue.len⟩

/-- The gauges read the length of the memory queue. -/
def updatePrometheusQueueSizes (q : Queue) (cfg : Config) : Go Unit :=
  if cfg.prometheusEnabled then do
    let _ ← q.queue
    let _ ← q.config
    some ()
  else some ()

def notify (q : Queue) : Queue := { q with notifyCh := q.notifyCh + 1 }

/-- Closing the monitor's channel panics unless it is open. -/
def stop (q : Queue) : Go Queue :=
  if q.ackQueueMonitoring then some { q.notify with ackQueueMonitoring := false } else none

/-- The ack timeout to use, or an error for one below ten seconds. -/
def checkedAckTimeout (cfg : Config) (ackTimeout : UInt32) : Except Err UInt32 :=
  if ackTimeout = 0 then .ok cfg.defaultAckTimeout
  else if ackTimeout < 10 then .error .invalidAckTimeout
  else .ok ackTimeout

/-- The settings a type does not allow. -/
def checkType (queueType : String) (settings : QueueSettings) : Except Err Unit :=
  if queueType = "delayed" then
    if settings.strategy = .weighted ∨ settings.strategy = .roundRobin then .error .invalidStrategy
    else if settings.maxUnacked ≠ 0 then .error .invalidMaxUnacked
    else .ok ()
  else if queueType = "fair" then
    if settings.strategy = .unspecified then .error .invalidStrategy else .ok ()
  else .ok ()

def createQueue (q : Queue) (store : Store) (cfg : Config) (faults : Faults) (queueType queueName : String)
    (settings : QueueSettings) : Outcome Unit :=
  match checkType queueType settings with
  | .error e => (.error e, q, store)
  | .ok () =>
    match checkedAckTimeout cfg settings.ackTimeout with
    | .error e => (.error e, q, store)
    | .ok ackTimeout =>
      let settings := { settings with ackTimeout := ackTimeout }
      let q := { q with config := some ⟨queueName, queueType, settings⟩ }
      match store.createQueue faults queueType queueName settings with
      | .error e => (.error e, q, store)
      | .ok store => (.ok (), q.init queueType queueName settings, store)

def updateQueue (q : Queue) (store : Store) (cfg : Config) (faults : Faults) (settings : QueueSettings) : Go (Outcome Unit) := do
  let config ← q.config
  if config.settings.strategy ≠ settings.strategy then some (.error .invalidQueueSettings, q, store)
  else
    match checkedAckTimeout cfg settings.ackTimeout with
    | .error e => some (.error e, q, store)
    | .ok ackTimeout =>
      let settings := { settings with ackTimeout := ackTimeout }
      let q := { q with config := some { config with settings := settings } }
      match store.updateQueue faults config.type config.name settings with
      | .error e => some (.error e, q, store)
      | .ok store => do
        let queue ← q.queue
        some (.ok (), { q with queue := some (queue.updateMaxUnacked settings.maxUnacked.toNat) }, store)

def deleteQueue (q : Queue) (store : Store) (cfg : Config) (faults : Faults) : Go (Outcome Unit) :=
  match q.config with
  | none => some (.error .queueNotFound, q, store)
  | some config =>
    match store.deleteQueue faults config.name with
    | .error e => some (.error e, q, store)
    | .ok store => do
      let q ← q.stop
      q.updatePrometheusQueueSizes cfg
      some (.ok (), q, store)

def load (q : Queue) (store : Store) (cfg : Config) (faults : Faults) (queueName : String) : Go (Except Err Unit × Queue) :=
  match store.loadQueue faults queueName with
  | .error e => some (.error e, q)
  | .ok qc => do
    let q := q.init qc.type qc.name qc.settings
    q.updatePrometheusQueueSizes cfg
    some (.ok (), q)

/-- Queues that are not fair have one group. -/
def groupFor (config : QueueConfig) (group : String) : String := if config.type ≠ "fair" then "default" else group

def enqueue (q : Queue) (store : Store) (cfg : Config) (faults : Faults) (id : UInt64) (group : String) (priority : Int)
    (content : String) (metadata : Option Metadata) : Go (Outcome Message) := do
  let config ← q.config
  let group := groupFor config group
  match store.enqueue faults config.name id group priority content metadata with
  | .error e => some (.error e, q, store)
  | .ok (msg, store) => do
    let queue ← q.queue
    let item ← queue.get group id
    match item with
    | some _ => some (.ok msg, q, store)
    | none => do
      let queue ← queue.enqueue msg.group ⟨id, priority, group⟩
      let q := { q with queue := some queue }.notify
      q.updatePrometheusQueueSizes cfg
      some (.ok msg, q, store)

/-- The ack deadline of a delivery or a touch at `now`. -/
def ackDeadline (config : QueueConfig) (now : Int) : Int := now + config.settings.ackTimeout.toNat

def dequeue (q : Queue) (store : Store) (cfg : Config) (faults : Faults) (ack : Bool) (seed : UInt64) (now : Int) :
    Go (Outcome Message) := do
  let queue ← q.queue
  if queue.len = 0 then some (.error .emptyQueue, q, store)
  else do
    let (item, queue) ← queue.dequeue ack seed now
    let q := { q with queue := some queue }
    match item with
    | none => some (.error .emptyQueue, q, store)
    | some item => do
      let config ← q.config
      match store.dequeue faults config.name item.id ack with
      | .error e => some (.error e, q, store)
      | .ok (msg, store) => do
        let q := if ack then q
          else { q with ackQueue := q.ackQueue.enqueue ⟨item.id, ackDeadline config now, msg.group⟩ }
        q.updatePrometheusQueueSizes cfg
        some (.ok msg, q, store)

def get (q : Queue) (store : Store) (faults : Faults) (id : UInt64) : Go (Except Err Message) := do
  let config ← q.config
  some (store.get faults config.name id)

/-- The slot a message that leaves the ack queue held, for fair queues. -/
def releaseSlot (q : Queue) (config : QueueConfig) (group : String) : Go Queue :=
  if config.type = "fair" then do
    let queue ← q.queue
    let queue ← queue.updateWeights group
    some { q with queue := some queue }
  else some q

/-- `q.ackQueue.Delete(id)`, and the release if that removed something. -/
def dropUnacked (q : Queue) (config : QueueConfig) (group : String) (id : UInt64) : Go Queue := do
  let (removed, ackQueue) ← q.ackQueue.delete id
  let q := { q with ackQueue := ackQueue }
  match removed with
  | none => some q
  | some _ => q.releaseSlot config group

def delete (q : Queue) (store : Store) (faults : Faults) (id : UInt64) : Go (Outcome Unit) := do
  let config ← q.config
  match store.delete faults config.name id with
  | .error e => some (.error e, q, store)
  | .ok (msg, store) => do
    let queue ← q.queue
    let (_, queue) ← queue.delete msg.group id
    let q ← { q with queue := some queue }.dropUnacked config msg.group id
    some (.ok (), q, store)

/-- Where `UpdatePriority` finds the message's item. -/
inductive Place where
  | ready
  | unacked
  deriving DecidableEq, Repr

def locate (q : Queue) (queue : MemoryQueue) (group : String) (id : UInt64) : Go (Option Place) := do
  let queueItem ← queue.get group id
  match queueItem with
  | some _ => some (some .ready)
  | none => do
    let queueItem ← q.ackQueue.get id
    some (queueItem.map fun _ => .unacked)

/-- `queueItem.UpdatePriority(priority)`: the item is written where it lies. The ack queue's
    heap is not told. -/
def writePriority (q : Queue) (queue : MemoryQueue) (group : String) (id : UInt64) (priority : Int) : Place → Go Queue
  | .ready => do
    let queue ← queue.itemUpdatePriority group id priority
    some { q with queue := some queue }
  | .unacked => some { q with ackQueue := q.ackQueue.itemUpdatePriority id priority }

def updatePriority (q : Queue) (store : Store) (faults : Faults) (id : UInt64) (newPriority : Int) : Go (Outcome Unit) := do
  let config ← q.config
  match store.get faults config.name id with
  | .error e => some (.error e, q, store)
  | .ok msg => do
    let queue ← q.queue
    let place ← q.locate queue msg.group id
    match place with
    | none => some (.error .messageNotFound, q, store)
    | some place =>
      match store.updatePriority faults config.name id newPriority with
      | .error e => some (.error e, q, store)
      | .ok (_, store) => do
        let q ← q.writePriority queue msg.group id newPriority place
        -- update in-memory heap
        let queue ← q.queue
        let queue ← queue.updatePriority msg.group id newPriority
        some (.ok (), { q with queue := some queue }, store)

def touch (q : Queue) (store : Store) (id : UInt64) (now : Int) : Go (Outcome Unit) := do
  let queueItem ← q.ackQueue.get id
  match queueItem with
  | none => some (.error .messageNotFound, q, store)
  | some _ => do
    let config ← q.config
    let ackQueue ← q.ackQueue.updatePriority id (ackDeadline config now)
    some (.ok (), { q with ackQueue := ackQueue }, store)

/-- `Ack` of a fair queue releases the slot of the stored message's group first. -/
def releaseAcked (q : Queue) (store : Store) (faults : Faults) (config : QueueConfig) (id : UInt64) : Go (Except Err Queue) :=
  if config.type = "fair" then
    match store.get faults config.name id with
    | .error e => some (.error e)
    | .ok msg => do
      let q ← q.releaseSlot config msg.group
      some (.ok q)
  else some (.ok q)

def ack (q : Queue) (store : Store) (cfg : Config) (faults : Faults) (id : UInt64) : Go (Outcome Unit) := do
  let queueItem ← q.ackQueue.get id
  match queueItem with
  | none => some (.error .messageNotFound, q, store)
  | some _ => do
    let config ← q.config
    let released ← q.releaseAcked store faults config id
    match released with
    | .error e => some (.error e, q, store)
    | .ok q =>
      match store.ack faults config.name id with
      | .error e => some (.error e, q, store)
      | .ok store => do
        let (_, ackQueue) ← q.ackQueue.delete id
        let q := { q with ackQueue := ackQueue }
        q.updatePrometheusQueueSizes cfg
        some (.ok (), q, store)

/-- A failed delivery: back to the ready messages, or removed for good once the delivery
    limit is reached. The result says whether it was removed. -/
def redeliverOrDrop (q : Queue) (store : Store) (faults : Faults) (config : QueueConfig) (message : Message) (newPriority : Int) :
    Go (Outcome Bool) :=
  if config.settings.deliveryLimit > 0 ∧ message.deliveryCount ≥ config.settings.deliveryLimit then do
    let (r, q, store) ← q.delete store faults message.id
    match r with
    | .error e => some (.error e, q, store)
    | .ok () => some (.ok true, q, store)
  else do
    let (_, ackQueue) ← q.ackQueue.delete message.id
    let priority := if newPriority ≠ 0 then newPriority else message.priority
    let queue ← q.queue
    let queue ← queue.enqueue message.group ⟨message.id, priority, message.group⟩
    let q ← { q with ackQueue := ackQueue, queue := some queue }.releaseSlot config message.group
    some (.ok false, q.notify, store)

/-- The caller's priority and metadata are kept only for a message that survived. -/
def keepNacked (store : Store) (faults : Faults) (config : QueueConfig) (message : Message) (dropped : Bool) (priority : Int)
    (metadata : Option Metadata) : Except Err Store :=
  if dropped = false ∧ (metadata.isSome ∨ (priority ≠ 0 ∧ priority ≠ message.priority)) then
    store.updateMessage faults config.name message.id priority "" metadata
  else .ok store

def nack (q : Queue) (store : Store) (cfg : Config) (faults : Faults) (id : UInt64) (priority : Int)
    (metadata : Option Metadata) : Go (Outcome Unit) := do
  let item ← q.ackQueue.get id
  match item with
  | none => some (.error .messageNotFound, q, store)
  | some item => do
    let config ← q.config
    match store.get faults config.name item.id with
    | .error e => some (.error e, q, store)
    | .ok message => do
      let (r, q, store) ← q.redeliverOrDrop store faults config message priority
      match r with
      | .error e => some (.error e, q, store)
      | .ok dropped =>
        match keepNacked store faults config message dropped priority metadata with
        | .error e => some (.error e, q, store)
        | .ok store => do
          q.updatePrometheusQueueSizes cfg
          some (.ok (), q, store)

def ackTimeout (q : Queue) (store : Store) (cfg : Config) (faults : Faults) (id : UInt64) : Go (Outcome Unit) := do
  let item ← q.ackQueue.get id
  match item with
  | none => some (.error .messageNotFound, q, store)
  | some item => do
    let config ← q.config
    match store.get faults config.name id with
    | .error e => do
      -- gone from the store: the stale entry and its slot go too
      let q ← q.dropUnacked config item.group id
      some (.error e, q, store)
    | .ok message => do
      let (r, q, store) ← q.redeliverOrDrop store faults config message 0
      match r with
      | .error e => some (.error e, q, store)
      | .ok _ => do
        q.updatePrometheusQueueSizes cfg
        some (.ok (), q, store)

/-- The ack monitor's sweep at one reading of the clock: the head of the ack queue goes to the
    handler while it is due. Out of fuel, it has not returned. -/
def expireAcks (handler : String → UInt64 → Queue → Store → Go (Outcome Unit)) (clock : Int) :
    Nat → Queue → Store → Go (Queue × Store)
  | 0, _, _ => none
  | fuel + 1, q, store =>
    match q.ackQueue.peekReadyItem clock with
    | none => some (q, store)
    | some item => do
      let config ← q.config
      let (r, q, store) ← handler config.name item.id q store
      match r with
      | .error _ => some (q, store)
      | .ok () =>
        match q.ackQueue.peekReadyItem clock with
        -- applied but still at the head: wait for the next tick
        | some next => if next.id = item.id then some (q, store) else expireAcks handler clock fuel q store
        | none => expireAcks handler clock fuel q store

def peekReady (q : Queue) (clock : Int) : Go (Bool × Int) := do
  let queue ← q.queue
  some (queue.peekReady clock)

end Queue

end Doq
