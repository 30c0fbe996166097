/-
  Doq.Queue.Broker — what a queue is for: an abstract model of `Doq.Queue.Queue`.

  The code keeps a message in three places: the store, the memory queue while it is ready,
  and the ack queue while it is in flight. A broker keeps one record per message, with its
  status, and next to the records only the memory queue, which decides which ready message
  a dequeue returns. `Doq.Queue.Refine` proves that the code does what the broker does.
-/

import Doq.Queue.Queue
import Mathlib.Logic.Function.Basic

namespace Doq

open Lib Memory

inductive Status where
  | ready
  | inFlight (deadline : Int)
  deriving DecidableEq, Repr

structure Record where
  message : Message
  status : Status
  deriving DecidableEq, Repr

namespace Record

/-- The item of a ready message in the memory queue. -/
def readyItem : Record → Option Item
  | ⟨msg, .ready⟩ => some ⟨msg.id, msg.priority, msg.group⟩
  | ⟨_, .inFlight _⟩ => none

/-- The item of a message in flight in the ack queue. -/
def ackItem : Record → Option Item
  | ⟨_, .ready⟩ => none
  | ⟨msg, .inFlight deadline⟩ => some ⟨msg.id, deadline, msg.group⟩

end Record

structure Broker where
  config : QueueConfig
  records : UInt64 → Option Record
  memory : MemoryQueue

namespace Broker

variable (b : Broker)

/-- What a method returns. -/
abbrev Outcome (α : Type) := Except Err α × Broker

def put (id : UInt64) (record : Option Record) (memory : MemoryQueue) : Broker :=
  { b with records := Function.update b.records id record, memory := memory }

/-- The memory queue once a message in flight has left its slot. -/
def release (memory : MemoryQueue) (group : String) : Go MemoryQueue :=
  if b.config.type = "fair" then memory.updateWeights group else some memory

def enqueue (id : UInt64) (group : String) (priority : Int) (content : String) (metadata : Option Metadata) :
    Go (Outcome Message) := do
  let msg : Message := ⟨Queue.groupFor b.config group, id, priority, content, metadata, 0⟩
  let memory ← b.memory.enqueue msg.group ⟨id, priority, msg.group⟩
  some (.ok msg, b.put id (some ⟨msg, .ready⟩) memory)

/-- A delivery: one more on the counter, and in flight unless it is acked at once. -/
def dequeue (ack : Bool) (seed : UInt64) (now : Int) : Go (Outcome Message) :=
  if b.memory.len = 0 then some (.error .emptyQueue, b)
  else do
    let (item, memory) ← b.memory.dequeue ack seed now
    match item with
    | none => some (.error .emptyQueue, { b with memory := memory })
    | some item => do
      let record ← b.records item.id
      let msg := { record.message with deliveryCount := record.message.deliveryCount + 1 }
      let after := if ack then none else some ⟨msg, .inFlight (Queue.ackDeadline b.config now)⟩
      some (.ok msg, b.put item.id after memory)

def get (id : UInt64) : Go (Outcome Message) :=
  match b.records id with
  | none => some (.error .messageNotFound, b)
  | some record => some (.ok record.message, b)

def delete (id : UInt64) : Go (Outcome Unit) :=
  match b.records id with
  | none => some (.error .messageNotFound, b)
  | some ⟨msg, .ready⟩ => do
    let (_, memory) ← b.memory.delete msg.group id
    some (.ok (), b.put id none memory)
  | some ⟨msg, .inFlight _⟩ => do
    let memory ← b.release b.memory msg.group
    some (.ok (), b.put id none memory)

/-- The priority of the message; of one in flight also the deadline. -/
def updatePriority (id : UInt64) (priority : Int) : Go (Outcome Unit) :=
  match b.records id with
  | none => some (.error .messageNotFound, b)
  | some ⟨msg, status⟩ => do
    let memory ← b.memory.updatePriority msg.group id priority
    let status := match status with
      | .ready => .ready
      | .inFlight _ => .inFlight priority
    some (.ok (), b.put id (some ⟨{ msg with priority := priority }, status⟩) memory)

def touch (id : UInt64) (now : Int) : Go (Outcome Unit) :=
  match b.records id with
  | some ⟨msg, .inFlight _⟩ => some (.ok (), b.put id (some ⟨msg, .inFlight (Queue.ackDeadline b.config now)⟩) b.memory)
  | _ => some (.error .messageNotFound, b)

def ack (id : UInt64) : Go (Outcome Unit) :=
  match b.records id with
  | some ⟨msg, .inFlight _⟩ => do
    let memory ← b.release b.memory msg.group
    some (.ok (), b.put id none memory)
  | _ => some (.error .messageNotFound, b)

/-- Whether a failed delivery was the last one. -/
def exhausted (msg : Message) : Prop :=
  b.config.settings.deliveryLimit > 0 ∧ msg.deliveryCount ≥ b.config.settings.deliveryLimit

instance (msg : Message) : Decidable (b.exhausted msg) := inferInstanceAs (Decidable (_ ∧ _))

/-- The message as a failed delivery puts it back: a priority of 0 and no metadata keep what
    it has. -/
def redelivered (msg : Message) (priority : Int) (metadata : Option Metadata) : Message :=
  { msg with
    priority := if priority ≠ 0 then priority else msg.priority
    metadata := if metadata.isSome then metadata else msg.metadata }

/-- A delivery that failed: `Nack`, and `AckTimeout` with nothing to change. -/
def fail (id : UInt64) (priority : Int) (metadata : Option Metadata) : Go (Outcome Unit) :=
  match b.records id with
  | some ⟨msg, .inFlight _⟩ =>
    if b.exhausted msg then do
      let memory ← b.release b.memory msg.group
      some (.ok (), b.put id none memory)
    else do
      let msg := redelivered msg priority metadata
      let memory ← b.memory.enqueue msg.group ⟨msg.id, msg.priority, msg.group⟩
      let memory ← b.release memory msg.group
      some (.ok (), b.put id (some ⟨msg, .ready⟩) memory)
  | _ => some (.error .messageNotFound, b)

def nack (id : UInt64) (priority : Int) (metadata : Option Metadata) : Go (Outcome Unit) := b.fail id priority metadata

def ackTimeout (id : UInt64) : Go (Outcome Unit) := b.fail id 0 none

/-- New settings, of the same strategy. -/
def update (settings : QueueSettings) : Broker :=
  { b with config := { b.config with settings := settings }, memory := b.memory.updateMaxUnacked settings.maxUnacked.toNat }

end Broker

end Doq
