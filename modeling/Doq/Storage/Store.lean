/-
  Doq.Storage.Store — the Badger store (`pkg/storage/badger_store.go`, `utils.go`).

  A message is stored under the bytes of "messages:<queue>:" and the eight bytes of its
  id, a queue's configuration under "queues:<queue>:". Both keys determine the queue and
  the id (`messagesKey_inj`), so the store is a map by queue and id; only the scans, which
  go by byte prefix, see the keys themselves.

  `Faults` says which store calls of one operation fail.
-/

import Doq.Entity
import Doq.Lib.FinMap

namespace Doq.Storage

open Lib

structure Store where
  queues : FinMap String QueueConfig
  messages : FinMap (String × UInt64) Message

inductive StoreCall where
  | createQueue
  | updateQueue
  | deleteQueue
  | loadQueue
  | enqueue
  | dequeue
  | get
  | delete
  | ack
  | updatePriority
  | updateMessage
  | restoreMessage
  deriving DecidableEq, Repr

abbrev Faults := StoreCall → Bool

def noFaults : Faults := fun _ => false

/-! ## Keys -/

/-- `[]byte(s)`. -/
def bytes (s : String) : List UInt8 := s.toList.flatMap String.utf8EncodeChar

/-- Big-endian, eight bytes. -/
def uint64ToBytes (u : UInt64) : List UInt8 :=
  ([56, 48, 40, 32, 24, 16, 8, 0] : List UInt64).map fun shift => (u >>> shift).toUInt8

def messagesPrefix (queueName : String) : List UInt8 := bytes ("messages:" ++ queueName ++ ":")

def messagesKey (queueName : String) (id : UInt64) : List UInt8 := messagesPrefix queueName ++ uint64ToBytes id

/-- Whether a scan of the queue's prefix meets the key. -/
def scanned (queueName : String) (key : String × UInt64) : Bool :=
  (messagesPrefix queueName).isPrefixOf (messagesKey key.1 key.2)

namespace Store

def empty : Store := ⟨∅, ∅⟩

variable (store : Store) (faults : Faults)

def createQueue (queueType queueName : String) (settings : QueueSettings) : Except Err Store :=
  if faults .createQueue then .error .storage
  else .ok { store with queues := store.queues.insert queueName ⟨queueName, queueType, settings⟩ }

def updateQueue (queueType queueName : String) (settings : QueueSettings) : Except Err Store :=
  if faults .updateQueue then .error .storage
  else .ok { store with queues := store.queues.insert queueName ⟨queueName, queueType, settings⟩ }

def deleteQueue (queueName : String) : Except Err Store :=
  if faults .deleteQueue then .error .storage
  else .ok {
    queues := store.queues.erase queueName
    messages := store.messages.filter fun key _ => !scanned queueName key }

def deleteAll (_ : Store) : Store := empty

def loadQueue (queueName : String) : Except Err QueueConfig :=
  if faults .loadQueue then .error .storage
  else
    match store.queues.lookup queueName with
    | none => .error .keyNotFound
    | some config => .ok config

def enqueue (queueName : String) (id : UInt64) (group : String) (priority : Int) (content : String)
    (metadata : Option Metadata) : Except Err (Message × Store) :=
  if faults .enqueue then .error .storage
  else
    let msg : Message := ⟨group, id, priority, content, metadata, 0⟩
    .ok (msg, { store with messages := store.messages.insert (queueName, id) msg })

/-- Handing a message out is a delivery, and the one place its counter moves. -/
def dequeue (queueName : String) (id : UInt64) (ack : Bool) : Except Err (Message × Store) :=
  if faults .dequeue then .error .storage
  else
    match store.messages.lookup (queueName, id) with
    | none => .error .keyNotFound
    | some msg =>
      let msg := { msg with deliveryCount := msg.deliveryCount + 1 }
      let messages := if ack then store.messages.erase (queueName, id) else store.messages.insert (queueName, id) msg
      .ok (msg, { store with messages := messages })

def get (queueName : String) (id : UInt64) : Except Err Message :=
  if faults .get then .error .storage
  else
    match store.messages.lookup (queueName, id) with
    | none => .error .messageNotFound
    | some msg => .ok msg

def delete (queueName : String) (id : UInt64) : Except Err (Message × Store) :=
  if faults .delete then .error .storage
  else
    match store.messages.lookup (queueName, id) with
    | none => .error .messageNotFound
    | some msg => .ok (msg, { store with messages := store.messages.erase (queueName, msg.id) })

def ack (queueName : String) (id : UInt64) : Except Err Store :=
  if faults .ack then .error .storage
  else .ok { store with messages := store.messages.erase (queueName, id) }

def updatePriority (queueName : String) (id : UInt64) (priority : Int) : Except Err (Message × Store) :=
  if faults .updatePriority then .error .storage
  else
    match store.messages.lookup (queueName, id) with
    | none => .error .keyNotFound
    | some msg =>
      let msg := { msg with priority := priority }
      .ok (msg, { store with messages := store.messages.insert (queueName, id) msg })

def updateMessage (queueName : String) (id : UInt64) (priority : Int) (content : String) (metadata : Option Metadata) :
    Except Err Store :=
  if faults .updateMessage then .error .storage
  else
    match store.messages.lookup (queueName, id) with
    | none => .error .keyNotFound
    | some msg =>
      let msg := { msg with
        priority := if priority ≠ 0 then priority else msg.priority
        content := if content ≠ "" then content else msg.content
        metadata := if metadata.isSome then metadata else msg.metadata }
      .ok { store with messages := store.messages.insert (queueName, id) msg }

def restoreMessage (queueName : String) (msg : Message) : Except Err Store :=
  if faults .restoreMessage then .error .storage
  else .ok { store with messages := store.messages.insert (queueName, msg.id) msg }

/-- What a scan of the queue's prefix returns, in key order. -/
def scan (queueName : String) : List Message :=
  let entries := store.messages.entries.filter fun e => scanned queueName e.1
  let entries := entries.mergeSort fun a b => decide (¬ messagesKey b.1.1 b.1.2 < messagesKey a.1.1 a.1.2)
  entries.map fun e => e.2

end Store

end Doq.Storage
