/-
  Doq.Queue.Manager — the queues by name (`pkg/queue/manager.go`).

  A queue missing from the map is loaded from the store on first use. `UpdateQueue` and
  `DeleteQueue` ignore the error of that load and go on with a queue that has no
  configuration. Store calls do not fail here, so an operation that returns an error has
  changed neither its queue nor the store.
-/

import Doq.Queue.Queue

namespace Doq

open Lib Storage

structure QueueManager where
  store : Store
  config : Config
  queues : FinMap String Queue

namespace QueueManager

variable (qm : QueueManager)

/-- Every queue is stopped, and everything goes. The stopped queues are still in the hands of
    whoever waits on them. -/
def reset : Go (List (String × Queue) × QueueManager) := do
  let stopped ← qm.queues.entries.mapM fun e => do some (e.1, ← e.2.stop)
  some (stopped, { qm with queues := ∅, store := qm.store.deleteAll })

def createQueue (queueType queueName : String) (settings : QueueSettings) : Except Err Unit × QueueManager :=
  match qm.queues.lookup queueName with
  | some _ => (.ok (), qm)
  | none =>
    match Queue.new.createQueue qm.store qm.config noFaults queueType queueName settings with
    | (.error e, _, _) => (.error e, qm)
    | (.ok (), q, store) => (.ok (), { qm with store := store, queues := qm.queues.insert queueName q })

/-- The queue of a name, loaded if it is not in the map; a failed load leaves a new queue. -/
def queueOrNew (queueName : String) : Go Queue :=
  match qm.queues.lookup queueName with
  | some q => some q
  | none => do
    let (_, q) ← Queue.new.load qm.store qm.config noFaults queueName
    some q

def updateQueue (queueName : String) (settings : QueueSettings) : Go (Except Err Unit × QueueManager) := do
  let q ← qm.queueOrNew queueName
  let (r, q, store) ← q.updateQueue qm.store qm.config noFaults settings
  match r with
  | .error e => some (.error e, qm)
  | .ok () => some (.ok (), { qm with store := store, queues := qm.queues.insert queueName q })

def deleteQueue (queueName : String) : Go (Except Err Unit × QueueManager) := do
  let q ← qm.queueOrNew queueName
  let (r, _, store) ← q.deleteQueue qm.store qm.config noFaults
  match r with
  | .error e => some (.error e, qm)
  | .ok () => some (.ok (), { qm with store := store, queues := qm.queues.erase queueName })

def getQueue (queueName : String) : Go (Except Err Queue × QueueManager) :=
  match qm.queues.lookup queueName with
  | some q => some (.ok q, qm)
  | none => do
    let (r, q) ← Queue.new.load qm.store qm.config noFaults queueName
    match r with
    | .error _ => some (.error .queueNotFound, qm)
    | .ok () => some (.ok q, { qm with queues := qm.queues.insert queueName q })

end QueueManager

end Doq
