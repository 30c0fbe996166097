/-
  Doq.Memory.MemoryQueue — the delayed queue (`pkg/queue/memory/delayed_queue.go`) and the
  interface the three memory queues share (`memory_queue.go`).

  A queue holds one of the three; the interface's methods dispatch on which. `now` and the
  clock are Unix seconds.
-/

import Doq.Memory.RoundRobin
import Doq.Memory.Weighted

namespace Doq.Memory

open Lib

structure DelayedQueue where
  queue : PriorityMemoryQueue

namespace DelayedQueue

def new (minFirst : Bool) : DelayedQueue := ⟨.new minFirst⟩

def enqueue (pq : DelayedQueue) (item : Item) : DelayedQueue := ⟨pq.queue.heapPush item⟩

def dequeue (pq : DelayedQueue) (now : Int) : Go (Option Item × DelayedQueue) :=
  if pq.queue.len = 0 then some (none, pq)
  else do
    let queueItem ← pq.queue.peek
    -- scheduled in the future
    if queueItem.priority > now then some (none, pq)
    else
      match pq.queue.heapPop with
      | (none, _) => none
      | (some item, queue) => some (some item, ⟨queue⟩)

/-- Whether the head is deliverable, and else the duration until it is: nanoseconds in 64 bits. -/
def peekReady (pq : DelayedQueue) (clock : Int) : Bool × Int :=
  match pq.queue.peek with
  | none => (false, 0)
  | some head => if head.priority > clock then (false, wrap64 (wrap64 (head.priority - clock) * 1000000000)) else (true, 0)

def peekReadyItem (pq : DelayedQueue) (clock : Int) : Option Item :=
  match pq.queue.peek with
  | none => none
  | some head => if head.priority > clock then none else some head

def get (pq : DelayedQueue) (id : UInt64) : Go (Option Item) := pq.queue.get id

def delete (pq : DelayedQueue) (id : UInt64) : Go (Option Item × DelayedQueue) := do
  let (item, queue) ← pq.queue.delete id
  some (item, ⟨queue⟩)

def updatePriority (pq : DelayedQueue) (id : UInt64) (priority : Int) : Go DelayedQueue := do
  let queue ← pq.queue.updatePriority id priority
  some ⟨queue⟩

/-- `pq.Get(id).UpdatePriority(priority)`. -/
def itemUpdatePriority (pq : DelayedQueue) (id : UInt64) (priority : Int) : DelayedQueue :=
  ⟨pq.queue.itemUpdatePriority id priority⟩

def len (pq : DelayedQueue) : Nat := pq.queue.len

/-- The items, in the order of the slice. -/
def items (pq : DelayedQueue) : List Item := pq.queue.items.toList

end DelayedQueue

inductive MemoryQueue where
  | delayed (queue : DelayedQueue)
  | fairRoundRobin (queue : FairRoundRobinQueue)
  | fairWeighted (queue : FairWeightedQueue)

namespace MemoryQueue

def updateMaxUnacked (m : MemoryQueue) (maxUnacked : Int) : MemoryQueue :=
  match m with
  | delayed q => delayed q
  | fairRoundRobin q => fairRoundRobin (q.updateMaxUnacked maxUnacked)
  | fairWeighted q => fairWeighted (q.updateMaxUnacked maxUnacked)

def enqueue (m : MemoryQueue) (group : String) (item : Item) : Go MemoryQueue :=
  match m with
  | delayed q => some (delayed (q.enqueue item))
  | fairRoundRobin q => some (fairRoundRobin (q.enqueue group item))
  | fairWeighted q => (q.enqueue group item).map fairWeighted

def dequeue (m : MemoryQueue) (ack : Bool) (seed : UInt64) (now : Int) : Go (Option Item × MemoryQueue) :=
  match m with
  | delayed q => (q.dequeue now).map (Prod.map id delayed)
  | fairRoundRobin q => (q.dequeue ack).map (Prod.map id fairRoundRobin)
  | fairWeighted q => (q.dequeue ack seed).map (Prod.map id fairWeighted)

def get (m : MemoryQueue) (group : String) (id : UInt64) : Go (Option Item) :=
  match m with
  | delayed q => q.get id
  | fairRoundRobin q => q.get group id
  | fairWeighted q => q.get group id

def delete (m : MemoryQueue) (group : String) (id : UInt64) : Go (Option Item × MemoryQueue) :=
  match m with
  | delayed q => (q.delete id).map (Prod.map (fun it => it) delayed)
  | fairRoundRobin q => (q.delete group id).map (Prod.map (fun it => it) fairRoundRobin)
  | fairWeighted q => (q.delete group id).map (Prod.map (fun it => it) fairWeighted)

def updatePriority (m : MemoryQueue) (group : String) (id : UInt64) (priority : Int) : Go MemoryQueue :=
  match m with
  | delayed q => (q.updatePriority id priority).map delayed
  | fairRoundRobin q => (q.updatePriority group id priority).map fairRoundRobin
  | fairWeighted q => (q.updatePriority group id priority).map fairWeighted

/-- `m.Get(group, id).UpdatePriority(priority)`: a write through the item's pointer. -/
def itemUpdatePriority (m : MemoryQueue) (group : String) (id : UInt64) (priority : Int) : Go MemoryQueue :=
  match m with
  | delayed q => some (delayed (q.itemUpdatePriority id priority))
  | fairRoundRobin q => (q.itemUpdatePriority group id priority).map fairRoundRobin
  | fairWeighted q => (q.itemUpdatePriority group id priority).map fairWeighted

def len (m : MemoryQueue) : Int :=
  match m with
  | delayed q => q.len
  | fairRoundRobin q => q.len
  | fairWeighted q => q.len

def updateWeights (m : MemoryQueue) (group : String) : Go MemoryQueue :=
  match m with
  | delayed q => some (delayed q)
  | fairRoundRobin q => some (fairRoundRobin (q.updateWeights group))
  | fairWeighted q => (q.updateWeights group).map fairWeighted

def markUnacked (m : MemoryQueue) (group : String) : Go MemoryQueue :=
  match m with
  | delayed q => some (delayed q)
  | fairRoundRobin q => some (fairRoundRobin (q.markUnacked group))
  | fairWeighted q => (q.markUnacked group).map fairWeighted

def peekReady (m : MemoryQueue) (clock : Int) : Bool × Int :=
  match m with
  | delayed q => q.peekReady clock
  | fairRoundRobin q => (q.peekReady, 0)
  | fairWeighted q => (q.peekReady, 0)

end MemoryQueue

end Doq.Memory
