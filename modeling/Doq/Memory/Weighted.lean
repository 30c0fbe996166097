/-
  Doq.Memory.Weighted — the weighted fair queue (`pkg/queue/memory/fair_weighted_queue.go`).

  One heap per group, and a weighted tree of the groups. A dequeue samples a group with
  the log index as its seed. Counters are Go `int`s: exact here, and wrapped to 64 bits
  where `CalculateWeight` computes with them. The code's arithmetic is `float64`; the queue is
  written for any, since its properties need only what an `Arithmetic` has.
-/

import Doq.Memory.Weight
import Doq.WeightedAvl
import Mathlib.Data.String.Basic

namespace Doq.Memory

open Lib WeightedAvl

structure FairWeightedQueue (ar : Arithmetic := .float64) where
  maxUnacked : Int
  weights : WeightedAVL String
  unackedByGroup : FinMap String Int
  queues : FinMap String PriorityMemoryQueue

namespace FairWeightedQueue

variable {ar : Arithmetic}

def new (maxUnacked : Int) : FairWeightedQueue ar := ⟨maxUnacked, .new, ∅, ∅⟩

def updateMaxUnacked (fq : FairWeightedQueue ar) (maxUnacked : Int) : FairWeightedQueue ar :=
  { fq with maxUnacked := if maxUnacked = 0 then maxInt64 else maxUnacked }

def unacked (fq : FairWeightedQueue ar) (group : String) : Int := (fq.unackedByGroup.lookup group).getD 0

/-- `q.weights.Update(group, CalculateWeight(...))`; the group's queue is dereferenced for
    its length. -/
def updateWeight (fq : FairWeightedQueue ar) (group : String) : Go (FairWeightedQueue ar) := do
  let queue ← fq.queues.lookup group
  let weights ← fq.weights.update group (calculateWeight ar fq.maxUnacked (fq.unacked group) queue.len)
  some { fq with weights := weights }

def removeGroup (fq : FairWeightedQueue ar) (group : String) : Go (FairWeightedQueue ar) := do
  let weights ← fq.weights.remove group
  some { fq with queues := fq.queues.erase group, unackedByGroup := fq.unackedByGroup.erase group, weights := weights }

/-- The end of `Dequeue` and `Delete`: a group with neither ready nor unacked messages goes. -/
def messageLost (fq : FairWeightedQueue ar) (group : String) : Go (FairWeightedQueue ar) := do
  let queue ← fq.queues.lookup group
  if fq.unacked group = 0 ∧ queue.len = 0 then fq.removeGroup group else fq.updateWeight group

/-- The group's queue, a new one if there is none. -/
def queueOf (fq : FairWeightedQueue ar) (group : String) : PriorityMemoryQueue :=
  (fq.queues.lookup group).getD (.new true)

def enqueue (fq : FairWeightedQueue ar) (group : String) (item : Item) : Go (FairWeightedQueue ar) :=
  { fq with queues := fq.queues.insert group ((fq.queueOf group).heapPush item) }.updateWeight group

/-- One more unacked message of the group, unless it is acked at once. -/
def charge (fq : FairWeightedQueue ar) (ack : Bool) (group : String) : FairWeightedQueue ar :=
  if ack then fq else { fq with unackedByGroup := fq.unackedByGroup.insert group (fq.unacked group + 1) }

def dequeue (fq : FairWeightedQueue ar) (ack : Bool) (seed : UInt64) : Go (Option Item × FairWeightedQueue ar) :=
  if fq.queues.entries = [] then some (none, fq)
  else
    let selectedGroup := fq.weights.sample seed
    if selectedGroup = "" then some (none, fq)
    else do
      let queue ← fq.queues.lookup selectedGroup
      match queue.heapPop with
      -- `heap.Pop(...).(*Item)`: an empty heap panics
      | (none, _) => none
      | (some item, queue) =>
        let fq := { fq with queues := fq.queues.insert selectedGroup queue }.charge ack selectedGroup
        let fq ← fq.messageLost selectedGroup
        some (some item, fq)

def peekReady (fq : FairWeightedQueue ar) : Bool := decide (0 < fq.weights.sum)

def get (fq : FairWeightedQueue ar) (group : String) (id : UInt64) : Go (Option Item) :=
  match fq.queues.lookup group with
  | none => some none
  | some queue => queue.get id

def delete (fq : FairWeightedQueue ar) (group : String) (id : UInt64) : Go (Option Item × FairWeightedQueue ar) :=
  match fq.queues.lookup group with
  | none => some (none, fq)
  | some queue => do
    let (item, queue) ← queue.delete id
    match item with
    | none => some (none, fq)
    | some item =>
      let fq ← { fq with queues := fq.queues.insert group queue }.messageLost group
      some (some item, fq)

/-- Run `f` on the queue of the group, if there is one. -/
def onQueue (fq : FairWeightedQueue ar) (group : String) (f : PriorityMemoryQueue → Go PriorityMemoryQueue) :
    Go (FairWeightedQueue ar) :=
  match fq.queues.lookup group with
  | none => some fq
  | some queue => do
    let queue ← f queue
    some { fq with queues := fq.queues.insert group queue }

def updatePriority (fq : FairWeightedQueue ar) (group : String) (id : UInt64) (priority : Int) : Go (FairWeightedQueue ar) :=
  fq.onQueue group fun queue => queue.updatePriority id priority

/-- `q.Get(group, id).UpdatePriority(priority)`. -/
def itemUpdatePriority (fq : FairWeightedQueue ar) (group : String) (id : UInt64) (priority : Int) : Go (FairWeightedQueue ar) :=
  fq.onQueue group fun queue => some (queue.itemUpdatePriority id priority)

def len (fq : FairWeightedQueue ar) : Nat := fq.queues.total fun _ queue => queue.len

def updateWeights (fq : FairWeightedQueue ar) (group : String) : Go (FairWeightedQueue ar) :=
  match fq.unackedByGroup.lookup group with
  | none => some fq
  | some count => do
    let fq ← { fq with unackedByGroup := fq.unackedByGroup.insert group (count - 1) }.updateWeight group
    let queue ← fq.queues.lookup group
    if queue.len = 0 ∧ fq.unacked group ≤ 0 then fq.removeGroup group else some fq

def markUnacked (fq : FairWeightedQueue ar) (group : String) : Go (FairWeightedQueue ar) :=
  { fq with
    queues := fq.queues.insert group (fq.queueOf group)
    unackedByGroup := fq.unackedByGroup.insert group (fq.unacked group + 1) }.updateWeight group

end FairWeightedQueue

end Doq.Memory
