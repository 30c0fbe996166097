/-
  Doq.Memory.PriorityQueue — the indexed heap under every in-memory queue
  (`pkg/queue/memory/priority_memory_queue.go`).

  A queue is a slice of items kept as a binary heap, and a map from each id to its
  item's position that `Swap`, `Push` and `Pop` keep up. The heap operations are those
  of `container/heap` (`Doq.Lib.Heap`) over the queue's own `Less` and `Swap`.

  Two invariants. `Sound`: an indexed id is the id of the item at its index. It holds
  whatever is pushed, and is what keeps `Get`, `Delete` and `UpdatePriority` inside the
  slice. `Exact`: besides, every item is indexed at its own position, so ids are
  distinct. It holds as long as no id is pushed twice. `Heaped` is the heap order, of
  either direction.
-/

import Doq.Lib.FinMap
import Doq.Lib.Go
import Doq.Lib.Heap
import Mathlib.Data.Multiset.Basic

namespace Doq

open Lib

namespace Memory

structure Item where
  id : UInt64
  priority : Int
  group : String
  deriving DecidableEq, Repr, Inhabited

structure PriorityMemoryQueue where
  minFirst : Bool
  items : Array Item
  idToIndex : FinMap UInt64 Nat

namespace PriorityMemoryQueue

def new (minFirst : Bool) : PriorityMemoryQueue := ⟨minFirst, #[], ∅⟩

def len (pq : PriorityMemoryQueue) : Nat := pq.items.size

/-- The comparison behind `Less`, on the items themselves. -/
def before (minFirst : Bool) (a b : Item) : Bool :=
  if a.priority = b.priority then
    if minFirst then decide (a.id < b.id) else decide (b.id < a.id)
  else if minFirst then decide (a.priority < b.priority) else decide (b.priority < a.priority)

/-- `Less`, with the queue's direction as a parameter: no operation changes it. -/
def less (minFirst : Bool) (pq : PriorityMemoryQueue) (i j : Nat) : Bool := before minFirst pq.items[i]! pq.items[j]!

def swap (pq : PriorityMemoryQueue) (i j : Nat) : PriorityMemoryQueue :=
  if 0 < pq.items.size then
    let items := pq.items.swapIfInBounds i j
    { pq with items := items, idToIndex := (pq.idToIndex.insert items[i]!.id i).insert items[j]!.id j }
  else pq

def push (pq : PriorityMemoryQueue) (item : Item) : PriorityMemoryQueue :=
  { pq with idToIndex := pq.idToIndex.insert item.id pq.items.size, items := pq.items.push item }

/-- `Peek` panics on an empty queue. -/
def peek (pq : PriorityMemoryQueue) : Go Item := pq.items[0]?

/-- The container's `Pop`: the last item, `nil` when there is none. Emptied, the slice and
    the map are made anew. -/
def pop (pq : PriorityMemoryQueue) : Option Item × PriorityMemoryQueue :=
  match pq.items.back? with
  | none => (none, pq)
  | some item =>
    let items := pq.items.pop
    (some item, { pq with items := items, idToIndex := if items.size = 0 then ∅ else pq.idToIndex.erase item.id })

def heap (minFirst : Bool) : Heap.Interface PriorityMemoryQueue := ⟨less minFirst, swap⟩

def heapPush (pq : PriorityMemoryQueue) (item : Item) : PriorityMemoryQueue :=
  let pq := pq.push item
  Heap.up (heap pq.minFirst) pq (pq.len - 1)

def heapPop (pq : PriorityMemoryQueue) : Option Item × PriorityMemoryQueue :=
  (Heap.pop (heap pq.minFirst) pq (pq.len - 1)).pop

def heapRemove (pq : PriorityMemoryQueue) (i : Nat) : Option Item × PriorityMemoryQueue :=
  (Heap.remove (heap pq.minFirst) pq i (pq.len - 1)).pop

def heapFix (pq : PriorityMemoryQueue) (i : Nat) : PriorityMemoryQueue := Heap.fix (heap pq.minFirst) pq i pq.len

def get (pq : PriorityMemoryQueue) (id : UInt64) : Go (Option Item) :=
  match pq.idToIndex.lookup id with
  | none => some none
  | some index => (pq.items[index]?).map some

def delete (pq : PriorityMemoryQueue) (id : UInt64) : Go (Option Item × PriorityMemoryQueue) :=
  match pq.idToIndex.lookup id with
  | none => some (none, pq)
  | some index =>
    if index < pq.items.size then
      -- `heap.Remove(pq, index).(*Item)`: the type assertion panics on a nil item
      match pq.heapRemove index with
      | (none, _) => none
      | (some item, pq) => some (some item, { pq with idToIndex := pq.idToIndex.erase id })
    else none

/-- The write `item.Priority = priority` through a pointer into the slice. -/
def setPriority (pq : PriorityMemoryQueue) (index : Nat) (priority : Int) : PriorityMemoryQueue :=
  { pq with items := pq.items.modify index fun item => { item with priority := priority } }

def updatePriority (pq : PriorityMemoryQueue) (id : UInt64) (priority : Int) : Go PriorityMemoryQueue :=
  match pq.idToIndex.lookup id with
  | none => some pq
  | some index => if index < pq.items.size then some ((pq.setPriority index priority).heapFix index) else none

/-- `pq.Get(id).UpdatePriority(priority)`: the item is written where it lies, and the heap
    is not told. -/
def itemUpdatePriority (pq : PriorityMemoryQueue) (id : UInt64) (priority : Int) : PriorityMemoryQueue :=
  match pq.idToIndex.lookup id with
  | none => pq
  | some index => pq.setPriority index priority

/-! ## Views and invariants -/

def held (pq : PriorityMemoryQueue) : Multiset Item := (pq.items.toList : Multiset Item)

def ids (pq : PriorityMemoryQueue) : Multiset UInt64 := pq.held.map (·.id)

structure Sound (pq : PriorityMemoryQueue) : Prop where
  indexed : ∀ id k, pq.idToIndex.lookup id = some k → ∃ it, pq.items[k]? = some it ∧ it.id = id

structure Exact (pq : PriorityMemoryQueue) : Prop extends Sound pq where
  total : ∀ k it, pq.items[k]? = some it → pq.idToIndex.lookup it.id = some k

def Heaped (pq : PriorityMemoryQueue) : Prop := Heap.Ordered (before pq.minFirst) (fun k => pq.items[k]!) pq.items.size

end PriorityMemoryQueue

end Memory

end Doq
