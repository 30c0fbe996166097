/-
  Doq.Memory.RoundRobin — the round-robin fair queue
  (`pkg/queue/memory/fair_round_robin_queue.go`, `linked_list.go`).

  Groups are dotted names, and the queue keeps a tree of their components. A node is
  known by its path from the root, so a pointer to a node is a path, its parent is the
  path without its last component, and its name is that component: `nodes` is the heap
  of nodes by pointer. A pointer to a node that has left the tree reads as a node with
  nothing in it, which is what such a node is: it left because its count reached zero.

  `children` is the child map (its keys: the pointers are the longer paths), and
  `childrenList` the linked list of names the rotation visits. A list node is known by
  its name, which occurs once; `currentChild` is the cursor into that list.
-/

import Doq.Memory.PriorityQueue
import Doq.Lib.Dotted
import Doq.Lib.LinkedList

namespace Doq.Memory

open Lib

abbrev Path := List String

def maxInt64 : Int := 2 ^ 63 - 1

structure GroupNode where
  children : List String
  childrenList : LinkedList String
  currentChild : Option String
  queue : PriorityMemoryQueue
  messageCount : Int
  groupKey : String
  ready : Bool

namespace GroupNode

def new (groupKey : String) : GroupNode := ⟨[], .empty, none, .new true, 0, groupKey, false⟩

/-- The child after `name` in the list, back to the head past the last. -/
def next (node : GroupNode) (name : String) : Option String := (node.childrenList.next name).or node.childrenList.head?

/-- The key of a new child: its own name under the root, whose key is empty. -/
def childKey (node : GroupNode) (name : String) : String :=
  if node.groupKey = "" then name else node.groupKey ++ "." ++ name

end GroupNode

structure FairRoundRobinQueue where
  nodes : FinMap Path GroupNode
  maxUnacked : Int
  unackedByGroup : FinMap String Int
  totalMessages : Int
  groupKeyToLeaf : FinMap String Path
  readyLeaves : Int

/-- One node's scheduling state: its children in visiting order, and the child the next
    dequeue starts from (empty for the first). -/
structure SchedulingNode where
  path : String
  children : List String
  current : String
  deriving DecidableEq, Repr, Inhabited

namespace FairRoundRobinQueue

/-- A limit of zero stands for none. -/
def limitOf (maxUnacked : Int) : Int := if maxUnacked = 0 then maxInt64 else maxUnacked

def new (maxUnacked : Int) : FairRoundRobinQueue where
  nodes := (∅ : FinMap Path GroupNode).insert [] (.new "")
  maxUnacked := limitOf maxUnacked
  unackedByGroup := ∅
  totalMessages := 0
  groupKeyToLeaf := ∅
  readyLeaves := 0

def unacked (fq : FairRoundRobinQueue) (group : String) : Int := (fq.unackedByGroup.lookup group).getD 0

def setNode (fq : FairRoundRobinQueue) (p : Path) (node : GroupNode) : FairRoundRobinQueue :=
  { fq with nodes := fq.nodes.insert p node }

/-- A write through the pointer `p`. -/
def modifyNode (fq : FairRoundRobinQueue) (p : Path) (f : GroupNode → GroupNode) : FairRoundRobinQueue :=
  match fq.nodes.lookup p with
  | none => fq
  | some node => fq.setNode p (f node)

/-- A leaf that holds a message and whose group is under the limit. -/
def isReady (fq : FairRoundRobinQueue) (node : GroupNode) : Bool :=
  node.children.isEmpty && decide (0 < node.queue.len) && decide (fq.unacked node.groupKey < fq.maxUnacked)

def refreshLeafReady (fq : FairRoundRobinQueue) (p : Path) : FairRoundRobinQueue :=
  match fq.nodes.lookup p with
  | none => fq
  | some node =>
    if fq.isReady node = node.ready then fq
    else
      { fq.setNode p { node with ready := fq.isReady node } with
        readyLeaves := if fq.isReady node then fq.readyLeaves + 1 else fq.readyLeaves - 1 }

def updateMaxUnacked (fq : FairRoundRobinQueue) (maxUnacked : Int) : FairRoundRobinQueue :=
  let fq := { fq with maxUnacked := limitOf maxUnacked }
  (fq.groupKeyToLeaf.entries.map (·.2)).foldl refreshLeafReady fq

/-- The loop's step in `Enqueue`: make the child unless it exists. -/
def addChild (fq : FairRoundRobinQueue) (p : Path) (name : String) : FairRoundRobinQueue :=
  match fq.nodes.lookup p with
  | none => fq
  | some current =>
    if name ∈ current.children then fq
    else
      let fq := fq.setNode (p ++ [name]) (.new (current.childKey name))
      let fq := fq.setNode p { current with
        children := current.children ++ [name], childrenList := current.childrenList.append name }
      fq.refreshLeafReady p

def descend (fq : FairRoundRobinQueue) (p : Path) : List String → FairRoundRobinQueue
  | [] => fq
  | name :: names => descend (fq.addChild p name) (p ++ [name]) names

/-- `messageCount` plus `δ` at the node at the end of a reversed path and at every node
    above it. -/
def addCount (δ : Int) (fq : FairRoundRobinQueue) : List String → FairRoundRobinQueue
  | [] => fq.modifyNode [] fun node => { node with messageCount := node.messageCount + δ }
  | name :: names =>
    addCount δ (fq.modifyNode (name :: names).reverse fun node => { node with messageCount := node.messageCount + δ }) names

/-- The empty group is the default one. -/
def groupOf (group : String) : String := if group = "" then "default" else group

def enqueue (fq : FairRoundRobinQueue) (group : String) (item : Item) : FairRoundRobinQueue :=
  let group := groupOf group
  let groups := Dotted.split group
  let item := { item with group := group }
  let fq := fq.descend [] groups
  let fq := fq.modifyNode groups fun current => { current with queue := current.queue.heapPush item }
  let fq := fq.addCount 1 groups.reverse
  let fq := { fq with
    groupKeyToLeaf := fq.groupKeyToLeaf.insert group groups, totalMessages := fq.totalMessages + 1 }
  fq.refreshLeafReady groups

/-- `node.children[name]`, dereferenced: a missing child is a nil dereference. -/
def childNode (fq : FairRoundRobinQueue) (p : Path) (node : GroupNode) (name : String) : Go GroupNode :=
  if name ∈ node.children then fq.nodes.lookup (p ++ [name]) else none

/-- One visit of the rotation: a child at its unacked limit is passed over. -/
def visit (dequeue : FairRoundRobinQueue → Path → Go (Option Item × FairRoundRobinQueue)) (fq : FairRoundRobinQueue) (p : Path)
    (child : GroupNode) : Go (Option Item × FairRoundRobinQueue) :=
  if fq.unacked child.groupKey < fq.maxUnacked then dequeue fq p else some (none, fq)

/-- The rotation at an inner node, at most `visits` children from the cursor on; `dequeue`
    is the descent into a child. -/
def rotate (dequeue : FairRoundRobinQueue → Path → Go (Option Item × FairRoundRobinQueue)) (p : Path) (startNode : String) :
    Nat → FairRoundRobinQueue → Go (Option Item × FairRoundRobinQueue)
  | 0, fq => some (none, fq)
  | visits + 1, fq => do
    let node ← fq.nodes.lookup p
    let childName ← node.currentChild
    let child ← fq.childNode p node childName
    let (item, fq) ← visit dequeue fq (p ++ [childName]) child
    -- move to the next child, whether or not this one delivered
    let node ← fq.nodes.lookup p
    let next ← node.next childName
    let fq := fq.setNode p { node with currentChild := some next }
    match item with
    | some item => some (some item, fq)
    | none => if next = startNode then some (none, fq) else rotate dequeue p startNode visits fq

/-- `fuel` bounds the depth of the descent. -/
def dequeueFromNode : Nat → FairRoundRobinQueue → Path → Go (Option Item × FairRoundRobinQueue)
  | 0, _, _ => none
  | fuel + 1, fq, p => do
    let node ← fq.nodes.lookup p
    if node.children = [] then
      if 0 < node.queue.len then
        match node.queue.heapPop with
        | (none, _) => none
        | (some item, queue) => some (some item, fq.setNode p { node with queue := queue })
      else some (none, fq)
    else if node.childrenList.len = 0 then some (none, fq)
    else do
      let startNode ← node.currentChild.or node.childrenList.head?
      let fq := fq.setNode p { node with currentChild := some startNode }
      rotate (dequeueFromNode fuel) p startNode node.childrenList.len fq

/-- No node lies deeper than the lengths of all paths together. -/
def depth (fq : FairRoundRobinQueue) : Nat := fq.nodes.total fun p _ => p.length

/-- A child leaves the tree: its share of the ready counter, its list node, its map entry,
    its leaf entry, and the cursor that stood on it. -/
def unlink (fq : FairRoundRobinQueue) (p : Path) (parent child : GroupNode) (childName : String) : FairRoundRobinQueue :=
  { fq with
    readyLeaves := if child.ready then fq.readyLeaves - 1 else fq.readyLeaves
    nodes := (fq.nodes.erase (p ++ [childName])).insert p { parent with
      childrenList := parent.childrenList.remove childName
      children := parent.children.erase childName
      currentChild := if parent.currentChild = some childName then (parent.childrenList.remove childName).head?
        else parent.currentChild }
    groupKeyToLeaf := fq.groupKeyToLeaf.erase child.groupKey }

/-- Unlink the child at the end of a reversed path, and then every ancestor left empty. -/
def removeEmptyChild (fq : FairRoundRobinQueue) : List String → Go FairRoundRobinQueue
  | [] => none
  | childName :: rest => do
    let parent ← fq.nodes.lookup rest.reverse
    let child ← fq.childNode rest.reverse parent childName
    let fq := fq.unlink rest.reverse parent child childName
    if rest.reverse ≠ [] ∧ parent.messageCount = 0 then removeEmptyChild fq rest
    else some (fq.refreshLeafReady rest.reverse)

/-- The end of `Dequeue` and `Delete`: a message has left the queue of `leaf`. -/
def leafLost (fq : FairRoundRobinQueue) (leaf : Path) : Go FairRoundRobinQueue := do
  let fq := fq.addCount (-1) leaf.reverse
  let node ← fq.nodes.lookup leaf
  if node.messageCount = 0 then fq.removeEmptyChild leaf.reverse else some (fq.refreshLeafReady leaf)

/-- The same for the leaf the group's key leads to, if there is one. -/
def groupLost (fq : FairRoundRobinQueue) (group : String) : Go FairRoundRobinQueue :=
  match fq.groupKeyToLeaf.lookup group with
  | none => some fq
  | some leaf => fq.leafLost leaf

/-- One more unacked message of the group, unless it is acked at once. -/
def charge (fq : FairRoundRobinQueue) (ack : Bool) (group : String) : FairRoundRobinQueue :=
  if ack then fq else { fq with unackedByGroup := fq.unackedByGroup.insert group (fq.unacked group + 1) }

def dequeue (fq : FairRoundRobinQueue) (ack : Bool) : Go (Option Item × FairRoundRobinQueue) := do
  let (item, fq) ← dequeueFromNode (fq.depth + 1) fq []
  match item with
  | none => some (none, fq)
  | some item =>
    let fq ← (fq.charge ack item.group).groupLost item.group
    some (some item, { fq with totalMessages := fq.totalMessages - 1 })

/-- `fuel` bounds the depth of the walk; the child map is walked in any order. -/
def hasReadyNode (fq : FairRoundRobinQueue) : Nat → Path → Go Bool
  | 0, _ => none
  | fuel + 1, p => do
    let node ← fq.nodes.lookup p
    if node.children = [] then some (decide (0 < node.queue.len))
    else node.children.anyM fun name => do
      let childNode ← fq.nodes.lookup (p ++ [name])
      if fq.unacked childNode.groupKey < fq.maxUnacked then hasReadyNode fq fuel (p ++ [name]) else some false

def peekReady (fq : FairRoundRobinQueue) : Bool := decide (0 < fq.readyLeaves)

/-- The queue of the leaf the group's key leads to. -/
def leafQueue (fq : FairRoundRobinQueue) (group : String) : Option PriorityMemoryQueue := do
  let leaf ← fq.groupKeyToLeaf.lookup group
  let node ← fq.nodes.lookup leaf
  some node.queue

def get (fq : FairRoundRobinQueue) (group : String) (id : UInt64) : Go (Option Item) :=
  match fq.leafQueue group with
  | none => some none
  | some queue => queue.get id

def delete (fq : FairRoundRobinQueue) (group : String) (id : UInt64) : Go (Option Item × FairRoundRobinQueue) :=
  match fq.groupKeyToLeaf.lookup group with
  | none => some (none, fq)
  | some leaf =>
    match fq.nodes.lookup leaf with
    | none => some (none, fq)
    | some node => do
      let (item, queue) ← node.queue.delete id
      match item with
      | none => some (none, fq)
      | some item =>
        let fq ← (fq.setNode leaf { node with queue := queue }).leafLost leaf
        some (some item, { fq with totalMessages := fq.totalMessages - 1 })

/-- Run `f` on the queue of the leaf the group's key leads to, if there is one. -/
def onLeafQueue (fq : FairRoundRobinQueue) (group : String) (f : PriorityMemoryQueue → Go PriorityMemoryQueue) :
    Go FairRoundRobinQueue :=
  match fq.groupKeyToLeaf.lookup group with
  | none => some fq
  | some leaf =>
    match fq.nodes.lookup leaf with
    | none => some fq
    | some node => do
      let queue ← f node.queue
      some (fq.setNode leaf { node with queue := queue })

def updatePriority (fq : FairRoundRobinQueue) (group : String) (id : UInt64) (priority : Int) : Go FairRoundRobinQueue :=
  fq.onLeafQueue group fun queue => queue.updatePriority id priority

/-- `fq.Get(group, id).UpdatePriority(priority)`. -/
def itemUpdatePriority (fq : FairRoundRobinQueue) (group : String) (id : UInt64) (priority : Int) : Go FairRoundRobinQueue :=
  fq.onLeafQueue group fun queue => some (queue.itemUpdatePriority id priority)

def len (fq : FairRoundRobinQueue) : Int := fq.totalMessages

def refreshGroup (fq : FairRoundRobinQueue) (group : String) : FairRoundRobinQueue :=
  match fq.groupKeyToLeaf.lookup group with
  | none => fq
  | some leaf => fq.refreshLeafReady leaf

def updateWeights (fq : FairRoundRobinQueue) (group : String) : FairRoundRobinQueue :=
  match fq.unackedByGroup.lookup group with
  | none => fq
  | some count =>
    let count := count - 1
    let fq := if count ≤ 0 then { fq with unackedByGroup := fq.unackedByGroup.erase group }
      else { fq with unackedByGroup := fq.unackedByGroup.insert group count }
    fq.refreshGroup group

def markUnacked (fq : FairRoundRobinQueue) (group : String) : FairRoundRobinQueue :=
  let fq := { fq with unackedByGroup := fq.unackedByGroup.insert group (fq.unacked group + 1) }
  fq.refreshGroup group

/-! ## Scheduling state -/

/-- The depth-first walk; `fuel` bounds its depth. -/
def walk (fq : FairRoundRobinQueue) : Nat → Path → Go (List SchedulingNode)
  | 0, _ => none
  | fuel + 1, p => do
    let node ← fq.nodes.lookup p
    if node.childrenList.len = 0 then some []
    else
      let names := node.childrenList.toList
      let rest ← names.mapM fun name => if name ∈ node.children then walk fq fuel (p ++ [name]) else none
      some (⟨node.groupKey, names, node.currentChild.getD ""⟩ :: rest.flatten)

def schedulingState (fq : FairRoundRobinQueue) : Go (List SchedulingNode) := fq.walk (fq.depth + 1) []

/-- The node a dotted path leads to, through the child maps. -/
def find (fq : FairRoundRobinQueue) (p : Path) : List String → Option Path
  | [] => some p
  | name :: names =>
    match fq.nodes.lookup p with
    | none => none
    | some node => if name ∈ node.children then find fq (p ++ [name]) names else none

/-- The listed children first, each once, and the others after them in their old order. -/
def reorder (node : GroupNode) (listed : List String) : LinkedList String :=
  let ordered := listed.foldl (fun ordered name =>
    if name ∈ node.children ∧ name ∉ ordered.toList then ordered.append name else ordered) .empty
  node.childrenList.toList.foldl (fun all name => if name ∈ ordered.toList then all else all.append name) ordered

/-- A node with its children in the order of a state, and its cursor on the state's child. -/
def rearrange (state : SchedulingNode) (node : GroupNode) : GroupNode :=
  let ordered := reorder node state.children
  { node with
    childrenList := ordered, currentChild := if state.current ∈ ordered.toList then some state.current else none }

def restoreNode (fq : FairRoundRobinQueue) (state : SchedulingNode) : FairRoundRobinQueue :=
  match fq.find [] (if state.path = "" then [] else Dotted.split state.path) with
  | none => fq
  | some p => fq.modifyNode p (rearrange state)

def restoreSchedulingState (fq : FairRoundRobinQueue) (nodes : List SchedulingNode) : FairRoundRobinQueue :=
  nodes.foldl restoreNode fq

end FairRoundRobinQueue

end Doq.Memory
