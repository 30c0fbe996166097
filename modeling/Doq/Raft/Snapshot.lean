/-
  Doq.Raft.Snapshot — what a snapshot writes and how it is restored (`FSM.Snapshot`,
  `FSMSnapshot.Persist` and `FSM.Restore` in `pkg/raft/fsm.go`, the snapshot part of
  `pkg/queue/queue.go`, `PersistSnapshot` in `pkg/storage/badger_store.go`).

  Protobuf encoding is lossless, so a snapshot is the list of its items. `Persist` walks
  the map of queues, whose order Go does not fix: the order is a parameter.
-/

import Doq.Raft.Fsm

namespace Doq

open Lib Memory Storage

inductive SnapshotItem where
  | leaderConfiguration (nodeId raftAddr grpcAddr httpAddr : String)
  | queue (config : QueueConfig)
  | unackedMessage (id : UInt64) (ackDeadline : Int)
  | message (msg : Message)
  | roundRobinState (nodes : List SchedulingNode)
  deriving DecidableEq, Repr

/-- The part of a queue's state that lives only in memory. -/
structure SnapshotState where
  unacked : List (UInt64 × Int)
  roundRobin : Option (List SchedulingNode)

namespace Queue

/-- The in-flight messages and their deadlines, sorted by id. -/
def unackedSnapshot (q : Queue) : List (UInt64 × Int) :=
  (q.ackQueue.items.map fun item => (item.id, item.priority)).mergeSort fun a b => decide (a.1 ≤ b.1)

def captureSnapshotState (q : Queue) : Go SnapshotState :=
  match q.queue with
  | some (.fairRoundRobin queue) => do
    let nodes ← queue.schedulingState
    some ⟨q.unackedSnapshot, some nodes⟩
  | _ => some ⟨q.unackedSnapshot, none⟩

/-- The configuration, the unacked markers, the messages, and last the scheduling state. -/
def persistSnapshot (q : Queue) (store : Store) (state : SnapshotState) : Go (List SnapshotItem) := do
  let config ← q.config
  let items := .queue config :: state.unacked.map fun u => .unackedMessage u.1 u.2
  let items := items ++ (store.scan config.name).map .message
  match state.roundRobin with
  | none => some items
  | some nodes => some (items ++ [.roundRobinState nodes])

def restoreRoundRobinState (q : Queue) (nodes : List SchedulingNode) : Queue :=
  match q.queue with
  | some (.fairRoundRobin queue) => { q with queue := some (.fairRoundRobin (queue.restoreSchedulingState nodes)) }
  | _ => q

def enqueueRestored (q : Queue) (store : Store) (cfg : Config) (faults : Faults) (msg : Message) : Go (Outcome Unit) := do
  let config ← q.config
  let msg := { msg with group := groupFor config msg.group }
  match store.restoreMessage faults config.name msg with
  | .error e => some (.error e, q, store)
  | .ok store => do
    let queue ← q.queue
    let item ← queue.get msg.group msg.id
    match item with
    | some _ => do
      q.updatePrometheusQueueSizes cfg
      some (.ok (), q, store)
    | none => do
      let queue ← queue.enqueue msg.group ⟨msg.id, msg.priority, msg.group⟩
      let q := { q with queue := some queue }.notify
      q.updatePrometheusQueueSizes cfg
      some (.ok (), q, store)

/-- The ready copy of a message that is to be in flight goes. -/
def withoutReady (queue : MemoryQueue) (group : String) (id : UInt64) : Go MemoryQueue := do
  let item ← queue.get group id
  match item with
  | none => some queue
  | some _ => do
    let (_, queue) ← queue.delete group id
    some queue

def restoreUnacked (q : Queue) (store : Store) (cfg : Config) (faults : Faults) (msg : Message) (ackDeadline : Int) :
    Go (Outcome Unit) := do
  let config ← q.config
  let msg := { msg with group := groupFor config msg.group }
  match store.restoreMessage faults config.name msg with
  | .error e => some (.error e, q, store)
  | .ok store => do
    let item ← q.ackQueue.get msg.id
    match item with
    | some _ => do
      let ackQueue ← q.ackQueue.updatePriority msg.id ackDeadline
      some (.ok (), { q with ackQueue := ackQueue }, store)
    | none => do
      let queue ← q.queue
      let queue ← withoutReady queue msg.group msg.id
      let ackQueue := q.ackQueue.enqueue ⟨msg.id, ackDeadline, msg.group⟩
      let queue ← queue.markUnacked msg.group
      let q := { q with queue := some queue, ackQueue := ackQueue }
      q.updatePrometheusQueueSizes cfg
      some (.ok (), q, store)

/-- A restored message: in flight when the snapshot marked it so. -/
def putBack (q : Queue) (store : Store) (cfg : Config) (faults : Faults) (msg : Message) : Option Int → Go (Outcome Unit)
  | some ackDeadline => q.restoreUnacked store cfg faults msg ackDeadline
  | none => q.enqueueRestored store cfg faults msg

end Queue

def QueueManager.captureSnapshotState (qm : QueueManager) : Go (FinMap String SnapshotState) :=
  qm.queues.entries.foldlM (fun states e => do
    let state ← e.2.captureSnapshotState
    some (states.insert e.1 state)) ∅

/-- What `Snapshot` captures: a transaction that keeps seeing the store as it is now, and the
    queues' states by name. The queues themselves and the leader's addresses stay behind
    pointers to the live ones. -/
structure FSMSnapshot where
  txn : Store
  queueStates : FinMap String SnapshotState

/-- `Persist` when the live state is `f`. A queue whose state was not captured counts as one
    with nothing in memory. -/
def FSMSnapshot.persist (snapshot : FSMSnapshot) (f : FSM) (names : List String) : Go (List SnapshotItem) := do
  let queues ← names.mapM fun name => do
    let q ← f.queueManager.queues.lookup name
    q.persistSnapshot snapshot.txn ((snapshot.queueStates.lookup name).getD ⟨[], none⟩)
  let c := f.leaderConfig
  some (.leaderConfiguration c.id c.raftAddr c.grpcAddr c.httpAddr :: queues.flatten)

namespace FSM

/-- One queue's share of the snapshot. -/
def persistQueue (f : FSM) (name : String) : Go (List SnapshotItem) := do
  let q ← f.queueManager.queues.lookup name
  let state ← q.captureSnapshotState
  q.persistSnapshot f.queueManager.store state

/-- `Snapshot` and `Persist` with no entry between them, the queues in the given order. -/
def persist (f : FSM) (names : List String) : Go (List SnapshotItem) := do
  let queues ← names.mapM f.persistQueue
  let c := f.leaderConfig
  some (.leaderConfiguration c.id c.raftAddr c.grpcAddr c.httpAddr :: queues.flatten)

/-- `Snapshot`, under the lock. -/
def snapshot (f : FSM) : Go FSMSnapshot := do
  let queueStates ← f.queueManager.captureSnapshotState
  some ⟨f.queueManager.store, queueStates⟩

/-- What `Restore` keeps between items: the state, the queue the items belong to (nil when
    its creation failed), and its unacked markers (a nil map before the first queue). -/
structure Restoring where
  fsm : FSM
  q : Option String
  unacked : Option (FinMap UInt64 Int)

/-- A message of the current queue, which is dereferenced. Errors are not looked at. -/
def restoreMessageItem (st : Restoring) (msg : Message) : Go Restoring := do
  let name ← st.q
  let q ← st.fsm.queueManager.queues.lookup name
  let qm := st.fsm.queueManager
  let (_, q, store) ← q.putBack qm.store qm.config noFaults msg (st.unacked.bind (·.lookup msg.id))
  some { st with fsm := st.fsm.putQueue name q store }

def restoreItem (st : Restoring) : SnapshotItem → Go Restoring
  | .leaderConfiguration nodeId raftAddr grpcAddr httpAddr =>
    some { st with fsm := st.fsm.applyLeaderConfigChange nodeId raftAddr grpcAddr httpAddr }
  | .queue config =>
    let (r, qm) := st.fsm.queueManager.createQueue config.type config.name config.settings
    let q := match r with
      | .error _ => none
      | .ok () => some config.name
    some { fsm := { st.fsm with queueManager := qm }, q := q, unacked := some ∅ }
  | .unackedMessage id ackDeadline => do
    let unacked ← st.unacked
    some { st with unacked := some (unacked.insert id ackDeadline) }
  | .roundRobinState nodes =>
    match st.q with
    | none => some st
    | some name => do
      let q ← st.fsm.queueManager.queues.lookup name
      some { st with fsm := st.fsm.putQueue name (q.restoreRoundRobinState nodes) st.fsm.queueManager.store }
  | .message msg => restoreMessageItem st msg

/-- `Restore`: the queues that were stopped, and the state that replaces them. -/
def restoreStopping (f : FSM) (items : List SnapshotItem) : Go (List (String × Queue) × FSM) := do
  let (stopped, qm) ← f.queueManager.reset
  let st ← items.foldlM restoreItem { fsm := { f with queueManager := qm }, q := none, unacked := none }
  some (stopped, st.fsm)

def restore (f : FSM) (items : List SnapshotItem) : Go FSM := (f.restoreStopping items).map Prod.snd

/-- What a restore that succeeds has gone through. -/
theorem restore_some {prior g : FSM} {items : List SnapshotItem} (h : prior.restore items = some g) :
    ∃ qm, prior.queueManager.reset = some qm ∧
      ∃ st, items.foldlM restoreItem ⟨{ prior with queueManager := qm.2 }, none, none⟩ = some st ∧ st.fsm = g := by
  obtain ⟨r, hr, rfl⟩ := Option.map_eq_some_iff.mp h
  obtain ⟨qm, hqm, hr⟩ := Option.bind_eq_some_iff.mp hr
  obtain ⟨st, hst, hr⟩ := Option.bind_eq_some_iff.mp hr
  cases hr
  exact ⟨qm, hqm, st, hst, rfl⟩

end FSM

end Doq
