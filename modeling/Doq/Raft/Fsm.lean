/-
  Doq.Raft.Fsm — the replicated state machine (`pkg/raft/fsm.go`): `Apply` and its
  handlers.

  A log entry carries its index, the leader's append time in Unix seconds and a command.
  The index seeds the weighted pick and the append time is the clock. A handler that works
  on a queue looks it up, runs one method and wraps what the method returned, so the
  handlers are one definition with the queue's name, the method, the words of its error and
  the response as parameters.
-/

import Doq.Lib.Run
import Doq.Queue.Manager
import Doq.Raft.LeaderConfig

namespace Doq

open Lib Storage

structure FSM where
  queueManager : QueueManager
  leaderConfig : LeaderConfig

inductive Command where
  | leaderConfigChange (nodeId raftAddr grpcAddr httpAddr : String)
  | enqueue (queueName : String) (id : UInt64) (group : String) (priority : Int) (content : String) (metadata : Option Metadata)
  | dequeue (queueName : String) (ack : Bool)
  | get (queueName : String) (id : UInt64)
  | delete (queueName : String) (id : UInt64)
  | ack (queueName : String) (id : UInt64)
  | nack (queueName : String) (id : UInt64) (priority : Int) (metadata : Option Metadata)
  | touch (queueName : String) (id : UInt64)
  | ackTimeout (queueName : String) (id : UInt64)
  | updatePriority (queueName : String) (id : UInt64) (priority : Int)
  | createQueue (name queueType : String) (settings : QueueSettings)
  | updateQueue (name : String) (settings : QueueSettings)
  | deleteQueue (name : String)
  /-- A command whose variant is not set. -/
  | unset
  deriving DecidableEq, Repr

/-- A log entry with the time it is applied at. -/
structure Entry where
  index : UInt64
  now : Int
  command : Command
  deriving DecidableEq, Repr

/-- An error wrapped with what the handler was doing to which queue. -/
structure FSMError where
  context : String
  queueName : String
  err : Err
  deriving DecidableEq, Repr

structure FSMResponse where
  queueName : String
  id : UInt64
  group : String
  priority : Int
  content : String
  metadata : Option Metadata
  deliveryCount : UInt32
  error : Option FSMError
  deriving DecidableEq, Repr

inductive Reply where
  | nil
  | response (r : FSMResponse)
  | unknownCommand
  deriving DecidableEq, Repr

namespace FSMResponse

/-- The response that names only the queue. -/
def ofQueue (queueName : String) : FSMResponse := ⟨queueName, 0, "", 0, "", none, 0, none⟩

def ofId (queueName : String) (id : UInt64) : FSMResponse := { ofQueue queueName with id := id }

def ofMessage (queueName : String) (msg : Message) : FSMResponse :=
  ⟨queueName, msg.id, msg.group, msg.priority, msg.content, msg.metadata, msg.deliveryCount, none⟩

def ofError (context queueName : String) (err : Err) : FSMResponse :=
  { ofQueue queueName with error := some ⟨context, queueName, err⟩ }

end FSMResponse

namespace FSM

def new (cfg : Config) (leaderConfig : LeaderConfig) : FSM := ⟨⟨.empty, cfg, ∅⟩, leaderConfig⟩

/-- The queue after a method, written where its pointer leads. -/
def putQueue (f : FSM) (queueName : String) (q : Queue) (store : Store) : FSM :=
  { f with queueManager := { f.queueManager with store := store, queues := f.queueManager.queues.insert queueName q } }

/-- A handler: look the queue up, run the method, wrap the outcome. -/
def onQueue {α : Type} (f : FSM) (queueName context : String) (method : Queue → Store → Config → Go (Queue.Outcome α))
    (respond : α → FSMResponse) : Go (FSMResponse × FSM) := do
  let (r, qm) ← f.queueManager.getQueue queueName
  let f := { f with queueManager := qm }
  match r with
  | .error e => some (.ofError "queue" queueName e, f)
  | .ok q => do
    let (r, q, store) ← method q qm.store qm.config
    let f := f.putQueue queueName q store
    match r with
    | .error e => some (.ofError context queueName e, f)
    | .ok a => some (respond a, f)

def applyEnqueue (f : FSM) (queueName : String) (id : UInt64) (group : String) (priority : Int) (content : String)
    (metadata : Option Metadata) : Go (FSMResponse × FSM) :=
  f.onQueue queueName "enqueue message to queue"
    (fun q store cfg => q.enqueue store cfg noFaults id group priority content metadata) (.ofMessage queueName)

def applyDequeue (f : FSM) (queueName : String) (ack : Bool) (index : UInt64) (now : Int) : Go (FSMResponse × FSM) :=
  f.onQueue queueName "dequeue message from queue" (fun q store cfg => q.dequeue store cfg noFaults ack index now)
    (.ofMessage queueName)

def applyGet (f : FSM) (queueName : String) (id : UInt64) : Go (FSMResponse × FSM) :=
  f.onQueue queueName "get message from queue"
    (fun q store _ => do
      let r ← q.get store noFaults id
      some (r, q, store))
    (.ofMessage queueName)

def applyDelete (f : FSM) (queueName : String) (id : UInt64) : Go (FSMResponse × FSM) :=
  f.onQueue queueName "delete message from queue" (fun q store _ => q.delete store noFaults id) fun _ => .ofId queueName id

def applyAck (f : FSM) (queueName : String) (id : UInt64) : Go (FSMResponse × FSM) :=
  f.onQueue queueName "ack message in queue" (fun q store cfg => q.ack store cfg noFaults id) fun _ => .ofId queueName id

def applyAckTimeout (f : FSM) (queueName : String) (id : UInt64) : Go (FSMResponse × FSM) :=
  f.onQueue queueName "expire ack of message in queue" (fun q store cfg => q.ackTimeout store cfg noFaults id)
    fun _ => .ofId queueName id

def applyNack (f : FSM) (queueName : String) (id : UInt64) (priority : Int) (metadata : Option Metadata) :
    Go (FSMResponse × FSM) :=
  f.onQueue queueName "nack message in queue" (fun q store cfg => q.nack store cfg noFaults id priority metadata)
    fun _ => { FSMResponse.ofId queueName id with metadata := metadata }

def applyTouch (f : FSM) (queueName : String) (id : UInt64) (now : Int) : Go (FSMResponse × FSM) :=
  f.onQueue queueName "touch message in queue" (fun q store _ => q.touch store id now) fun _ => .ofId queueName id

def applyUpdatePriority (f : FSM) (queueName : String) (id : UInt64) (priority : Int) : Go (FSMResponse × FSM) :=
  f.onQueue queueName "update priority for message in queue" (fun q store _ => q.updatePriority store noFaults id priority)
    fun _ => { FSMResponse.ofId queueName id with priority := priority }

/-- The response of the commands on queues. -/
def queueResponse (context queueName : String) : Except Err Unit → FSMResponse
  | .error e => .ofError context queueName e
  | .ok () => .ofQueue queueName

def applyCreateQueue (f : FSM) (name queueType : String) (settings : QueueSettings) : FSMResponse × FSM :=
  let (r, qm) := f.queueManager.createQueue queueType name settings
  (queueResponse "create queue" name r, { f with queueManager := qm })

def applyUpdateQueue (f : FSM) (name : String) (settings : QueueSettings) : Go (FSMResponse × FSM) := do
  let (r, qm) ← f.queueManager.updateQueue name settings
  some (queueResponse "update queue" name r, { f with queueManager := qm })

def applyDeleteQueue (f : FSM) (name : String) : Go (FSMResponse × FSM) := do
  let (r, qm) ← f.queueManager.deleteQueue name
  some (queueResponse "delete queue" name r, { f with queueManager := qm })

def applyLeaderConfigChange (f : FSM) (nodeId raftAddr grpcAddr httpAddr : String) : FSM :=
  { f with leaderConfig := (f.leaderConfig.set nodeId raftAddr grpcAddr httpAddr).2 }

def respond (x : Go (FSMResponse × FSM)) : Go (Reply × FSM) := do
  let (r, f) ← x
  some (.response r, f)

def apply (f : FSM) (entry : Entry) : Go (Reply × FSM) :=
  match entry.command with
  | .leaderConfigChange nodeId raftAddr grpcAddr httpAddr =>
    some (.nil, f.applyLeaderConfigChange nodeId raftAddr grpcAddr httpAddr)
  | .enqueue queueName id group priority content metadata =>
    respond (f.applyEnqueue queueName id group priority content metadata)
  | .dequeue queueName ack => respond (f.applyDequeue queueName ack entry.index entry.now)
  | .get queueName id => respond (f.applyGet queueName id)
  | .delete queueName id => respond (f.applyDelete queueName id)
  | .ack queueName id => respond (f.applyAck queueName id)
  | .nack queueName id priority metadata => respond (f.applyNack queueName id priority metadata)
  | .touch queueName id => respond (f.applyTouch queueName id entry.now)
  | .ackTimeout queueName id => respond (f.applyAckTimeout queueName id)
  | .updatePriority queueName id priority => respond (f.applyUpdatePriority queueName id priority)
  | .createQueue name queueType settings => respond (some (f.applyCreateQueue name queueType settings))
  | .updateQueue name settings => respond (f.applyUpdateQueue name settings)
  | .deleteQueue name => respond (f.applyDeleteQueue name)
  | .unset => some (.unknownCommand, f)

/-- The runs of the state machine: log entries in, replies out. -/
abbrev Runs : FSM → List (Event FSM Entry Reply) → FSM → Prop := Run apply

end FSM

/-- An entry as raft stores it: entries appended by old versions have no append time, and
    the local clock stands in. -/
structure RaftLog where
  index : UInt64
  appendedAt : Option Int
  command : Command
  deriving DecidableEq, Repr

def RaftLog.entry (raftLog : RaftLog) (clock : Int) : Entry := ⟨raftLog.index, raftLog.appendedAt.getD clock, raftLog.command⟩

end Doq
