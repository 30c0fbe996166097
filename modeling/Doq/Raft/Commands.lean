/-
  Doq.Raft.Commands — the methods of a node (`pkg/raft/commands.go`).

  A method turns its arguments into a protobuf request. The leader appends the request to the
  log as a command; any other node forwards it to the leader. A request and the command it
  becomes have the same fields, so both are a `Command` here.

  `GenerateID` and the local clock are parameters.
-/

import Doq.Raft.Fsm

namespace Doq

open Lib

/-- The part of a node's configuration that it tells the others when it becomes the leader. -/
structure NodeConfig where
  nodeID : String
  raftAddress : String
  grpcAddress : String
  httpPort : String
  deriving DecidableEq, Repr

/-- The command `NotifyLeaderConfiguration` appends: the HTTP address is the host of the gRPC
    address and the HTTP port with a colon between them. -/
def NodeConfig.notifyLeaderConfiguration (cfg : NodeConfig) : Option Command := do
  let (host, _) ← Net.splitHostPort cfg.grpcAddress.toList
  some (.leaderConfigChange cfg.nodeID cfg.raftAddress cfg.grpcAddress (.ofList (host ++ ':' :: cfg.httpPort.toList)))

/-- Queue settings as callers give them (`entity.QueueSettings`). -/
structure SettingsArgs where
  strategy : String
  maxUnacked : Int
  ackTimeout : UInt32
  deliveryLimit : UInt32
  deriving DecidableEq, Repr

/-- `QueueSettings_Strategy_name`. -/
def Strategy.name : Strategy → String
  | .unspecified => "STRATEGY_UNSPECIFIED"
  | .roundRobin => "ROUND_ROBIN"
  | .weighted => "WEIGHTED"

/-- `QueueSettings_Strategy_value`: a name that is not in the map has the value 0. -/
def Strategy.value (name : String) : Strategy :=
  if name = "ROUND_ROBIN" then .roundRobin else if name = "WEIGHTED" then .weighted else .unspecified

/-- The settings of a request; `MaxUnacked` is cut to 32 bits. -/
def SettingsArgs.request (settings : SettingsArgs) : QueueSettings :=
  ⟨.value settings.strategy, UInt32.ofNat (settings.maxUnacked % 2 ^ 32).toNat, settings.ackTimeout, settings.deliveryLimit⟩

/-- A call of one of the node's methods that go through the log. -/
inductive NodeCall where
  | createQueue (queueType queueName : String) (settings : SettingsArgs)
  | updateQueue (queueName : String) (settings : SettingsArgs)
  | deleteQueue (queueName : String)
  | enqueue (queueName : String) (id : UInt64) (group : String) (priority : Int) (content : String) (metadata : Option Metadata)
  | dequeue (queueName : String) (ack : Bool)
  | get (queueName : String) (id : UInt64)
  | delete (queueName : String) (id : UInt64)
  | ack (queueName : String) (id : UInt64)
  | nack (queueName : String) (id : UInt64) (priority : Int) (metadata : Option Metadata)
  | touch (queueName : String) (id : UInt64)
  | updatePriority (queueName : String) (id : UInt64) (priority : Int)
  deriving DecidableEq, Repr

/-- The request a method makes of its arguments. -/
def NodeCall.request : NodeCall → Command
  | createQueue queueType queueName settings => .createQueue queueName queueType settings.request
  | updateQueue queueName settings => .updateQueue queueName settings.request
  | deleteQueue queueName => .deleteQueue queueName
  | enqueue queueName id group priority content metadata => .enqueue queueName id group priority content metadata
  | dequeue queueName acked => .dequeue queueName acked
  | get queueName id => .get queueName id
  | delete queueName id => .delete queueName id
  | ack queueName id => .ack queueName id
  | nack queueName id priority metadata => .nack queueName id priority metadata
  | touch queueName id => .touch queueName id
  | updatePriority queueName id priority => .updatePriority queueName id priority

/-- The message that a method builds from a response. -/
def FSMResponse.message (r : FSMResponse) : Message := ⟨r.group, r.id, r.priority, r.content, r.metadata, r.deliveryCount⟩

inductive NodeErr where
  | noRaftLeader
  | emptyQueue
  /-- The server's answer to a request without settings. -/
  | invalidArgument
  deriving DecidableEq, Repr

/-- What a method does with its request. -/
inductive Dispatch where
  | append (command : Command)
  | forward (host : String) (request : Command)
  | fail (err : NodeErr)
  deriving DecidableEq, Repr

structure Node where
  cfg : NodeConfig
  /-- `Raft.State() == raft.Leader`. -/
  leading : Bool
  fsm : FSM

namespace Node

/-- An address that is empty, or that this node announced itself, is as good as none. -/
def leaderGrpcAddr (n : Node) : Except NodeErr String :=
  if n.fsm.leaderConfig.leaderGrpcAddr = "" ∨ n.fsm.leaderConfig.id = n.cfg.nodeID then .error .noRaftLeader
  else .ok n.fsm.leaderConfig.leaderGrpcAddr

def dispatch (n : Node) (request : Command) : Dispatch :=
  if n.leading then .append request
  else
    match n.leaderGrpcAddr with
    | .error e => .fail e
    | .ok host => .forward host request

/-- The guard of `Dequeue`: whether the local replica has a message to deliver now. A queue
    that is not here passes. -/
def localReady (n : Node) (clock : Int) (queueName : String) : Go (Bool × Node) := do
  let (r, qm) ← n.fsm.queueManager.getQueue queueName
  let n := { n with fsm := { n.fsm with queueManager := qm } }
  match r with
  | .error _ => some (true, n)
  | .ok q => do
    let (ready, _) ← q.peekReady clock
    some (ready, n)

def call (n : Node) (clock : Int) (generated : UInt64) : NodeCall → Go (Dispatch × Node)
  | .enqueue queueName id group priority content metadata =>
    -- only the leader makes up an id
    let id := if n.leading ∧ id = 0 then generated else id
    some (n.dispatch (.enqueue queueName id group priority content metadata), n)
  | .dequeue queueName ack => do
    let (ready, n) ← n.localReady clock queueName
    if ready then some (n.dispatch (.dequeue queueName ack), n) else some (.fail .emptyQueue, n)
  | call => some (n.dispatch call.request, n)

end Node

end Doq
