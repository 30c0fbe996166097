/-
  Doq.Grpc.Server — a request that reaches the leader through another node
  (`pkg/grpc/proxy.go`, `pkg/grpc/server.go`, with the node's methods of `Doq.Raft.Commands`).

  The proxy sends the request as it is, and gRPC and protobuf carry it without loss. The
  leader's server takes the fields out and calls the node's method with them, so every
  setting goes from text to enum and from `int` to `uint32` twice. That loses nothing that
  the first time did not lose, but the server's `UpdateQueue` does not pass the delivery limit
  on.

  Proved:
  - `forwarded_same_iff`: the leader appends for a forwarded call what it appends for the call
    made on itself, except for an `UpdateQueue` with a delivery limit.
  - `forwarded_limit_lost`: there the queue ends up without one.
-/

import Doq.Raft.Commands

namespace Doq

open Lib

namespace QueueServer

/-- The node's method that a request is served by, and its arguments. -/
def served : Command → Option NodeCall
  | .createQueue name type settings =>
    some (.createQueue type name ⟨toUpper settings.strategy.name, settings.maxUnacked.toNat, settings.ackTimeout,
      settings.deliveryLimit⟩)
  | .updateQueue name settings =>
    -- the delivery limit is left at its zero value
    some (.updateQueue name ⟨toUpper settings.strategy.name, settings.maxUnacked.toNat, settings.ackTimeout, 0⟩)
  | .deleteQueue name => some (.deleteQueue name)
  | .enqueue queueName id group priority content metadata => some (.enqueue queueName id group priority content metadata)
  | .dequeue queueName ack => some (.dequeue queueName ack)
  | .get queueName id => some (.get queueName id)
  | .delete queueName id => some (.delete queueName id)
  | .ack queueName id => some (.ack queueName id)
  | .nack queueName id priority metadata => some (.nack queueName id priority metadata)
  | .touch queueName id => some (.touch queueName id)
  | .updatePriority queueName id priority => some (.updatePriority queueName id priority)
  | .leaderConfigChange .. | .ackTimeout .. | .unset => none

def serve (node : Node) (clock : Int) (generated : UInt64) (request : Command) : Go (Dispatch × Node) :=
  match served request with
  | some call => node.call clock generated call
  | none => some (.fail .invalidArgument, node)

end QueueServer

namespace Node

variable {n n' : Node} {clock : Int} {generated : UInt64} {call : NodeCall} {host : String} {request : Command}

theorem dispatch_forward {command : Command} (h : n.dispatch command = .forward host request) :
    n.leading = false ∧ request = command := by
  unfold dispatch at h
  split at h
  · cases h
  · rename_i hl
    split at h <;> cases h
    exact ⟨Bool.eq_false_iff.mpr hl, rfl⟩

/-- A node that forwards a call sends the request its method made of the arguments. -/
theorem request_of_forward (h : n.call clock generated call = some (.forward host request, n')) : request = call.request := by
  unfold Node.call at h
  split at h
  · rename_i queueName id group priority content metadata
    obtain ⟨hl, rfl⟩ := dispatch_forward (Prod.mk.inj (Option.some.inj h)).1
    simp [hl, NodeCall.request]
  · obtain ⟨⟨ready, n₁⟩, _, h⟩ := Option.bind_eq_some_iff.mp h
    cases ready with
    | true => exact (dispatch_forward (Prod.mk.inj (Option.some.inj h)).1).2
    | false => cases h
  · exact (dispatch_forward (Prod.mk.inj (Option.some.inj h)).1).2

end Node

namespace QueueServer

theorem value_name (strategy : Strategy) : Strategy.value (toUpper strategy.name) = strategy := by
  cases strategy <;> decide +kernel

theorem toNat_cut (x : UInt32) : UInt32.ofNat (((x.toNat : Int) % 2 ^ 32).toNat) = x := by
  have hx := x.toNat_lt
  have hcut : ((x.toNat : Int) % 2 ^ 32).toNat = x.toNat := by omega
  rw [hcut]
  exact UInt32.ofNat_toNat

/-- What is read back from a request makes the same request. -/
theorem settings_again (settings : QueueSettings) (deliveryLimit : UInt32) :
    SettingsArgs.request ⟨toUpper settings.strategy.name, settings.maxUnacked.toNat, settings.ackTimeout, deliveryLimit⟩ =
      { settings with deliveryLimit := deliveryLimit } := by
  simp only [SettingsArgs.request, value_name, toNat_cut]

/-- The call sets a delivery limit on a queue that exists. -/
def ChangesLimit : NodeCall → Prop
  | .updateQueue _ settings => settings.deliveryLimit ≠ 0
  | _ => False

theorem create_again (node : Node) (clock : Int) (generated : UInt64) (queueType queueName : String) (settings : SettingsArgs) :
    serve node clock generated (.createQueue queueName queueType settings.request) =
      node.call clock generated (.createQueue queueType queueName settings) := by
  simp only [serve, served, Node.call, NodeCall.request, settings_again]

/-- On the leader both are appended, so they are the same only if the limit is. -/
theorem update_again {node : Node} (hl : node.leading = true) (clock : Int) (generated : UInt64) (queueName : String)
    (settings : SettingsArgs) :
    serve node clock generated (.updateQueue queueName settings.request) =
      node.call clock generated (.updateQueue queueName settings) ↔
      settings.deliveryLimit = 0 := by
  have hlimit : settings.request.deliveryLimit = settings.deliveryLimit := rfl
  simp only [serve, served, Node.call, NodeCall.request, settings_again, Node.dispatch, hl, if_true]
  constructor
  · intro h
    injection h with h
    injection h with h _
    injection h with h
    injection h with _ h
    rw [← hlimit, ← h]
  · intro h
    rw [← h, ← hlimit]

theorem forwarded_same_iff {follower follower' leader : Node} {clock clock' : Int} {generated generated' : UInt64}
    {call : NodeCall}
    {host : String} {request : Command} (hforward : follower.call clock generated call = some (.forward host request, follower'))
    (hl : leader.leading = true) :
    serve leader clock' generated' request = leader.call clock' generated' call ↔ ¬ ChangesLimit call := by
  obtain rfl := Node.request_of_forward hforward
  cases call with
  | updateQueue queueName settings => exact (update_again hl clock' generated' queueName settings).trans not_not.symm
  | createQueue queueType queueName settings => exact iff_of_true (create_again leader clock' generated' ..) not_false
  | _ => exact iff_of_true rfl not_false

/-- A node that was told that "n1" leads, and "n1" itself. -/
def replica (nodeID : String) (leading : Bool) : Node :=
  ⟨⟨nodeID, "10.0.0.1:9000", "10.0.0.1:10000", "8000"⟩, leading,
    (FSM.new ⟨60, true⟩ (.new nodeID "" "")).applyLeaderConfigChange "n1" "10.0.0.1:9000" "10.0.0.1:10000" "10.0.0.1:8000"⟩

/-- A strategy that is no name of one, and a `MaxUnacked` that does not fit. -/
theorem forwarded_same_odd :
    let call : NodeCall := .createQueue "fair" "jobs" ⟨"lifo", -1, 30, 5⟩
    let request : Command := .createQueue "jobs" "fair" ⟨.unspecified, 4294967295, 30, 5⟩
    (replica "n2" false).call 0 0 call = some (.forward "10.0.0.1:10000" request, replica "n2" false) ∧
    serve (replica "n1" true) 0 0 request = (replica "n1" true).call 0 0 call := by
  intro call request
  have hforward : (replica "n2" false).call 0 0 call = some (.forward "10.0.0.1:10000" request, replica "n2" false) := rfl
  exact ⟨hforward, (forwarded_same_iff hforward rfl).mpr not_false⟩

/-- The limit of 5 that a caller sets through a follower is appended as none. -/
theorem forwarded_limit_lost :
    let call : NodeCall := .updateQueue "jobs" ⟨"ROUND_ROBIN", 1, 30, 5⟩
    let request : Command := .updateQueue "jobs" ⟨.roundRobin, 1, 30, 5⟩
    (replica "n2" false).call 0 0 call = some (.forward "10.0.0.1:10000" request, replica "n2" false) ∧
    (replica "n1" true).call 0 0 call = some (.append request, replica "n1" true) ∧
    serve (replica "n1" true) 0 0 request = some (.append (.updateQueue "jobs" ⟨.roundRobin, 1, 30, 0⟩), replica "n1" true) := by
  refine ⟨rfl, rfl, rfl⟩

end QueueServer

end Doq
