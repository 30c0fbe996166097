/-
  Doq.Grpc.Answers — what a client is told when the node it asks is not the leader (the answers
  of `pkg/raft/commands.go` and `pkg/grpc/server.go`, and the two `mapError` of
  `pkg/grpc/errors.go` and `pkg/http/errors.go`).

  An answer goes back over the nodes that passed the call on. On each of them the server turns an
  error into a gRPC status, and the node before it hands that status on as an error of its own,
  which no longer is the error that the leader returned. A call may also be lost on the way, or
  refused by Raft.

  Proved:
  - `answers_agree`: every node on the way answers with the same message, and with the same
    status code, to which each adds its words in front of the text. The HTTP status is the same
    too, except that 503 for a missing leader becomes 500 once a node has passed it on.
-/

import Doq.Grpc.Forwarding

namespace Doq

open Lib

/-- The codes of gRPC for a failure. -/
inductive Code where
  | canceled | unknown | invalidArgument | deadlineExceeded | notFound | alreadyExists | permissionDenied
  | resourceExhausted | failedPrecondition | aborted | outOfRange | unimplemented | internal | unavailable
  | dataLoss | unauthenticated
  deriving DecidableEq, Repr

def Code.text : Code → String
  | canceled => "Canceled"
  | unknown => "Unknown"
  | invalidArgument => "InvalidArgument"
  | deadlineExceeded => "DeadlineExceeded"
  | notFound => "NotFound"
  | alreadyExists => "AlreadyExists"
  | permissionDenied => "PermissionDenied"
  | resourceExhausted => "ResourceExhausted"
  | failedPrecondition => "FailedPrecondition"
  | aborted => "Aborted"
  | outOfRange => "OutOfRange"
  | unimplemented => "Unimplemented"
  | internal => "Internal"
  | unavailable => "Unavailable"
  | dataLoss => "DataLoss"
  | unauthenticated => "Unauthenticated"

structure GrpcStatus where
  code : Code
  message : String
  deriving DecidableEq, Repr

/-- An error that a method of the node returns. -/
inductive Failure where
  /-- The state machine's, with the error of the queue inside. -/
  | fsm (e : FSMError)
  | emptyQueue
  | noRaftLeader
  /-- Of Raft, of the encoding or of the connection: none that `mapError` looks for. -/
  | other (text : String)
  /-- What the next node answered, or what gRPC made of a call that got lost. -/
  | status (s : GrpcStatus)
  deriving DecidableEq, Repr

def NodeErr.failure : NodeErr → Failure
  | noRaftLeader => .noRaftLeader
  | emptyQueue => .emptyQueue
  | invalidArgument => .status ⟨.invalidArgument, "invalid settings provided"⟩

namespace Failure

/-- `err.Error()`; `quote` is the `%q` of Go. -/
def text (quote : String → String) : Failure → String
  | fsm e => e.context ++ " " ++ quote e.queueName ++ ": " ++ e.err.text
  | emptyQueue => Err.emptyQueue.text
  | noRaftLeader => "no raft leader available"
  | other text => text
  | status s => "rpc error: code = " ++ s.code.text ++ " desc = " ++ s.message

/-- `errors.Is`, for the errors of a queue. -/
def is : Failure → Err → Bool
  | fsm e, target => e.err = target
  | emptyQueue, target => Err.emptyQueue = target
  | _, _ => false

end Failure

namespace QueueServer

variable (quote : String → String)

def mapError (detail : String) (err : Failure) : GrpcStatus :=
  if err.is .queueNotFound ∨ err.is .messageNotFound ∨ err.is .emptyQueue then ⟨.notFound, detail ++ ": " ++ err.text quote⟩
  else if err.is .invalidStrategy ∨ err.is .invalidAckTimeout ∨ err.is .invalidMaxUnacked ∨ err.is .invalidQueueSettings then
    ⟨.invalidArgument, detail ++ ": " ++ err.text quote⟩
  else if err = .noRaftLeader then ⟨.unavailable, detail ++ ": " ++ err.text quote⟩
  else
    match err with
    | .status s => ⟨s.code, detail ++ ": " ++ s.message⟩
    | err => ⟨.internal, detail ++ ": " ++ err.text quote⟩

/-- What the server says it failed to do. -/
def detail : NodeCall → String
  | .createQueue _ queueName _ => "failed to create a queue " ++ queueName
  | .updateQueue queueName _ => "failed to update a queue " ++ queueName
  | .deleteQueue queueName => "failed to delete a queue " ++ queueName
  | .enqueue .. => "failed to enqueue a message"
  | .dequeue .. => "failed to dequeue a message"
  | .get .. => "failed to get a message"
  | .delete .. => "failed to delete a message"
  | .ack .. => "failed to ack a message"
  | .nack .. => "failed to nack a message"
  | .touch .. => "failed to touch a message"
  | .updatePriority .. => "failed to update priority of a message"

/-- The response to a call, with the fields of the message if it has one. -/
def respond (call : NodeCall) : Except Failure (Option Message) → Except GrpcStatus (Option Message)
  | .ok message => .ok message
  | .error e => .error (mapError quote (detail call) e)

end QueueServer

namespace Http

structure HttpError where
  status : Nat
  detail : String
  error : String
  deriving DecidableEq, Repr

def mapError (quote : String → String) (detail : String) (err : Failure) : HttpError :=
  if err.is .queueNotFound ∨ err.is .messageNotFound ∨ err.is .emptyQueue then ⟨404, detail, err.text quote⟩
  else if err.is .invalidStrategy ∨ err.is .invalidAckTimeout ∨ err.is .invalidMaxUnacked ∨ err.is .invalidQueueSettings then
    ⟨422, detail, err.text quote⟩
  else if err = .noRaftLeader then ⟨503, detail, err.text quote⟩
  else
    match err with
    | .status s =>
      match s.code with
      | .notFound => ⟨404, detail, err.text quote⟩
      | .invalidArgument => ⟨422, detail, err.text quote⟩
      | _ => ⟨500, detail, err.text quote⟩
    | _ => ⟨500, detail, err.text quote⟩

end Http

namespace NodeCall

/-- The message that a method returns. `Enqueue` puts the group in that it was called with. -/
def returned : NodeCall → Message → Option Message
  | .enqueue _ _ group .., m => some { m with group := group }
  | .dequeue .., m => some m
  | .get .., m => some m
  | _, _ => none

/-- The leader's answer. -/
def answer (call : NodeCall) (r : FSMResponse) : Except Failure (Option Message) :=
  match r.error with
  | some e => .error (.fsm e)
  | none => .ok (call.returned r.message)

/-- The answer of a node that passed the call on. -/
def relay (call : NodeCall) : Except GrpcStatus (Option Message) → Except Failure (Option Message)
  | .ok message => .ok (message.bind call.returned)
  | .error s => .error (.status s)

end NodeCall

namespace Peer

variable {cfg : Config} {log : List Entry} (quote : String → String)

/-- A call and its answer. The last node of the path is the one whose word it is. -/
inductive Answered (listens : String → Peer cfg log → Prop) :
    NodeCall → List (Peer cfg log) → Except Failure (Option Message) → Prop
  | failed {r : Peer cfg log} {call : NodeCall} {e : NodeErr} {n : Node} (clock : Int) (generated : UInt64)
      (h : r.node.call clock generated call = some (.fail e, n)) : Answered listens call [r] (.error e.failure)
  | refused {r : Peer cfg log} {call : NodeCall} {command : Command} {n : Node} (clock : Int) (generated : UInt64)
      (h : r.node.call clock generated call = some (.append command, n)) (text : String) :
      Answered listens call [r] (.error (.other text))
  | applied {r : Peer cfg log} {call : NodeCall} {command : Command} {n : Node} {f f' : FSM} {response : FSMResponse}
      (clock : Int) (generated : UInt64) (h : r.node.call clock generated call = some (.append command, n)) (index : UInt64)
      (now : Int) (happly : f.apply ⟨index, now, command⟩ = some (.response response, f')) :
      Answered listens call [r] (call.answer response)
  | lost {r : Peer cfg log} {call : NodeCall} {host : String} {request : Command} {n : Node} (clock : Int) (generated : UInt64)
      (h : r.node.call clock generated call = some (.forward host request, n)) (e : Failure)
      (he : (∃ text, e = .other text) ∨ ∃ s, e = .status s) : Answered listens call [r] (.error e)
  | relayed {r next : Peer cfg log} {call call' : NodeCall} {host : String} {request : Command} {n : Node}
      {path : List (Peer cfg log)} {a : Except Failure (Option Message)} (clock : Int) (generated : UInt64)
      (h : r.node.call clock generated call = some (.forward host request, n)) (hnext : listens host next)
      (hserved : QueueServer.served request = some call') (hrest : Answered listens call' (next :: path) a) :
      Answered listens call (r :: next :: path) (call.relay (QueueServer.respond quote call' a))

variable {quote} {listens : String → Peer cfg log → Prop} {call call' : NodeCall}

theorem detail_served (h : QueueServer.served call.request = some call') :
    QueueServer.detail call' = QueueServer.detail call := by
  cases call <;> cases h <;> rfl

theorem returned_served (h : QueueServer.served call.request = some call') : call'.returned = call.returned := by
  funext m
  cases call <;> cases h <;> rfl

/-- The HTTP status for a code that another node answered with. -/
def httpOf : Code → Nat
  | .notFound => 404
  | .invalidArgument => 422
  | _ => 500

theorem mapError_status (detail : String) (s : GrpcStatus) :
    QueueServer.mapError quote detail (.status s) = ⟨s.code, detail ++ ": " ++ s.message⟩ := by
  simp [QueueServer.mapError, Failure.is]

theorem http_status (detail : String) (s : GrpcStatus) : (Http.mapError quote detail (.status s)).status = httpOf s.code := by
  cases hc : s.code <;> simp [Http.mapError, Failure.is, hc, httpOf]

/-- Without the words of the two servers, HTTP and gRPC sort errors alike, but for the missing
    leader. -/
theorem http_code (detail detail' : String) {e : Failure} (he : e ≠ .noRaftLeader) :
    (Http.mapError quote detail e).status = httpOf (QueueServer.mapError quote detail' e).code := by
  cases e with
  | status s => rw [http_status, mapError_status]
  | noRaftLeader => exact absurd rfl he
  | emptyQueue => rfl
  | other text => rfl
  | fsm e =>
    obtain ⟨context, queueName, err⟩ := e
    cases err <;> rfl

/-- What has become of the answer of the last node when that many nodes have passed it on. -/
structure Agrees (quote : String → String) (call : NodeCall) (hops : Nat) (a last : Except Failure (Option Message)) : Prop where
  ok : ∀ m, last = .ok m → a = .ok m
  error : ∀ e', last = .error e' → ∃ e, a = .error e ∧
    (QueueServer.mapError quote (QueueServer.detail call) e).code =
      (QueueServer.mapError quote (QueueServer.detail call) e').code ∧
    (QueueServer.mapError quote (QueueServer.detail call) e).message =
      (QueueServer.detail call ++ ": " ++ ·)^[hops] (QueueServer.mapError quote (QueueServer.detail call) e').message ∧
    ∀ detail, (Http.mapError quote detail e).status =
      if hops ≠ 0 ∧ e' = .noRaftLeader then 500 else (Http.mapError quote detail e').status

theorem Agrees.refl (call : NodeCall) (a : Except Failure (Option Message)) : Agrees quote call 0 a a where
  ok _ h := h
  error e' h := ⟨e', h, rfl, rfl, fun _ => rfl⟩

theorem Agrees.relay (hserved : QueueServer.served call.request = some call') {hops : Nat}
    {a last : Except Failure (Option Message)} (h : Agrees quote call' hops a last)
    (hok : ∀ m, a = .ok m → m.bind call'.returned = m) :
    Agrees quote call (hops + 1) (call.relay (QueueServer.respond quote call' a)) last where
  ok m hm := by
    have ha := h.ok m hm
    have hsame := hok m ha
    rw [returned_served hserved] at hsame
    rw [ha]
    exact congrArg Except.ok hsame
  error e' he := by
    obtain ⟨e, rfl, hcode, htext, hhttp⟩ := h.error e' he
    rw [detail_served hserved] at hcode htext
    refine ⟨_, rfl, ?_, ?_, fun detail => ?_⟩
    · rw [mapError_status, detail_served hserved]
      exact hcode
    · rw [mapError_status, detail_served hserved, Function.iterate_succ_apply']
      dsimp only
      rw [htext]
    · rw [http_status, detail_served hserved, hcode]
      split
      · rename_i hno
        rw [hno.2]
        rfl
      · rename_i hno
        exact (http_code detail _ fun hn => hno ⟨Nat.succ_ne_zero _, hn⟩).symm

/-- Asking a second time for the message of an answer changes nothing. -/
theorem Answered.returned {path : List (Peer cfg log)} {a : Except Failure (Option Message)}
    (h : Answered quote listens call path a) (m : Option Message) (hm : a = .ok m) : m.bind call.returned = m := by
  cases h with
  | applied clock generated h index now happly =>
    unfold NodeCall.answer at hm
    split at hm <;> cases hm
    cases call <;> rfl
  | relayed clock generated h hnext hserved hrest =>
    rename_i a
    cases a with
    | error e => cases hm
    | ok message =>
      cases hm
      cases message <;> cases call <;> rfl
  | _ => cases hm

theorem answers_agree {path : List (Peer cfg log)} {a : Except Failure (Option Message)}
    (h : Answered quote listens call path a) :
    ∃ last call' a', path.getLast? = some last ∧ Answered quote listens call' [last] a' ∧
      call'.request = (if path.length = 1 then call.request else carried call.request) ∧
      Agrees quote call (path.length - 1) a a' := by
  induction h with
  | relayed clock generated h hnext hserved hrest ih =>
    obtain ⟨last, call', a', hlast, hanswer, hrequest, hagrees⟩ := ih
    obtain rfl := Node.request_of_forward h
    refine ⟨last, call', a', by simpa using hlast, hanswer, ?_, hagrees.relay hserved hrest.returned⟩
    rw [hrequest, served_request hserved, carried_carried, ite_self, if_neg (by simp)]
  | failed clock generated h => exact ⟨_, _, _, rfl, .failed clock generated h, rfl, .refl _ _⟩
  | refused clock generated h text => exact ⟨_, _, _, rfl, .refused clock generated h text, rfl, .refl _ _⟩
  | applied clock generated h index now happly =>
    exact ⟨_, _, _, rfl, .applied clock generated h index now happly, rfl, .refl _ _⟩
  | lost clock generated h e he => exact ⟨_, _, _, rfl, .lost clock generated h e he, rfl, .refl _ _⟩

/-- "n2" was the leader and has not heard of another one. -/
def alone : Peer FSM.defaults succession where
  node := ⟨⟨"n2", "10.0.0.2:9000", "10.0.0.2:10000", "8000"⟩, false,
    (FSM.new FSM.defaults (.new "n2" "" "")).applyLeaderConfigChange "n2" "10.0.0.2:9000" "10.0.0.2:10000" "10.0.0.2:8000"⟩
  applied := 1
  ran := ⟨_, _, "", "", .cons rfl (.nil _), rfl, rfl⟩

/-- "n3" passes a call on to it, and the client reads 500 there and not 503. -/
theorem answers_agree_alone :
    let listens : String → Peer FSM.defaults succession → Prop := fun host r => r.node.cfg.grpcAddress = host
    let status : GrpcStatus := ⟨.unavailable, "failed to ack a message: no raft leader available"⟩
    Answered id listens (.ack "jobs" 7) [alone] (.error .noRaftLeader) ∧
      Answered id listens (.ack "jobs" 7) [late, alone] (.error (.status status)) ∧
      ∃ a', Agrees id (.ack "jobs" 7) 1 (.error (.status status)) a' ∧
      (Http.mapError id "" .noRaftLeader).status = 503 ∧ (Http.mapError id "" (.status status)).status = 500 := by
  intro listens status
  have hlast : Answered id listens (.ack "jobs" 7) [alone] (.error .noRaftLeader) := .failed 0 0 (e := .noRaftLeader) rfl
  have hrelayed : Answered id listens (.ack "jobs" 7) [late, alone] (.error (.status status)) :=
    .relayed 0 0 rfl rfl rfl hlast
  obtain ⟨_, _, a', _, _, _, hagrees⟩ := answers_agree hrelayed
  exact ⟨hlast, hrelayed, a', hagrees, rfl, rfl⟩

end Peer

end Doq
