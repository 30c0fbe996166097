/-
  Doq.Grpc.Producers — producers that send messages over a stream (`EnqueueStream` of
  `pkg/grpc/server.go`, on top of the node's `Enqueue`).

  The handler receives a request, enqueues its message, answers, and only then receives the next
  request. It ends when the producer is done or gone, when an `Enqueue` fails and when an answer
  cannot be sent. A producer that sends ahead without reading finds its answers by their place.

  Proved:
  - `producer_accounts`: the answers are for the requests in the order they came in, and at most
    one request is received and not answered. On the leader each answer is for a message that the
    log has stored in the queue of the request, with its content, and at most one message more is
    stored than answered for.
-/

import Doq.Grpc.Serving
import Doq.Raft.Ledger

namespace Doq

open Lib Serving

structure EnqueueRequest where
  queueName : String
  id : UInt64
  group : String
  priority : Int
  content : String
  metadata : Option Metadata
  deriving DecidableEq, Repr

def EnqueueRequest.call (r : EnqueueRequest) : NodeCall := .enqueue r.queueName r.id r.group r.priority r.content r.metadata

/-- Where the handler of a stream is. -/
inductive EnqueueStream where
  | receiving
  | asking (request : EnqueueRequest)
  | applying (request : EnqueueRequest) (command : Command)
  | forwarded (request : EnqueueRequest)
  | answering (request : EnqueueRequest) (message : Message)
  | closed
  deriving DecidableEq, Repr

def Dispatch.producing (request : EnqueueRequest) : Dispatch → EnqueueStream
  | .fail _ => .closed
  | .append command => .applying request command
  | .forward _ _ => .forwarded request

namespace EnqueueStream

inductive Act where
  /-- The producer sends a request, is done or is gone. -/
  | recv (request : Option EnqueueRequest)
  /-- `generated` is the id that the node makes up for a message without one. -/
  | ask (generated : UInt64)
  | apply (index : UInt64) (now : Int)
  /-- The node that the call was forwarded to answers, or the call fails. -/
  | answer (message : Option Message)
  | send (ok : Bool)
  deriving DecidableEq

/-- A step of the handler. The answer has the group of the request, whatever group the queue put
    the message in. -/
def step (n : Node) (s : EnqueueStream) : Act → Option (Out × Node × EnqueueStream)
  | .recv request =>
    match s, request with
    | .receiving, some request => some (.nothing, n, .asking request)
    | .receiving, none => some (.nothing, n, .closed)
    | _, _ => none
  | .ask generated =>
    match s with
    | .asking request => do
      let (d, n) ← n.call 0 generated request.call
      some (.nothing, n, d.producing request)
    | _ => none
  | .apply index now =>
    match s with
    | .applying request command => do
      let (reply, f) ← n.fsm.apply ⟨index, now, command⟩
      let n := { n with fsm := f }
      match reply with
      | .response r =>
        if r.error = none then some (.reply reply, n, .answering request { r.message with group := request.group })
        else some (.reply reply, n, .closed)
      | _ => none
    | _ => none
  | .answer message =>
    match s, message with
    | .forwarded request, some message => some (.nothing, n, .answering request { message with group := request.group })
    | .forwarded _, none | .applying _ _, none => some (.nothing, n, .closed)
    | _, _ => none
  | .send ok =>
    match s with
    | .answering _ message => if ok then some (.sent message, n, .receiving) else some (.nothing, n, .closed)
    | _ => none

/-- The entry of the handler's `Enqueue`. -/
def entry : EnqueueStream → Act → Option Entry
  | .applying _ command, .apply index now => some ⟨index, now, command⟩
  | _, _ => none

/-- What a step can be. -/
inductive Moves (n : Node) : EnqueueStream → Act → Out → EnqueueStream → Node → Prop
  | receives (request : EnqueueRequest) : Moves n .receiving (.recv (some request)) .nothing (.asking request) n
  | ends : Moves n .receiving (.recv none) .nothing .closed n
  | asks (generated : UInt64) (request : EnqueueRequest) (d : Dispatch) (n' : Node)
      (h : n.call 0 generated request.call = some (d, n')) :
      Moves n (.asking request) (.ask generated) .nothing (d.producing request) n'
  | stores (index : UInt64) (now : Int) (request : EnqueueRequest) (command : Command) (r : FSMResponse) (f : FSM)
      (h : n.fsm.apply ⟨index, now, command⟩ = some (.response r, f)) (hok : r.error = none) :
      Moves n (.applying request command) (.apply index now) (.reply (.response r))
        (.answering request { r.message with group := request.group }) { n with fsm := f }
  | refuses (index : UInt64) (now : Int) (request : EnqueueRequest) (command : Command) (r : FSMResponse) (f : FSM)
      (h : n.fsm.apply ⟨index, now, command⟩ = some (.response r, f)) (herr : r.error ≠ none) :
      Moves n (.applying request command) (.apply index now) (.reply (.response r)) .closed { n with fsm := f }
  | gets (request : EnqueueRequest) (m : Message) :
      Moves n (.forwarded request) (.answer (some m)) .nothing (.answering request { m with group := request.group }) n
  | lost (request : EnqueueRequest) : Moves n (.forwarded request) (.answer none) .nothing .closed n
  | fails (request : EnqueueRequest) (command : Command) :
      Moves n (.applying request command) (.answer none) .nothing .closed n
  | sends (request : EnqueueRequest) (m : Message) : Moves n (.answering request m) (.send true) (.sent m) .receiving n
  | breaks (request : EnqueueRequest) (m : Message) : Moves n (.answering request m) (.send false) .nothing .closed n

variable {n n' : Node} {s s' : EnqueueStream} {act : Act} {out : Out}

theorem moves_of_step (h : s.step n act = some (out, n', s')) : Moves n s act out s' n' := by
  cases act with
  | recv request =>
    cases s <;> cases request <;> cases h
    · exact .ends
    · exact .receives _
  | ask generated =>
    cases s with
    | asking request =>
      simp only [step] at h
      obtain ⟨⟨d, n₁⟩, hcall, h⟩ := Option.bind_eq_some_iff.mp h
      cases h
      exact .asks generated request d _ hcall
    | _ => cases h
  | apply index now =>
    cases s with
    | applying request command =>
      obtain ⟨⟨reply, f⟩, happly, h⟩ := Option.bind_eq_some_iff.mp h
      dsimp only at h
      split at h
      · split at h
        · rename_i hok
          cases h
          exact .stores index now request command _ f happly hok
        · rename_i herr
          cases h
          exact .refuses index now request command _ f happly herr
      · cases h
    | _ => cases h
  | answer message =>
    cases s <;> cases message <;> cases h
    · exact .fails _ _
    · exact .lost _
    · exact .gets _ _
  | send ok =>
    cases s with
    | answering request m =>
      cases ok <;> cases h
      · exact .breaks _ _
      · exact .sends _ _
    | _ => cases h

/-- `Enqueue` looks nothing up. The leader gives the message an id, the others pass it on. -/
theorem call_enqueue {generated : UInt64} {request : EnqueueRequest} {d : Dispatch}
    (h : n.call 0 generated request.call = some (d, n')) : n' = n ∧
    if n.leading = true then d = .append (.enqueue request.queueName (if request.id = 0 then generated else request.id)
      request.group request.priority request.content request.metadata)
    else ∀ command, d ≠ .append command := by
  cases h
  refine ⟨rfl, ?_⟩
  cases hl : n.leading with
  | true => simp [hl, Node.dispatch]
  | false =>
    simp only [hl, Node.dispatch, Bool.false_eq_true, if_false]
    intro command
    split <;> simp

theorem applies_of_moves (h : Moves n s act out s' n') : Applies n (entry s act) out n' := by
  cases h with
  | stores index now request command r f happly hok => exact .one happly
  | refuses index now request command r f happly herr => exact .one happly
  | asks generated request d n' hcall =>
    obtain ⟨rfl, _⟩ := call_enqueue hcall
    exact .nothing _ _
  | _ => exact .nothing _ _

/-! ## What comes in, is stored and goes out -/

/-- The message that a step stores: its queue and its id. -/
def stored : Act → Out → Option (String × UInt64)
  | .apply _ _, .reply (.response r) => if r.error = none then some (r.queueName, r.id) else none
  | _, _ => none

structure Receipts where
  received : List EnqueueRequest
  stored : List (String × UInt64)
  sent : List Message

namespace Receipts

def empty : Receipts := ⟨[], [], []⟩

def next (a : Receipts) (act : Act) (out : Out) : Receipts where
  received := a.received ++ match act with
    | .recv (some request) => [request]
    | _ => []
  stored := a.stored ++ (EnqueueStream.stored act out).toList
  sent := a.sent ++ match out with
    | .sent m => [m]
    | _ => []

end Receipts

/-- The answer to a request. The group is the producer's own on every node, the rest is the word
    of the leader. -/
structure AnswerFor (leading : Bool) (request : EnqueueRequest) (m : Message) : Prop where
  group : m.group = request.group
  same : leading = true → m = ⟨request.group, m.id, request.priority, request.content, request.metadata, 0⟩
  id : leading = true → request.id ≠ 0 → m.id = request.id

/-- Where the handler is says which requests are not answered yet, and which messages are stored
    and not answered for. -/
def Owes (leading : Bool) (requests : List EnqueueRequest) (messages : List (String × UInt64)) : EnqueueStream → Prop
  | .receiving => requests = [] ∧ messages = []
  | .asking request => requests = [request] ∧ messages = []
  | .applying request command => requests = [request] ∧ messages = [] ∧ leading = true ∧
      ∃ id, (request.id ≠ 0 → id = request.id) ∧
        command = .enqueue request.queueName id request.group request.priority request.content request.metadata
  | .forwarded request => requests = [request] ∧ messages = [] ∧ leading = false
  | .answering request m => requests = [request] ∧ messages = [(request.queueName, m.id)] ∧ AnswerFor leading request m
  | .closed => requests.length ≤ 1 ∧ messages.length ≤ 1

/-- The queue and the id of what was asked for and answered. -/
def label (request : EnqueueRequest) (m : Message) : String × UInt64 := (request.queueName, m.id)

structure Fits (leading : Bool) (a : Receipts) (answered requests : List EnqueueRequest) (messages : List (String × UInt64))
    (s : EnqueueStream) : Prop where
  received : a.received = answered ++ requests
  sent : List.Forall₂ (AnswerFor leading) answered a.sent
  stored : leading = true → a.stored = List.zipWith label answered a.sent ++ messages
  owes : Owes leading requests messages s

variable {f f' : FSM} {index id : UInt64} {now : Int} {r : FSMResponse}

/-- The answer to an `Enqueue` that succeeded shows the message. -/
theorem enqueue_answer (hsafe : f.Safe) {queueName group content : String} {priority : Int} {metadata : Option Metadata}
    (h : f.apply ⟨index, now, .enqueue queueName id group priority content metadata⟩ = some (.response r, f'))
    (hok : r.error = none) : ∃ group', r = .ofMessage queueName ⟨group', id, priority, content, metadata, 0⟩ := by
  have hanswers := (hsafe.ledger_step h).2 queueName rfl
  split at hanswers
  · cases hanswers
    cases hok
  · obtain ⟨_, hr, hanswers⟩ := hanswers
    cases hr
    exact ⟨_, hanswers⟩

theorem AnswerFor.of_stored (hsafe : f.Safe) (leading : Bool) {request : EnqueueRequest} (hid : request.id ≠ 0 → id = request.id)
    (h : f.apply ⟨index, now, .enqueue request.queueName id request.group request.priority request.content request.metadata⟩ =
      some (.response r, f')) (hok : r.error = none) :
    AnswerFor leading request { r.message with group := request.group } ∧ r.queueName = request.queueName := by
  obtain ⟨group', rfl⟩ := enqueue_answer hsafe h hok
  exact ⟨⟨rfl, fun _ => rfl, fun _ => hid⟩, rfl⟩

variable {leading : Bool} {a : Receipts} {answered requests : List EnqueueRequest} {messages : List (String × UInt64)}

/-- A step that leaves the account as it is and owes the same. -/
theorem Fits.silent (h : Fits leading a answered requests messages s) (hnext : a.next act out = a)
    (howes : Owes leading requests messages s') :
    ∃ answered' requests' messages', Fits leading (a.next act out) answered' requests' messages' s' := by
  rw [hnext]
  exact ⟨answered, requests, messages, h.received, h.sent, h.stored, howes⟩

theorem Fits.moves (hl : n.leading = leading) (hsafe : n.fsm.Safe) (h : Fits leading a answered requests messages s)
    (hm : Moves n s act out s' n') :
    ∃ answered' requests' messages', Fits leading (a.next act out) answered' requests' messages' s' := by
  have howes := h.owes
  cases hm with
  | receives request =>
    obtain ⟨rfl, rfl⟩ := howes
    exact ⟨answered, [request], [], by simp [Receipts.next, h.received], by simpa [Receipts.next] using h.sent,
      by simpa [Receipts.next, EnqueueStream.stored] using h.stored, rfl, rfl⟩
  | stores index now request command r f happly hok =>
    obtain ⟨rfl, rfl, _, id, hid, rfl⟩ := howes
    obtain ⟨hanswers, hqueue⟩ := AnswerFor.of_stored hsafe leading hid happly hok
    refine ⟨answered, [request], [(request.queueName, r.id)], by simp [Receipts.next, h.received],
      by simpa [Receipts.next] using h.sent, fun hl => ?_, rfl, rfl, hanswers⟩
    simp [Receipts.next, EnqueueStream.stored, hok, hqueue, h.stored hl]
  | gets request m =>
    obtain ⟨rfl, rfl, hnot⟩ := howes
    refine ⟨answered, [request], [(request.queueName, m.id)], by simp [Receipts.next, h.received],
      by simpa [Receipts.next] using h.sent, fun hl => ?_, rfl, rfl, rfl, fun hl => ?_, fun hl => ?_⟩
    all_goals cases hnot.symm.trans hl
  | sends request m =>
    obtain ⟨rfl, rfl, hanswers⟩ := howes
    have hlength := h.sent.length_eq
    refine ⟨answered ++ [request], [], [], by simp [Receipts.next, h.received], ?_, fun hl => ?_, rfl, rfl⟩
    · exact List.rel_append h.sent (.cons hanswers .nil)
    · simp [Receipts.next, EnqueueStream.stored, h.stored hl, List.zipWith_append hlength, label]
  | asks generated request d n' hcall =>
    obtain ⟨rfl, rfl⟩ := howes
    refine h.silent (by simp [Receipts.next, EnqueueStream.stored]) ?_
    have hd := (call_enqueue hcall).2
    cases leading with
    | true =>
      rw [if_pos hl] at hd
      subst hd
      exact ⟨rfl, rfl, rfl, _, fun hne => if_neg hne, rfl⟩
    | false =>
      rw [if_neg (by simp [hl])] at hd
      cases d with
      | append command => exact absurd rfl (hd command)
      | fail e => exact ⟨le_rfl, Nat.zero_le _⟩
      | forward host command => exact ⟨rfl, rfl, rfl⟩
  | ends =>
    obtain ⟨rfl, rfl⟩ := howes
    exact h.silent (by simp [Receipts.next, EnqueueStream.stored]) ⟨Nat.zero_le _, Nat.zero_le _⟩
  | refuses index now request command r f happly herr =>
    obtain ⟨rfl, rfl, _⟩ := howes
    exact h.silent (by simp [Receipts.next, EnqueueStream.stored, herr]) ⟨le_rfl, Nat.zero_le _⟩
  | lost request =>
    obtain ⟨rfl, rfl, _⟩ := howes
    exact h.silent (by simp [Receipts.next, EnqueueStream.stored]) ⟨le_rfl, Nat.zero_le _⟩
  | fails request command =>
    obtain ⟨rfl, rfl, _⟩ := howes
    exact h.silent (by simp [Receipts.next, EnqueueStream.stored]) ⟨le_rfl, Nat.zero_le _⟩
  | breaks request m =>
    obtain ⟨rfl, rfl, _⟩ := howes
    exact h.silent (by simp [Receipts.next, EnqueueStream.stored]) ⟨le_rfl, le_rfl⟩

theorem Owes.length_le (h : Owes leading requests messages s) : requests.length ≤ 1 ∧ messages.length ≤ 1 := by
  cases s with
  | closed => exact h
  | receiving =>
    obtain ⟨rfl, rfl⟩ := h
    simp
  | asking request =>
    obtain ⟨rfl, rfl⟩ := h
    simp
  | _ =>
    obtain ⟨rfl, rfl, _⟩ := h
    simp

/-- A step that stores a message applies its `Enqueue`. -/
theorem entry_of_stored {name : String} (hsafe : n.fsm.Safe) (howes : Owes leading requests messages s)
    (hm : Moves n s act out s' n') (ht : EnqueueStream.stored act out = some (name, id)) :
    ∃ ent r, entry s act = some ent ∧ out = .reply (.response r) ∧ r.error = none ∧ ent.command.queueName = some name ∧
      ent.command.enqueued = some id := by
  cases hm with
  | stores index now request command r f happly hok =>
    obtain ⟨_, _, _, id', _, rfl⟩ := howes
    obtain ⟨group', rfl⟩ := enqueue_answer hsafe happly hok
    cases ht
    exact ⟨_, _, rfl, rfl, rfl, rfl, rfl⟩
  | refuses index now request command r f happly herr => cases (if_neg herr).symm.trans ht
  | _ => cases ht

end EnqueueStream

/-! ## All streams of a node -/

namespace Producers

open EnqueueStream (Receipts Fits AnswerFor label)

def service : Service EnqueueStream EnqueueStream.Act where
  step n s act := s.step n act
  entry := EnqueueStream.entry
  applies _ h := EnqueueStream.applies_of_moves (EnqueueStream.moves_of_step h)

abbrev World := service.World

abbrev Act := service.Act

abbrev World.step : World → Act → Option (Out × World) := service.run

/-- Nobody has sent anything yet. -/
def World.start (n : Node) : World := ⟨n, fun _ => .receiving⟩

variable {n : Node} {w : World} {e : Event World Act Out} {events : List (Event World Act Out)} {i : Nat} {cfg : Config}
  {leaderConfig : LeaderConfig}

abbrev account (i : Nat) : Receipts → Event World Act Out → Receipts := Sessions.along Receipts.next i

/-- The message that a stream stores with a step. -/
abbrev storedOn (i : Nat) : Event World Act Out → Option (String × UInt64) := Sessions.seen EnqueueStream.stored i

theorem fits_of_run (hsafe : n.fsm.Safe) (hrun : Run World.step (.start n) events w) (i : Nat) :
    ∃ answered requests messages,
      Fits n.leading (events.foldl (account i) .empty) answered requests messages (w.session i) := by
  refine Service.history_of Receipts.next
    (I := fun a s => ∃ answered requests messages, Fits n.leading a answered requests messages s) ?_ hrun rfl hsafe
    ⟨[], [], [], rfl, .nil, fun _ => rfl, rfl, rfl⟩
  rintro a n s act out n' s' ho hl hsafe ⟨answered, requests, messages, h⟩
  exact h.moves hl hsafe (EnqueueStream.moves_of_step ho)

/-- What a stream stores is what an entry of the log enqueues. -/
theorem enqueues_of_stored (hsafe : n.fsm.Safe) {later : List (Event World Act Out)}
    (hrun : Run World.step (.start n) (events ++ e :: later) w) {name : String} {id : UInt64}
    (ht : storedOn i e = some (name, id)) : ∃ fe, service.logged e = some fe ∧ FSM.Enqueues name id fe := by
  obtain ⟨hpast, hs, _⟩ := hrun.at_event
  obtain ⟨_, _, _, hfits⟩ := fits_of_run hsafe hpast i
  have hbefore : e.before.shared.fsm.Safe :=
    hpast.keeps (I := fun w => w.shared.fsm.Safe) (fun _ _ hs h => Service.safe_run hs h) hsafe
  obtain ⟨act, hin, ht⟩ := Sessions.seen_eq_some.mp ht
  obtain ⟨ent, r, hent, hout, hok, hname, hid⟩ :=
    EnqueueStream.entry_of_stored hbefore hfits.owes (EnqueueStream.moves_of_step (Sessions.own_step hs hin)) ht
  exact ⟨_, Service.logged_own hin hent hout, hname, hid, r, rfl, hok⟩

theorem producer_accounts (hn : n.fsm = .new cfg leaderConfig) (hrun : Run World.step (.start n) events w) (i : Nat) :
    let a := events.foldl (account i) .empty
    ∃ answered requests, a.received = answered ++ requests ∧ requests.length ≤ 1 ∧
      List.Forall₂ (AnswerFor n.leading) answered a.sent ∧
      FSM.Runs (.new cfg leaderConfig) (events.filterMap service.logged) w.shared.fsm ∧
      (n.leading = true → ∃ messages, a.stored = List.zipWith label answered a.sent ++ messages ∧ messages.length ≤ 1) ∧
      ∀ e ∈ events, ∀ name id, storedOn i e = some (name, id) →
        ∃ fe, service.logged e = some fe ∧ FSM.Enqueues name id fe := by
  intro a
  have hsafe : n.fsm.Safe := hn ▸ FSM.new_safe cfg leaderConfig
  obtain ⟨answered, requests, messages, hfits⟩ := fits_of_run hsafe hrun i
  obtain ⟨hrequests, hmessages⟩ := hfits.owes.length_le
  refine ⟨answered, requests, hfits.received, hrequests, hfits.sent, ?_, fun hl => ⟨messages, hfits.stored hl, hmessages⟩, ?_⟩
  · rw [← hn]
    exact Service.runs_logged hsafe hrun
  · intro e he name id ht
    obtain ⟨earlier, later, rfl⟩ := List.append_of_mem he
    exact enqueues_of_stored hsafe hrun ht

/-- The second of two messages is stored, and the producer is gone before the answer is sent. -/
def halfAnswered : List Act :=
  [.aside ⟨1, 0, .createQueue "jobs" "delayed" FSM.plain⟩, .own 0 (.recv (some ⟨"jobs", 0, "a", 5, "x", none⟩)), .own 0 (.ask 77),
    .own 0 (.apply 2 0), .own 0 (.send true), .own 0 (.recv (some ⟨"jobs", 9, "b", 5, "y", none⟩)), .own 0 (.ask 78),
    .own 0 (.apply 3 0), .own 0 (.send false)]

theorem halfAnswered_runs : (exec World.step (.start leader) halfAnswered).isSome := rfl

theorem producer_accounts_half :
    let r := (exec World.step (.start leader) halfAnswered).get halfAnswered_runs
    let a := r.1.foldl (account 0) .empty
    a.sent = [⟨"a", 77, 5, "x", none, 0⟩] ∧ a.stored = [("jobs", 77), ("jobs", 9)] ∧ a.received.length = 2 ∧
      ∃ answered requests, a.received = answered ++ requests ∧ requests.length ≤ 1 ∧
        List.Forall₂ (AnswerFor true) answered a.sent ∧
        ∃ e ∈ r.1, ∃ fe, service.logged e = some fe ∧ FSM.Enqueues "jobs" 9 fe := by
  intro r a
  obtain ⟨answered, requests, hreceived, hrequests, hsent, _, _, henqueues⟩ :=
    producer_accounts rfl (Run.of_exec_isSome halfAnswered_runs) 0
  have hmem : r.1.get ⟨7, by decide⟩ ∈ r.1 := List.get_mem _ _
  exact ⟨rfl, rfl, rfl, answered, requests, hreceived, hrequests, hsent, _, hmem, henqueues _ hmem _ _ rfl⟩

end Producers

end Doq
