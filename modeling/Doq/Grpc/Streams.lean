/-
  Doq.Grpc.Streams — consumers that take messages over a stream (`DequeueStream` of
  `pkg/grpc/server.go`, on top of the node's methods).

  The server's loop takes the queue's wake channel, asks for a message, sends it and waits for
  the consumer to ask for the next one; without a message it waits and tries again. Any number
  of streams run beside each other and beside other clients' commands, and between any two steps
  of one of them the others may take theirs. A stream may break at each of its steps.

  Proved:
  - `stream_accounts`: what a stream has taken from the queue is what it has sent, in that order,
    and at most one message more, and it never takes one that the consumer did not ask for.
  - `streams_exclusive`: a message that the leader's streams take twice, on one of them or on two,
    was nacked, timed out or enqueued again in between, if the entries are such as the queue can
    be tracked by (`Admits`).
-/

import Doq.Grpc.Serving

namespace Doq

open Lib Serving

/-- Where the loop of a stream is. `notify` is the channel it has taken, none if the queue is not
    there. -/
inductive Phase where
  | opening
  | looping
  | asking (notify : Option Nat)
  | applying (notify : Option Nat)
  | forwarded (notify : Option Nat)
  | waiting (notify : Option Nat)
  | holding (message : Message)
  | signalling
  /-- The stream is over; a message it could not send. -/
  | closed (lost : Option Message)
  deriving DecidableEq, Repr

structure DequeueStream where
  queueName : String
  ack : Bool
  phase : Phase
  deriving DecidableEq, Repr

/-- `NotifyChan`. -/
def Node.notifyChan (n : Node) (queueName : String) : Go (Option Nat × Node) := do
  let (r, qm) ← n.fsm.queueManager.getQueue queueName
  let n := { n with fsm := { n.fsm with queueManager := qm } }
  match r with
  | .error _ => some (none, n)
  | .ok q => some (some q.notifyCh, n)

/-- Where a stream is when its call was dispatched. -/
def Dispatch.phase (notify : Option Nat) : Dispatch → Phase
  | .fail _ => .waiting notify
  | .append _ => .applying notify
  | .forward _ _ => .forwarded notify

namespace DequeueStream

inductive Act where
  /-- The consumer sends a request, or its end of the stream is gone. -/
  | recv (request : Option (String × Bool))
  | done
  | grab
  | ask (clock : Int)
  /-- The entry of the stream's `Dequeue` is applied. -/
  | apply (index : UInt64) (now : Int)
  /-- The node that the call was forwarded to answers, or the call fails. -/
  | answer (message : Option Message)
  /-- The channel was closed or the time is over. -/
  | wake
  | send (ok : Bool)
  deriving DecidableEq

/-- A step of the stream on its node. Only the first request names the queue. -/
def step (n : Node) (s : DequeueStream) : Act → Option (Out × Node × DequeueStream)
  | .recv request =>
    match s.phase, request with
    | .opening, some (queueName, ack) =>
      some (.nothing, n, if queueName ≠ "" then ⟨queueName, ack, .looping⟩ else { s with phase := .looping })
    | .signalling, some _ => some (.nothing, n, { s with phase := .looping })
    | .opening, none | .signalling, none => some (.nothing, n, { s with phase := .closed none })
    | _, _ => none
  | .done =>
    match s.phase with
    | .looping | .waiting _ => some (.nothing, n, { s with phase := .closed none })
    | _ => none
  | .grab =>
    match s.phase with
    | .looping => do
      let (notify, n) ← n.notifyChan s.queueName
      some (.nothing, n, { s with phase := .asking notify })
    | _ => none
  | .ask clock =>
    match s.phase with
    | .asking notify => do
      let (d, n) ← n.call clock 0 (.dequeue s.queueName s.ack)
      some (.nothing, n, { s with phase := d.phase notify })
    | _ => none
  | .apply index now =>
    match s.phase with
    | .applying notify => do
      let (reply, f) ← n.fsm.apply ⟨index, now, .dequeue s.queueName s.ack⟩
      let n := { n with fsm := f }
      match reply with
      | .response r =>
        if r.error = none then some (.reply reply, n, { s with phase := .holding r.message })
        else some (.reply reply, n, { s with phase := .waiting notify })
      | _ => none
    | _ => none
  | .answer message =>
    match s.phase, message with
    | .forwarded _, some message => some (.nothing, n, { s with phase := .holding message })
    | .forwarded notify, none | .applying notify, none => some (.nothing, n, { s with phase := .waiting notify })
    | _, _ => none
  | .wake =>
    match s.phase with
    | .waiting _ => some (.nothing, n, { s with phase := .looping })
    | _ => none
  | .send ok =>
    match s.phase with
    | .holding message =>
      if ok then some (.sent message, n, { s with phase := .signalling })
      else some (.nothing, n, { s with phase := .closed (some message) })
    | _ => none

/-- The message that a step takes. -/
def took : Act → Out → Option Message
  | .apply _ _, .reply (.response r) => if r.error = none then some r.message else none
  | .answer (some m), _ => some m
  | _, _ => none

/-- The message that a step sends. -/
def sent : Act → Out → Option Message
  | .send _, .sent m => some m
  | _, _ => none

/-- The consumer asks for a message. -/
def asks : Act → Bool
  | .recv (some _) => true
  | _ => false

/-- A message that a stream has taken and not sent. -/
def inHand : Phase → List Message
  | .holding m => [m]
  | .closed (some m) => [m]
  | _ => []

/-- The stream was asked for a message and has none yet. -/
def Busy : Phase → Prop
  | .looping | .asking _ | .applying _ | .forwarded _ | .waiting _ => True
  | _ => False

/-- What a step can be. -/
inductive Moves (n : Node) (s : DequeueStream) : Act → Out → Node → DequeueStream → Prop
  | opens (request : String × Bool) (queueName : String) (ack : Bool) (hp : s.phase = .opening) :
      Moves n s (.recv (some request)) .nothing n ⟨queueName, ack, .looping⟩
  | signals (request : String × Bool) (hp : s.phase = .signalling) :
      Moves n s (.recv (some request)) .nothing n { s with phase := .looping }
  | leaves (hp : s.phase = .opening ∨ s.phase = .signalling) : Moves n s (.recv none) .nothing n { s with phase := .closed none }
  | ends (hp : Busy s.phase) : Moves n s .done .nothing n { s with phase := .closed none }
  | grabs (notify : Option Nat) (n' : Node) (hp : s.phase = .looping) (h : n.notifyChan s.queueName = some (notify, n')) :
      Moves n s .grab .nothing n' { s with phase := .asking notify }
  | tries (clock : Int) (notify : Option Nat) (d : Dispatch) (n' : Node) (hp : s.phase = .asking notify)
      (h : n.call clock 0 (.dequeue s.queueName s.ack) = some (d, n')) :
      Moves n s (.ask clock) .nothing n' { s with phase := d.phase notify }
  | takes (index : UInt64) (now : Int) (notify : Option Nat) (r : FSMResponse) (f : FSM) (hp : s.phase = .applying notify)
      (h : n.fsm.apply ⟨index, now, .dequeue s.queueName s.ack⟩ = some (.response r, f)) (hok : r.error = none) :
      Moves n s (.apply index now) (.reply (.response r)) { n with fsm := f } { s with phase := .holding r.message }
  | misses (index : UInt64) (now : Int) (notify : Option Nat) (r : FSMResponse) (f : FSM) (hp : s.phase = .applying notify)
      (h : n.fsm.apply ⟨index, now, .dequeue s.queueName s.ack⟩ = some (.response r, f)) (herr : r.error ≠ none) :
      Moves n s (.apply index now) (.reply (.response r)) { n with fsm := f } { s with phase := .waiting notify }
  | gets (m : Message) (notify : Option Nat) (hp : s.phase = .forwarded notify) :
      Moves n s (.answer (some m)) .nothing n { s with phase := .holding m }
  | fails (notify : Option Nat) (hp : s.phase = .forwarded notify ∨ s.phase = .applying notify) :
      Moves n s (.answer none) .nothing n { s with phase := .waiting notify }
  | wakes (notify : Option Nat) (hp : s.phase = .waiting notify) : Moves n s .wake .nothing n { s with phase := .looping }
  | sends (m : Message) (hp : s.phase = .holding m) : Moves n s (.send true) (.sent m) n { s with phase := .signalling }
  | breaks (m : Message) (hp : s.phase = .holding m) :
      Moves n s (.send false) .nothing n { s with phase := .closed (some m) }

variable {n n' : Node} {s s' : DequeueStream} {act : Act} {out : Out}

theorem moves_of_step (h : s.step n act = some (out, n', s')) : Moves n s act out n' s' := by
  cases act with
  | recv request =>
    cases hp : s.phase <;> cases request <;> simp only [step, hp, Option.some.injEq, Prod.mk.injEq, reduceCtorEq] at h
    all_goals obtain ⟨rfl, rfl, rfl⟩ := h
    · exact .leaves (Or.inl hp)
    · split
      · exact .opens _ _ _ hp
      · exact .opens _ _ _ hp
    · exact .leaves (Or.inr hp)
    · exact .signals _ hp
  | done =>
    cases hp : s.phase <;> simp only [step, hp, Option.some.injEq, Prod.mk.injEq, reduceCtorEq] at h
    all_goals
      obtain ⟨rfl, rfl, rfl⟩ := h
      exact .ends (by rw [hp]; trivial)
  | grab =>
    cases hp : s.phase <;> simp only [step, hp, reduceCtorEq] at h
    obtain ⟨⟨notify, n₁⟩, hget, h⟩ := Option.bind_eq_some_iff.mp h
    cases h
    exact .grabs notify _ hp hget
  | ask clock =>
    cases hp : s.phase <;> simp only [step, hp, reduceCtorEq] at h
    obtain ⟨⟨d, n₁⟩, hcall, h⟩ := Option.bind_eq_some_iff.mp h
    cases h
    exact .tries clock _ d _ hp hcall
  | apply index now =>
    cases hp : s.phase <;> simp only [step, hp, reduceCtorEq] at h
    obtain ⟨⟨reply, f⟩, happly, h⟩ := Option.bind_eq_some_iff.mp h
    dsimp only at h
    split at h
    · split at h
      · rename_i hok
        cases h
        exact .takes index now _ _ f hp happly hok
      · rename_i herr
        cases h
        exact .misses index now _ _ f hp happly herr
    · cases h
  | answer message =>
    cases hp : s.phase <;> cases message <;> simp only [step, hp, Option.some.injEq, Prod.mk.injEq, reduceCtorEq] at h
    all_goals obtain ⟨rfl, rfl, rfl⟩ := h
    · exact .fails _ (Or.inr hp)
    · exact .fails _ (Or.inl hp)
    · exact .gets _ _ hp
  | wake =>
    cases hp : s.phase <;> simp only [step, hp, Option.some.injEq, Prod.mk.injEq, reduceCtorEq] at h
    obtain ⟨rfl, rfl, rfl⟩ := h
    exact .wakes _ hp
  | send ok =>
    cases hp : s.phase <;> simp only [step, hp, reduceCtorEq] at h
    cases ok <;> cases h
    · exact .breaks _ hp
    · exact .sends _ hp

/-- What a stream has taken and sent, and how often it was asked. -/
structure Account where
  taken : List Message
  sent : List Message
  asked : Nat

namespace Account

def empty : Account := ⟨[], [], 0⟩

def next (a : Account) (act : Act) (out : Out) : Account :=
  ⟨a.taken ++ (took act out).toList, a.sent ++ (DequeueStream.sent act out).toList, if asks act then a.asked + 1 else a.asked⟩

/-- From a request to its message the stream owes one. -/
def Owes (a : Account) : Phase → Prop
  | .opening => a.asked = 0 ∧ a.sent = []
  | .signalling => a.asked = a.sent.length
  | .closed none => a.sent.length ≤ a.asked
  | _ => a.asked = a.sent.length + 1

/-- Where the stream is says how the three compare. -/
structure Fits (a : Account) (phase : Phase) : Prop where
  taken : a.taken = a.sent ++ inHand phase
  asked : a.Owes phase

theorem empty_fits : Fits empty .opening := ⟨rfl, rfl, rfl⟩

variable {a : Account} {phase : Phase}

theorem fits_busy (hb : Busy phase) : Fits a phase ↔ a.taken = a.sent ∧ a.asked = a.sent.length + 1 := by
  have hnone : inHand phase = [] := by cases phase <;> first | exact hb.elim | rfl
  have howes : a.Owes phase ↔ a.asked = a.sent.length + 1 := by cases phase <;> first | exact hb.elim | rfl
  rw [← howes, ← List.append_nil a.sent, ← hnone]
  exact ⟨fun h => ⟨h.taken, h.asked⟩, fun h => ⟨h.1, h.2⟩⟩

theorem next_same (a : Account) (ht : took act out = none) (hs : DequeueStream.sent act out = none) (ha : asks act = false) :
    a.next act out = a := by
  simp [next, ht, hs, ha]

theorem Fits.moves (h : Fits a s.phase) (hm : Moves n s act out n' s') : Fits (a.next act out) s'.phase := by
  have htaken := h.taken
  have hasked := h.asked
  -- Most steps are between two busy phases, and the account stays as it is.
  have hbusy : Busy s.phase → Busy s'.phase → a.next act out = a → Fits (a.next act out) s'.phase := by
    intro hb hb' hsame
    rw [hsame, fits_busy hb', ← fits_busy hb]
    exact h
  cases hm with
  | opens request queueName ack hp =>
    rw [hp] at htaken hasked
    exact ⟨by simpa [next, took, DequeueStream.sent, inHand] using htaken,
      by simp [Owes, next, DequeueStream.sent, asks, hasked.1, hasked.2]⟩
  | signals request hp =>
    rw [hp] at htaken hasked
    exact ⟨by simpa [next, took, DequeueStream.sent, inHand] using htaken,
      by simpa [Owes, next, DequeueStream.sent, asks] using hasked⟩
  | leaves hp =>
    rcases hp with hp | hp <;> rw [hp] at htaken hasked <;> rw [next_same a rfl rfl rfl]
    · exact ⟨htaken, by simp [Owes, hasked.2]⟩
    · exact ⟨htaken, hasked.ge⟩
  | ends hp =>
    obtain ⟨ht, ha⟩ := (fits_busy hp).mp h
    rw [next_same a rfl rfl rfl]
    exact ⟨by simpa [inHand] using ht, by simp [Owes, ha]⟩
  | takes index now notify r f hp happly hok =>
    rw [hp] at htaken hasked
    exact ⟨by simpa [next, took, DequeueStream.sent, inHand, hok] using htaken,
      by simpa [Owes, next, DequeueStream.sent, asks] using hasked⟩
  | misses index now notify r f hp happly herr =>
    exact hbusy (by rw [hp]; trivial) trivial (next_same a (if_neg herr) rfl rfl)
  | gets m notify hp =>
    rw [hp] at htaken hasked
    exact ⟨by simpa [next, took, DequeueStream.sent, inHand] using htaken,
      by simpa [Owes, next, DequeueStream.sent, asks] using hasked⟩
  | sends m hp =>
    rw [hp] at htaken hasked
    exact ⟨by simpa [next, took, DequeueStream.sent, inHand] using htaken,
      by simpa [Owes, next, DequeueStream.sent, asks] using hasked⟩
  | breaks m hp =>
    rw [hp] at htaken hasked
    rw [next_same a rfl rfl rfl]
    exact ⟨htaken, hasked⟩
  | grabs notify n' hp hget => exact hbusy (by rw [hp]; trivial) trivial (next_same a rfl rfl rfl)
  | tries clock notify d n' hp hcall => exact hbusy (by rw [hp]; trivial) (by cases d <;> trivial) (next_same a rfl rfl rfl)
  | fails notify hp => exact hbusy (by rcases hp with hp | hp <;> rw [hp] <;> trivial) trivial (next_same a rfl rfl rfl)
  | wakes notify hp => exact hbusy (by rw [hp]; trivial) trivial (next_same a rfl rfl rfl)

/-- Nothing is taken that was not asked for. -/
theorem Fits.taken_le (h : Fits a phase) : a.taken.length ≤ a.asked := by
  have hasked := h.asked
  rw [h.taken, List.length_append]
  cases phase with
  | opening => simp [hasked.2, inHand]
  | closed lost =>
    cases lost with
    | none => simpa [inHand, Owes] using hasked
    | some m => exact hasked.ge
  | signalling => exact hasked.ge
  | holding m => exact hasked.ge
  | _ => exact (Nat.le_succ _).trans hasked.ge

end Account

end DequeueStream

/-! ## All streams of a node -/

namespace Streams

open DequeueStream (Account took)

variable {n n' : Node} {s s' : DequeueStream} {act : DequeueStream.Act} {out : Out} {queueName : String} {notify : Option Nat}

/-- Looking a queue up changes nothing: all of them are in memory. -/
theorem getQueue_same {f : FSM} (hsafe : f.Safe) {r : Except Err Queue} {qm : QueueManager}
    (h : f.queueManager.getQueue queueName = some (r, qm)) : qm = f.queueManager := by
  unfold QueueManager.getQueue at h
  split at h
  · cases h
    rfl
  · rename_i hq
    have hs := (hsafe.missing queueName hq).1
    simp only [Queue.load, Storage.Store.loadQueue, Storage.noFaults, hs, Bool.false_eq_true, if_false, Option.bind_eq_bind,
      Option.bind_some, Option.some.injEq, Prod.mk.injEq] at h
    exact h.2.symm

theorem notifyChan_same (hsafe : n.fsm.Safe) (h : n.notifyChan queueName = some (notify, n')) : n' = n := by
  unfold Node.notifyChan at h
  obtain ⟨⟨r, qm⟩, hget, h⟩ := Option.bind_eq_some_iff.mp h
  obtain rfl := getQueue_same hsafe hget
  dsimp only at h
  split at h <;> cases h <;> rfl

theorem call_dequeue_same (hsafe : n.fsm.Safe) {clock : Int} {ack : Bool} {d : Dispatch}
    (h : n.call clock 0 (.dequeue queueName ack) = some (d, n')) :
    n' = n ∧ (n.leading = true → ∀ host request, d ≠ .forward host request) := by
  obtain ⟨⟨ready, n₁⟩, hready, h⟩ := Option.bind_eq_some_iff.mp h
  have hsame : n₁ = n := by
    obtain ⟨⟨r, qm⟩, hget, hready⟩ := Option.bind_eq_some_iff.mp hready
    obtain rfl := getQueue_same hsafe hget
    dsimp only at hready
    split at hready
    · cases hready
      rfl
    · obtain ⟨_, _, hready⟩ := Option.bind_eq_some_iff.mp hready
      cases hready
      rfl
  subst hsame
  cases ready with
  | true =>
    cases h
    refine ⟨rfl, fun hl host request => ?_⟩
    simp [Node.dispatch, hl]
  | false =>
    cases h
    exact ⟨rfl, fun _ _ _ => by simp⟩

/-- The entry of a stream's `Dequeue`. -/
def entry (s : DequeueStream) : DequeueStream.Act → Option Entry
  | .apply index now => some ⟨index, now, .dequeue s.queueName s.ack⟩
  | _ => none

theorem applies_of_moves (hsafe : n.fsm.Safe) (h : s.Moves n act out n' s') : Applies n (entry s act) out n' := by
  cases h with
  | takes index now notify r f hp happly hok => exact .one happly
  | misses index now notify r f hp happly herr => exact .one happly
  | grabs notify n' hp hget =>
    obtain rfl := notifyChan_same hsafe hget
    exact .nothing _ _
  | tries clock notify d n' hp hcall =>
    obtain ⟨rfl, _⟩ := call_dequeue_same hsafe hcall
    exact .nothing _ _
  | _ => exact .nothing _ _

def service : Service DequeueStream DequeueStream.Act where
  step n s act := s.step n act
  entry := entry
  applies hsafe h := applies_of_moves hsafe (DequeueStream.moves_of_step h)

abbrev World := service.World

abbrev Act := service.Act

abbrev World.step : World → Act → Option (Out × World) := service.run

/-- Nobody has opened a stream yet. -/
def World.start (n : Node) : World := ⟨n, fun _ => ⟨"", false, .opening⟩⟩

variable {w w' : World} {e : Event World Act Out} {events : List (Event World Act Out)} {i : Nat}

/-- The account of a stream, after one more step of the node. -/
abbrev account (i : Nat) : Account → Event World Act Out → Account := Sessions.along Account.next i

/-- The entry that a step applies. -/
abbrev logged : Event World Act Out → Option (Event FSM Entry Reply) := service.logged

theorem fits_of_run (hsafe : n.fsm.Safe) (hrun : Run World.step (.start n) events w) (i : Nat) :
    (events.foldl (account i) .empty).Fits (w.session i).phase :=
  Service.history_of Account.next (I := fun a s => a.Fits s.phase)
    (fun _ _ _ _ _ _ _ ho _ _ h => h.moves (DequeueStream.moves_of_step ho)) hrun rfl hsafe Account.empty_fits

/-- The message that a stream takes with a step. -/
abbrev tookOn (i : Nat) : Event World Act Out → Option Message := Sessions.seen took i

/-- On the leader no call is forwarded. -/
theorem not_forwarded_of_moves (hsafe : n.fsm.Safe) (hl : n.leading = true) (h : s.Moves n act out n' s')
    (notify : Option Nat) : s'.phase ≠ .forwarded notify := by
  cases h with
  | tries clock _ d n' hphase hcall =>
    have hnot := (call_dequeue_same hsafe hcall).2 hl
    cases d with
    | forward host request => exact absurd rfl (hnot host request)
    | _ => simp [Dispatch.phase]
  | _ => simp

/-- So a message is taken there by an entry. -/
theorem entry_of_took {m : Message} (hp : ∀ notify, s.phase ≠ .forwarded notify) (h : s.Moves n act out n' s')
    (ht : took act out = some m) :
    ∃ ent r, entry s act = some ent ∧ ent.command = .dequeue s.queueName s.ack ∧ out = .reply (.response r) ∧ r.error = none ∧
      r.id = m.id := by
  cases h with
  | takes index now notify r f hphase happly hok =>
    have hm : some r.message = some m := (if_pos hok).symm.trans ht
    obtain rfl := Option.some.inj hm
    exact ⟨_, r, rfl, rfl, rfl, hok, rfl⟩
  | misses index now notify r f hphase happly herr => cases (if_neg herr).symm.trans ht
  | gets m notify hphase => exact absurd hphase (hp notify)
  | _ => cases ht

variable {cfg : Config} {leaderConfig : LeaderConfig}

/-- A message that a stream on the leader takes is one that an entry of its log delivers. -/
theorem delivers_of_took (hsafe : n.fsm.Safe) (hl : n.leading = true) {later : List (Event World Act Out)}
    (hrun : Run World.step (.start n) (events ++ e :: later) w) {m : Message} (ht : tookOn i e = some m) :
    ∃ fe, logged e = some fe ∧ FSM.Delivers (e.before.session i).queueName m.id fe := by
  obtain ⟨hpast, hs, _⟩ := hrun.at_event
  obtain ⟨act, hin, ht⟩ := Sessions.seen_eq_some.mp ht
  have hp : ∀ notify, (e.before.session i).phase ≠ .forwarded notify :=
    Service.stream_keeps (P := fun s => ∀ notify, s.phase ≠ .forwarded notify)
      (fun _ _ _ _ _ _ ho hl hsafe _ => not_forwarded_of_moves hsafe hl (DequeueStream.moves_of_step ho)) hpast hl hsafe
      fun _ => Phase.noConfusion
  obtain ⟨ent, r, hent, hcommand, hout, hok, hid⟩ :=
    entry_of_took hp (DequeueStream.moves_of_step (Sessions.own_step hs hin)) ht
  exact ⟨_, Service.logged_own hin hent hout, _, r, hcommand, rfl, hok, hid⟩

theorem stream_accounts (hn : n.fsm = .new cfg leaderConfig) (hrun : Run World.step (.start n) events w) (i : Nat) :
    let a := events.foldl (account i) .empty
    a.taken = a.sent ++ DequeueStream.inHand (w.session i).phase ∧ a.taken.length ≤ a.asked ∧
      FSM.Runs (.new cfg leaderConfig) (events.filterMap logged) w.shared.fsm ∧
      (n.leading = true → ∀ e ∈ events, ∀ m, tookOn i e = some m →
        ∃ fe, logged e = some fe ∧ FSM.Delivers (e.before.session i).queueName m.id fe) := by
  intro a
  have hsafe : n.fsm.Safe := hn ▸ FSM.new_safe cfg leaderConfig
  have hfits := fits_of_run hsafe hrun i
  refine ⟨hfits.taken, hfits.taken_le, ?_, ?_⟩
  · rw [← hn]
    exact Service.runs_logged hsafe hrun
  · intro hl e he m ht
    obtain ⟨earlier, later, rfl⟩ := List.append_of_mem he
    exact delivers_of_took hsafe hl hrun ht

/-- A message is sent on one stream, nacked, and then taken for another stream. -/
def sentTwice : List Act :=
  [.aside ⟨1, 0, .createQueue "jobs" "delayed" FSM.plain⟩, .aside ⟨2, 0, .enqueue "jobs" 1 "" 0 "" none⟩,
    .own 0 (.recv (some ("jobs", false))), .own 0 .grab, .own 0 (.ask 0), .own 0 (.apply 3 0), .own 0 (.send true),
    .aside ⟨4, 0, .nack "jobs" 1 0 none⟩, .own 1 (.recv (some ("jobs", false))), .own 1 .grab, .own 1 (.ask 0),
    .own 1 (.apply 5 0)]

theorem sentTwice_runs : (exec World.step (.start leader) sentTwice).isSome := rfl

theorem stream_accounts_second :
    let r := (exec World.step (.start leader) sentTwice).get sentTwice_runs
    let a := r.1.foldl (account 1) .empty
    a.taken.map Message.id = [1] ∧ a.sent = [] ∧ a.taken = a.sent ++ DequeueStream.inHand (r.2.session 1).phase ∧
      a.taken.length ≤ a.asked ∧ ∃ e ∈ r.1, ∃ fe, logged e = some fe ∧ FSM.Delivers "jobs" 1 fe := by
  intro r a
  obtain ⟨htaken, hasked, _, hdelivers⟩ := stream_accounts rfl (Run.of_exec_isSome sentTwice_runs) 1
  have hlast : r.1.getLast (by decide) ∈ r.1 := List.getLast_mem _
  exact ⟨rfl, rfl, htaken, hasked, _, hlast, hdelivers rfl _ hlast _ rfl⟩

theorem streams_exclusive {name : String} {i j : Nat} {before between later : List (Event World Act Out)}
    {e₁ e₂ : Event World Act Out} {m₁ m₂ : Message} (hn : n.fsm = .new cfg leaderConfig) (hl : n.leading = true)
    (hrun : Run World.step (.start n) (before ++ e₁ :: (between ++ e₂ :: later)) w)
    (hok : ∀ fe ∈ (before ++ e₁ :: (between ++ e₂ :: later)).filterMap logged, FSM.Admits name fe.before fe.input)
    (ht₁ : tookOn i e₁ = some m₁) (hi : (e₁.before.session i).queueName = name)
    (ht₂ : tookOn j e₂ = some m₂) (hj : (e₂.before.session j).queueName = name) (hid : m₁.id = m₂.id) :
    ∃ e ∈ between, ∃ fe, logged e = some fe ∧ (FSM.Fails name m₁.id fe ∨ FSM.Enqueues name m₁.id fe) := by
  have hsafe : n.fsm.Safe := hn ▸ FSM.new_safe cfg leaderConfig
  obtain ⟨fe₁, hl₁, hd₁⟩ := delivers_of_took hsafe hl hrun ht₁
  have hassoc : before ++ e₁ :: (between ++ e₂ :: later) = (before ++ e₁ :: between) ++ e₂ :: later := by simp
  obtain ⟨fe₂, hl₂, hd₂⟩ := delivers_of_took hsafe hl (hassoc ▸ hrun) ht₂
  rw [hi] at hd₁
  rw [hj, ← hid] at hd₂
  have hlog : (before ++ e₁ :: (between ++ e₂ :: later)).filterMap logged =
      before.filterMap logged ++ fe₁ :: (between.filterMap logged ++ fe₂ :: later.filterMap logged) := by
    simp [List.filterMap_append, List.filterMap_cons_some hl₁, List.filterMap_cons_some hl₂]
  have hruns := Service.runs_logged hsafe hrun
  rw [hlog] at hruns hok
  change FSM.Runs n.fsm _ _ at hruns
  rw [hn] at hruns
  by_contra hno
  -- Nothing logged in between ends the first delivery, so the message is still out.
  have hquiet : ∀ fe ∈ between.filterMap logged, ¬ FSM.Enqueues name m₁.id fe ∧ ¬ FSM.Fails name m₁.id fe := by
    intro fe hfe
    obtain ⟨e, he, hle⟩ := List.mem_filterMap.mp hfe
    exact ⟨fun h => hno ⟨e, he, fe, hle, Or.inr h⟩, fun h => hno ⟨e, he, fe, hle, Or.inl h⟩⟩
  obtain ⟨ob, ob', hout, _, hm, _⟩ := hruns.between hok (P := FSM.Out m₁.id) (fun _ _ _ hm => (hd₁.moved hm).2.1)
    fun fe hfe _ _ hP hm => hP.step hm (hquiet fe hfe).1 (hquiet fe hfe).2
  obtain ⟨⟨b, msg, rfl, hr⟩, _⟩ := hd₂.moved hm
  exact hout b rfl _ hr rfl

theorem streams_exclusive_nacked :
    let events := ((exec World.step (.start leader) sentTwice).get sentTwice_runs).1
    ∃ e ∈ (events.drop 6).take 5, ∃ fe, logged e = some fe ∧ (FSM.Fails "jobs" 1 fe ∨ FSM.Enqueues "jobs" 1 fe) := by
  intro events
  have hok : ∀ fe ∈ events.filterMap logged, FSM.Admits "jobs" fe.before fe.input := by decide
  exact @streams_exclusive leader _ _ _ "jobs" 0 1 (events.take 5) ((events.drop 6).take 5) [] _ _ _ _ rfl rfl
    (Run.of_exec_isSome sentTwice_runs) hok rfl rfl rfl rfl rfl

end Streams

end Doq
