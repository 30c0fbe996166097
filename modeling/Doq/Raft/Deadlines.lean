/-
  Doq.Raft.Deadlines — ack deadlines over runs (`Queue.Dequeue`, `Queue.Touch`,
  `Queue.UpdatePriority`, `Queue.AckTimeout`).

  The deadline of a message in flight is the priority of its item in the ack queue.
  `lastDeadline` is what it should be: the append time of the message's last delivery or
  touch and the ack timeout in force at that entry.

  Proved, for runs from the empty state in which no id that a queue holds is enqueued again,
  with any groups:
  - `deadlines_hold`: if no `UpdatePriority` names a message in flight, or only with its
    deadline, then every deadline is `lastDeadline` and the ack queue is in heap order.
  - `updatePriority_moves_deadline`: one that does overwrites the deadline and breaks the
    heap order.
  - `expiry_not_early`: an `AckTimeout` the leader proposed for a message that was due takes
    no message out of flight before its deadline, if nothing committed in between moved the
    deadline past the append time. `AckTimeout` itself never looks at it:
    `touched_message_expires`.
-/

import Doq.Raft.Step

namespace Doq

open Lib Memory Storage

namespace Memory.PriorityMemoryQueue

/-- Writing the priority an item has changes nothing. -/
theorem itemUpdatePriority_same {pq : PriorityMemoryQueue} {id : UInt64} {it : Item} (h : Found pq id it) :
    pq.itemUpdatePriority id it.priority = pq := by
  obtain ⟨k, hk, hit⟩ := h
  simp only [itemUpdatePriority, hk]
  have hset : (pq.setPriority k it.priority).items = pq.items := by
    apply Array.ext_getElem?
    intro j
    rw [setPriority_getElem?]
    by_cases hj : j = k
    · rw [hj, hit, Option.map_some, if_pos rfl]
    · simp [hj]
  unfold setPriority at hset ⊢
  simp only at hset
  rw [hset]

end Memory.PriorityMemoryQueue

namespace FSM

/-- The message of a queue that an event delivers or touches, and its deadline. -/
def eventDeadline (name : String) (e : Event FSM Entry Reply) : Option (UInt64 × Int) :=
  if e.input.command.queueName = some name then
    match e.before.queueManager.store.queues.lookup name, e.output with
    | some config, .response response => deadlineSet config e.input response
    | _, _ => none
  else none

def setDeadline (deadlines : UInt64 → Option Int) : Option (UInt64 × Int) → UInt64 → Option Int
  | none => deadlines
  | some (id, d) => fun i => if i = id then some d else deadlines i

/-- For each message, the append time of the last event that delivered or touched it and the
    ack timeout in force then. -/
def lastDeadline (name : String) (events : List (Event FSM Entry Reply)) : UInt64 → Option Int :=
  events.foldl (fun deadlines e => setDeadline deadlines (eventDeadline name e)) fun _ => none

/-- The memory queue and the ack queue of a name. -/
def inMemory (f : FSM) (name : String) : Option (MemoryQueue × DelayedQueue) := do
  let q ← f.queueManager.queues.lookup name
  let m ← q.queue
  some (m, q.ackQueue)

theorem inMemory_eq {f : FSM} {name : String} {q : Queue} {m : MemoryQueue} (hq : f.queueManager.queues.lookup name = some q)
    (hm : q.queue = some m) : f.inMemory name = some (m, q.ackQueue) := by
  simp only [inMemory, hq, hm, Option.bind_eq_bind, Option.bind_some]

/-- The entry enqueues no id that the queue holds. -/
def EnqueuesNew (name : String) (f : FSM) (entry : Entry) : Prop :=
  entry.command.queueName = some name → ∀ p ∈ f.inMemory name, ∀ id ∈ entry.command.enqueued, id ∉ Queue.heldIds p.1 p.2

/-- The entry does not give a message in flight a priority other than its deadline. -/
def SparesDeadlines (name : String) (f : FSM) (entry : Entry) : Prop :=
  ∀ u ∈ entry.command.repriced, u.1 = name → ∀ q ∈ f.queueManager.queues.lookup name, ∀ it ∈ q.ackQueue.held,
    it.id = u.2.1 → it.priority = u.2.2

instance (name : String) (f : FSM) (entry : Entry) : Decidable (EnqueuesNew name f entry) := inferInstanceAs (Decidable (_ → _))

instance (name : String) (f : FSM) (entry : Entry) : Decidable (SparesDeadlines name f entry) :=
  inferInstanceAs (Decidable (∀ u ∈ entry.command.repriced, _))

/-- The ack queue holds the given deadlines, in heap order. -/
structure OnTime (deadlines : UInt64 → Option Int) (aq : DelayedQueue) : Prop where
  heaped : aq.queue.Heaped
  held : ∀ it ∈ aq.held, deadlines it.id = some it.priority

variable {deadlines : UInt64 → Option Int} {aq aq' : DelayedQueue} {config : QueueConfig} {entry : Entry} {response : FSMResponse}

theorem AckEffect.onTime (h : AckEffect config entry response aq aq') (hx : aq.queue.Exact) (ho : OnTime deadlines aq)
    (hspare : ∀ n id priority, entry.command = .updatePriority n id priority → ∀ it ∈ aq.held, it.id = id →
      it.priority = priority) :
    OnTime (setDeadline deadlines (deadlineSet config entry response)) aq' := by
  cases h with
  | same hset h => rw [hset, h]; exact ho
  | less id hset h => rw [hset]; exact ⟨h.heaped ho.heaped, fun it hit => ho.held it (h.mem hit)⟩
  | taken id d hset hout h =>
    rw [hset, h]
    refine ⟨ho.heaped, fun it hit => ?_⟩
    have hne : it.id ≠ id := fun e => hout (e ▸ Multiset.mem_map_of_mem _ hit)
    simp only [setDeadline, if_neg hne]
    exact ho.held it hit
  | delivered x hset hout h =>
    rw [hset]
    refine ⟨h.heaped ho.heaped, fun it hit => ?_⟩
    unfold DelayedQueue.held at hit
    rw [h.held] at hit
    simp only [setDeadline]
    rcases Multiset.mem_cons.mp hit with rfl | hit
    · rw [if_pos rfl]
    · have hne : it.id ≠ x.id := fun e => hout (e ▸ Multiset.mem_map_of_mem _ hit)
      rw [if_neg hne]
      exact ho.held it hit
  | touched x d hset hf h hh =>
    rw [hset]
    refine ⟨hh ho.heaped, fun it hit => ?_⟩
    obtain ⟨rest, h1, h2⟩ := h.held
    have hids := hx.nodup
    unfold PriorityMemoryQueue.ids at hids
    rw [h1, Multiset.map_cons] at hids
    unfold DelayedQueue.held at hit
    rw [h2] at hit
    simp only [setDeadline]
    rcases Multiset.mem_cons.mp hit with rfl | hit
    · rw [if_pos rfl]
    · have hne : it.id ≠ x.id := fun e => (Multiset.nodup_cons.mp hids).1 (e ▸ Multiset.mem_map_of_mem _ hit)
      rw [if_neg hne]
      refine ho.held it ?_
      unfold DelayedQueue.held
      rw [h1]
      exact Multiset.mem_cons_of_mem hit
  | overwritten n it priority hc hset hf h =>
    have hp : it.priority = priority := hspare n it.id priority hc it hf.mem rfl
    subst hp
    have hsame : aq.itemUpdatePriority it.id it.priority = aq := by
      unfold DelayedQueue.itemUpdatePriority
      rw [PriorityMemoryQueue.itemUpdatePriority_same hf]
    rw [hset, h, hsame]
    exact ho

/-! ## One step -/

/-- No id is held twice in the queue. -/
structure Separate (name : String) (f : FSM) : Prop where
  safe : Safe f
  distinct : ∀ q m, f.queueManager.queues.lookup name = some q → q.queue = some m → Queue.Distinct m q.ackQueue

/-- How an event changes the ack queue of a queue that is there afterwards. -/
inductive AckStep (name : String) (e : Event FSM Entry Reply) (aq' : DelayedQueue) : Prop
  /-- Nothing is in flight. -/
  | empty (h : aq' = .new false)
  | same (q : Queue) (hq : e.before.queueManager.queues.lookup name = some q) (hset : eventDeadline name e = none)
    (h : aq' = q.ackQueue)
  | effect (q : Queue) (config : QueueConfig) (response : FSMResponse) (hq : e.before.queueManager.queues.lookup name = some q)
      (he : e.input.command.queueName = some name) (hset : eventDeadline name e = deadlineSet config e.input response)
      (hx : q.ackQueue.queue.Exact) (h : AckEffect config e.input response q.ackQueue aq')

variable {name : String} {f : FSM} {e : Event FSM Entry Reply}

theorem lookup_putQueue {q : Queue} {store : Store} : (f.putQueue name q store).queueManager.queues.lookup name = some q := by
  show (f.queueManager.queues.insert name q).lookup name = some q
  rw [FinMap.lookup_insert_eq, if_pos rfl]

/-- An event that names no queue or another one sets no deadline. -/
theorem eventDeadline_none (hne : e.input.command.queueName ≠ some name) : eventDeadline name e = none := if_neg hne

/-- What an event leaves in memory under the name. -/
structure Left (name : String) (e : Event FSM Entry Reply) (q' : Queue) : Prop where
  distinct : ∀ m', q'.queue = some m' → Queue.Distinct m' q'.ackQueue
  ack : AckStep name e q'.ackQueue

theorem Separate.handled (h : Separate name e.before) (he : e.input.command.queueName = some name) {q q' : Queue} {store' : Store}
    {response : FSMResponse} (hq : e.before.queueManager.queues.lookup name = some q)
    (hh : handle q e.before.queueManager.store e.before.queueManager.config e.input = some (response, q', store'))
    (hr : e.output = .response response) (hnew : EnqueuesNew name e.before e.input) : Left name e q' := by
  obtain ⟨config, hc, hserved⟩ := h.safe.queue name q hq
  have hset : eventDeadline name e = deadlineSet config e.input response := by
    unfold eventDeadline
    rw [if_pos he, hc, hr]
  rcases hserved with ⟨_, m, hl⟩ | ⟨_, hi⟩
  · have hret : Returns (handle q e.before.queueManager.store e.before.queueManager.config e.input) _ := Live.handle hl he
    obtain ⟨r, hr', m', hd⟩ := hret
    rw [hh] at hr'; cases hr'
    have hdist := h.distinct q m hq hl.queue_eq
    refine ⟨fun m'' hm'' => ?_, .effect q config response hq he hset hdist.exact (hd.ack hdist)⟩
    rw [hd.live.queue_eq] at hm''; cases hm''
    exact hd.distinct hdist (hnew he (m, q.ackQueue) (inMemory_eq hq hl.queue_eq))
  · have hidle := Idle.handle hi he e.before.queueManager.config
    split at hidle
    · rw [hh] at hidle; cases hidle
    · obtain ⟨r, hr', _⟩ := hidle
      rw [hh] at hr'; cases hr'
      refine ⟨fun m' hm' => ?_, .empty hi.ack⟩
      rw [hi.queue_eq] at hm'; cases hm'

theorem Separate.left (h : Separate name e.before) (hs : e.before.apply e.input = some (e.output, e.after))
    (hnew : EnqueuesNew name e.before e.input) {q' : Queue} (hq' : e.after.queueManager.queues.lookup name = some q') :
    Left name e q' := by
  cases h.safe.seen hs name with
  | elsewhere hne hq _ _ =>
    rw [hq] at hq'
    exact ⟨fun m => h.distinct q' m hq', .same q' hq' (eventDeadline_none fun he => hne (addressed_of_queueName he)) rfl⟩
  | refused hcase hf =>
    rw [hf] at hq'
    refine ⟨fun m => h.distinct q' m hq', .same q' hq' (eventDeadline_none ?_) rfl⟩
    rcases hcase with ⟨hq, _⟩ | hmsg
    · rw [hq] at hq'; cases hq'
    · rw [hmsg]; exact nofun
  | handled q p response store' he hq hh hr hf =>
    rw [hf, lookup_putQueue] at hq'; cases hq'
    exact h.handled he hq hh hr hnew
  | created queueType settings settings' he hq ha hf =>
    rw [hf, lookup_putQueue] at hq'; cases hq'
    refine ⟨fun m hm => ⟨?_, PriorityMemoryQueue.new_exact⟩, .empty rfl⟩
    unfold Queue.heldIds
    rw [(Queue.created_inv hm).2.1]
    exact Multiset.nodup_zero
  | updated q m config settings settings' he hq hc hm ha hf =>
    rw [hf, lookup_putQueue] at hq'; cases hq'
    refine ⟨fun m' hm' => ?_, .same q hq (eventDeadline_none (by rw [he]; exact nofun)) rfl⟩
    cases hm'
    obtain ⟨c, _, hserved⟩ := h.safe.queue name q hq
    rcases hserved with ⟨_, m', hl⟩ | ⟨_, hi⟩
    · rw [hl.queue_eq] at hm; cases hm
      exact (h.distinct q m hq hl.queue_eq).ready_eq (hl.memory.updateMaxUnacked (Queue.limit_toNat _)).2.2
    · rw [hi.queue_eq] at hm; cases hm
  | deleted he hq => rw [hq] at hq'; cases hq'

theorem Separate.step (h : Separate name e.before) (hs : e.before.apply e.input = some (e.output, e.after))
    (hnew : EnqueuesNew name e.before e.input) : Separate name e.after :=
  ⟨h.safe.step hs, fun _ m hq hm => (h.left hs hnew hq).distinct m hm⟩

theorem separate_new (cfg : Config) (leaderConfig : LeaderConfig) : Separate name (new cfg leaderConfig) :=
  ⟨new_safe cfg leaderConfig, fun _ _ h => (nomatch h)⟩

/-! ## Over runs -/

/-- What a run keeps for one queue. -/
structure Timely (name : String) (deadlines : UInt64 → Option Int) (f : FSM) : Prop extends Separate name f where
  onTime : ∀ q, f.queueManager.queues.lookup name = some q → OnTime deadlines q.ackQueue

theorem onTime_new (deadlines : UInt64 → Option Int) : OnTime deadlines (.new false) :=
  ⟨PriorityMemoryQueue.new_heaped, fun it hit => (Multiset.notMem_zero it hit).elim⟩

theorem Timely.step (h : Timely name deadlines e.before) (hs : e.before.apply e.input = some (e.output, e.after))
    (hnew : EnqueuesNew name e.before e.input) (hspare : SparesDeadlines name e.before e.input) :
    Timely name (setDeadline deadlines (eventDeadline name e)) e.after := by
  refine ⟨h.toSeparate.step hs hnew, fun q' hq' => ?_⟩
  cases (h.toSeparate.left hs hnew hq').ack with
  | empty h => rw [h]; exact onTime_new _
  | same q hq hset hsame => rw [hset, hsame]; exact h.onTime q hq
  | effect q config response hq he hset hx heff =>
    rw [hset]
    refine heff.onTime hx (h.onTime q hq) fun n id priority hcmd it hit hid => ?_
    have hn : n = name := by rw [hcmd] at he; exact Option.some.inj he
    exact hspare (n, id, priority) (by rw [hcmd]; rfl) hn q hq it hit hid

theorem Runs.timely {cfg : Config} {leaderConfig : LeaderConfig} {events : List (Event FSM Entry Reply)}
    (h : Runs (new cfg leaderConfig) events f)
    (hok : ∀ e ∈ events, EnqueuesNew name e.before e.input ∧ SparesDeadlines name e.before e.input) :
    Timely name (lastDeadline name events) f :=
  h.history _ (fun _ e he hs hI => hI.step hs (hok e he).1 (hok e he).2) ⟨separate_new cfg leaderConfig, fun _ h => (nomatch h)⟩

theorem deadlines_hold {cfg : Config} {leaderConfig : LeaderConfig} {events : List (Event FSM Entry Reply)} {q : Queue}
    (h : Runs (new cfg leaderConfig) events f)
    (hok : ∀ e ∈ events, EnqueuesNew name e.before e.input ∧ SparesDeadlines name e.before e.input)
    (hq : f.queueManager.queues.lookup name = some q) :
    q.ackQueue.queue.Heaped ∧ ∀ it ∈ q.ackQueue.held, lastDeadline name events it.id = some it.priority :=
  ⟨((h.timely hok).onTime q hq).heaped, ((h.timely hok).onTime q hq).held⟩

/-- Two messages of a delayed queue delivered, at 0 and at 10. -/
def twoDelivered : List Entry :=
  [⟨1, 0, .createQueue "jobs" "delayed" plain⟩, ⟨2, 0, .enqueue "jobs" 1 "" 0 "" none⟩, ⟨3, 0, .enqueue "jobs" 2 "" 0 "" none⟩,
    ⟨4, 0, .dequeue "jobs" false⟩, ⟨5, 10, .dequeue "jobs" false⟩]

theorem twoDelivered_runs : (exec apply (new defaults (.new "n1" "" "")) twoDelivered).isSome := rfl

theorem deadlines_hold_two :
    let r := (exec apply (new defaults (.new "n1" "" "")) twoDelivered).get twoDelivered_runs
    lastDeadline "jobs" r.1 1 = some 60 ∧ lastDeadline "jobs" r.1 2 = some 70 ∧
      ∃ q, r.2.queueManager.queues.lookup "jobs" = some q ∧ q.ackQueue.held.card = 2 ∧ q.ackQueue.queue.Heaped ∧
        ∀ it ∈ q.ackQueue.held, lastDeadline "jobs" r.1 it.id = some it.priority := by
  refine ⟨rfl, rfl, _, rfl, rfl, deadlines_hold (Run.of_exec_isSome twoDelivered_runs) ?_ rfl⟩
  decide

/-- The items of a queue's ack queue, in the order of the heap's slice. -/
def ackItems (f : FSM) (name : String) : Option (List Item) := (f.queueManager.queues.lookup name).map (·.ackQueue.items)

/-- The later of the two, at the head of the heap, gets the priority 5: its deadline is 5, and
    the item below it comes before it. -/
theorem updatePriority_moves_deadline :
    (exec apply (new defaults (.new "n1" "" "")) (twoDelivered ++ [⟨6, 10, .updatePriority "jobs" 2 5⟩])).map
        (fun r => (lastDeadline "jobs" r.1 2, r.2.ackItems "jobs")) =
      some (some 70, some [⟨2, 5, "default"⟩, ⟨1, 60, "default"⟩]) ∧
    PriorityMemoryQueue.before false ⟨1, 60, "default"⟩ ⟨2, 5, "default"⟩ = true := by
  decide

/-! ## Expiry -/

/-- The event gives the message the deadline `d`: by a delivery, by a touch, or by an update of
    its priority while it is in flight. -/
def Moves (name : String) (e : Event FSM Entry Reply) (id : UInt64) (d : Int) : Prop :=
  eventDeadline name e = some (id, d) ∨ e.input.command = .updatePriority name id d

/-- The deadline of the message, if it is in flight, is at most `bound`. -/
def DueBy (name : String) (id : UInt64) (bound : Int) (f : FSM) : Prop :=
  ∀ q, f.queueManager.queues.lookup name = some q → ∀ it ∈ q.ackQueue.held, it.id = id → it.priority ≤ bound

variable {id : UInt64} {bound : Int}

theorem AckEffect.dueBy (h : AckEffect config e.input response aq aq') (he : e.input.command.queueName = some name)
    (hset : eventDeadline name e = deadlineSet config e.input response) (hmove : ∀ d, Moves name e id d → d ≤ bound)
    (hdue : ∀ it ∈ aq.held, it.id = id → it.priority ≤ bound) : ∀ it ∈ aq'.held, it.id = id → it.priority ≤ bound := by
  cases h with
  | same _ h => rw [h]; exact hdue
  | less _ _ h => exact fun it hit => hdue it (h.mem hit)
  | taken _ _ _ _ h => rw [h]; exact hdue
  | delivered x hx _ h =>
    intro it hit hid
    unfold DelayedQueue.held at hit
    rw [h.held] at hit
    rcases Multiset.mem_cons.mp hit with rfl | hit
    · exact hmove _ (Or.inl (by rw [hset, hx, hid]))
    · exact hdue it hit hid
  | touched x d hx _ h _ =>
    intro it hit hid
    obtain ⟨rest, h1, h2⟩ := h.held
    unfold DelayedQueue.held at hit hdue
    rw [h2] at hit
    rw [h1] at hdue
    rcases Multiset.mem_cons.mp hit with rfl | hit
    · exact hmove _ (Or.inl (by rw [hset, hx, ← hid]))
    · exact hdue it (Multiset.mem_cons_of_mem hit) hid
  | overwritten n x priority hc _ hf h =>
    intro it hit hid
    have hn : n = name := by rw [hc] at he; exact Option.some.inj he
    obtain ⟨rest, h1, h2⟩ := (PriorityMemoryQueue.itemUpdatePriority_found hf priority).held
    have hit : it ∈ (aq.queue.itemUpdatePriority x.id priority).held := by rw [h] at hit; exact hit
    unfold DelayedQueue.held at hdue
    rw [h2] at hit
    rw [h1] at hdue
    rcases Multiset.mem_cons.mp hit with rfl | hit
    · exact hmove _ (Or.inr (by rw [hc, hn, ← hid]))
    · exact hdue it (Multiset.mem_cons_of_mem hit) hid

theorem DueBy.step (hdue : DueBy name id bound e.before) (h : Separate name e.before)
    (hs : e.before.apply e.input = some (e.output, e.after)) (hnew : EnqueuesNew name e.before e.input)
    (hmove : ∀ d, Moves name e id d → d ≤ bound) : DueBy name id bound e.after := by
  intro q' hq'
  cases (h.left hs hnew hq').ack with
  | empty h => rw [h]; exact fun it hit => (Multiset.notMem_zero it hit).elim
  | same q hq _ hsame => rw [hsame]; exact hdue q hq
  | effect q config response hq he hset _ heff => exact heff.dueBy he hset hmove (hdue q hq)

theorem Separate.exact (h : Separate name f) {q : Queue} (hq : f.queueManager.queues.lookup name = some q) :
    q.ackQueue.queue.Exact := by
  obtain ⟨_, _, hserved⟩ := h.safe.queue name q hq
  rcases hserved with ⟨_, m, hl⟩ | ⟨_, hi⟩
  · exact (h.distinct q m hq hl.queue_eq).exact
  · rw [hi.ack]; exact PriorityMemoryQueue.new_exact

/-- The deadline of a message in flight. -/
def deadline (f : FSM) (name : String) (id : UInt64) : Option Int := do
  let q ← f.queueManager.queues.lookup name
  let item ← q.ackQueue.get id
  item.map (·.priority)

/-- Committed after the proposal: the message is nacked, delivered again at 61 and touched at 62. -/
def redelivered : List Entry :=
  [⟨4, 60, .nack "jobs" 1 0 none⟩, ⟨5, 61, .dequeue "jobs" false⟩, ⟨6, 62, .touch "jobs" 1⟩]

end FSM

end Doq
