/-
  Doq.Raft.Reenqueue — `Enqueue` of an id the queue already holds (`Queue.Enqueue`).

  The store is overwritten first. Then `Get` looks for the id among the ready messages of
  the new message's group: a hit leaves memory as it is, a miss adds a copy, and messages in
  flight or ready in another group are never looked at.

  Proved, in every state a run from the empty one reaches, whatever its groups and ids:
  - `reenqueue_single_iff`: the id is held once afterwards, with the group and priority the
    store now has, and the counters still match, exactly if `Get` hit an item with that
    group and priority that was the only copy before.
  - `reenqueue_duplicates`: the three ways this goes wrong.
-/

import Doq.Raft.Safety

namespace Doq

open Lib Memory Storage

namespace Queue

variable {name : String} {config : QueueConfig} {m : MemoryQueue} {q : Queue} {store : Store} {id : UInt64}

/-- The in-flight messages stored under a group. -/
def inFlight (name : String) (store : Store) (aq : DelayedQueue) (group : String) : Nat :=
  aq.held.countP fun it => (store.messages.lookup (name, it.id)).map (·.group) = some group

/-- The counters of a fair queue are what is in flight. -/
def Counted (name : String) (config : QueueConfig) (m : MemoryQueue) (q : Queue) (store : Store) : Prop :=
  config.type = "fair" → ∀ g, m.unacked g = inFlight name store q.ackQueue g

/-- The id is held once, and a ready copy is what the store holds. -/
structure HeldOnce (name : String) (id : UInt64) (m : MemoryQueue) (q : Queue) (store : Store) : Prop where
  once : (heldIds m q.ackQueue).count id = 1
  ready : ∀ it ∈ m.ready, it.id = id → ∃ msg, store.messages.lookup (name, id) = some msg ∧ it.group = msg.group ∧
    it.priority = msg.priority

/-- The queue holds the id once, ready in the group and with the priority of a message that
    is about to be enqueued. -/
def ReadyAs (config : QueueConfig) (m : MemoryQueue) (q : Queue) (id : UInt64) (group : String) (priority : Int) : Prop :=
  (heldIds m q.ackQueue).count id = 1 ∧
    ∃ it, m.get (groupFor config group) id = some (some it) ∧ it.group = groupFor config group ∧ it.priority = priority

theorem inFlight_insert {aq : DelayedQueue} (hn : ∀ it ∈ aq.held, it.id ≠ id) (msg : Message) (group : String) :
    inFlight name { store with messages := store.messages.insert (name, id) msg } aq group = inFlight name store aq group := by
  unfold inFlight
  refine Multiset.countP_congr rfl fun it hit => ?_
  rw [FinMap.lookup_insert_eq, if_neg (by simpa using hn it hit)]

/-- The only copy of an id is ready: no other ready item has it, and none in flight. -/
theorem only_copy {it : Item} (honce : (heldIds m q.ackQueue).count id = 1) (hit : it ∈ m.ready) (hid : it.id = id) :
    (∀ y ∈ m.ready, y.id = id → y = it) ∧ ∀ y ∈ q.ackQueue.held, y.id ≠ id := by
  obtain ⟨rest, hrest⟩ := Multiset.exists_cons_of_mem hit
  unfold heldIds at honce
  rw [hrest, Multiset.map_cons, hid, Multiset.cons_add, Multiset.count_cons_self, Multiset.count_add] at honce
  constructor
  · intro y hy hyid
    rw [hrest] at hy
    rcases Multiset.mem_cons.mp hy with rfl | hy
    · rfl
    · have : 0 < (rest.map (·.id)).count id := Multiset.count_pos.mpr (Multiset.mem_map.mpr ⟨y, hy, hyid⟩)
      omega
  · intro y hy hyid
    have : 0 < (q.ackQueue.held.map (·.id)).count id := Multiset.count_pos.mpr (Multiset.mem_map.mpr ⟨y, hy, hyid⟩)
    omega

theorem Live.reenqueue_iff (h : Live name config m q store) (hid : id ∈ heldIds m q.ackQueue) (cfg : Config) (group : String)
    (priority : Int) (content : String) (metadata : Option Metadata) :
    (Returns (q.enqueue store cfg noFaults id group priority content metadata) fun r => ∃ m', r.2.1.queue = some m' ∧
      HeldOnce name id m' r.2.1 r.2.2 ∧ (Counted name config m q store → Counted name config m' r.2.1 r.2.2)) ↔
      ReadyAs config m q id group priority := by
  have henq : Returns (q.enqueue store cfg noFaults id group priority content metadata) _ :=
    h.enqueue group priority content metadata
  obtain ⟨⟨res, q', store'⟩, he, m', _, hstore, hl, hack, _, hcase⟩ := henq
  simp only at hstore hl hack
  have hstored : store'.messages.lookup (name, id) = some ⟨groupFor config group, id, priority, content, metadata, 0⟩ := by
    rw [hstore, FinMap.lookup_insert_eq, if_pos rfl]
  constructor
  · intro hret
    obtain ⟨r, he', m'', hq, honce, _⟩ := hret
    rw [he] at he'; cases he'
    rw [hl.queue_eq] at hq; cases hq
    have hcount := honce.once
    rw [hack] at hcount
    rcases hcase with ⟨it, hget, rfl⟩ | ⟨_, it, hitid, hready⟩
    · obtain ⟨r, hget', hr⟩ := h.memory.get (groupFor config group) id
      rw [hget] at hget'; cases hget'
      obtain ⟨hiid, hmem⟩ := hr it rfl
      obtain ⟨msg, hmsg, hg, hp⟩ := honce.ready it hmem hiid
      rw [hstored] at hmsg; cases hmsg
      exact ⟨hcount, it, hget, hg, hp⟩
    · -- a miss added a copy of an id that was there
      rw [heldIds_push hready, hitid, Multiset.count_cons_self] at hcount
      have := Multiset.count_pos.mpr hid
      omega
  · intro hready
    obtain ⟨hcount, it, hget, hg, hp⟩ := hready
    have hm : m' = m := by
      rcases hcase with ⟨_, _, hm⟩ | ⟨hnone, _⟩
      · exact hm
      · rw [hget] at hnone; cases hnone
    subst hm
    obtain ⟨r, hget', hr⟩ := h.memory.get (groupFor config group) id
    rw [hget] at hget'; cases hget'
    obtain ⟨hiid, hmem⟩ := hr it rfl
    obtain ⟨hone, hnot⟩ := only_copy hcount hmem hiid
    refine ⟨_, he, m', hl.queue_eq, ⟨by rw [hack]; exact hcount, fun y hy hyid => ⟨_, hstored, ?_⟩⟩, fun hcounted ht g => ?_⟩
    · rw [hone y hy hyid]; exact ⟨hg, hp⟩
    · rw [hack, hstore, inFlight_insert hnot]
      exact hcounted ht g

end Queue

namespace FSM

variable {f : FSM} {name : String} {q : Queue} {m : MemoryQueue} {config : QueueConfig} {id : UInt64}

theorem reenqueue_single_iff {cfg : Config} {leaderConfig : LeaderConfig} {events : List (Event FSM Entry Reply)}
    (h : Runs (new cfg leaderConfig) events f) (hq : f.queueManager.queues.lookup name = some q) (hc : q.config = some config)
    (hm : q.queue = some m) (hid : id ∈ Queue.heldIds m q.ackQueue) (index : UInt64) (now : Int) (group : String) (priority : Int)
    (content : String) (metadata : Option Metadata) :
    (Returns (f.apply ⟨index, now, .enqueue name id group priority content metadata⟩) fun r => ∃ q' m',
      r.2.queueManager.queues.lookup name = some q' ∧ q'.queue = some m' ∧
        Queue.HeldOnce name id m' q' r.2.queueManager.store ∧
        (Queue.Counted name config m q f.queueManager.store → Queue.Counted name config m' q' r.2.queueManager.store)) ↔
      Queue.ReadyAs config m q id group priority := by
  have hlive : Queue.Live name config m q f.queueManager.store := by
    obtain ⟨c, _, hserved⟩ := h.safe.queue name q hq
    rcases hserved with ⟨_, m', hl⟩ | ⟨_, hi⟩
    · rw [hl.queue_eq] at hm; cases hm
      rw [hl.config_eq] at hc; cases hc
      exact hl
    · rw [hi.queue_eq] at hm; cases hm
  refine Iff.trans ?_ (hlive.reenqueue_iff hid f.queueManager.config group priority content metadata)
  have he : (⟨index, now, .enqueue name id group priority content metadata⟩ : Entry).command.queueName = some name := rfl
  rw [apply_handle he hq]
  simp only [handle, Option.map_map]
  constructor
  · intro hret
    obtain ⟨r, he, q', m', hq', hrest⟩ := hret
    obtain ⟨out, ho, rfl⟩ := Option.map_eq_some_iff.mp he
    have hput : (f.queueManager.queues.insert name out.2.1).lookup name = some q' := hq'
    rw [FinMap.lookup_insert_eq, if_pos rfl] at hput; cases hput
    exact ⟨out, ho, m', hrest⟩
  · intro hret
    obtain ⟨out, ho, m', hrest⟩ := hret
    refine ⟨_, by rw [ho]; rfl, out.2.1, m', ?_, hrest⟩
    show (f.queueManager.queues.insert name out.2.1).lookup name = some out.2.1
    rw [FinMap.lookup_insert_eq, if_pos rfl]

/-- A round-robin queue with one ready message. -/
def oneReady : List Entry :=
  [⟨1, 0, .createQueue "jobs" "fair" ⟨.roundRobin, 0, 0, 0⟩⟩, ⟨2, 0, .enqueue "jobs" 7 "a" 1 "" none⟩]

theorem oneReady_runs : (exec apply (new defaults (.new "n1" "" "")) oneReady).isSome := rfl

theorem reenqueue_same_message :
    let f := ((exec apply (new defaults (.new "n1" "" "")) oneReady).get oneReady_runs).2
    ∃ q m config, f.queueManager.queues.lookup "jobs" = some q ∧ q.queue = some m ∧ Queue.ReadyAs config m q 7 "a" 1 ∧
      Returns (f.apply ⟨3, 0, .enqueue "jobs" 7 "a" 1 "again" none⟩) fun r => ∃ q' m',
        r.2.queueManager.queues.lookup "jobs" = some q' ∧ q'.queue = some m' ∧
          Queue.HeldOnce "jobs" 7 m' q' r.2.queueManager.store ∧
          (Queue.Counted "jobs" config m q f.queueManager.store → Queue.Counted "jobs" config m' q' r.2.queueManager.store) := by
  intro f
  have hq : f.queueManager.queues.lookup "jobs" = some ((f.queueManager.queues.lookup "jobs").get rfl) := rfl
  have honce : (Queue.heldIds (((f.queueManager.queues.lookup "jobs").get rfl).queue.get rfl)
      ((f.queueManager.queues.lookup "jobs").get rfl).ackQueue).count 7 = 1 := rfl
  have hready : Queue.ReadyAs (((f.queueManager.queues.lookup "jobs").get rfl).config.get rfl)
      (((f.queueManager.queues.lookup "jobs").get rfl).queue.get rfl) ((f.queueManager.queues.lookup "jobs").get rfl) 7 "a" 1 :=
    ⟨honce, ⟨7, 1, "a"⟩, rfl, rfl, rfl⟩
  have hheld := Multiset.one_le_count_iff_mem.mp (Nat.le_of_eq honce.symm)
  exact ⟨_, _, _, hq, rfl, hready,
    (reenqueue_single_iff (Run.of_exec_isSome oneReady_runs) hq rfl rfl hheld 3 0 "a" 1 "again" none).mpr hready⟩

/-- The ready copies of an id, each by its group and priority, and the number in flight. -/
def copies (f : FSM) (name : String) (id : UInt64) : Option (Multiset (String × Int) × Nat) := do
  let q ← f.queueManager.queues.lookup name
  let m ← q.queue
  some ((m.ready.filter (·.id = id)).map fun it => (it.group, it.priority), (q.ackQueue.held.filter (·.id = id)).card)

/-- The copies after a list of entries on a round-robin queue. -/
def copiesAfter (entries : List Entry) : Option (Multiset (String × Int) × Nat) := do
  let (_, f) ← exec apply (new defaults (.new "n1" "" "")) (⟨1, 0, .createQueue "jobs" "fair" ⟨.roundRobin, 0, 0, 0⟩⟩ :: entries)
  f.copies "jobs" 7

/-- Ready and in flight; ready in two groups; ready with a priority the store no longer has. -/
theorem reenqueue_duplicates :
    copiesAfter [⟨2, 0, .enqueue "jobs" 7 "a" 1 "" none⟩, ⟨3, 0, .dequeue "jobs" false⟩,
      ⟨4, 0, .enqueue "jobs" 7 "a" 1 "" none⟩] =
        some ({("a", 1)}, 1) ∧
      copiesAfter [⟨2, 0, .enqueue "jobs" 7 "a" 1 "" none⟩, ⟨3, 0, .enqueue "jobs" 7 "b" 1 "" none⟩] =
        some ({("a", 1), ("b", 1)}, 0) ∧
      copiesAfter [⟨2, 0, .enqueue "jobs" 7 "a" 1 "" none⟩, ⟨3, 0, .enqueue "jobs" 7 "a" 5 "" none⟩] =
        some ({("a", 1)}, 0) := by
  decide

end FSM

end Doq
