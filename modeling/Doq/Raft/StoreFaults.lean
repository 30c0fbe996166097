/-
  Doq.Raft.StoreFaults — what a failed store call leaves of the queue in memory
  (see `Doq.Queue.Queue`).

  A store call takes full effect or returns an error and changes nothing. `attempt` is one
  operation on a queue while the calls in `faults` fail. Most methods call the store before
  they write to memory. Four do not: `Dequeue` pops first, `Ack` of a fair queue releases
  the group's slot first, `Nack` requeues before it stores the new priority and metadata,
  and `UpdateQueue` writes the new configuration first. None of them undoes its write.

  Proved:
  - `store_error_unchanged_iff`: from every state a run reaches, also after attempts that
    failed, an operation that returns a store error leaves the memory as it was exactly if
    it is not one of `WritesFirst`.
  - `failed_calls_that_write`: each of the four happens.
-/

import Doq.Raft.Safety

namespace Doq

open Lib Memory Storage

/-! ## Releasing a slot -/

namespace Memory

namespace FairRoundRobinQueue

theorem updateWeights_ne {fq : FairRoundRobinQueue} {group : String} {count : Int}
    (h : fq.unackedByGroup.lookup group = some count) :
    fq.updateWeights group ≠ fq := by
  intro e
  have hc : (fq.updateWeights group).unackedByGroup.lookup group = some count := by rw [e]; exact h
  unfold updateWeights at hc
  simp only [h] at hc
  rw [(refreshGroup_frame _ _).unacked] at hc
  split at hc
  · rw [FinMap.lookup_erase_eq, if_pos rfl] at hc
    cases hc
  · rw [FinMap.lookup_insert_eq, if_pos rfl, Option.some.injEq] at hc
    omega

end FairRoundRobinQueue

namespace FairWeightedQueue

theorem updateWeight_unacked {fq fq' : FairWeightedQueue} {group : String} (h : fq.updateWeight group = some fq') :
    fq'.unackedByGroup = fq.unackedByGroup := by
  unfold updateWeight at h
  obtain ⟨_, _, h⟩ := Option.bind_eq_some_iff.mp h
  obtain ⟨_, _, h⟩ := Option.bind_eq_some_iff.mp h
  cases h; rfl

theorem removeGroup_unacked {fq fq' : FairWeightedQueue} {group : String} (h : fq.removeGroup group = some fq') :
    fq'.unackedByGroup = fq.unackedByGroup.erase group := by
  unfold removeGroup at h
  obtain ⟨_, _, h⟩ := Option.bind_eq_some_iff.mp h
  cases h; rfl

theorem updateWeights_ne {fq fq' : FairWeightedQueue} {group : String} {count : Int}
    (h : fq.unackedByGroup.lookup group = some count) (hu : fq.updateWeights group = some fq') : fq' ≠ fq := by
  rintro rfl
  unfold updateWeights at hu
  simp only [h] at hu
  obtain ⟨fq1, h1, hu⟩ := Option.bind_eq_some_iff.mp hu
  obtain ⟨queue, _, hu⟩ := Option.bind_eq_some_iff.mp hu
  have hc := updateWeight_unacked h1
  split at hu
  · rw [removeGroup_unacked hu, FinMap.lookup_erase_eq, if_pos rfl] at h
    cases h
  · cases hu
    rw [hc, FinMap.lookup_insert_eq, if_pos rfl, Option.some.injEq] at h
    omega

end FairWeightedQueue

namespace MemoryQueue

/-- A release changes the queue exactly if there is a counter to take from. -/
theorem updateWeights_eq_iff {m m' : MemoryQueue} {group : String} (h : m.updateWeights group = some m') :
    m' = m ↔ ¬ m.counted group := by
  cases m with
  | delayed q => cases h; exact iff_of_true rfl nofun
  | fairRoundRobin q =>
    cases h
    unfold counted
    cases hc : q.unackedByGroup.lookup group with
    | none => simp [FairRoundRobinQueue.updateWeights, hc]
    | some count => simp [FairRoundRobinQueue.updateWeights_ne hc, hc]
  | fairWeighted q =>
    obtain ⟨q', hq', rfl⟩ := Option.map_eq_some_iff.mp h
    unfold counted
    cases hc : q.unackedByGroup.lookup group with
    | none =>
      simp only [FairWeightedQueue.updateWeights, hc, Option.some.injEq] at hq'
      simp [← hq', hc]
    | some count => simp [FairWeightedQueue.updateWeights_ne hc hq', hc]

end MemoryQueue

end Memory

/-! ## Calls that do not fail -/

namespace Storage.Store

variable {faults : Faults} (store : Store)

theorem enqueue_same (h : faults .enqueue = false) : store.enqueue faults = store.enqueue noFaults := by
  unfold enqueue; rw [h]; rfl

theorem dequeue_same (h : faults .dequeue = false) : store.dequeue faults = store.dequeue noFaults := by
  unfold dequeue; rw [h]; rfl

theorem get_same (h : faults .get = false) : store.get faults = store.get noFaults := by
  unfold get; rw [h]; rfl

theorem delete_same (h : faults .delete = false) : store.delete faults = store.delete noFaults := by
  unfold delete; rw [h]; rfl

theorem ack_same (h : faults .ack = false) : store.ack faults = store.ack noFaults := by
  unfold ack; rw [h]; rfl

theorem updatePriority_same (h : faults .updatePriority = false) :
    store.updatePriority faults = store.updatePriority noFaults := by
  unfold updatePriority; rw [h]; rfl

theorem updateMessage_same (h : faults .updateMessage = false) : store.updateMessage faults = store.updateMessage noFaults := by
  unfold updateMessage; rw [h]; rfl

theorem updateQueue_same (h : faults .updateQueue = false) : store.updateQueue faults = store.updateQueue noFaults := by
  unfold updateQueue; rw [h]; rfl

end Storage.Store

/-! ## Operations under faults -/

namespace Queue

inductive Op where
  | enqueue (id : UInt64) (group : String) (priority : Int) (content : String) (metadata : Option Metadata)
  | dequeue (ack : Bool) (seed : UInt64) (now : Int)
  | ack (id : UInt64)
  | nack (id : UInt64) (priority : Int) (metadata : Option Metadata)
  | delete (id : UInt64)
  | updatePriority (id : UInt64) (priority : Int)
  | touch (id : UInt64) (now : Int)
  | updateQueue (settings : QueueSettings)

/-- The error of an outcome, if it is one. -/
def Outcome.report {α : Type} (r : Outcome α) : Option Err × Queue × Store :=
  match r.1 with
  | .error e => (some e, r.2)
  | .ok _ => (none, r.2)

def attempt (q : Queue) (store : Store) (cfg : Config) (faults : Faults) : Op → Go (Option Err × Queue × Store)
  | .enqueue id group priority content metadata =>
    (q.enqueue store cfg faults id group priority content metadata).map Outcome.report
  | .dequeue ack seed now => (q.dequeue store cfg faults ack seed now).map Outcome.report
  | .ack id => (q.ack store cfg faults id).map Outcome.report
  | .nack id priority metadata => (q.nack store cfg faults id priority metadata).map Outcome.report
  | .delete id => (q.delete store faults id).map Outcome.report
  | .updatePriority id priority => (q.updatePriority store faults id priority).map Outcome.report
  | .touch id now => (q.touch store id now).map Outcome.report
  | .updateQueue settings => (q.updateQueue store cfg faults settings).map Outcome.report

/-- The errors only a store call returns. -/
def StoreError (e : Err) : Prop := e = .storage ∨ e = .keyNotFound

instance (e : Err) : Decidable (StoreError e) := inferInstanceAs (Decidable (_ ∨ _))

/-- The ready messages, the in-flight ones, the counters and the configuration are as before. -/
structure Unchanged (q q' : Queue) : Prop where
  queue : q'.queue = q.queue
  ackQueue : q'.ackQueue = q.ackQueue
  config : q'.config = q.config

/-- A message that has had its deliveries: a `Nack` removes it. -/
def Exhausted (config : QueueConfig) (message : Message) : Prop :=
  config.settings.deliveryLimit > 0 ∧ message.deliveryCount ≥ config.settings.deliveryLimit

/-- The operations that write to memory before the last store call they make. `Ack` and
    `Nack` read the message from the store first, and `Nack` deletes an exhausted one there
    before it touches the memory. -/
def WritesFirst (q : Queue) (store : Store) (cfg : Config) (faults : Faults) : Op → Prop
  | .dequeue _ _ _ => True
  | .ack id => faults .get = false ∧ ∃ config message m, q.config = some config ∧ config.type = "fair" ∧
      store.messages.lookup (config.name, id) = some message ∧ q.queue = some m ∧ m.counted message.group
  | .nack id _ _ => faults .get = false ∧ ∃ config message, q.config = some config ∧
      store.messages.lookup (config.name, id) = some message ∧ ¬ Exhausted config message
  | .updateQueue settings => ∃ config settings', q.config = some config ∧
      changedSettings cfg config settings = .ok settings' ∧ settings' ≠ config.settings
  | _ => False

/-- The queue a failed store call leaves. -/
inductive Failed (q : Queue) (store : Store) (cfg : Config) (faults : Faults) : Op → Queue → Prop
  | before {op : Op} (h : ¬ q.WritesFirst store cfg faults op) : Failed q store cfg faults op q
  | popped {ack : Bool} {seed : UInt64} {now : Int} {m m' : MemoryQueue} {item : Item} (hq : q.queue = some m)
      (hd : m.dequeue ack seed now = some (some item, m')) :
      Failed q store cfg faults (.dequeue ack seed now) { q with queue := some m' }
  | released {id : UInt64} {config : QueueConfig} {message : Message} {m m' : MemoryQueue} (hget : faults .get = false)
      (hc : q.config = some config) (ht : config.type = "fair") (hm : store.messages.lookup (config.name, id) = some message)
      (hq : q.queue = some m) (hu : m.updateWeights message.group = some m') :
      Failed q store cfg faults (.ack id) { q with queue := some m' }
  | requeued {id : UInt64} {priority : Int} {metadata : Option Metadata} {config : QueueConfig} {message : Message} {item : Item}
      {q' : Queue} (hget : faults .get = false) (hi : q.ackQueue.get id = some (some item)) (hc : q.config = some config)
      (hm : store.messages.lookup (config.name, item.id) = some message) (hex : ¬ Exhausted config message)
      (hr : q.redeliverOrDrop store noFaults config message priority = some (.ok false, q', store)) :
      Failed q store cfg faults (.nack id priority metadata) q'
  | configured {settings settings' : QueueSettings} {config : QueueConfig} (hc : q.config = some config)
      (hs : changedSettings cfg config settings = .ok settings') :
      Failed q store cfg faults (.updateQueue settings) { q with config := some { config with settings := settings' } }

/-- How an attempt ends: with a store error, or as it does when no call fails. -/
inductive Ends (q : Queue) (store : Store) (cfg : Config) (faults : Faults) (op : Op) : Option Err → Queue → Store → Prop
  | failed {e : Err} {q' : Queue} (he : StoreError e)
    (h : Failed q store cfg faults op q') : Ends q store cfg faults op (some e) q' store
  | served {e : Option Err} {q' : Queue} {store' : Store} (he : ∀ err, e = some err → ¬ StoreError err)
      (h : q.attempt store cfg noFaults op = some (e, q', store')) : Ends q store cfg faults op e q' store'

variable {q q' : Queue} {store store' : Store} {cfg : Config} {faults : Faults} {id : UInt64} {e : Option Err}

theorem not_storeError_of_none (err : Err) (h : none = some err) : ¬ StoreError err := by
  cases h

theorem enqueue_ends {group : String} {priority : Int} {content : String} {metadata : Option Metadata}
    (h : q.attempt store cfg faults (.enqueue id group priority content metadata) = some (e, q', store')) :
    Ends q store cfg faults (.enqueue id group priority content metadata) e q' store' := by
  have h0 := h
  obtain ⟨r, hr, he⟩ := Option.map_eq_some_iff.mp h
  obtain ⟨config, _, hr⟩ := Option.bind_eq_some_iff.mp hr
  cases hf : faults .enqueue with
  | true =>
    simp only [Store.enqueue, hf, if_true] at hr
    cases hr; cases he
    exact .failed (Or.inl rfl) (.before fun hw => hw)
  | false =>
    refine .served ?_ (by rw [← h0]; simp only [attempt, Queue.enqueue, Store.enqueue_same store hf])
    simp only [Store.enqueue, hf, Bool.false_eq_true, if_false] at hr
    obtain ⟨queue, _, hr⟩ := Option.bind_eq_some_iff.mp hr
    obtain ⟨item, _, hr⟩ := Option.bind_eq_some_iff.mp hr
    cases item with
    | some item => cases hr; cases he; exact not_storeError_of_none
    | none =>
      obtain ⟨queue, _, hr⟩ := Option.bind_eq_some_iff.mp hr
      obtain ⟨_, _, hr⟩ := Option.bind_eq_some_iff.mp hr
      cases hr; cases he; exact not_storeError_of_none

theorem dequeue_ends {ack : Bool} {seed : UInt64} {now : Int}
    (h : q.attempt store cfg faults (.dequeue ack seed now) = some (e, q', store')) :
    Ends q store cfg faults (.dequeue ack seed now) e q' store' := by
  have h0 := h
  obtain ⟨r, hr, he⟩ := Option.map_eq_some_iff.mp h
  obtain ⟨m, hm, hr⟩ := Option.bind_eq_some_iff.mp hr
  by_cases hlen : m.len = 0
  · rw [if_pos hlen] at hr
    cases hr; cases he
    refine .served (fun err e => by cases e; decide) ?_
    simp [attempt, Queue.dequeue, hm, hlen, Outcome.report]
  · rw [if_neg hlen] at hr
    obtain ⟨⟨item, m'⟩, hd, hr⟩ := Option.bind_eq_some_iff.mp hr
    cases item with
    | none =>
      cases hr; cases he
      refine .served (fun err e => by cases e; decide) ?_
      simp [attempt, Queue.dequeue, hm, hlen, hd, Outcome.report]
    | some item =>
      obtain ⟨config, hc, hr⟩ := Option.bind_eq_some_iff.mp hr
      cases hf : faults .dequeue with
      | true =>
        simp only [Store.dequeue, hf, if_true] at hr
        cases hr; cases he
        exact .failed (Or.inl rfl) (.popped hm hd)
      | false =>
        have hsame : q.attempt store cfg noFaults (.dequeue ack seed now) = some (e, q', store') := by
          rw [← h0]; simp only [attempt, Queue.dequeue, Store.dequeue_same store hf]
        simp only [Store.dequeue_same store hf] at hr
        cases hl : store.messages.lookup (config.name, item.id) with
        | none =>
          simp only [Store.dequeue_none hl] at hr
          cases hr; cases he
          exact .failed (Or.inr rfl) (.popped hm hd)
        | some message =>
          refine .served ?_ hsame
          simp only [Store.dequeue, noFaults, Bool.false_eq_true, if_false, hl] at hr
          obtain ⟨_, _, hr⟩ := Option.bind_eq_some_iff.mp hr
          cases hr; cases he; exact not_storeError_of_none

/-- The release at the start of `Ack`: the read fails, or all goes as when no call fails. -/
inductive Release (q : Queue) (store : Store) (faults : Faults) (config : QueueConfig) (id : UInt64) : Except Err Queue → Prop
  | unread (ht : config.type = "fair") (hget : faults .get = true) : Release q store faults config id (.error .storage)
  | gone (h : q.releaseAcked store noFaults config id = some (.error .messageNotFound)) :
      Release q store faults config id (.error .messageNotFound)
  | plain (ht : config.type ≠ "fair") (h : q.releaseAcked store noFaults config id = some (.ok q)) :
      Release q store faults config id (.ok q)
  | fair {message : Message} {m m' : MemoryQueue} (ht : config.type = "fair") (hget : faults .get = false)
      (hm : store.messages.lookup (config.name, id) = some message) (hq : q.queue = some m)
      (hu : m.updateWeights message.group = some m')
      (h : q.releaseAcked store noFaults config id = some (.ok { q with queue := some m' })) :
      Release q store faults config id (.ok { q with queue := some m' })

theorem releaseAcked_cases {config : QueueConfig} {r : Except Err Queue} (h : q.releaseAcked store faults config id = some r) :
    Release q store faults config id r := by
  unfold releaseAcked at h
  by_cases ht : config.type = "fair"
  · rw [if_pos ht] at h
    cases hget : faults .get with
    | true =>
      simp only [Store.get, hget, if_true] at h
      cases h
      exact .unread ht hget
    | false =>
      rw [Store.get_same store hget] at h
      cases hm : store.messages.lookup (config.name, id) with
      | none =>
        simp only [Store.get_none hm] at h
        cases h
        exact .gone (by simp only [releaseAcked, if_pos ht, Store.get_none hm])
      | some message =>
        simp only [Store.get_some hm] at h
        obtain ⟨q1, hs, h⟩ := Option.bind_eq_some_iff.mp h
        cases h
        unfold releaseSlot at hs
        rw [if_pos ht] at hs
        obtain ⟨m, hq, hs⟩ := Option.bind_eq_some_iff.mp hs
        obtain ⟨m', hu, hs⟩ := Option.bind_eq_some_iff.mp hs
        cases hs
        refine .fair ht hget hm hq hu ?_
        simp only [releaseAcked, if_pos ht, Store.get_some hm, releaseSlot, hq, hu, Option.bind_eq_bind, Option.bind_some]
  · rw [if_neg ht] at h
    cases h
    exact .plain ht (by rw [releaseAcked, if_neg ht])

theorem ack_ends (h : q.attempt store cfg faults (.ack id) = some (e, q', store')) :
    Ends q store cfg faults (.ack id) e q' store' := by
  obtain ⟨r, hr, he⟩ := Option.map_eq_some_iff.mp h
  obtain ⟨item, hi, hr⟩ := Option.bind_eq_some_iff.mp hr
  cases item with
  | none =>
    cases hr; cases he
    refine .served (fun err e => by cases e; decide) ?_
    simp [attempt, Queue.ack, hi, Outcome.report]
  | some item =>
    obtain ⟨config, hc, hr⟩ := Option.bind_eq_some_iff.mp hr
    obtain ⟨released, hrel, hr⟩ := Option.bind_eq_some_iff.mp hr
    have hserved : ∀ q1, released = .ok q1 → q.releaseAcked store noFaults config id = some released → faults .ack = false →
        Ends q store cfg faults (.ack id) e q' store' := by
      rintro q1 rfl hrel' hf
      refine .served ?_ (by
        rw [← h]; simp only [attempt, Queue.ack, hi, hc, hrel, hrel', Store.ack_same store hf, Option.bind_eq_bind,
          Option.bind_some])
      simp only [Store.ack, hf, Bool.false_eq_true, if_false] at hr
      obtain ⟨_, _, hr⟩ := Option.bind_eq_some_iff.mp hr
      obtain ⟨_, _, hr⟩ := Option.bind_eq_some_iff.mp hr
      cases hr; cases he; exact not_storeError_of_none
    cases releaseAcked_cases hrel with
    | unread ht hget =>
      cases hr; cases he
      exact .failed (Or.inl rfl) (.before fun hw => Bool.noConfusion (hget.symm.trans hw.1))
    | gone hrel' =>
      cases hr; cases he
      refine .served (fun err e => by cases e; decide) ?_
      simp [attempt, Queue.ack, hi, hc, hrel', Outcome.report]
    | plain ht hrel' =>
      cases hf : faults .ack with
      | true =>
        simp only [Store.ack, hf, if_true] at hr
        cases hr; cases he
        refine .failed (Or.inl rfl) (.before fun hw => ?_)
        obtain ⟨_, config', _, _, hc', ht', _⟩ := hw
        rw [hc] at hc'; cases hc'
        exact ht ht'
      | false => exact hserved _ rfl hrel' hf
    | fair ht hget hm hq hu hrel' =>
      cases hf : faults .ack with
      | true =>
        simp only [Store.ack, hf, if_true] at hr
        cases hr; cases he
        exact .failed (Or.inl rfl) (.released hget hc ht hm hq hu)
      | false => exact hserved _ rfl hrel' hf

theorem delete_cases {r : Outcome Unit} (h : q.delete store faults id = some r) :
    r = (.error .storage, q, store) ∨ (r.1 = .ok () ∨ r.1 = .error .messageNotFound) ∧ q.delete store noFaults id = some r := by
  have hr := h
  obtain ⟨config, hc, hr⟩ := Option.bind_eq_some_iff.mp hr
  cases hf : faults .delete with
  | true =>
    simp only [Store.delete, hf, if_true] at hr
    cases hr
    exact Or.inl rfl
  | false =>
    refine Or.inr ⟨?_, by rw [← h]; simp only [Queue.delete, Store.delete_same store hf]⟩
    rw [Store.delete_same store hf] at hr
    cases hm : store.messages.lookup (config.name, id) with
    | none =>
      simp only [Store.delete_none hm] at hr
      cases hr
      exact Or.inr rfl
    | some message =>
      simp only [Store.delete_some hm] at hr
      obtain ⟨_, _, hr⟩ := Option.bind_eq_some_iff.mp hr
      obtain ⟨_, _, hr⟩ := Option.bind_eq_some_iff.mp hr
      obtain ⟨_, _, hr⟩ := Option.bind_eq_some_iff.mp hr
      cases hr
      exact Or.inl rfl

theorem delete_ends (h : q.attempt store cfg faults (.delete id) = some (e, q', store')) :
    Ends q store cfg faults (.delete id) e q' store' := by
  obtain ⟨r, hr, he⟩ := Option.map_eq_some_iff.mp h
  rcases delete_cases hr with rfl | ⟨hcase, hr'⟩
  · cases he
    exact .failed (Or.inl rfl) (.before fun hw => hw)
  · refine .served ?_ (by simp only [attempt, hr', Option.map_some, he])
    obtain ⟨r, q1, store1⟩ := r
    rcases hcase with rfl | rfl
    · cases he; exact not_storeError_of_none
    · cases he; exact fun err e => by cases e; decide

theorem touch_ends {now : Int} (h : q.attempt store cfg faults (.touch id now) = some (e, q', store')) :
    Ends q store cfg faults (.touch id now) e q' store' := by
  refine .served ?_ h
  obtain ⟨r, hr, he⟩ := Option.map_eq_some_iff.mp h
  obtain ⟨item, _, hr⟩ := Option.bind_eq_some_iff.mp hr
  cases item with
  | none => cases hr; cases he; exact fun err e => by cases e; decide
  | some item =>
    obtain ⟨_, _, hr⟩ := Option.bind_eq_some_iff.mp hr
    obtain ⟨_, _, hr⟩ := Option.bind_eq_some_iff.mp hr
    cases hr; cases he; exact not_storeError_of_none

theorem updatePriority_ends {priority : Int} (h : q.attempt store cfg faults (.updatePriority id priority) =
    some (e, q', store')) :
    Ends q store cfg faults (.updatePriority id priority) e q' store' := by
  obtain ⟨r, hr, he⟩ := Option.map_eq_some_iff.mp h
  obtain ⟨config, hc, hr⟩ := Option.bind_eq_some_iff.mp hr
  cases hget : faults .get with
  | true =>
    simp only [Store.get, hget, if_true] at hr
    cases hr; cases he
    exact .failed (Or.inl rfl) (.before fun hw => hw)
  | false =>
    rw [Store.get_same store hget] at hr
    cases hm : store.messages.lookup (config.name, id) with
    | none =>
      simp only [Store.get_none hm] at hr
      cases hr; cases he
      refine .served (fun err e => by cases e; decide) ?_
      simp [attempt, Queue.updatePriority, hc, Store.get_none hm, Outcome.report]
    | some message =>
      simp only [Store.get_some hm] at hr
      obtain ⟨m, hq, hr⟩ := Option.bind_eq_some_iff.mp hr
      obtain ⟨place, hp, hr⟩ := Option.bind_eq_some_iff.mp hr
      cases place with
      | none =>
        cases hr; cases he
        refine .served (fun err e => by cases e; decide) ?_
        simp [attempt, Queue.updatePriority, hc, Store.get_some hm, hq, hp, Outcome.report]
      | some place =>
        cases hf : faults .updatePriority with
        | true =>
          simp only [Store.updatePriority, hf, if_true] at hr
          cases hr; cases he
          exact .failed (Or.inl rfl) (.before fun hw => hw)
        | false =>
          refine .served ?_ (by
            rw [← h]; simp only [attempt, Queue.updatePriority, Store.get_same store hget, Store.updatePriority_same store hf])
          simp only [Store.updatePriority_same store hf, Store.updatePriority_some hm] at hr
          obtain ⟨_, _, hr⟩ := Option.bind_eq_some_iff.mp hr
          obtain ⟨_, _, hr⟩ := Option.bind_eq_some_iff.mp hr
          obtain ⟨_, _, hr⟩ := Option.bind_eq_some_iff.mp hr
          cases hr; cases he; exact not_storeError_of_none

/-- A message that is not exhausted goes back to the ready ones, with no store call. -/
theorem redeliverOrDrop_requeues {config : QueueConfig} {message : Message} {priority : Int} {r : Outcome Bool}
    (hex : ¬ Exhausted config message) (h : q.redeliverOrDrop store faults config message priority = some r) :
    r.1 = .ok false ∧ r.2.2 = store ∧ q.redeliverOrDrop store noFaults config message priority = some r ∧
      ∃ removed, q.ackQueue.delete message.id = some (removed, r.2.1.ackQueue) := by
  have h0 := h
  unfold Exhausted at hex
  unfold redeliverOrDrop at h
  rw [if_neg hex] at h
  obtain ⟨⟨removed, ackQueue⟩, hd, h⟩ := Option.bind_eq_some_iff.mp h
  obtain ⟨m, _, h⟩ := Option.bind_eq_some_iff.mp h
  obtain ⟨m1, _, h⟩ := Option.bind_eq_some_iff.mp h
  obtain ⟨q1, hs, h⟩ := Option.bind_eq_some_iff.mp h
  cases h
  have hack : q1.ackQueue = ackQueue := by
    unfold releaseSlot at hs
    split at hs
    · obtain ⟨_, _, hs⟩ := Option.bind_eq_some_iff.mp hs
      obtain ⟨_, _, hs⟩ := Option.bind_eq_some_iff.mp hs
      cases hs; rfl
    · cases hs; rfl
  refine ⟨rfl, rfl, ?_, removed, by rw [hd, ← hack]; rfl⟩
  rw [← h0]
  simp only [redeliverOrDrop, if_neg hex]

/-- An exhausted one is deleted, in the store first. -/
theorem redeliverOrDrop_drops {config : QueueConfig} {message : Message} {priority : Int} {r : Outcome Bool}
    (hex : Exhausted config message) (h : q.redeliverOrDrop store faults config message priority = some r) :
    r = (.error .storage, q, store) ∨ (r.1 = .ok true ∨ r.1 = .error .messageNotFound) ∧
      q.redeliverOrDrop store noFaults config message priority = some r := by
  have h0 := h
  unfold Exhausted at hex
  unfold redeliverOrDrop at h
  rw [if_pos hex] at h
  obtain ⟨⟨r1, q1, store1⟩, hd, h⟩ := Option.bind_eq_some_iff.mp h
  rcases delete_cases hd with hr | ⟨hcase, hd'⟩
  · cases hr; cases h
    exact Or.inl rfl
  · refine Or.inr ⟨?_, by rw [← h0]; simp only [redeliverOrDrop, if_pos hex, hd, hd']⟩
    rcases hcase with rfl | rfl
    · cases h; exact Or.inl rfl
    · cases h; exact Or.inr rfl

/-- Storing the caller's priority and metadata fails, or goes as when no call fails. -/
theorem keepNacked_cases (store : Store) (faults : Faults) (config : QueueConfig) (message : Message) (dropped : Bool)
    (priority : Int) (metadata : Option Metadata) :
    (∃ e, StoreError e ∧ keepNacked store faults config message dropped priority metadata = .error e ∧ dropped = false) ∨
      keepNacked store faults config message dropped priority metadata =
        keepNacked store noFaults config message dropped priority metadata ∧
        ∃ store1, keepNacked store noFaults config message dropped priority metadata = .ok store1 := by
  unfold keepNacked
  split
  · rename_i hkeep
    cases hf : faults .updateMessage with
    | true => exact Or.inl ⟨.storage, Or.inl rfl, by simp only [Store.updateMessage, hf, if_true], hkeep.1⟩
    | false =>
      rw [Store.updateMessage_same store hf]
      cases hm : store.messages.lookup (config.name, message.id) with
      | none => exact Or.inl ⟨.keyNotFound, Or.inr rfl, Store.updateMessage_none hm _ _ _, hkeep.1⟩
      | some stored => exact Or.inr ⟨rfl, _, Store.updateMessage_some hm _ _⟩
  · exact Or.inr ⟨rfl, _, rfl⟩

theorem get_found {item : Item} (ha : q.ackQueue.queue.Sound) (hi : q.ackQueue.get id = some (some item)) :
    q.ackQueue.queue.Found id item := by
  obtain ⟨_, hget, hfound⟩ := DelayedQueue.get_spec ha id
  rw [hi] at hget; cases hget
  exact hfound

theorem nack_ends {priority : Int} {metadata : Option Metadata} (ha : q.ackQueue.queue.Sound)
    (h : q.attempt store cfg faults (.nack id priority metadata) = some (e, q', store')) :
    Ends q store cfg faults (.nack id priority metadata) e q' store' := by
  obtain ⟨r, hr, he⟩ := Option.map_eq_some_iff.mp h
  obtain ⟨item, hi, hr⟩ := Option.bind_eq_some_iff.mp hr
  cases item with
  | none =>
    cases hr; cases he
    refine .served (fun err e => by cases e; decide) ?_
    simp [attempt, Queue.nack, hi, Outcome.report]
  | some item =>
    obtain ⟨config, hc, hr⟩ := Option.bind_eq_some_iff.mp hr
    cases hget : faults .get with
    | true =>
      simp only [Store.get, hget, if_true] at hr
      cases hr; cases he
      exact .failed (Or.inl rfl) (.before fun hw => Bool.noConfusion (hget.symm.trans hw.1))
    | false =>
      rw [Store.get_same store hget] at hr
      cases hm : store.messages.lookup (config.name, item.id) with
      | none =>
        simp only [Store.get_none hm] at hr
        cases hr; cases he
        refine .served (fun err e => by cases e; decide) ?_
        simp [attempt, Queue.nack, hi, hc, Store.get_none hm, Outcome.report]
      | some message =>
        simp only [Store.get_some hm] at hr
        obtain ⟨⟨r1, q1, store1⟩, hredo, hend⟩ := Option.bind_eq_some_iff.mp hr
        -- the store of the caller's values, after a redelivery that goes as when no call fails
        have hserved : ∀ dropped, r1 = .ok dropped →
          q.redeliverOrDrop store noFaults config message priority = some (r1, q1, store1) →
            keepNacked store1 faults config message dropped priority metadata =
                keepNacked store1 noFaults config message dropped priority metadata →
              (∃ store2, keepNacked store1 noFaults config message dropped priority metadata = .ok store2) →
            Ends q store cfg faults (.nack id priority metadata) e q' store' := by
          rintro dropped rfl hredo' hk ⟨store2, hk'⟩
          have hsame : q.nack store cfg noFaults id priority metadata = q.nack store cfg faults id priority metadata := by
            simp only [Queue.nack, hi, hc, Store.get_same store hget, Store.get_some hm, hredo, hredo', hk, Option.bind_eq_bind,
              Option.bind_some]
          refine .served ?_ (by rw [← h]; simp only [attempt, hsame])
          simp only [hk, hk'] at hend
          obtain ⟨_, _, hend⟩ := Option.bind_eq_some_iff.mp hend
          cases hend; cases he; exact not_storeError_of_none
        by_cases hex : Exhausted config message
        · rcases redeliverOrDrop_drops hex hredo with hfail | ⟨hcase, hredo'⟩
          · cases hfail; cases hend; cases he
            refine .failed (Or.inl rfl) (.before fun hw => ?_)
            obtain ⟨_, config', message', hc', hm', hex'⟩ := hw
            rw [hc] at hc'; cases hc'
            rw [← (get_found ha hi).id_eq ha, hm] at hm'; cases hm'
            exact hex' hex
          · rcases hcase with hok | herr
            · dsimp only at hok
              rcases keepNacked_cases store1 faults config message true priority metadata with ⟨_, _, _, hd⟩ | ⟨hk, hk'⟩
              · cases hd
              · exact hserved true hok hredo' hk hk'
            · cases herr; cases hend; cases he
              refine .served (fun err e => by cases e; decide) ?_
              simp [attempt, Queue.nack, hi, hc, Store.get_some hm, hredo', Outcome.report]
        · obtain ⟨hok, hstore, hredo', _⟩ := redeliverOrDrop_requeues hex hredo
          dsimp only at hok hstore
          subst hok hstore
          rcases keepNacked_cases store1 faults config message false priority metadata with ⟨err, herr, hk, _⟩ | ⟨hk, hk'⟩
          · simp only [hk] at hend
            cases hend; cases he
            exact .failed herr (.requeued hget hi hc hm hex hredo')
          · exact hserved false rfl hredo' hk hk'

theorem checkedAckTimeout_error {ackTimeout : UInt32} {err : Err} (h : checkedAckTimeout cfg ackTimeout = .error err) :
    err = .invalidAckTimeout := by
  unfold checkedAckTimeout at h
  split at h
  · cases h
  · split at h <;> cases h
    rfl

theorem updateQueue_ends {settings : QueueSettings}
    (h : q.attempt store cfg faults (.updateQueue settings) = some (e, q', store')) :
    Ends q store cfg faults (.updateQueue settings) e q' store' := by
  obtain ⟨r, hr, he⟩ := Option.map_eq_some_iff.mp h
  obtain ⟨config, hc, hr⟩ := Option.bind_eq_some_iff.mp hr
  by_cases hstrategy : config.settings.strategy ≠ settings.strategy
  · rw [if_pos hstrategy] at hr
    cases hr; cases he
    refine .served (fun err e => by cases e; decide) ?_
    simp [attempt, updateQueue_eq hc, changedSettings, hstrategy, Outcome.report]
  · rw [if_neg hstrategy] at hr
    cases ht : checkedAckTimeout cfg settings.ackTimeout with
    | error err =>
      simp only [ht] at hr
      cases hr; cases he
      refine .served (fun err' e => ?_) ?_
      · cases e
        rw [checkedAckTimeout_error ht]; decide
      · simp [attempt, updateQueue_eq hc, changedSettings, hstrategy, ht, Outcome.report]
    | ok ackTimeout =>
      simp only [ht] at hr
      cases hf : faults .updateQueue with
      | true =>
        simp only [Store.updateQueue, hf, if_true] at hr
        cases hr; cases he
        exact .failed (Or.inl rfl) (.configured hc (by rw [changedSettings, if_neg hstrategy, ht]))
      | false =>
        refine .served ?_ (by rw [← h]; simp only [attempt, Queue.updateQueue, Store.updateQueue_same store hf])
        simp only [Store.updateQueue, hf, Bool.false_eq_true, if_false] at hr
        obtain ⟨_, _, hr⟩ := Option.bind_eq_some_iff.mp hr
        cases hr; cases he; exact not_storeError_of_none

theorem attempt_ends {op : Op} (ha : q.ackQueue.queue.Sound) (h : q.attempt store cfg faults op = some (e, q', store')) :
    Ends q store cfg faults op e q' store' := by
  cases op with
  | enqueue id group priority content metadata => exact enqueue_ends h
  | dequeue ack seed now => exact dequeue_ends h
  | ack id => exact ack_ends h
  | nack id priority metadata => exact nack_ends ha h
  | delete id => exact delete_ends h
  | updatePriority id priority => exact updatePriority_ends h
  | touch id now => exact touch_ends h
  | updateQueue settings => exact updateQueue_ends h

/-! ## Attempts one after another -/

variable {name : String} {config : QueueConfig} {m : MemoryQueue} {op : Op}

theorem reported {α : Type} {x : Go (Outcome α)} {P : Outcome α → Prop} (h : Returns x P)
    (hx : x.map Outcome.report = some (e, q', store')) : ∃ r, P (r, q', store') := by
  obtain ⟨⟨r, q1, store1⟩, rfl, hP⟩ := h
  rw [Option.map_some, Option.some.injEq] at hx
  cases r <;> cases hx <;> exact ⟨_, hP⟩

theorem Live.attempt (h : Live name config m q store) (hk : KnownType config.type)
    (ht : q.attempt store cfg noFaults op = some (e, q', store')) : ∃ config', Served name config' q' store' := by
  have hserved : ∀ m', Live name config m' q' store' → ∃ config', Served name config' q' store' :=
    fun m' hl => ⟨config, Or.inl ⟨hk, m', hl⟩⟩
  cases op with
  | enqueue id group priority content metadata =>
    obtain ⟨r, m', _, _, hl, _⟩ := reported (h.enqueue group priority content metadata) ht
    exact hserved m' hl
  | dequeue ack seed now =>
    obtain ⟨r, m', hkept, _⟩ := reported (h.dequeue ack seed now) ht
    exact hserved m' hkept.live
  | ack id =>
    obtain ⟨r, m', hkept, _⟩ := reported (h.acked id) ht
    exact hserved m' hkept.live
  | nack id priority metadata =>
    obtain ⟨r, m', hkept, _⟩ := reported (h.nack id priority metadata) ht
    exact hserved m' hkept.live
  | delete id =>
    obtain ⟨r, m', hkept, _⟩ := reported (h.delete id) ht
    exact hserved m' hkept.live
  | updatePriority id priority =>
    obtain ⟨r, m', hkept, _⟩ := reported (h.updatePriority id priority) ht
    exact hserved m' hkept.live
  | touch id now =>
    obtain ⟨r, hkept, _⟩ := reported (h.touch id now) ht
    exact hserved m hkept.live
  | updateQueue settings =>
    simp only [Queue.attempt, updateQueue_eq h.config_eq, h.queue_eq] at ht
    cases hs : changedSettings cfg config settings with
    | error err => rw [hs] at ht; cases ht; exact hserved m h
    | ok settings' =>
      rw [hs] at ht
      cases ht
      obtain rfl := h.name_eq
      exact ⟨{ config with settings := settings' }, Or.inl ⟨hk, _, h.updated settings'⟩⟩

theorem Idle.attempt (h : Idle name config q store) (ht : q.attempt store cfg noFaults op = some (e, q', store')) :
    q' = q ∧ store' = store := by
  cases op with
  | enqueue id group priority content metadata => simp only [Queue.attempt, h.enqueue, Option.map_none] at ht; cases ht
  | dequeue ack seed now => simp only [Queue.attempt, h.dequeue, Option.map_none] at ht; cases ht
  | ack id => simp only [Queue.attempt, h.acked, Option.map_some] at ht; cases ht; exact ⟨rfl, rfl⟩
  | nack id priority metadata => simp only [Queue.attempt, h.nack, Option.map_some] at ht; cases ht; exact ⟨rfl, rfl⟩
  | delete id => simp only [Queue.attempt, h.delete, Option.map_some] at ht; cases ht; exact ⟨rfl, rfl⟩
  | updatePriority id priority => simp only [Queue.attempt, h.updatePriority, Option.map_some] at ht; cases ht; exact ⟨rfl, rfl⟩
  | touch id now => simp only [Queue.attempt, h.touch, Option.map_some] at ht; cases ht; exact ⟨rfl, rfl⟩
  | updateQueue settings =>
    simp only [Queue.attempt, updateQueue_eq h.config_eq, h.queue_eq] at ht
    cases hs : changedSettings cfg config settings with
    | error err => rw [hs] at ht; cases ht; exact ⟨rfl, rfl⟩
    | ok settings' => rw [hs] at ht; cases ht

/-- A queue with a memory queue is of a known type. -/
theorem Served.live (h : Served name config q store) (hq : q.queue = some m) :
    KnownType config.type ∧ Live name config m q store := by
  rcases h with ⟨hk, m', hl⟩ | ⟨_, hi⟩
  · have := hl.queue_eq
    rw [hq] at this; cases this
    exact ⟨hk, hl⟩
  · rw [hi.queue_eq] at hq; cases hq

/-- The requeued message was in flight, and is not any more. -/
theorem Live.requeued (h : Live name config m q store) {item : Item} {message : Message} {priority : Int} {r : Outcome Bool}
    (hi : q.ackQueue.get id = some (some item)) (hm : store.messages.lookup (name, item.id) = some message)
    (hex : ¬ Exhausted config message) (hr : q.redeliverOrDrop store noFaults config message priority = some r) :
    (∃ m', Live name config m' r.2.1 r.2.2) ∧ r.2.1.ackQueue ≠ q.ackQueue := by
  have hf := get_found h.ack hi
  rw [← hf.id_eq h.ack, ← h.keyed _ _ hm] at hf
  obtain ⟨r', hr', m', hkept, _⟩ := h.redeliverOrDrop hf priority
  rw [hr] at hr'; cases hr'
  refine ⟨⟨m', hkept.live⟩, fun he => ?_⟩
  obtain ⟨_, _, _, removed, hd⟩ := redeliverOrDrop_requeues hex hr
  obtain ⟨queue, hd', hs⟩ := PriorityMemoryQueue.delete_found hf h.ack
  simp only [DelayedQueue.delete, hd', Option.bind_eq_bind, Option.bind_some, Option.some.injEq] at hd
  have hq : queue = q.ackQueue.queue := by rw [← he]; exact congrArg (fun p => p.2.queue) hd
  have hcard := congrArg Multiset.card hs.held
  rw [hq, Multiset.card_cons] at hcard
  omega

theorem Failed.served (hf : Failed q store cfg faults op q') (h : Served name config q store) :
    ∃ config', Served name config' q' store := by
  cases hf with
  | before _ => exact ⟨config, h⟩
  | popped hq hd =>
    obtain ⟨hk, hl⟩ := h.live hq
    obtain ⟨r, hd', hs, _⟩ := hl.memory.dequeue _ _ _
    rw [hd] at hd'; cases hd'
    exact ⟨config, Or.inl ⟨hk, _, hl.update hs hl.ack q.notifyCh hl.keyed⟩⟩
  | released _ _ _ _ hq hu =>
    obtain ⟨hk, hl⟩ := h.live hq
    obtain ⟨m', hu', hs, _⟩ := hl.memory.updateWeights _
    rw [hu] at hu'; cases hu'
    exact ⟨config, Or.inl ⟨hk, _, hl.update hs hl.ack q.notifyCh hl.keyed⟩⟩
  | requeued _ hi hc hm hex hr =>
    rcases h with ⟨hk, m, hl⟩ | ⟨_, hidle⟩
    · rw [hl.config_eq] at hc; cases hc
      rw [hl.name_eq] at hm
      obtain ⟨⟨m', hl'⟩, _⟩ := hl.requeued hi hm hex hr
      exact ⟨config, Or.inl ⟨hk, m', hl'⟩⟩
    · rw [hidle.ack_get] at hi; cases hi
  | @configured settings settings' _ hc _ =>
    rw [h.config_eq] at hc; cases hc
    refine ⟨{ config with settings := settings' }, ?_⟩
    rcases h with ⟨hk, m, hl⟩ | ⟨hk, hidle⟩
    · exact Or.inl ⟨hk, m, { hl with config_eq := rfl, name_eq := hl.name_eq }⟩
    · exact Or.inr ⟨hk, { hidle with config_eq := rfl, name_eq := hidle.name_eq }⟩

theorem Served.attempt (h : Served name config q store) (ht : q.attempt store cfg faults op = some (e, q', store')) :
    ∃ config', Served name config' q' store' := by
  cases attempt_ends h.sound ht with
  | failed _ hf => exact hf.served h
  | served _ ht' =>
    rcases h with ⟨hk, m, hl⟩ | ⟨hk, hidle⟩
    · exact hl.attempt hk ht'
    · obtain ⟨rfl, rfl⟩ := hidle.attempt ht'
      exact ⟨config, Or.inr ⟨hk, hidle⟩⟩

/-- Attempts, each with its own failing calls. -/
def tried (cfg : Config) (s : Queue × Store) (i : Faults × Op) : Go (Option Err × Queue × Store) := s.1.attempt s.2 cfg i.1 i.2

theorem Served.tried {events : List (Event (Queue × Store) (Faults × Op) (Option Err))} (h : Served name config q store)
    (r : Run (Queue.tried cfg) (q, store) events (q', store')) : ∃ config', Served name config' q' store' :=
  r.keeps (I := fun s => ∃ config, Served name config s.1 s.2) (fun e _ hs h => by obtain ⟨config, h⟩ := h; exact h.attempt hs)
    ⟨config, h⟩

/-- A store error leaves another queue exactly if the operation writes first. -/
theorem Failed.unchanged_iff (hf : Failed q store cfg faults op q') (h : Served name config q store) :
    Unchanged q q' ↔ ¬ q.WritesFirst store cfg faults op := by
  cases hf with
  | before hw => exact iff_of_true ⟨rfl, rfl, rfl⟩ hw
  | popped hq hd =>
    refine iff_of_false (fun hu => ?_) (fun hw => hw trivial)
    obtain ⟨_, hl⟩ := h.live hq
    obtain ⟨r, hd', _, _, hready⟩ := hl.memory.dequeue _ _ _
    rw [hd] at hd'; cases hd'
    have hm := hu.queue
    rw [hq, Option.some.injEq] at hm
    dsimp only at hready
    have hcard := congrArg Multiset.card hready
    rw [← hm, Multiset.card_cons] at hcard
    omega
  | released hget hc ht hm hq hu =>
    have hiff := MemoryQueue.updateWeights_eq_iff hu
    constructor
    · rintro hsame ⟨_, config', message', m', hc', _, hm', hq', hcount⟩
      rw [hc] at hc'; cases hc'
      rw [hm] at hm'; cases hm'
      rw [hq] at hq'; cases hq'
      have := hsame.queue
      rw [hq, Option.some.injEq] at this
      exact hiff.mp this hcount
    · intro hw
      have hcount := hiff.mpr fun hcount => hw ⟨hget, _, _, _, hc, ht, hm, hq, hcount⟩
      exact ⟨by rw [hcount, hq], rfl, rfl⟩
  | requeued hget hi hc hm hex hr =>
    rcases h with ⟨_, m, hl⟩ | ⟨_, hidle⟩
    · have hid := (get_found hl.ack hi).id_eq hl.ack
      have hw := hm
      rw [hid] at hw
      rw [hl.config_eq] at hc; cases hc
      rw [hl.name_eq] at hm
      exact iff_of_false (fun hu => (hl.requeued hi hm hex hr).2 hu.ackQueue)
        (fun h => h ⟨hget, config, _, hl.config_eq, hw, hex⟩)
    · rw [hidle.ack_get] at hi; cases hi
  | configured hc hs =>
    rw [h.config_eq] at hc; cases hc
    constructor
    · rintro hsame ⟨config', settings', hc', hs', hne⟩
      rw [h.config_eq] at hc'; cases hc'
      rw [hs] at hs'; cases hs'
      have := hsame.config
      rw [h.config_eq, Option.some.injEq] at this
      exact hne (congrArg QueueConfig.settings this)
    · intro hw
      refine ⟨rfl, rfl, ?_⟩
      by_contra hne
      refine hw ⟨config, _, h.config_eq, hs, fun hsettings => hne ?_⟩
      rw [hsettings, h.config_eq]

end Queue

namespace FSM

open Queue

theorem store_error_unchanged_iff {cfg : Config} {leaderConfig : LeaderConfig} {events : List (Event FSM Entry Reply)} {f : FSM}
    {name : String} {q₀ q q' : Queue} {attempts : List (Event (Queue × Store) (Faults × Op) (Option Err))} {store store' : Store}
    {faults : Faults} {op : Op} {err : Err} (r : Runs (new cfg leaderConfig) events f)
    (hq : f.queueManager.queues.lookup name = some q₀) (ra : Run (tried cfg) (q₀, f.queueManager.store) attempts (q, store))
    (he : StoreError err) (h : q.attempt store cfg faults op = some (some err, q', store')) :
    Unchanged q q' ↔ ¬ q.WritesFirst store cfg faults op := by
  obtain ⟨config₀, _, hserved₀⟩ := r.safe.queue name q₀ hq
  obtain ⟨config, hserved⟩ := hserved₀.tried ra
  cases attempt_ends hserved.sound h with
  | failed _ hf => exact hf.unchanged_iff hserved
  | served hne _ => exact absurd he (hne err rfl)

/-- The calls of one kind fail. -/
def failing (call : StoreCall) : Faults := fun c => decide (c = call)

/-- Message 1 of group "g" in flight, message 2 ready. -/
def halfDelivered : List Entry :=
  [⟨1, 0, .createQueue "jobs" "fair" ⟨.roundRobin, 0, 0, 0⟩⟩, ⟨2, 0, .enqueue "jobs" 1 "g" 5 "" none⟩,
    ⟨3, 0, .enqueue "jobs" 2 "g" 5 "" none⟩, ⟨4, 0, .dequeue "jobs" false⟩]

theorem halfDelivered_runs : (exec apply (new defaults (.new "n1" "" "")) halfDelivered).isSome := rfl

/-- The state, the queue and the store after `halfDelivered`. -/
def halfDeliveredState : FSM := ((exec apply (new defaults (.new "n1" "" "")) halfDelivered).get halfDelivered_runs).2

theorem halfDelivered_queue : (halfDeliveredState.queueManager.queues.lookup "jobs").isSome := rfl

def halfDeliveredQueue : Queue := (halfDeliveredState.queueManager.queues.lookup "jobs").get halfDelivered_queue

/-- The attempt on "jobs" that fails. -/
def failedAttempt (call : StoreCall) (op : Op) : Go (Option Err × Queue × Store) :=
  halfDeliveredQueue.attempt halfDeliveredState.queueManager.store defaults (failing call) op

theorem store_error_unchanged_halfDelivered :
    (∃ q' store', failedAttempt .delete (.delete 2) = some (some .storage, q', store') ∧ Unchanged halfDeliveredQueue q') ∧
    ∃ q' store', failedAttempt .ack (.ack 1) = some (some .storage, q', store') ∧ ¬ Unchanged halfDeliveredQueue q' := by
  have r : Runs (new defaults (.new "n1" "" "")) _ halfDeliveredState := Run.of_exec_isSome halfDelivered_runs
  have hq : halfDeliveredState.queueManager.queues.lookup "jobs" = some halfDeliveredQueue :=
    (Option.some_get halfDelivered_queue).symm
  have hdelete : halfDeliveredQueue.attempt halfDeliveredState.queueManager.store defaults (failing .delete) (.delete 2) =
    some (some .storage, _, _) := rfl
  have hack : halfDeliveredQueue.attempt halfDeliveredState.queueManager.store defaults (failing .ack) (.ack 1) =
    some (some .storage, _, _) := rfl
  refine ⟨⟨_, _, hdelete, ?_⟩, ⟨_, _, hack, fun hu => ?_⟩⟩
  · exact (store_error_unchanged_iff r hq (.nil _) (Or.inl rfl) hdelete).mpr fun hw => hw
  · refine (store_error_unchanged_iff r hq (.nil _) (Or.inl rfl) hack).mp hu ?_
    exact ⟨rfl, _, _, _, rfl, rfl, rfl, rfl, rfl⟩

/-- A failed `Dequeue` has lost the message, a failed `Ack` the slot, a failed `Nack` has the
    message ready again, and a failed `UpdateQueue` uses the settings it did not store. -/
theorem failed_calls_that_write :
    (∃ q' store', failedAttempt .dequeue (.dequeue false 5 0) = some (some .storage, q', store') ∧
      ¬ Unchanged halfDeliveredQueue q') ∧
    (∃ q' store', failedAttempt .ack (.ack 1) = some (some .storage, q', store') ∧ ¬ Unchanged halfDeliveredQueue q') ∧
    (∃ q' store', failedAttempt .updateMessage (.nack 1 9 none) = some (some .storage, q', store') ∧
      ¬ Unchanged halfDeliveredQueue q') ∧
    (∃ q' store', failedAttempt .updateQueue (.updateQueue ⟨.roundRobin, 3, 30, 0⟩) = some (some .storage, q', store') ∧
      ¬ Unchanged halfDeliveredQueue q') := by
  refine ⟨⟨_, _, rfl, fun h => ?_⟩, ⟨_, _, rfl, fun h => ?_⟩, ⟨_, _, rfl, fun h => ?_⟩, ⟨_, _, rfl, fun h => ?_⟩⟩
  · exact absurd (congrArg (Option.map MemoryQueue.len) h.queue) (by decide)
  · exact absurd (congrArg (Option.map fun m => m.unacked "g") h.queue) (by decide)
  · exact absurd (congrArg DelayedQueue.len h.ackQueue) (by decide)
  · exact absurd h.config (by decide)

end FSM

end Doq
