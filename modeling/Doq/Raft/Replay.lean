/-
  Doq.Raft.Replay — the log applied again over the store it left behind (see `Doq.Raft.Fsm`).

  A node that restarts without a snapshot has nothing in memory and its old store, and raft
  applies the log from its first entry. While it does, the store already has what later
  entries wrote. A queue that is in memory never looks at its stored configuration, and what
  it knows of its messages is in memory too: a stored message it does not hold makes no
  difference to it (`Live.handle_two`). A queue that is missing from memory is another
  matter: it is loaded from the store.

  Proved:
  - `replay_idempotent_iff`: the replay follows the first run entry by entry and ends in its
    state, if and only if no entry finds in the store what was not there the first time: a
    configuration of a queue that is missing, or a message of a queue of an unknown type.
  - `early_enqueue_is_accepted`: a message that was refused because its queue came later in
    the log is accepted by the replay.
-/

import Doq.Queue.TwoStores
import Doq.Raft.Step

namespace Doq

open Lib Memory Storage

namespace Storage

/-- What is stored under the name is left alone or made the same, message by message, and
    nothing else is touched. -/
structure Parallel (name : String) (F G F' G' : Store) : Prop where
  first : StoreFrame name F F'
  second : StoreFrame name G G'
  stored : ∀ id, G'.messages.lookup (name, id) = F'.messages.lookup (name, id) ∨
    F'.messages.lookup (name, id) = F.messages.lookup (name, id) ∧ G'.messages.lookup (name, id) = G.messages.lookup (name, id)

variable {name : String} {F G F' G' : Store}

theorem Parallel.refl (name : String) (F G : Store) : Parallel name F G F G := ⟨.refl _ _, .refl _ _, fun _ => Or.inr ⟨rfl, rfl⟩⟩

theorem Edits.parallel {id : UInt64} (h : Edits (name, id) F G F' G') : Parallel name F G F' G' where
  first := ⟨fun n i hn => (h.other (n, i) (by simp [hn])).1, h.queues.1⟩
  second := ⟨fun n i hn => (h.other (n, i) (by simp [hn])).2, h.queues.2⟩
  stored i := by
    by_cases hi : i = id
    · exact Or.inl (hi ▸ h.here)
    · exact Or.inr (h.other (name, i) (by simp [hi]))

end Storage

/-- The stored message that a command changes, in flight or not. -/
def Command.edited : Command → Option (String × UInt64)
  | .delete queueName id => some (queueName, id)
  | .updatePriority queueName id _ => some (queueName, id)
  | _ => none

namespace FSM

variable {f f' g : FSM} {name : String} {entry : Entry} {reply : Reply} {q : Queue} {config : QueueConfig} {m : MemoryQueue}
  {cfg : Config} {F G D : Store}

/-! ## One queue -/

/-- The second store has the same messages, and others that the queue does not hold. -/
def Beyond (name : String) (m : MemoryQueue) (q : Queue) (F G : Store) : Prop :=
  ∀ id, G.messages.lookup (name, id) = F.messages.lookup (name, id) ∨
    F.messages.lookup (name, id) = none ∧ id ∉ Queue.heldIds m q.ackQueue

theorem Alike.wrapped {α : Type} {context : String} {answer : α → FSMResponse} {x y : Go (Queue.Outcome α)} {id : UInt64}
    (h : Queue.Alike (name, id) F G x y) :
    Simulates (fun a b => b.2.1 = a.2.1 ∧ Parallel name F G a.2.2 b.2.2) (x.map (wrap context name answer))
      (y.map (wrap context name answer)) :=
  h.map fun _ _ hab => ⟨hab.2.1, hab.2.2.parallel⟩

/-- A command on messages does the same on both stores. -/
theorem Live.handle_two (h : Queue.Live name config m q F) (he : entry.command.queueName = some name) (hb : Beyond name m q F G)
    (hk : Keyed name G) :
    Simulates (fun a b => b.2.1 = a.2.1 ∧ Parallel name F G a.2.2 b.2.2) (FSM.handle q F cfg entry)
      (FSM.handle q G cfg entry) := by
  have hkeyed : ∀ id msg, F.messages.lookup (config.name, id) = some msg → msg.id = id := by rw [h.name_eq]; exact h.keyed
  -- a message in flight is held, so both stores have it or neither
  have hack : ∀ id, G.messages.lookup (config.name, id) = F.messages.lookup (config.name, id) ∨
    q.ackQueue.get id = some none := by
    intro id
    rw [h.name_eq]
    exact (hb id).imp (fun h => h) fun hn => (Queue.get_unheld h hn.2 "").2
  have hn := h.name_eq
  unfold FSM.handle
  cases hc : entry.command <;> rw [hc] at he <;> cases he <;> dsimp only
  case enqueue id group priority content metadata =>
    exact Alike.wrapped (hn ▸ Queue.enqueue_alike h.config_eq id group priority content metadata)
  case dequeue ack =>
    refine (Queue.dequeue_alike h.config_eq fun m1 item m' hm1 hd => ?_).map fun a b hab => ⟨hab.2.1, ?_⟩
    · rw [h.queue_eq] at hm1; cases hm1
      obtain ⟨r, hr, _, _, hready⟩ := h.memory.dequeue ack entry.index entry.now
      rw [hd] at hr; cases hr
      rw [hn]
      refine (hb item.id).resolve_right fun hout => hout.2 (Multiset.mem_add.mpr (Or.inl ?_))
      rw [show m.ready = item ::ₘ m'.ready from hready, Multiset.map_cons]
      exact Multiset.mem_cons_self _ _
    · rcases hab.2.2 with ⟨h1, h2⟩ | ⟨id, hedit⟩
      · show Parallel name F G a.2.2 b.2.2
        rw [h1, h2]; exact .refl _ _ _
      · exact (hn ▸ hedit : Edits (name, id) F G _ _).parallel
  case get id =>
    simp only [Queue.get, h.config_eq, Option.bind_eq_bind, Option.bind_some, Option.map_some]
    exact .intro ⟨rfl, .refl _ _ _⟩
  case delete id =>
    rcases hb id with hsame | ⟨hnone, hout⟩
    · exact Alike.wrapped (hn ▸ Queue.delete_alike h.config_eq (hn.symm ▸ hsame) (hkeyed id))
    · cases hm : G.messages.lookup (name, id) with
      | none => exact Alike.wrapped (hn ▸ Queue.delete_alike h.config_eq (hn.symm ▸ (hm.trans hnone.symm)) (hkeyed id))
      | some msg =>
        have hF : q.delete F noFaults id = some (.error .messageNotFound, q, F) := by
          simp only [Queue.delete, h.config_eq, hn, Store.delete_none hnone, Option.bind_eq_bind, Option.bind_some]
        rw [hF, Queue.delete_unheld h hout hm, hk id msg hm]
        refine .intro ⟨rfl, .refl _ _, .erase _ _ _, fun i => ?_⟩
        show (G.messages.erase (name, id)).lookup (name, i) = _ ∨ _ ∧ (G.messages.erase (name, id)).lookup (name, i) = _
        rw [FinMap.lookup_erase_eq]
        by_cases hi : i = id
        · rw [if_pos (by rw [hi]), hi]; exact Or.inl hnone.symm
        · rw [if_neg (by simp [hi])]; exact Or.inr ⟨rfl, rfl⟩
  case updatePriority id priority =>
    rcases hb id with hsame | ⟨hnone, hout⟩
    · exact Alike.wrapped (hn ▸ Queue.updatePriority_alike h.config_eq (hn.symm ▸ hsame) priority)
    · rw [Queue.updatePriority_unheld h hout priority, Queue.updatePriority_unheld h hout priority]
      exact .intro ⟨rfl, .refl _ _ _⟩
  case ack id =>
    rcases hack id with hsame | hmiss
    · exact Alike.wrapped (hn ▸ Queue.ack_alike h.config_eq hsame)
    · simp only [Queue.ack, hmiss, Option.bind_eq_bind, Option.bind_some, Option.map_some]
      exact .intro ⟨rfl, .refl _ _ _⟩
  case nack id priority metadata =>
    rcases hack id with hsame | hmiss
    · refine Alike.wrapped (hn ▸ Queue.nack_alike h.config_eq hsame (hkeyed id) (fun item hget => ?_) priority metadata)
      obtain ⟨r, hr, hfound⟩ := DelayedQueue.get_spec h.ack id
      rw [hget] at hr; cases hr
      exact PriorityMemoryQueue.Found.id_eq hfound h.ack
    · simp only [Queue.nack, hmiss, Option.bind_eq_bind, Option.bind_some, Option.map_some]
      exact .intro ⟨rfl, .refl _ _ _⟩
  case touch id =>
    rcases hack id with hsame | hmiss
    · exact Alike.wrapped (hn ▸ Queue.touch_alike h.config_eq hsame entry.now)
    · simp only [Queue.touch, hmiss, Option.bind_eq_bind, Option.bind_some, Option.map_some]
      exact .intro ⟨rfl, .refl _ _ _⟩
  case ackTimeout id =>
    rcases hack id with hsame | hmiss
    · exact Alike.wrapped (hn ▸ Queue.ackTimeout_alike h.config_eq hsame (hkeyed id))
    · simp only [Queue.ackTimeout, hmiss, Option.bind_eq_bind, Option.bind_some, Option.map_some]
      exact .intro ⟨rfl, .refl _ _ _⟩

/-! ## The two runs side by side -/

/-- A node that starts again with its store and nothing in memory. -/
def restarted (f : FSM) (leaderConfig : LeaderConfig) : FSM := ⟨⟨f.queueManager.store, f.queueManager.config, ∅⟩, leaderConfig⟩

/-- The message is not there yet in the first run, but it is in the store that run left. -/
structure Early (D : Store) (f : FSM) (name : String) (id : UInt64) : Prop where
  absent : f.queueManager.store.messages.lookup (name, id) = none
  left : (D.messages.lookup (name, id)).isSome
  unheld : ∀ q m, f.queueManager.queues.lookup name = some q → q.queue = some m → id ∉ Queue.heldIds m q.ackQueue

/-- The replay `g` beside the first run `f`, which ended with the store `D`: the same queues in
    memory, and in the store what the first run has and some of what it will have. -/
structure Replaying (D : Store) (f g : FSM) : Prop where
  config : g.queueManager.config = f.queueManager.config
  queues : ∀ n, g.queueManager.queues.lookup n = f.queueManager.queues.lookup n
  configs : ∀ n, g.queueManager.store.queues.lookup n = f.queueManager.store.queues.lookup n ∨
    f.queueManager.queues.lookup n = none ∧ (D.queues.lookup n).isSome
  named : ∀ n config, g.queueManager.store.queues.lookup n = some config → config.name = n
  keyed : ∀ n, Keyed n g.queueManager.store
  stored : ∀ n id, g.queueManager.store.messages.lookup (n, id) = f.queueManager.store.messages.lookup (n, id) ∨ Early D f n id

theorem lookup_put (f : FSM) (name n : String) (q : Queue) (store : Store) :
    (f.putQueue name q store).queueManager.queues.lookup n = if n = name then some q else f.queueManager.queues.lookup n :=
  FinMap.lookup_insert_eq ..

/-- One queue replaced by the same one on both sides, and its part of the stores edited in
    parallel. -/
theorem Replaying.put (h : Replaying D f g) {q' : Queue} {F' G' : Store} (hq : f.queueManager.queues.lookup name = some q)
    (hp : Parallel name f.queueManager.store g.queueManager.store F' G') (hk : Keyed name F')
    (hheld : ∀ m' id, q'.queue = some m' → F'.messages.lookup (name, id) = none → id ∈ Queue.heldIds m' q'.ackQueue →
      ∃ m, q.queue = some m ∧ id ∈ Queue.heldIds m q.ackQueue) :
    Replaying D (f.putQueue name q' F') (g.putQueue name q' G') where
  config := h.config
  queues n := by rw [lookup_put, lookup_put, h.queues n]
  configs n := by
    show G'.queues.lookup n = F'.queues.lookup n ∨ _
    rw [hp.first.queues, hp.second.queues, lookup_put]
    rcases h.configs n with hc | ⟨hn, hD⟩
    · exact Or.inl hc
    · refine Or.inr ⟨?_, hD⟩
      rw [if_neg fun e => by rw [e, hq] at hn; cases hn]
      exact hn
  named n config hc := by
    have hc : G'.queues.lookup n = some config := hc
    rw [hp.second.queues] at hc
    exact h.named n config hc
  keyed n id msg hm := by
    have hm : G'.messages.lookup (n, id) = some msg := hm
    by_cases hn : n = name
    · subst hn
      rcases hp.stored id with he | ⟨_, he⟩
      · exact hk id msg (he ▸ hm)
      · exact h.keyed n id msg (he ▸ hm)
    · rw [hp.second.messages n id hn] at hm
      exact h.keyed n id msg hm
  stored n id := by
    show G'.messages.lookup (n, id) = F'.messages.lookup (n, id) ∨ _
    by_cases hn : n = name
    · subst hn
      rcases hp.stored id with he | ⟨hF, hG⟩
      · exact Or.inl he
      · rcases h.stored n id with he | he
        · exact Or.inl (by rw [hF, hG, he])
        · have hnone : F'.messages.lookup (n, id) = none := hF.trans he.absent
          refine Or.inr ⟨hnone, he.left, fun p m' hp' hm' hin => ?_⟩
          rw [lookup_put, if_pos rfl, Option.some.injEq] at hp'
          subst hp'
          obtain ⟨m, hm, hin⟩ := hheld m' id hm' hnone hin
          exact he.unheld q m hq hm hin
    · rw [hp.first.messages n id hn, hp.second.messages n id hn]
      refine (h.stored n id).imp (fun he => he) fun he =>
        ⟨(hp.first.messages n id hn).trans he.absent, he.left, fun p m' hp' => ?_⟩
      rw [lookup_put, if_neg hn] at hp'
      exact he.unheld p m' hp'

/-- A queue created or given other settings on both sides. -/
theorem Replaying.configure (h : Replaying D f g) {q' : Queue} (hn : config.name = name)
    (hheld : ∀ m' id, q'.queue = some m' → id ∈ Queue.heldIds m' q'.ackQueue →
      ∃ q m, f.queueManager.queues.lookup name = some q ∧ q.queue = some m ∧ id ∈ Queue.heldIds m q.ackQueue) :
    Replaying D
      (f.putQueue name q' { f.queueManager.store with queues := f.queueManager.store.queues.insert name config })
      (g.putQueue name q' { g.queueManager.store with queues := g.queueManager.store.queues.insert name config }) where
  config := h.config
  queues n := by rw [lookup_put, lookup_put, h.queues n]
  configs n := by
    show (g.queueManager.store.queues.insert name config).lookup n = (f.queueManager.store.queues.insert name config).lookup n ∨ _
    rw [FinMap.lookup_insert_eq, FinMap.lookup_insert_eq, lookup_put]
    by_cases he : n = name
    · rw [if_pos he, if_pos he]; exact Or.inl rfl
    · rw [if_neg he, if_neg he, if_neg he]; exact h.configs n
  named n c hc := by
    have hc : (g.queueManager.store.queues.insert name config).lookup n = some c := hc
    rw [FinMap.lookup_insert_eq] at hc
    split at hc
    · rename_i e; cases hc; exact hn.trans e.symm
    · exact h.named n c hc
  keyed := h.keyed
  stored n id := by
    refine (h.stored n id).imp (fun he => he) fun he => ⟨he.absent, he.left, fun p m' hp hm' hin => ?_⟩
    rw [lookup_put] at hp
    split at hp
    · rename_i e
      cases hp; subst e
      obtain ⟨q, m, hq, hm, hin⟩ := hheld m' id hm' hin
      exact he.unheld q m hq hm hin
    · exact he.unheld p m' hp hm' hin

/-- A queue deleted on the second side, where it is stored, and gone or missing on the first. -/
theorem Replaying.without (h : Replaying D f g) {f' : FSM} (hconfig : f'.queueManager.config = f.queueManager.config)
    (hq : ∀ n, f'.queueManager.queues.lookup n = if n = name then none else f.queueManager.queues.lookup n)
    (hc : ∀ n, f'.queueManager.store.queues.lookup n = if n = name then none else f.queueManager.store.queues.lookup n)
    (hm : ∀ key, f'.queueManager.store.messages.lookup key = (f.queueManager.store.messages.lookup key).filter
      fun _ => !scanned name key) :
    Replaying D f' (g.withoutQueue name) where
  config := h.config.trans hconfig.symm
  queues n := by
    rw [hq n, ← h.queues n]
    exact FinMap.lookup_erase_eq ..
  configs n := by
    show (g.queueManager.store.queues.erase name).lookup n = _ ∨ _
    rw [FinMap.lookup_erase_eq, hc n, hq n]
    by_cases he : n = name
    · rw [if_pos he, if_pos he]; exact Or.inl rfl
    · rw [if_neg he, if_neg he, if_neg he]; exact h.configs n
  named n config hl := by
    have hl : (g.queueManager.store.queues.erase name).lookup n = some config := hl
    rw [FinMap.lookup_erase_eq] at hl
    split at hl
    · cases hl
    · exact h.named n config hl
  keyed n id msg hl := by
    have hl : (g.queueManager.store.messages.filter fun key _ => !scanned name key).lookup (n, id) = some msg := hl
    rw [FinMap.lookup_filter] at hl
    exact h.keyed n id msg (Option.filter_eq_some_iff.mp hl).1
  stored n id := by
    show (g.queueManager.store.messages.filter fun key _ => !scanned name key).lookup (n, id) = _ ∨ _
    rw [FinMap.lookup_filter, hm]
    rcases h.stored n id with he | he
    · rw [he]; exact Or.inl rfl
    · have hnone : f'.queueManager.store.messages.lookup (n, id) = none := by rw [hm, he.absent]; rfl
      refine Or.inr ⟨hnone, he.left, fun p m hp => ?_⟩
      rw [hq n] at hp
      split at hp
      · cases hp
      · exact he.unheld p m hp

/-! ## Queues loaded from the store -/

theorem queueOrNew_loaded (hq : g.queueManager.queues.lookup name = none)
    (hs : g.queueManager.store.queues.lookup name = some config) :
    g.queueManager.queueOrNew name =
      if g.queueManager.config.prometheusEnabled = true ∧ ¬ Queue.KnownType config.type then none
      else some (Queue.created config.name config.type config.settings) := by
  simp only [QueueManager.queueOrNew, hq, Queue.load, Store.loadQueue, hs, noFaults, Bool.false_eq_true, if_false,
    Queue.updatePrometheusQueueSizes, Queue.init, Queue.created, Option.bind_eq_bind]
  by_cases hk : g.queueManager.config.prometheusEnabled = true ∧ ¬ Queue.KnownType config.type
  · rw [if_pos hk, if_pos hk.1, Queue.memoryQueue_unknown hk.2]
    rfl
  · rw [if_neg hk]
    split
    · rename_i hp
      obtain ⟨m, hm, _⟩ := Queue.memoryQueue_known (not_not.mp fun h => hk ⟨hp, h⟩) config.settings
      rw [hm]
      rfl
    · rfl

theorem applyDeleteQueue_loaded (hq : g.queueManager.queues.lookup name = none)
    (hs : g.queueManager.store.queues.lookup name = some config) (hn : config.name = name) :
    g.applyDeleteQueue name =
      if g.queueManager.config.prometheusEnabled = true ∧ ¬ Queue.KnownType config.type then none
      else some (.ofQueue name, g.withoutQueue name) := by
  unfold applyDeleteQueue QueueManager.deleteQueue
  rw [queueOrNew_loaded hq hs]
  split
  · rfl
  · rename_i hk
    simp only [Queue.deleteQueue, Queue.created, Queue.init, Store.deleteQueue, noFaults, Bool.false_eq_true,
      if_false, Queue.stop, if_true,
      Queue.notify, Queue.updatePrometheusQueueSizes, Option.bind_eq_bind, Option.bind_some, hn]
    split
    · rename_i hp
      obtain ⟨m, hm, _⟩ := Queue.memoryQueue_known (not_not.mp fun h => hk ⟨hp, h⟩) config.settings
      rw [hm]
      rfl
    · rfl

/-- A command on messages leaves the queue it loaded in memory. -/
theorem onQueue_loaded {α : Type} {context : String} {method : Queue → Store → Config → Go (Queue.Outcome α)}
    {answer : α → FSMResponse} {reply : Reply} {g' : FSM} (hs : g.queueManager.store.queues.lookup name = some config)
    (h : respond (g.onQueue name context method answer) = some (reply, g')) : g'.queueManager.queues.lookup name ≠ none := by
  obtain ⟨⟨response, _⟩, h, hr⟩ := Option.bind_eq_some_iff.mp h
  cases hr
  unfold onQueue at h
  obtain ⟨⟨r, qm⟩, hget, h⟩ := Option.bind_eq_some_iff.mp h
  have hok : ∃ q, r = .ok q := by
    unfold QueueManager.getQueue at hget
    split at hget
    · cases hget; exact ⟨_, rfl⟩
    · simp only [Queue.load, Store.loadQueue, hs, noFaults, Bool.false_eq_true, if_false] at hget
      obtain ⟨⟨r', q⟩, hload, hget⟩ := Option.bind_eq_some_iff.mp hget
      obtain ⟨_, _, hload⟩ := Option.bind_eq_some_iff.mp hload
      cases hload; cases hget
      exact ⟨_, rfl⟩
  obtain ⟨q, rfl⟩ := hok
  obtain ⟨⟨r, q', store⟩, _, h⟩ := Option.bind_eq_some_iff.mp h
  have hf : g' = ({ g with queueManager := qm } : FSM).putQueue name q' store := by cases r <;> cases h <;> rfl
  rw [hf, lookup_put, if_pos rfl]
  exact Option.some_ne_none _

theorem apply_loaded {reply : Reply} {g' : FSM} (he : entry.command.queueName = some name)
    (hs : g.queueManager.store.queues.lookup name = some config) (h : g.apply entry = some (reply, g')) :
    g'.queueManager.queues.lookup name ≠ none := by
  unfold apply at h
  cases hc : entry.command <;> rw [hc] at he h <;> cases he <;> exact onQueue_loaded hs h

/-! ## One entry -/

/-- With the replay's store in place of its own, the state `f` of the first run takes the entry
    in the same way: the queue it names is not missing and stored; one that is deleted while
    missing is of a known type (or no gauges are read) and no message lies under its prefix;
    a queue of an unknown type has no message. -/
structure Blind (f : FSM) (store : Store) (entry : Entry) : Prop where
  missing : ∀ n, entry.command.queueName = some n → f.queueManager.queues.lookup n = none → store.queues.lookup n = none
  deleted : ∀ n config, entry.command = .deleteQueue n → f.queueManager.queues.lookup n = none →
    store.queues.lookup n = some config →
    (f.queueManager.config.prometheusEnabled = true → Queue.KnownType config.type) ∧
    ∀ key msg, f.queueManager.store.messages.lookup key = some msg → scanned n key = false
  unknown : ∀ n id q, entry.command.edited = some (n, id) → f.queueManager.queues.lookup n = some q → q.queue = none →
    store.messages.lookup (n, id) = none

theorem Replaying.leader (h : Replaying D f g) (c c' : LeaderConfig) :
    Replaying D { f with leaderConfig := c } { g with leaderConfig := c' } :=
  ⟨h.config, h.queues, h.configs, h.named, h.keyed,
    fun n id => (h.stored n id).imp (fun e => e) fun e => ⟨e.absent, e.left, e.unheld⟩⟩

theorem Live.enqueued_stored {store' : Store} {response : FSMResponse} {q' : Queue} {id : UInt64}
    (h : Queue.Live name config m q F)
    (he : entry.command.queueName = some name) (hid : entry.command.enqueued = some id)
    (hh : FSM.handle q F cfg entry = some (response, q', store')) : (store'.messages.lookup (name, id)).isSome := by
  cases hc : entry.command <;> rw [hc] at he hid <;> cases hid
  case enqueue n group priority content metadata =>
    cases he
    simp only [FSM.handle, hc] at hh
    have hen : Returns (q.enqueue F cfg noFaults id group priority content metadata) _ :=
      h.enqueue group priority content metadata
    obtain ⟨⟨r, q1, store1⟩, hr, m', _, hs, _⟩ := hen
    rw [hr] at hh; cases hh
    rw [show store' = _ from hs, FinMap.lookup_insert_eq, if_pos rfl]
    rfl

/-- A queue of an unknown type with a store that has not the message a command changes. -/
theorem Idle.handle_two (h : Queue.Idle name config q F) (he : entry.command.queueName = some name)
    (hs : schedules entry.command = false)
    (hm : ∀ id, entry.command.edited = some (name, id) → G.messages.lookup (name, id) = none) :
    ∃ response, FSM.handle q G cfg entry = some (response, q, G) := by
  unfold FSM.handle
  cases hc : entry.command <;> rw [hc] at he hm hs <;> cases he <;> cases hs <;>
    simp only [Queue.get, Queue.delete, Queue.ack, Queue.nack, Queue.touch, Queue.ackTimeout, Queue.updatePriority,
      h.config_eq, h.name_eq,
      h.ack_get, Option.bind_eq_bind, Option.bind_some, Option.map_some]
  case get id => exact ⟨_, rfl⟩
  case delete id => rw [Store.delete_none (hm id rfl)]; exact ⟨_, rfl⟩
  case updatePriority id priority => rw [Store.get_none (hm id rfl)]; exact ⟨_, rfl⟩
  all_goals exact ⟨_, rfl⟩

/-- A command on messages of a queue in memory. -/
theorem Replaying.handled (h : Replaying D f g) (hsafe : Safe f) (hb : Blind f g.queueManager.store entry)
    (he : entry.command.queueName = some name) (hq : f.queueManager.queues.lookup name = some q)
    (hs : f.apply entry = some (reply, f')) : ∃ reply' g', g.apply entry = some (reply', g') ∧ Replaying D f' g' := by
  have hq' : g.queueManager.queues.lookup name = some q := (h.queues name).trans hq
  rw [apply_handle he hq] at hs
  rw [apply_handle he hq', h.config]
  obtain ⟨⟨response, q', F'⟩, hF, hs⟩ := Option.map_eq_some_iff.mp hs
  cases hs
  obtain ⟨config, _, hserved⟩ := hsafe.queue name q hq
  rcases hserved with ⟨_, m, hl⟩ | ⟨_, hi⟩
  · have hbeyond : Beyond name m q f.queueManager.store g.queueManager.store := fun id =>
      (h.stored name id).imp (fun e => e) fun e => ⟨e.absent, e.unheld q m hq hl.queue_eq⟩
    obtain ⟨⟨response', q'', G'⟩, hG, heq, hp⟩ := Live.handle_two hl he hbeyond (h.keyed name) _ hF
    obtain rfl : q' = q'' := heq.symm
    rw [hG]
    refine ⟨_, _, rfl, ?_⟩
    have hret : Returns (FSM.handle q f.queueManager.store f.queueManager.config entry) _ := Live.handle hl he
    obtain ⟨r, hr, m', hh⟩ := hret
    rw [hF] at hr; cases hr
    refine h.put hq hp hh.live.keyed fun m1 id hm1 hnone hin => ⟨m, hl.queue_eq, ?_⟩
    rw [show q'.queue = some m' from hh.live.queue_eq, Option.some.injEq] at hm1
    subst hm1
    -- an id that is enqueued now is stored now
    refine (hh.held id hin).resolve_right fun hen => ?_
    have := Live.enqueued_stored hl he hen hF
    rw [hnone] at this; cases this
  · have hidle := Idle.handle hi he f.queueManager.config
    split at hidle
    · rw [hidle] at hF; cases hF
    · rename_i hsch
      obtain ⟨response', hF', _⟩ := hidle
      rw [hF] at hF'; cases hF'
      obtain ⟨response', hG⟩ := Idle.handle_two hi he (Bool.eq_false_iff.mpr hsch) fun id hid =>
        hb.unknown name id q hid hq hi.queue_eq
      rw [hG]
      refine ⟨_, _, rfl, h.put hq (.refl _ _ _) (fun id msg hm => ?_) fun m' id hm' => ?_⟩
      · rw [hi.empty id] at hm; cases hm
      · rw [hi.queue_eq] at hm'; cases hm'

theorem Replaying.created (h : Replaying D f g) {n queueType : String} {settings : QueueSettings}
    (hc : entry.command = .createQueue n queueType settings) (hs : f.apply entry = some (reply, f')) :
    ∃ reply' g', g.apply entry = some (reply', g') ∧ Replaying D f' g' := by
  have hap : ∀ e : FSM, e.apply entry = respond (some (e.applyCreateQueue n queueType settings)) := fun e => by
    unfold apply; rw [hc]
  rw [hap] at hs ⊢
  cases hq : f.queueManager.queues.lookup n with
  | some q =>
    rw [applyCreateQueue_found hq] at hs
    rw [applyCreateQueue_found ((h.queues n).trans hq)]
    cases hs
    exact ⟨_, _, rfl, h⟩
  | none =>
    rw [applyCreateQueue_new hq] at hs
    rw [applyCreateQueue_new ((h.queues n).trans hq), h.config]
    cases ha : Queue.newSettings f.queueManager.config queueType settings with
    | error e => rw [ha] at hs; cases hs; exact ⟨_, _, rfl, h⟩
    | ok settings' =>
      rw [ha] at hs; cases hs
      refine ⟨_, _, rfl, h.configure rfl fun m' id hm' hin => ?_⟩
      rw [Queue.created_held hm'] at hin
      exact absurd hin (Multiset.notMem_zero id)

theorem Replaying.updated (h : Replaying D f g) (hsafe : Safe f) {n : String} {settings : QueueSettings}
    (hc : entry.command = .updateQueue n settings) (hs : f.apply entry = some (reply, f')) :
    ∃ reply' g', g.apply entry = some (reply', g') ∧ Replaying D f' g' := by
  have hap : ∀ e : FSM, e.apply entry = respond (e.applyUpdateQueue n settings) := fun e => by unfold apply; rw [hc]
  rw [hap] at hs ⊢
  cases hstored : f.queueManager.store.queues.lookup n with
  | none => rw [applyUpdateQueue_missing (hsafe.lookup_none.mp hstored) hstored] at hs; cases hs
  | some config =>
    obtain ⟨q, hq, hserved⟩ := hsafe.served hstored
    rw [applyUpdateQueue_found hq hserved.config_eq hserved.name_eq] at hs
    rw [applyUpdateQueue_found ((h.queues n).trans hq) hserved.config_eq hserved.name_eq, h.config]
    cases ha : Queue.changedSettings f.queueManager.config config settings with
    | error e => rw [ha] at hs; cases hs; exact ⟨_, _, rfl, h⟩
    | ok settings' =>
      rw [ha] at hs
      cases hm : q.queue with
      | none => rw [hm] at hs; cases hs
      | some m =>
        rw [hm] at hs; cases hs
        refine ⟨_, _, rfl, h.configure hserved.name_eq fun m' id hm' hin => ⟨q, m, hq, hm, ?_⟩⟩
        cases hm'
        rcases hserved with ⟨_, m₀, hl⟩ | ⟨_, hi⟩
        · rw [hl.queue_eq] at hm; cases hm
          rwa [Queue.heldIds_ready (hl.memory.updateMaxUnacked (Queue.limit_toNat _)).2.2] at hin
        · rw [hi.queue_eq] at hm; cases hm

theorem Replaying.deleted (h : Replaying D f g) (hsafe : Safe f) (hb : Blind f g.queueManager.store entry) {n : String}
    (hc : entry.command = .deleteQueue n) (hs : f.apply entry = some (reply, f')) :
    ∃ reply' g', g.apply entry = some (reply', g') ∧ Replaying D f' g' := by
  have hap : ∀ e : FSM, e.apply entry = respond (e.applyDeleteQueue n) := fun e => by unfold apply; rw [hc]
  rw [hap] at hs ⊢
  cases hq : f.queueManager.queues.lookup n with
  | some q =>
    obtain ⟨config, _, hserved⟩ := hsafe.queue n q hq
    rw [applyDeleteQueue_found hq hserved.config_eq hserved.name_eq hserved.running] at hs
    rw [applyDeleteQueue_found ((h.queues n).trans hq) hserved.config_eq hserved.name_eq hserved.running, h.config]
    split at hs
    · cases hs
    · rename_i hok
      cases hs
      rw [if_neg hok]
      exact ⟨_, _, rfl, h.without rfl (fun _ => FinMap.lookup_erase_eq ..) (fun _ => FinMap.lookup_erase_eq ..)
        fun _ => FinMap.lookup_filter ..⟩
  | none =>
    obtain ⟨hnone, hempty⟩ := hsafe.missing n hq
    rw [applyDeleteQueue_missing hq hnone] at hs
    cases hs
    have hq' : g.queueManager.queues.lookup n = none := (h.queues n).trans hq
    cases hstored : g.queueManager.store.queues.lookup n with
    | none =>
      rw [applyDeleteQueue_missing hq' hstored]
      exact ⟨_, _, rfl, h⟩
    | some config =>
      obtain ⟨hknown, hscan⟩ := hb.deleted n config hc hq hstored
      rw [applyDeleteQueue_loaded hq' hstored (h.named n config hstored), h.config, if_neg fun hk => hk.2 (hknown hk.1)]
      refine ⟨_, _, rfl, h.without rfl (fun n' => ?_) (fun n' => ?_) fun key => ?_⟩
      · split
        · rename_i e; rw [e]; exact hq
        · rfl
      · split
        · rename_i e; rw [e]; exact hnone
        · rfl
      · cases hl : f.queueManager.store.messages.lookup key with
        | none => rfl
        | some msg => rw [hscan key msg hl]; rfl

/-- The replay of one entry. -/
theorem Replaying.step (h : Replaying D f g) (hsafe : Safe f) (hb : Blind f g.queueManager.store entry)
    (hs : f.apply entry = some (reply, f')) : ∃ reply' g', g.apply entry = some (reply', g') ∧ Replaying D f' g' := by
  cases hc : entry.command with
  | createQueue n queueType settings => exact h.created hc hs
  | updateQueue n settings => exact h.updated hsafe hc hs
  | deleteQueue n => exact h.deleted hsafe hb hc hs
  | leaderConfigChange nodeId raftAddr grpcAddr httpAddr =>
    simp only [apply, hc] at hs ⊢
    cases hs
    exact ⟨_, _, rfl, h.leader _ _⟩
  | unset =>
    simp only [apply, hc] at hs ⊢
    cases hs
    exact ⟨_, _, rfl, h⟩
  | _ =>
    obtain ⟨n, he⟩ : ∃ n, entry.command.queueName = some n := by rw [hc]; exact ⟨_, rfl⟩
    cases hq : f.queueManager.queues.lookup n with
    | some q => exact h.handled hsafe hb he hq hs
    | none =>
      rw [apply_missing he hq (hsafe.missing n hq).1] at hs
      cases hs
      exact ⟨_, _, apply_missing he ((h.queues n).trans hq) (hb.missing n he hq), h⟩

/-- The same queues in memory, and everything stored in the first state stored in the second. -/
structure Agrees (f g : FSM) : Prop where
  queues : ∀ n, g.queueManager.queues.lookup n = f.queueManager.queues.lookup n
  configs : ∀ n config, f.queueManager.store.queues.lookup n = some config → g.queueManager.store.queues.lookup n = some config
  stored : ∀ key msg, f.queueManager.store.messages.lookup key = some msg → g.queueManager.store.messages.lookup key = some msg

theorem Replaying.agrees (h : Replaying D f g) (hsafe : Safe f) : Agrees f g where
  queues := h.queues
  configs n config hc := by
    rcases h.configs n with he | ⟨hq, _⟩
    · rw [he]; exact hc
    · rw [(hsafe.missing n hq).1] at hc; cases hc
  stored key msg hm := by
    rcases h.stored key.1 key.2 with he | he
    · exact he.trans hm
    · rw [he.absent] at hm; cases hm

/-- A queue of an unknown type panics on a message it finds in the store. -/
theorem edited_unknown {id : UInt64} {msg : Message} (he : entry.command.edited = some (name, id)) (hc : q.config = some config)
    (hn : config.name = name) (hq : q.queue = none) (hm : G.messages.lookup (name, id) = some msg) :
    handle q G cfg entry = none := by
  unfold handle
  cases hcmd : entry.command <;> rw [hcmd] at he <;> cases he
  case delete => simp only [Queue.delete, hc, hn, Store.delete_some hm, hq, Option.bind_eq_bind, Option.bind_some,
    Option.bind_none, Option.map_none]
  case updatePriority priority =>
    simp only [Queue.updatePriority, hc, hn, Store.get_some hm, hq, Option.bind_eq_bind, Option.bind_some,
      Option.bind_none, Option.map_none]

/-- An entry that left the two states in agreement has seen nothing. -/
theorem Replaying.blind (h : Replaying D f g) (hsafe : Safe f) {reply' : Reply} {g' : FSM} (hs : f.apply entry = some (reply, f'))
    (hs' : g.apply entry = some (reply', g')) (ha : Agrees f' g') : Blind f g.queueManager.store entry where
  missing n he hq := by
    cases hstored : g.queueManager.store.queues.lookup n with
    | none => rfl
    | some config =>
      rw [apply_missing he hq (hsafe.missing n hq).1] at hs
      cases hs
      exact absurd ((ha.queues n).trans hq) (apply_loaded he hstored hs')
  deleted n config hc hq hstored := by
    have hap : ∀ e : FSM, e.apply entry = respond (e.applyDeleteQueue n) := fun e => by unfold apply; rw [hc]
    rw [hap, applyDeleteQueue_missing hq (hsafe.missing n hq).1] at hs
    rw [hap, applyDeleteQueue_loaded ((h.queues n).trans hq) hstored (h.named n config hstored), h.config] at hs'
    cases hs
    split at hs'
    · cases hs'
    · rename_i hok
      cases hs'
      refine ⟨fun hp => not_not.mp fun hk => hok ⟨hp, hk⟩, fun key msg hm => ?_⟩
      have hl : (g.queueManager.store.messages.filter fun key _ => !scanned n key).lookup key = some msg := ha.stored key msg hm
      rw [FinMap.lookup_filter] at hl
      exact Bool.not_eq_true' _ ▸ (Option.filter_eq_some_iff.mp hl).2
  unknown n id q he hq hnone := by
    cases hm : g.queueManager.store.messages.lookup (n, id) with
    | none => rfl
    | some msg =>
      obtain ⟨config, _, hserved⟩ := hsafe.queue n q hq
      have hn : entry.command.queueName = some n := by cases hc : entry.command <;> rw [hc] at he <;> cases he <;> rfl
      rw [apply_handle hn ((h.queues n).trans hq), edited_unknown he hserved.config_eq hserved.name_eq hnone hm] at hs'
      cases hs'

/-! ## The whole log -/

theorem Replaying.start {cfg : Config} {leaderConfig leaderConfig' : LeaderConfig} {events : List (Event FSM Entry Reply)}
    (r : Runs (new cfg leaderConfig) events f) :
    Replaying f.queueManager.store (new cfg leaderConfig) (f.restarted leaderConfig') where
  config := r.config_eq
  queues n := rfl
  configs n := by
    show f.queueManager.store.queues.lookup n = none ∨ _
    cases hc : f.queueManager.store.queues.lookup n with
    | none => exact Or.inl rfl
    | some config => exact Or.inr ⟨rfl, rfl⟩
  named n config hc := by
    obtain ⟨q, _, hserved⟩ := r.safe.served hc
    exact hserved.name_eq
  keyed n id msg hm := by
    have hm : f.queueManager.store.messages.lookup (n, id) = some msg := hm
    cases hq : f.queueManager.queues.lookup n with
    | none => rw [(r.safe.missing n hq).2 id] at hm; cases hm
    | some q =>
      obtain ⟨config, _, hserved⟩ := r.safe.queue n q hq
      rcases hserved with ⟨_, m, hl⟩ | ⟨_, hi⟩
      · exact hl.keyed id msg hm
      · rw [hi.empty id] at hm; cases hm
  stored n id := by
    show f.queueManager.store.messages.lookup (n, id) = none ∨ _
    cases hm : f.queueManager.store.messages.lookup (n, id) with
    | none => exact Or.inl rfl
    | some msg => exact Or.inr ⟨rfl, by rw [hm]; rfl, fun q m hq => by cases hq⟩

/-- The entry on both sides, and what holds after it. -/
def Follows (e e' : Event FSM Entry Reply) : Prop := e'.input = e.input ∧ Agrees e.after e'.after

/-- What every entry finds in the store of the replay that has come to it. -/
def AllBlind (g₀ : FSM) (events : List (Event FSM Entry Reply)) : Prop :=
  ∀ done e rest, events = done ++ e :: rest → ∀ done' g, Runs g₀ done' g → done'.map Event.input = done.map Event.input →
    Blind e.before g.queueManager.store e.input

section Runs

variable {f₀ g₀ : FSM} {events events' : List (Event FSM Entry Reply)}

theorem Replaying.run (r : Runs f₀ events f) (hsafe : Safe f₀) (h : Replaying D f₀ g₀) (hb : AllBlind g₀ events) :
    ∃ events' g, Runs g₀ events' g ∧ List.Forall₂ Follows events events' ∧ Safe f ∧ Replaying D f g := by
  induction r generalizing g₀ with
  | nil => exact ⟨[], g₀, .nil _, .nil, hsafe, h⟩
  | cons hs _ ih =>
    obtain ⟨reply', g', hg, h'⟩ := h.step hsafe (hb [] _ _ rfl [] g₀ (.nil _) rfl) hs
    have hb' : AllBlind g' _ := fun done e rest he done' g hr hin =>
      hb (_ :: done) e rest (congrArg (_ :: ·) he) (⟨g₀, _, reply', g'⟩ :: done') g (.cons hg hr) (congrArg (_ :: ·) hin)
    obtain ⟨events', g, hr, hall, hend⟩ := ih (hsafe.step hs) h' hb'
    exact ⟨_, g, .cons hg hr, .cons ⟨rfl, h'.agrees (hsafe.step hs)⟩ hall, hend⟩

theorem Replaying.allBlind (r : Runs f₀ events f) (r' : Runs g₀ events' g) (hsafe : Safe f₀) (h : Replaying D f₀ g₀)
    (hall : List.Forall₂ Follows events events') : AllBlind g₀ events := by
  induction r generalizing g₀ events' with
  | nil => intro done e rest he; exact absurd he (by simp)
  | cons hs _ ih =>
    cases hall with
    | cons hhead htail =>
    cases r' with
    | cons hs' hrun' =>
    obtain ⟨rfl, hagree⟩ := hhead
    have hb := h.blind hsafe hs hs' hagree
    obtain ⟨_, _, hg, h'⟩ := h.step hsafe hb hs
    rw [hs'] at hg; cases hg
    intro done e rest he done' g hr hin
    cases done with
    | nil =>
      cases he
      cases hr with
      | nil => exact hb
      | cons _ _ => cases hin
    | cons e₀ done =>
      cases he
      cases hr with
      | nil => cases hin
      | cons hs₁ hr =>
        obtain ⟨hi, htl⟩ := List.cons.inj hin
        cases hi
        rw [hs'] at hs₁; cases hs₁
        exact ih hrun' (hsafe.step hs) h' htail done e rest rfl _ g hr htl

end Runs

/-- At the end nothing is early any more. -/
theorem Replaying.same (h : Replaying f.queueManager.store f g) (hsafe : Safe f) : Agrees f g ∧ Agrees g f := by
  refine ⟨h.agrees hsafe, fun n => (h.queues n).symm, fun n config hc => ?_, fun key msg hm => ?_⟩
  · rcases h.configs n with he | ⟨hq, hD⟩
    · rw [← he]; exact hc
    · rw [(hsafe.missing n hq).1] at hD; cases hD
  · rcases h.stored key.1 key.2 with he | he
    · exact he.symm.trans hm
    · have := he.left
      rw [he.absent] at this; cases this

/-- The queue an entry names, if it names one without creating it, is in memory and of a known
    type. -/
def Present (f : FSM) (entry : Entry) : Bool :=
  (addressed entry.command).all fun n => ((f.queueManager.queues.lookup n).bind Queue.queue).isSome

theorem queueName_of_edited {id : UInt64} (h : entry.command.edited = some (name, id)) : entry.command.queueName = some name := by
  cases hc : entry.command <;> rw [hc] at h <;> cases h <;> rfl

theorem Present.blind (h : Present f entry = true) (store : Store) : Blind f store entry := by
  have hq : ∀ n, addressed entry.command = some n → ((f.queueManager.queues.lookup n).bind Queue.queue).isSome := by
    intro n hn
    unfold Present at h
    rw [hn] at h
    exact h
  refine ⟨fun n he hnone => ?_, fun n config hc hnone => ?_, fun n id q he hfound hnone => ?_⟩
  · have := hq n (addressed_of_queueName he)
    rw [hnone] at this; cases this
  · have := hq n (by rw [hc]; rfl)
    rw [hnone] at this; cases this
  · have := hq n (addressed_of_queueName (queueName_of_edited he))
    rw [hfound, Option.bind_some, hnone] at this; cases this

/-- A log in which every queue is created before it is used. -/
theorem allBlind_of_present {events : List (Event FSM Entry Reply)}
    (h : (events.all fun e => Present e.before e.input) = true) (g₀ : FSM) :
    AllBlind g₀ events := by
  rintro done e rest rfl done' g _ _
  exact Present.blind (List.all_eq_true.mp h e (by simp)) _

theorem replay_idempotent_iff {cfg : Config} {leaderConfig leaderConfig' : LeaderConfig}
    {events : List (Event FSM Entry Reply)} {f : FSM}
    (r : Runs (new cfg leaderConfig) events f) :
    (∃ events' g, Runs (f.restarted leaderConfig') events' g ∧ List.Forall₂ Follows events events' ∧ Agrees f g ∧ Agrees g f) ↔
      AllBlind (f.restarted leaderConfig') events := by
  have hstart : Replaying f.queueManager.store (new cfg leaderConfig) (f.restarted leaderConfig') := Replaying.start r
  constructor
  · rintro ⟨events', g, r', hall, _⟩
    exact hstart.allBlind r r' (new_safe cfg leaderConfig) hall
  · intro hb
    obtain ⟨events', g, r', hall, hsafe, hend⟩ := Replaying.run r (new_safe cfg leaderConfig) hstart hb
    exact ⟨events', g, r', hall, hend.same hsafe⟩

/-- A queue with one message in flight and one dropped at its delivery limit, and one deleted. -/
def ordinaryLog : List Entry :=
  [⟨1, 0, .createQueue "jobs" "delayed" ⟨.unspecified, 0, 0, 1⟩⟩, ⟨2, 0, .createQueue "mail" "delayed" plain⟩,
    ⟨3, 0, .enqueue "jobs" 1 "" 0 "" none⟩, ⟨4, 1, .dequeue "jobs" false⟩, ⟨5, 2, .nack "jobs" 1 0 none⟩,
    ⟨6, 3, .enqueue "jobs" 2 "" 0 "" none⟩, ⟨7, 4, .dequeue "jobs" false⟩, ⟨8, 5, .enqueue "mail" 3 "" 0 "" none⟩,
    ⟨9, 6, .deleteQueue "mail"⟩]

theorem ordinaryLog_runs : (exec apply (new defaults (.new "n1" "" "")) ordinaryLog).isSome := rfl

theorem ordinary_log_replayed : ∃ events f events' g, Runs (new defaults (.new "n1" "" "")) events f ∧
    events.map Event.input = ordinaryLog ∧ Runs (f.restarted (.new "n1" "" "")) events' g ∧ List.Forall₂ Follows events events' ∧
    Agrees f g ∧ Agrees g f := by
  have r := Run.of_exec_isSome ordinaryLog_runs
  have hpresent : (((exec apply (new defaults (.new "n1" "" "")) ordinaryLog).get ordinaryLog_runs).1.all fun e =>
    Present e.before e.input) = true := by decide +kernel
  obtain ⟨events', g, r', hall, h1, h2⟩ := (@replay_idempotent_iff _ _ (.new "n1" "" "") _ _ r).mpr
    (allBlind_of_present hpresent _)
  exact ⟨_, _, events', g, r, rfl, r', hall, h1, h2⟩

/-- A message for a queue that is created only after it. -/
def earlyEnqueue : List Entry := [⟨1, 0, .enqueue "mail" 1 "" 0 "" none⟩, ⟨2, 0, .createQueue "mail" "delayed" plain⟩]

theorem earlyEnqueue_runs : (exec apply (new defaults (.new "n1" "" "")) earlyEnqueue).isSome := rfl

def earlyEnqueueState : FSM := ((exec apply (new defaults (.new "n1" "" "")) earlyEnqueue).get earlyEnqueue_runs).2

theorem earlyEnqueue_replays : (exec apply (earlyEnqueueState.restarted (.new "n1" "" "")) earlyEnqueue).isSome := rfl

/-- The replay finds the queue in the store and takes the message. -/
theorem early_enqueue_is_accepted :
    let g := ((exec apply (earlyEnqueueState.restarted (.new "n1" "" "")) earlyEnqueue).get earlyEnqueue_replays).2
    (∃ events, Runs (new defaults (.new "n1" "" "")) events earlyEnqueueState ∧ events.map Event.input = earlyEnqueue) ∧
    (∃ events', Runs (earlyEnqueueState.restarted (.new "n1" "" "")) events' g ∧ events'.map Event.input = earlyEnqueue) ∧
    earlyEnqueueState.queueManager.store.messages.lookup ("mail", 1) = none ∧
    (g.queueManager.store.messages.lookup ("mail", 1)).isSome ∧
    (earlyEnqueueState.queueManager.queues.lookup "mail").bind Queue.getStats =
      some ⟨"mail", "delayed", ⟨.unspecified, 0, 60, 0⟩, 0, 0, 0⟩ ∧
    (g.queueManager.queues.lookup "mail").bind Queue.getStats = some ⟨"mail", "delayed", ⟨.unspecified, 0, 60, 0⟩, 1, 0, 1⟩ :=
  ⟨⟨_, Run.of_exec_isSome earlyEnqueue_runs, rfl⟩, ⟨_, Run.of_exec_isSome earlyEnqueue_replays, rfl⟩, rfl, rfl, rfl, rfl⟩

end FSM

end Doq
