/-
  Doq.Raft.Recreate — which queues a restore brings back (see `Doq.Raft.Restore`).

  `Restore` recreates a queue through `CreateQueue`, with the stored settings. `CreateQueue`
  checks more than `UpdateQueue` does: a delayed queue may be given a `max_unacked` by an
  update but not at creation, and a default ack timeout under ten seconds is filled in
  without a check but refused when it comes back as a setting. Such a queue is skipped, and
  its messages are applied to a nil queue.

  Proved, for any groups and ids and any two states:
  - `restore_recreates_iff`: if no message of another queue lies under a queue's prefix, every
    queue is recreated with its name, type and settings and all its messages, exactly if
    all the stored settings are `Restorable`.
  - `updated_delayed_queue_is_lost`: a delayed queue with one message that is not.
-/

import Doq.Raft.Ledger
import Doq.Raft.Restore

namespace Doq

open Lib Memory Storage

/-! ## Groups as they are stored -/

namespace Storage

/-- The stored messages of a queue that is not fair are all of one group. -/
def Grouped (name : String) (config : QueueConfig) (store : Store) : Prop :=
  ∀ id msg, store.messages.lookup (name, id) = some msg → Queue.groupFor config msg.group = msg.group

variable {name : String} {config : QueueConfig} {store store' : Store} {id : UInt64}

theorem groupFor_groupFor (config : QueueConfig) (group : String) :
    Queue.groupFor config (Queue.groupFor config group) = Queue.groupFor config group := by
  unfold Queue.groupFor
  split <;> rfl

theorem Grouped.fewer (h : Grouped name config store) (hf : Fewer name store store') : Grouped name config store' :=
  fun id msg hm => h id msg (hf id msg hm)

/-- The same type, so the same groups. -/
theorem Grouped.retyped {config' : QueueConfig} (h : Grouped name config store) (ht : config'.type = config.type) :
    Grouped name config' store := by
  intro id msg hm
  have := h id msg hm
  unfold Queue.groupFor at this ⊢
  rw [ht]; exact this

end Storage

namespace Queue

variable {name : String} {config : QueueConfig} {q q' : Queue} {store store' : Store} {cfg : Config} {id : UInt64}

theorem grouped_handle (hserved : Served name config q store) (h : Grouped name config store) {entry : Entry}
    {response : FSMResponse} (he : entry.command.queueName = some name)
    (hr : FSM.handle q store cfg entry = some (response, q', store')) : Grouped name config store' := by
  obtain rfl := hserved.name_eq
  have hshelf := (FSM.handle_accounted hserved.config_eq hserved.keyed hserved.sound he hr).1
  intro id msg hm
  rcases Account.after_group ((congrFun hshelf id).symm.trans hm) with
    ⟨old, hold, hg⟩ | ⟨i, group, priority, content, metadata, rfl⟩
  · rw [hg]
    exact h id old hold
  · exact groupFor_groupFor config group

/-! ## Settings as they are stored -/

/-- The settings a queue can have: made by `CreateQueue`, then changed by `UpdateQueue`. -/
structure Formed (cfg : Config) (config : QueueConfig) : Prop where
  delayed : config.type = "delayed" → config.settings.strategy = .unspecified
  fair : config.type = "fair" → config.settings.strategy ≠ .unspecified
  timeout : config.settings.ackTimeout = cfg.defaultAckTimeout ∨ 10 ≤ config.settings.ackTimeout

/-- The settings `CreateQueue` takes back. -/
structure Restorable (config : QueueConfig) : Prop where
  maxUnacked : config.type = "delayed" → config.settings.maxUnacked = 0
  timeout : config.settings.ackTimeout = 0 ∨ 10 ≤ config.settings.ackTimeout

instance (config : QueueConfig) : Decidable (Restorable config) :=
  decidable_of_iff ((config.type = "delayed" → config.settings.maxUnacked = 0) ∧
    (config.settings.ackTimeout = 0 ∨ 10 ≤ config.settings.ackTimeout)) ⟨fun h => ⟨h.1, h.2⟩, fun h => ⟨h.1, h.2⟩⟩

theorem checkedAckTimeout_ok {ackTimeout t : UInt32} (h : checkedAckTimeout cfg ackTimeout = .ok t) :
    t = cfg.defaultAckTimeout ∨ 10 ≤ t := by
  unfold checkedAckTimeout at h
  split at h
  · cases h; exact Or.inl rfl
  · split at h
    · cases h
    · rename_i hlt
      cases h; exact Or.inr (UInt32.not_lt.mp hlt)

theorem formed_created {queueType : String} {settings settings' : QueueSettings}
    (h : newSettings cfg queueType settings = .ok settings') : Formed cfg ⟨name, queueType, settings'⟩ := by
  unfold newSettings at h
  cases ht : checkType queueType settings with
  | error e => rw [ht] at h; cases h
  | ok u =>
    cases hk : checkedAckTimeout cfg settings.ackTimeout with
    | error e => rw [ht, hk] at h; cases h
    | ok t =>
      rw [ht, hk] at h; cases h
      unfold checkType at ht
      refine ⟨?_, ?_, checkedAckTimeout_ok hk⟩
      · rintro rfl
        rw [if_pos rfl] at ht
        split at ht
        · cases ht
        · rename_i hs
          rw [not_or] at hs
          cases hst : settings.strategy with
          | unspecified => rfl
          | weighted => exact absurd hst hs.1
          | roundRobin => exact absurd hst hs.2
      · rintro rfl
        rw [if_neg (by decide), if_pos rfl] at ht
        split at ht
        · cases ht
        · rename_i hs; exact hs

theorem formed_updated {settings settings' : QueueSettings} (hf : Formed cfg config)
    (h : changedSettings cfg config settings = .ok settings') : Formed cfg { config with settings := settings' } := by
  unfold changedSettings at h
  split at h
  · cases h
  · rename_i hs
    rw [not_not] at hs
    cases hk : checkedAckTimeout cfg settings.ackTimeout with
    | error e => rw [hk] at h; cases h
    | ok t =>
      rw [hk] at h; cases h
      exact ⟨fun e => hs ▸ hf.delayed e, fun e => hs ▸ hf.fair e, checkedAckTimeout_ok hk⟩

theorem checkType_restorable (hf : Formed cfg config) :
    checkType config.type config.settings = .ok () ↔ (config.type = "delayed" → config.settings.maxUnacked = 0) := by
  unfold checkType
  by_cases hd : config.type = "delayed"
  · have hs := hf.delayed hd
    simp only [hd, hs, if_true, reduceCtorEq, or_self, if_false, ite_not, forall_const]
    split
    · rename_i hm; exact iff_of_true rfl hm
    · rename_i hm; exact iff_of_false nofun hm
  · rw [if_neg hd]
    refine iff_of_true ?_ fun e => absurd e hd
    split
    · rename_i hfair; rw [if_neg (hf.fair hfair)]
    · rfl

theorem checkedAckTimeout_restorable (hf : Formed cfg config) :
    checkedAckTimeout cfg config.settings.ackTimeout = .ok config.settings.ackTimeout ↔
      (config.settings.ackTimeout = 0 ∨ 10 ≤ config.settings.ackTimeout) := by
  unfold checkedAckTimeout
  split
  · rename_i h0
    refine iff_of_true ?_ (Or.inl h0)
    rcases hf.timeout with hd | hd
    · rw [hd]
    · rw [h0] at hd; exact absurd hd (by decide)
  · rename_i h0
    split
    · rename_i hlt
      exact iff_of_false nofun (not_or.mpr ⟨h0, UInt32.not_le.mpr hlt⟩)
    · rename_i hlt
      exact iff_of_true rfl (Or.inr (UInt32.not_lt.mp hlt))

/-- `CreateQueue` takes the settings as they are, or refuses them. -/
theorem Restorable.accepted (h : Restorable config) (hf : Formed cfg config) : FSM.Accepted cfg config := by
  unfold FSM.Accepted newSettings
  rw [(checkType_restorable hf).mpr h.maxUnacked, (checkedAckTimeout_restorable hf).mpr h.timeout]

theorem refused_of_not_restorable (h : ¬ Restorable config) (hf : Formed cfg config) :
    ∃ e, newSettings cfg config.type config.settings = .error e := by
  unfold newSettings
  cases ht : checkType config.type config.settings with
  | error e => exact ⟨e, rfl⟩
  | ok u =>
    cases hk : checkedAckTimeout cfg config.settings.ackTimeout with
    | error e => exact ⟨e, rfl⟩
    | ok t =>
      refine absurd ⟨(checkType_restorable hf).mp ht, ?_⟩ h
      by_contra hno
      rw [not_or] at hno
      unfold checkedAckTimeout at hk
      rw [if_neg hno.1, if_pos (UInt32.not_le.mp hno.2)] at hk
      cases hk

end Queue

namespace Queue

variable {name : String} {config : QueueConfig} {m : MemoryQueue} {q : Queue} {store : Store} {cfg : Config} {msg : Message}

/-! ## Restored messages -/

/-- A queue with one more message, stored as it is and held once in memory. -/
structure Regained (name : String) (config : QueueConfig) (m : MemoryQueue) (q : Queue) (store : Store) (msg : Message)
    (m' : MemoryQueue) (q' : Queue) (store' : Store) : Prop where
  live : Live name config m' q' store'
  stored : store' = { store with messages := store.messages.insert (name, msg.id) msg }
  held : heldIds m' q'.ackQueue = msg.id ::ₘ heldIds m q.ackQueue

theorem Live.enqueueRestored (h : Live name config m q store) (hn : msg.id ∉ heldIds m q.ackQueue)
    (hg : groupFor config msg.group = msg.group) :
    Returns (q.enqueueRestored store cfg noFaults msg) fun r => ∃ m', Regained name config m q store msg m' r.2.1 r.2.2 := by
  unfold Queue.enqueueRestored
  refine .bind_eq h.config_eq ?_
  simp only [hg, Store.restoreMessage, noFaults, Bool.false_eq_true, if_false, h.name_eq]
  refine .bind_eq h.queue_eq (.bind_eq (get_unheld h hn msg.group).1 ?_)
  have hi : (⟨msg.id, msg.priority, msg.group⟩ : Item).group = msg.group := rfl
  refine (h.memory.enqueue hi).bind fun m' hm' => ?_
  obtain ⟨hs, _, it, hid, _, _, hready⟩ := hm'
  have hl := h.update hs h.ack (q.notifyCh + 1) (h.keyed.insert msg rfl)
  refine .bind_eq (hl.prometheus cfg) (.intro ⟨m', hl, rfl, ?_⟩)
  rw [heldIds_push hready, hid]
  rfl

theorem Live.restoreUnacked (h : Live name config m q store) (hn : msg.id ∉ heldIds m q.ackQueue)
    (hg : groupFor config msg.group = msg.group) (ackDeadline : Int) :
    Returns (q.restoreUnacked store cfg noFaults msg ackDeadline) fun r =>
      ∃ m', Regained name config m q store msg m' r.2.1 r.2.2 := by
  unfold Queue.restoreUnacked
  refine .bind_eq h.config_eq ?_
  simp only [hg, Store.restoreMessage, noFaults, Bool.false_eq_true, if_false, h.name_eq]
  obtain ⟨hget, hack⟩ := get_unheld h hn msg.group
  have hw : withoutReady m msg.group msg.id = some m := by
    simp only [withoutReady, hget, Option.bind_eq_bind, Option.bind_some]
  refine .bind_eq hack (.bind_eq h.queue_eq (.bind_eq hw ((h.memory.markUnacked msg.group).bind fun m' hm' => ?_)))
  obtain ⟨hs, _, hready⟩ := hm'
  have hgrown := PriorityMemoryQueue.heapPush_grown q.ackQueue.queue ⟨msg.id, ackDeadline, msg.group⟩
  have hl := h.update hs (hgrown.sound h.ack) q.notifyCh (h.keyed.insert msg rfl)
  refine .bind_eq (hl.prometheus cfg) (.intro ⟨m', hl, rfl, ?_⟩)
  unfold heldIds
  rw [hready]
  show _ + (q.ackQueue.queue.heapPush _).held.map _ = _
  rw [hgrown.held, Multiset.map_cons, Multiset.add_cons]
  rfl

theorem Live.putBack (h : Live name config m q store) (hn : msg.id ∉ heldIds m q.ackQueue)
    (hg : groupFor config msg.group = msg.group) (deadline : Option Int) :
    Returns (q.putBack store cfg noFaults msg deadline) fun r =>
      ∃ m', Regained name config m q store msg m' r.2.1 r.2.2 := by
  cases deadline with
  | none => exact h.enqueueRestored hn hg
  | some ackDeadline => exact h.restoreUnacked hn hg ackDeadline

theorem Live.restoreMessages {msgs : List Message} {m₀ : MemoryQueue} {q₀ : Queue} {store₀ : Store}
    (h : Live name config m₀ q₀ store₀)
    (hempty : heldIds m₀ q₀.ackQueue = 0) (hnd : (msgs.map Message.id).Nodup)
    (hg : ∀ msg ∈ msgs, groupFor config msg.group = msg.group) (deadlines : FinMap UInt64 Int) :
    Returns (restoreMessages cfg deadlines msgs (q₀, store₀)) fun s => ∃ m, Live name config m s.1 s.2 ∧
      heldIds m s.1.ackQueue = (msgs.map Message.id : List UInt64) ∧
      s.2 = msgs.foldl (fun store msg => { store with messages := store.messages.insert (name, msg.id) msg }) store₀ := by
  unfold Queue.restoreMessages
  refine Returns.foldlM (I := fun (done : List Message) (s : Queue × Store) => ∃ m, Live name config m s.1 s.2 ∧
    heldIds m s.1.ackQueue = (done.map Message.id : List UInt64) ∧
    s.2 = done.foldl (fun store msg => { store with messages := store.messages.insert (name, msg.id) msg }) store₀)
    ⟨m₀, h, hempty, rfl⟩ ?_
  rintro done msg rest ⟨q, store⟩ hl ⟨m, hlive, hheld, hstore⟩
  have hn : msg.id ∉ heldIds m q.ackQueue := by
    rw [hheld, Multiset.mem_coe]
    rw [hl, List.map_append, List.nodup_append] at hnd
    exact fun hin => hnd.2.2 msg.id hin msg.id (by simp) rfl
  refine (hlive.putBack hn (hg msg (by rw [hl]; simp)) (deadlines.lookup msg.id)).bind fun r hr => .intro ?_
  obtain ⟨m', hr⟩ := hr
  refine ⟨m', hr.live, ?_, ?_⟩
  · rw [hr.held, hheld, List.map_append, List.map_singleton, Multiset.cons_coe]
    exact Multiset.coe_eq_coe.mpr (List.perm_append_singleton _ _).symm
  · rw [hr.stored, hstore, List.foldl_append]
    rfl

/-- The scheduling state orders children and sets cursors; it holds no messages. -/
theorem Live.restoreState (h : Live name config m q store) (roundRobin : Option (List SchedulingNode)) :
    ∃ m', Live name config m' (q.restoreState roundRobin) store ∧
      heldIds m' (q.restoreState roundRobin).ackQueue = heldIds m q.ackQueue := by
  cases roundRobin with
  | none => exact ⟨m, h, rfl⟩
  | some nodes =>
    unfold Queue.restoreState restoreRoundRobinState
    cases m with
    | fairRoundRobin queue =>
      obtain ⟨hs, hready⟩ := FairRoundRobinQueue.Safe.restoreSchedulingState nodes h.memory
      simp only [h.queue_eq]
      refine ⟨.fairRoundRobin (queue.restoreSchedulingState nodes), { h with queue_eq := rfl, memory := hs }, ?_⟩
      exact congrArg (fun ready => Multiset.map Item.id ready + _) hready
    | delayed queue => simp only [h.queue_eq]; exact ⟨_, h, rfl⟩
    | fairWeighted queue => simp only [h.queue_eq]; exact ⟨_, h, rfl⟩

/-- A queue as a block of items brings it back. -/
theorem restored_queue {store₀ : Store} {configs : FinMap String QueueConfig} {msgs : List Message}
    (hempty : ∀ id, store₀.messages.lookup (config.name, id) = none) (hnd : (msgs.map Message.id).Nodup)
    (hg : ∀ msg ∈ msgs, groupFor config msg.group = msg.group) (hidle : ¬ KnownType config.type → msgs = [])
    (deadlines : FinMap UInt64 Int) (roundRobin : Option (List SchedulingNode)) :
    Returns (restoreMessages cfg deadlines msgs (created config.name config.type config.settings,
      { store₀ with queues := configs }))
      fun s => s.2 = msgs.foldl (fun store msg => { store with messages := store.messages.insert (config.name, msg.id) msg })
          { store₀ with queues := configs } ∧
        (s.1.restoreState roundRobin).config = some config ∧
        ∀ m, (s.1.restoreState roundRobin).queue = some m →
          heldIds m (s.1.restoreState roundRobin).ackQueue = (msgs.map Message.id : List UInt64) := by
  have hserved := @created_served config.name store₀ hempty config.type config.settings configs
  rcases hserved with ⟨_, m₀, hl⟩ | ⟨hk, hi⟩
  · refine (hl.restoreMessages (created_held hl.queue_eq) hnd hg deadlines).mono fun s hs => ?_
    obtain ⟨m, hlive, hids, hstore⟩ := hs
    obtain ⟨m', hlive', hids'⟩ := hlive.restoreState roundRobin
    refine ⟨hstore, hlive'.config_eq, fun m'' hm'' => ?_⟩
    rw [hlive'.queue_eq] at hm''; cases hm''
    exact hids'.trans hids
  · have hnone := hi.queue_eq
    rw [hidle hk]
    refine .intro ⟨rfl, ?_, fun m hm => ?_⟩
    · cases roundRobin with
      | none => rfl
      | some nodes => simp only [Queue.restoreState, restoreRoundRobinState, hnone]; rfl
    · cases roundRobin with
      | none => rw [Queue.restoreState, hnone] at hm; cases hm
      | some nodes => simp only [Queue.restoreState, restoreRoundRobinState, hnone] at hm; cases hm

end Queue

namespace FSM

/-- The settings and the groups of every stored queue are ones its commands can have made. -/
structure WellFormed (cfg : Config) (f : FSM) : Prop where
  config_eq : f.queueManager.config = cfg
  settings : ∀ name config, f.queueManager.store.queues.lookup name = some config → Queue.Formed cfg config
  groups : ∀ name config, f.queueManager.store.queues.lookup name = some config → Grouped name config f.queueManager.store

variable {cfg : Config} {f f' : FSM} {entry : Entry} {reply : Reply} {name : String} {config : QueueConfig}

theorem WellFormed.step (h : WellFormed cfg f) (hsafe : Safe f) (hs : f.apply entry = some (reply, f')) : WellFormed cfg f' := by
  refine ⟨(hsafe.apply_config hs).trans h.config_eq, fun name config hc => ?_, fun name config hc => ?_⟩
  · cases hsafe.seen hs name with
    | elsewhere _ _ hcf _ => exact h.settings name config (hcf ▸ hc)
    | refused _ hf => rw [hf] at hc; exact h.settings name config hc
    | handled q q' response store' he hq hh hr hf =>
      rw [hf] at hc
      have hc : store'.queues.lookup name = some config := hc
      rw [(hsafe.handle_frame he hq hh).queues] at hc
      exact h.settings name config hc
    | created queueType settings settings' he hq ha hf =>
      rw [hf] at hc
      have hc : (f.queueManager.store.queues.insert name ⟨name, queueType, settings'⟩).lookup name = some config := hc
      rw [FinMap.lookup_insert_eq, if_pos rfl] at hc; cases hc
      rw [h.config_eq] at ha
      exact Queue.formed_created ha
    | updated q m config' settings settings' he hq hc' hm ha hf =>
      rw [hf] at hc
      have hc : (f.queueManager.store.queues.insert name { config' with settings := settings' }).lookup name = some config := hc
      rw [FinMap.lookup_insert_eq, if_pos rfl] at hc; cases hc
      obtain ⟨stored, hstored, hserved⟩ := hsafe.queue name q hq
      rw [hserved.config_eq] at hc'; cases hc'
      rw [h.config_eq] at ha
      exact Queue.formed_updated (h.settings name config' hstored) ha
    | deleted he hq => rw [((hsafe.step hs).missing name hq).1] at hc; cases hc
  · cases hsafe.seen hs name with
    | elsewhere _ _ hcf hm =>
      refine (h.groups name config (hcf ▸ hc)).fewer fun id msg hid => ?_
      rcases hm id with hm | ⟨_, hnone⟩
      · rw [← hm]; exact hid
      · rw [hnone] at hid; cases hid
    | refused _ hf => rw [hf] at hc ⊢; exact h.groups name config hc
    | handled q q' response store' he hq hh hr hf =>
      rw [hf] at hc ⊢
      have hc : store'.queues.lookup name = some config := hc
      rw [(hsafe.handle_frame he hq hh).queues] at hc
      obtain ⟨stored, hstored, hserved⟩ := hsafe.queue name q hq
      rw [hc] at hstored; cases hstored
      exact Queue.grouped_handle hserved (h.groups name config hc) he hh
    | created queueType settings settings' he hq ha hf =>
      rw [hf]
      intro id msg hm
      have hm : f.queueManager.store.messages.lookup (name, id) = some msg := hm
      rw [(hsafe.missing name hq).2 id] at hm; cases hm
    | updated q m config' settings settings' he hq hc' hm ha hf =>
      rw [hf] at hc ⊢
      have hc : (f.queueManager.store.queues.insert name { config' with settings := settings' }).lookup name = some config := hc
      rw [FinMap.lookup_insert_eq, if_pos rfl] at hc; cases hc
      obtain ⟨stored, hstored, hserved⟩ := hsafe.queue name q hq
      rw [hserved.config_eq] at hc'; cases hc'
      exact (h.groups name config' hstored).retyped rfl
    | deleted he hq => rw [((hsafe.step hs).missing name hq).1] at hc; cases hc

theorem Runs.wellFormed {leaderConfig : LeaderConfig} {events : List (Event FSM Entry Reply)}
    (r : Runs (new cfg leaderConfig) events f) : WellFormed cfg f := by
  have key : Safe f ∧ WellFormed cfg f :=
    r.keeps (I := fun f => Safe f ∧ WellFormed cfg f) (fun e _ hs h => ⟨h.1.step hs, h.2.step h.1 hs⟩)
      ⟨new_safe cfg leaderConfig, rfl, nofun, nofun⟩
  exact key.2

/-! ## Restoring a queue -/

/-- What a list of messages leaves in the store. -/
theorem lookup_foldl_insert (name : String) {msgs : List Message} (hnd : (msgs.map Message.id).Nodup) : ∀ store : Store,
    let store' := msgs.foldl (fun store msg => { store with messages := store.messages.insert (name, msg.id) msg }) store
    store'.queues = store.queues ∧ (∀ msg ∈ msgs, store'.messages.lookup (name, msg.id) = some msg) ∧
      ∀ key, (key.1 = name → ∀ msg ∈ msgs, msg.id ≠ key.2) → store'.messages.lookup key = store.messages.lookup key := by
  induction msgs with
  | nil => intro store; exact ⟨rfl, nofun, fun _ _ => rfl⟩
  | cons msg msgs ih =>
    intro store
    rw [List.map_cons, List.nodup_cons] at hnd
    obtain ⟨h1, h2, h3⟩ := ih hnd.2 { store with messages := store.messages.insert (name, msg.id) msg }
    refine ⟨h1, fun x hx => ?_, fun key hkey => ?_⟩
    · rcases List.mem_cons.mp hx with rfl | hx
      · rw [List.foldl_cons, h3 (name, x.id) fun _ y hy hid => hnd.1 (List.mem_map.mpr ⟨y, hy, hid⟩)]
        rw [FinMap.lookup_insert_eq, if_pos rfl]
      · exact h2 x hx
    · rw [List.foldl_cons, h3 key fun hn y hy => hkey hn y (List.mem_cons_of_mem _ hy)]
      rw [FinMap.lookup_insert_eq, if_neg]
      rintro rfl
      exact hkey rfl msg List.mem_cons_self rfl

/-- The queue is there again with its name, type and settings, and all its messages are
    stored, and held once each in memory if it holds any. -/
structure Recreated (f : FSM) (name : String) (g : FSM) : Prop where
  config : g.queueManager.store.queues.lookup name = f.queueManager.store.queues.lookup name
  queue : ∃ q q', f.queueManager.queues.lookup name = some q ∧ g.queueManager.queues.lookup name = some q' ∧ q'.config = q.config
  stored : ∀ id, g.queueManager.store.messages.lookup (name, id) = f.queueManager.store.messages.lookup (name, id)
  held : ∀ q m, g.queueManager.queues.lookup name = some q → q.queue = some m → ∀ id,
    (Queue.heldIds m q.ackQueue).count id = if (f.queueManager.store.messages.lookup (name, id)).isSome then 1 else 0

theorem Recreated.untouched {g g' : FSM} (h : Recreated f name g) (hu : Untouched name g g') : Recreated f name g' where
  config := hu.config.trans h.config
  queue := by obtain ⟨q, q', hq, hq', hc⟩ := h.queue; exact ⟨q, q', hq, hu.memory.trans hq', hc⟩
  stored id := (hu.stored id).trans (h.stored id)
  held q m hq hm := h.held q m (hu.memory.symm.trans hq) hm

theorem WellFormed.rebuilds {q : Queue} {state : SnapshotState} (hwf : WellFormed cfg f)
    (hq : f.queueManager.queues.lookup name = some q) (hc : f.queueManager.store.queues.lookup name = some config)
    (hserved : Queue.Served name config q f.queueManager.store) (ha : f.queueManager.store.Apart name)
    (hr : Queue.Restorable config) :
    Rebuilds name (block config state (f.queueManager.store.scan name)) cfg (Recreated f name) := by
  intro st hclean hcfg
  obtain rfl := hserved.name_eq
  have hkeyed : Keyed config.name f.queueManager.store := by
    rcases hserved with ⟨_, m, hl⟩ | ⟨_, hi⟩
    · exact hl.keyed
    · intro id msg hm; rw [hi.empty id] at hm; cases hm
  have hlisted := Store.scan_listed hkeyed ha
  have hnd : ((f.queueManager.store.scan config.name).map Message.id).Nodup := by
    have := hlisted.nodup
    rwa [Multiset.map_coe, Multiset.coe_nodup] at this
  have hmem : ∀ msg, msg ∈ f.queueManager.store.scan config.name ↔
    f.queueManager.store.messages.lookup (config.name, msg.id) = some msg :=
    fun msg => hlisted.mem msg
  have hacc : Accepted st.fsm.queueManager.config config := by rw [hcfg]; exact hr.accepted (hwf.settings _ _ hc)
  rw [restore_block st _ hclean.queue hacc]
  have hidle : ¬ Queue.KnownType config.type → f.queueManager.store.scan config.name = [] := by
    intro hk
    rcases hserved with ⟨hk', _⟩ | ⟨_, hi⟩
    · exact absurd hk' hk
    · refine List.eq_nil_iff_forall_not_mem.mpr fun msg hm => ?_
      rw [hmem, hi.empty] at hm; cases hm
  refine (Queue.restored_queue hclean.stored hnd (fun msg hm => hwf.groups _ _ hc msg.id msg ((hmem msg).mp hm)) hidle
    (deadlines state.unacked) state.roundRobin).map fun s hs => ?_
  obtain ⟨hstore, hconfig, hheld⟩ := hs
  obtain ⟨hqueues, hin, hout⟩ := lookup_foldl_insert config.name hnd (st.fsm.started config).2
  have hstore : s.2 = (f.queueManager.store.scan config.name).foldl (fun store msg =>
    { store with messages := store.messages.insert (config.name, msg.id) msg }) (st.fsm.started config).2 := hstore
  rw [← hstore] at hqueues hin hout
  have hput : ∀ n, (st.fsm.putQueue config.name (s.1.restoreState state.roundRobin) s.2).queueManager.queues.lookup n =
      if n = config.name then some (s.1.restoreState state.roundRobin) else st.fsm.queueManager.queues.lookup n :=
    fun n => FinMap.lookup_insert_eq ..
  have hconf : ∀ n, s.2.queues.lookup n = if n = config.name then some config else st.fsm.queueManager.store.queues.lookup n := by
    intro n
    rw [hqueues]
    exact FinMap.lookup_insert_eq ..
  have hstored : ∀ id, s.2.messages.lookup (config.name, id) = f.queueManager.store.messages.lookup (config.name, id) := by
    intro id
    cases hl : f.queueManager.store.messages.lookup (config.name, id) with
    | some msg =>
      have hid := hkeyed id msg hl
      rw [← hid] at hl ⊢
      exact hin msg ((hmem msg).mpr hl)
    | none =>
      rw [hout (config.name, id) fun _ msg hm hid => ?_]
      · exact hclean.stored id
      · have hid : msg.id = id := hid
        rw [hmem, hid, hl] at hm
        cases hm
  refine ⟨⟨?_, ?_, hstored, ?_⟩, hcfg, rfl, fun n hn => ⟨?_, fun id => ?_, ?_⟩⟩
  · exact (hconf config.name).trans ((if_pos rfl).trans hc.symm)
  · exact ⟨q, s.1.restoreState state.roundRobin, hq, (hput config.name).trans (if_pos rfl), hconfig.trans hserved.config_eq.symm⟩
  · intro q' m hq' hm id
    rw [hput, if_pos rfl, Option.some.injEq] at hq'
    subst hq'
    rw [hheld m hm, ← hlisted.count_key id, Multiset.map_coe]
  · exact (hconf n).trans (if_neg hn)
  · exact hout (n, id) fun e => absurd e hn
  · exact (hput n).trans (if_neg hn)

/-- The queue is not there and the items do not belong to it. -/
structure Skipped (name : String) (cfg : Config) (st : Restoring) : Prop where
  config_eq : st.fsm.queueManager.config = cfg
  queue : st.fsm.queueManager.queues.lookup name = none
  current : st.q ≠ some name

theorem Skipped.put {n : String} {q : Queue} {store : Store} {st : Restoring} {unacked : Option (FinMap UInt64 Int)}
    (h : Skipped name cfg st) (hn : n ≠ name) : Skipped name cfg ⟨st.fsm.putQueue n q store, some n, unacked⟩ := by
  refine ⟨h.config_eq, ?_, by simpa using hn⟩
  show (st.fsm.queueManager.queues.insert n q).lookup name = none
  rw [FinMap.lookup_insert_eq, if_neg hn.symm]
  exact h.queue

/-- A queue that is refused does not come back, whatever is restored around it. -/
theorem Skipped.item {st st' : Restoring} {item : SnapshotItem} (h : Skipped name cfg st)
    (hc : ∀ config, item = .queue config → config.name = name → ∃ e, Queue.newSettings cfg config.type config.settings = .error e)
    (hr : restoreItem st item = some st') : Skipped name cfg st' := by
  cases item with
  | leaderConfiguration nodeId raftAddr grpcAddr httpAddr => cases hr; exact ⟨h.config_eq, h.queue, h.current⟩
  | queue config =>
    by_cases hn : config.name = name
    · obtain ⟨e, he⟩ := hc config rfl hn
      rw [restore_refused st (hn ▸ h.queue) (h.config_eq.symm ▸ he)] at hr
      cases hr
      exact ⟨h.config_eq, h.queue, nofun⟩
    · cases hq : st.fsm.queueManager.queues.lookup config.name with
      | some q =>
        rw [restore_existing st hq] at hr
        cases hr
        exact ⟨h.config_eq, h.queue, by simpa using hn⟩
      | none =>
        cases hs : Queue.newSettings st.fsm.queueManager.config config.type config.settings with
        | error e =>
          rw [restore_refused st hq hs] at hr
          cases hr
          exact ⟨h.config_eq, h.queue, nofun⟩
        | ok settings =>
          rw [restore_new st hq hs] at hr
          cases hr
          exact h.put hn
  | unackedMessage id ackDeadline =>
    obtain ⟨unacked, _, hr⟩ := Option.bind_eq_some_iff.mp hr
    cases hr
    exact ⟨h.config_eq, h.queue, h.current⟩
  | roundRobinState nodes =>
    unfold restoreItem at hr
    cases hn : st.q with
    | none => rw [hn] at hr; cases hr; exact h
    | some n =>
      rw [hn] at hr
      obtain ⟨q, _, hr⟩ := Option.bind_eq_some_iff.mp hr
      cases hr
      exact h.put fun e => h.current (by rw [hn, e])
  | message msg =>
    obtain ⟨n, hn, hr⟩ := Option.bind_eq_some_iff.mp hr
    obtain ⟨q, _, hr⟩ := Option.bind_eq_some_iff.mp hr
    obtain ⟨r, _, hr⟩ := Option.bind_eq_some_iff.mp hr
    cases hr
    rw [hn]
    exact h.put fun e => h.current (by rw [hn, e])

theorem Skipped.items {items : List SnapshotItem} {st st' : Restoring} (h : Skipped name cfg st)
    (hc : ∀ config, .queue config ∈ items → config.name = name →
      ∃ e, Queue.newSettings cfg config.type config.settings = .error e)
    (hr : items.foldlM restoreItem st = some st') : Skipped name cfg st' := by
  induction items generalizing st with
  | nil => cases hr; exact h
  | cons item items ih =>
    rw [List.foldlM_cons] at hr
    obtain ⟨st1, h1, hr⟩ := Option.bind_eq_some_iff.mp hr
    refine ih (h.item (fun config he => hc config (he ▸ List.mem_cons_self)) h1)
      (fun config hm => hc config (List.mem_cons_of_mem _ hm)) hr

/-! ## Restoring a snapshot -/

/-- Settings that pass the checks come back, with everything that belongs to them. -/
theorem WellFormed.recreated {g : FSM} {names : List String} (hwf : WellFormed cfg f) (hsafe : Safe f) (hg : Safe g)
    (hcfg : g.queueManager.config = cfg) (hnames : names.Perm f.queueManager.queues.keys)
    (hapart : ∀ n ∈ names, f.queueManager.store.Apart n)
    (hall : ∀ n config, f.queueManager.store.queues.lookup n = some config → Queue.Restorable config) :
    ∃ items g', f.persist names = some items ∧ g.restore items = some g' ∧ ∀ n ∈ names, Recreated f n g' := by
  obtain ⟨blocks, hblocks⟩ := hsafe.blocks hnames
  have hnd : names.Nodup := hnames.nodup_iff.mpr f.queueManager.queues.keys_nodup
  obtain ⟨items, hitems, g', hg', hrec, _⟩ := restore_rebuilds (P := Recreated f) (fun n _ _ h hu => h.untouched hu) hnd
    (fun n hn => (hblocks n hn).persisted)
    (fun n hn => by
      obtain ⟨_, q, config, state, hq, hc, hserved, _, hitems⟩ := hblocks n hn
      rw [hitems, hcfg]
      exact hwf.rebuilds hq hc hserved (hapart n hn) (hall n config hc)) hg
  exact ⟨items, g', hitems, hg', hrec⟩

theorem restore_recreates_iff {cfg : Config} {leaderConfig leaderConfig' : LeaderConfig}
    {events events' : List (Event FSM Entry Reply)}
    {f g : FSM} {names : List String} (r : Runs (new cfg leaderConfig) events f) (r' : Runs (new cfg leaderConfig') events' g)
    (hnames : names.Perm f.queueManager.queues.keys) (hapart : ∀ n ∈ names, f.queueManager.store.Apart n) :
    (∃ items g', f.persist names = some items ∧ g.restore items = some g' ∧ ∀ n ∈ names, Recreated f n g') ↔
      ∀ n config, f.queueManager.store.queues.lookup n = some config → Queue.Restorable config := by
  have hsafe := r.safe
  have hwf := r.wellFormed
  obtain ⟨blocks, hblocks⟩ := hsafe.blocks hnames
  constructor
  · rintro ⟨items, g', hitems, hrestore, hrec⟩ n config hc
    by_contra hno
    obtain ⟨q, hq, _⟩ := hsafe.served hc
    have hn : n ∈ names := (mem_keys_iff hnames).mpr ⟨q, hq⟩
    rw [persist_eq fun n hn => (hblocks n hn).persisted, Option.some.injEq] at hitems
    subst hitems
    rw [r'.safe.restore_eq] at hrestore
    obtain ⟨st, hst, rfl⟩ := Option.map_eq_some_iff.mp hrestore
    have hskipped : Skipped n cfg st := by
      refine Skipped.items ⟨r'.wellFormed.config_eq, rfl, (fun e => by cases e)⟩ (fun config' hmem hname => ?_) hst
      -- the one configuration of that name
      have hmem : .queue config' ∈ (names.map blocks).flatten := (List.mem_cons.mp hmem).resolve_left nofun
      have hc' := (queue_mem_blocks hblocks hmem).2
      rw [hname, hc] at hc'; cases hc'
      exact Queue.refused_of_not_restorable hno (hwf.settings n config hc)
    obtain ⟨_, q', _, hq', _⟩ := (hrec n hn).queue
    rw [hskipped.queue] at hq'
    cases hq'
  · exact hwf.recreated hsafe r'.safe r'.wellFormed.config_eq hnames hapart

/-- A round-robin queue with a changed limit and a message in flight. -/
def restorable : List Entry :=
  [⟨1, 0, .createQueue "jobs" "fair" ⟨.roundRobin, 0, 0, 0⟩⟩, ⟨2, 0, .updateQueue "jobs" ⟨.roundRobin, 3, 30, 5⟩⟩,
    ⟨3, 0, .enqueue "jobs" 1 "g" 5 "" none⟩, ⟨4, 0, .dequeue "jobs" false⟩]

theorem restorable_runs : (exec apply (new defaults (.new "n1" "" "")) restorable).isSome := rfl

def restorableState : FSM := ((exec apply (new defaults (.new "n1" "" "")) restorable).get restorable_runs).2

theorem restore_recreates_jobs : ∃ events items g', Runs (new defaults (.new "n1" "" "")) events restorableState ∧
    restorableState.persist ["jobs"] = some items ∧ restorableState.restore items = some g' ∧
    (restorableState.queueManager.store.messages.lookup ("jobs", 1)).isSome ∧ Recreated restorableState "jobs" g' := by
  have r : Runs (new defaults (.new "n1" "" "")) _ restorableState := Run.of_exec_isSome restorable_runs
  have hnames : ["jobs"].Perm restorableState.queueManager.queues.keys := .refl _
  have hall : ∀ e ∈ restorableState.queueManager.store.queues.entries, Queue.Restorable e.2 := by decide
  obtain ⟨items, g', hitems, hg', hrec⟩ := (restore_recreates_iff r r hnames (by decide)).mpr
    fun n config hc => hall ⟨n, config⟩ (FinMap.mem_entries.mpr hc)
  exact ⟨_, items, g', r, hitems, hg', rfl, hrec "jobs" List.mem_cons_self⟩

/-- A delayed queue, created as it has to be and then given a limit. -/
def limitedDelayed : List Entry :=
  [⟨1, 0, .createQueue "jobs" "delayed" plain⟩, ⟨2, 0, .updateQueue "jobs" ⟨.unspecified, 3, 0, 0⟩⟩,
    ⟨3, 0, .enqueue "jobs" 1 "" 5 "" none⟩]

theorem limitedDelayed_runs : (exec apply (new defaults (.new "n1" "" "")) limitedDelayed).isSome := rfl

def limitedDelayedState : FSM := ((exec apply (new defaults (.new "n1" "" "")) limitedDelayed).get limitedDelayed_runs).2

/-- All three entries are accepted; in the restore the queue is refused and its message is
    applied to nil. -/
theorem updated_delayed_queue_is_lost :
    (((exec apply (new defaults (.new "n1" "" "")) limitedDelayed).get limitedDelayed_runs).1.all fun e => match e.output with
      | .response response => response.error.isNone
      | _ => false) = true ∧
    ∃ items, limitedDelayedState.persist ["jobs"] = some items ∧ limitedDelayedState.restore items = none := by
  have r : Runs (new defaults (.new "n1" "" "")) _ limitedDelayedState := Run.of_exec_isSome limitedDelayed_runs
  have hq : (limitedDelayedState.queueManager.queues.lookup "jobs").isSome := rfl
  obtain ⟨q, hq⟩ := Option.isSome_iff_exists.mp hq
  obtain ⟨config, state, hc, _, _, hp⟩ := r.safe.persistQueue hq
  have hconfig : config = ⟨"jobs", "delayed", ⟨.unspecified, 3, 60, 0⟩⟩ := Option.some.inj (hc.symm.trans rfl)
  subst hconfig
  refine ⟨rfl, _, @persist_eq limitedDelayedState (fun _ => _) ["jobs"] fun n hn => by
    rw [List.mem_singleton.mp hn]; exact hp, ?_⟩
  rw [r.safe.restore_eq, List.foldlM_cons, Option.bind_eq_bind]
  have hmsgs : limitedDelayedState.queueManager.store.scan "jobs" ≠ [] := by
    intro he
    have := (Store.scan_perm limitedDelayedState.queueManager.store "jobs").length_eq
    rw [he] at this
    exact absurd this (by decide)
  show ((some _).bind fun st => (List.flatten [_]).foldlM restoreItem st).map _ = none
  rw [Option.bind_some, List.flatten_singleton, restore_block_refused (e := .invalidMaxUnacked) _ _ rfl rfl, if_neg hmsgs]
  rfl

end FSM

end Doq
