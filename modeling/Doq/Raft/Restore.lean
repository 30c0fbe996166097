/-
  Doq.Raft.Restore — how `Restore` rebuilds queues from a snapshot's items (see
  `Doq.Raft.Snapshot`).

  A snapshot is the leader's configuration and one block of items a queue: its
  configuration, its unacked markers, its messages and its scheduling state. `restore_block`
  is the whole block at once: the queue is created and its messages restored one by one,
  with nothing of the other queues read or written. `restore_rebuilds` goes from the blocks to
  the whole snapshot, whatever the order of the queues and whatever the state before.
-/

import Doq.Lib.Listed
import Doq.Raft.Isolation
import Doq.Raft.Deadlines

namespace Doq

open Lib Memory Storage

/-! ## The messages a scan returns -/

namespace Storage.Store

variable {store : Store} {name : String}

/-- An entry of the queue lies under the id of its message. -/
theorem entry_own (hk : Keyed name store) {e : (_ : String × UInt64) × Message}
    (he : e ∈ store.messages.entries.filter fun e => decide (e.1.1 = name)) :
    e.1 = (name, e.2.id) ∧ store.messages.lookup (name, e.2.id) = some e.2 := by
  obtain ⟨hmem, hn⟩ := List.mem_filter.mp he
  have hl : store.messages.lookup e.1 = some e.2 := FinMap.mem_entries.mp hmem
  have he1 : e.1 = (name, e.1.2) := by rw [← of_decide_eq_true hn]
  have hid : e.2.id = e.1.2 := hk _ _ (he1 ▸ hl)
  rw [hid, ← he1]
  exact ⟨rfl, hl⟩

/-- The messages under a name, each once. -/
theorem own_listed (hk : Keyed name store) :
    Listed Message.id (store.own name : Multiset Message) fun id => store.messages.lookup (name, id) where
  nodup := by
    rw [Multiset.map_coe, Multiset.coe_nodup]
    unfold own
    rw [List.map_map]
    refine (store.messages.nodupKeys.nodup.filter _).map_on fun a ha b hb hab => ?_
    obtain ⟨ha1, hla⟩ := entry_own hk ha
    obtain ⟨hb1, hlb⟩ := entry_own hk hb
    have hid : a.2.id = b.2.id := hab
    rw [← hid] at hb1 hlb
    obtain ⟨ka, va⟩ := a
    obtain ⟨kb, vb⟩ := b
    obtain rfl : ka = kb := ha1.trans hb1.symm
    rw [hla, Option.some.injEq] at hlb
    exact congrArg _ hlb
  mem msg := by
    rw [Multiset.mem_coe]
    unfold own
    rw [List.mem_map]
    constructor
    · rintro ⟨e, he, rfl⟩
      exact (entry_own hk he).2
    · intro hl
      exact ⟨⟨(name, msg.id), msg⟩, List.mem_filter.mpr ⟨FinMap.mem_entries.mpr hl, by simp⟩, rfl⟩
  key_eq id msg hm := hk id msg hm

theorem scan_listed (hk : Keyed name store) (ha : store.Apart name) :
    Listed Message.id (store.scan name : Multiset Message) fun id => store.messages.lookup (name, id) := by
  rw [Multiset.coe_eq_coe.mpr ((scan_perm_own_iff store name).mpr ha)]
  exact own_listed hk

end Storage.Store

namespace Queue

/-- The messages of one queue, in the order of the items. -/
def restoreMessages (cfg : Config) (deadlines : FinMap UInt64 Int) (msgs : List Message) (s : Queue × Store) :
    Go (Queue × Store) :=
  msgs.foldlM (fun s msg => do
    let (_, q, store) ← s.1.putBack s.2 cfg noFaults msg (deadlines.lookup msg.id)
    some (q, store)) s

/-- The scheduling state at the end of a block, if there is one. -/
def restoreState (q : Queue) : Option (List SchedulingNode) → Queue
  | none => q
  | some nodes => q.restoreRoundRobinState nodes

/-- The state of a queue can always be captured. -/
theorem Served.capture {name : String} {config : QueueConfig} {q : Queue} {store : Store} (h : Served name config q store) :
    ∃ state, q.captureSnapshotState = some state ∧ state.unacked = q.unackedSnapshot := by
  unfold captureSnapshotState
  split
  · rename_i queue hq
    rcases h with ⟨_, m, hl⟩ | ⟨_, hi⟩
    · rw [hl.queue_eq] at hq; cases hq
      obtain ⟨C, htree, _⟩ := FairRoundRobinQueue.Safe.tree hl.memory
      obtain ⟨root, hroot⟩ := htree.root
      obtain ⟨nodes, hnodes, _⟩ := FairRoundRobinQueue.walk_returns htree (queue.depth + 1) hroot (by simp)
      refine ⟨⟨q.unackedSnapshot, some nodes⟩, ?_, rfl⟩
      simp only [FairRoundRobinQueue.schedulingState, hnodes, Option.bind_eq_bind, Option.bind_some]
    · rw [hi.queue_eq] at hq; cases hq
  · exact ⟨_, rfl, rfl⟩

end Queue

namespace FSM

variable {f g : FSM} {q : Queue} {name : String} {config : QueueConfig} {store : Store} {state : SnapshotState}

/-! ## One queue's items -/

def block (config : QueueConfig) (state : SnapshotState) (msgs : List Message) : List SnapshotItem :=
  .queue config :: (state.unacked.map fun u => .unackedMessage u.1 u.2) ++ msgs.map .message ++
    state.roundRobin.toList.map .roundRobinState

theorem persistSnapshot_eq (hc : q.config = some config) :
    q.persistSnapshot store state = some (block config state (store.scan config.name)) := by
  unfold Queue.persistSnapshot block
  simp only [hc, Option.bind_eq_bind, Option.bind_some]
  cases state.roundRobin with
  | none => rw [Option.toList_none, List.map_nil, List.append_nil]
  | some nodes => rfl

theorem Safe.persistQueue (h : Safe f) (hq : f.queueManager.queues.lookup name = some q) : ∃ config state,
    f.queueManager.store.queues.lookup name = some config ∧ Queue.Served name config q f.queueManager.store ∧
      q.captureSnapshotState = some state ∧ f.persistQueue name = some (block config state (f.queueManager.store.scan name)) := by
  obtain ⟨config, hc, hserved⟩ := h.queue name q hq
  obtain ⟨state, hstate, _⟩ := hserved.capture
  refine ⟨config, state, hc, hserved, hstate, ?_⟩
  simp only [FSM.persistQueue, hq, hstate, Option.bind_eq_bind, Option.bind_some,
    persistSnapshot_eq hserved.config_eq, hserved.name_eq]

/-- The markers of a block, the last of an id winning. -/
def deadlines (unacked : List (UInt64 × Int)) : FinMap UInt64 Int := unacked.foldl (fun m u => m.insert u.1 u.2) ∅

theorem restore_markers (unacked : List (UInt64 × Int)) : ∀ (st : Restoring) (m : FinMap UInt64 Int), st.unacked = some m →
    (unacked.map fun u => SnapshotItem.unackedMessage u.1 u.2).foldlM restoreItem st =
      some { st with unacked := some (unacked.foldl (fun m u => m.insert u.1 u.2) m) } := by
  induction unacked with
  | nil => intro st m hm; cases st; cases hm; rfl
  | cons u unacked ih =>
    intro st m hm
    rw [List.map_cons, List.foldlM_cons]
    have hstep : restoreItem st (.unackedMessage u.1 u.2) = some { st with unacked := some (m.insert u.1 u.2) } := by
      simp only [restoreItem, hm, Option.bind_eq_bind, Option.bind_some]
    rw [hstep, Option.bind_eq_bind, Option.bind_some, ih _ _ rfl]
    rfl

theorem putQueue_putQueue (q q' : Queue) (store store' : Store) :
    (g.putQueue name q store).putQueue name q' store' = g.putQueue name q' store' := by
  unfold putQueue
  simp only [AList.insert_insert]

/-- The messages of a block, with the queue in place. -/
theorem restore_messages (g : FSM) (name : String) (m : FinMap UInt64 Int) (msgs : List Message) : ∀ (q : Queue) (store : Store),
    (msgs.map SnapshotItem.message).foldlM restoreItem ⟨g.putQueue name q store, some name, some m⟩ =
      (Queue.restoreMessages g.queueManager.config m msgs (q, store)).map fun s =>
        ⟨g.putQueue name s.1 s.2, some name, some m⟩ := by
  unfold Queue.restoreMessages
  induction msgs with
  | nil => intro q store; rfl
  | cons msg msgs ih =>
    intro q store
    rw [List.map_cons, List.foldlM_cons, List.foldlM_cons]
    have hstep : restoreItem ⟨g.putQueue name q store, some name, some m⟩ (.message msg) =
        (q.putBack store g.queueManager.config noFaults msg (m.lookup msg.id)).map fun r =>
          ⟨g.putQueue name r.2.1 r.2.2, some name, some m⟩ := by
      simp only [restoreItem, restoreMessageItem, lookup_putQueue, putQueue_putQueue, Option.bind_eq_bind, Option.bind_some]
      show (q.putBack store g.queueManager.config noFaults msg (m.lookup msg.id)).bind _ = _
      cases q.putBack store g.queueManager.config noFaults msg (m.lookup msg.id) <;> rfl
    rw [hstep]
    cases hr : q.putBack store g.queueManager.config noFaults msg (m.lookup msg.id) with
    | none => rfl
    | some r =>
      simp only [Option.map_some, Option.bind_eq_bind, Option.bind_some]
      exact ih r.2.1 r.2.2

/-- A queue just created with the configuration, and the store that has it. -/
def started (g : FSM) (config : QueueConfig) : Queue × Store :=
  (Queue.created config.name config.type config.settings,
    { g.queueManager.store with queues := g.queueManager.store.queues.insert config.name config })

/-- The configuration passes the checks of `CreateQueue` as it is. -/
def Accepted (cfg : Config) (config : QueueConfig) : Prop :=
  Queue.newSettings cfg config.type config.settings = .ok config.settings

theorem restore_new {settings : QueueSettings} (st : Restoring) (hq : st.fsm.queueManager.queues.lookup config.name = none)
    (ha : Queue.newSettings st.fsm.queueManager.config config.type config.settings = .ok settings) :
    restoreItem st (.queue config) = some ⟨st.fsm.putQueue config.name (Queue.created config.name config.type settings)
      { st.fsm.queueManager.store with
        queues := st.fsm.queueManager.store.queues.insert config.name ⟨config.name, config.type, settings⟩ },
      some config.name, some ∅⟩ := by
  have hc := Queue.createQueue_eq st.fsm.queueManager.store st.fsm.queueManager.config config.type config.name config.settings
  rw [ha] at hc
  simp only at hc
  simp only [restoreItem, QueueManager.createQueue, hq, hc]
  rfl

theorem restore_created (st : Restoring) (hq : st.fsm.queueManager.queues.lookup config.name = none)
    (ha : Accepted st.fsm.queueManager.config config) :
    restoreItem st (.queue config) =
      some ⟨st.fsm.putQueue config.name (st.fsm.started config).1 (st.fsm.started config).2, some config.name, some ∅⟩ :=
  restore_new st hq ha

theorem restore_existing {q : Queue} (st : Restoring) (hq : st.fsm.queueManager.queues.lookup config.name = some q) :
    restoreItem st (.queue config) = some ⟨st.fsm, some config.name, some ∅⟩ := by
  simp only [restoreItem, QueueManager.createQueue, hq]

theorem restore_refused {e : Err} (st : Restoring) (hq : st.fsm.queueManager.queues.lookup config.name = none)
    (ha : Queue.newSettings st.fsm.queueManager.config config.type config.settings = .error e) :
    restoreItem st (.queue config) = some ⟨st.fsm, none, some ∅⟩ := by
  have hc := Queue.createQueue_eq st.fsm.queueManager.store st.fsm.queueManager.config config.type config.name config.settings
  rw [ha] at hc
  obtain ⟨q, hc⟩ := hc
  simp only [restoreItem, QueueManager.createQueue, hq, hc]

theorem restore_block (st : Restoring) (msgs : List Message) (hq : st.fsm.queueManager.queues.lookup config.name = none)
    (ha : Accepted st.fsm.queueManager.config config) :
    (block config state msgs).foldlM restoreItem st =
      (Queue.restoreMessages st.fsm.queueManager.config (deadlines state.unacked) msgs (st.fsm.started config)).map fun s =>
        ⟨st.fsm.putQueue config.name (s.1.restoreState state.roundRobin) s.2, some config.name,
        some (deadlines state.unacked)⟩ := by
  unfold block
  rw [List.cons_append, List.cons_append, List.foldlM_cons, restore_created st hq ha, Option.bind_eq_bind, Option.bind_some,
    List.foldlM_append, List.foldlM_append, restore_markers _ _ _ rfl, Option.bind_eq_bind, Option.bind_some]
  have hm := restore_messages st.fsm config.name (deadlines state.unacked) msgs (st.fsm.started config).1
    (st.fsm.started config).2
  unfold deadlines at hm ⊢
  rw [hm]
  cases Queue.restoreMessages st.fsm.queueManager.config (state.unacked.foldl (fun m u => m.insert u.1 u.2) ∅) msgs
      (st.fsm.started config) with
  | none => rfl
  | some s =>
    rw [Option.map_some, Option.map_some, Option.bind_some]
    cases state.roundRobin with
    | none => rfl
    | some nodes =>
      rw [Option.toList_some, List.map_singleton, List.foldlM_cons]
      simp only [restoreItem, lookup_putQueue, Option.bind_eq_bind, Option.bind_some, putQueue_putQueue, List.foldlM_nil]
      rfl

/-- Without its queue a message is applied to nil. -/
theorem restore_block_refused {e : Err} (st : Restoring) (msgs : List Message)
    (hq : st.fsm.queueManager.queues.lookup config.name = none)
    (ha : Queue.newSettings st.fsm.queueManager.config config.type config.settings = .error e) :
    (block config state msgs).foldlM restoreItem st =
      if msgs = [] then some ⟨st.fsm, none, some (deadlines state.unacked)⟩ else none := by
  unfold block
  rw [List.cons_append, List.cons_append, List.foldlM_cons, restore_refused st hq ha, Option.bind_eq_bind, Option.bind_some,
    List.foldlM_append, List.foldlM_append, restore_markers _ _ _ rfl, Option.bind_eq_bind, Option.bind_some]
  cases msgs with
  | nil => cases state.roundRobin <;> rfl
  | cons msg msgs => rfl

/-! ## The whole snapshot -/

theorem foldlM_flatten {σ α : Type} (step : σ → α → Go σ) (blocks : List (List α)) : ∀ s : σ,
    blocks.flatten.foldlM step s = blocks.foldlM (fun s items => items.foldlM step s) s := by
  induction blocks with
  | nil => intro s; rfl
  | cons items blocks ih =>
    intro s
    rw [List.flatten_cons, List.foldlM_append, List.foldlM_cons]
    exact congrArg (items.foldlM step s >>= ·) (funext ih)

/-- Nothing is there under the name. -/
structure Clean (name : String) (f : FSM) : Prop where
  queue : f.queueManager.queues.lookup name = none
  config : f.queueManager.store.queues.lookup name = none
  stored : ∀ id, f.queueManager.store.messages.lookup (name, id) = none

theorem Clean.untouched {f' : FSM} (h : Clean name f) (hu : Untouched name f f') : Clean name f' :=
  ⟨hu.memory.trans h.queue, hu.config.trans h.config, fun id => (hu.stored id).trans (h.stored id)⟩

/-- What restoring the items of the queue `name` does when nothing is there yet. -/
def Rebuilds (name : String) (items : List SnapshotItem) (cfg : Config) (P : FSM → Prop) : Prop :=
  ∀ st : Restoring, Clean name st.fsm → st.fsm.queueManager.config = cfg → Returns (items.foldlM restoreItem st) fun st' =>
    P st'.fsm ∧ st'.fsm.queueManager.config = cfg ∧ st'.fsm.leaderConfig = st.fsm.leaderConfig ∧
      ∀ n, n ≠ name → Untouched n st.fsm st'.fsm

/-- The blocks in any order, from a state with nothing left in it. -/
theorem restore_blocks {P : String → FSM → Prop} {cfg : Config} {blocks : String → List SnapshotItem}
    (hframe : ∀ n f f', P n f → Untouched n f f' → P n f') {names : List String} (hnd : names.Nodup)
    (hblock : ∀ n ∈ names, Rebuilds n (blocks n) cfg (P n)) (st : Restoring) (hclean : ∀ n, Clean n st.fsm)
    (hcfg : st.fsm.queueManager.config = cfg) :
    Returns ((names.map blocks).flatten.foldlM restoreItem st) fun st' => (∀ n ∈ names, P n st'.fsm) ∧
      (∀ n, n ∉ names → Clean n st'.fsm) ∧
      st'.fsm.queueManager.config = cfg ∧ st'.fsm.leaderConfig = st.fsm.leaderConfig := by
  rw [foldlM_flatten, List.foldlM_map]
  refine Returns.foldlM (I := fun (done : List String) (st' : Restoring) => (∀ n ∈ done, P n st'.fsm) ∧
    (∀ n, n ∉ done → Clean n st'.fsm) ∧
    st'.fsm.queueManager.config = cfg ∧ st'.fsm.leaderConfig = st.fsm.leaderConfig) ⟨nofun, fun n _ => hclean n, hcfg, rfl⟩ ?_
  rintro done n rest st' hl ⟨hdone, hleft, hcfg', hleader⟩
  have hn : n ∉ done := by
    rw [hl, List.nodup_append] at hnd
    exact fun hin => hnd.2.2 n hin n List.mem_cons_self rfl
  refine (hblock n (by rw [hl]; simp) st' (hleft n hn) hcfg').mono ?_
  rintro st'' ⟨hP, hcfg'', hleader', hother⟩
  refine ⟨fun m hm => ?_, fun m hm => ?_, hcfg'', hleader'.trans hleader⟩
  · by_cases e : m = n
    · rw [e]; exact hP
    · exact hframe m _ _ (hdone m ((List.mem_append.mp hm).resolve_right (by simpa using e))) (hother m e)
  · rw [List.mem_append, List.mem_singleton, not_or] at hm
    exact (hleft m hm.1).untouched (hother m hm.2)

theorem mapM_some {α β : Type} {step : α → Go β} {value : α → β} : ∀ {l : List α}, (∀ a ∈ l, step a = some (value a)) →
    l.mapM step = some (l.map value)
  | [], _ => rfl
  | a :: l, h => by
    rw [List.mapM_cons, h a List.mem_cons_self, mapM_some fun b hb => h b (List.mem_cons_of_mem _ hb)]
    rfl

/-- The queues of a state as `Reset` leaves them to whoever holds them. -/
def stopped (g : FSM) : List (String × Queue) :=
  g.queueManager.queues.entries.map fun e => (e.1, { e.2.notify with ackQueueMonitoring := false })

theorem Safe.reset (h : Safe g) :
    g.queueManager.reset = some (g.stopped, { g.queueManager with queues := ∅, store := .empty }) := by
  have hstop : ∀ e ∈ g.queueManager.queues.entries, (do some (e.1, ← e.2.stop)) =
      some (e.1, { e.2.notify with ackQueueMonitoring := false }) := by
    intro e he
    obtain ⟨config, _, hserved⟩ := h.queue e.1 e.2 (FinMap.mem_entries.mp he)
    simp only [Queue.stop, hserved.running, if_true, Option.bind_eq_bind, Option.bind_some]
  unfold QueueManager.reset
  rw [mapM_some hstop, Option.bind_eq_bind, Option.bind_some]
  rfl

/-- Where a restore starts. -/
def emptied (g : FSM) : Restoring := ⟨{ g with queueManager := { g.queueManager with queues := ∅, store := .empty } }, none, none⟩

theorem Safe.restoreStopping_eq (h : Safe g) (items : List SnapshotItem) :
    g.restoreStopping items = (items.foldlM restoreItem g.emptied).map fun st => (g.stopped, st.fsm) := by
  unfold restoreStopping
  rw [h.reset, Option.bind_eq_bind, Option.bind_some]
  exact Option.map_eq_bind.symm

theorem Safe.restore_eq (h : Safe g) (items : List SnapshotItem) :
    g.restore items = (items.foldlM restoreItem g.emptied).map Restoring.fsm := by
  unfold restore
  rw [h.restoreStopping_eq, Option.map_map]
  rfl

/-- The item of the leader's addresses, which opens a snapshot. -/
def leaderItem (f : FSM) : SnapshotItem :=
  .leaderConfiguration f.leaderConfig.id f.leaderConfig.raftAddr f.leaderConfig.grpcAddr f.leaderConfig.httpAddr

theorem persist_eq {blocks : String → List SnapshotItem} {names : List String}
    (h : ∀ n ∈ names, f.persistQueue n = some (blocks n)) :
    f.persist names = some (f.leaderItem :: (names.map blocks).flatten) := by
  simp only [persist, mapM_some h, Option.bind_eq_bind, Option.bind_some]
  rfl

theorem queue_mem_block {config config' : QueueConfig} {msgs : List Message} :
    .queue config' ∈ block config state msgs ↔ config' = config := by
  unfold block
  simp

theorem mem_keys_iff {names : List String} (h : names.Perm f.queueManager.queues.keys) {n : String} :
    n ∈ names ↔ ∃ q, f.queueManager.queues.lookup n = some q := by
  rw [h.mem_iff, ← AList.mem_keys, ← AList.lookup_isSome, Option.isSome_iff_exists]

/-- The block of the queue `n` of the state. -/
structure BlockOf (f : FSM) (n : String) (items : List SnapshotItem) : Prop where
  persisted : f.persistQueue n = some items
  made : ∃ q config state, f.queueManager.queues.lookup n = some q ∧ f.queueManager.store.queues.lookup n = some config ∧
    Queue.Served n config q f.queueManager.store ∧ q.captureSnapshotState = some state ∧
    items = block config state (f.queueManager.store.scan n)

theorem Safe.blocks (h : Safe f) {names : List String} (hnames : names.Perm f.queueManager.queues.keys) :
    ∃ blocks : String → List SnapshotItem, ∀ n ∈ names, BlockOf f n (blocks n) := by
  refine ⟨fun n => (f.persistQueue n).getD [], fun n hn => ?_⟩
  obtain ⟨q, hq⟩ := (mem_keys_iff hnames).mp hn
  obtain ⟨config, state, hc, hserved, hstate, hp⟩ := h.persistQueue hq
  simp only [hp, Option.getD_some]
  exact ⟨hp, q, config, state, hq, hc, hserved, hstate, rfl⟩

/-- The configurations in a snapshot are those the store holds. -/
theorem queue_mem_blocks {blocks : String → List SnapshotItem} {names : List String} (h : ∀ n ∈ names, BlockOf f n (blocks n))
    {config : QueueConfig} (hm : .queue config ∈ (names.map blocks).flatten) :
    config.name ∈ names ∧ f.queueManager.store.queues.lookup config.name = some config := by
  obtain ⟨l, hl, hm⟩ := List.mem_flatten.mp hm
  obtain ⟨n, hn, rfl⟩ := List.mem_map.mp hl
  obtain ⟨_, q, config', state, _, hc, hserved, _, he⟩ := h n hn
  rw [he, queue_mem_block] at hm
  subst hm
  rw [hserved.name_eq]
  exact ⟨hn, hc⟩

theorem restore_rebuilds {P : String → FSM → Prop} {blocks : String → List SnapshotItem}
    (hframe : ∀ n f f', P n f → Untouched n f f' → P n f') {names : List String} (hnd : names.Nodup)
    (hpersist : ∀ n ∈ names, f.persistQueue n = some (blocks n))
    (hblock : ∀ n ∈ names, Rebuilds n (blocks n) g.queueManager.config (P n)) (hg : Safe g) :
    ∃ items, f.persist names = some items ∧ Returns (g.restore items) fun g' => (∀ n ∈ names, P n g') ∧
      (∀ n, n ∉ names → Clean n g') ∧ g'.queueManager.config = g.queueManager.config ∧
      g'.leaderConfig = (g.leaderConfig.set f.leaderConfig.id f.leaderConfig.raftAddr f.leaderConfig.grpcAddr
        f.leaderConfig.httpAddr).2 := by
  refine ⟨_, persist_eq hpersist, ?_⟩
  rw [hg.restore_eq, List.foldlM_cons]
  exact Returns.map (.bind_eq rfl (restore_blocks hframe hnd hblock _ (fun n => ⟨rfl, rfl, fun _ => rfl⟩) rfl)) fun _ h => h

end FSM

end Doq
