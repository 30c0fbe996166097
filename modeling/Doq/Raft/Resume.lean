/-
  Doq.Raft.Resume — the state a restore leaves (see `Doq.Raft.Restore`).

  A restore goes item by item. Whatever the items are, each leaves a state that entries can
  be applied to, and does nothing to a queue whose configuration it does not bring. So after
  a restore a queue is what its own block made of it, and the block of a queue that was a
  broker makes the same broker again: its records come back one by one, ready, or in flight
  until the deadline of their marker.

  Proved:
  - `Safe.restore`: every state a restore returns is safe, for any list of items.
  - `Tracks.restored`: a queue that no other queue's messages lie under is tracked again,
    with the configuration and the records it had.
-/

import Doq.Raft.Delivery
import Doq.Raft.Recreate

namespace Doq

open Lib Memory Storage

/-! ## Any items -/

namespace Queue

variable {name : String} {config : QueueConfig} {m : MemoryQueue} {q : Queue} {store : Store} {cfg : Config} {msg : Message}

/-- The memory queue after a message was put back: it is as it was, has the message ready, or has
    it counted as unacked and no longer ready. -/
inductive TakesBack (m : MemoryQueue) (group : String) (item : Item) : MemoryQueue → Prop
  | same : TakesBack m group item m
  | pushed {m' : MemoryQueue} (h : m.enqueue group item = some m') : TakesBack m group item m'
  | marked {m₁ m' : MemoryQueue} (hw : withoutReady m group item.id = some m₁) (h : m₁.markUnacked group = some m') :
    TakesBack m group item m'

theorem Live.withoutReady (h : Live name config m q store) (group : String) (id : UInt64) :
    Returns (withoutReady m group id) MemoryQueue.Safe := by
  unfold Queue.withoutReady
  refine (h.memory.get group id).bind fun item _ => ?_
  cases item with
  | none => exact .intro h.memory
  | some it => exact (h.memory.delete group id).bind fun r hr => .intro hr.1

/-- Whatever the queue holds already, a restored message is stored and leaves it live. -/
theorem Live.restoredAny (h : Live name config m q store) (cfg : Config) (msg : Message) (deadline : Option Int) :
    Returns (q.putBack store cfg noFaults msg deadline) fun r =>
      r.2.2 = { store with
        messages := store.messages.insert (name, msg.id) { msg with group := groupFor config msg.group } } ∧
      ∃ m', Live name config m' r.2.1 r.2.2 ∧
        TakesBack m (groupFor config msg.group) ⟨msg.id, msg.priority, groupFor config msg.group⟩ m' := by
  have hkeyed := h.keyed.insert { msg with group := groupFor config msg.group } rfl
  cases deadline with
  | none =>
    unfold Queue.putBack Queue.enqueueRestored
    refine .bind_eq h.config_eq ?_
    simp only [Store.restoreMessage, noFaults, Bool.false_eq_true, if_false, h.name_eq]
    refine .bind_eq h.queue_eq ((h.memory.get _ _).bind fun item _ => ?_)
    cases item with
    | some it => exact .bind_eq (h.prometheus cfg) (.intro ⟨rfl, m, { h with keyed := hkeyed }, .same⟩)
    | none =>
      have hi : (⟨msg.id, msg.priority, groupFor config msg.group⟩ : Item).group = groupFor config msg.group := rfl
      obtain ⟨m', hpushed, hm', _⟩ := h.memory.enqueue hi
      have hl := h.update hm' h.ack (q.notifyCh + 1) hkeyed
      exact .bind_eq hpushed (.bind_eq (hl.prometheus cfg) (.intro ⟨rfl, m', hl, .pushed hpushed⟩))
  | some ackDeadline =>
    unfold Queue.putBack Queue.restoreUnacked
    refine .bind_eq h.config_eq ?_
    simp only [Store.restoreMessage, noFaults, Bool.false_eq_true, if_false, h.name_eq]
    refine (DelayedQueue.get_spec h.ack msg.id).bind fun item hitem => ?_
    cases item with
    | some it =>
      obtain ⟨queue, hu, hr, _⟩ := PriorityMemoryQueue.updatePriority_found hitem ackDeadline
      have hu' : q.ackQueue.updatePriority msg.id ackDeadline = some ⟨queue⟩ := by
        simp only [DelayedQueue.updatePriority, hu, Option.bind_eq_bind, Option.bind_some]
      exact .bind_eq hu' (.intro ⟨rfl, m, { h with ack := hr.sound h.ack, keyed := hkeyed }, .same⟩)
    | none =>
      obtain ⟨m₁, hwithout, hm₁⟩ := h.withoutReady (groupFor config msg.group) msg.id
      obtain ⟨m', hmarked, hm', _⟩ := hm₁.markUnacked (groupFor config msg.group)
      have hgrown := PriorityMemoryQueue.heapPush_grown q.ackQueue.queue ⟨msg.id, ackDeadline, groupFor config msg.group⟩
      have hl := h.update hm' (hgrown.sound h.ack) q.notifyCh hkeyed
      refine .bind_eq h.queue_eq (.bind_eq hwithout (.bind_eq hmarked (.bind_eq (hl.prometheus cfg) ?_)))
      exact .intro ⟨rfl, m', hl, .marked hwithout hmarked⟩

/-- A message is not put into a queue without a memory queue: it is dereferenced. -/
theorem Idle.putBack (h : Idle name config q store) (msg : Message) (deadline : Option Int) :
    q.putBack store cfg noFaults msg deadline = none := by
  have hget : q.ackQueue.get msg.id = some none := by rw [h.ack]; rfl
  cases deadline with
  | none => simp only [Queue.putBack, enqueueRestored, h.config_eq, h.queue_eq, Store.restoreMessage, noFaults,
      Bool.false_eq_true, if_false, Option.bind_eq_bind, Option.bind_some, Option.bind_none]
  | some ackDeadline =>
    simp only [Queue.putBack, restoreUnacked, h.config_eq, h.queue_eq, hget, Store.restoreMessage, noFaults,
      Bool.false_eq_true, if_false, Option.bind_eq_bind, Option.bind_some, Option.bind_none]

theorem Served.restoreState (h : Served name config q store) (roundRobin : Option (List SchedulingNode)) :
    Served name config (q.restoreState roundRobin) store := by
  rcases h with ⟨hk, m, hl⟩ | ⟨hk, hi⟩
  · obtain ⟨m', hl', _⟩ := hl.restoreState roundRobin
    exact Or.inl ⟨hk, m', hl'⟩
  · refine Or.inr ⟨hk, ?_⟩
    cases roundRobin with
    | none => exact hi
    | some nodes =>
      unfold Queue.restoreState restoreRoundRobinState
      rw [hi.queue_eq]
      exact hi

end Queue

namespace FSM

variable {f g g' : FSM} {name : String} {st st' : Restoring}

/-- A restore between two items. -/
structure Resumable (st : Restoring) : Prop where
  safe : Safe st.fsm
  current : ∀ n, st.q = some n → ∃ q, st.fsm.queueManager.queues.lookup n = some q

/-- What items that bring these configurations do: every other queue is left alone, and what
    is configured afterwards was so before or is of a type they bring. -/
structure Carried (brings : QueueConfig → Prop) (st st' : Restoring) : Prop where
  resumable : Resumable st'
  config_eq : st'.fsm.queueManager.config = st.fsm.queueManager.config
  spares : ∀ name, st.q ≠ some name → (∀ config, brings config → config.name ≠ name) → Untouched name st.fsm st'.fsm ∧
    st'.q ≠ some name
  configs : ∀ name c, st'.fsm.queueManager.store.queues.lookup name = some c →
    st.fsm.queueManager.store.queues.lookup name = some c ∨ ∃ config, brings config ∧ config.name = name ∧ c.type = config.type

theorem untouched_refl (name : String) (f : FSM) : Untouched name f f := ⟨rfl, fun _ => rfl, rfl⟩

theorem Resumable.same {brings : QueueConfig → Prop} (h : Resumable st) : Carried brings st st :=
  ⟨h, rfl, fun name hne _ => ⟨untouched_refl name _, hne⟩, fun _ _ hc => Or.inl hc⟩

theorem Carried.trans {brings brings' : QueueConfig → Prop} {st₁ : Restoring} (h : Carried brings st st₁)
    (h' : Carried brings' st₁ st') :
    Carried (fun config => brings config ∨ brings' config) st st' where
  resumable := h'.resumable
  config_eq := h'.config_eq.trans h.config_eq
  spares name hne hc := by
    obtain ⟨hu, hne₁⟩ := h.spares name hne fun config hb => hc config (Or.inl hb)
    obtain ⟨hu', hne'⟩ := h'.spares name hne₁ fun config hb => hc config (Or.inr hb)
    exact ⟨⟨hu'.config.trans hu.config, fun id => (hu'.stored id).trans (hu.stored id), hu'.memory.trans hu.memory⟩, hne'⟩
  configs name c hc := by
    rcases h'.configs name c hc with hc | ⟨config, hb, hname, ht⟩
    · rcases h.configs name c hc with hc | ⟨config, hb, hname, ht⟩
      · exact Or.inl hc
      · exact Or.inr ⟨config, Or.inl hb, hname, ht⟩
    · exact Or.inr ⟨config, Or.inr hb, hname, ht⟩

theorem putQueue_untouched {n : String} {q : Queue} {store : Store} (hn : name ≠ n)
    (hc : store.queues.lookup name = f.queueManager.store.queues.lookup name)
    (hm : ∀ id, store.messages.lookup (name, id) = f.queueManager.store.messages.lookup (name, id)) :
    Untouched name f (f.putQueue n q store) :=
  ⟨hc, hm, (FinMap.lookup_insert_eq ..).trans (if_neg hn)⟩

/-- An item of the current queue. -/
theorem Resumable.put {n : String} {q' : Queue} {store : Store} {config : QueueConfig} {unacked : Option (FinMap UInt64 Int)}
    {brings : QueueConfig → Prop} (h : Resumable st) (hn : st.q = some n)
    (hc : st.fsm.queueManager.store.queues.lookup n = some config)
    (hserved : Queue.Served n config q' store) (hframe : StoreFrame n st.fsm.queueManager.store store) :
    Carried brings st ⟨st.fsm.putQueue n q' store, some n, unacked⟩ where
  resumable := ⟨h.safe.put hc hserved hframe, fun x hx => by cases hx; exact ⟨q', lookup_putQueue⟩⟩
  config_eq := rfl
  spares name hne _ := by
    have hne : name ≠ n := fun e => hne (by rw [hn, e])
    exact ⟨putQueue_untouched hne (by rw [hframe.queues]) fun id => hframe.messages name id hne, by simpa using hne.symm⟩
  configs name c hc' := by
    have hc' : store.queues.lookup name = some c := hc'
    rw [hframe.queues] at hc'
    exact Or.inl hc'

theorem Resumable.queue {config : QueueConfig} (h : Resumable st) (hr : restoreItem st (.queue config) = some st') :
    Carried (· = config) st st' := by
  cases hq : st.fsm.queueManager.queues.lookup config.name with
  | some q =>
    rw [restore_existing st hq] at hr
    cases hr
    exact ⟨⟨h.safe, fun n hn => by cases hn; exact ⟨q, hq⟩⟩, rfl,
      fun name _ hne => ⟨untouched_refl name _, by simpa using hne config rfl⟩, fun _ _ hc => Or.inl hc⟩
  | none =>
    cases hs : Queue.newSettings st.fsm.queueManager.config config.type config.settings with
    | error e =>
      rw [restore_refused st hq hs] at hr
      cases hr
      exact ⟨⟨h.safe, fun _ hn => by cases hn⟩, rfl, fun name _ _ => ⟨untouched_refl name _, fun hn => by cases hn⟩,
        fun _ _ hc => Or.inl hc⟩
    | ok settings =>
      have hsafe := h.safe.create config.name config.type config.settings
      rw [applyCreateQueue_new hq, hs] at hsafe
      rw [restore_new st hq hs] at hr
      cases hr
      refine ⟨⟨hsafe, fun n hn => ?_⟩, rfl, fun name _ hne => ?_, fun name c hc => ?_⟩
      · cases hn; exact ⟨_, lookup_putQueue⟩
      · have hne : config.name ≠ name := hne config rfl
        refine ⟨putQueue_untouched hne.symm ?_ fun _ => rfl, by simpa using hne⟩
        exact (FinMap.lookup_insert_eq ..).trans (if_neg hne.symm)
      · have hc : (st.fsm.queueManager.store.queues.insert config.name
          ⟨config.name, config.type, settings⟩).lookup name = some c := hc
        rw [FinMap.lookup_insert_eq] at hc
        split at hc
        · rename_i e
          cases hc
          exact Or.inr ⟨config, rfl, e.symm, rfl⟩
        · exact Or.inl hc

theorem Resumable.message {msg : Message} {brings : QueueConfig → Prop} (h : Resumable st)
    (hr : restoreMessageItem st msg = some st') :
    Carried brings st st' := by
  obtain ⟨n, hn, hr⟩ := Option.bind_eq_some_iff.mp hr
  obtain ⟨q, hq, hr⟩ := Option.bind_eq_some_iff.mp hr
  obtain ⟨r, hm, hr⟩ := Option.bind_eq_some_iff.mp hr
  cases hr
  obtain ⟨config, hc, hserved⟩ := h.safe.queue n q hq
  rcases hserved with ⟨hk, m, hl⟩ | ⟨_, hi⟩
  · obtain ⟨hstored, m', hl', _⟩ := (hl.restoredAny _ msg _).result hm
    rw [hn]
    exact h.put hn hc (Or.inl ⟨hk, m', hl'⟩) (hstored ▸ .insert ..)
  · rw [hi.putBack] at hm; cases hm

/-- One item: of the current queue, or the start of another. -/
theorem Resumable.item {item : SnapshotItem} (h : Resumable st) (hr : restoreItem st item = some st') :
    Carried (item = .queue ·) st st' := by
  cases item with
  | leaderConfiguration nodeId raftAddr grpcAddr httpAddr =>
    cases hr
    exact ⟨⟨⟨h.safe.queue, h.safe.missing⟩, h.current⟩, rfl, fun name hne _ => ⟨⟨rfl, fun _ => rfl, rfl⟩, hne⟩,
      fun _ _ hc => Or.inl hc⟩
  | queue config =>
    obtain ⟨hres, hcfg, hspares, hconfigs⟩ := h.queue hr
    refine ⟨hres, hcfg, fun name hne hc => hspares name hne fun c hb => hb ▸ hc config rfl, fun name c hc => ?_⟩
    exact (hconfigs name c hc).imp_right fun ⟨c', hb, hc'⟩ => ⟨c', by rw [hb], hc'⟩
  | unackedMessage id ackDeadline =>
    obtain ⟨unacked, _, hr⟩ := Option.bind_eq_some_iff.mp hr
    cases hr
    exact ⟨⟨h.safe, h.current⟩, rfl, fun name hne _ => ⟨untouched_refl name _, hne⟩, fun _ _ hc => Or.inl hc⟩
  | roundRobinState nodes =>
    unfold restoreItem at hr
    cases hn : st.q with
    | none => rw [hn] at hr; cases hr; exact h.same
    | some n =>
      rw [hn] at hr
      obtain ⟨q, hq, hr⟩ := Option.bind_eq_some_iff.mp hr
      cases hr
      obtain ⟨config, hc, hserved⟩ := h.safe.queue n q hq
      exact h.put hn hc (hserved.restoreState (some nodes)) (.refl _ _)
  | message msg => exact h.message hr

theorem Resumable.items {items : List SnapshotItem} (h : Resumable st) (hr : items.foldlM restoreItem st = some st') :
    Carried (.queue · ∈ items) st st' := by
  induction items generalizing st with
  | nil => cases hr; exact h.same
  | cons item items ih =>
    rw [List.foldlM_cons] at hr
    obtain ⟨st₁, h₁, hr⟩ := Option.bind_eq_some_iff.mp hr
    have hfirst := h.item h₁
    obtain ⟨hres, hcfg, hspares, hconfigs⟩ := hfirst.trans (ih hfirst.resumable hr)
    refine ⟨hres, hcfg, fun name hne hc => hspares name hne fun c hb => hc c ?_, fun name c hc => ?_⟩
    · exact List.mem_cons.mpr (hb.imp_left Eq.symm)
    · exact (hconfigs name c hc).imp_right fun ⟨c', hb, hc'⟩ => ⟨c', List.mem_cons.mpr (hb.imp_left Eq.symm), hc'⟩

theorem emptied_resumable (g : FSM) : Resumable g.emptied := ⟨⟨fun _ _ h => (nomatch h), fun _ _ => ⟨rfl, fun _ => rfl⟩⟩, nofun⟩

theorem Safe.restore {items : List SnapshotItem} (h : Safe g) (hr : g.restore items = some g') : Safe g' := by
  rw [h.restore_eq] at hr
  obtain ⟨st, hst, rfl⟩ := Option.map_eq_some_iff.mp hr
  exact ((emptied_resumable g).items hst).resumable.safe

theorem Safe.restore_config {items : List SnapshotItem} (h : Safe g) (hr : g.restore items = some g') :
    g'.queueManager.config = g.queueManager.config := by
  rw [h.restore_eq] at hr
  obtain ⟨st, hst, rfl⟩ := Option.map_eq_some_iff.mp hr
  exact ((emptied_resumable g).items hst).config_eq

end FSM

/-! ## The block of a broker -/

/-- A restored message is in flight exactly if it has a marker. -/
def Status.ofMarker : Option Int → Status
  | none => .ready
  | some deadline => .inFlight deadline

/-- The memory queue once the scheduling state of a block is laid over it. -/
def Memory.MemoryQueue.rearranged (m : MemoryQueue) (roundRobin : Option (List SchedulingNode)) : MemoryQueue :=
  match m, roundRobin with
  | .fairRoundRobin queue, some nodes => .fairRoundRobin (queue.restoreSchedulingState nodes)
  | _, _ => m

theorem Memory.MemoryQueue.rearranged_kind (m : MemoryQueue) (roundRobin : Option (List SchedulingNode)) :
    (m.rearranged roundRobin).kind = m.kind := by
  cases m <;> cases roundRobin <;> rfl

namespace Refines

variable {name : String} {b : Broker} {q : Queue} {store : Store} {cfg : Config} {msg : Message}

theorem enqueueRestored (h : Refines name b q store) (hnew : b.records msg.id = none)
    (hg : Queue.groupFor b.config msg.group = msg.group)
    (hacc : MemoryQueue.Accepts b.memory.kind msg.group) :
    Returns (q.enqueueRestored store cfg noFaults msg) fun r =>
      ∃ m, b.memory.enqueue msg.group ⟨msg.id, msg.priority, msg.group⟩ = some m ∧
      m.kind = b.memory.kind ∧ Refines name (b.put msg.id (some ⟨msg, .ready⟩) m) r.2.1 r.2.2 ∧ StoreFrame name store r.2.2 := by
  have hfresh : ∀ it ∈ b.memory.ready, it.id ≠ msg.id := h.not_ready (by rw [hnew]; rfl)
  unfold Queue.enqueueRestored
  refine .bind_eq h.config_eq ?_
  simp only [hg, Store.restoreMessage, noFaults, Bool.false_eq_true, if_false, h.name_eq]
  refine .bind_eq h.queue_eq (.bind_eq (h.inv.safe.get_none hfresh _) ?_)
  have hi : (⟨msg.id, msg.priority, msg.group⟩ : Item).group = msg.group := rfl
  obtain ⟨m, hm, hres⟩ := h.inv.enqueue hacc hi hfresh
  have hput : Refines name (b.put msg.id (some ⟨msg, .ready⟩) m)
      { q with queue := some m, ackQueue := q.ackQueue, notifyCh := q.notifyCh + 1 }
      { store with messages := store.messages.insert (name, msg.id) msg } := by
    refine h.put hres.inv hres.kind h.exact h.maxFirst ?_ (h.ack_same (by rw [hnew]; rfl)) (h.stored_insert msg.id msg) ?_ ?_ _
    · rw [hres.ready]
      refine h.ready.push (a := ⟨msg.id, msg.priority, msg.group⟩) ?_
      show (b.records msg.id).bind _ = none
      rw [hnew]; rfl
    · intro r hr; cases hr; exact ⟨rfl, hacc⟩
    · intro ht g
      rw [hres.unacked]; exact h.counts ht g
  exact .bind_eq hm (.bind_eq (hput.live.prometheus cfg) (.intro ⟨m, hm, hres.kind, hput, .insert _ _ _ _⟩))

theorem restoreUnacked (h : Refines name b q store) (hnew : b.records msg.id = none)
    (hg : Queue.groupFor b.config msg.group = msg.group)
    (hacc : MemoryQueue.Accepts b.memory.kind msg.group) (deadline : Int) :
    Returns (q.restoreUnacked store cfg noFaults msg deadline) fun r => ∃ m, b.memory.markUnacked msg.group = some m ∧
      m.kind = b.memory.kind ∧ Refines name (b.put msg.id (some ⟨msg, .inFlight deadline⟩) m) r.2.1 r.2.2 ∧
        StoreFrame name store r.2.2 := by
  have hfresh : ∀ it ∈ b.memory.ready, it.id ≠ msg.id := h.not_ready (by rw [hnew]; rfl)
  have hnot : (b.records msg.id).bind Record.ackItem = none := by rw [hnew]; rfl
  unfold Queue.restoreUnacked
  refine .bind_eq h.config_eq ?_
  simp only [hg, Store.restoreMessage, noFaults, Bool.false_eq_true, if_false, h.name_eq]
  have hw : Queue.withoutReady b.memory msg.group msg.id = some b.memory := by
    simp only [Queue.withoutReady, h.inv.safe.get_none hfresh, Option.bind_eq_bind, Option.bind_some]
  obtain ⟨m, hm, hres⟩ := h.inv.markUnacked msg.group
  generalize haq : q.ackQueue.enqueue ⟨msg.id, deadline, msg.group⟩ = aq
  have hgrown : q.ackQueue.queue.Grown ⟨msg.id, deadline, msg.group⟩ aq.queue :=
    haq ▸ PriorityMemoryQueue.heapPush_grown q.ackQueue.queue ⟨msg.id, deadline, msg.group⟩
  have hheld : aq.held = ⟨msg.id, deadline, msg.group⟩ ::ₘ q.ackQueue.held := hgrown.held
  have hout : msg.id ∉ q.ackQueue.queue.ids := by
    intro hin
    obtain ⟨y, hy, hyid⟩ := Multiset.mem_map.mp hin
    exact h.ack.notMem hnot y hy hyid
  have hput : Refines name (b.put msg.id (some ⟨msg, .inFlight deadline⟩) m)
      { q with queue := some m, ackQueue := aq }
      { store with messages := store.messages.insert (name, msg.id) msg } := by
    refine h.put hres.inv hres.kind (hgrown.exact h.exact hout) (hgrown.minFirst.trans h.maxFirst) ?_ ?_
      (h.stored_insert msg.id msg) ?_ ?_
      q.notifyCh
    · rw [hres.ready]
      exact h.ready_same (by rw [hnew]; rfl)
    · rw [hheld]
      exact h.ack.push (a := ⟨msg.id, deadline, msg.group⟩) hnot
    · intro r hr; cases hr; exact ⟨rfl, hacc⟩
    · intro ht g
      rw [hres.unacked, hheld, Multiset.countP_cons, MemoryQueue.charged, h.counts ht g]
      have hk := h.fair ht
      by_cases e : msg.group = g
      · simp [e, hk]
      · simp [e, Ne.symm e]
  exact .bind_eq (h.not_in_flight hnot) (.bind_eq h.queue_eq (.bind_eq hw (.bind_eq hm
    (.bind_eq (hput.live.prometheus cfg) (.intro ⟨m, hm, hres.kind, hput, .insert _ _ _ _⟩)))))

theorem putBack (h : Refines name b q store) (hnew : b.records msg.id = none)
    (hg : Queue.groupFor b.config msg.group = msg.group)
    (hacc : MemoryQueue.Accepts b.memory.kind msg.group) (deadline : Option Int) :
    Returns (q.putBack store cfg noFaults msg deadline) fun r => ∃ m,
      (b.memory.enqueue msg.group ⟨msg.id, msg.priority, msg.group⟩ = some m ∨ b.memory.markUnacked msg.group = some m) ∧
      m.kind = b.memory.kind ∧ Refines name (b.put msg.id (some ⟨msg, .ofMarker deadline⟩) m) r.2.1 r.2.2 ∧
      StoreFrame name store r.2.2 := by
  cases deadline with
  | none => exact (h.enqueueRestored hnew hg hacc).mono fun r ⟨m, hm, hr⟩ => ⟨m, Or.inl hm, hr⟩
  | some deadline => exact (h.restoreUnacked hnew hg hacc deadline).mono fun r ⟨m, hm, hr⟩ => ⟨m, Or.inr hm, hr⟩

/-- The records of the messages restored so far. -/
def soFar (records : UInt64 → Option Record) (done : List Message) (id : UInt64) : Option Record :=
  if id ∈ done.map Message.id then records id else none

theorem soFar_snoc {records : UInt64 → Option Record} {done : List Message} {record : Record}
    (hr : records msg.id = some record) :
    soFar records (done ++ [msg]) = Function.update (soFar records done) msg.id (some record) := by
  funext id
  unfold soFar
  by_cases e : id = msg.id
  · rw [e, Function.update_self, if_pos (by simp), hr]
  · rw [Function.update_of_ne e]
    simp [e]

/-- The messages of a block, with the markers of the records' deadlines. -/
theorem restoreMessages {config : QueueConfig} {records : UInt64 → Option Record} {msgs : List Message}
    {deadlines : FinMap UInt64 Int}
    {m₀ : MemoryQueue} {q₀ : Queue} {store₀ : Store} {P : MemoryQueue → Prop}
    (h : Refines name ⟨config, fun _ => none, m₀⟩ q₀ store₀)
    (hmsgs : Listed Message.id (msgs : Multiset Message) fun id => (records id).map (·.message))
    (hmark : ∀ id r, records id = some r → .ofMarker (deadlines.lookup id) = r.status)
    (hgroup : ∀ id r, records id = some r → Queue.groupFor config r.message.group = r.message.group)
    (hacc : ∀ id r, records id = some r → MemoryQueue.Accepts m₀.kind r.message.group)
    (hP : MemoryQueue.Closed P) (h₀ : P m₀) :
    Returns (Queue.restoreMessages cfg deadlines msgs (q₀, store₀)) fun s => ∃ m, m.kind = m₀.kind ∧ P m ∧
      Refines name ⟨config, records, m⟩ s.1 s.2 ∧ StoreFrame name store₀ s.2 := by
  have hin : ∀ msg ∈ msgs, ∃ status, records msg.id = some ⟨msg, status⟩ := by
    intro msg hm
    obtain ⟨⟨_, status⟩, hr, rfl⟩ := Option.map_eq_some_iff.mp ((hmsgs.mem msg).mp hm)
    exact ⟨status, hr⟩
  have hall : soFar records msgs = records := by
    funext id
    unfold soFar
    cases hr : records id with
    | none => exact ite_self _
    | some r =>
      have hl : (records id).map (·.message) = some r.message := by rw [hr]; rfl
      exact if_pos (List.mem_map.mpr ⟨r.message, hmsgs.of_look hl, hmsgs.key_eq id _ hl⟩)
  have hnone : soFar records [] = fun _ => none := funext fun id => if_neg List.not_mem_nil
  unfold Queue.restoreMessages
  refine (Returns.foldlM (I := fun (done : List Message) (s : Queue × Store) => ∃ m, m.kind = m₀.kind ∧ P m ∧
    Refines name ⟨config, soFar records done, m⟩ s.1 s.2 ∧ StoreFrame name store₀ s.2)
      ⟨m₀, rfl, h₀, hnone ▸ h, .refl _ _⟩ ?_).mono
    fun s hs => by rw [hall] at hs; exact hs
  rintro done msg rest ⟨q, store⟩ hl ⟨m, hkind, hm, href, hframe⟩
  obtain ⟨status, hr⟩ := hin msg (by rw [hl]; simp)
  have hnew : soFar records done msg.id = none := by
    have hnd := hmsgs.nodup
    rw [Multiset.map_coe, Multiset.coe_nodup, hl, List.map_append, List.nodup_append] at hnd
    exact if_neg fun hin => hnd.2.2 msg.id hin msg.id (by simp) rfl
  refine (href.putBack hnew (hgroup _ _ hr) (by rw [hkind]; exact hacc _ _ hr) (deadlines.lookup msg.id)).bind ?_
  rintro r ⟨m', hcall, hkind', href', hframe'⟩
  refine .intro ⟨m', hkind'.trans hkind, ?_, ?_, hframe.trans hframe'⟩
  · rcases hcall with hcall | hcall
    · exact hP.enqueue href.inv hm rfl hcall
    · exact hP.markUnacked href.inv hm hcall
  · rw [hmark _ _ hr] at href'
    rw [soFar_snoc hr]
    exact href'

theorem restoreState (h : Refines name b q store) (roundRobin : Option (List SchedulingNode)) :
    Refines name { b with memory := b.memory.rearranged roundRobin } (q.restoreState roundRobin) store := by
  obtain ⟨config, records, memory⟩ := b
  cases roundRobin with
  | none => cases memory <;> exact h
  | some nodes =>
    unfold Queue.restoreState Queue.restoreRoundRobinState
    cases memory with
    | delayed queue => simp only [h.queue_eq]; exact h
    | fairWeighted queue => simp only [h.queue_eq]; exact h
    | fairRoundRobin queue =>
      obtain ⟨hinv, hready, hun⟩ := FairRoundRobinQueue.Inv.restoreSchedulingState nodes h.inv
      simp only [h.queue_eq]
      exact { h with
        queue_eq := rfl
        inv := hinv
        ready := by
          show Listed Item.id (queue.restoreSchedulingState nodes).ready _
          rw [hready]; exact h.ready
        counts := fun ht g => (MemoryQueue.unacked_of_eq hun.unacked g).trans (h.counts ht g) }

/-! ### What a broker keeps -/

theorem release_closed {P : MemoryQueue → Prop} (hP : MemoryQueue.Closed P) {m m' : MemoryQueue} {group : String}
    (hinv : m.Inv) (hm : P m)
    (hr : b.release m group = some m') : P m' := by
  unfold Broker.release at hr
  split at hr
  · exact hP.updateWeights hinv hm hr
  · cases hr; exact hm

theorem fail_closed {P : MemoryQueue → Prop} (hP : MemoryQueue.Closed P) (h : Refines name b q store)
    (hm : P b.memory) {id : UInt64}
    {priority : Int} {metadata : Option Metadata} {r : Broker.Outcome Unit}
    (hr : b.fail id priority metadata = some r) : P r.2.memory := by
  unfold Broker.fail at hr
  match hrec : b.records id with
  | none => rw [hrec] at hr; cases hr; exact hm
  | some ⟨msg, .ready⟩ => rw [hrec] at hr; cases hr; exact hm
  | some ⟨msg, .inFlight d⟩ =>
    rw [hrec] at hr
    dsimp only at hr
    split at hr
    · obtain ⟨m, hrel, hr⟩ := Option.bind_eq_some_iff.mp hr
      cases hr
      exact release_closed hP h.inv hm hrel
    · have hi : ∀ p, (⟨msg.id, p, msg.group⟩ : Item).group = msg.group := fun _ => rfl
      have hid : msg.id = id := h.keyed id _ hrec
      obtain ⟨m₁, henq, hr⟩ := Option.bind_eq_some_iff.mp hr
      obtain ⟨m, hrel, hr⟩ := Option.bind_eq_some_iff.mp hr
      cases hr
      have hnot : ∀ it ∈ b.memory.ready, it.id ≠ msg.id := h.not_ready (by rw [hid, hrec]; rfl)
      obtain ⟨_, henq', hres⟩ := h.inv.enqueue (h.accepts id _ hrec) (hi _) hnot
      have henq : b.memory.enqueue msg.group ⟨msg.id, _, msg.group⟩ = some m₁ := henq
      rw [henq] at henq'; cases henq'
      exact release_closed hP hres.inv (hP.enqueue h.inv hm rfl henq) hrel

theorem handle_closed {P : MemoryQueue → Prop} (hP : MemoryQueue.Closed P) (h : Refines name b q store) (hm : P b.memory)
    {entry : Entry} {response : FSMResponse} {b' : Broker} (hh : b.handle entry = some (response, b')) : P b'.memory := by
  unfold Broker.handle at hh
  cases hc : entry.command <;> rw [hc] at hh <;> dsimp only at hh
  case enqueue n id group priority content metadata =>
    obtain ⟨r, hx, _⟩ := Broker.answer_eq hh
    obtain ⟨m, henq, hx⟩ := Option.bind_eq_some_iff.mp hx
    cases hx
    exact hP.enqueue h.inv hm rfl henq
  case dequeue n ack =>
    obtain ⟨r, hx, _⟩ := Broker.answer_eq hh
    unfold Broker.dequeue at hx
    split at hx
    · cases hx; exact hm
    · obtain ⟨⟨item, m⟩, hdeq, hx⟩ := Option.bind_eq_some_iff.mp hx
      have hm' := hP.dequeue h.inv hm hdeq
      cases item with
      | none => cases hx; exact hm'
      | some it =>
        obtain ⟨record, _, hx⟩ := Option.bind_eq_some_iff.mp hx
        cases hx; exact hm'
  case get n id =>
    obtain ⟨r, hx, _⟩ := Broker.answer_eq hh
    unfold Broker.get at hx
    split at hx <;> cases hx <;> exact hm
  case delete n id =>
    obtain ⟨r, hx, _⟩ := Broker.answer_eq hh
    unfold Broker.delete at hx
    split at hx
    · cases hx; exact hm
    · obtain ⟨⟨it, m⟩, hdel, hx⟩ := Option.bind_eq_some_iff.mp hx
      cases hx; exact hP.delete h.inv hm hdel
    · obtain ⟨m, hrel, hx⟩ := Option.bind_eq_some_iff.mp hx
      cases hx; exact release_closed hP h.inv hm hrel
  case ack n id =>
    obtain ⟨r, hx, _⟩ := Broker.answer_eq hh
    unfold Broker.ack at hx
    split at hx
    · obtain ⟨m, hrel, hx⟩ := Option.bind_eq_some_iff.mp hx
      cases hx; exact release_closed hP h.inv hm hrel
    · cases hx; exact hm
  case nack n id priority metadata =>
    obtain ⟨r, hx, _⟩ := Broker.answer_eq hh
    exact fail_closed hP h hm hx
  case touch n id =>
    obtain ⟨r, hx, _⟩ := Broker.answer_eq hh
    unfold Broker.touch at hx
    split at hx <;> cases hx <;> exact hm
  case ackTimeout n id =>
    obtain ⟨r, hx, _⟩ := Broker.answer_eq hh
    exact fail_closed hP h hm hx
  case updatePriority n id priority =>
    obtain ⟨r, hx, _⟩ := Broker.answer_eq hh
    unfold Broker.updatePriority at hx
    split at hx
    · cases hx; exact hm
    · obtain ⟨m, hup, hx⟩ := Option.bind_eq_some_iff.mp hx
      cases hx; exact hP.updatePriority h.inv hm hup
  all_goals cases hh

end Refines

theorem Queue.newSettings_ok {cfg : Config} {queueType : String} {settings settings' : QueueSettings}
    (h : Queue.newSettings cfg queueType settings = .ok settings') :
    Queue.checkType queueType settings = .ok () ∧ ∃ t, settings' = { settings with ackTimeout := t } := by
  unfold Queue.newSettings at h
  split at h <;> cases h
  rename_i ht _
  exact ⟨ht, _, rfl⟩

/-- A broker whose queue can be made again from its configuration and its messages: the
    settings are ones that commands leave, the memory queue is of the kind they ask for, and
    every message is in a group of the queue. -/
structure Broker.Settled (cfg : Config) (b : Broker) : Prop where
  formed : Queue.Formed cfg b.config
  known : Queue.KnownType b.config.type
  kind : ∀ m, Queue.memoryQueue b.config.type b.config.settings = some m → m.kind = b.memory.kind
  groups : ∀ id r, b.records id = some r → Queue.groupFor b.config r.message.group = r.message.group

namespace FSM

variable {f g g' : FSM} {name : String} {ob ob' : Option Broker} {cfg : Config} {e : Event FSM Entry Reply}

/-- The groups of the records after a command on messages. -/
theorem grouped_did {b b' : Broker} {entry : Entry} {response : FSMResponse} (hd : b.Did entry response b')
    (h : ∀ id r, b.records id = some r → Queue.groupFor b.config r.message.group = r.message.group) (id : UInt64) (r : Record)
    (hr : b'.records id = some r) : Queue.groupFor b.config r.message.group = r.message.group := by
  cases hd.origin hr with
  | kept hb => exact h id r hb
  | enqueued _ _ _ _ _ hx _ => rw [hx]; exact groupFor_groupFor _ _
  | delivered _ msg _ hb hx _ _ => rw [hx]; exact (h id _ hb :)
  | requeued msg _ _ _ _ _ hb hx _ => rw [hx]; exact (h id _ hb :)
  | changed r₀ hb hgroup _ _ => rw [hgroup]; exact h id r₀ hb

/-- An update keeps the strategy. -/
theorem changedSettings_strategy {config : QueueConfig} {settings settings' : QueueSettings}
    (h : Queue.changedSettings cfg config settings = .ok settings') : settings'.strategy = config.settings.strategy := by
  unfold Queue.changedSettings at h
  split at h
  · cases h
  · rename_i hs
    split at h <;> cases h
    exact (not_not.mp hs).symm

/-- The kind of the memory queue depends on the strategy alone. -/
theorem memoryQueue_kind {queueType : String} {settings settings' : QueueSettings} {m m' : MemoryQueue}
    (hs : settings'.strategy = settings.strategy) (hm : Queue.memoryQueue queueType settings = some m)
    (hm' : Queue.memoryQueue queueType settings' = some m') : m'.kind = m.kind := by
  unfold Queue.memoryQueue at hm hm'
  rw [hs] at hm'
  split at hm
  · rename_i hfair
    rw [if_pos hfair] at hm'
    split at hm
    · rename_i hw; rw [hw] at hm'; cases hm; cases hm'; rfl
    · rename_i hw
      split at hm'
      · exact absurd ‹_› hw
      · cases hm; cases hm'; rfl
  · rename_i hfair
    rw [if_neg hfair] at hm'
    split at hm
    · rw [if_pos ‹_›] at hm'; cases hm; cases hm'; rfl
    · cases hm

end FSM

namespace Broker.Settled

variable {name : String} {b b' : Broker} {q : Queue} {store : Store} {cfg : Config} {entry : Entry} {response : FSMResponse}
  {settings settings' : QueueSettings}

theorem handled (h : b.Settled cfg) (href : Refines name b q store) (hh : b.handle entry = some (response, b')) :
    b'.Settled cfg := by
  obtain ⟨hconf, hd⟩ := href.did hh
  obtain ⟨hformed, hknown, hkind, hgroups⟩ := h
  rw [← hconf] at hformed hknown
  refine ⟨hformed, hknown, fun m hm => ?_, fun id r hrec => ?_⟩
  · rw [hconf] at hm
    exact (hkind m hm).trans (href.handle_closed (MemoryQueue.kind_closed b.memory.kind) rfl hh).symm
  · rw [hconf]
    exact FSM.grouped_did hd hgroups id r hrec

theorem created {queueType : String} {m : MemoryQueue} (ha : Queue.newSettings cfg queueType settings = .ok settings')
    (hm : Queue.memoryQueue queueType settings' = some m) : Settled cfg ⟨⟨name, queueType, settings'⟩, fun _ => none, m⟩ := by
  refine ⟨Queue.formed_created ha, ?_, fun m' hm' => ?_, nofun⟩
  · by_contra hk
    rw [Queue.memoryQueue_unknown hk] at hm; cases hm
  · rw [hm] at hm'; cases hm'; rfl

theorem updated (h : b.Settled cfg) (ha : Queue.changedSettings cfg b.config settings = .ok settings') :
    (b.update settings').Settled cfg := by
  obtain ⟨hformed, hknown, hkind, hgroups⟩ := h
  refine ⟨Queue.formed_updated hformed ha, hknown, fun m hm => ?_, hgroups⟩
  obtain ⟨m₀, hm₀, _⟩ := Queue.memoryQueue_known hknown b.config.settings
  rw [show m.kind = m₀.kind from FSM.memoryQueue_kind (FSM.changedSettings_strategy ha) hm₀ hm, hkind m₀ hm₀]
  show _ = (b.memory.updateMaxUnacked _).kind
  cases b.memory <;> rfl

end Broker.Settled

namespace FSM

variable {f g g' : FSM} {name : String} {ob ob' : Option Broker} {cfg : Config} {e : Event FSM Entry Reply}

theorem Settled.step (h : ∀ b, ob = some b → b.Settled cfg) (ht : Tracks name ob e.before) (hm : Moved name e ob ob')
    (hcfg : e.before.queueManager.config = cfg) : ∀ b, ob' = some b → b.Settled cfg := by
  cases hm with
  | aside _ _ => exact h
  | handled b b' response he hh hconf hd hr =>
    intro _ hb; cases hb
    obtain ⟨q, _, _, href⟩ := ht.present b rfl
    exact (h b rfl).handled href hh
  | created queueType settings settings' m he ha hm =>
    intro _ hb; cases hb
    exact .created (hcfg ▸ ha) hm
  | updated b settings settings' he ha =>
    intro _ hb; cases hb
    exact (h b rfl).updated (hcfg ▸ ha)
  | deleted _ _ => exact nofun

/-! ### The block -/

theorem lookup_markers (unacked : List (UInt64 × Int)) : ∀ m : FinMap UInt64 Int, (unacked.map Prod.fst).Nodup → ∀ id d,
    (unacked.foldl (fun m u => m.insert u.1 u.2) m).lookup id = some d ↔
      (id, d) ∈ unacked ∨ (id ∉ unacked.map Prod.fst ∧ m.lookup id = some d) := by
  induction unacked with
  | nil => intro m _ id d; simp
  | cons u unacked ih =>
    intro m hnd id d
    rw [List.map_cons, List.nodup_cons] at hnd
    rw [List.foldl_cons, ih _ hnd.2, FinMap.lookup_insert_eq]
    by_cases e : id = u.1
    · have hu : ∀ d, (id, d) ∉ unacked := fun d hd => hnd.1 (e ▸ List.mem_map_of_mem (f := Prod.fst) hd)
      have hid : id ∉ unacked.map Prod.fst := fun hin => hnd.1 (e ▸ hin)
      obtain ⟨i, d'⟩ := u
      obtain rfl : id = i := e
      simp [hu, hid, eq_comm]
    · have hne : (id, d) ≠ u := fun h => e (by rw [← h])
      simp [e, hne]

theorem lookup_deadlines {unacked : List (UInt64 × Int)} (h : (unacked.map Prod.fst).Nodup) (id : UInt64) (d : Int) :
    (deadlines unacked).lookup id = some d ↔ (id, d) ∈ unacked := by
  unfold deadlines
  rw [lookup_markers unacked ∅ h]
  simp

theorem unackedSnapshot_perm (q : Queue) : q.unackedSnapshot.Perm (q.ackQueue.items.map fun item => (item.id, item.priority)) :=
  List.mergeSort_perm _ _

/-- The markers of a queue say which records are in flight, and until when. -/
theorem marker_status {b : Broker} {q : Queue} {store : Store} (h : Refines name b q store) (id : UInt64) (r : Record)
    (hr : b.records id = some r) : .ofMarker ((deadlines q.unackedSnapshot).lookup id) = r.status := by
  have hperm := unackedSnapshot_perm q
  have hnd : (q.unackedSnapshot.map Prod.fst).Nodup := by
    rw [(hperm.map Prod.fst).nodup_iff, List.map_map]
    have := h.ack.nodup
    rwa [show q.ackQueue.held = (q.ackQueue.items : Multiset Item) from rfl, Multiset.map_coe, Multiset.coe_nodup] at this
  have hmem : ∀ d, (deadlines q.unackedSnapshot).lookup id = some d ↔ ∃ it ∈ q.ackQueue.held, it.id = id ∧ it.priority = d := by
    intro d
    rw [lookup_deadlines hnd, hperm.mem_iff, List.mem_map]
    simp only [Prod.mk.injEq]
    rfl
  obtain ⟨msg, status⟩ := r
  cases status with
  | ready =>
    have hnone : (deadlines q.unackedSnapshot).lookup id = none := by
      refine Option.eq_none_iff_forall_ne_some.mpr fun d hd => ?_
      obtain ⟨it, hit, hid, _⟩ := (hmem d).mp hd
      exact h.ack.notMem (k := id) (by rw [hr]; rfl) it hit hid
    rw [hnone]; rfl
  | inFlight d =>
    have hl : (b.records id).bind Record.ackItem = some ⟨msg.id, d, msg.group⟩ := by rw [hr]; rfl
    rw [(hmem d).mpr ⟨_, h.ack.of_look hl, h.ack.key_eq id _ hl, rfl⟩]; rfl

/-- The block of a broker whose settings pass makes the same broker again. -/
theorem restored_block {b : Broker} {q : Queue} {store : Store} {state : SnapshotState} {st : Restoring} {P : MemoryQueue → Prop}
    (h : Refines name b q store) (hb : b.Settled cfg) (hstate : state.unacked = q.unackedSnapshot) (ha : store.Apart name)
    (hclean : Clean name st.fsm) (hacc : Accepted st.fsm.queueManager.config b.config) (hP : MemoryQueue.Closed P)
    (h₀ : ∀ m, Queue.memoryQueue b.config.type b.config.settings = some m → P m) :
    Returns ((block b.config state (store.scan name)).foldlM restoreItem st) fun st' => ∃ q' store' m, P m ∧
      st'.fsm = st.fsm.putQueue name (q'.restoreState state.roundRobin) store' ∧
      (∀ n, store'.queues.lookup n = if n = name then some b.config else st.fsm.queueManager.store.queues.lookup n) ∧
      (∀ n id, n ≠ name → store'.messages.lookup (n, id) = st.fsm.queueManager.store.messages.lookup (n, id)) ∧
      Refines name ⟨b.config, b.records, m⟩ q' store' := by
  obtain rfl := h.name_eq
  obtain ⟨m₀, hm₀, _⟩ := Queue.memoryQueue_known hb.known b.config.settings
  have hstart : Refines b.config.name ⟨b.config, fun _ => none, m₀⟩ (st.fsm.started b.config).1 (st.fsm.started b.config).2 :=
    .created hm₀ hclean.stored
  have hmsgs : Listed Message.id (store.scan b.config.name : Multiset Message) fun id => (b.records id).map (·.message) :=
    (Store.scan_listed h.live.keyed ha).congr fun id => (h.stored id).symm
  rw [restore_block st _ hclean.queue hacc]
  refine Returns.map (hstart.restoreMessages hmsgs (fun id r hr => ?_) hb.groups (fun id r hr => ?_) hP (h₀ m₀ hm₀)) ?_
  · rw [hstate]; exact marker_status h id r hr
  · rw [hb.kind m₀ hm₀]; exact h.accepts id r hr
  · rintro ⟨q', store'⟩ ⟨m, _, hm, href, hframe⟩
    refine ⟨q', store', m, hm, rfl, fun n => ?_, fun n id hn => hframe.messages n id hn, href⟩
    rw [hframe.queues]
    exact FinMap.lookup_insert_eq ..

/-! ## The whole snapshot -/

/-- A block starts a queue of its own, whatever was current before. -/
theorem block_anew (st : Restoring) (config : QueueConfig) (state : SnapshotState) (msgs : List Message) :
    (block config state msgs).foldlM restoreItem st = (block config state msgs).foldlM restoreItem { st with q := none } := rfl

/-- The blocks of other queues. -/
theorem Resumable.blocks {names : List String} {blocks : String → List SnapshotItem} {st st' : Restoring} (h : Resumable st)
    (hblocks : ∀ n ∈ names, BlockOf f n (blocks n)) (hn : name ∉ names)
    (hr : (names.map blocks).flatten.foldlM restoreItem st = some st') :
    Resumable st' ∧ Untouched name st.fsm st'.fsm ∧ st'.fsm.queueManager.config = st.fsm.queueManager.config := by
  cases names with
  | nil => cases hr; exact ⟨h, untouched_refl name _, rfl⟩
  | cons n names =>
    obtain ⟨_, q, config, state, _, _, _, _, hitems⟩ := hblocks n List.mem_cons_self
    have hother : ∀ c : QueueConfig, .queue c ∈ ((n :: names).map blocks).flatten → c.name ≠ name :=
      fun c hc e => hn (e ▸ (queue_mem_blocks hblocks hc).1)
    have hanew : Resumable { st with q := none } := ⟨h.safe, nofun⟩
    rw [List.map_cons, List.flatten_cons, List.foldlM_append, hitems, block_anew, ← hitems, ← List.foldlM_append,
      ← List.flatten_cons,
      ← List.map_cons] at hr
    have hcarried := hanew.items hr
    exact ⟨hcarried.resumable, (hcarried.spares name nofun hother).1, hcarried.config_eq⟩

theorem captured_unacked {q : Queue} {state : SnapshotState} (h : q.captureSnapshotState = some state) :
    state.unacked = q.unackedSnapshot := by
  unfold Queue.captureSnapshotState at h
  split at h
  · obtain ⟨nodes, _, h⟩ := Option.bind_eq_some_iff.mp h
    cases h; rfl
  · cases h; rfl

/-- What a restore makes of a queue's broker. -/
inductive Resumed : Option Broker → Option Broker → Prop
  | absent : Resumed none none
  /-- The settings were refused, which a queue without messages survives by not being there. -/
  | skipped (b : Broker) (h : ∀ id, b.records id = none) : Resumed (some b) none
  | again (b : Broker) (m : MemoryQueue) (hkind : m.kind = b.memory.kind) : Resumed (some b) (some { b with memory := m })

theorem Resumed.settled (h : Resumed ob ob') (hb : ∀ b, ob = some b → b.Settled cfg) : ∀ b, ob' = some b → b.Settled cfg := by
  cases h with
  | absent => exact nofun
  | skipped b _ => exact nofun
  | again b m hkind =>
    intro _ hb'; cases hb'
    obtain ⟨hformed, hknown, hkind', hgroups⟩ := hb b rfl
    exact ⟨hformed, hknown, fun m' hm' => (hkind' m' hm').trans hkind.symm, hgroups⟩

/-- A queue that has no broker gets none. -/
theorem Tracks.restored_none {names : List String} {blocks : String → List SnapshotItem} (ht : Tracks name none f) (hg : Safe g)
    (hblocks : ∀ n ∈ names, BlockOf f n (blocks n)) (hr : g.restore (f.leaderItem :: (names.map blocks).flatten) = some g') :
    Tracks name none g' := by
  refine ⟨hg.restore hr, fun _ q' hq' => ?_, nofun⟩
  rw [hg.restore_eq] at hr
  obtain ⟨st, hst, rfl⟩ := Option.map_eq_some_iff.mp hr
  have hcarried := (emptied_resumable g).items hst
  obtain ⟨c, hc, hserved⟩ := hcarried.resumable.safe.queue name q' hq'
  rcases hserved with ⟨hk, _⟩ | ⟨_, hi⟩
  · -- its type is that of a queue without a memory queue
    rcases hcarried.configs name c hc with hc | ⟨config, hb, rfl, htype⟩
    · cases hc
    · obtain ⟨_, hstored⟩ := queue_mem_blocks hblocks ((List.mem_cons.mp hb).resolve_left nofun)
      obtain ⟨q, hq, hserved⟩ := ht.safe.served hstored
      rcases hserved with ⟨_, m, hl⟩ | ⟨hk', _⟩
      · have hnone := ht.absent rfl q hq
        rw [hl.queue_eq] at hnone; cases hnone
      · rw [htype] at hk; exact absurd hk hk'
  · exact hi.queue_eq

theorem Tracks.restored_some {names : List String} {blocks : String → List SnapshotItem} {b : Broker}
    (ht : Tracks name (some b) f)
    (hb : b.Settled cfg) (hg : Safe g) (hcfg : g.queueManager.config = cfg) (hnames : names.Perm f.queueManager.queues.keys)
    (ha : f.queueManager.store.Apart name) (hblocks : ∀ n ∈ names, BlockOf f n (blocks n))
    (hr : g.restore (f.leaderItem :: (names.map blocks).flatten) = some g') :
    ∃ ob', Resumed (some b) ob' ∧ Tracks name ob' g' := by
  have hsafe := hg.restore hr
  obtain ⟨q, hq, hc, href⟩ := ht.present b rfl
  obtain ⟨pre, post, rfl⟩ := List.append_of_mem ((mem_keys_iff hnames).mpr ⟨q, hq⟩)
  have hnd := hnames.nodup_iff.mpr f.queueManager.queues.keys_nodup
  rw [List.nodup_append, List.nodup_cons] at hnd
  obtain ⟨_, q', config, state, hq', hc', _, hstate, hitems⟩ := hblocks name (by simp)
  rw [hq] at hq'; cases hq'
  rw [hc] at hc'; cases hc'
  -- the blocks before, the queue's own and the blocks after
  rw [hg.restore_eq, List.map_append, List.map_cons, List.flatten_append, List.flatten_cons, List.foldlM_cons] at hr
  obtain ⟨st, hst, rfl⟩ := Option.map_eq_some_iff.mp hr
  obtain ⟨st₀, h₀, hst⟩ := Option.bind_eq_some_iff.mp hst
  rw [List.foldlM_append] at hst
  obtain ⟨st₁, h₁, hst⟩ := Option.bind_eq_some_iff.mp hst
  rw [List.foldlM_append] at hst
  obtain ⟨st₂, h₂, h₃⟩ := Option.bind_eq_some_iff.mp hst
  have hfirst := (emptied_resumable g).item h₀
  obtain ⟨hres₁, hu₁, hcfg₁⟩ := hfirst.resumable.blocks (fun n hn => hblocks n (by simp [hn]))
    (fun hin : name ∈ _ => hnd.2.2 name hin name List.mem_cons_self rfl) h₁
  have hclean₀ : Clean name st₀.fsm := by cases h₀; exact ⟨rfl, rfl, fun _ => rfl⟩
  have hclean := hclean₀.untouched hu₁
  have hcfg₁ : st₁.fsm.queueManager.config = cfg := hcfg₁.trans (hfirst.config_eq.trans hcfg)
  have hres₂ := (hres₁.items h₂).resumable
  obtain ⟨_, hu₃, _⟩ := hres₂.blocks (fun n hn => hblocks n (by simp [hn])) hnd.2.1.1 h₃
  rw [hitems] at h₂
  by_cases hrest : Queue.Restorable b.config
  · obtain ⟨_, h₂', q₁, store', m, hkind, hf, hconf, _, href'⟩ := restored_block href hb (captured_unacked hstate) ha hclean
      (hcfg₁ ▸ hrest.accepted hb.formed) (MemoryQueue.kind_closed b.memory.kind) hb.kind
    rw [h₂] at h₂'; cases h₂'
    rw [hf] at hu₃
    refine ⟨_, .again b (m.rearranged state.roundRobin) ((m.rearranged_kind _).trans hkind), hsafe, nofun, fun _ hb' => ?_⟩
    cases hb'
    refine ⟨_, hu₃.memory.trans lookup_putQueue, hu₃.config.trans ?_, ?_⟩
    · exact (hconf name).trans (if_pos rfl)
    · exact { href'.restoreState state.roundRobin with stored := fun id => (hu₃.stored id).trans (href'.stored id) }
  · obtain ⟨e, he⟩ := Queue.refused_of_not_restorable hrest hb.formed
    rw [restore_block_refused st₁ _ (by rw [href.name_eq]; exact hclean.queue) (hcfg₁ ▸ he)] at h₂
    split at h₂
    · rename_i hempty
      cases h₂
      refine ⟨none, .skipped b fun id => ?_, hsafe, fun _ q' hq' => ?_, nofun⟩
      · have hlisted := Store.scan_listed href.live.keyed ha
        have hnone : f.queueManager.store.messages.lookup (name, id) = none :=
          Option.eq_none_iff_forall_ne_some.mpr fun msg hm => by
            have := hlisted.of_look hm
            rw [hempty] at this
            exact Multiset.notMem_zero _ this
        rw [href.stored] at hnone
        exact Option.map_eq_none_iff.mp hnone
      · have hq' : st.fsm.queueManager.queues.lookup name = some q' := hq'
        rw [hu₃.memory] at hq'
        have hq' : st₁.fsm.queueManager.queues.lookup name = some q' := hq'
        rw [hclean.queue] at hq'; cases hq'
    · cases h₂

theorem Tracks.restored {names : List String} {items : List SnapshotItem} (ht : Tracks name ob f)
    (hb : ∀ b, ob = some b → b.Settled cfg)
    (hg : Safe g) (hcfg : g.queueManager.config = cfg) (hnames : names.Perm f.queueManager.queues.keys)
    (ha : f.queueManager.store.Apart name) (hp : f.persist names = some items) (hr : g.restore items = some g') :
    ∃ ob', Resumed ob ob' ∧ Tracks name ob' g' := by
  obtain ⟨blocks, hblocks⟩ := ht.safe.blocks hnames
  rw [persist_eq fun n hn => (hblocks n hn).persisted, Option.some.injEq] at hp
  subst hp
  cases ob with
  | none => exact ⟨none, .absent, ht.restored_none hg hblocks hr⟩
  | some b => exact ht.restored_some (hb b rfl) hg hcfg hnames ha hblocks hr

end FSM

end Doq
