/-
  Doq.Raft.Equivalence — a restored state cannot be told from the one that was saved (see
  `Doq.Raft.Twins`, `Doq.Raft.Restore`).

  A restore enqueues the ready messages of a queue in the order of their ids, counts the ones
  in flight, and lays the scheduling state over the result. The trees, heaps and weights come
  out differently from those of the saved state. They hold and count the same, and that is
  all an entry can find out.

  Proved: the restored state gives every further entry the reply the saved one gives, and the
  two then store the same messages, have the same ones in flight until the same deadlines, and
  answer `PeekReady` alike:
  - `round_robin_restored`, for round-robin queues, also with updates of their settings.
  - `delayed_weighted_restored`, for delayed and weighted queues without updates.
-/

import Doq.Raft.Twins

namespace Doq

open Lib Memory Storage

namespace Memory.MemoryQueue

variable {m : MemoryQueue}

theorem Inv.rearranged_max (h : m.Inv) (roundRobin : Option (List SchedulingNode)) :
    (m.rearranged roundRobin).maxUnacked = m.maxUnacked := by
  cases m with
  | fairRoundRobin q =>
    cases roundRobin with
    | none => rfl
    | some nodes => exact (FairRoundRobinQueue.Inv.restoreSchedulingState nodes h).2.2.max
  | delayed q => rfl
  | fairWeighted q => rfl

theorem Synced.rearranged (h : m.Synced) (roundRobin : Option (List SchedulingNode)) : (m.rearranged roundRobin).Synced := by
  cases m with
  | fairRoundRobin q => cases roundRobin <;> trivial
  | delayed q => exact h
  | fairWeighted q => exact h

end Memory.MemoryQueue

/-! ## One queue -/

namespace Refines

variable {name : String} {cfg : Config} {K : MemoryQueue.Kind → Prop} {b : Broker} {q q' : Queue}
    {store store' : Store} {m : MemoryQueue}
  {state : SnapshotState}

/-- The memory queue of a lasting broker, made again from its records. -/
theorem renewed (h : Refines name b q store) (hb : b.Lasting cfg K) (hs : b.memory.Synced)
    (hstate : q.captureSnapshotState = some state)
    (h' : Refines name ⟨b.config, b.records, m⟩ q' store') (hkind : m.kind = b.memory.kind)
    (hmax : m.maxUnacked = b.memory.maxUnacked)
    (hs' : m.Synced) : b.memory.Alike (m.rearranged state.roundRobin) := by
  have hr := h'.restoreState state.roundRobin
  have hready : (m.rearranged state.roundRobin).ready = b.memory.ready := hr.ready.unique h.ready
  have hack : (q'.restoreState state.roundRobin).ackQueue.held = q.ackQueue.held := hr.ack.unique h.ack
  have hkind' : (m.rearranged state.roundRobin).kind = b.memory.kind := (m.rearranged_kind _).trans hkind
  refine ⟨h.inv, hr.inv, hkind', hready, fun g => ?_, (h'.inv.rearranged_max _).trans hmax, hs, hs'.rearranged _, ?_⟩
  · by_cases ht : b.config.type = "fair"
    · rw [h.counts ht, ← hack]
      exact hr.counts ht g
    · -- nothing is counted in a delayed queue
      have hdelayed : b.memory.kind = .delayed := by
        obtain ⟨m₀, hm₀, _⟩ := Queue.memoryQueue_known hb.known b.config.settings
        rw [← hb.kind m₀ hm₀, Queue.memoryQueue_kindOf hb.type hm₀]
        exact if_neg ht
      have zero : ∀ {x : MemoryQueue}, x.kind = .delayed → x.unacked g = 0 := fun {x} hx => by cases x <;> first | rfl | cases hx
      rw [zero hdelayed, zero (hkind'.trans hdelayed)]
  · by_cases hrr : b.memory.kind = .fairRoundRobin
    · obtain ⟨q₁, hq₁⟩ := MemoryQueue.eq_of_kind hrr
      obtain ⟨q₂, rfl⟩ := MemoryQueue.eq_of_kind (hkind.trans hrr)
      have hqueue := h.queue_eq
      rw [hq₁] at hqueue
      simp only [Queue.captureSnapshotState, hqueue] at hstate
      obtain ⟨nodes, hnodes, hstate⟩ := Option.bind_eq_some_iff.mp hstate
      cases hstate
      have hinv : FairRoundRobinQueue.Inv True q₁ := by have := h.inv; rwa [hq₁] at this
      have hr₁ : q₂.ready = q₁.ready := by
        have := h'.ready.unique h.ready
        rwa [hq₁] at this
      rw [hq₁]
      refine hinv.loosen.restored_paced (FairRoundRobinQueue.Inv.loosen h'.inv) hr₁ (fun it hit => ?_) hnodes
      have hmem : it ∈ b.memory.ready := by rw [hq₁]; exact hit
      obtain ⟨msg, hrec, _, hgroup, _⟩ := h.record_of_ready hmem
      unfold FairRoundRobinQueue.pathOf
      rw [hgroup]
      exact hb.components hrr it.id _ hrec
    · cases hm : b.memory with
      | fairRoundRobin q => rw [hm] at hrr; exact absurd rfl hrr
      | delayed q => trivial
      | fairWeighted q => trivial

end Refines

/-! ## The whole state -/

namespace FSM

variable {cfg : Config} {K : MemoryQueue.Kind → Prop} {f f' g g' : FSM} {name : String} {names : List String}

/-- The queue `name` of `f`, made again in `g`. -/
def RenewedIn (cfg : Config) (K : MemoryQueue.Kind → Prop) (f : FSM) (name : String) (g : FSM) : Prop :=
  ∃ b b' q', Tracks name (some b) f ∧ b.Lasting cfg K ∧ ':' ∉ name.toList ∧ b.Alike b' ∧
    g.queueManager.queues.lookup name = some q' ∧
    g.queueManager.store.queues.lookup name = some b'.config ∧ Refines name b' q' g.queueManager.store

theorem RenewedIn.untouched (h : RenewedIn cfg K f name g) (hu : Untouched name g g') : RenewedIn cfg K f name g' := by
  obtain ⟨b, b', q', ht, hb, hn, halike, hq, hc, href⟩ := h
  exact ⟨b, b', q', ht, hb, hn, halike, hu.memory.trans hq, hu.config.trans hc,
    { href with stored := fun id => (hu.stored id).trans (href.stored id) }⟩

theorem Twins.apart (h : Twins cfg K f g) (hn : ':' ∉ name.toList) : f.queueManager.store.Apart name :=
  fun _ hk hs => (scanned_iff hn (h.named hk)).mp hs

theorem Twins.rebuilds {items : List SnapshotItem} (h : Twins cfg K f f) (hblock : BlockOf f name items) :
    Rebuilds name items cfg (RenewedIn cfg K f name) := by
  obtain ⟨_, q, config, state, hq, hc, _, hstate, rfl⟩ := hblock
  cases h.queue name with
  | missing hf => rw [hf] at hq; cases hq
  | present b _ ht _ halike hb hn =>
    obtain ⟨q₁, hq₁, hc₁, href⟩ := ht.present b rfl
    rw [hq] at hq₁; cases hq₁
    rw [hc] at hc₁; cases hc₁
    intro st hclean hcfg
    have hP := ((MemoryQueue.kind_closed b.memory.kind).and
      (MemoryQueue.maxUnacked_closed b.memory.maxUnacked)).and MemoryQueue.synced_closed
    refine (restored_block href hb.toSettled (captured_unacked hstate) (h.apart hn) hclean
      (hcfg ▸ hb.restorable.accepted hb.formed) hP
      fun m hm => ⟨⟨hb.kind m hm, hb.limit m hm⟩, synced_new hm⟩).mono ?_
    rintro st' ⟨q', store', m, ⟨⟨hkind, hmax⟩, hsynced⟩, hfsm, hconf, hother, href'⟩
    rw [hfsm]
    refine ⟨⟨b, { b with memory := m.rearranged state.roundRobin }, _, ht, hb, hn,
      ⟨rfl, rfl, href.renewed hb halike.memory.synced hstate href' hkind hmax hsynced⟩, lookup_putQueue,
      (hconf name).trans (if_pos rfl), href'.restoreState state.roundRobin⟩, hcfg, rfl, fun n hne => ?_⟩
    exact putQueue_untouched hne ((hconf n).trans (if_neg hne)) fun id => hother n id hne

/-- A snapshot of a state, restored anywhere, leaves a twin of the state. -/
theorem Twins.restored (h : Twins cfg K f f) (hg : Safe g) (hcfg : g.queueManager.config = cfg)
    (hnames : names.Perm f.queueManager.queues.keys) :
    ∃ items g', f.persist names = some items ∧ g.restore items = some g' ∧ Twins cfg K f g' := by
  obtain ⟨blocks, hblocks⟩ := h.safe.blocks hnames
  obtain ⟨items, hitems, g', hg', hrenewed, hclean, hcfg', _⟩ :=
    restore_rebuilds (P := RenewedIn cfg K f) (fun _ _ _ h hu => h.untouched hu)
    (hnames.nodup_iff.mpr f.queueManager.queues.keys_nodup) (fun n hn => (hblocks n hn).persisted)
    (fun n hn => hcfg ▸ h.rebuilds (hblocks n hn)) hg
  have hsafe := hg.restore hg'
  refine ⟨items, g', hitems, hg', h.safe, hsafe, h.config, hcfg'.trans hcfg, fun name => ?_⟩
  by_cases hin : name ∈ names
  · obtain ⟨b, b', q', ht, hb, hn, halike, hq, hc, href⟩ := hrenewed name hin
    exact .present b b' ht ⟨hsafe, nofun, fun _ hb' => by cases hb'; exact ⟨q', hq, hc, href⟩⟩ halike hb hn
  · refine .missing (Option.eq_none_iff_forall_ne_some.mpr fun q hq => hin ((mem_keys_iff hnames).mpr ⟨q, hq⟩))
      (hclean name hin).queue

/-! ## What twins show -/

/-- The same messages stored, the same ones in flight until the same deadlines, and the same
    answer of `PeekReady`. -/
structure LooksLike (f g : FSM) : Prop where
  stored : ∀ name id, g.queueManager.store.messages.lookup (name, id) = f.queueManager.store.messages.lookup (name, id)
  unacked : ∀ name, (g.queueManager.queues.lookup name).map (fun q => q.ackQueue.held.map fun it => (it.id, it.priority)) =
    (f.queueManager.queues.lookup name).map fun q => q.ackQueue.held.map fun it => (it.id, it.priority)
  peek : ∀ name clock, (g.queueManager.queues.lookup name).map (·.peekReady clock) =
    (f.queueManager.queues.lookup name).map (·.peekReady clock)

theorem Twins.queues (h : Twins cfg K f g) (name : String) :
    (f.queueManager.queues.lookup name = none ∧ g.queueManager.queues.lookup name = none) ∨
      ∃ q q', f.queueManager.queues.lookup name = some q ∧ g.queueManager.queues.lookup name = some q' ∧
        q'.ackQueue.held = q.ackQueue.held ∧ ∀ clock, q'.peekReady clock = q.peekReady clock := by
  cases h.queue name with
  | missing hf hg => exact Or.inl ⟨hf, hg⟩
  | present b b' hf hg halike =>
    obtain ⟨q, hq, _, href⟩ := hf.present b rfl
    obtain ⟨q', hq', _, href'⟩ := hg.present b' rfl
    refine Or.inr ⟨q, q', hq, hq', href'.ack.unique (halike.records ▸ href.ack), fun clock => ?_⟩
    simp only [Queue.peekReady, href.queue_eq, href'.queue_eq, Option.bind_eq_bind, Option.bind_some, halike.memory.peekReady]

theorem Twins.looksLike (h : Twins cfg K f g) : LooksLike f g := by
  refine ⟨h.stored, fun name => ?_, fun name clock => ?_⟩
  · rcases h.queues name with ⟨hf, hg⟩ | ⟨q, q', hq, hq', hheld, _⟩
    · rw [hf, hg]
    · rw [hq, hq', Option.map_some, Option.map_some, hheld]
  · rcases h.queues name with ⟨hf, hg⟩ | ⟨q, q', hq, hq', _, hpeek⟩
    · rw [hf, hg]
    · rw [hq, hq', Option.map_some, Option.map_some, hpeek]

/-- Whatever entries of the form `f` answers, `g` answers with the same replies, and the two
    then look alike. -/
def AnswersLike (form : Event FSM Entry Reply → Prop) (f g : FSM) : Prop :=
  ∀ events f', Runs f events f' → (∀ e ∈ events, form e) → ∃ events' g', Runs g events' g' ∧
    events'.map Event.input = events.map Event.input ∧ events'.map Event.output = events.map Event.output ∧ LooksLike f' g'

theorem Twins.answersLike {form : Event FSM Entry Reply → Prop} (h : Twins cfg K f g) (h10 : 10 ≤ cfg.defaultAckTimeout)
    (hform : ∀ e, form e → Keeps K e.before e.input) : AnswersLike form f g := by
  intro events f' r hall
  obtain ⟨events', g', r', ht, hin, hout⟩ := r.simulate (R := Twins cfg K)
    (fun e g he hs ht => ht.step h10 (hform e (hall e he)) hs) h
  exact ⟨events', g', r', hin, hout, ht.looksLike⟩

/-- A run leaves a twin of itself: its queues all last. -/
theorem Runs.twins {leaderConfig : LeaderConfig} {events : List (Event FSM Entry Reply)}
    (r : Runs (new cfg leaderConfig) events f)
    (h10 : 10 ≤ cfg.defaultAckTimeout) (hform : ∀ e ∈ events, Keeps K e.before e.input) : Twins cfg K f f := by
  refine r.keeps (I := fun f => Twins cfg K f f) (fun e he hs h => ?_) (twins_new cfg K leaderConfig)
  obtain ⟨g', hs', ht⟩ := h.step h10 (hform e he) hs
  rw [hs] at hs'; cases hs'
  exact ht

/-- The states a node can be in: from the empty one, by entries and by restores of any items. -/
inductive Reached (cfg : Config) : FSM → Prop
  | new (leaderConfig : LeaderConfig) : Reached cfg (new cfg leaderConfig)
  | entry {f f' : FSM} {entry : Entry} {reply : Reply} (h : Reached cfg f)
    (hs : f.apply entry = some (reply, f')) : Reached cfg f'
  | restored {f f' : FSM} {items : List SnapshotItem} (h : Reached cfg f) (hr : f.restore items = some f') : Reached cfg f'

theorem Reached.safe (h : Reached cfg f) : Safe f ∧ f.queueManager.config = cfg := by
  induction h with
  | new leaderConfig => exact ⟨new_safe cfg leaderConfig, rfl⟩
  | entry _ hs ih => exact ⟨ih.1.step hs, (ih.1.apply_config hs).trans ih.2⟩
  | restored _ hr ih => exact ⟨ih.1.restore hr, (ih.1.restore_config hr).trans ih.2⟩

theorem Runs.reached {leaderConfig : LeaderConfig} {events : List (Event FSM Entry Reply)}
    (r : Runs (new cfg leaderConfig) events f) :
    Reached cfg f :=
  r.keeps (I := Reached cfg) (fun _ _ hs h => .entry h hs) (.new leaderConfig)

/-- The snapshot of a state that entries of the form lead to, restored anywhere. -/
theorem Runs.restored_alike {form : Event FSM Entry Reply → Prop} {leaderConfig : LeaderConfig}
    {events : List (Event FSM Entry Reply)}
    (r : Runs (new cfg leaderConfig) events f) (h10 : 10 ≤ cfg.defaultAckTimeout) (hform : ∀ e, form e → Keeps K e.before e.input)
    (hall : ∀ e ∈ events, form e) (hg : Reached cfg g) (hnames : names.Perm f.queueManager.queues.keys) :
    ∃ items g', f.persist names = some items ∧ g.restore items = some g' ∧ AnswersLike form f g' ∧ AnswersLike form g' f := by
  have htwins := Runs.twins r h10 fun e he => hform e (hall e he)
  obtain ⟨items, g', hitems, hg', ht⟩ := htwins.restored hg.safe.1 hg.safe.2 hnames
  exact ⟨items, g', hitems, hg', ht.answersLike h10 hform, ht.symm.answersLike h10 hform⟩

/-! ## Round-robin queues -/

/-- An entry about round-robin queues: names without a colon, ids that are not stored, and
    groups without an empty component. -/
structure OnRoundRobin (e : Event FSM Entry Reply) : Prop where
  named : ∀ n ∈ e.input.command.target, ':' ∉ n.toList
  fresh : ∀ n ∈ e.input.command.queueName, ∀ id ∈ e.input.command.enqueued,
    e.before.queueManager.store.messages.lookup (n, id) = none
  groups : ∀ group ∈ e.input.command.enqueuedGroup, "" ∉ Dotted.split group
  created : ∀ q ∈ createdQueue e.input.command, q.1 = "fair" ∧ q.2.strategy = .roundRobin

instance (e : Event FSM Entry Reply) : Decidable (OnRoundRobin e) :=
  decidable_of_iff
    ((∀ n ∈ e.input.command.target, ':' ∉ n.toList) ∧
      (∀ n ∈ e.input.command.queueName, ∀ id ∈ e.input.command.enqueued, e.before.queueManager.store.messages.lookup
        (n, id) = none) ∧
      (∀ group ∈ e.input.command.enqueuedGroup, "" ∉ Dotted.split group) ∧
      ∀ q ∈ createdQueue e.input.command, q.1 = "fair" ∧ q.2.strategy = .roundRobin)
    ⟨fun h => ⟨h.1, h.2.1, h.2.2.1, h.2.2.2⟩, fun h => ⟨h.named, h.fresh, h.groups, h.created⟩⟩

theorem OnRoundRobin.keeps {e : Event FSM Entry Reply} (h : OnRoundRobin e) : Keeps (· = .fairRoundRobin) e.before e.input where
  named := h.named
  fresh := h.fresh
  group _ _ _ _ _ _ := h.groups
  created q hq := by
    obtain ⟨htype, hs⟩ := h.created q hq
    exact ⟨Or.inl htype, by rw [htype, hs]; rfl⟩
  updated _ _ _ _ hk := hk

/-- The snapshot of a state that entries about round-robin queues lead to, restored into a node
    in any state, leaves a state that answers every further such entry as the first one does. -/
theorem round_robin_restored {leaderConfig : LeaderConfig} {events : List (Event FSM Entry Reply)}
    (h10 : 10 ≤ cfg.defaultAckTimeout)
    (r : Runs (new cfg leaderConfig) events f) (hall : ∀ e ∈ events, OnRoundRobin e) (hg : Reached cfg g)
    (hnames : names.Perm f.queueManager.queues.keys) :
    ∃ items g', f.persist names = some items ∧ g.restore items = some g' ∧ AnswersLike OnRoundRobin f g' ∧
      AnswersLike OnRoundRobin g' f :=
  Runs.restored_alike r h10 (fun _ => OnRoundRobin.keeps) hall hg hnames

/-- A node with a queue of its own. -/
def otherQueue : List Entry := [⟨1, 0, .createQueue "mail" "delayed" ⟨.unspecified, 0, 60, 0⟩⟩]

theorem otherQueue_runs : (exec apply (new defaults (.new "n2" "" "")) otherQueue).isSome := rfl

/-- One of two groups has been served, and the limit lowered. -/
def servedGroup : List Entry :=
  [⟨1, 0, .createQueue "jobs" "fair" ⟨.roundRobin, 2, 60, 0⟩⟩, ⟨2, 0, .enqueue "jobs" 1 "a.b" 0 "" none⟩,
    ⟨3, 0, .enqueue "jobs" 2 "c" 0 "" none⟩, ⟨4, 5, .dequeue "jobs" false⟩, ⟨5, 5, .updateQueue "jobs" ⟨.roundRobin, 1, 60, 0⟩⟩]

theorem servedGroup_runs : (exec apply (new defaults (.new "n1" "" "")) servedGroup).isSome := rfl

theorem round_robin_restored_served :
    let f := ((exec apply (new defaults (.new "n1" "" "")) servedGroup).get servedGroup_runs).2
    let g := ((exec apply (new defaults (.new "n2" "" "")) otherQueue).get otherQueue_runs).2
    ∃ items g', f.persist ["jobs"] = some items ∧ g.restore items = some g' ∧ AnswersLike OnRoundRobin f g' ∧
      AnswersLike OnRoundRobin g' f :=
  round_robin_restored (by decide) (Run.of_exec_isSome servedGroup_runs) (by decide +kernel)
    (Runs.reached (Run.of_exec_isSome otherQueue_runs))
    (.refl ["jobs"])

/-! ## Delayed and weighted queues -/

/-- An entry about delayed and weighted queues that changes no settings. -/
structure OnDelayedOrWeighted (e : Event FSM Entry Reply) : Prop where
  named : ∀ n ∈ e.input.command.target, ':' ∉ n.toList
  fresh : ∀ n ∈ e.input.command.queueName, ∀ id ∈ e.input.command.enqueued,
    e.before.queueManager.store.messages.lookup (n, id) = none
  created : ∀ q ∈ createdQueue e.input.command, q.1 = "delayed" ∨ q.1 = "fair" ∧ q.2.strategy = .weighted
  updates : updatedQueue e.input.command = none

instance (e : Event FSM Entry Reply) : Decidable (OnDelayedOrWeighted e) :=
  decidable_of_iff
    ((∀ n ∈ e.input.command.target, ':' ∉ n.toList) ∧
      (∀ n ∈ e.input.command.queueName, ∀ id ∈ e.input.command.enqueued, e.before.queueManager.store.messages.lookup
        (n, id) = none) ∧
      (∀ q ∈ createdQueue e.input.command, q.1 = "delayed" ∨ q.1 = "fair" ∧ q.2.strategy = .weighted) ∧
      updatedQueue e.input.command = none)
    ⟨fun h => ⟨h.1, h.2.1, h.2.2.1, h.2.2.2⟩, fun h => ⟨h.named, h.fresh, h.created, h.updates⟩⟩

theorem OnDelayedOrWeighted.keeps {e : Event FSM Entry Reply} (h : OnDelayedOrWeighted e) :
    Keeps (· ≠ .fairRoundRobin) e.before e.input where
  named := h.named
  fresh := h.fresh
  group _ _ _ _ hk hr := absurd hr hk
  created q hq := by
    rcases h.created q hq with htype | ⟨htype, hs⟩
    · exact ⟨Or.inr htype, by rw [htype]; nofun⟩
    · exact ⟨Or.inl htype, by rw [htype, hs]; nofun⟩
  updated n hn := by rw [h.updates] at hn; cases hn

/-- The same for delayed and weighted queues, as long as no settings are changed. -/
theorem delayed_weighted_restored {leaderConfig : LeaderConfig} {events : List (Event FSM Entry Reply)}
    (h10 : 10 ≤ cfg.defaultAckTimeout)
    (r : Runs (new cfg leaderConfig) events f) (hall : ∀ e ∈ events, OnDelayedOrWeighted e) (hg : Reached cfg g)
    (hnames : names.Perm f.queueManager.queues.keys) :
    ∃ items g', f.persist names = some items ∧ g.restore items = some g' ∧ AnswersLike OnDelayedOrWeighted f g' ∧
      AnswersLike OnDelayedOrWeighted g' f :=
  Runs.restored_alike r h10 (fun _ => OnDelayedOrWeighted.keeps) hall hg hnames

/-- A weighted queue with one delivery that failed and one in flight, next to a delayed one. -/
def failedDelivery : List Entry :=
  [⟨1, 0, .createQueue "jobs" "fair" ⟨.weighted, 2, 60, 2⟩⟩, ⟨2, 0, .enqueue "jobs" 1 "a" 0 "" none⟩,
    ⟨3, 0, .enqueue "jobs" 2 "b" 0 "" none⟩, ⟨4, 5, .dequeue "jobs" false⟩, ⟨5, 6, .nack "jobs" 2 0 none⟩,
    ⟨6, 7, .dequeue "jobs" false⟩, ⟨7, 7, .createQueue "later" "delayed" ⟨.unspecified, 0, 60, 0⟩⟩,
      ⟨8, 7, .enqueue "later" 3 "" 9 "" none⟩]

theorem failedDelivery_runs : (exec apply (new defaults (.new "n1" "" "")) failedDelivery).isSome := by decide +kernel

theorem delayed_weighted_restored_failed :
    let f := ((exec apply (new defaults (.new "n1" "" "")) failedDelivery).get failedDelivery_runs).2
    let g := ((exec apply (new defaults (.new "n2" "" "")) otherQueue).get otherQueue_runs).2
    ∃ items g', f.persist ["later", "jobs"] = some items ∧ g.restore items = some g' ∧ AnswersLike OnDelayedOrWeighted f g' ∧
      AnswersLike OnDelayedOrWeighted g' f :=
  delayed_weighted_restored (by decide) (Run.of_exec_isSome failedDelivery_runs) (by decide +kernel)
    (Runs.reached (Run.of_exec_isSome otherQueue_runs)) (by decide +kernel)

end FSM

end Doq
