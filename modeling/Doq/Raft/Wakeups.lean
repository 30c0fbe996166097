/-
  Doq.Raft.Wakeups — whether a command that makes a queue ready wakes its consumers
  (`notify` and `NotifyChan` in `pkg/queue/queue.go`).

  A consumer takes the channel, asks for a message, gets none and waits. `Steady` is the
  invariant: the groups of round-robin queues are good, so what each memory queue looks at is
  known (`Fit`). Every entry wakes the consumers or takes something from the memory queue
  (`Steady.turned`), and for what it takes `Fit.lose_peekReady` says when the queue becomes
  ready by it.

  Proved:
  - `wakes_iff`: an entry that makes a queue ready closes its channel exactly if it does not
    open the queue by a loss: a slot freed by `Ack`, a dropped message, an earlier priority
    of a delayed message, a higher limit of a round-robin queue. A restore stops every queue
    it replaces, which closes the channel a consumer holds. In a log without such losses a
    consumer on an open channel misses nothing.
  - `ack_wakes_nobody`: a queue with a limit of one, two messages of one group, one in
    flight. Its ack makes the other ready, and the channel stays open.
-/

import Doq.Queue.Wakes
import Doq.Raft.LocalInputs

namespace Doq

open Lib Memory Storage
open MemoryQueue (Loss Fit)

theorem Memory.MemoryQueue.Inv.fit {m : MemoryQueue} (h : m.Inv) : Fit m := by
  cases m with
  | delayed q => exact h.safe
  | fairRoundRobin q => exact FairRoundRobinQueue.Inv.loosen h
  | fairWeighted q => exact h.1

namespace FSM

variable {f f' : FSM} {name : String} {q q' : Queue} {config : QueueConfig} {m : MemoryQueue} {entry : Entry}
    {reply : Reply} {clock : Int}

/-- What an entry takes from the memory queue of the queue `name`. -/
def lossOf (f : FSM) (name : String) (q : Queue) (config : QueueConfig) (m : MemoryQueue) (entry : Entry) : Loss :=
  if addressed entry.command = some name then
    match entry.command with
    | .dequeue _ ack => if m.len = 0 then .nothing else .take ack entry.index entry.now
    | .delete _ id => q.lostByDelete config f.queueManager.store id
    | .ack _ id => q.lostByAck config f.queueManager.store id
    | .nack _ id _ _ => q.lostByFailure config f.queueManager.store id
    | .ackTimeout _ id => q.lostByExpiry config f.queueManager.store id
    | .updatePriority _ id priority => q.lostByReprice config m f.queueManager.store id priority
    | .updateQueue _ settings =>
      match Queue.changedSettings f.queueManager.config config settings with
      | .error _ => .nothing
      | .ok settings' => .limit settings'.maxUnacked.toNat
    | _ => .nothing
  else .nothing

/-- The entry makes a queue ready that was not, by what it takes. -/
def Opens (name : String) (clock : Int) (f : FSM) (entry : Entry) : Prop :=
  ∃ q config m, f.queueManager.queues.lookup name = some q ∧ q.config = some config ∧ q.queue = some m ∧ ¬ q.Ready clock ∧
    m.Opens clock (f.lossOf name q config m entry)

/-- A step that makes the queue ready closes the channel its consumers wait on. -/
def Wakes (name : String) (clock : Int) (f f' : FSM) : Prop :=
  ∀ q q', f.queueManager.queues.lookup name = some q → f'.queueManager.queues.lookup name = some q' →
    ¬ q.Ready clock → q'.Ready clock → q.notifyCh < q'.notifyCh

/-- What an entry enqueues in a round-robin queue has a good group. -/
def EnqueuesGood (f : FSM) (entry : Entry) : Prop :=
  ∀ n ∈ entry.command.queueName, ∀ p ∈ f.inMemory n, p.1.kind = .fairRoundRobin →
    ∀ group ∈ entry.command.enqueuedGroup, FairRoundRobinQueue.GoodGroup group

instance (f : FSM) (entry : Entry) : Decidable (EnqueuesGood f entry) := inferInstanceAs (Decidable (∀ n ∈ _, _))

/-- What a snapshot holds under the prefix of a round-robin queue has good groups. -/
def ScansGood (f : FSM) : Prop :=
  ∀ n, ∀ p ∈ f.inMemory n, p.1.kind = .fairRoundRobin → ∀ msg ∈ f.queueManager.store.scan n,
    FairRoundRobinQueue.GoodGroup msg.group

/-- The memory queue is of the kind its configuration asks for, and files every stored group
    under its own name. -/
structure Filed (name : String) (config : QueueConfig) (m : MemoryQueue) (store : Store) : Prop where
  fit : Fit m
  groups : GoodGroups m.kind name store
  made : ∀ m₀, Queue.memoryQueue config.type config.settings = some m₀ → m₀.kind = m.kind

structure Steady (f : FSM) : Prop where
  safe : Safe f
  filed : ∀ name q m config, f.queueManager.queues.lookup name = some q → q.queue = some m → q.config = some config →
    Filed name config m f.queueManager.store

theorem new_steady (cfg : Config) (leaderConfig : LeaderConfig) : Steady (new cfg leaderConfig) :=
  ⟨new_safe cfg leaderConfig, fun _ _ _ _ h => (nomatch h)⟩

theorem Steady.fit (h : Steady f) (hq : f.queueManager.queues.lookup name = some q) (hm : q.queue = some m) : Fit m := by
  obtain ⟨config, _, hserved⟩ := h.safe.queue name q hq
  exact (h.filed name q m config hq hm hserved.config_eq).fit

theorem Steady.groups (h : Steady f) (hq : f.queueManager.queues.lookup name = some q) (hm : q.queue = some m) :
    GoodGroups m.kind name f.queueManager.store := by
  obtain ⟨config, _, hserved⟩ := h.safe.queue name q hq
  exact (h.filed name q m config hq hm hserved.config_eq).groups

theorem accepts_of_good {kind : MemoryQueue.Kind} {group : String}
    (h : kind = .fairRoundRobin → FairRoundRobinQueue.GoodGroup group) : MemoryQueue.Accepts kind group := by
  cases kind with
  | fairRoundRobin => exact h rfl
  | delayed => trivial
  | fairWeighted => trivial

theorem lossOf_elsewhere (h : addressed entry.command ≠ some name) : f.lossOf name q config m entry = .nothing := if_neg h

theorem groupFor_good {group : String} (hg : FairRoundRobinQueue.GoodGroup group) :
    FairRoundRobinQueue.GoodGroup (Queue.groupFor config group) := by
  unfold Queue.groupFor
  split
  · decide
  · exact hg

theorem Steady.handle_woken (h : Steady f) (hq : f.queueManager.queues.lookup name = some q)
    (hl : Queue.Live name config m q f.queueManager.store) (he : entry.command.queueName = some name)
    (hgood : EnqueuesGood f entry) :
    Returns (FSM.handle q f.queueManager.store f.queueManager.config entry) fun r =>
      Queue.Woken name m q (f.lossOf name q config m entry) r.2.1 r.2.2 := by
  have hf := h.fit hq hl.queue_eq
  have hg := h.groups hq hl.queue_eq
  have haddr := addressed_of_queueName he
  unfold FSM.handle lossOf
  rw [if_pos haddr]
  cases hc : entry.command <;> rw [hc] at he <;> cases he
  case enqueue id group priority content metadata =>
    have hgroup : MemoryQueue.Accepts m.kind (Queue.groupFor config group) := accepts_of_good fun hk =>
      groupFor_good (hgood name (by rw [hc]; rfl) _ (inMemory_eq hq hl.queue_eq) hk group (by rw [hc]; rfl))
    exact (hl.enqueue_woken hf hg hgroup priority content metadata).map fun _ hr => hr
  case dequeue ack => exact (hl.dequeue_woken hf hg ack entry.index entry.now).map fun _ hr => hr
  case get id =>
    refine Returns.map (P := fun _ => True) ?_ fun r _ => Queue.Woken.same hl.queue_eq hf hg
    refine .of_eq (a := f.queueManager.store.get noFaults config.name id) ?_ trivial
    simp only [Queue.get, hl.config_eq, Option.bind_eq_bind, Option.bind_some]
  case delete id => exact (hl.delete_woken hf hg id).map fun _ hr => hr
  case ack id => exact (hl.ack_woken hf hg id).map fun _ hr => hr
  case nack id priority metadata => exact (hl.nack_woken hf hg id priority metadata).map fun _ hr => hr
  case touch id => exact (hl.touch_woken hf hg id entry.now).map fun _ hr => hr
  case ackTimeout id => exact (hl.ackTimeout_woken hf hg id).map fun _ hr => hr
  case updatePriority id priority => exact (hl.updatePriority_woken hf hg id priority).map fun _ hr => hr

/-- A queue of an unknown type only refuses. -/
theorem handle_idle_same {store store' : Store} {cfg : Config} {response : FSMResponse} (hi : Queue.Idle name config q store)
    (he : entry.command.queueName = some name) (hh : FSM.handle q store cfg entry = some (response, q', store')) :
    q' = q ∧ store' = store := by
  have hidle := Idle.handle hi he cfg
  split at hidle
  · rw [hh] at hidle; cases hidle
  · obtain ⟨r, hr, _⟩ := hidle
    rw [hh] at hr
    cases hr
    exact ⟨rfl, rfl⟩

/-! ## One entry -/

theorem lossOf_update {settings : QueueSettings} (he : entry.command = .updateQueue name settings) :
    f.lossOf name q config m entry =
      match Queue.changedSettings f.queueManager.config config settings with
      | .error _ => .nothing
      | .ok settings' => .limit settings'.maxUnacked.toNat := by
  unfold lossOf
  rw [he]
  exact if_pos rfl

theorem lossOf_bounded : (f.lossOf name q config m entry).Bounded := by
  unfold lossOf
  split
  · split
    · split <;> trivial
    · exact Queue.lostByDelete_bounded
    · exact Queue.lostByAck_bounded
    · exact Queue.lostByFailure_bounded
    · exact Queue.lostByExpiry_bounded
    · exact Queue.lostByReprice_bounded
    · split
      · trivial
      · exact Queue.limit_toNat _
    · trivial
  · trivial

/-- The commands that are neither on messages nor an update of this queue. -/
theorem lossOf_other (hn : entry.command.queueName = none) (hu : ∀ settings, entry.command ≠ .updateQueue name settings) :
    f.lossOf name q config m entry = .nothing := by
  by_cases ha : addressed entry.command = some name
  · unfold lossOf
    rw [if_pos ha]
    cases hc : entry.command with
    | updateQueue n settings =>
      rw [hc] at ha
      cases ha
      exact absurd hc (hu settings)
    | leaderConfigChange nodeId raftAddr grpcAddr httpAddr => rfl
    | createQueue n queueType settings => rfl
    | deleteQueue n => rfl
    | unset => rfl
    | _ => first | rfl | (rw [hc] at hn; cases hn)
  · exact lossOf_elsewhere ha

/-- `UpdateQueue` wakes nobody, although it may raise the limit. -/
theorem Steady.update_turned (h : Steady f) {settings : QueueSettings} (he : entry.command = .updateQueue name settings)
    (hs : f.apply entry = some (reply, f')) (hq : f.queueManager.queues.lookup name = some q) (hconfig : q.config = some config)
    (hm : q.queue = some m) (hq' : f'.queueManager.queues.lookup name = some q') :
    Queue.Turned m q (f.lossOf name q config m entry) q' := by
  obtain ⟨config₀, hc, hserved⟩ := h.safe.queue name q hq
  obtain rfl : config = config₀ := Option.some.inj (hconfig.symm.trans hserved.config_eq)
  have hap : f.apply entry = respond (f.applyUpdateQueue name settings) := by unfold apply; rw [he]
  rw [hap, applyUpdateQueue_found hq hconfig hserved.name_eq] at hs
  rw [lossOf_update he]
  cases ha : Queue.changedSettings f.queueManager.config config settings with
  | error e =>
    rw [ha] at hs
    cases hs
    rw [hq] at hq'
    cases hq'
    exact (Queue.Woken.same hm (h.fit hq hm) (h.groups hq hm)).turned
  | ok settings' =>
    rw [ha, hm] at hs
    cases hs
    rw [lookup_putQueue] at hq'
    cases hq'
    exact ⟨_, rfl, (h.fit hq hm).updateMaxUnacked (Queue.limit_toNat _), Or.inr ⟨rfl, rfl⟩⟩

/-- What an entry does to a queue that is there before and after it. -/
theorem Steady.turned (h : Steady f) (hgood : EnqueuesGood f entry) (hs : f.apply entry = some (reply, f'))
    (hq : f.queueManager.queues.lookup name = some q) (hconfig : q.config = some config) (hm : q.queue = some m)
    (hq' : f'.queueManager.queues.lookup name = some q') : Queue.Turned m q (f.lossOf name q config m entry) q' := by
  have hsame : f.lossOf name q config m entry = .nothing → q' = q → Queue.Turned m q (f.lossOf name q config m entry) q' := by
    rintro hloss rfl
    rw [hloss]
    exact (Queue.Woken.same hm (h.fit hq hm) (h.groups hq hm)).turned
  by_cases hu : ∃ settings, entry.command = .updateQueue name settings
  · obtain ⟨settings, he⟩ := hu
    exact h.update_turned he hs hq hconfig hm hq'
  cases h.safe.seen hs name with
  | elsewhere hne hq₁ _ _ =>
    rw [hq₁, hq] at hq'
    cases hq'
    exact hsame (lossOf_elsewhere hne) rfl
  | refused hwhy hf =>
    subst hf
    rw [hq] at hq'
    cases hq'
    rcases hwhy with ⟨hnone, _⟩ | hnone
    · rw [hq] at hnone; cases hnone
    · exact hsame (lossOf_other hnone fun settings he => hu ⟨settings, he⟩) rfl
  | handled q₀ q₁ response store' he hq₀ hh hr hf =>
    subst hf
    rw [hq] at hq₀
    cases hq₀
    rw [lookup_putQueue] at hq'
    cases hq'
    obtain ⟨config₀, _, hserved⟩ := h.safe.queue name q hq
    obtain rfl : config = config₀ := Option.some.inj (hconfig.symm.trans hserved.config_eq)
    rcases hserved with ⟨_, m₀, hl⟩ | ⟨_, hi⟩
    · obtain rfl : m = m₀ := Option.some.inj (hm.symm.trans hl.queue_eq)
      exact ((h.handle_woken hq hl he hgood).result hh).turned
    · rw [hi.queue_eq] at hm; cases hm
  | created queueType settings settings' he hq₀ ha hf => rw [hq] at hq₀; cases hq₀
  | updated q₀ m config₀ settings settings' he hq₀ hc₀ hm ha hf => exact absurd ⟨settings, he⟩ hu
  | deleted he hnone => rw [hnone] at hq'; cases hq'

theorem Steady.step (h : Steady f) (hgood : EnqueuesGood f entry) (hs : f.apply entry = some (reply, f')) : Steady f' where
  safe := h.safe.step hs
  filed name q' m' config' hq' hm' hc' := by
    cases h.safe.seen hs name with
    | elsewhere _ hq _ hm =>
      rw [hq] at hq'
      obtain ⟨hfit, hgroups, hmade⟩ := h.filed name q' m' config' hq' hm' hc'
      refine ⟨hfit, fun id msg hmsg => ?_, hmade⟩
      rcases hm id with hsame | ⟨_, hnone⟩
      · exact hgroups id msg (hsame ▸ hmsg)
      · rw [hnone] at hmsg; cases hmsg
    | refused _ hf => subst hf; exact h.filed name q' m' config' hq' hm' hc'
    | handled q q₁ response store' he hq hh hr hf =>
      obtain ⟨config, _, hserved⟩ := h.safe.queue name q hq
      rcases hserved with ⟨_, m, hl⟩ | ⟨_, hi⟩
      · obtain ⟨m₁, hm₁, hfit, _⟩ := h.turned hgood hs hq hl.config_eq hl.queue_eq hq'
        obtain ⟨m₂, hhandled⟩ := (Live.handle hl he).result hh
        have hwoken := (h.handle_woken hq hl he hgood).result hh
        subst hf
        rw [lookup_putQueue] at hq'
        cases hq'
        cases hm'.symm.trans hm₁
        cases hm'.symm.trans hhandled.live.queue_eq
        cases hc'.symm.trans hhandled.live.config_eq
        have hkind : m'.kind = m.kind := hhandled.kind
        refine ⟨hfit, hkind ▸ hwoken.groups, fun m₀ hm₀ => ?_⟩
        rw [hkind]
        exact (h.filed name q m config' hq hl.queue_eq hl.config_eq).made m₀ hm₀
      · subst hf
        rw [lookup_putQueue] at hq'
        cases hq'
        obtain ⟨rfl, _⟩ := handle_idle_same hi he hh
        rw [hi.queue_eq] at hm'; cases hm'
    | created queueType settings settings' he hq ha hf =>
      subst hf
      rw [lookup_putQueue] at hq'
      cases hq'
      cases hc'
      refine ⟨(Queue.created_inv hm').1.fit, fun id msg hmsg => ?_, fun m₀ hm₀ => ?_⟩
      · have hmsg : f.queueManager.store.messages.lookup (name, id) = some msg := hmsg
        rw [(h.safe.missing name hq).2 id] at hmsg; cases hmsg
      · cases hm₀.symm.trans hm'; rfl
    | updated q m config settings settings' he hq hc hm ha hf =>
      obtain ⟨_, hgroups, hmade⟩ := h.filed name q m config hq hm hc
      obtain ⟨m₁, hm₁, hfit, _⟩ := h.turned hgood hs hq hc hm hq'
      subst hf
      rw [lookup_putQueue] at hq'
      cases hq'
      cases hm'
      cases hc'
      have hkind : (m.updateMaxUnacked settings'.maxUnacked.toNat).kind = m.kind := by cases m <;> rfl
      cases hm₁
      refine ⟨hfit, hkind ▸ hgroups, fun m₀ hm₀ => ?_⟩
      rw [hkind]
      obtain ⟨m₁, hm₁⟩ : ∃ m₁, Queue.memoryQueue config.type config.settings = some m₁ := by
        by_cases hk : Queue.KnownType config.type
        · obtain ⟨m₁, hm₁, _⟩ := Queue.memoryQueue_known hk config.settings
          exact ⟨m₁, hm₁⟩
        · rw [Queue.memoryQueue_unknown hk] at hm₀; cases hm₀
      exact (memoryQueue_kind (changedSettings_strategy ha) hm₁ hm₀).trans (hmade m₁ hm₁)
    | deleted he hnone => rw [hnone] at hq'; cases hq'

theorem Steady.stays (h : Steady f) (hs : f.apply entry = some (reply, f')) (hq : f.queueManager.queues.lookup name = some q)
    (hkeep : entry.command ≠ .deleteQueue name) : ∃ q', f'.queueManager.queues.lookup name = some q' := by
  cases h.safe.seen hs name with
  | elsewhere _ hq₁ _ _ => exact ⟨q, hq₁.trans hq⟩
  | refused _ hf => subst hf; exact ⟨q, hq⟩
  | handled q₀ q₁ response store' he hq₀ hh hr hf => subst hf; exact ⟨_, lookup_putQueue⟩
  | created queueType settings settings' he hq₀ ha hf => rw [hq] at hq₀; cases hq₀
  | updated q₀ m config₀ settings settings' he hq₀ hc₀ hm ha hf => subst hf; exact ⟨_, lookup_putQueue⟩
  | deleted he hnone => exact absurd he hkeep

/-- A queue without a memory queue stays as it is. -/
theorem Steady.still (h : Steady f) (hs : f.apply entry = some (reply, f')) (hq : f.queueManager.queues.lookup name = some q)
    (hm : q.queue = none) (hq' : f'.queueManager.queues.lookup name = some q') : q' = q := by
  cases h.safe.seen hs name with
  | elsewhere _ hq₁ _ _ => rw [hq₁, hq] at hq'; cases hq'; rfl
  | refused _ hf => subst hf; rw [hq] at hq'; cases hq'; rfl
  | handled q₀ q₁ response store' he hq₀ hh hr hf =>
    subst hf
    rw [hq] at hq₀
    cases hq₀
    rw [lookup_putQueue] at hq'
    cases hq'
    obtain ⟨config, _, hserved⟩ := h.safe.queue name q hq
    rcases hserved with ⟨_, m, hl⟩ | ⟨_, hi⟩
    · rw [hl.queue_eq] at hm; cases hm
    · exact (handle_idle_same hi he hh).1
  | created queueType settings settings' he hq₀ ha hf => rw [hq] at hq₀; cases hq₀
  | updated q₀ m config₀ settings settings' he hq₀ hc₀ hm₀ ha hf => rw [hq] at hq₀; cases hq₀; rw [hm] at hm₀; cases hm₀
  | deleted he hnone => rw [hnone] at hq'; cases hq'

/-- An entry wakes the consumers of the queues it makes ready, unless it makes them so by what
    it takes. -/
theorem Steady.wakes (h : Steady f) (hgood : EnqueuesGood f entry) (hs : f.apply entry = some (reply, f'))
    (name : String) (clock : Int) :
    Wakes name clock f f' ↔ ¬ Opens name clock f entry := by
  constructor
  · rintro hw ⟨q, config, m, hq, hc, hm, hidle, hopens⟩
    have hloss : f.lossOf name q config m entry ≠ .nothing := fun e => by rw [e] at hopens; exact hopens
    obtain ⟨q', hq'⟩ := h.stays hs hq fun he => hloss (lossOf_other (by rw [he]; rfl) (by rw [he]; exact nofun))
    obtain ⟨m', hm', _, hturn⟩ := h.turned hgood hs hq hc hm hq'
    rcases hturn with ⟨hnothing, _⟩ | ⟨hsame, hlose⟩
    · exact hloss hnothing
    · have hpeek : (m.peekReady clock).1 = false := Bool.eq_false_iff.mpr fun ht => hidle ((Queue.ready_iff hm clock).mpr ht)
      have hready := ((h.fit hq hm).lose_peekReady lossOf_bounded hlose hpeek).mpr hopens
      have := hw q q' hq hq' hidle ((Queue.ready_iff hm' clock).mpr hready)
      omega
  · intro hno q q' hq hq' hidle hready
    cases hm : q.queue with
    | none => rw [h.still hs hq hm hq'] at hready; exact absurd hready hidle
    | some m =>
      obtain ⟨config, _, hserved⟩ := h.safe.queue name q hq
      obtain ⟨m', hm', _, hturn⟩ := h.turned hgood hs hq hserved.config_eq hm hq'
      rcases hturn with ⟨_, hwoken⟩ | ⟨_, hlose⟩
      · exact hwoken
      · have hpeek : (m.peekReady clock).1 = false := Bool.eq_false_iff.mpr fun ht => hidle ((Queue.ready_iff hm clock).mpr ht)
        have hopens := ((h.fit hq hm).lose_peekReady lossOf_bounded hlose hpeek).mp
          ((Queue.ready_iff hm' clock).mp hready)
        exact absurd ⟨q, config, m, hq, hserved.config_eq, hm, hidle, hopens⟩ hno

/-- Channels are only ever closed. -/
theorem Steady.notifyCh_le (h : Steady f) (hgood : EnqueuesGood f entry) (hs : f.apply entry = some (reply, f'))
    (hq : f.queueManager.queues.lookup name = some q) (hq' : f'.queueManager.queues.lookup name = some q') :
    q.notifyCh ≤ q'.notifyCh := by
  cases hm : q.queue with
  | none => rw [h.still hs hq hm hq']
  | some m =>
    obtain ⟨config, _, hserved⟩ := h.safe.queue name q hq
    obtain ⟨_, _, _, hturn⟩ := h.turned hgood hs hq hserved.config_eq hm hq'
    rcases hturn with ⟨_, hwoken⟩ | ⟨hsame, _⟩ <;> omega

/-- A consumer that found nothing and waits, over a log that takes nothing the queue becomes
    ready by. -/
theorem Steady.waits {g : FSM} {later : List (Event FSM Entry Reply)} (h : Steady f) (r : Runs f later g)
    (hgood : ∀ e ∈ later, EnqueuesGood e.before e.input) (hkeep : ∀ e ∈ later, e.input.command ≠ .deleteQueue name)
    (hno : ∀ e ∈ later, ¬ Opens name clock e.before e.input) (hq : f.queueManager.queues.lookup name = some q)
    (hidle : ¬ q.Ready clock) :
    ∃ q', g.queueManager.queues.lookup name = some q' ∧
      (q.notifyCh < q'.notifyCh ∨ q'.notifyCh = q.notifyCh ∧ ¬ q'.Ready clock) := by
  refine (r.keeps (I := fun g => Steady g ∧ ∃ q', g.queueManager.queues.lookup name = some q' ∧
    (q.notifyCh < q'.notifyCh ∨ q'.notifyCh = q.notifyCh ∧ ¬ q'.Ready clock)) (fun e he hs hI => ?_)
      ⟨h, q, hq, Or.inr ⟨rfl, hidle⟩⟩).2
  obtain ⟨hsteady, q₁, hq₁, hwait⟩ := hI
  obtain ⟨q', hq'⟩ := hsteady.stays hs hq₁ (hkeep e he)
  refine ⟨hsteady.step (hgood e he) hs, q', hq', ?_⟩
  have hle := hsteady.notifyCh_le (hgood e he) hs hq₁ hq'
  rcases hwait with hclosed | ⟨hopen, hidle₁⟩
  · exact Or.inl (by omega)
  · by_cases hready : q'.Ready clock
    · have hwoken := (hsteady.wakes (hgood e he) hs name clock).mpr (hno e he) q₁ q' hq₁ hq' hidle₁ hready
      exact Or.inl (by omega)
    · rcases Nat.lt_or_eq_of_le hle with hlt | heq
      · exact Or.inl (by omega)
      · exact Or.inr ⟨by omega, hready⟩

/-! ## A restore -/

theorem TakesBack.fit {group : String} {item : Item} {m' : MemoryQueue} (h : Queue.TakesBack m group item m')
    (hi : item.group = group) (hf : Fit m) (hg : MemoryQueue.Accepts m.kind group) : Fit m' ∧ m'.kind = m.kind := by
  cases h with
  | same => exact ⟨hf, rfl⟩
  | pushed h => exact ⟨(hf.enqueue hg hi).result h, ((hf.safe.enqueue hi).result h).2.1⟩
  | @marked m₁ _ hw h =>
    have hwithout : Fit m₁ ∧ m₁.kind = m.kind := by
      unfold Queue.withoutReady at hw
      obtain ⟨found, _, hw⟩ := Option.bind_eq_some_iff.mp hw
      cases found with
      | none => cases hw; exact ⟨hf, rfl⟩
      | some it =>
        obtain ⟨r, hd, hw⟩ := Option.bind_eq_some_iff.mp hw
        cases hw
        exact ⟨(hf.delete _ _).result hd, ((hf.safe.delete _ _).result hd).2.1⟩
    exact ⟨(hwithout.1.markUnacked _).result h, ((hwithout.1.safe.markUnacked _).result h).2.1.trans hwithout.2⟩

theorem Steady.put {store : Store} (h : Steady f) (hsafe : Safe (f.putQueue name q' store))
    (hframe : StoreFrame name f.queueManager.store store)
    (hfiled : ∀ m config, q'.queue = some m → q'.config = some config → Filed name config m store) :
    Steady (f.putQueue name q' store) where
  safe := hsafe
  filed n q m config hq hm hc := by
    have hq : (f.queueManager.queues.insert name q').lookup n = some q := hq
    rw [FinMap.lookup_insert_eq] at hq
    split at hq
    · rename_i e
      cases hq
      exact e ▸ hfiled m config hm hc
    · rename_i e
      obtain ⟨hfit, hgroups, hmade⟩ := h.filed n q m config hq hm hc
      exact ⟨hfit, fun id msg hmsg => hgroups id msg ((hframe.messages n id e).symm.trans hmsg), hmade⟩

theorem Steady.create (h : Steady f) (name queueType : String) (settings : QueueSettings) :
    Steady (f.applyCreateQueue name queueType settings).2 := by
  have hs : f.apply ⟨0, 0, .createQueue name queueType settings⟩ =
      some (.response (f.applyCreateQueue name queueType settings).1, (f.applyCreateQueue name queueType settings).2) := rfl
  exact h.step (fun _ hn => by cases hn) hs

/-- A restore of a snapshot of `f` between two items. -/
structure Refilled (f : FSM) (st : Restoring) : Prop where
  resumable : Resumable st
  steady : Steady st.fsm
  kinds : ∀ n, ∀ p ∈ st.fsm.inMemory n, ∃ p' ∈ f.inMemory n, p'.1.kind = p.1.kind

/-- The items are of blocks of `f`: a message follows the configuration of a queue under whose
    prefix it is stored. -/
def ItemsOf (f : FSM) : Option String → List SnapshotItem → Prop
  | _, [] => True
  | _, .queue config :: items =>
    f.queueManager.store.queues.lookup config.name = some config ∧ ItemsOf f (some config.name) items
  | current, .message msg :: items => (∀ n ∈ current, msg ∈ f.queueManager.store.scan n) ∧ ItemsOf f current items
  | current, _ :: items => ItemsOf f current items

theorem inMemory_put {store : Store} {n : String} {p : MemoryQueue × DelayedQueue}
    (hp : p ∈ (f.putQueue name q store).inMemory n) :
    n = name ∧ q.queue = some p.1 ∨ p ∈ f.inMemory n := by
  obtain ⟨q₁, hq₁, hp⟩ := Option.bind_eq_some_iff.mp hp
  obtain ⟨m, hm, hp⟩ := Option.bind_eq_some_iff.mp hp
  cases hp
  have hq₁ : (f.queueManager.queues.insert name q).lookup n = some q₁ := hq₁
  rw [FinMap.lookup_insert_eq] at hq₁
  split at hq₁
  · rename_i e
    cases hq₁
    exact Or.inl ⟨e, hm⟩
  · exact Or.inr (inMemory_eq hq₁ hm)

/-- The current queue is replaced by one of the same kind. -/
theorem Refilled.put {st st' : Restoring} {n : String} {store : Store} (h : Refilled f st) (hres : Resumable st')
    (hst : st'.fsm = st.fsm.putQueue n q' store) (hq : st.fsm.queueManager.queues.lookup n = some q)
    (hframe : StoreFrame n st.fsm.queueManager.store store)
    (hfiled : ∀ m' config, q'.queue = some m' → q'.config = some config →
      (∃ m, q.queue = some m ∧ m.kind = m'.kind) ∧ Filed n config m' store) :
    Refilled f st' := by
  obtain ⟨config, _, hserved⟩ := hres.safe.queue n q' (by rw [hst]; exact lookup_putQueue)
  refine ⟨hres, ?_, fun n' p hp => ?_⟩
  · rw [hst]
    exact h.steady.put (hst ▸ hres.safe) hframe fun m' config hm' hc' => (hfiled m' config hm' hc').2
  · rw [hst] at hp
    rcases inMemory_put hp with ⟨rfl, hpq⟩ | hp
    · obtain ⟨⟨m, hm, hkind⟩, _⟩ := hfiled p.1 config hpq hserved.config_eq
      obtain ⟨p', hp', hk⟩ := h.kinds n' _ (inMemory_eq hq hm)
      exact ⟨p', hp', hk.trans hkind⟩
    · exact h.kinds n' p hp

/-- The next item of a snapshot of `f`. -/
theorem Refilled.item {st st' : Restoring} {item : SnapshotItem} {items : List SnapshotItem} {current : Option String}
    (h : Refilled f st) (hf : Steady f) (hscan : ScansGood f) (hcur : ∀ n ∈ st.q, n ∈ current)
    (hof : ItemsOf f current (item :: items)) (hs : restoreItem st item = some st') :
    Refilled f st' ∧ ∃ current', (∀ n ∈ st'.q, n ∈ current') ∧ ItemsOf f current' items := by
  have hres := (h.resumable.item hs).resumable
  cases item with
  | leaderConfiguration nodeId raftAddr grpcAddr httpAddr =>
    cases hs
    exact ⟨⟨hres, ⟨hres.safe, h.steady.filed⟩, h.kinds⟩, current, hcur, hof⟩
  | unackedMessage id ackDeadline =>
    obtain ⟨unacked, _, hs⟩ := Option.bind_eq_some_iff.mp hs
    cases hs
    exact ⟨⟨hres, h.steady, h.kinds⟩, current, hcur, hof⟩
  | queue config =>
    obtain ⟨hc, hof⟩ := hof
    cases hq : st.fsm.queueManager.queues.lookup config.name with
    | some q =>
      rw [restore_existing st hq] at hs
      cases hs
      exact ⟨⟨hres, h.steady, h.kinds⟩, _, fun n hn => hn, hof⟩
    | none =>
      cases hset : Queue.newSettings st.fsm.queueManager.config config.type config.settings with
      | error e =>
        rw [restore_refused st hq hset] at hs
        cases hs
        exact ⟨⟨hres, h.steady, h.kinds⟩, _, fun n hn => (nomatch hn), hof⟩
      | ok settings =>
        have hsteady := h.steady.create config.name config.type config.settings
        rw [applyCreateQueue_new hq, hset] at hsteady
        rw [restore_new st hq hset] at hs
        cases hs
        refine ⟨⟨hres, hsteady, fun n p hp => ?_⟩, _, fun n hn => hn, hof⟩
        rcases inMemory_put hp with ⟨rfl, hpq⟩ | hp
        · -- made again from the configuration it was made from
          have hmade : Queue.memoryQueue config.type settings = some p.1 := hpq
          obtain ⟨q, hq', hserved⟩ := hf.safe.served hc
          obtain ⟨_, t, rfl⟩ := Queue.newSettings_ok hset
          rcases hserved with ⟨hknown, m, hl⟩ | ⟨hunknown, _⟩
          · obtain ⟨m₀, hm₀, _⟩ := Queue.memoryQueue_known hknown config.settings
            have hkind := (hf.filed _ q m config hq' hl.queue_eq hl.config_eq).made m₀ hm₀
            exact ⟨_, inMemory_eq hq' hl.queue_eq, hkind.symm.trans (memoryQueue_kind rfl hmade hm₀)⟩
          · rw [Queue.memoryQueue_unknown hunknown] at hmade; cases hmade
        · exact h.kinds n p hp
  | roundRobinState nodes =>
    unfold restoreItem at hs
    cases hn : st.q with
    | none => rw [hn] at hs; cases hs; exact ⟨h, current, hcur, hof⟩
    | some n =>
      rw [hn] at hs
      obtain ⟨q, hq, hs⟩ := Option.bind_eq_some_iff.mp hs
      cases hs
      refine ⟨h.put hres rfl hq (.refl _ _) fun m' config' hm' hc' => ?_, current, hn ▸ hcur, hof⟩
      have hc' : q.config = some config' := by
        revert hc'
        unfold Queue.restoreRoundRobinState
        split <;> exact id
      unfold Queue.restoreRoundRobinState at hm'
      split at hm'
      · rename_i queue hqueue
        cases hm'
        obtain ⟨hfit, hgroups, hmade⟩ := h.steady.filed n q _ config' hq hqueue hc'
        exact ⟨⟨_, hqueue, rfl⟩, (FairRoundRobinQueue.Inv.restoreSchedulingState nodes hfit).1, hgroups, hmade⟩
      · exact ⟨⟨m', hm', rfl⟩, h.steady.filed n q m' config' hq hm' hc'⟩
  | message msg =>
    obtain ⟨n, hn, hs⟩ := Option.bind_eq_some_iff.mp hs
    obtain ⟨q, hq, hs⟩ := Option.bind_eq_some_iff.mp hs
    obtain ⟨⟨r, q', store⟩, hm, hs⟩ := Option.bind_eq_some_iff.mp hs
    cases hs
    refine ⟨?_, current, hn ▸ hcur, hof.2⟩
    obtain ⟨config, _, hserved⟩ := h.steady.safe.queue n q hq
    rcases hserved with ⟨_, m, hl⟩ | ⟨_, hi⟩
    · obtain ⟨p, hp, hk⟩ := h.kinds n _ (inMemory_eq hq hl.queue_eq)
      have hgroup : MemoryQueue.Accepts m.kind (Queue.groupFor config msg.group) := accepts_of_good fun hkind =>
        groupFor_good (hscan n p hp (hk.trans hkind) msg (hof.1 n (hcur n hn)))
      have hfiled := h.steady.filed n q m config hq hl.queue_eq hl.config_eq
      obtain ⟨rfl, m', hl', hback⟩ := (hl.restoredAny _ msg _).result hm
      obtain ⟨hfit, hkind⟩ := TakesBack.fit hback rfl hfiled.fit hgroup
      refine h.put hres rfl hq (.insert ..) fun m₁ config₁ hm₁ hc₁ => ?_
      cases hl'.queue_eq.symm.trans hm₁
      cases hl'.config_eq.symm.trans hc₁
      exact ⟨⟨m, hl.queue_eq, hkind.symm⟩, hfit, hkind ▸ hfiled.groups.insert hgroup,
        fun m₀ hm₀ => (hfiled.made m₀ hm₀).trans hkind.symm⟩
    · rw [hi.putBack] at hm; cases hm

theorem Refilled.items {items : List SnapshotItem} {st st' : Restoring} {current : Option String} (h : Refilled f st)
    (hf : Steady f) (hscan : ScansGood f) (hcur : ∀ n ∈ st.q, n ∈ current) (hof : ItemsOf f current items)
    (hs : items.foldlM restoreItem st = some st') : Steady st'.fsm := by
  induction items generalizing st current with
  | nil => cases hs; exact h.steady
  | cons item items ih =>
    rw [List.foldlM_cons] at hs
    obtain ⟨st₁, h₁, hs⟩ := Option.bind_eq_some_iff.mp hs
    obtain ⟨h', current', hcur', hof'⟩ := h.item hf hscan hcur hof h₁
    exact ih h' hcur' hof' hs

/-- An item of the block of a current queue. -/
def PartOf (f : FSM) (current : Option String) : SnapshotItem → Prop
  | .queue _ => False
  | .message msg => ∀ n ∈ current, msg ∈ f.queueManager.store.scan n
  | _ => True

theorem itemsOf_append {current : Option String} {items rest : List SnapshotItem} (h : ∀ item ∈ items, PartOf f current item)
    (hrest : ItemsOf f current rest) : ItemsOf f current (items ++ rest) := by
  induction items with
  | nil => exact hrest
  | cons item items ih =>
    have hitem := h item List.mem_cons_self
    have htail := ih fun item hmem => h item (List.mem_cons_of_mem _ hmem)
    cases item with
    | queue config => exact hitem.elim
    | message msg => exact ⟨hitem, htail⟩
    | leaderConfiguration => exact htail
    | unackedMessage => exact htail
    | roundRobinState => exact htail

theorem itemsOf_block {current : Option String} {state : SnapshotState} {rest : List SnapshotItem}
    (hc : f.queueManager.store.queues.lookup config.name = some config) (hrest : ∀ current, ItemsOf f current rest) :
    ItemsOf f current (block config state (f.queueManager.store.scan config.name) ++ rest) := by
  unfold block
  rw [List.cons_append, List.cons_append, List.cons_append]
  refine ⟨hc, itemsOf_append (fun item hmem => ?_) (hrest _)⟩
  simp only [List.mem_append, List.mem_map] at hmem
  rcases hmem with (⟨u, _, rfl⟩ | ⟨msg, hmsg, rfl⟩) | ⟨nodes, _, rfl⟩
  · trivial
  · intro n hn
    cases hn
    exact hmsg
  · trivial

theorem Safe.itemsOf {names : List String} {items : List SnapshotItem} (h : Safe f) (hp : f.persist names = some items) :
    ItemsOf f none items := by
  obtain ⟨blocks, hblocks, hitems⟩ := Option.bind_eq_some_iff.mp hp
  cases hitems
  have hall : ∀ items ∈ blocks, ∃ config state, f.queueManager.store.queues.lookup config.name = some config ∧
      items = block config state (f.queueManager.store.scan config.name) := by
    intro items hitems
    obtain ⟨n, _, hn⟩ := of_mem_mapM hblocks hitems
    obtain ⟨q, hq, _⟩ := Option.bind_eq_some_iff.mp hn
    obtain ⟨config, state, hc, hserved, _, hblock⟩ := h.persistQueue hq
    rw [hn, Option.some.injEq] at hblock
    exact ⟨config, state, hserved.name_eq ▸ hc, hserved.name_eq ▸ hblock⟩
  show ItemsOf f none blocks.flatten
  clear hblocks hp
  generalize none = current
  induction blocks generalizing current with
  | nil => trivial
  | cons items blocks ih =>
    obtain ⟨config, state, hc, rfl⟩ := hall _ List.mem_cons_self
    exact itemsOf_block hc fun current => ih (fun items hmem => hall items (List.mem_cons_of_mem _ hmem)) current

theorem Steady.restore {prior : FSM} {names : List String} {items : List SnapshotItem} (h : Steady f) (hscan : ScansGood f)
    (hprior : Safe prior) (hp : f.persist names = some items) (hr : prior.restore items = some f') : Steady f' := by
  rw [hprior.restore_eq] at hr
  obtain ⟨st, hst, rfl⟩ := Option.map_eq_some_iff.mp hr
  have hempty : Refilled f prior.emptied :=
    ⟨emptied_resumable prior, ⟨(emptied_resumable prior).safe, fun _ _ _ _ hq => (nomatch hq)⟩, fun _ _ hp => (nomatch hp)⟩
  exact hempty.items h hscan (fun _ hn => (nomatch hn)) (h.safe.itemsOf hp) hst

/-- Each channel is closed when its queue is stopped. -/
theorem Safe.restore_closes {items : List SnapshotItem} {stopped : List (String × Queue)} (h : Safe f)
    (hr : f.restoreStopping items = some (stopped, f')) (hq : f.queueManager.queues.lookup name = some q) :
    ∃ q', (name, q') ∈ stopped ∧ q.notifyCh < q'.notifyCh := by
  rw [h.restoreStopping_eq] at hr
  obtain ⟨st, _, he⟩ := Option.map_eq_some_iff.mp hr
  cases he
  exact ⟨_, List.mem_map_of_mem (FinMap.mem_entries.mpr hq), Nat.lt_succ_self _⟩

/-! ## Every life -/

section Lives

variable {cfg : Config} {leaderConfig : LeaderConfig} {history : List (Event FSM Happening (Option Reply))}

/-- What the life of a node has to respect: the groups that round-robin queues are given. -/
def Orderly (f : FSM) : Happening → Prop
  | .entry entry => EnqueuesGood f entry
  | .restore prior _ => Safe prior ∧ ScansGood f

theorem Lives.steady (r : Lives (new cfg leaderConfig) history f) (hgood : ∀ e ∈ history, Orderly e.before e.input) :
    Steady f := by
  refine r.keeps (I := Steady) (fun e he hs hI => ?_) (new_steady cfg leaderConfig)
  have hgood := hgood e he
  obtain ⟨before, input, output, after⟩ := e
  cases input with
  | entry entry =>
    obtain ⟨r, hr, heq⟩ := Option.map_eq_some_iff.mp hs
    cases heq
    exact hI.step hgood hr
  | restore prior names =>
    obtain ⟨items, hitems, hs⟩ := Option.bind_eq_some_iff.mp hs
    obtain ⟨f', hf', hs⟩ := Option.bind_eq_some_iff.mp hs
    cases hs
    exact hI.restore hgood.2 hgood.1 hitems hf'

/-- In every state a node reaches: which entries wake the consumers of a queue they make ready,
    what a restore does to the channels, and what a waiting consumer can miss. -/
theorem wakes_iff (r : Lives (new cfg leaderConfig) history f) (hgood : ∀ e ∈ history, Orderly e.before e.input) :
    (∀ entry reply f', EnqueuesGood f entry → f.apply entry = some (reply, f') → ∀ name clock,
      Wakes name clock f f' ↔ ¬ Opens name clock f entry) ∧
    (∀ items stopped f', f.restoreStopping items = some (stopped, f') → ∀ name q,
      f.queueManager.queues.lookup name = some q → ∃ q', (name, q') ∈ stopped ∧ q.notifyCh < q'.notifyCh) ∧
    ∀ later g, Runs f later g → ∀ name clock, (∀ e ∈ later, EnqueuesGood e.before e.input ∧
        e.input.command ≠ .deleteQueue name ∧ ¬ Opens name clock e.before e.input) →
      ∀ q, f.queueManager.queues.lookup name = some q → ¬ q.Ready clock →
      ∃ q', g.queueManager.queues.lookup name = some q' ∧
        (q.notifyCh < q'.notifyCh ∨ q'.notifyCh = q.notifyCh ∧ ¬ q'.Ready clock) := by
  have h := r.steady hgood
  refine ⟨fun entry reply f' hentry hs name clock => h.wakes hentry hs name clock,
    fun _ _ _ hr _ _ hq => h.safe.restore_closes hr hq, ?_⟩
  intro later g hrun name clock hlater q hq hidle
  exact h.waits hrun (fun e he => (hlater e he).1) (fun e he => (hlater e he).2.1) (fun e he => (hlater e he).2.2) hq hidle

/-- A limit of one, two messages of a group, and one of them in flight; next to it a delayed
    queue, where a message needs no group. -/
def fullGroup : List Entry :=
  [⟨1, 0, .createQueue "jobs" "fair" ⟨.roundRobin, 1, 60, 0⟩⟩, ⟨2, 0, .enqueue "jobs" 1 "a" 0 "" none⟩,
    ⟨3, 0, .enqueue "jobs" 2 "a" 0 "" none⟩, ⟨4, 0, .dequeue "jobs" false⟩, ⟨5, 0, .createQueue "mail" "delayed" plain⟩,
    ⟨6, 0, .enqueue "mail" 3 "" 9 "" none⟩]

theorem fullGroup_runs : (exec apply (new defaults (.new "n1" "" "")) fullGroup).isSome := rfl

def fullGroupState : FSM := ((exec apply (new defaults (.new "n1" "" "")) fullGroup).get fullGroup_runs).2

/-- What `PeekReady` says at a reading of the clock, and how many channels were closed. -/
def watched (f : FSM) (name : String) (clock : Int) : Option (Option (Bool × Int) × Nat) :=
  (f.queueManager.queues.lookup name).map fun q => (q.peekReady clock, q.notifyCh)

/-- A failed delivery without a limit takes nothing. -/
theorem fullGroup_nack_keeps : ¬ Opens "jobs" 0 fullGroupState ⟨7, 0, .nack "jobs" 1 0 none⟩ := by
  rintro ⟨q, config, m, hq, hc, _, _, hopens⟩
  have hrun : Runs _ _ fullGroupState := Run.of_exec_isSome fullGroup_runs
  obtain ⟨config', hstored, hserved⟩ := hrun.safe.queue "jobs" q hq
  cases hc.symm.trans hserved.config_eq
  have hlimit : config.settings.deliveryLimit = 0 := by
    obtain rfl : ⟨"jobs", "fair", ⟨.roundRobin, 1, 60, 0⟩⟩ = config := Option.some.inj hstored
    rfl
  have hloss : fullGroupState.lossOf "jobs" q config m ⟨7, 0, .nack "jobs" 1 0 none⟩ = .nothing := by
    show q.lostByFailure config fullGroupState.queueManager.store 1 = .nothing
    unfold Queue.lostByFailure
    split
    · split
      · rfl
      · rw [hlimit]; rfl
    · rfl
  rw [hloss] at hopens
  exact hopens

/-- The nack makes the queue ready, and the channel is closed. -/
theorem wakes_nacked : ∃ reply f', fullGroupState.apply ⟨7, 0, .nack "jobs" 1 0 none⟩ = some (reply, f') ∧
    fullGroupState.watched "jobs" 0 = some (some (false, 0), 2) ∧ f'.watched "jobs" 0 = some (some (true, 0), 3) ∧
    Wakes "jobs" 0 fullGroupState f' := by
  have hrun : Runs _ _ fullGroupState := Run.of_exec_isSome fullGroup_runs
  have hgood : ∀ e ∈ ((exec apply (new defaults (.new "n1" "" "")) fullGroup).get fullGroup_runs).1,
      EnqueuesGood e.before e.input := by
    decide +kernel
  have hnack : EnqueuesGood fullGroupState ⟨7, 0, .nack "jobs" 1 0 none⟩ := by decide +kernel
  refine ⟨_, _, rfl, by decide +kernel, by decide +kernel, ((wakes_iff hrun.lives ?_).1 _ _ _ hnack rfl "jobs" 0).mpr
    fullGroup_nack_keeps⟩
  intro e he
  obtain ⟨a, ha, rfl⟩ := List.mem_map.mp he
  exact hgood a ha

/-- The ack gives back the slot, and the second message is ready. The channel that was open
    before it is open after it. -/
theorem ack_wakes_nobody :
    fullGroupState.watched "jobs" 0 = some (some (false, 0), 2) ∧
      (fullGroupState.apply ⟨7, 0, .ack "jobs" 1⟩).map (fun r => r.2.watched "jobs" 0) = some (some (some (true, 0), 2)) := by
  decide +kernel

end Lives

end FSM

end Doq
