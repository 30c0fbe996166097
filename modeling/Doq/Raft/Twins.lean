/-
  Doq.Raft.Twins — two states that answer every entry alike (see `Doq.Raft.Track`).

  `Twins cfg K f g` says that the two states have the same queues, of the kinds in `K` (which
  may be all kinds), and that each is on both sides the same broker up to its memory queue,
  where the two cannot be told apart (`Doq.Memory.MemoryQueueTwins`). The broker is also
  `Lasting`: what it keeps in memory follows from its configuration and its records, up to the
  rotation of a round-robin queue. That is why the entries (`Keeps`) update no weighted queue,
  whose weights an update leaves as they are, and no delayed one, whose settings could then
  not be restored.

  Proved: `Twins.step`, an entry gets the same reply from both and leaves twins.
-/

import Doq.Memory.MemoryQueueTwins
import Doq.Raft.Resume

namespace Doq

open Lib Memory Storage

/-! ## Brokers -/

/-- The same messages under the same configuration, and memory queues that cannot be told apart. -/
structure Broker.Alike (b b' : Broker) : Prop where
  config : b'.config = b.config
  records : b'.records = b.records
  memory : b.memory.Alike b'.memory

namespace Broker.Alike

variable {name : String} {b b' b₁ b₁' : Broker} {q : Queue} {store : Store} {id : UInt64} {msg : Message} {d : Int}

theorem symm (h : b.Alike b') : b'.Alike b := ⟨h.config.symm, h.records.symm, h.memory.symm⟩

theorem put {m m' : MemoryQueue} (h : b.Alike b') (hm : m.Alike m') (id : UInt64) (record : Option Record) :
    (b.put id record m).Alike (b'.put id record m') :=
  ⟨h.config, by simp only [Broker.put, h.records], hm⟩

/-- The slot of a message in flight. -/
theorem release {m m' m₁ m₁' : MemoryQueue} {group : String} (h : b.Alike b') (hm : m.Alike m')
    (hpos : b.config.type = "fair" → 0 < m.unacked group) (hr : b.release m group = some m₁)
    (hr' : b'.release m' group = some m₁') :
    m₁.Alike m₁' := by
  unfold Broker.release at hr hr'
  rw [h.config] at hr'
  split at hr
  · rename_i ht
    rw [if_pos ht] at hr'
    exact hm.updateWeights (Or.inr (hpos ht)) hr hr'
  · rename_i ht
    rw [if_neg ht] at hr'
    cases hr; cases hr'
    exact hm

/-- The message goes once its slot is released. -/
theorem dropped (h : b.Alike b') (href : Refines name b q store) (hrec : b.records id = some ⟨msg, .inFlight d⟩)
    {r r' : Except Err Unit}
    (hx : (do let m ← b.release b.memory msg.group; some ((.ok () : Except Err Unit), b.put id none m)) = some (r, b₁))
    (hx' : (do let m ← b'.release b'.memory msg.group; some ((.ok () : Except Err Unit), b'.put id none m)) = some (r', b₁')) :
    r' = r ∧ b₁.Alike b₁' := by
  obtain ⟨m, hm, hx⟩ := Option.bind_eq_some_iff.mp hx
  obtain ⟨m', hm', hx'⟩ := Option.bind_eq_some_iff.mp hx'
  cases hx; cases hx'
  exact ⟨rfl, h.put (h.release h.memory (href.unacked_pos hrec) hm hm') id none⟩

theorem enqueue (h : b.Alike b') (href : Refines name b q store) (hnew : b.records id = none) {group : String}
    (hg : MemoryQueue.Accepts b.memory.kind (Queue.groupFor b.config group)) {priority : Int} {content : String}
    {metadata : Option Metadata}
    {r r' : Except Err Message} (hx : b.enqueue id group priority content metadata = some (r, b₁))
    (hx' : b'.enqueue id group priority content metadata = some (r', b₁')) : r' = r ∧ b₁.Alike b₁' := by
  obtain ⟨m, hm, hx⟩ := Option.bind_eq_some_iff.mp hx
  obtain ⟨m', hm', hx'⟩ := Option.bind_eq_some_iff.mp hx'
  rw [h.config] at hm' hx'
  cases hx; cases hx'
  exact ⟨rfl, h.put (h.memory.enqueue hg rfl (href.not_ready (by rw [hnew]; rfl)) hm hm') id _⟩

theorem dequeue (h : b.Alike b') {ack : Bool} {seed : UInt64} {now : Int} {r r' : Except Err Message}
    (hx : b.dequeue ack seed now = some (r, b₁)) (hx' : b'.dequeue ack seed now = some (r', b₁')) : r' = r ∧ b₁.Alike b₁' := by
  unfold Broker.dequeue at hx hx'
  rw [h.memory.len] at hx'
  split at hx
  · rename_i h0
    rw [if_pos h0] at hx'
    cases hx; cases hx'
    exact ⟨rfl, h⟩
  · rename_i h0
    rw [if_neg h0] at hx'
    obtain ⟨⟨it, m⟩, hm, hx⟩ := Option.bind_eq_some_iff.mp hx
    obtain ⟨⟨it', m'⟩, hm', hx'⟩ := Option.bind_eq_some_iff.mp hx'
    obtain ⟨rfl, halike⟩ := h.memory.dequeue hm hm'
    cases it' with
    | none => cases hx; cases hx'; exact ⟨rfl, h.config, h.records, halike⟩
    | some it =>
      obtain ⟨record, hr, hx⟩ := Option.bind_eq_some_iff.mp hx
      obtain ⟨record', hr', hx'⟩ := Option.bind_eq_some_iff.mp hx'
      rw [h.records, hr] at hr'; cases hr'
      rw [h.config] at hx'
      cases hx; cases hx'
      exact ⟨rfl, h.put halike it.id _⟩

theorem get (h : b.Alike b') {r r' : Except Err Message} (hx : b.get id = some (r, b₁)) (hx' : b'.get id = some (r', b₁')) :
    r' = r ∧ b₁.Alike b₁' := by
  unfold Broker.get at hx hx'
  rw [h.records] at hx'
  cases hrec : b.records id <;> rw [hrec] at hx hx' <;> cases hx <;> cases hx' <;> exact ⟨rfl, h⟩

theorem delete (h : b.Alike b') (href : Refines name b q store) {r r' : Except Err Unit} (hx : b.delete id = some (r, b₁))
    (hx' : b'.delete id = some (r', b₁')) : r' = r ∧ b₁.Alike b₁' := by
  unfold Broker.delete at hx hx'
  rw [h.records] at hx'
  match hrec : b.records id with
  | none => rw [hrec] at hx hx'; cases hx; cases hx'; exact ⟨rfl, h⟩
  | some ⟨msg, .inFlight d⟩ => rw [hrec] at hx hx'; exact h.dropped href hrec hx hx'
  | some ⟨msg, .ready⟩ =>
    rw [hrec] at hx hx'
    obtain ⟨⟨it, m⟩, hm, hx⟩ := Option.bind_eq_some_iff.mp hx
    obtain ⟨⟨it', m'⟩, hm', hx'⟩ := Option.bind_eq_some_iff.mp hx'
    cases hx; cases hx'
    have hit := href.mem_ready hrec
    have hit' := h.memory.ready ▸ hit
    obtain ⟨rfl, _⟩ := (href.inv.delete_ready hit).result hm
    obtain ⟨rfl, _⟩ := (h.memory.inv'.delete_ready hit').result hm'
    exact ⟨rfl, h.put (h.memory.delete hit hm hm') id none⟩

theorem ack (h : b.Alike b') (href : Refines name b q store) {r r' : Except Err Unit} (hx : b.ack id = some (r, b₁))
    (hx' : b'.ack id = some (r', b₁')) : r' = r ∧ b₁.Alike b₁' := by
  unfold Broker.ack at hx hx'
  rw [h.records] at hx'
  match hrec : b.records id with
  | none => rw [hrec] at hx hx'; cases hx; cases hx'; exact ⟨rfl, h⟩
  | some ⟨msg, .ready⟩ => rw [hrec] at hx hx'; cases hx; cases hx'; exact ⟨rfl, h⟩
  | some ⟨msg, .inFlight d⟩ => rw [hrec] at hx hx'; exact h.dropped href hrec hx hx'

theorem touch (h : b.Alike b') {now : Int} {r r' : Except Err Unit} (hx : b.touch id now = some (r, b₁))
    (hx' : b'.touch id now = some (r', b₁')) : r' = r ∧ b₁.Alike b₁' := by
  unfold Broker.touch at hx hx'
  rw [h.records, h.config] at hx'
  match hrec : b.records id with
  | none => rw [hrec] at hx hx'; cases hx; cases hx'; exact ⟨rfl, h⟩
  | some ⟨msg, .ready⟩ => rw [hrec] at hx hx'; cases hx; cases hx'; exact ⟨rfl, h⟩
  | some ⟨msg, .inFlight d⟩ => rw [hrec] at hx hx'; cases hx; cases hx'; exact ⟨rfl, h.put h.memory id _⟩

theorem updatePriority (h : b.Alike b') (href : Refines name b q store) {priority : Int} {r r' : Except Err Unit}
    (hx : b.updatePriority id priority = some (r, b₁)) (hx' : b'.updatePriority id priority = some (r', b₁')) :
    r' = r ∧ b₁.Alike b₁' := by
  unfold Broker.updatePriority at hx hx'
  rw [h.records] at hx'
  match hrec : b.records id with
  | none => rw [hrec] at hx hx'; cases hx; cases hx'; exact ⟨rfl, h⟩
  | some ⟨msg, status⟩ =>
    rw [hrec] at hx hx'
    obtain ⟨m, hm, hx⟩ := Option.bind_eq_some_iff.mp hx
    obtain ⟨m', hm', hx'⟩ := Option.bind_eq_some_iff.mp hx'
    cases hx; cases hx'
    refine ⟨rfl, h.put ?_ id _⟩
    cases status with
    | ready => exact h.memory.updatePriority_ready (href.mem_ready hrec) hm hm'
    | inFlight d => exact h.memory.updatePriority_none (href.not_ready (by rw [hrec]; rfl)) hm hm'

theorem fail (h : b.Alike b') (href : Refines name b q store) {priority : Int} {metadata : Option Metadata}
    {r r' : Except Err Unit}
    (hx : b.fail id priority metadata = some (r, b₁)) (hx' : b'.fail id priority metadata = some (r', b₁')) :
    r' = r ∧ b₁.Alike b₁' := by
  have hexhausted : ∀ msg, b'.exhausted msg ↔ b.exhausted msg := fun msg => by unfold Broker.exhausted; rw [h.config]
  unfold Broker.fail at hx hx'
  rw [h.records] at hx'
  match hrec : b.records id with
  | none => rw [hrec] at hx hx'; cases hx; cases hx'; exact ⟨rfl, h⟩
  | some ⟨msg, .ready⟩ => rw [hrec] at hx hx'; cases hx; cases hx'; exact ⟨rfl, h⟩
  | some ⟨msg, .inFlight d⟩ =>
    rw [hrec] at hx hx'
    dsimp only at hx hx'
    split at hx
    · rename_i hex
      rw [if_pos ((hexhausted msg).mpr hex)] at hx'
      exact h.dropped href hrec hx hx'
    · rename_i hex
      rw [if_neg fun hex' => hex ((hexhausted msg).mp hex')] at hx'
      obtain ⟨m, hm, hx⟩ := Option.bind_eq_some_iff.mp hx
      obtain ⟨m₁, hm₁, hx⟩ := Option.bind_eq_some_iff.mp hx
      obtain ⟨m', hm', hx'⟩ := Option.bind_eq_some_iff.mp hx'
      obtain ⟨m₁', hm₁', hx'⟩ := Option.bind_eq_some_iff.mp hx'
      cases hx; cases hx'
      have hid : msg.id = id := href.keyed id _ hrec
      have hnot : ∀ it ∈ b.memory.ready, it.id ≠ msg.id := href.not_ready (by rw [hid, hrec]; rfl)
      have hres := (href.inv.enqueue (href.accepts id _ hrec) rfl hnot).result hm
      have halike := h.memory.enqueue (href.accepts id _ hrec) rfl hnot hm hm'
      refine ⟨rfl, h.put (h.release halike (fun ht => ?_) hm₁ hm₁') id _⟩
      exact (hres.unacked msg.group).symm ▸ href.unacked_pos hrec ht

theorem answered {α : Type} {x x' : Go (Outcome α)} {context n : String} {respond : α → FSMResponse}
    {response response' : FSMResponse}
    (hx : x.map (answer context n respond) = some (response, b₁))
    (hx' : x'.map (answer context n respond) = some (response', b₁'))
    (hop : ∀ {r r'}, x = some (r, b₁) → x' = some (r', b₁') → r' = r ∧ b₁.Alike b₁') : response' = response ∧ b₁.Alike b₁' := by
  obtain ⟨r, hr, rfl⟩ := answer_eq hx
  obtain ⟨r', hr', rfl⟩ := answer_eq hx'
  obtain ⟨rfl, halike⟩ := hop hr hr'
  exact ⟨rfl, halike⟩

/-- A command on messages. -/
theorem handle {entry : Entry} {response response' : FSMResponse} (h : b.Alike b') (href : Refines name b q store)
    (hfresh : ∀ id ∈ entry.command.enqueued, b.records id = none)
    (hgroup : ∀ group ∈ entry.command.enqueuedGroup, MemoryQueue.Accepts b.memory.kind (Queue.groupFor b.config group))
    (hh : b.handle entry = some (response, b₁)) (hh' : b'.handle entry = some (response', b₁')) :
    response' = response ∧ b₁.Alike b₁' := by
  unfold Broker.handle at hh hh'
  cases hc : entry.command <;> rw [hc] at hh hh' hfresh hgroup
  case enqueue n id group priority content metadata => exact answered hh hh' (h.enqueue href (hfresh id rfl) (hgroup group rfl))
  case dequeue n ack => exact answered hh hh' h.dequeue
  case get n id => exact answered hh hh' h.get
  case delete n id => exact answered hh hh' (h.delete href)
  case ack n id => exact answered hh hh' (h.ack href)
  case nack n id priority metadata => exact answered hh hh' (h.fail href)
  case touch n id => exact answered hh hh' h.touch
  case ackTimeout n id => exact answered hh hh' (h.fail href)
  case updatePriority n id priority => exact answered hh hh' (h.updatePriority href)
  all_goals cases hh

/-- New settings, where no weights depend on them. -/
theorem update (h : b.Alike b') (hk : b.memory.kind ≠ .fairWeighted) (settings : QueueSettings) :
    (b.update settings).Alike (b'.update settings) :=
  ⟨by simp only [Broker.update, h.config], h.records, h.memory.updateMaxUnacked (Queue.limit_toNat settings.maxUnacked) hk⟩

end Broker.Alike

/-! ## Brokers that last -/

/-- The kind of memory queue behind a queue of type `fair` or `delayed`. -/
def Queue.kindOf (queueType : String) (strategy : Strategy) : MemoryQueue.Kind :=
  if queueType = "fair" then
    match strategy with
    | .weighted => .fairWeighted
    | _ => .fairRoundRobin
  else .delayed

theorem Queue.memoryQueue_kindOf {queueType : String} {settings : QueueSettings} {m : MemoryQueue}
    (ht : queueType = "fair" ∨ queueType = "delayed")
    (hm : Queue.memoryQueue queueType settings = some m) : m.kind = Queue.kindOf queueType settings.strategy := by
  rcases ht with rfl | rfl
  · cases hs : settings.strategy <;> simp only [Queue.memoryQueue, hs] at hm <;> cases hm <;> rfl
  · cases hm; rfl

/-- A broker of a kind in `K`: its queue can be made again from the configuration and the
    records, with the limit it has and, if it is round-robin, with a name for every cursor. -/
structure Broker.Lasting (cfg : Config) (K : MemoryQueue.Kind → Prop) (b : Broker) : Prop extends b.Settled cfg where
  allowed : K b.memory.kind
  type : b.config.type = "fair" ∨ b.config.type = "delayed"
  restorable : Queue.Restorable b.config
  limit : ∀ m, Queue.memoryQueue b.config.type b.config.settings = some m → m.maxUnacked = b.memory.maxUnacked
  components : b.memory.kind = .fairRoundRobin → ∀ id r, b.records id = some r → "" ∉ Dotted.split r.message.group

namespace Broker.Lasting

variable {name : String} {cfg : Config} {K : MemoryQueue.Kind → Prop} {b b' : Broker} {q : Queue} {store : Store}
  {entry : Entry} {response : FSMResponse} {settings settings' : QueueSettings}

theorem alike (h : b.Lasting cfg K) (ha : b.Alike b') : b'.Lasting cfg K := by
  obtain ⟨hsettled, hallowed, htype, hrest, hlimit, hcomp⟩ := h
  obtain ⟨hformed, hknown, hkind, hgroups⟩ := hsettled
  obtain ⟨hc, hr, hm⟩ := ha
  rw [← hc] at hformed hknown hkind hgroups htype hrest hlimit
  rw [← hr] at hgroups hcomp
  rw [← hm.kind] at hkind hallowed hcomp
  rw [← hm.max] at hlimit
  exact ⟨⟨hformed, hknown, hkind, hgroups⟩, hallowed, htype, hrest, hlimit, hcomp⟩

theorem handled (h : b.Lasting cfg K) (href : Refines name b q store)
    (hcomp : b.memory.kind = .fairRoundRobin → ∀ group ∈ entry.command.enqueuedGroup, "" ∉ Dotted.split group)
    (hh : b.handle entry = some (response, b')) : b'.Lasting cfg K := by
  obtain ⟨hconf, hd⟩ := href.did hh
  have hkind : b'.memory.kind = b.memory.kind := href.handle_closed (MemoryQueue.kind_closed b.memory.kind) rfl hh
  refine ⟨h.toSettled.handled href hh, hkind.symm ▸ h.allowed, hconf.symm ▸ h.type, hconf.symm ▸ h.restorable, fun m hm => ?_,
    fun hk id r hr => ?_⟩
  · rw [hconf] at hm
    exact (h.limit m hm).trans (href.handle_closed (MemoryQueue.maxUnacked_closed b.memory.maxUnacked) rfl hh).symm
  · rw [hkind] at hk
    cases hd.origin hr with
    | kept hb => exact h.components hk id r hb
    | enqueued group _ _ _ _ hx _ hg =>
      rw [hx]
      show "" ∉ Dotted.split (Queue.groupFor b.config group)
      unfold Queue.groupFor
      split
      · decide
      · exact hcomp hk group hg
    | delivered _ msg _ hb hx _ _ => rw [hx]; exact (h.components hk id _ hb :)
    | requeued msg _ _ _ _ _ hb hx _ => rw [hx]; exact (h.components hk id _ hb :)
    | changed r₀ hb hgroup _ _ => rw [hgroup]; exact h.components hk id r₀ hb

theorem restorable_timeout {config : QueueConfig} (h10 : 10 ≤ cfg.defaultAckTimeout) (hf : Queue.Formed cfg config)
    (hd : config.type = "delayed" → config.settings.maxUnacked = 0) : Queue.Restorable config :=
  ⟨hd, Or.inr (hf.timeout.elim (fun e => e ▸ h10) id)⟩

theorem created {queueType : String} {m : MemoryQueue} (h10 : 10 ≤ cfg.defaultAckTimeout)
    (ht : queueType = "fair" ∨ queueType = "delayed")
    (ha : Queue.newSettings cfg queueType settings = .ok settings') (hm : Queue.memoryQueue queueType settings' = some m)
    (hK : K (Queue.kindOf queueType settings.strategy)) : Lasting cfg K ⟨⟨name, queueType, settings'⟩, fun _ => none, m⟩ := by
  have hsettled : Settled cfg ⟨⟨name, queueType, settings'⟩, fun _ => none, m⟩ := .created ha hm
  obtain ⟨htype, t, rfl⟩ := Queue.newSettings_ok ha
  have hmax : queueType = "delayed" → settings.maxUnacked = 0 := by
    rintro rfl
    unfold Queue.checkType at htype
    simp only [if_true] at htype
    split at htype
    · cases htype
    · split at htype
      · cases htype
      · rename_i h0; exact not_not.mp h0
  refine ⟨hsettled, ?_, ht, restorable_timeout h10 hsettled.formed hmax, fun m' hm' => ?_, fun _ _ _ hr => (nomatch hr)⟩
  · rw [Queue.memoryQueue_kindOf ht hm]; exact hK
  · rw [hm] at hm'; cases hm'; rfl

theorem updated (h : b.Lasting cfg K) (h10 : 10 ≤ cfg.defaultAckTimeout) (hk : b.memory.kind = .fairRoundRobin)
    (ha : Queue.changedSettings cfg b.config settings = .ok settings') : (b.update settings').Lasting cfg K := by
  have hsettled := h.toSettled.updated ha
  have hkind : (b.update settings').memory.kind = b.memory.kind := by
    show (b.memory.updateMaxUnacked _).kind = _
    cases b.memory <;> rfl
  have hfair : b.config.type ≠ "delayed" := fun hd => by
    obtain ⟨m, hm, _⟩ := Queue.memoryQueue_known h.known b.config.settings
    have := (Queue.memoryQueue_kindOf h.type hm).symm.trans ((h.kind m hm).trans hk)
    rw [hd] at this; cases this
  refine ⟨hsettled, hkind.symm ▸ h.allowed, h.type, restorable_timeout h10 hsettled.formed fun hd => absurd hd hfair,
    fun m hm => ?_,
    fun _ => h.components hk⟩
  obtain ⟨q, hq⟩ := MemoryQueue.eq_of_kind hk
  obtain ⟨q', rfl⟩ := MemoryQueue.eq_of_kind ((hsettled.kind m hm).trans (hkind.trans hk))
  show q'.maxUnacked = (b.memory.updateMaxUnacked _).maxUnacked
  rw [hq]
  have hnew : q' = .new settings'.maxUnacked.toNat := by
    have hm : Queue.memoryQueue b.config.type settings' = some (.fairRoundRobin q') := hm
    rw [h.type.resolve_right hfair] at hm
    cases hs : settings'.strategy <;> simp only [Queue.memoryQueue, hs] at hm <;> cases hm <;> rfl
  rw [hnew]
  exact (FairRoundRobinQueue.foldl_refresh_frame _
    { q with maxUnacked := FairRoundRobinQueue.limitOf settings'.maxUnacked.toNat }).max.symm

end Broker.Lasting

/-! ## States -/

theorem Command.target_of_queueName {command : Command} {n : String} (h : command.queueName = some n) :
    command.target = some n := by
  cases command <;> first | exact h | cases h

namespace FSM

variable {cfg : Config} {K : MemoryQueue.Kind → Prop} {f f' g g' : FSM} {name : String} {entry : Entry} {reply : Reply}

/-- The type and the settings of a new queue. -/
def createdQueue : Command → Option (String × QueueSettings)
  | .createQueue _ queueType settings => some (queueType, settings)
  | _ => none

/-- The queue whose settings a command changes. -/
def updatedQueue : Command → Option String
  | .updateQueue name _ => some name
  | _ => none

/-- What an entry must respect for twins to stay twins. -/
structure Keeps (K : MemoryQueue.Kind → Prop) (f : FSM) (entry : Entry) : Prop where
  named : ∀ n ∈ entry.command.target, ':' ∉ n.toList
  fresh : ∀ n ∈ entry.command.queueName, ∀ id ∈ entry.command.enqueued, f.queueManager.store.messages.lookup (n, id) = none
  group : ∀ n ∈ entry.command.queueName, ∀ p ∈ f.inMemory n, K p.1.kind → p.1.kind = .fairRoundRobin →
    ∀ group ∈ entry.command.enqueuedGroup, "" ∉ Dotted.split group
  created : ∀ q ∈ createdQueue entry.command, (q.1 = "fair" ∨ q.1 = "delayed") ∧ K (Queue.kindOf q.1 q.2.strategy)
  updated : ∀ n ∈ updatedQueue entry.command, ∀ p ∈ f.inMemory n, K p.1.kind → p.1.kind = .fairRoundRobin

instance (K : MemoryQueue.Kind → Prop) [DecidablePred K] (f : FSM) (entry : Entry) : Decidable (Keeps K f entry) :=
  decidable_of_iff
    ((∀ n ∈ entry.command.target, ':' ∉ n.toList) ∧
      (∀ n ∈ entry.command.queueName, ∀ id ∈ entry.command.enqueued, f.queueManager.store.messages.lookup (n, id) = none) ∧
      (∀ n ∈ entry.command.queueName, ∀ p ∈ f.inMemory n, K p.1.kind → p.1.kind = .fairRoundRobin →
        ∀ group ∈ entry.command.enqueuedGroup, "" ∉ Dotted.split group) ∧
      (∀ q ∈ createdQueue entry.command, (q.1 = "fair" ∨ q.1 = "delayed") ∧ K (Queue.kindOf q.1 q.2.strategy)) ∧
      ∀ n ∈ updatedQueue entry.command, ∀ p ∈ f.inMemory n, K p.1.kind → p.1.kind = .fairRoundRobin)
    ⟨fun h => ⟨h.1, h.2.1, h.2.2.1, h.2.2.2.1, h.2.2.2.2⟩, fun h => ⟨h.named, h.fresh, h.group, h.created, h.updated⟩⟩

/-- The queue `name` is missing in both states, or the same lasting broker in both. -/
inductive Same (cfg : Config) (K : MemoryQueue.Kind → Prop) (name : String) (f g : FSM) : Prop
  | missing (hf : f.queueManager.queues.lookup name = none) (hg : g.queueManager.queues.lookup name = none)
  | present (b b' : Broker) (hf : Tracks name (some b) f) (hg : Tracks name (some b') g) (h : b.Alike b') (hb : b.Lasting cfg K)
      (hn : ':' ∉ name.toList)

theorem Same.symm (h : Same cfg K name f g) : Same cfg K name g f := by
  cases h with
  | missing hf hg => exact .missing hg hf
  | present b b' hf hg h hb hn => exact .present b' b hg hf h.symm (hb.alike h) hn

structure Twins (cfg : Config) (K : MemoryQueue.Kind → Prop) (f g : FSM) : Prop where
  safe : Safe f
  safe' : Safe g
  config : f.queueManager.config = cfg
  config' : g.queueManager.config = cfg
  queue : ∀ name, Same cfg K name f g

theorem Twins.symm (h : Twins cfg K f g) : Twins cfg K g f :=
  ⟨h.safe', h.safe, h.config', h.config, fun name => (h.queue name).symm⟩

theorem twins_new (cfg : Config) (K : MemoryQueue.Kind → Prop) (leaderConfig : LeaderConfig) :
    Twins cfg K (new cfg leaderConfig) (new cfg leaderConfig) :=
  ⟨new_safe cfg leaderConfig, new_safe cfg leaderConfig, rfl, rfl, fun _ => .missing rfl rfl⟩

/-- Messages are stored under the names of queues only. -/
theorem Twins.named (h : Twins cfg K f g) {key : String × UInt64} (hk : key ∈ f.queueManager.store.messages.keys) :
    ':' ∉ key.1.toList := by
  cases h.queue key.1 with
  | present _ _ _ _ _ _ hn => exact hn
  | missing hf _ =>
    have hnone := (h.safe.missing key.1 hf).2 key.2
    obtain ⟨msg, hm⟩ := Option.isSome_iff_exists.mp (AList.lookup_isSome.mpr (AList.mem_keys.mpr hk))
    rw [hm] at hnone; cases hnone

theorem Tracks.memory {b : Broker} (h : Tracks name (some b) f) {p : MemoryQueue × DelayedQueue}
    (hp : p ∈ f.inMemory name) : p.1 = b.memory := by
  obtain ⟨q, hmem, _⟩ := h.inMemory
  rw [hmem] at hp
  cases hp
  rfl

theorem Keeps.admits (h : Keeps K f entry) (ht : Twins cfg K f g) (name : String) : Admits name f entry where
  fresh he := h.fresh name he
  group he group hg p hp hkind := by
    cases ht.queue name with
    | missing hf _ => simp only [inMemory, hf, Option.bind_eq_bind, Option.bind_none, Option.mem_def, reduceCtorEq] at hp
    | present b b' hf _ _ hb _ =>
      have hcomp := h.group name he p hp (hf.memory hp ▸ hb.allowed) hkind group hg
      exact Dotted.of_head?_split_ne_empty fun e => hcomp (List.mem_of_mem_head? e)
  spares n hn hne key hk hkey := by
    have ha : ':' ∉ n.toList := by
      refine h.named n ?_
      cases hc : entry.command <;> rw [hc] at hn <;> cases hn
      rfl
    refine Bool.eq_false_iff.mpr fun hs => hne ?_
    rw [← (scanned_iff ha (ht.named hk)).mp hs, hkey]

/-- Twins store the same messages. -/
theorem Twins.stored (h : Twins cfg K f g) (name : String) (id : UInt64) :
    g.queueManager.store.messages.lookup (name, id) = f.queueManager.store.messages.lookup (name, id) := by
  cases h.queue name with
  | missing hf hg => rw [(h.safe.missing name hf).2, (h.safe'.missing name hg).2]
  | present b b' hf hg halike =>
    obtain ⟨q, _, _, href⟩ := hf.present b rfl
    obtain ⟨q', _, _, href'⟩ := hg.present b' rfl
    rw [href.stored, href'.stored, halike.records]

/-- Twins have queues of the same kinds. -/
theorem Twins.kind (h : Twins cfg K f g) {p : MemoryQueue × DelayedQueue} (hp : p ∈ g.inMemory name) :
    ∃ p' ∈ f.inMemory name, p'.1.kind = p.1.kind := by
  cases h.queue name with
  | missing _ hg => simp only [inMemory, hg, Option.bind_eq_bind, Option.bind_none, Option.mem_def, reduceCtorEq] at hp
  | present b b' hf hg halike _ _ =>
    obtain ⟨q, hmem, _⟩ := hf.inMemory
    exact ⟨_, hmem, by rw [hg.memory hp, halike.memory.kind]⟩

/-- The same entry is fit for both. -/
theorem Keeps.twin (h : Keeps K f entry) (ht : Twins cfg K f g) : Keeps K g entry where
  named := h.named
  fresh n hn id hid := (ht.stored n id).trans (h.fresh n hn id hid)
  group n hn p hp hK hk := by
    obtain ⟨p', hp', he⟩ := ht.kind hp
    exact h.group n hn p' hp' (he ▸ hK) (he.trans hk)
  created := h.created
  updated n hn p hp hK := by
    obtain ⟨p', hp', he⟩ := ht.kind hp
    exact he.symm.trans (h.updated n hn p' hp' (he ▸ hK))

/-! ## One entry -/

theorem Tracks.unnamed {ob : Option Broker} (h : Tracks name ob f) (ha : Admits name f entry)
    (hs : f.apply entry = some (reply, f'))
    (hne : entry.command.target ≠ some name) : Tracks name ob f' := by
  obtain ⟨ob', hm, h'⟩ := Tracks.step (e := ⟨f, entry, reply, f'⟩) h hs ha
  cases hm with
  | aside => exact h'
  | handled _ _ _ he => exact (hne (Command.target_of_queueName he)).elim
  | created _ _ _ _ he =>
    have he : entry.command = _ := he
    exact (hne (by rw [he]; rfl)).elim
  | updated _ _ _ he =>
    have he : entry.command = _ := he
    exact (hne (by rw [he]; rfl)).elim
  | deleted _ he =>
    have he : entry.command = _ := he
    exact (hne (by rw [he]; rfl)).elim

theorem Safe.unnamed (h : Safe f) (hs : f.apply entry = some (reply, f')) (hne : entry.command.target ≠ some name)
    (hq : f.queueManager.queues.lookup name = none) : f'.queueManager.queues.lookup name = none := by
  cases h.seen hs name with
  | elsewhere _ hq' => rw [hq', hq]
  | refused _ hf => rw [hf]; exact hq
  | handled _ _ _ _ he => exact (hne (Command.target_of_queueName he)).elim
  | created _ _ _ he => exact (hne (by rw [he]; rfl)).elim
  | updated _ _ _ _ _ he => exact (hne (by rw [he]; rfl)).elim
  | deleted he => exact (hne (by rw [he]; rfl)).elim

/-- A queue the entry does not name. -/
theorem Twins.unnamed (h : Twins cfg K f g) (hk : Keeps K f entry) (hs : f.apply entry = some (reply, f'))
    (hs' : g.apply entry = some (reply, g'))
    (hne : entry.command.target ≠ some name) : Same cfg K name f' g' := by
  cases h.queue name with
  | missing hf hg => exact .missing (h.safe.unnamed hs hne hf) (h.safe'.unnamed hs' hne hg)
  | present b b' hf hg halike hb hn =>
    exact .present b b' (hf.unnamed (hk.admits h name) hs hne) (hg.unnamed ((hk.twin h).admits h.symm name) hs' hne) halike hb hn

/-- A command on the messages of one queue. -/
theorem Twins.message (h : Twins cfg K f g) (hk : Keeps K f entry) (hs : f.apply entry = some (reply, f'))
    (he : entry.command.queueName = some name) :
    ∃ g', g.apply entry = some (reply, g') ∧ Same cfg K name f' g' := by
  cases h.queue name with
  | missing hf hg =>
    rw [apply_missing he hf (h.safe.missing name hf).1] at hs
    cases hs
    exact ⟨g, apply_missing he hg (h.safe'.missing name hg).1, h.queue name⟩
  | present b b' hf hg halike hlast hn =>
    have ha := hk.admits h name
    obtain ⟨q, _, _, href⟩ := hf.present b rfl
    obtain ⟨b₁, response, hr, hb, _, _, hf₁⟩ := (hf.answers entry ha he).result hs
    obtain ⟨⟨_, g'⟩, hs', b₁', response', rfl, hb', _, _, hg₁⟩ := hg.answers entry ((hk.twin h).admits h.symm name) he
    obtain ⟨hfresh, hgroup⟩ := hf.enqueues ha he
    obtain ⟨rfl, halike'⟩ := halike.handle href hfresh hgroup hb hb'
    have hr : reply = _ := hr
    have hcomp : b.memory.kind = .fairRoundRobin → ∀ group ∈ entry.command.enqueuedGroup, "" ∉ Dotted.split group := by
      obtain ⟨q, hmem, _⟩ := hf.inMemory
      exact hk.group name he _ hmem hlast.allowed
    exact ⟨g', by rw [hs', hr], .present b₁ b₁' hf₁ hg₁ halike' (hlast.handled href hcomp hb) hn⟩

section Queues

variable {b : Broker} {queueType : String} {settings settings' : QueueSettings} {m : MemoryQueue}

theorem Safe.created (h : Safe f) (hc : entry.command = .createQueue name queueType settings)
    (hq : f.queueManager.queues.lookup name = none)
    (hset : Queue.newSettings f.queueManager.config queueType settings = .ok settings')
    (hm : Queue.memoryQueue queueType settings' = some m) :
    Returns (f.apply entry) fun r => r.1 = .response (.ofQueue name) ∧
      Tracks name (some ⟨⟨name, queueType, settings'⟩, fun _ => none, m⟩) r.2 := by
  have hs : f.apply entry = some (.response (.ofQueue name), f.putQueue name (Queue.created name queueType settings')
      { f.queueManager.store with queues := f.queueManager.store.queues.insert name ⟨name, queueType, settings'⟩ }) := by
    unfold apply
    rw [hc]
    simp only [applyCreateQueue_new hq, hset]
    rfl
  exact .of_eq hs ⟨rfl, tracks_put (h.step hs) (by rw [FinMap.lookup_insert_eq, if_pos rfl]) (.created hm (h.missing name hq).2)⟩

theorem apply_create_refused {e : Err} (hc : entry.command = .createQueue name queueType settings)
    (hq : f.queueManager.queues.lookup name = none)
    (hset : Queue.newSettings f.queueManager.config queueType settings = .error e) :
    f.apply entry = some (.response (.ofError "create queue" name e), f) := by
  unfold apply
  rw [hc]
  simp only [applyCreateQueue_new hq, hset]
  rfl

theorem Tracks.create (h : Tracks name (some b) f) (hc : entry.command = .createQueue name queueType settings) :
    f.apply entry = some (.response (.ofQueue name), f) := by
  obtain ⟨q, hq, _⟩ := h.present b rfl
  unfold apply
  rw [hc]
  simp only [applyCreateQueue_found hq]
  rfl

theorem Tracks.update (h : Tracks name (some b) f) (hc : entry.command = .updateQueue name settings)
    (hset : Queue.changedSettings f.queueManager.config b.config settings = .ok settings') :
    Returns (f.apply entry) fun r => r.1 = .response (.ofQueue name) ∧ Tracks name (some (b.update settings')) r.2 := by
  obtain ⟨q, hq, _, href⟩ := h.present b rfl
  have hs : f.apply entry = some (.response (.ofQueue name), f.putQueue name
      { q with
        config := some { b.config with settings := settings' }
        queue := some (b.memory.updateMaxUnacked settings'.maxUnacked.toNat) }
      { f.queueManager.store with
        queues := f.queueManager.store.queues.insert name { b.config with settings := settings' } }) := by
    unfold apply
    rw [hc]
    simp only [applyUpdateQueue_found hq href.config_eq href.name_eq, hset, href.queue_eq]
    rfl
  exact .of_eq hs ⟨rfl, tracks_put (h.safe.step hs) (by rw [FinMap.lookup_insert_eq, if_pos rfl]; rfl) href.update⟩

theorem Tracks.update_refused {e : Err} (h : Tracks name (some b) f) (hc : entry.command = .updateQueue name settings)
    (hset : Queue.changedSettings f.queueManager.config b.config settings = .error e) :
    f.apply entry = some (.response (.ofError "update queue" name e), f) := by
  obtain ⟨q, hq, _, href⟩ := h.present b rfl
  unfold apply
  rw [hc]
  simp only [applyUpdateQueue_found hq href.config_eq href.name_eq, hset]
  rfl

theorem Tracks.delete (h : Tracks name (some b) f) (hc : entry.command = .deleteQueue name) :
    Returns (f.apply entry) fun r => r.1 = .response (.ofQueue name) ∧ r.2.queueManager.queues.lookup name = none := by
  obtain ⟨q, hq, _, href⟩ := h.present b rfl
  refine Returns.of_eq (a := (.response (.ofQueue name), f.withoutQueue name)) ?_ ⟨rfl, AList.lookup_erase _ _⟩
  unfold apply
  rw [hc]
  simp only [applyDeleteQueue_found hq href.config_eq href.name_eq href.running, href.queue_eq, reduceCtorEq, and_false, if_false]
  rfl

theorem synced_new (h : Queue.memoryQueue queueType settings = some m) : m.Synced := by
  unfold Queue.memoryQueue at h
  split at h
  · split at h
    · cases h; exact FairWeightedQueue.new_synced _
    · cases h; trivial
  · split at h
    · cases h; trivial
    · cases h

theorem Twins.create (h : Twins cfg K f g) (h10 : 10 ≤ cfg.defaultAckTimeout) (hk : Keeps K f entry)
    (hc : entry.command = .createQueue name queueType settings) (hs : f.apply entry = some (reply, f')) :
    ∃ g', g.apply entry = some (reply, g') ∧ Same cfg K name f' g' := by
  cases h.queue name with
  | present b b' hf hg =>
    rw [hf.create hc] at hs
    cases hs
    exact ⟨g, hg.create hc, h.queue name⟩
  | missing hf hg =>
    cases hset : Queue.newSettings cfg queueType settings with
    | error e =>
      rw [apply_create_refused hc hf (h.config ▸ hset)] at hs
      cases hs
      exact ⟨g, apply_create_refused hc hg (h.config' ▸ hset), h.queue name⟩
    | ok settings' =>
      obtain ⟨htype, hkind⟩ := hk.created (queueType, settings) (by rw [hc]; rfl)
      have hknown : Queue.KnownType queueType := by rcases htype with rfl | rfl <;> decide
      obtain ⟨m, hm, hinv, _⟩ := Queue.memoryQueue_known hknown settings'
      obtain ⟨rfl, ht⟩ := (h.safe.created hc hf (h.config ▸ hset) hm).result hs
      obtain ⟨⟨_, g'⟩, hs', rfl, ht'⟩ := h.safe'.created hc hg (h.config' ▸ hset) hm
      exact ⟨g', hs', .present _ _ ht ht' ⟨rfl, rfl, .refl hinv (synced_new hm)⟩ (.created h10 htype hset hm hkind)
        (hk.named name (by rw [hc]; rfl))⟩

theorem Twins.update (h : Twins cfg K f g) (h10 : 10 ≤ cfg.defaultAckTimeout) (hk : Keeps K f entry)
    (hc : entry.command = .updateQueue name settings) (hs : f.apply entry = some (reply, f')) :
    ∃ g', g.apply entry = some (reply, g') ∧ Same cfg K name f' g' := by
  cases h.queue name with
  | missing hf hg =>
    -- the update of a missing queue panics
    have hnone : f.apply entry = none := by
      unfold apply
      rw [hc]
      simp only [applyUpdateQueue_missing hf (h.safe.missing name hf).1]
      rfl
    rw [hnone] at hs; cases hs
  | present b b' hf hg halike hb hn =>
    cases hset : Queue.changedSettings cfg b.config settings with
    | error e =>
      rw [hf.update_refused hc (h.config ▸ hset)] at hs
      cases hs
      exact ⟨g, hg.update_refused hc (by rw [h.config', halike.config]; exact hset), h.queue name⟩
    | ok settings' =>
      have hkind : b.memory.kind = .fairRoundRobin := by
        obtain ⟨q, hmem, _⟩ := hf.inMemory
        exact hk.updated name (by rw [hc]; rfl) _ hmem hb.allowed
      obtain ⟨rfl, ht⟩ := (hf.update hc (h.config ▸ hset)).result hs
      obtain ⟨⟨_, g'⟩, hs', rfl, ht'⟩ := hg.update hc (by rw [h.config', halike.config]; exact hset)
      exact ⟨g', hs', .present _ _ ht ht' (halike.update (by rw [hkind]; decide) settings') (hb.updated h10 hkind hset) hn⟩

theorem Twins.delete (h : Twins cfg K f g) (hc : entry.command = .deleteQueue name) (hs : f.apply entry = some (reply, f')) :
    ∃ g', g.apply entry = some (reply, g') ∧ Same cfg K name f' g' := by
  cases h.queue name with
  | missing hf hg =>
    have hmissing : ∀ {f : FSM}, Safe f → f.queueManager.queues.lookup name = none →
        f.apply entry = some (.response (.ofError "delete queue" name .queueNotFound), f) := fun {f} hsafe hq => by
      unfold apply
      rw [hc]
      simp only [applyDeleteQueue_missing hq (hsafe.missing name hq).1]
      rfl
    rw [hmissing h.safe hf] at hs
    cases hs
    exact ⟨g, hmissing h.safe' hg, h.queue name⟩
  | present b b' hf hg =>
    obtain ⟨rfl, hq⟩ := (hf.delete hc).result hs
    obtain ⟨⟨_, g'⟩, hs', rfl, hq'⟩ := hg.delete hc
    exact ⟨g', hs', .missing hq hq'⟩

end Queues

/-- An entry gets the same reply from twins, and leaves twins. -/
theorem Twins.step (h : Twins cfg K f g) (h10 : 10 ≤ cfg.defaultAckTimeout) (hk : Keeps K f entry)
    (hs : f.apply entry = some (reply, f')) :
    ∃ g', g.apply entry = some (reply, g') ∧ Twins cfg K f' g' := by
  have hnamed : ∃ g', g.apply entry = some (reply, g') ∧ ∀ name, entry.command.target = some name → Same cfg K name f' g' := by
    cases hc : entry.command with
    | leaderConfigChange nodeId raftAddr grpcAddr httpAddr =>
      unfold apply at hs ⊢
      rw [hc] at hs ⊢
      cases hs
      exact ⟨_, rfl, nofun⟩
    | unset =>
      unfold apply at hs ⊢
      rw [hc] at hs ⊢
      cases hs
      exact ⟨_, rfl, nofun⟩
    | createQueue n queueType settings =>
      obtain ⟨g', hs', hsame⟩ := h.create h10 hk hc hs
      exact ⟨g', hs', fun _ hn => Option.some.inj hn ▸ hsame⟩
    | updateQueue n settings =>
      obtain ⟨g', hs', hsame⟩ := h.update h10 hk hc hs
      exact ⟨g', hs', fun _ hn => Option.some.inj hn ▸ hsame⟩
    | deleteQueue n =>
      obtain ⟨g', hs', hsame⟩ := h.delete hc hs
      exact ⟨g', hs', fun _ hn => Option.some.inj hn ▸ hsame⟩
    | _ =>
      obtain ⟨g', hs', hsame⟩ := h.message hk hs (by rw [hc]; rfl)
      exact ⟨g', hs', fun _ hn => Option.some.inj hn ▸ hsame⟩
  obtain ⟨g', hs', hsame⟩ := hnamed
  refine ⟨g', hs', h.safe.step hs, h.safe'.step hs', (h.safe.apply_config hs).trans h.config,
    (h.safe'.apply_config hs').trans h.config',
    fun name => ?_⟩
  · by_cases hn : entry.command.target = some name
    · exact hsame name hn
    · exact h.unnamed hk hs hs' hn

end FSM

end Doq
