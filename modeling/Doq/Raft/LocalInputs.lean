/-
  Doq.Raft.LocalInputs — what the replicated state takes from the node it is on (see
  `Doq.Raft.Fsm`).

  A node has its own configuration, clock and id. `relocated` is a state on another node: the
  store and the queues are the same. The clock is read only for an entry without an append
  time. The gauges never change what a method does to a live queue, so commands on messages
  do not read the configuration either. Commands on queues do: an ack timeout of 0 stands for
  the node's own default, and deleting a queue of an unknown type panics when Prometheus is
  on.

  Proved:
  - `node_independent_iff`: two nodes agree on every prefix of a log exactly when no entry is
    one of those with settings that differ (`Independent`).
  - `default_ack_timeout_differs`: a `CreateQueue` without an ack timeout does not.
-/

import Doq.Raft.DeliveryLimit

namespace Doq

open Lib Memory Storage

/-! ## The gauges -/

namespace Queue

variable {q : Queue} {store : Store} {cfg off : Config} {id : UInt64}

section Gauges

variable (hoff : off.prometheusEnabled = false)
include hoff

/-- Without gauges nothing panics. -/
theorem gauges_off (q : Queue) (cfg : Config) :
    Simulates Eq (q.updatePrometheusQueueSizes cfg) (q.updatePrometheusQueueSizes off) := by
  rintro ⟨⟩ _
  refine ⟨(), ?_, rfl⟩
  simp only [updatePrometheusQueueSizes, hoff, Bool.false_eq_true, if_false]

/-- The end of a method: the gauges, and what it returns. -/
theorem gauges_last {α : Type} (q : Queue) (cfg : Config) (a : α) :
    Simulates Eq (q.updatePrometheusQueueSizes cfg >>= fun _ => some a) (q.updatePrometheusQueueSizes off >>= fun _ => some a) :=
  (gauges_off hoff q cfg).bind fun _ _ _ => .intro rfl

theorem enqueue_off (group : String) (priority : Int) (content : String) (metadata : Option Metadata) :
    Simulates Eq (q.enqueue store cfg noFaults id group priority content metadata)
      (q.enqueue store off noFaults id group priority content metadata) := by
  unfold Queue.enqueue
  refine .bind_same fun config _ => ?_
  simp only [Store.enqueue, noFaults, Bool.false_eq_true, if_false]
  refine .bind_same fun queue _ => .bind_same fun item _ => ?_
  cases item with
  | some item => exact .intro rfl
  | none => exact .bind_same fun queue _ => gauges_last hoff _ _ _

theorem dequeue_off (ack : Bool) (seed : UInt64) (now : Int) :
    Simulates Eq (q.dequeue store cfg noFaults ack seed now) (q.dequeue store off noFaults ack seed now) := by
  unfold Queue.dequeue
  refine .bind_same fun queue _ => ?_
  split
  · exact .intro rfl
  · refine .bind_same fun picked _ => ?_
    obtain ⟨item, queue⟩ := picked
    cases item with
    | none => exact .intro rfl
    | some item =>
      refine .bind_same fun config _ => ?_
      cases store.dequeue noFaults config.name item.id ack with
      | error e => exact .intro rfl
      | ok taken => exact gauges_last hoff _ _ _

theorem ack_off : Simulates Eq (q.ack store cfg noFaults id) (q.ack store off noFaults id) := by
  unfold Queue.ack
  refine .bind_same fun item _ => ?_
  cases item with
  | none => exact .intro rfl
  | some item =>
    refine .bind_same fun config _ => .bind_same fun released _ => ?_
    cases released with
    | error e => exact .intro rfl
    | ok q =>
      simp only [Store.ack, noFaults, Bool.false_eq_true, if_false]
      exact .bind_same fun removed _ => gauges_last hoff _ _ _

theorem nack_off (priority : Int) (metadata : Option Metadata) :
    Simulates Eq (q.nack store cfg noFaults id priority metadata) (q.nack store off noFaults id priority metadata) := by
  unfold Queue.nack
  refine .bind_same fun item _ => ?_
  cases item with
  | none => exact .intro rfl
  | some item =>
    refine .bind_same fun config _ => ?_
    cases store.get noFaults config.name item.id with
    | error e => exact .intro rfl
    | ok message =>
      refine .bind_same fun settled _ => ?_
      obtain ⟨r, q, store⟩ := settled
      cases r with
      | error e => exact .intro rfl
      | ok dropped =>
        simp only
        cases keepNacked store noFaults config message dropped priority metadata with
        | error e => exact .intro rfl
        | ok store => exact gauges_last hoff _ _ _

theorem ackTimeout_off : Simulates Eq (q.ackTimeout store cfg noFaults id) (q.ackTimeout store off noFaults id) := by
  unfold Queue.ackTimeout
  refine .bind_same fun item _ => ?_
  cases item with
  | none => exact .intro rfl
  | some item =>
    refine .bind_same fun config _ => ?_
    cases store.get noFaults config.name id with
    | error e => exact .bind_same fun q _ => .intro rfl
    | ok message =>
      refine .bind_same fun settled _ => ?_
      obtain ⟨r, q, store⟩ := settled
      cases r with
      | error e => exact .intro rfl
      | ok dropped => exact gauges_last hoff _ _ _

end Gauges

/-! ## The default ack timeout -/

variable {cfg' : Config} {queueType : String} {settings : QueueSettings} {config : QueueConfig}

theorem checkedAckTimeout_congr {ackTimeout : UInt32} (h : ackTimeout = 0 → cfg.defaultAckTimeout = cfg'.defaultAckTimeout) :
    checkedAckTimeout cfg ackTimeout = checkedAckTimeout cfg' ackTimeout := by
  unfold checkedAckTimeout
  split
  · rw [h ‹_›]
  · rfl

theorem newSettings_congr (h : checkType queueType settings = .ok () → settings.ackTimeout = 0 →
    cfg.defaultAckTimeout = cfg'.defaultAckTimeout) : newSettings cfg queueType settings =
      newSettings cfg' queueType settings := by
  unfold newSettings
  cases hc : checkType queueType settings with
  | error e => rfl
  | ok u => rw [checkedAckTimeout_congr (h hc)]

theorem changedSettings_congr (h : config.settings.strategy = settings.strategy → settings.ackTimeout = 0 →
    cfg.defaultAckTimeout = cfg'.defaultAckTimeout) : changedSettings cfg config settings =
      changedSettings cfg' config settings := by
  unfold changedSettings
  split
  · rfl
  · rw [checkedAckTimeout_congr (h (not_not.mp ‹_›))]

/-- Whether settings are refused, and why, is no matter of the default. -/
theorem changedSettings_alike (cfg cfg' : Config) (config : QueueConfig) (settings : QueueSettings) :
    (∃ e, changedSettings cfg config settings = .error e ∧ changedSettings cfg' config settings = .error e) ∨
    ∃ s s', changedSettings cfg config settings = .ok s ∧ changedSettings cfg' config settings = .ok s' := by
  unfold changedSettings checkedAckTimeout
  by_cases hs : config.settings.strategy ≠ settings.strategy
  · simp only [if_pos hs]
    exact Or.inl ⟨_, rfl, rfl⟩
  · by_cases h0 : settings.ackTimeout = 0
    · simp only [if_neg hs, if_pos h0]
      exact Or.inr ⟨_, _, rfl, rfl⟩
    · by_cases h10 : settings.ackTimeout < 10
      · simp only [if_neg hs, if_neg h0, if_pos h10]
        exact Or.inl ⟨_, rfl, rfl⟩
      · simp only [if_neg hs, if_neg h0, if_neg h10]
        exact Or.inr ⟨_, _, rfl, rfl⟩

end Queue

namespace FSM

variable {f : FSM} {name : String} {q : Queue} {store : Store} {cfg cfg' off : Config} {config : QueueConfig} {entry : Entry}

theorem handle_off (hoff : off.prometheusEnabled = false) :
    Simulates Eq (handle q store cfg entry) (handle q store off entry) := by
  unfold handle
  cases entry.command with
  | enqueue n id group priority content metadata =>
    exact (Queue.enqueue_off hoff group priority content metadata).map fun _ _ h => congrArg _ h
  | dequeue n ack => exact (Queue.dequeue_off hoff ack entry.index entry.now).map fun _ _ h => congrArg _ h
  | ack n id => exact (Queue.ack_off hoff).map fun _ _ h => congrArg _ h
  | nack n id priority metadata => exact (Queue.nack_off hoff priority metadata).map fun _ _ h => congrArg _ h
  | ackTimeout n id => exact (Queue.ackTimeout_off hoff).map fun _ _ h => congrArg _ h
  | _ => exact fun r hr => ⟨r, hr, rfl⟩

/-- A command on messages never panics on a live queue, so gauges that are off stand for any
    others. -/
theorem handle_live {m : MemoryQueue} (h : Queue.Live name config m q store) (he : entry.command.queueName = some name)
    (cfg cfg' : Config) : handle q store cfg entry = handle q store cfg' entry := by
  have hoff : ∀ cfg, handle q store cfg entry = handle q store ⟨0, false⟩ entry := by
    intro cfg
    obtain ⟨r, hr, _⟩ : Returns (handle q store cfg entry) _ := Live.handle h he
    obtain ⟨r', hr', rfl⟩ := handle_off (show Config.prometheusEnabled ⟨0, false⟩ = false from rfl) r hr
    rw [hr, hr']
  rw [hoff cfg, hoff cfg']

theorem handle_idle (h : Queue.Idle name config q store) (he : entry.command.queueName = some name) (cfg cfg' : Config) :
    handle q store cfg entry = handle q store cfg' entry := by
  unfold handle
  cases hc : entry.command <;> rw [hc] at he <;> cases he <;>
    simp only [h.enqueue, h.dequeue, h.acked, h.nack, h.ackTimeout]

/-! ## One entry on two nodes -/

/-- The state on a node with another configuration and another idea of the leader. -/
def relocated (f : FSM) (cfg : Config) (leaderConfig : LeaderConfig) : FSM :=
  ⟨{ f.queueManager with config := cfg }, leaderConfig⟩

/-- What all nodes should agree on. -/
def replicated (f : FSM) : Store × FinMap String Queue := (f.queueManager.store, f.queueManager.queues)

/-- The entry reads no setting in which the node's configuration differs from `cfg`. -/
def Independent (cfg : Config) (f : FSM) (entry : Entry) : Prop :=
  match entry.command with
  | .createQueue name queueType settings =>
    f.queueManager.queues.lookup name = none → Queue.checkType queueType settings = .ok () → settings.ackTimeout = 0 →
      cfg.defaultAckTimeout = f.queueManager.config.defaultAckTimeout
  | .updateQueue name settings =>
    ∀ config, f.queueManager.store.queues.lookup name = some config → Queue.KnownType config.type →
      config.settings.strategy = settings.strategy → settings.ackTimeout = 0 →
        cfg.defaultAckTimeout = f.queueManager.config.defaultAckTimeout
  | .deleteQueue name =>
    ∀ config, f.queueManager.store.queues.lookup name = some config → ¬ Queue.KnownType config.type →
      cfg.prometheusEnabled = f.queueManager.config.prometheusEnabled
  | _ => True

theorem Safe.relocated (h : Safe f) (cfg : Config) (leaderConfig : LeaderConfig) : Safe (f.relocated cfg leaderConfig) :=
  ⟨h.queue, h.missing⟩

/-- The other node answers the same and ends in the same state, or panics as well. -/
def Shadows (cfg : Config) (leaderConfig : LeaderConfig) (f : FSM) (entry : Entry) : Prop :=
  ∃ leaderConfig', (f.relocated cfg leaderConfig).apply entry = (f.apply entry).map fun r =>
    (r.1, r.2.relocated cfg leaderConfig')

variable {leaderConfig : LeaderConfig}

theorem Safe.shadows_message (h : Safe f) (he : entry.command.queueName = some name) : Shadows cfg leaderConfig f entry := by
  refine ⟨leaderConfig, ?_⟩
  cases hq : f.queueManager.queues.lookup name with
  | none =>
    obtain ⟨hs, _⟩ := h.missing name hq
    have hq' : (f.relocated cfg leaderConfig).queueManager.queues.lookup name = none := hq
    rw [apply_missing he hq hs, apply_missing he hq' hs]
    rfl
  | some q =>
    obtain ⟨config, _, hserved⟩ := h.queue name q hq
    have hq' : (f.relocated cfg leaderConfig).queueManager.queues.lookup name = some q := hq
    have hsame : handle q f.queueManager.store cfg entry = handle q f.queueManager.store f.queueManager.config entry := by
      rcases hserved with ⟨_, m, hl⟩ | ⟨_, hi⟩
      · exact handle_live hl he _ _
      · exact handle_idle hi he _ _
    rw [apply_handle he hq, apply_handle he hq', Option.map_map]
    exact congrArg (Option.map _) hsame

theorem Safe.shadows_create {queueType : String} {settings : QueueSettings}
    (he : entry.command = .createQueue name queueType settings)
    (hi : Independent cfg f entry) : Shadows cfg leaderConfig f entry := by
  refine ⟨leaderConfig, ?_⟩
  simp only [Independent, he] at hi
  simp only [apply, he]
  cases hq : f.queueManager.queues.lookup name with
  | some q =>
    have hq' : (f.relocated cfg leaderConfig).queueManager.queues.lookup name = some q := hq
    rw [applyCreateQueue_found hq, applyCreateQueue_found hq']
    rfl
  | none =>
    have hq' : (f.relocated cfg leaderConfig).queueManager.queues.lookup name = none := hq
    have hsame : Queue.newSettings cfg queueType settings = Queue.newSettings f.queueManager.config queueType settings :=
      Queue.newSettings_congr (hi hq)
    rw [applyCreateQueue_new hq, applyCreateQueue_new hq',
      show (f.relocated cfg leaderConfig).queueManager.config = cfg from rfl, hsame]
    cases Queue.newSettings f.queueManager.config queueType settings <;> rfl

theorem Safe.shadows_update (h : Safe f) {settings : QueueSettings} (he : entry.command = .updateQueue name settings)
    (hi : Independent cfg f entry) : Shadows cfg leaderConfig f entry := by
  refine ⟨leaderConfig, ?_⟩
  simp only [Independent, he] at hi
  simp only [apply, he]
  cases hc : f.queueManager.store.queues.lookup name with
  | none =>
    have hq := h.lookup_none.mp hc
    rw [applyUpdateQueue_missing hq hc, applyUpdateQueue_missing (f := f.relocated cfg leaderConfig) hq hc]
    rfl
  | some config =>
    obtain ⟨q, hq, hserved⟩ := h.served hc
    rw [applyUpdateQueue_found hq hserved.config_eq hserved.name_eq,
      applyUpdateQueue_found (f := f.relocated cfg leaderConfig) hq hserved.config_eq hserved.name_eq,
      show (f.relocated cfg leaderConfig).queueManager.config = cfg from rfl]
    by_cases hk : Queue.KnownType config.type
    · rw [Queue.changedSettings_congr (hi config hc hk)]
      cases Queue.changedSettings f.queueManager.config config settings with
      | error e => rfl
      | ok settings' => cases q.queue <;> rfl
    · -- without a memory queue an accepted update panics, whatever the ack timeout
      rw [hserved.queue_eq_none.mpr hk]
      rcases Queue.changedSettings_alike cfg f.queueManager.config config settings with ⟨e, h₁, h₂⟩ | ⟨s₁, s₂, h₁, h₂⟩ <;>
        rw [h₁, h₂] <;> rfl

theorem Safe.shadows_delete (h : Safe f) (he : entry.command = .deleteQueue name) (hi : Independent cfg f entry) :
    Shadows cfg leaderConfig f entry := by
  refine ⟨leaderConfig, ?_⟩
  simp only [Independent, he] at hi
  simp only [apply, he]
  cases hc : f.queueManager.store.queues.lookup name with
  | none =>
    have hq := h.lookup_none.mp hc
    rw [applyDeleteQueue_missing hq hc, applyDeleteQueue_missing (f := f.relocated cfg leaderConfig) hq hc]
    rfl
  | some config =>
    obtain ⟨q, hq, hserved⟩ := h.served hc
    have hsame : (cfg.prometheusEnabled = true ∧ q.queue = none) ↔
      (f.queueManager.config.prometheusEnabled = true ∧ q.queue = none) :=
      and_congr_left fun hnone => by rw [hi config hc (hserved.queue_eq_none.mp hnone)]
    rw [applyDeleteQueue_found hq hserved.config_eq hserved.name_eq hserved.running,
      applyDeleteQueue_found (f := f.relocated cfg leaderConfig) hq hserved.config_eq hserved.name_eq hserved.running,
      show (f.relocated cfg leaderConfig).queueManager.config = cfg from rfl]
    simp only [hsame]
    split <;> rfl

theorem Safe.shadows (h : Safe f) (hi : Independent cfg f entry) : Shadows cfg leaderConfig f entry := by
  cases hc : entry.command with
  | createQueue n queueType settings => exact shadows_create hc hi
  | updateQueue n settings => exact h.shadows_update hc hi
  | deleteQueue n => exact h.shadows_delete hc hi
  | leaderConfigChange nodeId raftAddr grpcAddr httpAddr =>
    refine ⟨(leaderConfig.set nodeId raftAddr grpcAddr httpAddr).2, ?_⟩
    simp only [apply, hc]
    rfl
  | unset =>
    refine ⟨leaderConfig, ?_⟩
    simp only [apply, hc]
    rfl
  | _ => exact h.shadows_message (by rw [hc]; rfl)

/-! ## A log on two nodes -/

/-- The replies to the entries, in their order, and the state after them. -/
def outcome (f : FSM) (entries : List Entry) : Go (List Reply × Store × FinMap String Queue) :=
  (exec apply f entries).map fun r => (r.1.map Event.output, r.2.replicated)

variable {entries : List Entry} {f' : FSM} {reply : Reply}

theorem outcome_nil (f : FSM) : outcome f [] = some ([], f.replicated) := rfl

theorem relocated_replicated : (f.relocated cfg leaderConfig).replicated = f.replicated := rfl

theorem outcome_cons (hs : f.apply entry = some (reply, f')) :
    outcome f (entry :: entries) = (outcome f' entries).map fun r => (reply :: r.1, r.2) := by
  unfold outcome
  simp only [exec, hs, Option.map_map]
  rfl

theorem outcome_crash (hs : f.apply entry = none) : outcome f (entry :: entries) = none := by
  unfold outcome
  simp only [exec, hs, Option.map_none]

theorem outcome_one (hs : f.apply entry = some (reply, f')) : outcome f [entry] = some ([reply], f'.replicated) := by
  rw [outcome_cons hs, outcome_nil, Option.map_some]

/-- The ack timeout a queue is stored with. -/
def storedAckTimeout (name : String) (f : FSM) : Option UInt32 :=
  (f.queueManager.store.queues.lookup name).map (·.settings.ackTimeout)

theorem outcome_ackTimeout (name : String) {g : FSM} {t u : UInt32}
    (hf : Returns (f.apply entry) fun r => storedAckTimeout name r.2 = some t)
    (hg : Returns (g.apply entry) fun r => storedAckTimeout name r.2 = some u) (hagree : outcome g [entry] = outcome f [entry]) :
    u = t := by
  obtain ⟨⟨reply, f'⟩, hs, ht⟩ := hf
  obtain ⟨⟨reply', g'⟩, hs', hu⟩ := hg
  rw [outcome_one hs, outcome_one hs', Option.some.injEq] at hagree
  have hstore : g'.queueManager.store = f'.queueManager.store := congrArg (fun r => r.2.1) hagree
  have hsame : storedAckTimeout name g' = storedAckTimeout name f' := by
    unfold storedAckTimeout
    rw [hstore]
  rw [hsame, ht] at hu
  cases hu
  rfl

theorem storedAckTimeout_insert (f : FSM) (name : String) (q : Queue) (store : Store) (config : QueueConfig) :
    storedAckTimeout name (f.putQueue name q { store with queues := store.queues.insert name config }) =
      some config.settings.ackTimeout :=
  congrArg _ ((FinMap.lookup_insert_eq _ _ _ _).trans (if_pos rfl))

theorem independent_create {queueType : String} {settings : QueueSettings}
    (he : entry.command = .createQueue name queueType settings)
    (hagree : outcome (f.relocated cfg leaderConfig) [entry] = outcome f [entry]) : Independent cfg f entry := by
  unfold Independent
  rw [he]
  intro hq hcheck h0
  have hstored : ∀ g : FSM, g.queueManager.queues.lookup name = none →
      Returns (g.apply entry) fun r => storedAckTimeout name r.2 = some g.queueManager.config.defaultAckTimeout := by
    intro g hg
    simp only [apply, he]
    rw [applyCreateQueue_new hg]
    simp only [Queue.newSettings, hcheck, Queue.checkedAckTimeout, h0, if_true]
    exact .intro (storedAckTimeout_insert ..)
  exact outcome_ackTimeout name (hstored f hq) (hstored (f.relocated cfg leaderConfig) hq) hagree

theorem Safe.independent_update (h : Safe f) {settings : QueueSettings} (he : entry.command = .updateQueue name settings)
    (hagree : outcome (f.relocated cfg leaderConfig) [entry] = outcome f [entry]) : Independent cfg f entry := by
  unfold Independent
  rw [he]
  intro config hc hk hstrategy h0
  have hstored : ∀ g : FSM, Safe g → g.queueManager.store.queues.lookup name = some config →
      Returns (g.apply entry) fun r => storedAckTimeout name r.2 = some g.queueManager.config.defaultAckTimeout := by
    intro g hg hc
    obtain ⟨q, hq, hserved⟩ := hg.served hc
    obtain ⟨m, hm⟩ := Option.ne_none_iff_exists'.mp fun hnone => hserved.queue_eq_none.mp hnone hk
    simp only [apply, he]
    rw [applyUpdateQueue_found hq hserved.config_eq hserved.name_eq]
    simp only [Queue.changedSettings, ne_eq, hstrategy, not_true_eq_false, if_false, Queue.checkedAckTimeout, h0, if_true, hm]
    exact .intro (storedAckTimeout_insert ..)
  exact outcome_ackTimeout name (hstored f h hc) (hstored _ (h.relocated cfg leaderConfig) hc) hagree

theorem Safe.independent_delete (h : Safe f) (he : entry.command = .deleteQueue name)
    (hagree : outcome (f.relocated cfg leaderConfig) [entry] = outcome f [entry]) : Independent cfg f entry := by
  unfold Independent
  rw [he]
  intro config hc hk
  have hap : ∀ g : FSM, Safe g → g.queueManager.store.queues.lookup name = some config →
      ((outcome g [entry]).isSome ↔ g.queueManager.config.prometheusEnabled = false) := by
    intro g hg hc
    obtain ⟨q, hq, hserved⟩ := hg.served hc
    have hap : g.apply entry = respond (g.applyDeleteQueue name) := by unfold apply; rw [he]
    rw [applyDeleteQueue_found hq hserved.config_eq hserved.name_eq hserved.running] at hap
    cases hp : g.queueManager.config.prometheusEnabled with
    | true =>
      rw [if_pos ⟨hp, hserved.queue_eq_none.mpr hk⟩] at hap
      rw [outcome_crash hap]
      simp
    | false =>
      rw [if_neg (by rw [hp]; simp)] at hap
      rw [outcome_one hap]
      simp
  have hsame := hap _ (h.relocated cfg leaderConfig) hc
  rw [hagree, hap f h hc] at hsame
  have hsame : f.queueManager.config.prometheusEnabled = false ↔ cfg.prometheusEnabled = false := hsame
  cases hp : cfg.prometheusEnabled <;> cases hp' : f.queueManager.config.prometheusEnabled <;> simp_all

theorem Safe.independent (h : Safe f) (hagree : outcome (f.relocated cfg leaderConfig) [entry] = outcome f [entry]) :
    Independent cfg f entry := by
  cases hc : entry.command with
  | createQueue n queueType settings => exact independent_create hc hagree
  | updateQueue n settings => exact h.independent_update hc hagree
  | deleteQueue n => exact h.independent_delete hc hagree
  | _ =>
    unfold Independent
    rw [hc]
    trivial

/-- Each entry, in the state it is applied in. -/
def AllIndependent (cfg : Config) (f : FSM) (entries : List Entry) : Prop :=
  ∀ earlier entry later, entries = earlier ++ entry :: later → ∀ events f', exec apply f earlier = some (events, f') →
    Independent cfg f' entry

theorem allIndependent_cons_iff : AllIndependent cfg f (entry :: entries) ↔
    Independent cfg f entry ∧ ∀ reply f', f.apply entry = some (reply, f') → AllIndependent cfg f' entries := by
  constructor
  · intro h
    refine ⟨h [] entry entries rfl [] f rfl, fun reply f' hs earlier next later he events g hx => ?_⟩
    refine h (entry :: earlier) next later (by rw [he]; rfl) (⟨f, entry, reply, f'⟩ :: events) g ?_
    simp only [exec, hs, hx, Option.map_some]
  · rintro ⟨hhead, htail⟩ earlier next later he events g hx
    cases earlier with
    | nil =>
      cases he; cases hx
      exact hhead
    | cons first earlier =>
      cases he
      unfold exec at hx
      cases hs : f.apply entry with
      | none => rw [hs] at hx; cases hx
      | some r =>
        rw [hs] at hx
        obtain ⟨⟨events', g'⟩, hx', hr⟩ := Option.map_eq_some_iff.mp hx
        cases hr
        exact htail r.1 r.2 hs earlier next later rfl events' g' hx'

/-- The induction is on the log: the first entry on which the nodes differ is one that is not
    independent. -/
theorem Safe.outcome_iff (h : Safe f) (cfg : Config) (leaderConfig : LeaderConfig) (entries : List Entry) :
    (∀ n, outcome (f.relocated cfg leaderConfig) (entries.take n) = outcome f (entries.take n)) ↔
      AllIndependent cfg f entries := by
  induction entries generalizing f leaderConfig with
  | nil =>
    refine iff_of_true (fun n => ?_) fun earlier entry later he => ?_
    · rw [List.take_nil, outcome_nil, outcome_nil, relocated_replicated]
    · exact absurd he (by simp)
  | cons entry entries ih =>
    rw [allIndependent_cons_iff]
    have htakes : (∀ n, outcome (f.relocated cfg leaderConfig) ((entry :: entries).take n) =
      outcome f ((entry :: entries).take n)) ↔
        ∀ n, outcome (f.relocated cfg leaderConfig) (entry :: entries.take n) = outcome f (entry :: entries.take n) := by
      refine ⟨fun hn n => ?_, fun hn n => ?_⟩
      · have hn := hn (n + 1)
        rwa [List.take_succ_cons] at hn
      · cases n with
        | zero => rw [List.take_zero, outcome_nil, outcome_nil, relocated_replicated]
        | succ n => rw [List.take_succ_cons, hn n]
    rw [htakes]
    have hone : (∀ n, outcome (f.relocated cfg leaderConfig) (entry :: entries.take n) = outcome f (entry :: entries.take n)) →
        Independent cfg f entry := by
      intro hn
      have hfirst := hn 0
      rw [List.take_zero] at hfirst
      exact h.independent hfirst
    refine (and_iff_right_of_imp hone).symm.trans (and_congr_right fun hi => ?_)
    obtain ⟨leaderConfig', hshadow⟩ : Shadows cfg leaderConfig f entry := h.shadows hi
    cases hs : f.apply entry with
    | none =>
      rw [hs] at hshadow
      refine iff_of_true (fun n => ?_) fun _ _ he => ?_
      · rw [outcome_crash hs, outcome_crash hshadow]
      · cases he
    | some r =>
      obtain ⟨reply, f'⟩ := r
      rw [hs] at hshadow
      have hinj : Function.Injective fun r : List Reply × Store × FinMap String Queue => (reply :: r.1, r.2) := by
        rintro ⟨a, c⟩ ⟨b, d⟩ hab
        cases hab
        rfl
      simp only [outcome_cons hs, outcome_cons hshadow, (Option.map_injective hinj).eq_iff]
      rw [ih (h.step hs) leaderConfig']
      refine ⟨fun hall _ _ he => ?_, fun hall => hall reply f' rfl⟩
      cases he
      exact hall

/-- A log entry, and what the clocks of two nodes show when they apply it. -/
structure Reading where
  log : RaftLog
  clock : Int
  otherClock : Int

def Reading.here (r : Reading) : Entry := r.log.entry r.clock

def Reading.there (r : Reading) : Entry := r.log.entry r.otherClock

theorem Reading.there_eq {r : Reading} (h : r.log.appendedAt.isSome) : r.there = r.here := by
  obtain ⟨t, ht⟩ := Option.isSome_iff_exists.mp h
  simp only [Reading.here, Reading.there, RaftLog.entry, ht, Option.getD_some]

/-- Each prefix of the log gets the same replies on both nodes and leaves the same store and
    the same queues, or takes both down. -/
def NodesAgree (f g : FSM) (readings : List Reading) : Prop :=
  ∀ n, outcome g ((readings.take n).map Reading.there) = outcome f ((readings.take n).map Reading.here)

theorem Lives.safe {cfg : Config} {leaderConfig : LeaderConfig} {events : List (Event FSM Happening (Option Reply))}
    (r : Lives (new cfg leaderConfig) events f) (hprior : ∀ e ∈ events, ∀ prior names, e.input =
      .restore prior names → Safe prior) :
    Safe f := by
  refine r.keeps (I := Safe) (fun e he hs hsafe => ?_) (new_safe cfg leaderConfig)
  obtain ⟨before, input, output, after⟩ := e
  cases input with
  | entry entry =>
    obtain ⟨r, hr, heq⟩ := Option.map_eq_some_iff.mp hs
    cases heq
    exact hsafe.step hr
  | restore prior names =>
    obtain ⟨items, _, hs⟩ := Option.bind_eq_some_iff.mp hs
    obtain ⟨f', hf', hs⟩ := Option.bind_eq_some_iff.mp hs
    cases hs
    exact (hprior _ he prior names rfl).restore hf'

theorem node_independent_iff {cfg₀ cfg : Config} {leaderConfig₀ leaderConfig : LeaderConfig}
    {history : List (Event FSM Happening (Option Reply))} (r : Lives (new cfg₀ leaderConfig₀) history f)
    (hprior : ∀ e ∈ history, ∀ prior names, e.input = .restore prior names → Safe prior) {readings : List Reading}
    (hstamped : ∀ x ∈ readings, x.log.appendedAt.isSome) :
    NodesAgree f (f.relocated cfg leaderConfig) readings ↔ AllIndependent cfg f (readings.map Reading.here) := by
  refine (forall_congr' fun n => ?_).trans ((r.safe hprior).outcome_iff cfg leaderConfig _)
  rw [← List.map_take, List.map_congr_left fun x hx => Reading.there_eq (hstamped x (List.mem_of_mem_take hx))]

/-- A queue with an ack timeout of its own, a message and its delivery, at times of their own
    on the other node's clock. -/
def stampedLog : List Reading :=
  [⟨⟨2, some 10, .createQueue "mail" "fair" ⟨.roundRobin, 0, 30, 0⟩⟩, 11, 0⟩,
    ⟨⟨3, some 12, .enqueue "mail" 1 "a" 0 "hi" none⟩, 13, 99⟩,
    ⟨⟨4, some 14, .dequeue "mail" false⟩, 15, 500⟩]

theorem jobs_created_runs :
    (exec apply (new defaults (.new "n1" "" "")) [⟨1, 0, .createQueue "jobs" "delayed" plain⟩]).isSome := rfl

theorem node_independent_stamped : ∃ history f, Lives (new defaults (.new "n1" "" "")) history f ∧
    (f.queueManager.queues.lookup "jobs").isSome ∧ NodesAgree f (f.relocated ⟨30, false⟩ (.new "n2" "" "")) stampedLog := by
  have r := Runs.lives (Run.of_exec_isSome jobs_created_runs)
  refine ⟨_, _, r, rfl, (node_independent_iff r (fun e he prior names hin => ?_) (by decide)).mpr ?_⟩
  · obtain ⟨a, _, rfl⟩ := List.mem_map.mp he
    cases hin
  · have hnil : ∀ f, AllIndependent ⟨30, false⟩ f [] := fun f earlier entry later h => absurd h (by simp)
    simp [stampedLog, Reading.here, RaftLog.entry, allIndependent_cons_iff, Independent, hnil]

/-- A `CreateQueue` without an ack timeout is stored with each node's own default, and deleting
    a queue of an unknown type takes only the node with gauges down. -/
theorem default_ack_timeout_differs :
    let f := new ⟨60, true⟩ (.new "n1" "" "")
    let g := f.relocated ⟨30, false⟩ (.new "n2" "" "")
    let create : Reading := ⟨⟨1, some 5, .createQueue "jobs" "delayed" plain⟩, 5, 5⟩
    let odd : Reading := ⟨⟨1, some 5, .createQueue "jobs" "lifo" ⟨.unspecified, 0, 30, 0⟩⟩, 5, 5⟩
    let delete : Reading := ⟨⟨2, some 6, .deleteQueue "jobs"⟩, 6, 6⟩
    ((exec apply f [create.here]).bind fun r => storedAckTimeout "jobs" r.2) = some 60 ∧
    ((exec apply g [create.there]).bind fun r => storedAckTimeout "jobs" r.2) = some 30 ∧ ¬ NodesAgree f g [create] ∧
    exec apply f [odd.here, delete.here] = none ∧ (exec apply g [odd.there, delete.there]).isSome ∧
      ¬ NodesAgree f g [odd, delete] := by
  refine ⟨rfl, rfl, fun h => ?_, rfl, rfl, fun h => ?_⟩
  · exact absurd (outcome_ackTimeout "jobs" (t := 60) (u := 30) ⟨_, rfl, rfl⟩ ⟨_, rfl, rfl⟩ (h 1)) (by decide)
  · exact absurd (congrArg Option.isSome (h 2)) (by decide)

end FSM

end Doq
