/-
  Doq.Raft.Safety — which entries `Apply` survives (see `Doq.Raft.Fsm`).

  In every state a run from the empty one reaches, a queue is in the manager's map exactly
  if its configuration is stored, it is `Live` when its type is known and `Idle` otherwise,
  and no message is stored under the name of a queue that is not there (`Safe`). Groups are
  arbitrary and ids may be enqueued twice.

  Proved:
  - `apply_survives_iff`: an entry is answered, and answered with "queue not found" and no
    change when its queue is missing, exactly if it is not one of `Crashes`.
  - `entries_that_panic`: each of `Crashes` happens.
-/

import Doq.Raft.Handle
import Doq.Storage.Keys

namespace Doq

open Lib Memory Storage

/-! ## Deleting a queue -/

namespace Storage

/-- The messages a queue has left, and nothing new. -/
def Fewer (name : String) (store store' : Store) : Prop :=
  ∀ id msg, store'.messages.lookup (name, id) = some msg → store.messages.lookup (name, id) = some msg

theorem Keyed.fewer {name : String} {store store' : Store} (h : Keyed name store) (hf : Fewer name store store') :
    Keyed name store' :=
  fun id msg hm => h id msg (hf id msg hm)

end Storage

namespace Queue

variable {name : String} {config : QueueConfig} {m : MemoryQueue} {q : Queue} {store store' : Store}

/-- A queue of a known type is `Live`, one of an unknown type `Idle`. -/
def Served (name : String) (config : QueueConfig) (q : Queue) (store : Store) : Prop :=
  (KnownType config.type ∧ ∃ m, Live name config m q store) ∨ (¬ KnownType config.type ∧ Idle name config q store)

theorem Served.fewer (h : Served name config q store) (hf : Fewer name store store') : Served name config q store' := by
  rcases h with ⟨hk, m, hl⟩ | ⟨hk, hi⟩
  · exact Or.inl ⟨hk, m, { hl with keyed := hl.keyed.fewer hf }⟩
  · refine Or.inr ⟨hk, { hi with empty := fun id => ?_ }⟩
    cases hm : store'.messages.lookup (name, id) with
    | none => rfl
    | some msg => have := hf id msg hm; rw [hi.empty id] at this; cases this

theorem Served.config_eq (h : Served name config q store) : q.config = some config := by
  rcases h with ⟨_, m, hl⟩ | ⟨_, hi⟩
  · exact hl.config_eq
  · exact hi.config_eq

theorem Served.name_eq (h : Served name config q store) : config.name = name := by
  rcases h with ⟨_, m, hl⟩ | ⟨_, hi⟩
  · exact hl.name_eq
  · exact hi.name_eq

theorem Served.running (h : Served name config q store) : q.ackQueueMonitoring = true := by
  rcases h with ⟨_, m, hl⟩ | ⟨_, hi⟩
  · exact hl.running
  · exact hi.running

theorem Served.sound (h : Served name config q store) : q.ackQueue.queue.Sound := by
  rcases h with ⟨_, m, hl⟩ | ⟨_, hi⟩
  · exact hl.ack
  · rw [hi.ack]; exact PriorityMemoryQueue.new_exact.toSound

theorem Served.queue_eq_none (h : Served name config q store) : q.queue = none ↔ ¬ KnownType config.type := by
  rcases h with ⟨hk, m, hl⟩ | ⟨hk, hi⟩
  · simp [hl.queue_eq, hk]
  · simp [hi.queue_eq, hk]

theorem created_served (hempty : ∀ id, store.messages.lookup (name, id) = none) (queueType : String) (settings : QueueSettings)
    {configs : FinMap String QueueConfig} :
    Served name ⟨name, queueType, settings⟩ (created name queueType settings) { store with queues := configs } := by
  by_cases hk : KnownType queueType
  · obtain ⟨m, hm, hinv, _, _⟩ := memoryQueue_known hk settings
    exact Or.inl ⟨hk, m, rfl, rfl, hm, hinv.safe, PriorityMemoryQueue.new_exact.toSound, rfl,
      fun id msg h => by rw [hempty id] at h; cases h⟩
  · exact Or.inr ⟨hk, rfl, rfl, memoryQueue_unknown hk settings, rfl, rfl, hempty⟩

end Queue

namespace FSM

structure Safe (f : FSM) : Prop where
  queue : ∀ name q, f.queueManager.queues.lookup name = some q → ∃ config,
    f.queueManager.store.queues.lookup name = some config ∧ Queue.Served name config q f.queueManager.store
  missing : ∀ name, f.queueManager.queues.lookup name = none →
    f.queueManager.store.queues.lookup name = none ∧ ∀ id, f.queueManager.store.messages.lookup (name, id) = none

theorem new_safe (cfg : Config) (leaderConfig : LeaderConfig) : Safe (new cfg leaderConfig) :=
  ⟨fun _ _ h => (nomatch h), fun _ _ => ⟨rfl, fun _ => rfl⟩⟩

variable {f f' : FSM} {name : String} {q q' : Queue} {store' : Store} {config : QueueConfig}

/-- One queue and its part of the store replaced. -/
theorem Safe.replace (h : Safe f) {configs : FinMap String QueueConfig}
    (hc : ∀ n, configs.lookup n = if n = name then some config else f.queueManager.store.queues.lookup n)
    (hs : store'.queues = configs) (hq : Queue.Served name config q' store')
    (hm : ∀ n id, n ≠ name → store'.messages.lookup (n, id) = f.queueManager.store.messages.lookup (n, id)) :
    Safe (f.putQueue name q' store') where
  queue n p hp := by
    have hp : (f.queueManager.queues.insert name q').lookup n = some p := hp
    show ∃ c, store'.queues.lookup n = some c ∧ Queue.Served n c p store'
    rw [hs, hc]
    rw [FinMap.lookup_insert_eq] at hp
    split at hp
    · rename_i e; cases hp; subst e
      exact ⟨config, by rw [if_pos rfl], hq⟩
    · rename_i e
      obtain ⟨c, hc', hserved⟩ := h.queue n p hp
      refine ⟨c, by rw [if_neg e, hc'], hserved.fewer fun id msg hmsg => ?_⟩
      rw [hm n id e] at hmsg; exact hmsg
  missing n hn := by
    have hn : (f.queueManager.queues.insert name q').lookup n = none := hn
    show store'.queues.lookup n = none ∧ ∀ id, store'.messages.lookup (n, id) = none
    rw [FinMap.lookup_insert_eq] at hn
    split at hn
    · cases hn
    · rename_i e
      rw [hs, hc, if_neg e]
      exact ⟨(h.missing n hn).1, fun id => (hm n id e).trans ((h.missing n hn).2 id)⟩

/-- One queue replaced after a method. -/
theorem Safe.put (h : Safe f) (hc : f.queueManager.store.queues.lookup name = some config)
    (hq : Queue.Served name config q' store') (hf : StoreFrame name f.queueManager.store store') :
    Safe (f.putQueue name q' store') := by
  refine h.replace (fun n => ?_) hf.queues hq fun n id hn => hf.messages n id hn
  split
  · rename_i e; rw [e]; exact hc
  · rfl

/-! ## Entries -/

/-- The entries that take the process down: on a queue of an unknown type the memory queue
    is nil, and `UpdateQueue` of a missing queue goes on with a nil configuration. -/
def Crashes (f : FSM) (entry : Entry) : Prop :=
  match entry.command with
  | .enqueue name .. | .dequeue name _ => ∃ c, f.queueManager.store.queues.lookup name = some c ∧ ¬ Queue.KnownType c.type
  | .updateQueue name settings =>
    match f.queueManager.store.queues.lookup name with
    | none => True
    | some c => ¬ Queue.KnownType c.type ∧ ∃ s, Queue.changedSettings f.queueManager.config c settings = .ok s
  | .deleteQueue name =>
    f.queueManager.config.prometheusEnabled = true ∧
      ∃ c, f.queueManager.store.queues.lookup name = some c ∧ ¬ Queue.KnownType c.type
  | _ => False

/-- The commands that reach for the memory queue first. -/
def schedules : Command → Bool
  | .enqueue .. => true
  | .dequeue .. => true
  | _ => false

theorem crashes_message {entry : Entry} (he : entry.command.queueName = some name) :
    Crashes f entry ↔ schedules entry.command = true ∧
      ∃ c, f.queueManager.store.queues.lookup name = some c ∧ ¬ Queue.KnownType c.type := by
  unfold Crashes schedules
  cases hc : entry.command <;> rw [hc] at he <;> cases he <;> simp

theorem Idle.handle {store : Store} {entry : Entry} (h : Queue.Idle name config q store)
    (he : entry.command.queueName = some name) (cfg : Config) :
    if schedules entry.command then handle q store cfg entry = none
    else ∃ response, handle q store cfg entry = some (response, q, store) ∧ response.error ≠ none := by
  unfold FSM.handle schedules
  cases hc : entry.command <;> rw [hc] at he <;> cases he <;> simp only [if_true, Bool.false_eq_true, if_false]
  case enqueue id g p c md => rw [h.enqueue]; rfl
  case dequeue a => rw [h.dequeue]; rfl
  case get id => rw [h.get]; exact ⟨_, rfl, nofun⟩
  case delete id => rw [h.delete]; exact ⟨_, rfl, nofun⟩
  case ack id => rw [h.acked]; exact ⟨_, rfl, nofun⟩
  case nack id p md => rw [h.nack]; exact ⟨_, rfl, nofun⟩
  case touch id => rw [h.touch]; exact ⟨_, rfl, nofun⟩
  case ackTimeout id => rw [h.ackTimeout]; exact ⟨_, rfl, nofun⟩
  case updatePriority id p => rw [h.updatePriority]; exact ⟨_, rfl, nofun⟩

/-- A queue whose configuration is stored is in the map, and the other way round. -/
theorem Safe.lookup_none (h : Safe f) :
    f.queueManager.store.queues.lookup name = none ↔ f.queueManager.queues.lookup name = none := by
  constructor
  · intro hs
    cases hq : f.queueManager.queues.lookup name with
    | none => rfl
    | some q =>
      obtain ⟨c, hc, _⟩ := h.queue name q hq
      rw [hs] at hc; cases hc
  · intro hq
    exact (h.missing name hq).1

theorem Safe.served (h : Safe f) (hc : f.queueManager.store.queues.lookup name = some config) :
    ∃ q, f.queueManager.queues.lookup name = some q ∧ Queue.Served name config q f.queueManager.store := by
  cases hq : f.queueManager.queues.lookup name with
  | none => rw [h.lookup_none.mpr hq] at hc; cases hc
  | some q =>
    obtain ⟨c, hc', hs⟩ := h.queue name q hq
    rw [hc] at hc'; cases hc'
    exact ⟨q, rfl, hs⟩

/-- The entry is answered and the state stays safe, or it takes the process down. -/
inductive Verdict (f : FSM) (entry : Entry) : Prop
  | crash (hc : Crashes f entry) (h : f.apply entry = none)
  | answer (hc : ¬ Crashes f entry) (h : Returns (f.apply entry) fun r => Safe r.2)

theorem Safe.message (h : Safe f) {entry : Entry} (he : entry.command.queueName = some name) : Verdict f entry := by
  cases hc : f.queueManager.store.queues.lookup name with
  | none =>
    refine .answer (by rw [crashes_message he, hc]; simp) ?_
    exact .of_eq (apply_missing he (h.lookup_none.mp hc) hc) h
  | some config =>
    obtain ⟨q, hq, hserved⟩ := h.served hc
    rcases hserved with ⟨hk, m, hl⟩ | ⟨hk, hi⟩
    · refine .answer (by rw [crashes_message he, hc]; simp [hk]) ?_
      rw [apply_handle he hq]
      refine (Live.handle hl he).map fun r hr => ?_
      obtain ⟨m', hh⟩ := hr
      exact h.put hc (Or.inl ⟨hk, m', hh.live⟩) hh.frame
    · have hidle := Idle.handle hi he f.queueManager.config
      cases hs : schedules entry.command with
      | true =>
        rw [hs, if_pos rfl] at hidle
        refine .crash ((crashes_message he).mpr ⟨hs, config, hc, hk⟩) ?_
        rw [apply_handle he hq, hidle]
        rfl
      | false =>
        rw [hs, if_neg Bool.false_ne_true] at hidle
        obtain ⟨response, hsome, _⟩ := hidle
        refine .answer (by rw [crashes_message he, hs]; simp) ?_
        rw [apply_handle he hq, hsome]
        exact .intro (h.put hc (Or.inr ⟨hk, hi⟩) (.refl _ _))

theorem Safe.create (h : Safe f) (name queueType : String) (settings : QueueSettings) :
    Safe (f.applyCreateQueue name queueType settings).2 := by
  cases hq : f.queueManager.queues.lookup name with
  | some q => rw [applyCreateQueue_found hq]; exact h
  | none =>
    rw [applyCreateQueue_new hq]
    cases Queue.newSettings f.queueManager.config queueType settings with
    | error e => exact h
    | ok settings' =>
      obtain ⟨_, hempty⟩ := h.missing name hq
      exact h.replace (fun n => FinMap.lookup_insert_eq _ _ _ _) rfl (Queue.created_served hempty queueType _) fun n id _ => rfl

theorem Safe.update (h : Safe f) {entry : Entry} {settings : QueueSettings} (he : entry.command = .updateQueue name settings) :
    Verdict f entry := by
  have hap : f.apply entry = respond (f.applyUpdateQueue name settings) := by unfold apply; rw [he]
  cases hc : f.queueManager.store.queues.lookup name with
  | none =>
    refine .crash (by unfold Crashes; simp only [he, hc]) ?_
    rw [hap, applyUpdateQueue_missing (h.lookup_none.mp hc) hc]
    rfl
  | some config =>
    obtain ⟨q, hq, hserved⟩ := h.served hc
    have hcrash : Crashes f entry ↔ ¬ Queue.KnownType config.type ∧
        ∃ s, Queue.changedSettings f.queueManager.config config settings = .ok s := by
      unfold Crashes; simp only [he, hc]
    rw [applyUpdateQueue_found hq hserved.config_eq hserved.name_eq] at hap
    cases hs : Queue.changedSettings f.queueManager.config config settings with
    | error e =>
      rw [hs] at hap hcrash
      exact .answer (fun hcr => by obtain ⟨_, s, hs⟩ := hcrash.mp hcr; cases hs) (hap ▸ .intro h)
    | ok settings' =>
      rw [hs] at hap hcrash
      rcases hserved with ⟨hk, m, hl⟩ | ⟨hk, hi⟩
      · refine .answer (fun hcr => (hcrash.mp hcr).1 hk) ?_
        rw [hap, hl.queue_eq]
        refine .intro (h.replace (fun n => FinMap.lookup_insert_eq _ _ _ _) rfl (Or.inl ⟨hk, _, hl.updated settings'⟩)
          fun n id _ => rfl)
      · refine .crash (hcrash.mpr ⟨hk, settings', rfl⟩) ?_
        rw [hap, hi.queue_eq]
        rfl

theorem Safe.withoutQueue (h : Safe f) (name : String) : Safe (f.withoutQueue name) where
  queue n p hp := by
    have hp : (f.queueManager.queues.erase name).lookup n = some p := hp
    show ∃ c, (f.queueManager.store.queues.erase name).lookup n = some c ∧ _
    rw [FinMap.lookup_erase_eq] at hp ⊢
    split at hp
    · cases hp
    · rename_i e
      obtain ⟨c, hc, hserved⟩ := h.queue n p hp
      refine ⟨c, by rw [if_neg e, hc], hserved.fewer fun id msg hm => ?_⟩
      have hm : (FinMap.filter _ _).lookup (n, id) = some msg := hm
      rw [FinMap.lookup_filter] at hm
      exact (Option.filter_eq_some_iff.mp hm).1
  missing n hn := by
    have hn : (f.queueManager.queues.erase name).lookup n = none := hn
    show (f.queueManager.store.queues.erase name).lookup n = none ∧ ∀ id, (FinMap.filter _ _).lookup (n, id) = none
    rw [FinMap.lookup_erase_eq] at hn ⊢
    by_cases e : n = name
    · refine ⟨if_pos e, fun id => ?_⟩
      rw [FinMap.lookup_filter, e, scanned_self]
      cases f.queueManager.store.messages.lookup (name, id) <;> rfl
    · rw [if_neg e] at hn
      obtain ⟨h1, h2⟩ := h.missing n hn
      refine ⟨by rw [if_neg e, h1], fun id => ?_⟩
      rw [FinMap.lookup_filter, h2 id]
      rfl

theorem Safe.delete (h : Safe f) {entry : Entry} (he : entry.command = .deleteQueue name) : Verdict f entry := by
  have hap : f.apply entry = respond (f.applyDeleteQueue name) := by unfold apply; rw [he]
  have hcrash : Crashes f entry ↔ f.queueManager.config.prometheusEnabled = true ∧
      ∃ c, f.queueManager.store.queues.lookup name = some c ∧ ¬ Queue.KnownType c.type := by
    unfold Crashes; simp only [he]
  cases hc : f.queueManager.store.queues.lookup name with
  | none =>
    refine .answer (fun hcr => ?_) ?_
    · obtain ⟨_, c, hc', _⟩ := hcrash.mp hcr
      rw [hc] at hc'; cases hc'
    · rw [hap, applyDeleteQueue_missing (h.lookup_none.mp hc) hc]
      exact .intro h
  | some config =>
    obtain ⟨q, hq, hserved⟩ := h.served hc
    rw [applyDeleteQueue_found hq hserved.config_eq hserved.name_eq hserved.running] at hap
    by_cases hcr : Crashes f entry
    · obtain ⟨hp, c, hc', hk⟩ := hcrash.mp hcr
      rw [hc] at hc'; cases hc'
      refine .crash hcr ?_
      rw [hap, if_pos ⟨hp, hserved.queue_eq_none.mpr hk⟩]
      rfl
    · refine .answer hcr ?_
      rw [hap, if_neg fun hn => hcr (hcrash.mpr ⟨hn.1, config, hc, hserved.queue_eq_none.mp hn.2⟩)]
      exact .intro (h.withoutQueue name)

theorem Safe.verdict (h : Safe f) (entry : Entry) : Verdict f entry := by
  cases hc : entry.command with
  | createQueue name queueType settings =>
    refine .answer (by unfold Crashes; simp only [hc, not_false_eq_true]) ?_
    simp only [apply, hc]
    exact .intro (h.create name queueType settings)
  | updateQueue name settings => exact h.update hc
  | deleteQueue name => exact h.delete hc
  | leaderConfigChange nodeId raftAddr grpcAddr httpAddr =>
    refine .answer (by unfold Crashes; simp only [hc, not_false_eq_true]) ?_
    simp only [apply, hc]
    exact .intro ⟨h.queue, h.missing⟩
  | unset =>
    refine .answer (by unfold Crashes; simp only [hc, not_false_eq_true]) ?_
    simp only [apply, hc]
    exact .intro h
  | _ => exact h.message (by simp only [hc]; rfl)

theorem Safe.step (h : Safe f) {entry : Entry} {reply : Reply} (hs : f.apply entry = some (reply, f')) : Safe f' := by
  cases h.verdict entry with
  | crash _ hn => rw [hs] at hn; cases hn
  | answer _ hr =>
    obtain ⟨r, he, hsafe⟩ := hr
    rw [hs] at he; cases he
    exact hsafe

/-- In every run from the empty state. -/
theorem Runs.safe {cfg : Config} {leaderConfig : LeaderConfig} {events : List (Event FSM Entry Reply)}
    (h : Runs (new cfg leaderConfig) events f) : Safe f :=
  h.keeps (fun _ _ hs hI => hI.step hs) (new_safe cfg leaderConfig)

/-! ## What is answered -/

/-- The queue a command other than `CreateQueue` names. -/
def addressed : Command → Option String
  | .updateQueue name _ => some name
  | .deleteQueue name => some name
  | command => command.queueName

def NotFound (reply : Reply) : Prop := ∃ r e, reply = .response r ∧ r.error = some e ∧ e.err = .queueNotFound

/-- The entry is answered, and one that names a missing queue is told so and changes nothing. -/
def Answered (f : FSM) (entry : Entry) : Prop :=
  Returns (f.apply entry) fun r => ∀ name, addressed entry.command = some name →
    f.queueManager.store.queues.lookup name = none → NotFound r.1 ∧ r.2 = f

theorem Safe.missing_answered (h : Safe f) {entry : Entry} (hn : addressed entry.command = some name)
    (hs : f.queueManager.store.queues.lookup name = none) (hc : ¬ Crashes f entry) :
    ∃ reply, f.apply entry = some (reply, f) ∧ NotFound reply := by
  have hq := h.lookup_none.mp hs
  cases hcmd : entry.command with
  | updateQueue n settings =>
    rw [hcmd] at hn; cases hn
    exact absurd (by unfold Crashes; simp only [hcmd, hs]) hc
  | deleteQueue n =>
    rw [hcmd] at hn; cases hn
    refine ⟨.response (.ofError "delete queue" name .queueNotFound), ?_, _, _, rfl, rfl, rfl⟩
    simp only [apply, hcmd, applyDeleteQueue_missing hq hs, respond, Option.bind_eq_bind, Option.bind_some]
  | createQueue n queueType settings => rw [hcmd] at hn; cases hn
  | leaderConfigChange nodeId raftAddr grpcAddr httpAddr => rw [hcmd] at hn; cases hn
  | unset => rw [hcmd] at hn; cases hn
  | _ =>
    have he : entry.command.queueName = some name := by rw [hcmd] at hn ⊢; exact hn
    exact ⟨_, apply_missing he hq hs, _, _, rfl, rfl, rfl⟩

theorem apply_survives_iff {cfg : Config} {leaderConfig : LeaderConfig} {events : List (Event FSM Entry Reply)}
    (h : Runs (new cfg leaderConfig) events f) (entry : Entry) : Answered f entry ↔ ¬ Crashes f entry := by
  have hsafe := h.safe
  constructor
  · intro ha hcr
    cases hsafe.verdict entry with
    | crash _ hn => obtain ⟨r, he, _⟩ := ha; rw [hn] at he; cases he
    | answer hc _ => exact hc hcr
  · intro hc
    cases hsafe.verdict entry with
    | crash hcr _ => exact absurd hcr hc
    | answer _ hr =>
      obtain ⟨r, he, _⟩ := hr
      refine ⟨r, he, fun name hn hs => ?_⟩
      obtain ⟨reply, he', hnf⟩ := hsafe.missing_answered hn hs hc
      rw [he] at he'; cases he'
      exact ⟨hnf, rfl⟩

/-- The settings of a new queue, all defaults. -/
def plain : QueueSettings := ⟨.unspecified, 0, 0, 0⟩

def defaults : Config := ⟨60, true⟩

/-- A queue of a known type with a message, and one of a type that `CreateQueue` accepts and
    makes no memory queue for. -/
def oddQueue : List Entry :=
  [⟨1, 0, .createQueue "jobs" "delayed" plain⟩, ⟨2, 0, .enqueue "jobs" 1 "g" 5 "x" none⟩,
    ⟨3, 0, .createQueue "odd" "priority" plain⟩]

theorem oddQueue_runs : (exec apply (new defaults (.new "n1" "" "")) oddQueue).isSome := rfl

theorem apply_survives_odd :
    let f := ((exec apply (new defaults (.new "n1" "" "")) oddQueue).get oddQueue_runs).2
    Answered f ⟨4, 9, .dequeue "jobs" false⟩ ∧ Answered f ⟨4, 9, .ack "odd" 1⟩ ∧ Answered f ⟨4, 9, .deleteQueue "jobs"⟩ ∧
      ¬ Answered f ⟨4, 9, .dequeue "odd" false⟩ ∧ ¬ Answered f ⟨4, 9, .deleteQueue "odd"⟩ := by
  intro f
  have h : Runs (new defaults (.new "n1" "" "")) _ f := Run.of_exec_isSome oddQueue_runs
  have hjobs : f.queueManager.store.queues.lookup "jobs" = some ⟨"jobs", "delayed", ⟨.unspecified, 0, 60, 0⟩⟩ := rfl
  have hodd : f.queueManager.store.queues.lookup "odd" = some ⟨"odd", "priority", ⟨.unspecified, 0, 60, 0⟩⟩ := rfl
  refine ⟨(apply_survives_iff h _).mpr ?_, (apply_survives_iff h _).mpr ?_, (apply_survives_iff h _).mpr ?_,
    fun ha => (apply_survives_iff h _).mp ha ?_, fun ha => (apply_survives_iff h _).mp ha ?_⟩
  · rintro ⟨c, hc, hk⟩
    rw [hjobs] at hc; cases hc
    exact hk (by decide)
  · exact id
  · rintro ⟨_, c, hc, hk⟩
    rw [hjobs] at hc; cases hc
    exact hk (by decide)
  · exact ⟨_, hodd, by decide⟩
  · exact ⟨rfl, _, hodd, by decide⟩

/-- A queue that is not there, and one of type "priority", which `CreateQueue` accepts. -/
theorem entries_that_panic :
    let f := new defaults (.new "n1" "" "")
    let create : Entry := ⟨1, 0, .createQueue "jobs" "priority" plain⟩
    exec apply f [⟨1, 0, .updateQueue "jobs" plain⟩] = none ∧
      (exec apply f [create]).isSome ∧
      exec apply f [create, ⟨2, 0, .enqueue "jobs" 1 "g" 0 "" none⟩] = none ∧
      exec apply f [create, ⟨2, 0, .dequeue "jobs" true⟩] = none ∧
      exec apply f [create, ⟨2, 0, .updateQueue "jobs" plain⟩] = none ∧
      exec apply f [create, ⟨2, 0, .deleteQueue "jobs"⟩] = none :=
  ⟨rfl, rfl, rfl, rfl, rfl, rfl⟩

end FSM

end Doq
