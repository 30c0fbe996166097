/-
  Doq.Raft.Isolation — what a command on one queue does to the others (see `Doq.Raft.Fsm`,
  `Doq.Storage.Keys`).

  In memory every queue is its own object, and the store's single-key operations name their
  key. `DeleteQueue` and `PersistSnapshot` scan by byte prefix, and meet every message whose
  key starts with "messages:<name>:", under whatever queue it is stored.

  Proved:
  - `isolated_iff`: in every state a run reaches, commands on `a` leave every other queue
    alone, a snapshot writes under `a` exactly its messages, and deleting `a` removes
    exactly its messages, if and only if `a` is missing or no message of another queue lies
    under its prefix.
  - `colon_in_name_leaks`: with queues "jobs" and "jobs:eu" all three fail.
-/

import Doq.Raft.Snapshot
import Doq.Raft.Step

namespace Doq

open Lib Memory Storage

/-! ## Scans -/

namespace Storage.Store

/-- The messages stored under a queue's own name. -/
def own (store : Store) (name : String) : List Message :=
  (store.messages.entries.filter fun e => decide (e.1.1 = name)).map fun e => e.2

theorem scan_perm (store : Store) (name : String) :
    (store.scan name).Perm ((store.messages.entries.filter fun e => scanned name e.1).map fun e => e.2) :=
  (List.mergeSort_perm _ _).map _

/-- No message of another queue lies under the prefix. -/
def Apart (store : Store) (name : String) : Prop := ∀ key ∈ store.messages.keys, scanned name key = true → key.1 = name

instance (store : Store) (name : String) : Decidable (store.Apart name) := inferInstanceAs (Decidable (∀ key ∈ _, _))

theorem mem_keys {store : Store} {key : String × UInt64} {msg : Message} (h : store.messages.lookup key = some msg) :
    key ∈ store.messages.keys := AList.mem_keys.mp (AList.lookup_isSome.mp (by rw [h]; rfl))

theorem scan_perm_own_iff (store : Store) (name : String) : (store.scan name).Perm (store.own name) ↔ store.Apart name := by
  have hsub : (store.messages.entries.filter fun e => decide (e.1.1 = name)) =
      (store.messages.entries.filter fun e => scanned name e.1).filter fun e => decide (e.1.1 = name) := by
    rw [List.filter_filter]
    refine List.filter_congr fun e _ => ?_
    by_cases he : e.1.1 = name
    · have : scanned name e.1 = true := by rw [← he]; exact scanned_self e.1.1 e.1.2
      simp [he, this]
    · simp [he]
  constructor
  · intro hp key hkey hscan
    have hlen := ((scan_perm store name).symm.trans hp).length_eq
    unfold own at hlen
    rw [hsub, List.length_map, List.length_map, eq_comm, List.length_filter_eq_length_iff] at hlen
    obtain ⟨e, he, rfl⟩ := List.mem_map.mp hkey
    exact of_decide_eq_true (hlen e (List.mem_filter.mpr ⟨he, hscan⟩))
  · intro ha
    refine (scan_perm store name).trans ?_
    unfold own
    have hall : ∀ e ∈ store.messages.entries.filter fun e => scanned name e.1, decide (e.1.1 = name) = true := by
      intro e he
      obtain ⟨hmem, hscan⟩ := List.mem_filter.mp he
      exact decide_eq_true (ha e.1 (List.mem_map_of_mem hmem) hscan)
    rw [hsub, List.filter_eq_self.mpr hall]

end Storage.Store

/-! ## Commands -/

/-- The queue a command is about. -/
def Command.target : Command → Option String
  | .createQueue name _ _ => some name
  | command => FSM.addressed command

/-- The messages among the items of a snapshot. -/
def SnapshotItem.messages (items : List SnapshotItem) : List Message :=
  items.filterMap fun item => match item with
    | .message msg => some msg
    | _ => none

namespace FSM

/-- The configuration, the stored messages and the memory of the queue are as before. -/
structure Untouched (name : String) (f f' : FSM) : Prop where
  config : f'.queueManager.store.queues.lookup name = f.queueManager.store.queues.lookup name
  stored : ∀ id, f'.queueManager.store.messages.lookup (name, id) = f.queueManager.store.messages.lookup (name, id)
  memory : f'.queueManager.queues.lookup name = f.queueManager.queues.lookup name

/-- What is done to the queue `a` stays in the queue `a`. -/
structure Isolated (a : String) (f : FSM) : Prop where
  commands : ∀ entry reply f' b, entry.command.target = some a → f.apply entry = some (reply, f') → b ≠ a → Untouched b f f'
  snapshot : ∀ q state items, f.queueManager.queues.lookup a = some q →
    q.persistSnapshot f.queueManager.store state = some items → (SnapshotItem.messages items).Perm (f.queueManager.store.own a)
  deleted : ∀ entry response f', entry.command = .deleteQueue a → f.apply entry = some (.response response, f') →
    response.error = none → ∀ key, f'.queueManager.store.messages.lookup key =
      if key.1 = a then none else f.queueManager.store.messages.lookup key

variable {f f' : FSM} {a b name : String} {entry : Entry} {reply : Reply} {q : Queue}

/-- A command on another queue: only `DeleteQueue` reaches this one. -/
theorem Safe.untouched (h : Safe f) (ht : entry.command.target = some a) (hs : f.apply entry = some (reply, f')) (hb : b ≠ a)
    (hscan : entry.command = .deleteQueue a → ∀ id msg, f.queueManager.store.messages.lookup (b, id) = some msg →
      scanned a (b, id) = false) : Untouched b f f' := by
  have hno : addressed entry.command ≠ some b := by
    intro he
    cases hc : entry.command <;> rw [hc] at ht he <;> cases ht <;> cases he <;> exact hb rfl
  cases h.seen hs b with
  | elsewhere hne hq hc hm =>
    refine ⟨hc, fun id => ?_, hq⟩
    rcases hm id with hm | ⟨⟨n, hcmd, _, hhit⟩, hnone⟩
    · exact hm
    · rw [hcmd] at ht; cases ht
      cases hl : f.queueManager.store.messages.lookup (b, id) with
      | none => exact hnone
      | some msg => rw [hscan hcmd id msg hl] at hhit; cases hhit
  | refused _ hf => subst hf; exact ⟨rfl, fun _ => rfl, rfl⟩
  | handled q q' response store' he => exact absurd (addressed_of_queueName he) hno
  | created queueType settings settings' he => rw [he] at ht; cases ht; exact absurd rfl hb
  | updated q m config settings settings' he => rw [he] at hno; exact absurd rfl hno
  | deleted he => rw [he] at hno; exact absurd rfl hno

theorem messages_append (l l' : List SnapshotItem) :
    SnapshotItem.messages (l ++ l') = SnapshotItem.messages l ++ SnapshotItem.messages l' := List.filterMap_append

theorem messages_markers (l : List (UInt64 × Int)) : SnapshotItem.messages (l.map fun u => .unackedMessage u.1 u.2) = [] := by
  unfold SnapshotItem.messages
  rw [List.filterMap_map, List.filterMap_eq_nil_iff]
  exact fun _ _ => rfl

theorem messages_messages (l : List Message) : SnapshotItem.messages (l.map .message) = l := by
  unfold SnapshotItem.messages
  rw [List.filterMap_map]
  exact List.filterMap_some

theorem messages_persisted {store : Store} {state : SnapshotState} {items : List SnapshotItem} {config : QueueConfig}
    (hc : q.config = some config) (h : q.persistSnapshot store state = some items) :
    SnapshotItem.messages items = store.scan config.name := by
  have hhead : SnapshotItem.messages ([.queue config] ++ state.unacked.map fun u => .unackedMessage u.1 u.2) = [] := by
    rw [messages_append, messages_markers]; rfl
  unfold Queue.persistSnapshot at h
  simp only [hc, Option.bind_eq_bind, Option.bind_some] at h
  cases hr : state.roundRobin with
  | none =>
    rw [hr] at h; cases h
    rw [messages_append, messages_messages, ← List.singleton_append, hhead, List.nil_append]
  | some nodes =>
    rw [hr] at h; cases h
    rw [messages_append, messages_append, messages_messages, ← List.singleton_append, hhead, List.nil_append]
    exact List.append_nil _

/-- A queue that was deleted, and what the scan took with it. -/
theorem Safe.deleted_lookup (h : Safe f) {response : FSMResponse} (hc : entry.command = .deleteQueue a)
    (hs : f.apply entry = some (.response response, f')) (he : response.error = none) (key : String × UInt64) :
    f'.queueManager.store.messages.lookup key = (f.queueManager.store.messages.lookup key).filter fun _ => !scanned a key := by
  cases h.configures_delete hc hs with
  | missing => cases he
  | deleted => exact FinMap.lookup_filter _ _ _

theorem filter_not_scanned {o : Option Message} {key : String × UInt64} :
    (o.filter fun _ => !scanned a key) = if scanned a key then none else o := by
  cases scanned a key <;> cases o <;> rfl

theorem Safe.isolated (h : Safe f) (ha : f.queueManager.queues.lookup a ≠ none → f.queueManager.store.Apart a) :
    Isolated a f where
  commands entry reply f' b ht hs hb := by
    cases hq : f.queueManager.queues.lookup a with
    | some q =>
      refine h.untouched ht hs hb fun _ id msg hm => ?_
      by_contra hscan
      exact hb (ha (by rw [hq]; nofun) (b, id) (Store.mem_keys hm) (Bool.not_eq_false _ ▸ hscan))
    | none =>
      by_cases hd : entry.command = .deleteQueue a
      · -- nothing is scanned when the queue is missing
        have hap : f.apply entry = respond (f.applyDeleteQueue a) := by unfold apply; rw [hd]
        rw [hap, applyDeleteQueue_missing hq (h.missing a hq).1] at hs
        cases hs
        exact ⟨rfl, fun _ => rfl, rfl⟩
      · exact h.untouched ht hs hb fun hc => absurd hc hd
  snapshot q state items hq hp := by
    obtain ⟨config, _, hserved⟩ := h.queue a q hq
    rw [messages_persisted hserved.config_eq hp, hserved.name_eq]
    exact (Store.scan_perm_own_iff _ _).mpr (ha (by rw [hq]; nofun))
  deleted entry response f' hc hs he key := by
    rw [h.deleted_lookup hc hs he key, filter_not_scanned]
    by_cases hk : key.1 = a
    · have hscan : scanned a key = true := by rw [← hk]; exact scanned_self key.1 key.2
      rw [if_pos hscan, if_pos hk]
    · rw [if_neg hk]
      split
      · rename_i hscan
        cases hl : f.queueManager.store.messages.lookup key with
        | none => rfl
        | some msg =>
          refine absurd (ha (fun hq => ?_) key (Store.mem_keys hl) hscan) hk
          -- an accepted deletion is one of a queue that was there
          have hap : f.apply entry = respond (f.applyDeleteQueue a) := by unfold apply; rw [hc]
          rw [hap, applyDeleteQueue_missing hq (h.missing a hq).1] at hs
          cases hs; cases he
      · rfl

theorem isolated_iff {cfg : Config} {leaderConfig : LeaderConfig} {events : List (Event FSM Entry Reply)} {f : FSM}
    (r : Runs (new cfg leaderConfig) events f) (a : String) :
    Isolated a f ↔ (f.queueManager.queues.lookup a ≠ none → f.queueManager.store.Apart a) := by
  refine ⟨fun h hq => ?_, r.safe.isolated⟩
  obtain ⟨q, hq⟩ := Option.ne_none_iff_exists'.mp hq
  obtain ⟨config, _, hserved⟩ := r.safe.queue a q hq
  obtain ⟨items, hp⟩ : ∃ items, q.persistSnapshot f.queueManager.store ⟨[], none⟩ = some items := by
    rw [Queue.persistSnapshot, hserved.config_eq]; exact ⟨_, rfl⟩
  have hperm := h.snapshot q _ _ hq hp
  rw [messages_persisted hserved.config_eq hp, hserved.name_eq] at hperm
  exact (Store.scan_perm_own_iff _ _).mp hperm

/-- Two delayed queues with one message each. -/
def twoQueues (a b : String) : List Entry :=
  [⟨1, 0, .createQueue a "delayed" plain⟩, ⟨2, 0, .createQueue b "delayed" plain⟩, ⟨3, 0, .enqueue a 1 "" 0 "" none⟩,
    ⟨4, 0, .enqueue b 2 "" 0 "" none⟩]

theorem jobs_mail_runs : (exec apply (new defaults (.new "n1" "" "")) (twoQueues "jobs" "mail")).isSome := rfl

theorem jobs_jobsEu_runs : (exec apply (new defaults (.new "n1" "" "")) (twoQueues "jobs" "jobs:eu")).isSome := rfl

theorem isolated_jobs : ∃ events f, Runs (new defaults (.new "n1" "" "")) events f ∧
    f.queueManager.store.messages.keys.length = 2 ∧ Isolated "jobs" f := by
  have r := Run.of_exec_isSome jobs_mail_runs
  exact ⟨_, _, r, rfl, (isolated_iff r "jobs").mpr fun _ => by decide⟩

/-- Deleting "jobs" takes the message of "jobs:eu", whose queue still has it ready, and a
    snapshot writes that message under both. -/
theorem colon_in_name_leaks :
    let delete : Entry := ⟨5, 0, .deleteQueue "jobs"⟩
    ∃ events f f' reply q items, Runs (new defaults (.new "n1" "" "")) events f ∧ f.apply delete = some (reply, f') ∧
      (f.queueManager.store.messages.lookup ("jobs:eu", 2)).isSome ∧ f'.queueManager.store.messages.lookup ("jobs:eu", 2) = none ∧
      f.queueManager.queues.lookup "jobs" = some q ∧ q.persistSnapshot f.queueManager.store ⟨[], none⟩ = some items ∧
      ((SnapshotItem.messages items).map Message.id).Perm [1, 2] ∧ (f.queueManager.store.own "jobs").map Message.id = [1] := by
  refine ⟨_, _, _, _, _, _, Run.of_exec_isSome jobs_jobsEu_runs, rfl, rfl, rfl, rfl, rfl, ?_, rfl⟩
  rw [messages_append, messages_messages]
  exact ((Store.scan_perm _ _).map _).trans (by decide)

end FSM

end Doq
