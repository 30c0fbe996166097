/-
  Doq.Raft.Step — one entry, seen from one queue (see `Doq.Raft.Fsm`).

  `Safe.seen` lists what an entry can do to the queue of a given name and to what is stored
  under it. Invariants of a queue over runs are derived from this list. `Configures` lists what
  the commands on the queues themselves do to the whole state.
-/

import Doq.Raft.Safety

namespace Doq

open Lib Memory Storage

namespace FSM

/-- What an entry did to the queue `name`. -/
inductive Seen (name : String) (f : FSM) (entry : Entry) (reply : Reply) (f' : FSM) : Prop
  /-- It was about something else. Only `DeleteQueue` of another queue may touch what is
      stored under this name: it scans by a prefix of the key. -/
  | elsewhere (hne : addressed entry.command ≠ some name)
      (hq : f'.queueManager.queues.lookup name = f.queueManager.queues.lookup name)
      (hc : f'.queueManager.store.queues.lookup name = f.queueManager.store.queues.lookup name)
      (hm : ∀ id, f'.queueManager.store.messages.lookup (name, id) = f.queueManager.store.messages.lookup (name, id) ∨
        (∃ n, entry.command = .deleteQueue n ∧ n ≠ name ∧ scanned n (name, id) = true) ∧
          f'.queueManager.store.messages.lookup (name, id) = none)
  /-- It named this queue in vain: the queue is missing, or its settings were refused. -/
  | refused (hs : f.queueManager.queues.lookup name = none ∧ reply = .response (.ofError "queue" name .queueNotFound) ∨
        entry.command.queueName = none) (hf : f' = f)
  | handled (q q' : Queue) (response : FSMResponse) (store' : Store) (he : entry.command.queueName = some name)
      (hq : f.queueManager.queues.lookup name = some q)
      (hh : handle q f.queueManager.store f.queueManager.config entry = some (response, q', store'))
      (hr : reply = .response response) (hf : f' = f.putQueue name q' store')
  | created (queueType : String) (settings settings' : QueueSettings)
      (he : entry.command = .createQueue name queueType settings) (hq : f.queueManager.queues.lookup name = none)
      (ha : Queue.newSettings f.queueManager.config queueType settings = .ok settings')
      (hf : f' = f.putQueue name (Queue.created name queueType settings')
        { f.queueManager.store with queues := f.queueManager.store.queues.insert name ⟨name, queueType, settings'⟩ })
  | updated (q : Queue) (m : MemoryQueue) (config : QueueConfig) (settings settings' : QueueSettings)
      (he : entry.command = .updateQueue name settings) (hq : f.queueManager.queues.lookup name = some q)
      (hc : q.config = some config) (hm : q.queue = some m)
      (ha : Queue.changedSettings f.queueManager.config config settings = .ok settings')
      (hf : f' = f.putQueue name
        { q with
          config := some { config with settings := settings' }
          queue := some (m.updateMaxUnacked settings'.maxUnacked.toNat) }
        { f.queueManager.store with queues := f.queueManager.store.queues.insert name { config with settings := settings' } })
  | deleted (he : entry.command = .deleteQueue name) (hq : f'.queueManager.queues.lookup name = none)

variable {f f' : FSM} {name : String} {entry : Entry} {reply : Reply}

/-- A queue put under another name. -/
theorem Seen.of_put {n : String} {q : Queue} {store' : Store} (hn : n ≠ name) (hne : addressed entry.command ≠ some name)
    (hc : store'.queues.lookup name = f.queueManager.store.queues.lookup name)
    (hm : ∀ id, store'.messages.lookup (name, id) = f.queueManager.store.messages.lookup (name, id)) :
    Seen name f entry reply (f.putQueue n q store') := by
  refine .elsewhere hne ?_ hc fun id => Or.inl (hm id)
  show (f.queueManager.queues.insert n q).lookup name = _
  rw [FinMap.lookup_insert_eq, if_neg hn.symm]

theorem addressed_of_queueName {n : String} (he : entry.command.queueName = some n) : addressed entry.command = some n := by
  cases hc : entry.command <;> rw [hc] at he <;> first | exact he | cases he

/-- A command on messages stays under its queue's name in the store. -/
theorem Safe.handle_frame (h : Safe f) {n : String} {q q' : Queue} {response : FSMResponse} {store' : Store}
    (he : entry.command.queueName = some n) (hq : f.queueManager.queues.lookup n = some q)
    (hh : handle q f.queueManager.store f.queueManager.config entry = some (response, q', store')) :
    StoreFrame n f.queueManager.store store' := by
  obtain ⟨config, _, hserved⟩ := h.queue n q hq
  rcases hserved with ⟨_, m, hl⟩ | ⟨_, hi⟩
  · have hret : Returns (handle q f.queueManager.store f.queueManager.config entry) _ := Live.handle hl he
    obtain ⟨r, hr, m', hh'⟩ := hret
    rw [hh] at hr; cases hr
    exact hh'.frame
  · have hidle := Idle.handle hi he f.queueManager.config
    split at hidle
    · rw [hh] at hidle; cases hidle
    · obtain ⟨r, hr, _⟩ := hidle
      rw [hh] at hr; cases hr
      exact .refl _ _

theorem Safe.seen_message (h : Safe f) {n : String} (he : entry.command.queueName = some n)
    (hs : f.apply entry = some (reply, f')) : Seen name f entry reply f' := by
  cases hq : f.queueManager.queues.lookup n with
  | none =>
    rw [apply_missing he hq (h.missing n hq).1] at hs
    cases hs
    by_cases hn : n = name
    · subst hn; exact .refused (Or.inl ⟨hq, rfl⟩) rfl
    · exact .elsewhere (by rw [addressed_of_queueName he]; simpa using hn) rfl rfl fun id => Or.inl rfl
  | some q =>
    rw [apply_handle he hq] at hs
    obtain ⟨⟨response, q', store'⟩, hh, hr⟩ := Option.map_eq_some_iff.mp hs
    cases hr
    by_cases hn : n = name
    · subst hn
      exact .handled q q' response store' he hq hh rfl rfl
    · have hframe := h.handle_frame he hq hh
      refine .of_put hn (by rw [addressed_of_queueName he]; simpa using hn) (by rw [hframe.queues]) fun id => ?_
      exact hframe.messages name id (Ne.symm hn)

theorem Seen.of_without {n : String} (he : entry.command = .deleteQueue n) : Seen name f entry reply (f.withoutQueue n) := by
  by_cases hn : n = name
  · subst hn
    refine .deleted he ?_
    show (f.queueManager.queues.erase n).lookup n = none
    rw [FinMap.lookup_erase_eq, if_pos rfl]
  · refine .elsewhere (by rw [he]; simpa [addressed] using hn) ?_ ?_ fun id => ?_
    · show (f.queueManager.queues.erase n).lookup name = _
      rw [FinMap.lookup_erase_eq, if_neg (Ne.symm hn)]
    · show (f.queueManager.store.queues.erase n).lookup name = _
      rw [FinMap.lookup_erase_eq, if_neg (Ne.symm hn)]
    · have hl : (f.withoutQueue n).queueManager.store.messages.lookup (name, id) =
          (f.queueManager.store.messages.lookup (name, id)).filter fun _ => !scanned n (name, id) := FinMap.lookup_filter ..
      rw [hl]
      cases hs : scanned n (name, id) with
      | true =>
        refine Or.inr ⟨⟨n, he, hn, hs⟩, ?_⟩
        cases f.queueManager.store.messages.lookup (name, id) <;> rfl
      | false =>
        left
        cases f.queueManager.store.messages.lookup (name, id) <;> rfl

/-- What a command on a queue itself does to the whole of a safe state, if it returns. -/
inductive Configures (f : FSM) : Command → Reply → FSM → Prop
  | notCreated (n queueType : String) (settings : QueueSettings) (e : Err) (hq : f.queueManager.queues.lookup n = none)
      (ha : Queue.newSettings f.queueManager.config queueType settings = .error e) :
      Configures f (.createQueue n queueType settings) (.response (.ofError "create queue" n e)) f
  | existing (n queueType : String) (settings : QueueSettings) (q : Queue) (hq : f.queueManager.queues.lookup n = some q) :
      Configures f (.createQueue n queueType settings) (.response (.ofQueue n)) f
  | created (n queueType : String) (settings settings' : QueueSettings) (hq : f.queueManager.queues.lookup n = none)
      (ha : Queue.newSettings f.queueManager.config queueType settings = .ok settings') :
      Configures f (.createQueue n queueType settings) (.response (.ofQueue n)) (f.putQueue n
        (Queue.created n queueType settings')
        { f.queueManager.store with queues := f.queueManager.store.queues.insert n ⟨n, queueType, settings'⟩ })
  | notUpdated (n : String) (settings : QueueSettings) (config : QueueConfig) (e : Err)
      (hc : f.queueManager.store.queues.lookup n = some config)
      (ha : Queue.changedSettings f.queueManager.config config settings = .error e) :
      Configures f (.updateQueue n settings) (.response (.ofError "update queue" n e)) f
  | updated (n : String) (settings settings' : QueueSettings) (config : QueueConfig) (q : Queue) (m : MemoryQueue)
      (hc : f.queueManager.store.queues.lookup n = some config) (hq : f.queueManager.queues.lookup n = some q)
      (hconfig : q.config = some config) (hm : q.queue = some m)
      (ha : Queue.changedSettings f.queueManager.config config settings = .ok settings') :
      Configures f (.updateQueue n settings) (.response (.ofQueue n)) (f.putQueue n
        { q with
          config := some { config with settings := settings' }
          queue := some (m.updateMaxUnacked settings'.maxUnacked.toNat) }
        { f.queueManager.store with queues := f.queueManager.store.queues.insert n { config with settings := settings' } })
  | missing (n : String) (hq : f.queueManager.queues.lookup n = none) :
      Configures f (.deleteQueue n) (.response (.ofError "delete queue" n .queueNotFound)) f
  | deleted (n : String) (config : QueueConfig) (hc : f.queueManager.store.queues.lookup n = some config) :
      Configures f (.deleteQueue n) (.response (.ofQueue n)) (f.withoutQueue n)

theorem configures_create {n queueType : String} {settings : QueueSettings}
    (he : entry.command = .createQueue n queueType settings) (hs : f.apply entry = some (reply, f')) :
    Configures f (.createQueue n queueType settings) reply f' := by
  have hap : f.apply entry = respond (some (f.applyCreateQueue n queueType settings)) := by unfold apply; rw [he]
  rw [hap] at hs
  cases hq : f.queueManager.queues.lookup n with
  | some q => rw [applyCreateQueue_found hq] at hs; cases hs; exact .existing n queueType settings q hq
  | none =>
    rw [applyCreateQueue_new hq] at hs
    cases ha : Queue.newSettings f.queueManager.config queueType settings with
    | error e => rw [ha] at hs; cases hs; exact .notCreated n queueType settings e hq ha
    | ok settings' => rw [ha] at hs; cases hs; exact .created n queueType settings settings' hq ha

theorem Safe.configures_update (h : Safe f) {n : String} {settings : QueueSettings} (he : entry.command = .updateQueue n settings)
    (hs : f.apply entry = some (reply, f')) : Configures f (.updateQueue n settings) reply f' := by
  have hap : f.apply entry = respond (f.applyUpdateQueue n settings) := by unfold apply; rw [he]
  rw [hap] at hs
  cases hc : f.queueManager.store.queues.lookup n with
  | none => rw [applyUpdateQueue_missing (h.lookup_none.mp hc) hc] at hs; cases hs
  | some config =>
    obtain ⟨q, hq, hserved⟩ := h.served hc
    rw [applyUpdateQueue_found hq hserved.config_eq hserved.name_eq] at hs
    cases ha : Queue.changedSettings f.queueManager.config config settings with
    | error e => rw [ha] at hs; cases hs; exact .notUpdated n settings config e hc ha
    | ok settings' =>
      rw [ha] at hs
      cases hm : q.queue with
      | none => rw [hm] at hs; cases hs
      | some m => rw [hm] at hs; cases hs; exact .updated n settings settings' config q m hc hq hserved.config_eq hm ha

theorem Safe.configures_delete (h : Safe f) {n : String} (he : entry.command = .deleteQueue n)
    (hs : f.apply entry = some (reply, f')) : Configures f (.deleteQueue n) reply f' := by
  have hap : f.apply entry = respond (f.applyDeleteQueue n) := by unfold apply; rw [he]
  rw [hap] at hs
  cases hc : f.queueManager.store.queues.lookup n with
  | none =>
    have hq := h.lookup_none.mp hc
    rw [applyDeleteQueue_missing hq hc] at hs
    cases hs; exact .missing n hq
  | some config =>
    obtain ⟨q, hq, hserved⟩ := h.served hc
    rw [applyDeleteQueue_found hq hserved.config_eq hserved.name_eq hserved.running] at hs
    split at hs <;> cases hs
    exact .deleted n config hc

theorem Configures.seen {command : Command} (h : Configures f command reply f') (he : entry.command = command) :
    Seen name f entry reply f' := by
  -- a queue inserted under another name
  have hother : ∀ {n : String} (config : QueueConfig), n ≠ name →
      (f.queueManager.store.queues.insert n config).lookup name = f.queueManager.store.queues.lookup name := by
    intro n config hn
    rw [FinMap.lookup_insert_eq, if_neg (Ne.symm hn)]
  cases h with
  | notCreated n queueType settings e _ _ => exact .refused (Or.inr (by rw [he]; rfl)) rfl
  | existing n queueType settings q _ => exact .refused (Or.inr (by rw [he]; rfl)) rfl
  | notUpdated n settings config e _ _ => exact .refused (Or.inr (by rw [he]; rfl)) rfl
  | missing n _ => exact .refused (Or.inr (by rw [he]; rfl)) rfl
  | created n queueType settings settings' hq ha =>
    by_cases hn : n = name
    · subst hn
      exact .created queueType settings settings' he hq ha rfl
    · exact .of_put hn (by rw [he]; exact nofun) (hother _ hn) fun id => rfl
  | updated n settings settings' config q m _ hq hconfig hm ha =>
    by_cases hn : n = name
    · subst hn
      exact .updated q m config settings settings' he hq hconfig hm ha rfl
    · exact .of_put hn (by rw [he]; simpa [addressed] using hn) (hother _ hn) fun id => rfl
  | deleted n _ _ => exact .of_without he

theorem Safe.seen (h : Safe f) (hs : f.apply entry = some (reply, f')) (name : String) : Seen name f entry reply f' := by
  cases hc : entry.command with
  | createQueue n queueType settings => exact (configures_create hc hs).seen hc
  | updateQueue n settings => exact (h.configures_update hc hs).seen hc
  | deleteQueue n => exact (h.configures_delete hc hs).seen hc
  | leaderConfigChange nodeId raftAddr grpcAddr httpAddr =>
    simp only [apply, hc] at hs
    cases hs
    exact .elsewhere (by rw [hc]; exact (Option.some_ne_none name).symm) rfl rfl fun id => Or.inl rfl
  | unset =>
    simp only [apply, hc] at hs
    cases hs
    exact .elsewhere (by rw [hc]; exact (Option.some_ne_none name).symm) rfl rfl fun id => Or.inl rfl
  | _ => exact h.seen_message (by rw [hc]; rfl) hs

theorem Configures.config {command : Command} (h : Configures f command reply f') :
    f'.queueManager.config = f.queueManager.config := by
  cases h <;> rfl

/-- The node's configuration is read only. -/
theorem Safe.apply_config (h : Safe f) (hs : f.apply entry = some (reply, f')) :
    f'.queueManager.config = f.queueManager.config := by
  cases hc : entry.command with
  | createQueue n queueType settings => exact (configures_create hc hs).config
  | updateQueue n settings => exact (h.configures_update hc hs).config
  | deleteQueue n => exact (h.configures_delete hc hs).config
  | leaderConfigChange nodeId raftAddr grpcAddr httpAddr => simp only [apply, hc] at hs; cases hs; rfl
  | unset => simp only [apply, hc] at hs; cases hs; rfl
  | _ =>
    obtain ⟨n, he⟩ : ∃ n, entry.command.queueName = some n := by rw [hc]; exact ⟨_, rfl⟩
    cases hq : f.queueManager.queues.lookup n with
    | none => rw [apply_missing he hq (h.missing n hq).1] at hs; cases hs; rfl
    | some q =>
      rw [apply_handle he hq] at hs
      obtain ⟨r, _, hr⟩ := Option.map_eq_some_iff.mp hs
      cases hr; rfl

theorem Runs.config_eq {cfg : Config} {leaderConfig : LeaderConfig} {events : List (Event FSM Entry Reply)}
    (r : Runs (new cfg leaderConfig) events f) : f.queueManager.config = cfg := by
  have key : Safe f ∧ f.queueManager.config = cfg :=
    r.keeps (I := fun f => Safe f ∧ f.queueManager.config = cfg) (fun e _ hs h => ⟨h.1.step hs, (h.1.apply_config hs).trans h.2⟩)
      ⟨new_safe cfg leaderConfig, rfl⟩
  exact key.2

end FSM

end Doq
