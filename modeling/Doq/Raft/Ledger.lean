/-
  Doq.Raft.Ledger — what is stored is what the history says (see `Doq.Raft.Fsm`).

  A ledger keeps the queues and their messages as a client could who sees every command and
  every reply and nothing else: no memory, no clock, no index. `Ledger.next` is its one
  step. The state machine agrees with it (`ledger_step`), for arbitrary groups, ids that are
  enqueued again and queues that are deleted and made again.

  Proved:
  - `ledger_exact`: after every run the store is the ledger of the run, and the replies to
    `Enqueue`, `Dequeue`, `Get` and `Delete` show what the ledger had.
-/

import Doq.Queue.Writes
import Doq.Raft.Delivery

namespace Doq

open Lib Memory Storage

structure Account where
  type : String
  deliveryLimit : UInt32
  messages : Shelf

namespace Account

/-- The message an `Enqueue` makes: queues that are not fair have one group. -/
def enqueued (a : Account) (id : UInt64) (group : String) (priority : Int) (content : String) (metadata : Option Metadata) :
    Message :=
  ⟨if a.type ≠ "fair" then "default" else group, id, priority, content, metadata, 0⟩

theorem enqueued_group (a : Account) (id : UInt64) (group : String) (priority : Int) (content : String)
    (metadata : Option Metadata) :
    (a.enqueued id group priority content metadata).group = group ∨
      (a.enqueued id group priority content metadata).group = "default" := by
  unfold enqueued
  by_cases ht : a.type = "fair"
  · exact Or.inl (if_neg (not_not_intro ht))
  · exact Or.inr (if_pos ht)

/-- The messages after a command that was answered with `r`. -/
def after (a : Account) (command : Command) (r : FSMResponse) : Shelf :=
  if r.error.isSome then a.messages
  else
    match command with
    | .enqueue _ id group priority content metadata =>
      Function.update a.messages id (some (a.enqueued id group priority content metadata))
    | .dequeue _ acked =>
      Function.update a.messages r.id
        (if acked then none else (a.messages r.id).map fun msg => { msg with deliveryCount := msg.deliveryCount + 1 })
    | .delete _ id => Function.update a.messages id none
    | .ack _ id => Function.update a.messages id none
    | .nack _ id priority metadata =>
      Function.update a.messages id ((a.messages id).bind (Message.afterFailure a.deliveryLimit priority metadata))
    | .ackTimeout _ id => Function.update a.messages id ((a.messages id).bind (Message.afterFailure a.deliveryLimit 0 none))
    | .updatePriority _ id priority =>
      Function.update a.messages id ((a.messages id).map fun msg => { msg with priority := priority })
    | _ => a.messages

theorem after_failed {a : Account} {command : Command} {r : FSMResponse} (h : r.error.isSome) :
    a.after command r = a.messages := by
  unfold after
  exact if_pos h

theorem update_group {a : Account} {i id : UInt64} {new : Option Message} {msg : Message}
    (hnew : ∀ msg, new = some msg → ∃ old, a.messages i = some old ∧ msg.group = old.group)
    (h : Function.update a.messages i new id = some msg) : ∃ old, a.messages id = some old ∧ msg.group = old.group := by
  by_cases hid : id = i
  · subst hid
    rw [Function.update_self] at h
    exact hnew msg h
  · rw [Function.update_of_ne hid] at h
    exact ⟨msg, h, rfl⟩

/-- Only an `Enqueue` gives a message a group. -/
theorem after_group {a : Account} {command : Command} {r : FSMResponse} {id : UInt64} {msg : Message}
    (h : a.after command r id = some msg) :
    (∃ old, a.messages id = some old ∧ msg.group = old.group) ∨ ∃ i group priority content metadata,
      msg = a.enqueued i group priority content metadata := by
  have hfailed : ∀ {i : UInt64} {limit : UInt32} {priority : Int} {metadata : Option Metadata} (m : Message),
      (a.messages i).bind (Message.afterFailure limit priority metadata) = some m →
        ∃ old, a.messages i = some old ∧ m.group = old.group := by
    intro i limit priority metadata m hm
    obtain ⟨old, hold, hm⟩ := Option.bind_eq_some_iff.mp hm
    unfold Message.afterFailure at hm
    split at hm <;> cases hm
    exact ⟨old, hold, rfl⟩
  unfold after at h
  split at h
  · exact Or.inl ⟨msg, h, rfl⟩
  cases command with
  | enqueue name i group priority content metadata =>
    simp only [Function.update_apply] at h
    split at h
    · exact Or.inr ⟨i, group, priority, content, metadata, (Option.some.inj h).symm⟩
    · exact Or.inl ⟨msg, h, rfl⟩
  | dequeue name acked =>
    refine Or.inl (update_group (fun m hm => ?_) h)
    cases acked with
    | true => cases hm
    | false =>
      obtain ⟨old, hold, rfl⟩ := Option.map_eq_some_iff.mp hm
      exact ⟨old, hold, rfl⟩
  | delete name i => exact Or.inl (update_group (by rintro m ⟨⟩) h)
  | ack name i => exact Or.inl (update_group (by rintro m ⟨⟩) h)
  | nack name i priority metadata => exact Or.inl (update_group hfailed h)
  | ackTimeout name i => exact Or.inl (update_group hfailed h)
  | updatePriority name i priority =>
    refine Or.inl (update_group (fun m hm => ?_) h)
    obtain ⟨old, hold, rfl⟩ := Option.map_eq_some_iff.mp hm
    exact ⟨old, hold, rfl⟩
  | _ => exact Or.inl ⟨msg, h, rfl⟩

/-- What an answer shows of a message is as the account has it. The commands that are not here
    answer with what was asked of them. -/
def Agrees (a : Account) (name : String) (command : Command) (r : FSMResponse) : Prop :=
  match command with
  | .enqueue _ id group priority content metadata => r = .ofMessage name (a.enqueued id group priority content metadata)
  | .dequeue _ _ => r.error = none →
    ∃ msg, a.messages r.id = some msg ∧ r = .ofMessage name { msg with deliveryCount := msg.deliveryCount + 1 }
  | .get _ id => r = match a.messages id with
    | none => .ofError "get message from queue" name .messageNotFound
    | some msg => .ofMessage name msg
  | .delete _ id => r = match a.messages id with
    | none => .ofError "delete message from queue" name .messageNotFound
    | some _ => .ofId name id
  | _ => True

end Account

abbrev Ledger := String → Option Account

namespace Ledger

def empty : Ledger := fun _ => none

/-- A command that succeeded with the response `r`. `CreateQueue` of a queue that exists
    succeeds and changes nothing; `DeleteQueue` also takes what its scan meets under other names. -/
def succeeded (ledger : Ledger) (command : Command) (r : FSMResponse) : Ledger :=
  match command with
  | .createQueue name queueType settings =>
    if (ledger name).isSome then ledger
    else Function.update ledger name (some ⟨queueType, settings.deliveryLimit, fun _ => none⟩)
  | .updateQueue name settings =>
    Function.update ledger name ((ledger name).map fun a => { a with deliveryLimit := settings.deliveryLimit })
  | .deleteQueue name => fun n =>
    if n = name then none
    else (ledger n).map fun a => { a with messages := fun id => if scanned name (n, id) then none else a.messages id }
  | command =>
    match command.queueName with
    | none => ledger
    | some name => Function.update ledger name ((ledger name).map fun a => { a with messages := a.after command r })

def next (ledger : Ledger) (command : Command) : Reply → Ledger
  | .response r => if r.error.isSome then ledger else ledger.succeeded command r
  | _ => ledger

/-- The ledger of a history. -/
def of (events : List (Event FSM Entry Reply)) : Ledger :=
  events.foldl (fun ledger e => ledger.next e.input.command e.output) empty

/-- The reply to a command on messages is as the ledger says, where it says anything. -/
def Agrees (ledger : Ledger) (command : Command) (reply : Reply) : Prop :=
  ∀ name, command.queueName = some name →
    match ledger name with
    | none => reply = .response (.ofError "queue" name .queueNotFound)
    | some a => ∃ r, reply = .response r ∧ a.Agrees name command r

theorem of_append (events : List (Event FSM Entry Reply)) (e : Event FSM Entry Reply) :
    of (events ++ [e]) = (of events).next e.input.command e.output := by
  simp only [of, List.foldl_append, List.foldl_cons, List.foldl_nil]

theorem succeeded_message {command : Command} {name : String} (he : command.queueName = some name) (ledger : Ledger)
    (r : FSMResponse) :
    ledger.succeeded command r =
      Function.update ledger name ((ledger name).map fun a => { a with messages := a.after command r }) := by
  cases command <;> cases he <;> rfl

theorem next_ok {r : FSMResponse} (hr : r.error = none) (ledger : Ledger) (command : Command) :
    ledger.next command (.response r) = ledger.succeeded command r := by
  simp only [next, hr, Option.isSome_none, Bool.false_eq_true, if_false]

theorem next_message {command : Command} {name : String} {ledger : Ledger} {a : Account} (he : command.queueName = some name)
    (ha : ledger name = some a) (r : FSMResponse) :
    ledger.next command (.response r) = Function.update ledger name (some { a with messages := a.after command r }) := by
  simp only [next]
  split
  · rename_i herror
    refine (Function.update_eq_self_iff.mpr ?_).symm
    rw [ha, Account.after_failed herror]
  · rw [succeeded_message he, ha, Option.map_some]

end Ledger

/-- What is stored for a queue. -/
def Storage.Store.account (store : Store) (name : String) : Option Account :=
  (store.queues.lookup name).map fun config => ⟨config.type, config.settings.deliveryLimit, shelf name store⟩

theorem Storage.Store.account_congr {store store' : Store} {name : String}
    (hq : store'.queues.lookup name = store.queues.lookup name) (hs : shelf name store' = shelf name store) :
    store'.account name = store.account name := by
  unfold account
  rw [hq, hs]

theorem Storage.Store.account_insert (store : Store) (name : String) (config : QueueConfig) :
    account { store with queues := store.queues.insert name config } =
      Function.update store.account name (some ⟨config.type, config.settings.deliveryLimit, shelf name store⟩) := by
  funext n
  by_cases hn : n = name
  · subst hn
    rw [Function.update_self, account, FinMap.lookup_insert_eq, if_pos rfl]
    rfl
  · rw [Function.update_of_ne hn]
    exact account_congr (by rw [FinMap.lookup_insert_eq, if_neg hn]) rfl

/-- One queue of the store was written. -/
theorem Storage.StoreFrame.account {store store' : Store} {name : String} {config : QueueConfig}
    (h : StoreFrame name store store') (hc : store.queues.lookup name = some config) :
    store'.account =
      Function.update store.account name (some ⟨config.type, config.settings.deliveryLimit, shelf name store'⟩) := by
  funext n
  by_cases hn : n = name
  · subst hn
    rw [Function.update_self, Store.account, h.queues, hc, Option.map_some]
  · rw [Function.update_of_ne hn]
    exact Store.account_congr (by rw [h.queues]) (funext fun id => h.messages n id hn)

namespace Queue

variable {name : String} {config : QueueConfig} {q : Queue} {store : Store}

theorem newSettings_deliveryLimit {cfg : Config} {queueType : String} {settings settings' : QueueSettings}
    (h : newSettings cfg queueType settings = .ok settings') : settings'.deliveryLimit = settings.deliveryLimit := by
  unfold newSettings at h
  split at h <;> cases h
  rfl

theorem changedSettings_deliveryLimit {cfg : Config} {settings settings' : QueueSettings}
    (h : changedSettings cfg config settings = .ok settings') : settings'.deliveryLimit = settings.deliveryLimit := by
  unfold changedSettings at h
  split at h
  · cases h
  · split at h <;> cases h
    rfl

theorem Served.keyed (h : Served name config q store) : Keyed name store := by
  rcases h with ⟨_, m, hl⟩ | ⟨_, hi⟩
  · exact hl.keyed
  · intro id msg hm
    rw [hi.empty id] at hm; cases hm

end Queue

namespace FSM

def ledger (f : FSM) : Ledger := f.queueManager.store.account

variable {f f' : FSM} {name : String} {id : UInt64} {entry : Entry} {reply : Reply} {config : QueueConfig} {q q' : Queue}
  {store store' : Store} {cfg : Config} {response : FSMResponse}

theorem ledger_eq_none (h : f.queueManager.store.queues.lookup name = none) : f.ledger name = none :=
  congrArg (Option.map _) h

theorem ledger_eq_some (h : f.queueManager.store.queues.lookup name = some config) :
    f.ledger name = some ⟨config.type, config.settings.deliveryLimit, shelf name f.queueManager.store⟩ :=
  congrArg (Option.map _) h

/-! ## One entry -/

/-- An answered method of a queue against its account. -/
def Accounted (name : String) (a : Account) (command : Command) (store' : Store) (response : FSMResponse) : Prop :=
  shelf name store' = a.after command response ∧ a.Agrees name command response

/-- The account of a queue and its stored messages. -/
def accountOf (config : QueueConfig) (store : Store) : Account :=
  ⟨config.type, config.settings.deliveryLimit, shelf config.name store⟩

theorem after_error {a : Account} {command : Command} {context : String} {e : Err} :
    a.after command (.ofError context name e) = a.messages :=
  Account.after_failed rfl

/-- A method without a result: nothing is written and nothing shown when it fails. -/
theorem accounted_unit {command : Command} {context : String} {answer : FSMResponse} {r : Except Err Unit} {new : Shelf}
    (hfree : ∀ r, (accountOf config store).Agrees config.name command r)
    (hw : Wrote store store' (fun _ => shelf config.name store' = new) r)
    (hnew : (accountOf config store).after command answer = new) :
    Accounted config.name (accountOf config store) command store' (responseTo context config.name (fun _ => answer) r) := by
  refine ⟨?_, hfree _⟩
  cases r with
  | error e =>
    obtain rfl : store' = store := hw
    exact (after_error (a := accountOf config store')).symm
  | ok u =>
    have hw : shelf config.name store' = new := hw
    exact hw.trans hnew.symm

theorem dequeue_accounted (hk : Keyed config.name store) (hc : q.config = some config) {acked : Bool} {seed : UInt64} {now : Int}
    {r : Except Err Message} (h : q.dequeue store cfg noFaults acked seed now = some (r, q', store')) :
    Accounted config.name (accountOf config store) (.dequeue config.name acked) store'
      (responseTo "dequeue message from queue" config.name (.ofMessage config.name) r) := by
  have hw := Queue.dequeue_writes hc hk h
  cases r with
  | error e =>
    obtain rfl : store' = store := hw
    refine ⟨(after_error (a := accountOf config store')).symm, ?_⟩
    rintro ⟨⟩
  | ok msg =>
    obtain ⟨old, hold, hmsg, hs⟩ := hw
    refine ⟨hs.trans ?_, fun _ => ⟨old, hold, congrArg (FSMResponse.ofMessage config.name) hmsg⟩⟩
    have hstored : ((accountOf config store).messages msg.id).map
        (fun m => { m with deliveryCount := m.deliveryCount + 1 }) = some msg := by
      rw [show (accountOf config store).messages msg.id = some old from hold, Option.map_some, ← hmsg]
    simp only [responseTo, Account.after, FSMResponse.ofMessage, Option.isSome_none, Bool.false_eq_true, if_false, hstored]
    rfl

theorem get_accounted (hc : q.config = some config) {r : Except Err Message} (h : q.get store noFaults id = some r) :
    Accounted config.name (accountOf config store) (.get config.name id) store
      (responseTo "get message from queue" config.name (.ofMessage config.name) r) := by
  have hr := Queue.get_reads hc h
  refine ⟨by simp [Account.after, accountOf], ?_⟩
  subst hr
  simp only [Account.Agrees, accountOf]
  cases shelf config.name store id <;> rfl

theorem delete_accounted (hk : Keyed config.name store) (hc : q.config = some config) {r : Except Err Unit}
    (h : q.delete store noFaults id = some (r, q', store')) :
    Accounted config.name (accountOf config store) (.delete config.name id) store'
      (responseTo "delete message from queue" config.name (fun _ => .ofId config.name id) r) := by
  obtain ⟨hr, hs⟩ := Queue.delete_writes hc hk h
  unfold Accounted
  rw [hs]
  have hmessages : (accountOf config store).messages id = shelf config.name store id := rfl
  simp only [Account.Agrees, hmessages]
  cases hm : shelf config.name store id with
  | none =>
    rw [hm] at hr
    subst hr
    rw [Function.update_eq_self_iff.mpr hm.symm]
    exact ⟨(after_error (a := accountOf config store)).symm, rfl⟩
  | some msg =>
    rw [hm] at hr
    subst hr
    exact ⟨rfl, rfl⟩

theorem of_wrapped {α : Type} {context : String} {answer : α → FSMResponse} {x : Go (Queue.Outcome α)}
    (h : x.map (wrap context name answer) = some (response, q', store')) :
    ∃ r, x = some (r, q', store') ∧ response = responseTo context name answer r := by
  obtain ⟨⟨r, q₁, store₁⟩, hx, hr⟩ := Option.map_eq_some_iff.mp h
  cases hr
  exact ⟨r, hx, rfl⟩

theorem handle_accounted (hc : q.config = some config) (hk : Keyed config.name store) (ha : q.ackQueue.queue.Sound)
    (he : entry.command.queueName = some config.name) (hh : handle q store cfg entry = some (response, q', store')) :
    Accounted config.name (accountOf config store) entry.command store' response := by
  unfold FSM.handle at hh
  cases hcommand : entry.command <;> rw [hcommand] at he hh <;> cases he
  case get id =>
    obtain ⟨r, hm, hr⟩ := Option.map_eq_some_iff.mp hh
    cases hr
    exact get_accounted hc hm
  all_goals obtain ⟨r, hm, rfl⟩ := of_wrapped hh
  case enqueue id group priority content metadata =>
    obtain ⟨rfl, hs⟩ := Queue.enqueue_writes hc hm
    exact ⟨hs, rfl⟩
  case dequeue acked => exact dequeue_accounted hk hc hm
  case delete id => exact delete_accounted hk hc hm
  case ack id => exact accounted_unit (fun _ => trivial) (Queue.ack_writes hc hm) rfl
  case nack id priority metadata => exact accounted_unit (fun _ => trivial) (Queue.nack_writes hc hk ha hm) rfl
  case touch id =>
    obtain rfl := Queue.touch_writes hm
    have hw : Wrote store' store' (fun _ => shelf config.name store' = shelf config.name store') r := by cases r <;> rfl
    exact accounted_unit (fun _ => trivial) hw rfl
  case ackTimeout id => exact accounted_unit (fun _ => trivial) (Queue.ackTimeout_writes hc hk hm) rfl
  case updatePriority id priority => exact accounted_unit (fun _ => trivial) (Queue.updatePriority_writes hc hm) rfl

theorem Safe.ledger_message (h : Safe f) (he : entry.command.queueName = some name) (hs : f.apply entry = some (reply, f')) :
    f'.ledger = f.ledger.next entry.command reply ∧ f.ledger.Agrees entry.command reply := by
  have hname : ∀ n, entry.command.queueName = some n → n = name := fun n hn => Option.some.inj (hn.symm.trans he)
  cases hq : f.queueManager.queues.lookup name with
  | none =>
    have hmissing := (h.missing name hq).1
    rw [apply_missing he hq hmissing] at hs
    cases hs
    refine ⟨rfl, fun n hn => ?_⟩
    rw [hname n hn, ledger_eq_none hmissing]
  | some q =>
    obtain ⟨config, hconfig, hserved⟩ := h.queue name q hq
    obtain rfl := hserved.name_eq
    have haccount : f.ledger config.name = some (accountOf config f.queueManager.store) := ledger_eq_some hconfig
    rw [apply_handle he hq] at hs
    obtain ⟨⟨response, q', store'⟩, hh, hr⟩ := Option.map_eq_some_iff.mp hs
    cases hr
    obtain ⟨hshelf, hanswers⟩ := handle_accounted hserved.config_eq hserved.keyed hserved.sound he hh
    refine ⟨?_, fun n hn => ?_⟩
    · rw [Ledger.next_message he haccount, ← hshelf]
      exact (h.handle_frame he hq hh).account hconfig
    · rw [hname n hn, haccount]
      exact ⟨response, rfl, hanswers⟩

theorem ledger_withoutQueue (f : FSM) (name : String) {r : FSMResponse} (hr : r.error = none) :
    (f.withoutQueue name).ledger = f.ledger.next (.deleteQueue name) (.response r) := by
  rw [Ledger.next_ok hr]
  funext n
  simp only [Ledger.succeeded]
  have hqueues : (f.withoutQueue name).queueManager.store.queues.lookup n =
      if n = name then none else f.queueManager.store.queues.lookup n := FinMap.lookup_erase_eq ..
  split
  · rename_i hn
    exact ledger_eq_none (hqueues.trans (if_pos hn))
  · rename_i hn
    have hshelf : shelf n (f.withoutQueue name).queueManager.store = fun id =>
        if scanned name (n, id) then none else shelf n f.queueManager.store id := by
      funext id
      have hl : (f.withoutQueue name).queueManager.store.messages.lookup (n, id) =
          (f.queueManager.store.messages.lookup (n, id)).filter fun _ => !scanned name (n, id) := FinMap.lookup_filter ..
      unfold shelf
      rw [hl]
      cases scanned name (n, id) <;> cases f.queueManager.store.messages.lookup (n, id) <;> rfl
    unfold ledger Store.account
    rw [hqueues, if_neg hn, hshelf, Option.map_map]
    rfl

theorem Configures.ledger (h : Safe f) {command : Command} (hc : Configures f command reply f') :
    f'.ledger = f.ledger.next command reply := by
  cases hc with
  | notCreated | notUpdated | missing => rfl
  | existing n queueType settings q hq =>
    obtain ⟨config, hconfig, _⟩ := h.queue n q hq
    rw [Ledger.next_ok rfl]
    simp only [Ledger.succeeded, ledger_eq_some hconfig, Option.isSome_some, if_true]
  | created n queueType settings settings' hq ha =>
    obtain ⟨hconfig, hempty⟩ := h.missing n hq
    have hshelf : shelf n f.queueManager.store = fun _ => none := funext hempty
    rw [Ledger.next_ok rfl]
    simp only [Ledger.succeeded, ledger_eq_none hconfig, Option.isSome_none, Bool.false_eq_true, if_false]
    rw [← hshelf, ← Queue.newSettings_deliveryLimit ha]
    exact Store.account_insert _ _ _
  | updated n settings settings' config q m hconfig _ _ _ ha =>
    rw [Ledger.next_ok rfl]
    simp only [Ledger.succeeded, ledger_eq_some hconfig, Option.map_some]
    rw [← Queue.changedSettings_deliveryLimit ha]
    exact Store.account_insert _ _ { config with settings := settings' }
  | deleted n _ _ => exact ledger_withoutQueue f n rfl

theorem Safe.ledger_step (h : Safe f) (hs : f.apply entry = some (reply, f')) :
    f'.ledger = f.ledger.next entry.command reply ∧ f.ledger.Agrees entry.command reply := by
  have hnone : ∀ command : Command, command.queueName = none → f.ledger.Agrees command reply := by
    intro command hc name hn
    rw [hc] at hn; cases hn
  cases hc : entry.command with
  | createQueue n queueType settings => exact ⟨(configures_create hc hs).ledger h, hnone _ rfl⟩
  | updateQueue n settings => exact ⟨(h.configures_update hc hs).ledger h, hnone _ rfl⟩
  | deleteQueue n => exact ⟨(h.configures_delete hc hs).ledger h, hnone _ rfl⟩
  | leaderConfigChange nodeId raftAddr grpcAddr httpAddr =>
    simp only [apply, hc] at hs
    cases hs
    exact ⟨rfl, hnone _ rfl⟩
  | unset =>
    simp only [apply, hc] at hs
    cases hs
    exact ⟨rfl, hnone _ rfl⟩
  | _ => exact hc ▸ h.ledger_message (by rw [hc]; rfl) hs

/-! ## Whole runs -/

variable {leaderConfig : LeaderConfig} {events : List (Event FSM Entry Reply)}

theorem Runs.ledger_eq (h : Runs (new cfg leaderConfig) events f) : f.ledger = Ledger.of events := by
  have key : Safe f ∧ f.ledger = Ledger.of events :=
    h.history (fun (g : Ledger) (e : Event FSM Entry Reply) => g.next e.input.command e.output) (g := Ledger.empty)
      (I := fun g f => Safe f ∧ f.ledger = g)
      (fun g e _ hs hI => ⟨hI.1.step hs, hI.2 ▸ (hI.1.ledger_step hs).1⟩) ⟨new_safe cfg leaderConfig, rfl⟩
  exact key.2

theorem ledger_exact (h : Runs (new cfg leaderConfig) events f) :
    f.ledger = Ledger.of events ∧
      ∀ earlier e later, events = earlier ++ e :: later → (Ledger.of earlier).Agrees e.input.command e.output := by
  refine ⟨h.ledger_eq, ?_⟩
  rintro earlier e later rfl
  obtain ⟨hbefore, hstep, _⟩ := h.at_event
  rw [← Runs.ledger_eq hbefore]
  exact ((Runs.safe hbefore).ledger_step hstep).2

/-- An id enqueued again while it is delivered. -/
def reenqueued : List Entry :=
  [⟨1, 0, .createQueue "jobs" "delayed" plain⟩, ⟨2, 0, .enqueue "jobs" 1 "" 0 "first" none⟩, ⟨3, 0, .dequeue "jobs" false⟩,
    ⟨4, 0, .enqueue "jobs" 1 "" 0 "second" none⟩, ⟨5, 0, .get "jobs" 1⟩]

theorem reenqueued_runs : (exec apply (new defaults (.new "n1" "" "")) reenqueued).isSome := rfl

theorem ledger_exact_reenqueued :
    let r := (exec apply (new defaults (.new "n1" "" "")) reenqueued).get reenqueued_runs
    r.2.ledger = Ledger.of r.1 ∧ (Ledger.of (r.1.take 3)).Agrees (.enqueue "jobs" 1 "" 0 "second" none)
      (.response (.ofMessage "jobs" ⟨"default", 1, 0, "second", none, 0⟩)) := by
  have h := ledger_exact (Run.of_exec_isSome reenqueued_runs)
  exact ⟨h.1, h.2 _ _ _ (List.take_append_drop 3 _).symm⟩

end FSM

end Doq
