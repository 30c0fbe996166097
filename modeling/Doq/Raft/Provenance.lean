/-
  Doq.Raft.Provenance — where a message comes from and where it goes, over a run.

  An event does one of five things to a message of the ledger (`Ledger.Fate`): it enqueues it,
  delivers it, keeps it, takes it out, or leaves it missing. Ids may be enqueued again.

  Proved:
  - `delivered_as_enqueued`: a message that `Dequeue` or `Get` returns has the content of the
    last `Enqueue` of its id, and its delivery count is the number of deliveries since.
  - `stored_until_removed`: a message that was enqueued is stored until it is acked, deleted,
    dropped at its limit, delivered with `ack` or deleted with a queue.
-/

import Doq.Raft.Ledger

namespace Doq

open Lib Memory Storage

namespace FSM

variable {name : String} {id : UInt64} {e : Event FSM Entry Reply}

/-- The queue and the id of a delivery. -/
def deliveredId (e : Event FSM Entry Reply) : Option (String × UInt64) :=
  match e.input.command, e.output with
  | .dequeue n _, .response r => if r.error = none then some (n, r.id) else none
  | _, _ => none

theorem delivers_iff : Delivers name id e ↔ deliveredId e = some (name, id) := by
  unfold deliveredId
  constructor
  · rintro ⟨acked, r, hc, hr, hok, rfl⟩
    simp only [hc, hr, hok, if_true]
  · intro h
    split at h
    · rename_i n acked r hc hr
      split at h <;> cases h
      exact ⟨acked, r, hc, hr, ‹_›, rfl⟩
    · cases h

instance : Decidable (Delivers name id e) := decidable_of_iff _ delivers_iff.symm

/-- `DeleteQueue` removes the message, with its own queue or because its scan meets it. -/
def Sweeps (name : String) (id : UInt64) (e : Event FSM Entry Reply) : Prop :=
  ∃ n, e.input.command = .deleteQueue n ∧ Succeeds e ∧ scanned n (name, id) = true

end FSM

open FSM

namespace Ledger

def find (ledger : Ledger) (name : String) (id : UInt64) : Option Message := (ledger name).bind fun a => a.messages id

/-- The delivery that failed was the last one that the queue's limit allows. -/
def Exhausts (ledger : Ledger) (name : String) (id : UInt64) (e : Event FSM Entry Reply) : Prop :=
  Fails name id e ∧ ∃ a msg, ledger name = some a ∧ a.messages id = some msg ∧ 0 < a.deliveryLimit ∧
    a.deliveryLimit ≤ msg.deliveryCount

/-- The event takes the message out of the ledger. -/
def Takes (ledger : Ledger) (name : String) (id : UInt64) (e : Event FSM Entry Reply) : Prop :=
  (Delivers name id e ∧ e.input.command = .dequeue name true) ∨ (e.input.command = .ack name id ∧ Succeeds e) ∨
    (e.input.command = .delete name id ∧ Succeeds e) ∨ ledger.Exhausts name id e ∨ Sweeps name id e

/-- What an event makes of one message. -/
inductive Fate (ledger : Ledger) (name : String) (id : UInt64) (e : Event FSM Entry Reply) :
    Option Message → Option Message → Prop
  | entered (old : Option Message) (msg : Message) (group : String) (priority : Int) (metadata : Option Metadata)
      (he : e.input.command = .enqueue name id group priority msg.content metadata) (hs : Succeeds e)
      (hg : msg.group = group ∨ msg.group = "default") (hcount : msg.deliveryCount = 0) : Fate ledger name id e old (some msg)
  | delivered (msg : Message) (hn : ¬ Enqueues name id e) (hd : Delivers name id e) :
      Fate ledger name id e (some msg) (some { msg with deliveryCount := msg.deliveryCount + 1 })
  | kept (old msg : Message) (hn : ¬ Enqueues name id e) (hd : ¬ Delivers name id e) (hcontent : msg.content = old.content)
      (hgroup : msg.group = old.group) (hcount : msg.deliveryCount = old.deliveryCount) :
      Fate ledger name id e (some old) (some msg)
  | taken (old : Message) (h : ledger.Takes name id e) : Fate ledger name id e (some old) none
  | missing : Fate ledger name id e none none

variable {ledger : Ledger} {name : String} {id : UInt64} {e : Event FSM Entry Reply} {r : FSMResponse}

/-- The event neither enqueues nor delivers the message. -/
def Passes (name : String) (id : UInt64) (e : Event FSM Entry Reply) : Prop := ¬ Enqueues name id e ∧ ¬ Delivers name id e

theorem passes {command : Command} (hc : e.input.command = command)
    (hn : command.queueName = some name → command.enqueued ≠ some id) (hd : ∀ acked, command ≠ .dequeue name acked) :
    Passes name id e := by
  refine ⟨?_, ?_⟩
  · rintro ⟨hname, hid, _⟩
    exact hn (hc ▸ hname) (hc ▸ hid)
  · rintro ⟨acked, _, hdequeue, _⟩
    exact hd acked (hc.symm.trans hdequeue)

theorem Passes.same (h : Passes name id e) (old : Option Message) : Fate ledger name id e old old := by
  cases old with
  | none => exact .missing
  | some msg => exact .kept msg msg h.1 h.2 rfl rfl rfl

/-- An event that fails changes nothing. -/
theorem Fate.failed (hs : ¬ Succeeds e) (old : Option Message) : Fate ledger name id e old old :=
  Passes.same ⟨fun h => hs h.2.2, by rintro ⟨acked, r, _, hr, hok, _⟩; exact hs ⟨r, hr, hok⟩⟩ old

variable {a : Account}

/-- A command on one message. -/
theorem Fate.update {i : UInt64} {new : Option Message} (hself : id = i → Fate ledger name id e (a.messages i) new)
    (hother : id ≠ i → Passes name id e) : Fate ledger name id e (a.messages id) (Function.update a.messages i new id) := by
  by_cases hid : id = i
  · subst hid
    rw [Function.update_self]
    exact hself rfl
  · rw [Function.update_of_ne hid]
    exact (hother hid).same _

theorem fate_enqueued {i : UInt64} {group content : String} {priority : Int} {metadata : Option Metadata}
    (hc : e.input.command = .enqueue name i group priority content metadata) (hs : Succeeds e) :
    Fate ledger name id e (a.messages id)
      (Function.update a.messages i (some (a.enqueued i group priority content metadata)) id) := by
  refine .update ?_ fun hid => passes hc (fun _ h => hid (Option.some.inj h).symm) (by rintro _ ⟨⟩)
  rintro rfl
  exact .entered _ _ group priority metadata hc hs (a.enqueued_group ..) rfl

theorem fate_delivered {acked : Bool} (hc : e.input.command = .dequeue name acked) (hr : e.output = .response r)
    (hok : r.error = none) :
    Fate ledger name id e (a.messages id) (Function.update a.messages r.id
      (if acked then none else (a.messages r.id).map fun msg => { msg with deliveryCount := msg.deliveryCount + 1 }) id) := by
  have hn : ¬ Enqueues name id e := by
    rintro ⟨_, henq, _⟩
    rw [hc] at henq; cases henq
  refine .update ?_ fun hid => ⟨hn, ?_⟩
  · rintro rfl
    have hd : Delivers name r.id e := ⟨acked, r, hc, hr, hok, rfl⟩
    cases a.messages r.id with
    | none => cases acked <;> exact .missing
    | some msg =>
      cases acked with
      | false => exact .delivered msg hn hd
      | true => exact .taken msg (Or.inl ⟨hd, hc⟩)
  · rintro ⟨acked', r', _, hr', _, hid'⟩
    rw [hr] at hr'; cases hr'
    exact hid hid'.symm

/-- One message is removed. -/
theorem fate_removed {i : UInt64} (h : Passes name id e) (ht : i = id → ledger.Takes name id e) :
    Fate ledger name id e (a.messages id) (Function.update a.messages i none id) := by
  refine .update (fun hid => ?_) fun _ => h
  cases a.messages i with
  | none => exact .missing
  | some msg => exact .taken msg (ht hid.symm)

theorem fate_failed {i : UInt64} (ha : ledger name = some a) (hn : e.input.command.queueName = some name)
    (hf : e.input.command.failed = some i) (hs : Succeeds e) (priority : Int) (metadata : Option Metadata) :
    Fate ledger name id e (a.messages id)
      (Function.update a.messages i ((a.messages i).bind (Message.afterFailure a.deliveryLimit priority metadata)) id) := by
  have hpasses : Passes name id e := passes rfl
    (fun _ hid => by cases hc : e.input.command <;> rw [hc] at hid hf <;> cases hid; cases hf)
    fun acked hc => by rw [hc] at hf; cases hf
  refine .update ?_ fun _ => hpasses
  rintro rfl
  cases hm : a.messages id with
  | none => exact .missing
  | some msg =>
    rw [Option.bind_some]
    unfold Message.afterFailure
    split
    · rename_i hlimit
      exact .taken msg (Or.inr (Or.inr (Or.inr (Or.inl ⟨⟨hn, hf, hs⟩, a, msg, ha, hm, hlimit⟩))))
    · exact .kept msg _ hpasses.1 hpasses.2 rfl rfl rfl

theorem fate_repriced {i : UInt64} {priority : Int} (h : Passes name id e) :
    Fate ledger name id e (a.messages id)
      (Function.update a.messages i ((a.messages i).map fun msg => { msg with priority := priority }) id) := by
  refine .update (fun _ => ?_) fun _ => h
  cases a.messages i with
  | none => exact .missing
  | some msg => exact .kept msg _ h.1 h.2 rfl rfl rfl

/-- In the account of the queue that the command names. -/
theorem fate_after (ha : ledger name = some a) (hn : e.input.command.queueName = some name) (hr : e.output = .response r)
    (hok : r.error = none) : Fate ledger name id e (a.messages id) (a.after e.input.command r id) := by
  have hs : Succeeds e := ⟨r, hr, hok⟩
  have hsome : ¬ r.error.isSome = true := by rw [hok]; exact Bool.false_ne_true
  unfold Account.after
  rw [if_neg hsome]
  cases hc : e.input.command with
  | enqueue n i group priority content metadata =>
    rw [hc] at hn; cases hn
    exact fate_enqueued hc hs
  | dequeue n acked =>
    rw [hc] at hn; cases hn
    exact fate_delivered hc hr hok
  | delete n i =>
    rw [hc] at hn; cases hn
    exact fate_removed (passes hc (by rintro _ ⟨⟩) (by rintro _ ⟨⟩)) fun hi => Or.inr (Or.inr (Or.inl ⟨hi ▸ hc, hs⟩))
  | ack n i =>
    rw [hc] at hn; cases hn
    exact fate_removed (passes hc (by rintro _ ⟨⟩) (by rintro _ ⟨⟩)) fun hi => Or.inr (Or.inl ⟨hi ▸ hc, hs⟩)
  | nack n i priority metadata => exact fate_failed ha hn (by rw [hc]; rfl) hs priority metadata
  | ackTimeout n i => exact fate_failed ha hn (by rw [hc]; rfl) hs 0 none
  | updatePriority n i priority => exact fate_repriced (passes hc (by rintro _ ⟨⟩) (by rintro _ ⟨⟩))
  | _ => exact (passes hc (by rintro _ ⟨⟩) (by rintro _ ⟨⟩)).same _

theorem fate_created {n queueType : String} {settings : QueueSettings}
    (hc : e.input.command = .createQueue n queueType settings) :
    Fate ledger name id e (ledger.find name id) ((ledger.succeeded (.createQueue n queueType settings) r).find name id) := by
  have hsame : Fate ledger name id e (ledger.find name id) (ledger.find name id) :=
    (passes hc (by rintro ⟨⟩) (by rintro _ ⟨⟩)).same _
  simp only [succeeded]
  split
  · exact hsame
  · rename_i hnone
    by_cases hn : name = n
    · subst hn
      rw [Option.not_isSome_iff_eq_none] at hnone
      simp only [find, Function.update_self, hnone, Option.bind_none, Option.bind_some]
      exact .missing
    · simpa only [find, Function.update_of_ne hn] using hsame

theorem fate_updated {n : String} {settings : QueueSettings} (hc : e.input.command = .updateQueue n settings) :
    Fate ledger name id e (ledger.find name id) ((ledger.succeeded (.updateQueue n settings) r).find name id) := by
  have hfind : (ledger.succeeded (.updateQueue n settings) r).find name id = ledger.find name id := by
    simp only [succeeded, find]
    by_cases hn : name = n
    · subst hn
      rw [Function.update_self]
      cases ledger name <;> rfl
    · rw [Function.update_of_ne hn]
  rw [hfind]
  exact (passes hc (by rintro ⟨⟩) (by rintro _ ⟨⟩)).same _

theorem fate_swept {n : String} (hc : e.input.command = .deleteQueue n) (hs : Succeeds e) :
    Fate ledger name id e (ledger.find name id) ((ledger.succeeded (.deleteQueue n) r).find name id) := by
  have htaken : scanned n (name, id) = true → Fate ledger name id e (ledger.find name id) none := by
    intro hscan
    cases ledger.find name id with
    | none => exact .missing
    | some msg => exact .taken msg (Or.inr (Or.inr (Or.inr (Or.inr ⟨n, hc, hs, hscan⟩))))
  simp only [succeeded, find]
  split
  · rename_i hn
    exact htaken (hn ▸ scanned_self name id)
  · rw [Option.bind_map]
    cases hscan : scanned n (name, id) with
    | true =>
      have hnone : ((ledger name).bind fun a => (none : Option Message)) = none := by cases ledger name <;> rfl
      simp only [Function.comp_def, hscan, if_true, hnone]
      exact htaken hscan
    | false =>
      simp only [Function.comp_def, hscan, Bool.false_eq_true, if_false]
      exact (passes hc (by rintro ⟨⟩) (by rintro _ ⟨⟩)).same _

theorem fate_message {n : String} (hn : e.input.command.queueName = some n) (hr : e.output = .response r)
    (hok : r.error = none) :
    Fate ledger name id e (ledger.find name id) ((ledger.succeeded e.input.command r).find name id) := by
  rw [succeeded_message hn]
  unfold find
  by_cases hname : name = n
  · subst hname
    rw [Function.update_self]
    cases ha : ledger name with
    | none => exact .missing
    | some a => exact fate_after ha hn hr hok
  · rw [Function.update_of_ne hname]
    refine (passes rfl (fun h => absurd (Option.some.inj (h.symm.trans hn)) hname) fun acked hc => ?_).same _
    rw [hc] at hn
    exact hname (Option.some.inj hn)

/-- What an event makes of a message of the ledger. -/
theorem fate (ledger : Ledger) (name : String) (id : UInt64) (e : Event FSM Entry Reply) :
    Fate ledger name id e (ledger.find name id) ((ledger.next e.input.command e.output).find name id) := by
  by_cases hs : Succeeds e
  · obtain ⟨r, hr, hok⟩ := hs
    rw [hr, next_ok hok]
    cases hc : e.input.command with
    | createQueue n queueType settings => exact fate_created hc
    | updateQueue n settings => exact fate_updated hc
    | deleteQueue n => exact fate_swept hc ⟨r, hr, hok⟩
    | leaderConfigChange nodeId raftAddr grpcAddr httpAddr => exact (passes hc (by rintro ⟨⟩) (by rintro _ ⟨⟩)).same _
    | unset => exact (passes hc (by rintro ⟨⟩) (by rintro _ ⟨⟩)).same _
    | _ => exact hc ▸ fate_message (by rw [hc]; rfl) hr hok
  · have hnext : ledger.next e.input.command e.output = ledger := by
      unfold next
      split
      · rename_i r hr
        exact if_pos (Option.isSome_iff_ne_none.mpr fun hok => hs ⟨r, hr, hok⟩)
      · rfl
    rw [hnext]
    exact .failed hs _

variable {events : List (Event FSM Entry Reply)} {msg : Message}

/-- A message of the ledger goes back to the last `Enqueue` of its id. -/
theorem origin (h : (of events).find name id = some msg) :
    ∃ before first between group priority metadata, events = before ++ first :: between ∧
      first.input.command = .enqueue name id group priority msg.content metadata ∧ Succeeds first ∧
      (msg.group = group ∨ msg.group = "default") ∧ (∀ e ∈ between, ¬ Enqueues name id e) ∧
      msg.deliveryCount = UInt32.ofNat (between.countP fun e => Delivers name id e) := by
  induction events using List.reverseRecOn generalizing msg with
  | nil => cases h
  | append_singleton events e ih =>
    rw [of_append] at h
    have hfate := fate (of events) name id e
    rw [h] at hfate
    generalize hold : (of events).find name id = old at hfate
    cases hfate with
    | entered _ _ group priority metadata he hs hg hcount =>
      exact ⟨events, e, [], group, priority, metadata, rfl, he, hs, hg, fun _ h => absurd h List.not_mem_nil, hcount⟩
    | delivered old hn hd =>
      obtain ⟨before, first, between, group, priority, metadata, rfl, he, hs, hg, hno, hcount⟩ := ih hold
      refine ⟨before, first, between ++ [e], group, priority, metadata, by simp, he, hs, hg,
        List.forall_mem_append.mpr ⟨hno, List.forall_mem_singleton.mpr hn⟩, ?_⟩
      rw [List.countP_append, List.countP_singleton, if_pos (decide_eq_true hd), UInt32.ofNat_add, ← hcount]
      rfl
    | kept old _ hn hd hcontent hgroup hcount' =>
      obtain ⟨before, first, between, group, priority, metadata, rfl, he, hs, hg, hno, hcount⟩ := ih hold
      refine ⟨before, first, between ++ [e], group, priority, metadata, by simp, hcontent ▸ he, hs, hgroup ▸ hg,
        List.forall_mem_append.mpr ⟨hno, List.forall_mem_singleton.mpr hn⟩, ?_⟩
      rw [List.countP_append, List.countP_singleton, if_neg (by simpa using hd), Nat.add_zero, hcount', hcount]

end Ledger

namespace FSM

variable {f : FSM} {name : String} {id : UInt64} {cfg : Config} {leaderConfig : LeaderConfig} {r : FSMResponse}
  {events earlier later : List (Event FSM Entry Reply)} {e first : Event FSM Entry Reply}

/-- The reply `r` to the event shows a message of the queue. -/
def Shows (name : String) (e : Event FSM Entry Reply) (r : FSMResponse) : Prop :=
  ((∃ acked, e.input.command = .dequeue name acked) ∨ e.input.command = .get name r.id) ∧ e.output = .response r ∧ r.error = none

theorem Shows.queueName (h : Shows name e r) : e.input.command.queueName = some name := by
  obtain ⟨⟨acked, hc⟩ | hc, _⟩ := h <;> rw [hc] <;> rfl

theorem shown_found {ledger : Ledger} (h : ledger.Agrees e.input.command e.output) (hs : Shows name e r) :
    ∃ msg, ledger.find name r.id = some msg ∧ r.content = msg.content ∧ r.group = msg.group ∧
      r.deliveryCount = msg.deliveryCount + UInt32.ofNat ([e].countP fun e => Delivers name r.id e) := by
  have hanswer := h name hs.queueName
  obtain ⟨hcommand, hr, hok⟩ := hs
  rw [hr] at hanswer
  cases ha : ledger name with
  | none =>
    rw [ha] at hanswer
    cases hanswer; cases hok
  | some a =>
    rw [ha] at hanswer
    obtain ⟨_, ⟨⟩, hanswer⟩ := hanswer
    rcases hcommand with ⟨acked, hc⟩ | hc
    · rw [hc] at hanswer
      obtain ⟨msg, hm, hmsg⟩ := hanswer hok
      have hd : Delivers name r.id e := ⟨acked, r, hc, hr, hok, rfl⟩
      refine ⟨msg, by rw [Ledger.find, ha]; exact hm, congrArg FSMResponse.content hmsg, congrArg FSMResponse.group hmsg, ?_⟩
      rw [List.countP_singleton, if_pos (decide_eq_true hd)]
      exact congrArg FSMResponse.deliveryCount hmsg
    · rw [hc] at hanswer
      simp only [Account.Agrees] at hanswer
      have hd : ¬ Delivers name r.id e := by
        rintro ⟨acked, _, hdequeue, _⟩
        rw [hc] at hdequeue; cases hdequeue
      cases hm : a.messages r.id with
      | none =>
        rw [hm] at hanswer
        rw [hanswer] at hok; cases hok
      | some msg =>
        rw [hm] at hanswer
        refine ⟨msg, by rw [Ledger.find, ha]; exact hm, congrArg FSMResponse.content hanswer,
          congrArg FSMResponse.group hanswer, ?_⟩
        rw [List.countP_singleton, if_neg (by simpa using hd)]
        exact (congrArg FSMResponse.deliveryCount hanswer).trans (UInt32.add_zero _).symm

theorem delivered_as_enqueued (h : Runs (new cfg leaderConfig) (earlier ++ e :: later) f) (hs : Shows name e r) :
    ∃ before first between group priority metadata, earlier = before ++ first :: between ∧
      first.input.command = .enqueue name r.id group priority r.content metadata ∧ Succeeds first ∧
      (r.group = group ∨ r.group = "default") ∧ (∀ e ∈ between, ¬ Enqueues name r.id e) ∧
      r.deliveryCount = UInt32.ofNat ((between ++ [e]).countP fun e => Delivers name r.id e) := by
  obtain ⟨hbefore, hstep, _⟩ := h.at_event
  have hanswers := ((Runs.safe hbefore).ledger_step hstep).2
  rw [Runs.ledger_eq hbefore] at hanswers
  obtain ⟨msg, hfound, hcontent, hgroup, hcount⟩ := shown_found hanswers hs
  obtain ⟨before, first, between, group, priority, metadata, hearlier, he, hsucceeds, hg, hno, hbetween⟩ := Ledger.origin hfound
  refine ⟨before, first, between, group, priority, metadata, hearlier, hcontent ▸ he, hsucceeds, hgroup ▸ hg, hno, ?_⟩
  rw [List.countP_append, UInt32.ofNat_add, hcount, hbetween]

theorem delivered_as_enqueued_again :
    ∃ a b c d e r, ((exec apply (new defaults (.new "n1" "" "")) reenqueued).get reenqueued_runs).1 = [a, b, c, d, e] ∧
      Shows "jobs" e r ∧ r.content = "second" ∧
      ∃ before first between group priority metadata, [a, b, c, d] = before ++ first :: between ∧
        first.input.command = .enqueue "jobs" r.id group priority r.content metadata ∧ Succeeds first ∧
        (r.group = group ∨ r.group = "default") ∧ (∀ e ∈ between, ¬ Enqueues "jobs" r.id e) ∧
        r.deliveryCount = UInt32.ofNat ((between ++ [e]).countP fun e => Delivers "jobs" r.id e) := by
  have hrun := Run.of_exec_isSome reenqueued_runs
  refine ⟨_, _, _, _, _, .ofMessage "jobs" ⟨"default", 1, 0, "second", none, 0⟩, rfl, ⟨Or.inr rfl, rfl, rfl⟩, rfl, ?_⟩
  exact @delivered_as_enqueued _ "jobs" _ _ _ [_, _, _, _] [] _ hrun ⟨Or.inr rfl, rfl, rfl⟩

theorem removes_of_takes (h : e.before.ledger.Takes name id e) : Removes name id e ∨ Sweeps name id e := by
  rcases h with hd | ha | hd | ⟨hf, a, msg, ha, hm, hlimit⟩ | hs
  · exact Or.inl (Or.inl hd)
  · exact Or.inl (Or.inr (Or.inl ha))
  · exact Or.inl (Or.inr (Or.inr (Or.inl hd)))
  · obtain ⟨config, hconfig, rfl⟩ := Option.map_eq_some_iff.mp ha
    exact Or.inl (Or.inr (Or.inr (Or.inr ⟨hf, config, msg, hconfig, hm, hlimit⟩)))
  · exact Or.inr hs

/-- The message is in the ledger as it was enqueued. -/
def Holds (name : String) (id : UInt64) (content group : String) (ledger : Ledger) : Prop :=
  ∃ msg, ledger.find name id = some msg ∧ msg.content = content ∧ (msg.group = group ∨ msg.group = "default")

theorem Holds.step {content group : String} (h : Holds name id content group e.before.ledger)
    (hnext : e.after.ledger = e.before.ledger.next e.input.command e.output) (htaken : ¬ (Removes name id e ∨ Sweeps name id e))
    (hnew : ¬ Enqueues name id e) : Holds name id content group e.after.ledger := by
  obtain ⟨msg, hfind, hcontent, hgroup⟩ := h
  have hfate := Ledger.fate e.before.ledger name id e
  rw [← hnext, hfind] at hfate
  unfold Holds
  generalize e.after.ledger.find name id = new at hfate
  cases hfate with
  | entered _ _ g priority metadata he hs _ _ => exact absurd ⟨by rw [he]; rfl, by rw [he]; rfl, hs⟩ hnew
  | delivered _ _ _ => exact ⟨_, rfl, hcontent, hgroup⟩
  | kept _ msg' _ _ hc hg _ => exact ⟨msg', rfl, hc.trans hcontent, hg ▸ hgroup⟩
  | taken _ ht => exact absurd (removes_of_takes ht) htaken

theorem stored_until_removed {group content : String} {priority : Int} {metadata : Option Metadata}
    (h : Runs (new cfg leaderConfig) (earlier ++ first :: later) f)
    (hfirst : first.input.command = .enqueue name id group priority content metadata) (hs : Succeeds first) :
    (∃ msg, f.queueManager.store.messages.lookup (name, id) = some msg ∧ msg.content = content ∧
      (msg.group = group ∨ msg.group = "default")) ∨
    ∃ e ∈ later, Removes name id e ∨ Sweeps name id e ∨ Enqueues name id e := by
  by_cases hno : ∃ e ∈ later, Removes name id e ∨ Sweeps name id e ∨ Enqueues name id e
  · exact Or.inr hno
  left
  obtain ⟨hbefore, hstep, hlater⟩ := h.at_event
  have hsafe := Runs.safe hbefore
  obtain ⟨hnext, hanswers⟩ := hsafe.ledger_step hstep
  -- the first event puts the message into the ledger, and nothing later takes it out
  have hholds : Holds name id content group first.after.ledger := by
    have hname : first.input.command.queueName = some name := by rw [hfirst]; rfl
    have hanswer := hanswers name hname
    obtain ⟨r, hr, hok⟩ := hs
    cases ha : first.before.ledger name with
    | none =>
      rw [ha, hr] at hanswer
      cases hanswer; cases hok
    | some a =>
      refine ⟨a.enqueued id group priority content metadata, ?_, rfl, a.enqueued_group ..⟩
      rw [hnext, hr, Ledger.next_message hname ha, hfirst, Ledger.find, Function.update_self, Option.bind_some]
      simp only [Account.after, hok, Option.isSome_none, Bool.false_eq_true, if_false, Function.update_self]
  obtain ⟨_, msg, hfind, hmsg⟩ := hlater.keeps (I := fun f => Safe f ∧ Holds name id content group f.ledger)
    (fun e he hs hI => ⟨hI.1.step hs, hI.2.step (hI.1.ledger_step hs).1
      (fun ht => hno ⟨e, he, ht.elim Or.inl fun hsweep => Or.inr (Or.inl hsweep)⟩)
      fun hnew => hno ⟨e, he, Or.inr (Or.inr hnew)⟩⟩) ⟨hsafe.step hstep, hholds⟩
  obtain ⟨a, ha, hm⟩ := Option.bind_eq_some_iff.mp hfind
  obtain ⟨config, _, rfl⟩ := Option.map_eq_some_iff.mp ha
  exact ⟨msg, hm, hmsg⟩

theorem stored_until_removed_again :
    ∃ a b c d e, ((exec apply (new defaults (.new "n1" "" "")) reenqueued).get reenqueued_runs).1 = [a, b, c, d, e] ∧
      ((∃ msg, e.after.queueManager.store.messages.lookup ("jobs", 1) = some msg ∧ msg.content = "second" ∧
        (msg.group = "" ∨ msg.group = "default")) ∨
      ∃ e' ∈ [e], Removes "jobs" 1 e' ∨ Sweeps "jobs" 1 e' ∨ Enqueues "jobs" 1 e') := by
  refine ⟨_, _, _, _, _, rfl, ?_⟩
  exact @stored_until_removed _ "jobs" 1 _ _ [_, _, _] [_] _ "" "second" 0 none (Run.of_exec_isSome reenqueued_runs) rfl
    ⟨_, rfl, rfl⟩

end FSM

end Doq
