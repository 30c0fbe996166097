/-
  Doq.Raft.Listing — the queues and their numbers (`GetQueues` of `pkg/queue/manager.go`,
  `GetStats` of `pkg/queue/queue.go`, `GetQueueInfo` of `pkg/raft/commands.go`).

  The manager goes over its map, in whatever order Go gives, asks each queue for its numbers and
  sorts them by name. A queue of an unknown type has no memory queue to ask, and the whole
  listing panics.

  Which messages are out with consumers can also be read off the replies: a delivery without
  `ack` puts one there, and what ends it takes it away again.

  Proved:
  - `listing_exact`: after every run there is a listing exactly if no queue has an unknown type.
    It shows the stored queues in order of their names, with the type and the settings stored,
    and, of queues that can be tracked (`Admits`), the numbers of messages that are out, as the
    replies tell, and that are not.
-/

import Doq.Raft.Partition
import Doq.Raft.Restore
import Doq.Storage.Keys
import Mathlib.Data.Finset.Card

namespace Doq

open Lib Memory Storage

namespace QueueManager

/-- The listing, for the order in which the map is gone over. -/
def getQueues (entries : List (Sigma fun _ : String => Queue)) : Go (List Queue.QueueInfo) := do
  let queues ← entries.mapM fun e => e.2.getStats
  some (queues.mergeSort fun a b => decide (bytes a.name ≤ bytes b.name))

def getQueueInfo (qm : QueueManager) (queueName : String) : Go (Except Err Queue.QueueInfo × QueueManager) := do
  let (r, qm) ← qm.getQueue queueName
  match r with
  | .error e => some (.error e, qm)
  | .ok q => do
    let info ← q.getStats
    some (.ok info, qm)

end QueueManager

/-- The message whose delivery a command ends. -/
def Command.over : Command → Option UInt64
  | .enqueue _ id .. => some id
  | .delete _ id => some id
  | .ack _ id => some id
  | .nack _ id .. => some id
  | .ackTimeout _ id => some id
  | _ => none

namespace FSM

variable {name : String} {id : UInt64} {out : Finset UInt64} {ob ob' : Option Broker} {b b' : Broker}
  {e : Event FSM Entry Reply} {r : FSMResponse} {f f' : FSM} {events : List (Event FSM Entry Reply)}

/-- The messages of a queue that are out, after one more entry. -/
def outstanding (name : String) (out : Finset UInt64) (e : Event FSM Entry Reply) : Finset UInt64 :=
  if e.input.command = .deleteQueue name then ∅
  else
    match e.output with
    | .response r =>
      if e.input.command.queueName = some name ∧ r.error = none then
        if e.input.command = .dequeue name false then insert r.id out
        else
          match e.input.command.over with
          | some id => out.erase id
          | none => out
      else out
    | _ => out

theorem outstanding_same (hd : e.input.command ≠ .deleteQueue name)
    (h : e.input.command.queueName = some name → ∀ r, e.output = .response r → r.error = none →
      e.input.command ≠ .dequeue name false ∧ e.input.command.over = none) : outstanding name out e = out := by
  unfold outstanding
  rw [if_neg hd]
  split
  · rename_i r hr
    split
    · rename_i hq
      obtain ⟨hnot, hover⟩ := h hq.1 r hr hq.2
      rw [if_neg hnot, hover]
    · rfl
  · rfl

theorem outstanding_over (hq : e.input.command.queueName = some name) (ho : e.input.command.over = some id)
    (hr : e.output = .response r) (hok : r.error = none) : outstanding name out e = out.erase id := by
  have hdelete : e.input.command ≠ .deleteQueue name := by intro h; rw [h] at ho; cases ho
  have hdequeue : e.input.command ≠ .dequeue name false := by intro h; rw [h] at ho; cases ho
  simp only [outstanding, hr, if_neg hdelete, if_pos (And.intro hq hok), if_neg hdequeue, ho]

theorem outstanding_delivered (hc : e.input.command = .dequeue name false) (hr : e.output = .response r) (hok : r.error = none) :
    outstanding name out e = insert r.id out := by
  simp [outstanding, hr, hc, hok, Command.queueName]

/-- The records that are in flight are those of the messages that are out. -/
def Flying (out : Finset UInt64) (ob : Option Broker) : Prop :=
  ∀ id, id ∈ out ↔ ∃ b msg d, ob = some b ∧ b.records id = some ⟨msg, .inFlight d⟩

theorem flying_none : Flying ∅ none := by
  intro id
  simp

theorem Flying.congr (h : Flying out (some b)) (hr : b'.records = b.records) : Flying out (some b') := by
  intro id
  rw [h id]
  simp [hr]

/-- One record changed, and with it the place of its id. -/
theorem Flying.update {record : Option Record} {out' : Finset UInt64} (h : Flying out (some b))
    (hr : b'.records = Function.update b.records id record) (hother : ∀ j, j ≠ id → (j ∈ out' ↔ j ∈ out))
    (hid : id ∈ out' ↔ ∃ msg d, record = some ⟨msg, .inFlight d⟩) : Flying out' (some b') := by
  intro j
  by_cases hj : j = id
  · subst hj
    rw [hid]
    simp [hr]
  · rw [hother j hj, h j]
    simp [hr, Function.update_of_ne hj]

theorem Flying.erase {record : Option Record} (h : Flying out (some b)) (hr : b'.records = Function.update b.records id record)
    (hrecord : ∀ msg d, record ≠ some ⟨msg, .inFlight d⟩) : Flying (out.erase id) (some b') := by
  refine h.update hr (fun j hj => ?_) ?_
  · simp [hj]
  · simp only [Finset.mem_erase, ne_eq, not_true_eq_false, false_and, false_iff]
    rintro ⟨msg, d, he⟩
    exact hrecord msg d he

theorem Flying.did (h : Flying out (some b)) (hq : e.input.command.queueName = some name) (hd : b.Did e.input r b')
    (hr : e.output = .response r) : Flying (outstanding name out e) (some b') := by
  have hdelete : e.input.command ≠ .deleteQueue name := by intro h; rw [h] at hq; cases hq
  -- a command that ends no delivery and makes none
  have hstill : e.input.command ≠ .dequeue name false → e.input.command.over = none → outstanding name out e = out :=
    fun hnot hover => outstanding_same hdelete fun _ _ _ _ => ⟨hnot, hover⟩
  have hfailed : ∀ {id}, e.input.command.failed = some id → e.input.command.over = some id := by
    intro id hf
    cases hc : e.input.command <;> rw [hc] at hf <;> cases hf <;> rfl
  cases hd with
  | refused he hrec =>
    rw [outstanding_same hdelete fun _ r' hr' hok => ?_]
    · exact h.congr hrec
    · rw [hr] at hr'
      cases hr'
      exact absurd hok he
  | read n id hc hrec =>
    rw [hstill (by rw [hc]; simp) (by rw [hc]; rfl)]
    exact h.congr hrec
  | enqueued n id group priority content metadata hc hrec hok =>
    rw [outstanding_over hq (by rw [hc]; rfl) hr hok]
    exact h.erase hrec fun _ _ => by simp
  | delivered n ack id msg hc hbefore hrec hresp hid =>
    have hn : n = name := by rw [hc] at hq; exact Option.some.inj hq
    subst hn
    cases ack with
    | true =>
      rw [hstill (by rw [hc]; simp) (by rw [hc]; rfl)]
      -- it was ready, so it was not out
      refine h.update hrec (fun _ _ => Iff.rfl) (iff_of_false ?_ (by simp))
      intro hout
      obtain ⟨_, _, _, hb, hflight⟩ := (h id).mp hout
      cases hb
      rw [hbefore] at hflight
      cases hflight
    | false =>
      have hrid : r.id = id := by rw [hresp, ← hid]; rfl
      rw [outstanding_delivered hc hr (by rw [hresp]; rfl), hrid]
      exact h.update hrec (fun j hj => by simp [hj]) (by simp)
  | removed n id record hc hbefore hrec hok =>
    have hover : e.input.command.over = some id := by
      rcases hc with hc | hc
      · rw [hc]; rfl
      · rw [hc.1]; rfl
    rw [outstanding_over hq hover hr hok]
    exact h.erase hrec fun _ _ => by simp
  | dropped id msg d hc _ _ hrec hok =>
    rw [outstanding_over hq (hfailed hc) hr hok]
    exact h.erase hrec fun _ _ => by simp
  | requeued id msg d priority metadata hc _ _ hrec hok =>
    rw [outstanding_over hq (hfailed hc) hr hok]
    exact h.erase hrec fun _ _ => by simp
  | touched n id msg d hc hbefore hrec =>
    rw [hstill (by rw [hc]; simp) (by rw [hc]; rfl)]
    refine h.update hrec (fun _ _ => Iff.rfl) (iff_of_true ((h id).mpr ⟨b, msg, d, rfl, hbefore⟩) ⟨_, _, rfl⟩)
  | repriced n id priority msg status status' hc hbefore hstatus hrec =>
    rw [hstill (by rw [hc]; simp) (by rw [hc]; rfl)]
    refine h.update hrec (fun _ _ => Iff.rfl) ?_
    rw [h id]
    cases status with
    | ready =>
      obtain rfl := hstatus.mpr rfl
      simp [hbefore]
    | inFlight d =>
      cases status' with
      | ready => cases hstatus.mp rfl
      | inFlight d' => simp [hbefore]

theorem Safe.lookup_deleted (h : Safe f) {entry : Entry} {reply : Reply} (he : entry.command = .deleteQueue name)
    (hs : f.apply entry = some (reply, f')) : f'.queueManager.queues.lookup name = none := by
  cases h.configures_delete he hs with
  | missing _ hq => exact hq
  | deleted => exact (FinMap.lookup_erase_eq ..).trans (if_pos rfl)

theorem Flying.step (h : Flying out ob) (ht : Tracks name ob e.before)
    (hs : e.before.apply e.input = some (e.output, e.after)) (ha : Admits name e.before e.input) :
    ∃ ob', Tracks name ob' e.after ∧ Flying (outstanding name out e) ob' := by
  obtain ⟨ob', hmoved, ht'⟩ := ht.step hs ha
  refine ⟨ob', ht', ?_⟩
  by_cases hd : e.input.command = .deleteQueue name
  · have hgone := ht.safe.lookup_deleted hd hs
    cases ob' with
    | some b =>
      obtain ⟨q, hq, _⟩ := ht'.present b rfl
      rw [hgone] at hq
      cases hq
    | none =>
      have hempty : outstanding name out e = ∅ := if_pos hd
      exact hempty ▸ flying_none
  · have hsame : e.input.command.queueName = none → outstanding name out e = out := fun hq =>
      outstanding_same hd fun hq' => by rw [hq] at hq'; cases hq'
    cases hmoved with
    | aside _ hidle =>
      rw [outstanding_same hd fun hq r hr hok => ?_]
      · exact h
      · obtain ⟨r', hr', herr⟩ := hidle hq
        rw [hr] at hr'
        cases hr'
        exact absurd hok herr
    | handled b b' response he hh hconf hdid hr => exact h.did he hdid hr
    | created queueType settings settings' m he =>
      rw [hsame (by rw [he]; rfl)]
      intro id
      rw [h id]
      simp
    | updated b settings settings' he =>
      rw [hsame (by rw [he]; rfl)]
      exact h.congr rfl
    | deleted _ he => exact absurd he hd

/-- The messages that are out after a run. -/
theorem Runs.flying {cfg : Config} {leaderConfig : LeaderConfig} (h : Runs (new cfg leaderConfig) events f)
    (hok : ∀ e ∈ events, Admits name e.before e.input) :
    ∃ ob, Tracks name ob f ∧ Flying (events.foldl (outstanding name) ∅) ob := by
  refine h.history (outstanding name) (I := fun out f => ∃ ob, Tracks name ob f ∧ Flying out ob) ?_
    ⟨none, tracks_new cfg leaderConfig, flying_none⟩
  rintro out e he hs ⟨ob, ht, hf⟩
  exact hf.step ht hs (hok e he)

end FSM

/-! ## The numbers of a queue -/

namespace Queue

/-- The configuration that the numbers come with. -/
def QueueInfo.config (info : QueueInfo) : QueueConfig := ⟨info.name, info.type, info.settings⟩

variable {name : String} {config : QueueConfig} {q : Queue} {store : Store} {info : QueueInfo}

theorem getStats_eq_some : q.getStats = some info ↔ ∃ config m, q.config = some config ∧ q.queue = some m ∧
    info = ⟨config.name, config.type, config.settings, m.len, q.ackQueue.len, m.len + q.ackQueue.len⟩ := by
  unfold getStats
  simp only [Option.bind_eq_bind, Option.bind_eq_some_iff, Option.some.injEq, exists_and_left, @eq_comm _ info]

theorem Served.getStats_isSome (h : Served name config q store) : q.getStats.isSome ↔ KnownType config.type := by
  rw [← not_iff_not, ← h.queue_eq_none]
  unfold getStats
  rw [h.config_eq]
  cases q.queue <;> simp

theorem Served.getStats_config (h : Served name config q store) (hi : q.getStats = some info) :
    info.config = config ∧ info.name = name ∧ info.total = info.ready + info.unacked := by
  obtain ⟨c, m, hc, hm, rfl⟩ := getStats_eq_some.mp hi
  rw [h.config_eq] at hc
  cases hc
  exact ⟨rfl, h.name_eq, rfl⟩

end Queue

theorem Refines.unacked {name : String} {b : Broker} {q : Queue} {store : Store} {out : Finset UInt64} {info : Queue.QueueInfo}
    (h : Refines name b q store) (hf : FSM.Flying out (some b)) (hi : q.getStats = some info) : info.unacked = out.card := by
  obtain ⟨c, m, hc, hm, rfl⟩ := Queue.getStats_eq_some.mp hi
  have hids : (q.ackQueue.held.map Item.id).toFinset = out := by
    ext id
    rw [Multiset.mem_toFinset, Multiset.mem_map, hf id]
    constructor
    · rintro ⟨it, hit, rfl⟩
      obtain ⟨⟨msg, status⟩, hr, hitem⟩ := Option.bind_eq_some_iff.mp ((h.ack.mem it).mp hit)
      cases status with
      | ready => cases hitem
      | inFlight d => exact ⟨b, msg, d, rfl, hr⟩
    · rintro ⟨_, msg, d, hb, hr⟩
      cases hb
      have hlook : (b.records id).bind Record.ackItem = some ⟨msg.id, d, msg.group⟩ := by rw [hr]; rfl
      exact ⟨_, h.ack.of_look hlook, h.ack.key_eq id _ hlook⟩
  show ((q.ackQueue.len : Nat) : Int) = _
  rw [← hids, Multiset.toFinset_card_of_nodup h.ack.nodup, Multiset.card_map]
  exact congrArg Nat.cast (PriorityMemoryQueue.len_eq_card q.ackQueue.queue)

/-! ## The listing -/

namespace FSM

variable {name : String} {f : FSM} {cfg : Config} {leaderConfig : LeaderConfig} {events : List (Event FSM Entry Reply)}
  {order : List (Sigma fun _ : String => Queue)} {infos : List Queue.QueueInfo}

theorem Safe.getQueues_isSome (h : Safe f) (horder : order.Perm f.queueManager.queues.entries) :
    (QueueManager.getQueues order).isSome ↔
      ∀ name config, f.queueManager.store.queues.lookup name = some config → Queue.KnownType config.type := by
  constructor
  · intro hsome name config hc
    obtain ⟨infos, hget⟩ := Option.isSome_iff_exists.mp hsome
    obtain ⟨queues, hqueues, _⟩ := Option.bind_eq_some_iff.mp hget
    obtain ⟨q, hq, hserved⟩ := h.served hc
    have hmem : (⟨name, q⟩ : Sigma fun _ : String => Queue) ∈ order := horder.mem_iff.mpr (FinMap.mem_entries.mpr hq)
    obtain ⟨info, hi⟩ := of_mapM hqueues hmem
    exact hserved.getStats_isSome.mp (Option.isSome_of_eq_some hi)
  · intro hknown
    have hreturns : Returns (order.mapM fun e => e.2.getStats) fun _ => True := by
      refine (Returns.mapM (Q := fun _ _ => True) fun e he => ?_).mono fun _ _ => trivial
      obtain ⟨config, hc, hserved⟩ := h.queue e.1 e.2 (FinMap.mem_entries.mp (horder.mem_iff.mp he))
      obtain ⟨info, hi⟩ := Option.isSome_iff_exists.mp (hserved.getStats_isSome.mpr (hknown e.1 config hc))
      exact ⟨info, hi, trivial⟩
    obtain ⟨queues, hqueues, _⟩ := hreturns
    rw [QueueManager.getQueues, hqueues]
    rfl

/-- The entries of the listing are the numbers of the queues, each under its name. -/
theorem Safe.getQueues_entries (h : Safe f) (horder : order.Perm f.queueManager.queues.entries)
    (hget : QueueManager.getQueues order = some infos) :
    (infos.map (·.name)).Perm (order.map (·.1)) ∧ infos.Pairwise (fun a b => bytes a.name ≤ bytes b.name) ∧
    ∀ info, info ∈ infos ↔ ∃ q, f.queueManager.queues.lookup info.name = some q ∧ q.getStats = some info := by
  obtain ⟨queues, hqueues, hsort⟩ := Option.bind_eq_some_iff.mp hget
  cases hsort
  have hmap := map_of_mapM hqueues
  have hperm := List.mergeSort_perm queues fun a b => decide (bytes a.name ≤ bytes b.name)
  have hname : ∀ e ∈ order, ∀ info, e.2.getStats = some info → info.name = e.1 := by
    intro e he info hi
    obtain ⟨config, _, hserved⟩ := h.queue e.1 e.2 (FinMap.mem_entries.mp (horder.mem_iff.mp he))
    exact (hserved.getStats_config hi).2.1
  refine ⟨?_, ?_, fun info => ?_⟩
  · refine (hperm.map _).trans (List.Perm.of_eq (List.map_injective_iff.mpr (Option.some_injective _) ?_))
    have hnames : (order.map fun e => e.2.getStats).map (Option.map (·.name)) = (order.map (·.1)).map some := by
      rw [List.map_map, List.map_map]
      refine List.map_congr_left fun e he => ?_
      obtain ⟨info, hi⟩ := of_mapM hqueues he
      exact (congrArg (Option.map (·.name)) hi).trans (congrArg some (hname e he info hi))
    rw [← hnames, hmap, List.map_map, List.map_map]
    rfl
  · exact pairwise_mergeSort_bytes Queue.QueueInfo.name queues
  · rw [hperm.mem_iff, ← List.mem_map_of_injective (Option.some_injective _), ← hmap, List.mem_map]
    constructor
    · rintro ⟨e, he, hi⟩
      refine ⟨e.2, ?_, hi⟩
      rw [hname e he info hi]
      exact FinMap.mem_entries.mp (horder.mem_iff.mp he)
    · rintro ⟨q, hq, hi⟩
      exact ⟨⟨info.name, q⟩, horder.mem_iff.mpr (FinMap.mem_entries.mpr hq), hi⟩

theorem listing_exact {cfg : Config} {leaderConfig : LeaderConfig} (h : Runs (new cfg leaderConfig) events f)
    (horder : order.Perm f.queueManager.queues.entries) :
    ((QueueManager.getQueues order).isSome ↔
      ∀ name config, f.queueManager.store.queues.lookup name = some config → Queue.KnownType config.type) ∧
    ∀ infos, QueueManager.getQueues order = some infos →
      infos.Pairwise (fun a b => bytes a.name < bytes b.name) ∧
      (∀ name config, f.queueManager.store.queues.lookup name = some config ↔
        ∃ info ∈ infos, info.name = name ∧ info.config = config) ∧
      ∀ info ∈ infos, f.queueManager.getQueueInfo info.name = some (.ok info, f.queueManager) ∧
        ((∀ e ∈ events, Admits info.name e.before e.input) →
          info.unacked = (events.foldl (outstanding info.name) ∅).card ∧
          info.ready + info.unacked = (f.queueManager.store.ids info.name).card ∧
          info.total = (f.queueManager.store.ids info.name).card) := by
  have hsafe := h.safe
  refine ⟨hsafe.getQueues_isSome horder, fun infos hget => ?_⟩
  obtain ⟨hnames, hsorted, hmem⟩ := hsafe.getQueues_entries horder hget
  refine ⟨?_, fun name config => ?_, fun info hinfo => ⟨?_, fun hok => ?_⟩⟩
  · have hnodup : (infos.map (·.name)).Nodup :=
      hnames.nodup_iff.mpr ((horder.map _).nodup_iff.mpr f.queueManager.queues.nodupKeys)
    refine hsorted.imp₂ (fun a b hle hne => ?_) (List.pairwise_map.mp hnodup)
    exact Std.lt_of_le_of_ne hle (mt bytes_inj hne)
  · constructor
    · intro hc
      obtain ⟨q, hq, hserved⟩ := hsafe.served hc
      have hknown := (hsafe.getQueues_isSome horder).mp (by rw [hget]; rfl) name config hc
      obtain ⟨info, hi⟩ := Option.isSome_iff_exists.mp (hserved.getStats_isSome.mpr hknown)
      obtain ⟨hconfig, hname, _⟩ := hserved.getStats_config hi
      exact ⟨info, (hmem info).mpr ⟨q, hname ▸ hq, hi⟩, hname, hconfig⟩
    · rintro ⟨info, hinfo, rfl, rfl⟩
      obtain ⟨q, hq, hi⟩ := (hmem info).mp hinfo
      obtain ⟨config, hc, hserved⟩ := hsafe.queue _ q hq
      rw [hc, (hserved.getStats_config hi).1]
  · obtain ⟨q, hq, hi⟩ := (hmem info).mp hinfo
    simp only [QueueManager.getQueueInfo, QueueManager.getQueue, hq, Option.bind_eq_bind, Option.bind_some, hi]
  · obtain ⟨q, hq, hi⟩ := (hmem info).mp hinfo
    obtain ⟨ob, htracks, hflying⟩ := h.flying hok
    cases ob with
    | none =>
      have hnone := htracks.absent rfl q hq
      obtain ⟨_, m, _, hm, _⟩ := Queue.getStats_eq_some.mp hi
      rw [hnone] at hm
      cases hm
    | some b =>
      obtain ⟨p, hp, _, href⟩ := htracks.present b rfl
      rw [hq] at hp
      cases hp
      obtain ⟨info', hi', hsum⟩ := href.getStats
      rw [hi] at hi'
      cases hi'
      obtain ⟨config, _, hserved⟩ := hsafe.queue _ q hq
      exact ⟨href.unacked hflying hi, hsum, (hserved.getStats_config hi).2.2.trans hsum⟩

/-- Both messages of "jobs" are delivered, and one of them is nacked. -/
def oneOut : List Entry :=
  [⟨1, 0, .createQueue "mail" "delayed" plain⟩, ⟨2, 0, .createQueue "jobs" "fair" { plain with strategy := .roundRobin }⟩,
    ⟨3, 0, .enqueue "jobs" 1 "a" 5 "" none⟩, ⟨4, 0, .enqueue "jobs" 2 "b" 7 "" none⟩, ⟨5, 0, .dequeue "jobs" false⟩,
    ⟨6, 0, .dequeue "jobs" false⟩, ⟨7, 0, .nack "jobs" 1 0 none⟩, ⟨8, 0, .enqueue "mail" 3 "" 0 "" none⟩]

theorem oneOut_runs : (exec apply (new defaults (.new "n1" "" "")) oneOut).isSome := by decide +kernel

theorem listing_exact_oneOut :
    let r := (exec apply (new defaults (.new "n1" "" "")) oneOut).get oneOut_runs
    ∃ infos, QueueManager.getQueues r.2.queueManager.queues.entries.reverse = some infos ∧
      ∃ info ∈ infos, info.name = "jobs" ∧ info.type = "fair" ∧ info.unacked = 1 ∧ info.total = 2 := by
  intro r
  have hok : ∀ e ∈ r.1, Admits "jobs" e.before e.input := by decide +kernel
  have hsome : (QueueManager.getQueues r.2.queueManager.queues.entries.reverse).isSome := by decide +kernel
  obtain ⟨infos, hget⟩ := Option.isSome_iff_exists.mp hsome
  have hexact := (listing_exact (Run.of_exec_isSome oneOut_runs) (List.reverse_perm _)).2 infos hget
  have hstored : r.2.queueManager.store.queues.lookup "jobs" = some ⟨"jobs", "fair", ⟨.roundRobin, 0, 60, 0⟩⟩ := by decide +kernel
  obtain ⟨info, hinfo, hname, hconfig⟩ := (hexact.2.1 "jobs" _).mp hstored
  obtain ⟨hunacked, _, htotal⟩ := (hexact.2.2 info hinfo).2 (hname ▸ hok)
  rw [hname] at hunacked htotal
  have htype := congrArg QueueConfig.type hconfig
  refine ⟨infos, hget, info, hinfo, hname, htype, hunacked.trans ?_, htotal.trans ?_⟩
  · decide +kernel
  · decide +kernel

end FSM

end Doq
