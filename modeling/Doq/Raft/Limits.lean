/-
  Doq.Raft.Limits — `max_unacked` over whole runs (see `Doq.Raft.Track`, `Doq.Memory.MemoryQueuePicks`).

  The limit is kept by the memory queue, on counters of its own; what it is meant to bound are
  the messages in the ack queue. The counters count those (`Refines.counts`), so a delivery
  that finds the counter of its group under the limit keeps the number of messages in flight
  under it, and no other entry raises that number.

  A limit that changes is left out: `UpdateQueue` does not take messages back, and a weighted
  queue goes on with the weights of the old one.

  Proved:
  - `max_unacked_respected`: in a fair queue no group has more than `max_unacked` messages in
    flight, in any state that a run reaches without an `UpdateQueue` of the queue, if its
    entries are such as the queue can be tracked by (`Admits`).
-/

import Doq.Raft.Groups

namespace Doq

open Lib Memory Storage

namespace Memory.MemoryQueue

variable {m m' : MemoryQueue} {ack : Bool} {seed : UInt64} {now : Int} {it : Item}

/-- The limit in force: zero stands for none. -/
def limit (m : MemoryQueue) : Int := FairRoundRobinQueue.limitOf m.maxUnacked

/-- A message is delivered only while its group is under the limit. -/
theorem Inv.dequeue_under (h : Inv m) (hs : m.Synced) (hk : m.kind ≠ .delayed)
    (hcount : 0 ≤ m.unacked it.group ∧ m.unacked it.group ≤ maxInt64) (hd : m.dequeue ack seed now = some (some it, m')) :
    m.unacked it.group < m.limit := by
  cases m with
  | delayed q => exact absurd rfl hk
  | fairRoundRobin q =>
    obtain ⟨⟨item, q'⟩, hq', hr⟩ := Option.map_eq_some_iff.mp hd
    cases hr
    have h : q.Inv True := h
    have hunder : q.unacked it.group < q.maxUnacked := h.loosen.dequeue_under hq'
    have hcount : 0 ≤ q.unacked it.group := hcount.1
    show q.unacked it.group < FairRoundRobinQueue.limitOf q.maxUnacked
    unfold FairRoundRobinQueue.limitOf
    split <;> omega
  | fairWeighted q =>
    obtain ⟨⟨item, q'⟩, hq', hr⟩ := Option.map_eq_some_iff.mp hd
    cases hr
    have hs : q.Synced none := hs
    have hunder := ((h.1.inSync hs).limited ack seed).result hq' it rfl
    have hcount : 0 ≤ q.unacked it.group ∧ q.unacked it.group ≤ maxInt64 := hcount
    -- a count in the range of an `int` is itself
    have hwrap : wrap64 (q.unacked it.group) = q.unacked it.group := by
      unfold wrap64
      unfold maxInt64 at hcount
      omega
    rw [hwrap] at hunder
    exact hunder

end Memory.MemoryQueue

/-- What the counters of a broker's memory queue keep while its limit stays. -/
structure Broker.Within (b : Broker) : Prop where
  limit : b.memory.kind ≠ .delayed → b.memory.limit = FairRoundRobinQueue.limitOf b.config.settings.maxUnacked.toNat
  synced : b.memory.Synced
  under : b.config.type = "fair" → ∀ g, b.memory.unacked g ≤ b.memory.limit

theorem limitOf_le (n : UInt32) : FairRoundRobinQueue.limitOf n.toNat ≤ maxInt64 := by
  have hn := n.toNat_lt
  unfold FairRoundRobinQueue.limitOf maxInt64
  split <;> omega

namespace Refines

variable {name : String} {b b' : Broker} {q q' : Queue} {store store' : Store} {entry : Entry} {response : FSMResponse}

theorem unacked_nonneg (h : Refines name b q store) (hfair : b.config.type = "fair") (g : String) : 0 ≤ b.memory.unacked g := by
  rw [h.counts hfair]
  exact Int.natCast_nonneg _

/-- The message that a delivery takes has a group under the limit. -/
theorem delivered_under (h : Refines name b q store) (hw : b.Within) (hfair : b.config.type = "fair") {n : String} {ack : Bool}
    {id : UInt64} {msg : Message} (hc : entry.command = .dequeue n ack) (hh : b.handle entry = some (response, b'))
    (hbefore : b.records id = some ⟨msg, .ready⟩) (hresp : response.error = none) (hid : response.id = id) :
    b.memory.unacked msg.group < b.memory.limit := by
  unfold Broker.handle at hh
  rw [hc] at hh
  obtain ⟨r, hx, rfl⟩ := Broker.answer_eq hh
  unfold Broker.dequeue at hx
  split at hx
  · cases hx; cases hresp
  obtain ⟨⟨item, m⟩, hd, hx⟩ := Option.bind_eq_some_iff.mp hx
  cases item with
  | none => cases hx; cases hresp
  | some it =>
    obtain ⟨rest, hrest, _⟩ := (h.inv.dequeue ack entry.index entry.now).result hd
    obtain ⟨msg', hr, hid', hg, _⟩ := h.record_of_ready (hrest ▸ Multiset.mem_cons_self it rest)
    simp only [hr, Option.bind_eq_bind, Option.bind_some] at hx
    cases hx
    have hsame : it.id = id := hid'.symm.trans hid
    rw [hsame, hbefore] at hr
    cases hr
    rw [← hg]
    refine h.inv.dequeue_under hw.synced (h.fair hfair) ⟨h.unacked_nonneg hfair _, ?_⟩ hd
    have hle := hw.under hfair it.group
    rw [hw.limit (h.fair hfair)] at hle
    exact hle.trans (limitOf_le _)

/-- The messages in flight in a group, after an entry that delivers none of it. -/
theorem unacked_le (h : Refines name b q store) (h' : Refines name b' q' store') (hfair : b.config.type = "fair")
    (hconf : b'.config = b.config) (g : String) (extra : Multiset UInt64)
    (hsub : ∀ id msg d, b'.records id = some ⟨msg, .inFlight d⟩ → msg.group = g →
      id ∈ extra ∨ ∃ msg₀ d₀, b.records id = some ⟨msg₀, .inFlight d₀⟩ ∧ msg₀.group = g) :
    b'.memory.unacked g ≤ extra.card + b.memory.unacked g := by
  rw [h.counts hfair, h'.counts (hconf ▸ hfair), ← Int.natCast_add]
  refine Int.ofNat_le.mpr (h.ack.countP_le h'.ack extra fun id it hit hg => ?_)
  obtain ⟨⟨msg, status⟩, hr, hi⟩ := Option.bind_eq_some_iff.mp hit
  cases status with
  | ready => cases hi
  | inFlight d =>
    cases hi
    rcases hsub id msg d hr hg with hextra | ⟨msg₀, d₀, hb, hg₀⟩
    · exact Or.inl hextra
    · refine Or.inr ⟨⟨msg₀.id, d₀, msg₀.group⟩, ?_, hg₀⟩
      rw [hb]; rfl

end Refines

namespace FSM

variable {name : String} {ob ob' : Option Broker} {b b' : Broker} {e : Event FSM Entry Reply} {f : FSM} {q q' : Queue}
  {store store' : Store} {response : FSMResponse} {entry : Entry}

/-- The entry delivers a message of the group, and leaves it in flight. -/
def Charges (b : Broker) (entry : Entry) (response : FSMResponse) (g : String) (id : UInt64) : Prop :=
  ∃ n msg, entry.command = .dequeue n false ∧ b.records id = some ⟨msg, .ready⟩ ∧ response.error = none ∧ response.id = id ∧
    msg.group = g

/-- Where a message in flight was before a command on messages. -/
theorem inFlight_origin {id : UInt64} {msg : Message} {d : Int} (hd : b.Did entry response b')
    (hr : b'.records id = some ⟨msg, .inFlight d⟩) :
    Charges b entry response msg.group id ∨ ∃ msg₀ d₀, b.records id = some ⟨msg₀, .inFlight d₀⟩ ∧ msg₀.group = msg.group := by
  cases hd.origin hr with
  | kept hb => exact Or.inr ⟨msg, d, hb, rfl⟩
  | enqueued _ _ _ _ _ hx _ _ => cases hx
  | requeued _ _ _ _ _ _ _ hx _ => cases hx
  | delivered n msg₀ hc hb hx hresp hid =>
    cases hx
    subst hresp
    exact Or.inl ⟨n, msg₀, hc, hb, rfl, hid, rfl⟩
  | changed r₀ hb hgroup _ hstatus =>
    obtain ⟨msg₀, status⟩ := r₀
    cases status with
    | ready => cases hstatus.mpr rfl
    | inFlight d₀ => exact Or.inr ⟨msg₀, d₀, hb, hgroup.symm⟩

/-- A command on messages keeps every group within the limit. -/
theorem within_handled (h : Refines name b q store) (h' : Refines name b' q' store') (hw : b.Within)
    (hh : b.handle entry = some (response, b')) (hconf : b'.config = b.config) (hd : b.Did entry response b') : b'.Within := by
  have hkind := h.handle_closed (MemoryQueue.kind_closed _) rfl hh
  have hlimit : b'.memory.limit = b.memory.limit := by
    unfold MemoryQueue.limit
    rw [h.handle_closed (MemoryQueue.maxUnacked_closed _) rfl hh]
  refine ⟨fun hk => ?_, h.handle_closed MemoryQueue.synced_closed hw.synced hh, fun hfair g => ?_⟩
  · rw [hlimit, hconf]
    exact hw.limit (hkind ▸ hk)
  rw [hconf] at hfair
  rw [hlimit]
  by_cases hnew : ∃ id, Charges b entry response g id
  · -- the one message that is new in flight found its group under the limit
    obtain ⟨id, n, msg, hc, hb, hresp, hid, rfl⟩ := hnew
    have hunder := h.delivered_under hw hfair hc hh hb hresp hid
    have hle := h.unacked_le h' hfair hconf msg.group {id} fun i msg' d hr hg => by
      rcases inFlight_origin hd hr with ⟨_, _, _, _, _, hi, _⟩ | ⟨msg₀, d₀, hb₀, hg₀⟩
      · exact Or.inl (Multiset.mem_singleton.mpr (hi.symm.trans hid))
      · exact Or.inr ⟨msg₀, d₀, hb₀, hg₀.trans hg⟩
    rw [Multiset.card_singleton] at hle
    omega
  · have hle := h.unacked_le h' hfair hconf g 0 fun i msg d hr hg => by
      rcases inFlight_origin hd hr with hcharge | ⟨msg₀, d₀, hb₀, hg₀⟩
      · exact absurd ⟨i, hg ▸ hcharge⟩ hnew
      · exact Or.inr ⟨msg₀, d₀, hb₀, hg₀.trans hg⟩
    rw [Multiset.card_zero] at hle
    have hunder := hw.under hfair g
    omega

theorem limitOf_idem (n : Int) :
    FairRoundRobinQueue.limitOf (FairRoundRobinQueue.limitOf n) = FairRoundRobinQueue.limitOf n := by
  unfold FairRoundRobinQueue.limitOf
  split
  · decide
  · rfl

/-- A new queue has nothing in flight. -/
theorem within_created {queueType : String} {settings : QueueSettings} {m : MemoryQueue}
    (hm : Queue.memoryQueue queueType settings = some m) : Broker.Within ⟨⟨name, queueType, settings⟩, fun _ => none, m⟩ := by
  have hun : ∀ g, m.unacked g = 0 :=
    (@Queue.created_inv name _ _ _ (show (Queue.created name queueType settings).queue = some m from hm)).2.2
  have hmade : m.Synced ∧ (m.kind ≠ .delayed → m.limit = FairRoundRobinQueue.limitOf settings.maxUnacked.toNat) := by
    unfold Queue.memoryQueue at hm
    split at hm
    · split at hm <;> cases hm
      · exact ⟨FairWeightedQueue.new_synced _, fun _ => rfl⟩
      · exact ⟨trivial, fun _ => limitOf_idem _⟩
    · split at hm <;> cases hm
      exact ⟨trivial, fun hk => absurd rfl hk⟩
  refine ⟨hmade.2, hmade.1, fun hfair g => ?_⟩
  have hk : m.kind ≠ .delayed := (@Refines.created name queueType settings m .empty hm fun _ => rfl).fair hfair
  show m.unacked g ≤ m.limit
  rw [hun, hmade.2 hk]
  exact (limitOf_pos _).le

theorem Within.step (h : ∀ b, ob = some b → b.Within) (ht : Tracks name ob e.before) (hm : Moved name e ob ob')
    (ht' : Tracks name ob' e.after) (hkeep : ∀ settings, e.input.command ≠ .updateQueue name settings) :
    ∀ b, ob' = some b → b.Within := by
  cases hm with
  | aside _ _ => exact h
  | handled b b' response _ hh hconf hd _ =>
    rintro _ ⟨⟩
    obtain ⟨q, _, _, href⟩ := ht.present b rfl
    obtain ⟨q', _, _, href'⟩ := ht'.present b' rfl
    exact within_handled href href' (h b rfl) hh hconf hd
  | created queueType settings settings' m _ _ hm =>
    rintro _ ⟨⟩
    exact within_created hm
  | updated b settings settings' he _ => exact absurd he (hkeep settings)
  | deleted _ _ => rintro _ ⟨⟩

section

variable {cfg : Config} {leaderConfig : LeaderConfig} {events : List (Event FSM Entry Reply)}

theorem max_unacked_respected (r : Runs (new cfg leaderConfig) events f) (hok : ∀ e ∈ events, Admits name e.before e.input)
    (hkeep : ∀ e ∈ events, ∀ settings, e.input.command ≠ .updateQueue name settings) {config : QueueConfig}
    (hconfig : f.queueManager.store.queues.lookup name = some config) (hfair : config.type = "fair")
    (hmax : config.settings.maxUnacked ≠ 0) {p : MemoryQueue × DelayedQueue} (hp : f.inMemory name = some p) (g : String) :
    p.2.held.countP (·.group = g) ≤ config.settings.maxUnacked.toNat := by
  obtain ⟨ob, ht, hw⟩ : ∃ ob, Tracks name ob f ∧ ∀ b, ob = some b → b.Within := by
    refine r.keeps (I := fun f => ∃ ob, Tracks name ob f ∧ ∀ b, ob = some b → b.Within) (fun e he hs ⟨ob, ht, hw⟩ => ?_)
      ⟨none, tracks_new cfg leaderConfig, nofun⟩
    obtain ⟨ob', hm, ht'⟩ := ht.step hs (hok e he)
    exact ⟨ob', ht', Within.step hw ht hm ht' (hkeep e he)⟩
  obtain ⟨b, q, rfl, rfl, href⟩ := ht.of_inMemory hp
  obtain ⟨_, _, hc, _⟩ := ht.present b rfl
  obtain rfl : config = b.config := Option.some.inj (hconfig.symm.trans hc)
  have hle := (hw b rfl).under hfair g
  rw [href.counts hfair, (hw b rfl).limit (href.fair hfair), FairRoundRobinQueue.limitOf, if_neg ?_] at hle
  · exact Int.ofNat_le.mp hle
  · intro hzero
    exact hmax (UInt32.toNat_inj.mp (Int.ofNat_eq_zero.mp hzero))

/-- Two messages of a group with a limit of one, and two attempts to get them. -/
def atLimit : List Entry :=
  [⟨1, 0, .createQueue "jobs" "fair" ⟨.weighted, 1, 60, 0⟩⟩, ⟨2, 0, .enqueue "jobs" 1 "a" 0 "" none⟩,
    ⟨3, 0, .enqueue "jobs" 2 "a" 0 "" none⟩, ⟨4, 0, .dequeue "jobs" false⟩, ⟨5, 0, .dequeue "jobs" false⟩]

theorem atLimit_runs : (exec apply (new defaults (.new "n1" "" "")) atLimit).isSome := by decide +kernel

def atLimitState : FSM := ((exec apply (new defaults (.new "n1" "" "")) atLimit).get atLimit_runs).2

theorem max_unacked_respected_full :
    ∃ p, atLimitState.inMemory "jobs" = some p ∧ p.1.len = 1 ∧ p.2.len = 1 ∧ ∀ g, p.2.held.countP (·.group = g) ≤ 1 := by
  have hok : ∀ e ∈ ((exec apply (new defaults (.new "n1" "" "")) atLimit).get atLimit_runs).1,
      Admits "jobs" e.before e.input := by decide +kernel
  have hinputs : ((exec apply (new defaults (.new "n1" "" "")) atLimit).get atLimit_runs).1.map (·.input) = atLimit := by
    decide +kernel
  have hkeep : ∀ entry ∈ atLimit, ∀ settings, entry.command ≠ .updateQueue "jobs" settings := by simp [atLimit]
  have hlen : (atLimitState.inMemory "jobs").map (fun p => (p.1.len, p.2.len)) = some (1, 1) := by decide +kernel
  have hconfig : atLimitState.queueManager.store.queues.lookup "jobs" = some ⟨"jobs", "fair", ⟨.weighted, 1, 60, 0⟩⟩ := by
    decide +kernel
  obtain ⟨p, hp, hlen⟩ := Option.map_eq_some_iff.mp hlen
  obtain ⟨hready, hflight⟩ := Prod.mk.inj hlen
  refine ⟨p, hp, hready, hflight, fun g => ?_⟩
  refine max_unacked_respected (Run.of_exec_isSome atLimit_runs) hok (fun e he => ?_) hconfig rfl (by decide) hp g
  exact hkeep e.input (hinputs ▸ List.mem_map_of_mem he)

end

end FSM

end Doq
