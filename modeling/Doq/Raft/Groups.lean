/-
  Doq.Raft.Groups — the group of a message in a fair queue: in the store, in the schedule and
  on the counters (see `Doq.Queue.Queue`, `Doq.Memory.MemoryQueuePicks`).

  The store keeps the group an `Enqueue` came with. A round-robin queue files the empty one
  under `default`, and a weighted queue takes it for no group at all. Every other method
  reads the group from the stored message.

  Proved:
  - `group_same_everywhere`: without empty groups a message is stored, scheduled, found,
    counted and released under one group, over every run.
  - `empty_group_differs`: with one, a deleted message stays in memory, an ack releases
    another group's slot, and a weighted queue never delivers the message.
-/

import Doq.Memory.MemoryQueuePicks
import Doq.Raft.DeliveryLimit

namespace Doq

open Lib Memory Storage

/-! ## Counters -/

namespace Refines

variable {name : String} {b b' : Broker} {q q' : Queue} {store store' : Store} {id : UInt64} {msg : Message} {d : Int}

/-- A message that leaves the ones in flight leaves its group's counter. -/
theorem unacked_of_left (h : Refines name b q store) (h' : Refines name b' q' store') (hfair : b.config.type = "fair")
    (hconf : b'.config = b.config) (hi : b.records id = some ⟨msg, .inFlight d⟩) {x : Option Record}
    (hr : b'.records = Function.update b.records id x) (hx : x.bind Record.ackItem = none) (g : String) :
    b.memory.unacked g = b'.memory.unacked g + if g = msg.group then 1 else 0 := by
  have hid : msg.id = id := h.keyed id _ hi
  have hlook : (b.records id).bind Record.ackItem = some ⟨id, d, msg.group⟩ := by rw [hi, ← hid]; rfl
  have hheld : q.ackQueue.held = ⟨id, d, msg.group⟩ ::ₘ q'.ackQueue.held := by
    refine h.ack.eq_cons (h'.ack.congr fun i => ?_) hlook
    rw [hr]
    by_cases e : i = id
    · subst e; rw [Function.update_self, Function.update_self, hx]
    · rw [Function.update_of_ne e, Function.update_of_ne e]
  rw [h.counts hfair, h'.counts (hconf ▸ hfair), hheld, Multiset.countP_cons]
  simp only [eq_comm, Nat.cast_add, Nat.cast_ite, Nat.cast_one, Nat.cast_zero]

end Refines

/-! ## Groups that have a name -/

/-- What a broker keeps if no message comes with the empty group. -/
structure Broker.Named (b : Broker) : Prop where
  named : ∀ id r, b.records id = some r → r.message.group ≠ ""
  limit : b.memory.kind = .fairRoundRobin → 0 < b.memory.maxUnacked

namespace FSM

variable {name : String} {id : UInt64} {g : String} {ob ob' : Option Broker} {b : Broker} {e : Event FSM Entry Reply} {f : FSM}

/-- What an entry must respect for the groups to agree. -/
structure Plain (name : String) (f : FSM) (entry : Entry) : Prop where
  admits : Admits name f entry
  named : entry.command.queueName = some name → ∀ group ∈ entry.command.enqueuedGroup, group ≠ ""

instance (name : String) (f : FSM) (entry : Entry) : Decidable (Plain name f entry) :=
  decidable_of_iff (Admits name f entry ∧ (entry.command.queueName = some name →
    ∀ group ∈ entry.command.enqueuedGroup, group ≠ ""))
    ⟨fun h => ⟨h.1, h.2⟩, fun h => ⟨h.admits, h.named⟩⟩

theorem limitOf_pos (n : Nat) : 0 < FairRoundRobinQueue.limitOf n := by
  unfold FairRoundRobinQueue.limitOf
  split
  · decide
  · omega

theorem named_did {b' : Broker} {entry : Entry} {response : FSMResponse} (hd : b.Did entry response b')
    (h : ∀ id r, b.records id = some r → r.message.group ≠ "") (hnew : ∀ group ∈ entry.command.enqueuedGroup, group ≠ "")
    (id : UInt64) (r : Record) (hr : b'.records id = some r) : r.message.group ≠ "" := by
  cases hd.origin hr with
  | kept hb => exact h id r hb
  | enqueued group _ _ _ _ hx _ hc =>
    rw [hx]
    show Queue.groupFor b.config group ≠ ""
    unfold Queue.groupFor
    split
    · decide
    · exact hnew group hc
  | delivered _ msg _ hb hx _ _ => rw [hx]; exact (h id _ hb :)
  | requeued msg _ _ _ _ _ hb hx _ => rw [hx]; exact (h id _ hb :)
  | changed r₀ hb hgroup _ _ => rw [hgroup]; exact h id r₀ hb

theorem Named.step (h : ∀ b, ob = some b → b.Named) (ht : Tracks name ob e.before) (hm : Moved name e ob ob')
    (hp : Plain name e.before e.input) : ∀ b, ob' = some b → b.Named := by
  cases hm with
  | aside _ _ => exact h
  | handled b b' response he hh hconf hd hr =>
    intro _ hb; cases hb
    obtain ⟨q, _, _, href⟩ := ht.present b rfl
    obtain ⟨hnamed, hlimit⟩ := h b rfl
    refine ⟨named_did hd hnamed (hp.named he), fun hk => ?_⟩
    rw [href.handle_closed (MemoryQueue.kind_closed _) rfl hh] at hk
    rw [href.handle_closed (MemoryQueue.maxUnacked_closed _) rfl hh]
    exact hlimit hk
  | created queueType settings settings' m he ha hm =>
    intro _ hb; cases hb
    refine ⟨nofun, fun hk => ?_⟩
    have hk : m.kind = .fairRoundRobin := hk
    show 0 < m.maxUnacked
    unfold Queue.memoryQueue at hm
    split at hm
    · split at hm <;> cases hm
      · cases hk
      · exact limitOf_pos _
    · split at hm <;> cases hm
      cases hk
  | updated b settings settings' he ha =>
    intro _ hb; cases hb
    refine ⟨(h b rfl).named, fun hk => ?_⟩
    have hk : (b.memory.updateMaxUnacked settings'.maxUnacked.toNat).kind = .fairRoundRobin := hk
    show 0 < (b.memory.updateMaxUnacked settings'.maxUnacked.toNat).maxUnacked
    obtain ⟨q, _, _, href⟩ := ht.present b rfl
    have hinv := href.inv
    cases hmem : b.memory with
    | delayed q => rw [hmem] at hk; cases hk
    | fairWeighted q => rw [hmem] at hk; cases hk
    | fairRoundRobin q =>
      rw [hmem] at hinv
      show 0 < (q.updateMaxUnacked _).maxUnacked
      rw [(FairRoundRobinQueue.Inv.updateMaxUnacked hinv _).2.2.1]
      exact limitOf_pos _
  | deleted _ _ => exact nofun

/-! ## One state -/

/-- What the group of a message is in a fair queue, `p` its memory queue and its ack queue. -/
structure OneGroup (name : String) (f : FSM) (p : MemoryQueue × DelayedQueue) : Prop where
  filed : ∀ it ∈ p.1.ready, ∃ msg, f.queueManager.store.messages.lookup (name, it.id) = some msg ∧ it.group = msg.group ∧
    p.1.get msg.group it.id = some (some it)
  inFlight : ∀ it ∈ p.2.held, ∃ msg, f.queueManager.store.messages.lookup (name, it.id) = some msg ∧ it.group = msg.group
  counted : ∀ g, p.1.unacked g = p.2.held.countP (·.group = g)
  delivers : p.1.ready ≠ 0 → p.2.held = 0 → ∀ index now ack, Returns (f.apply ⟨index, now, .dequeue name ack⟩) fun r =>
    ∃ msg, r.1 = .response (.ofMessage name msg)
  deletes : ∀ it ∈ p.1.ready, ∀ index now, Returns (f.apply ⟨index, now, .delete name it.id⟩) fun r =>
    r.1 = .response (.ofId name it.id) ∧ ∃ p' ∈ r.2.inMemory name, p.1.ready = it ::ₘ p'.1.ready

theorem Tracks.deletes (h : Tracks name (some b) f) {it : Item} (hit : it ∈ b.memory.ready) (index : UInt64) (now : Int) :
    Returns (f.apply ⟨index, now, .delete name it.id⟩) fun r =>
      r.1 = .response (.ofId name it.id) ∧ ∃ p' ∈ r.2.inMemory name, b.memory.ready = it ::ₘ p'.1.ready := by
  obtain ⟨q, _, _, href⟩ := h.present b rfl
  obtain ⟨msg, hr, hid, hg, hp⟩ := href.record_of_ready hit
  refine (h.answers ⟨index, now, .delete name it.id⟩ (admits_of_none rfl rfl rfl) rfl).mono ?_
  rintro ⟨reply, f'⟩ ⟨b', response, hres, hh, _, _, ht'⟩
  obtain ⟨o, hx, rfl⟩ := Broker.answer_eq hh
  unfold Broker.delete at hx
  rw [hr] at hx
  obtain ⟨rfl, _, hrec⟩ := Broker.put_eq Prod.snd hx
  obtain ⟨q', hmem, _, href'⟩ := ht'.inMemory
  refine ⟨hres, _, hmem, href.ready.eq_cons (href'.ready.congr fun i => ?_) ((href.ready.mem it).mp hit)⟩
  rw [hrec]
  by_cases e : i = it.id
  · subst e; rw [Function.update_self, Function.update_self]; rfl
  · rw [Function.update_of_ne e, Function.update_of_ne e]

theorem Tracks.oneGroup (h : Tracks name (some b) f) (hb : b.Named) (hfair : b.config.type = "fair")
    {p : MemoryQueue × DelayedQueue}
    (hp : f.inMemory name = some p) : OneGroup name f p := by
  obtain ⟨q, hmem, _, href⟩ := h.inMemory
  rw [hmem] at hp; cases hp
  refine ⟨fun it hit => ?_, fun it hit => ?_, href.counts hfair, fun hready hidle index now ack => ?_,
    fun it hit => h.deletes hit⟩
  · obtain ⟨msg, hr, hid, hg, _⟩ := href.record_of_ready hit
    exact ⟨msg, href.lookup_some hr, hg, hg ▸ href.inv.get_ready hit⟩
  · obtain ⟨⟨msg, status⟩, hr, hi⟩ := Option.bind_eq_some_iff.mp ((href.ack.mem it).mp hit)
    cases status with
    | ready => cases hi
    | inFlight d => cases hi; exact ⟨msg, href.lookup_some hr, rfl⟩
  · have hnamed : ∀ it ∈ b.memory.ready, it.group ≠ "" := fun it hit => by
      obtain ⟨msg, hr, _, hg, _⟩ := href.record_of_ready hit
      rw [hg]; exact hb.named it.id _ hr
    have hzero : ∀ g, b.memory.unacked g = 0 := fun g => by
      have hidle : q.ackQueue.held = 0 := hidle
      rw [href.counts hfair, hidle]; rfl
    obtain ⟨it, m, hd⟩ := href.inv.delivers (href.fair hfair) hb.limit hnamed hready hzero ack index now
    obtain ⟨msg, _, _, _, _, hret⟩ := h.delivers hd
    exact hret.mono fun r hr => ⟨_, hr⟩

/-! ## From a delivery to its end -/

/-- The event ends a delivery of the message: `Ack`, `Nack` or `AckTimeout`. -/
def Ends (name : String) (id : UInt64) (e : Event FSM Entry Reply) : Prop :=
  e.input.command.queueName = some name ∧ (e.input.command = .ack name id ∨ e.input.command.failed = some id) ∧ Succeeds e

/-- The event changes the counter of one group, and no other. -/
def CountsBy (name group : String) (δ : Int) (e : Event FSM Entry Reply) : Prop :=
  ∃ p p', e.before.inMemory name = some p ∧ e.after.inMemory name = some p' ∧
    ∀ g, p'.1.unacked g = p.1.unacked g + if g = group then δ else 0

/-- If the message is in flight, it is so in the group, in a fair queue. -/
def InFlightIn (id : UInt64) (group : String) (ob : Option Broker) : Prop :=
  ∀ b, ob = some b → ∀ msg d, b.records id = some ⟨msg, .inFlight d⟩ → b.config.type = "fair" ∧ msg.group = group

theorem InFlightIn.step (h : InFlightIn id g ob) (hm : Moved name e ob ob') (hno : ¬ Delivers name id e) :
    InFlightIn id g ob' := by
  intro b' hb' msg d hr
  cases hm with
  | aside _ _ => exact h b' hb' msg d hr
  | created _ _ _ _ _ _ _ => cases hb'; cases hr
  | updated b _ _ _ _ => cases hb'; exact h b rfl msg d hr
  | deleted _ _ => cases hb'
  | handled b _ response he _ hconf hd hout =>
    cases hb'
    rw [hconf]
    cases hd.origin hr with
    | kept hb => exact h b rfl msg d hb
    | enqueued _ _ _ _ _ hx _ _ => cases hx
    | requeued _ _ _ _ _ _ _ hx _ => cases hx
    | delivered n msg' hc _ _ hresp hid =>
      have hn : n = name := by rw [hc] at he; cases he; rfl
      subst hn hresp
      exact absurd ⟨false, _, hc, hout, rfl, hid⟩ hno
    | changed r₀ hb hgroup _ hstatus =>
      obtain ⟨msg₀, status⟩ := r₀
      cases status with
      | ready => cases hstatus.mpr rfl
      | inFlight d₀ =>
        obtain ⟨hfair, hg⟩ := h b rfl msg₀ d₀ hb
        exact ⟨hfair, hgroup.trans hg⟩

/-- A delivery leaves the message in flight in the group it answers with. -/
theorem Delivers.taken (h : Delivers name id e) (hc : e.input.command = .dequeue name false)
    (hm : Moved name e ob ob') {r : FSMResponse}
    (hr : e.output = .response r) : ∃ b b' msg msg' d, ob = some b ∧ ob' = some b' ∧ b'.config = b.config ∧ msg'.group = r.group ∧
      b.records = Function.update b'.records id (some ⟨msg, .ready⟩) ∧ b'.records id = some ⟨msg', .inFlight d⟩ := by
  obtain ⟨b, b', ack, msg, rfl, rfl, hc', hbefore, hout, hrec⟩ := h.did hm
  rw [hc] at hc'; cases hc'
  rw [hr] at hout; cases hout
  have hin := congrFun hrec id
  rw [Function.update_self] at hin
  refine ⟨b, b', msg, _, _, rfl, rfl, ?_, ?_, ?_, hin⟩
  · cases hm with
    | aside _ _ => rfl
    | handled _ _ _ _ _ hconf _ _ => exact hconf
    | updated _ _ _ he _ => rw [hc] at he; cases he
  · rfl
  · rw [hrec, Function.update_idem, ← hbefore, Function.update_eq_self]

theorem Delivers.inFlightIn (h : Delivers name id e) (hc : e.input.command = .dequeue name false) (hm : Moved name e ob ob')
    (hfair : ∀ b, ob = some b → b.config.type = "fair") {r : FSMResponse} (hr : e.output = .response r) :
    InFlightIn id r.group ob' := by
  obtain ⟨b, b', msg, msg', d, rfl, rfl, hconf, hg, _, hin⟩ := h.taken hc hm hr
  intro _ hb x d' hx
  cases hb
  rw [hin] at hx; cases hx
  exact ⟨hconf ▸ hfair b rfl, hg⟩

/-- It counts on that group. -/
theorem Delivers.counts (h : Delivers name id e) (hc : e.input.command = .dequeue name false) (ht : Tracks name ob e.before)
    (hm : Moved name e ob ob') (ht' : Tracks name ob' e.after) (hfair : ∀ b, ob = some b → b.config.type = "fair")
    {r : FSMResponse}
    (hr : e.output = .response r) : CountsBy name r.group 1 e := by
  obtain ⟨b, b', msg, msg', d, rfl, rfl, hconf, hg, hback, hin⟩ := h.taken hc hm hr
  obtain ⟨q, hmem, _, href⟩ := ht.inMemory
  obtain ⟨q', hmem', _, href'⟩ := ht'.inMemory
  rw [← hg]
  exact ⟨_, _, hmem, hmem', href'.unacked_of_left href (hconf ▸ hfair b rfl) hconf.symm hin hback rfl⟩

/-- The end of a delivery finds the message in flight, and takes it out. -/
theorem ended_did {b' : Broker} {entry : Entry} {response : FSMResponse} (hd : b.Did entry response b')
    (herr : response.error = none)
    (hc : entry.command = .ack name id ∨ entry.command.failed = some id) :
    ∃ msg d x, b.records id = some ⟨msg, .inFlight d⟩ ∧ b'.records = Function.update b.records id x ∧
      x.bind Record.ackItem = none := by
  rcases hc with hc | hc
  · obtain ⟨⟨msg, status⟩, hi, hstatus, hrec⟩ := hd.removal (Or.inl hc) herr
    cases status with
    | ready => exact absurd rfl (hstatus hc)
    | inFlight d => exact ⟨msg, d, none, hi, hrec, rfl⟩
  · obtain ⟨msg, d, hi, ⟨_, hrec⟩ | ⟨_, _, _, hrec⟩⟩ := hd.failure hc herr
    · exact ⟨msg, d, none, hi, hrec, rfl⟩
    · exact ⟨msg, d, _, hi, hrec, rfl⟩

theorem Ends.counts (h : Ends name id e) (hg : InFlightIn id g ob) (ht : Tracks name ob e.before) (hm : Moved name e ob ob')
    (ht' : Tracks name ob' e.after) : CountsBy name g (-1) e := by
  obtain ⟨he, hc, hs⟩ := h
  obtain ⟨b, b', response, rfl, rfl, _, hconf, hd, _, herr⟩ := hm.success he hs
  obtain ⟨msg, d, x, hi, hrec, hx⟩ := ended_did hd herr hc
  obtain ⟨hfair, rfl⟩ := hg b rfl msg d hi
  obtain ⟨q, hmem, _, href⟩ := ht.inMemory
  obtain ⟨q', hmem', _, href'⟩ := ht'.inMemory
  refine ⟨_, _, hmem, hmem', fun g' => ?_⟩
  have hleft := href.unacked_of_left href' hfair hconf hi hrec hx g'
  dsimp only
  split at hleft <;> simp_all

section

variable {cfg : Config} {leaderConfig : LeaderConfig} {events : List (Event FSM Entry Reply)}

/-- The queue is one of type `fair`. -/
def Fair (name : String) (f : FSM) : Prop :=
  ∃ config, f.queueManager.store.queues.lookup name = some config ∧ config.type = "fair"

theorem Fair.config (h : Fair name f) (ht : Tracks name (some b) f) : b.config.type = "fair" := by
  obtain ⟨config, hc, hfair⟩ := h
  obtain ⟨_, _, hc', _⟩ := ht.present b rfl
  rw [hc] at hc'; cases hc'
  exact hfair

theorem Runs.named (r : Runs (new cfg leaderConfig) events f) (hok : ∀ e ∈ events, Plain name e.before e.input) :
    ∃ ob, Tracks name ob f ∧ ∀ b, ob = some b → b.Named := by
  refine r.keeps (I := fun f => ∃ ob, Tracks name ob f ∧ ∀ b, ob = some b → b.Named) (fun e he hs ⟨ob, ht, hb⟩ => ?_)
    ⟨none, tracks_new cfg leaderConfig, nofun⟩
  obtain ⟨ob', hm, ht'⟩ := ht.step hs (hok e he).admits
  exact ⟨ob', ht', Named.step hb ht hm (hok e he)⟩

theorem group_same_everywhere (r : Runs (new cfg leaderConfig) events f) (hok : ∀ e ∈ events, Plain name e.before e.input) :
    (Fair name f → ∀ p, f.inMemory name = some p → OneGroup name f p) ∧
      ∀ earlier delivery between last later id, events = earlier ++ delivery :: (between ++ last :: later) →
        Fair name delivery.before → delivery.input.command = .dequeue name false → Delivers name id delivery →
        (∀ e ∈ between, ¬ Delivers name id e) → Ends name id last →
        ∃ group, CountsBy name group 1 delivery ∧ CountsBy name group (-1) last := by
  constructor
  · intro hfair p hp
    obtain ⟨ob, ht, hb⟩ := r.named hok
    obtain ⟨b, _, rfl, _, _⟩ := ht.of_inMemory hp
    exact ht.oneGroup (hb b rfl) (hfair.config ht) hp
  · rintro earlier delivery between last later id rfl hfair hc hdel hno hend
    have hadmits := fun e he => (hok e he).admits
    have hfair : ∀ {ob}, Tracks name ob delivery.before → ∀ b, ob = some b → b.config.type = "fair" :=
      fun ht b hb => hfair.config (hb ▸ ht)
    obtain ⟨resp, hr⟩ : ∃ resp, delivery.output = .response resp := by
      obtain ⟨_, resp, _, hr, _⟩ := hdel
      exact ⟨resp, hr⟩
    obtain ⟨hrun, hstep, _⟩ := r.at_event
    obtain ⟨ob, ht⟩ := Runs.tracks hrun fun e he => hadmits e (List.mem_append_left _ he)
    obtain ⟨ob', hm, ht'⟩ := ht.step hstep (hadmits delivery (by simp))
    obtain ⟨_, _, hin, ht₂, hm₂, ht₂'⟩ := r.between hadmits (P := InFlightIn id resp.group)
      (fun _ _ ht hm => hdel.inFlightIn hc hm (hfair ht) hr) fun e he _ _ hP hm => hP.step hm (hno e he)
    exact ⟨resp.group, hdel.counts hc ht hm ht' (hfair ht) hr, hend.counts hin ht₂ hm₂ ht₂'⟩

/-- A message of a weighted queue, delivered and nacked. -/
def nackedOnce : List Entry :=
  [⟨1, 0, .createQueue "jobs" "fair" ⟨.weighted, 1, 60, 0⟩⟩, ⟨2, 0, .enqueue "jobs" 1 "a" 0 "" none⟩,
    ⟨3, 0, .dequeue "jobs" false⟩,
    ⟨4, 0, .nack "jobs" 1 0 none⟩]

theorem nackedOnce_runs : (exec apply (new defaults (.new "n1" "" "")) nackedOnce).isSome := by decide +kernel

def nackedOnceEvents : List (Event FSM Entry Reply) :=
  ((exec apply (new defaults (.new "n1" "" "")) nackedOnce).get nackedOnce_runs).1

def nackedOnceState : FSM := ((exec apply (new defaults (.new "n1" "" "")) nackedOnce).get nackedOnce_runs).2

theorem group_same_everywhere_nacked :
    (∃ p, nackedOnceState.inMemory "jobs" = some p ∧ p.1.len = 1 ∧ OneGroup "jobs" nackedOnceState p) ∧
      ∃ a b c d group, nackedOnceEvents = [a, b, c, d] ∧ CountsBy "jobs" group 1 c ∧ CountsBy "jobs" group (-1) d := by
  have r : Runs (new defaults (.new "n1" "" "")) nackedOnceEvents nackedOnceState := Run.of_exec_isSome nackedOnce_runs
  have hok : ∀ e ∈ nackedOnceEvents, Plain "jobs" e.before e.input := by decide +kernel
  have hinputs : nackedOnceEvents.map Event.input = nackedOnce := by decide +kernel
  have houtputs : (nackedOnceEvents.drop 2).map Event.output =
    [.response (.ofMessage "jobs" ⟨"a", 1, 0, "", none, 1⟩), .response (.ofId "jobs" 1)] := by decide +kernel
  have hfairs : ∀ e ∈ nackedOnceEvents.drop 1, (e.before.queueManager.store.queues.lookup "jobs").map (·.type) = some "fair" := by
    decide +kernel
  have hfair : (nackedOnceState.queueManager.store.queues.lookup "jobs").map (·.type) = some "fair" := by decide +kernel
  have hlen : (nackedOnceState.inMemory "jobs").map (·.1.len) = some 1 := by decide +kernel
  generalize nackedOnceEvents = events at r hok hinputs houtputs hfairs ⊢
  obtain ⟨p, hp, hlen⟩ := Option.map_eq_some_iff.mp hlen
  refine ⟨⟨p, hp, hlen, (group_same_everywhere r hok).1 (Option.map_eq_some_iff.mp hfair) p hp⟩, ?_⟩
  unfold nackedOnce at hinputs
  obtain ⟨a, _, rfl, _, hinputs⟩ := List.map_eq_cons_iff.mp hinputs
  obtain ⟨b, _, rfl, _, hinputs⟩ := List.map_eq_cons_iff.mp hinputs
  obtain ⟨c, _, rfl, hc, hinputs⟩ := List.map_eq_cons_iff.mp hinputs
  obtain ⟨d, _, rfl, hd, hinputs⟩ := List.map_eq_cons_iff.mp hinputs
  obtain rfl := List.map_eq_nil_iff.mp hinputs
  obtain ⟨hc', houtputs⟩ := List.cons.inj houtputs
  obtain ⟨hd', _⟩ := List.cons.inj houtputs
  have hfair : Fair "jobs" c.before := Option.map_eq_some_iff.mp (hfairs c (by simp))
  have hdel : Delivers "jobs" 1 c := ⟨false, _, by rw [hc], hc', rfl, rfl⟩
  have hend : Ends "jobs" 1 d := ⟨by rw [hd]; rfl, by rw [hd]; exact Or.inr rfl, _, hd', rfl⟩
  obtain ⟨group, h⟩ := (group_same_everywhere r hok).2 [a, b] c [] d [] 1 rfl hfair (by rw [hc]) hdel
    (fun _ he => absurd he List.not_mem_nil) hend
  exact ⟨a, b, c, d, group, rfl, h⟩

/-- The states of a run from a queue with the settings and one message of the empty group. -/
def withEmptyGroup (settings : QueueSettings) (commands : List Command) : Option (List Reply × FSM) :=
  let entries := (Command.createQueue "jobs" "fair" settings :: .enqueue "jobs" 1 "" 0 "" none :: commands).map fun c => ⟨7, 0, c⟩
  (exec apply (new defaults (.new "n1" "" "")) entries).map fun r => ((r.1.map Event.output).drop 2, r.2)

/-- A deleted message is still in the memory of a round-robin queue, and an acked one on the
    counter of the default group; a weighted queue has a message, none in flight, and none to
    deliver. -/
theorem empty_group_differs :
    (withEmptyGroup ⟨.roundRobin, 1, 60, 0⟩ [.delete "jobs" 1]).map
    (fun r => (r.1, (r.2.inMemory "jobs").map fun p => (p.1.len, p.2.len))) =
      some ([.response (.ofId "jobs" 1)], some (1, 0)) ∧
    (withEmptyGroup ⟨.roundRobin, 1, 60, 0⟩ [.dequeue "jobs" false, .ack "jobs" 1]).map
        (fun r => (r.1.drop 1, r.2.unackedOf "jobs" "default", (r.2.inMemory "jobs").map fun p => (p.1.len, p.2.len))) =
      some ([.response (.ofId "jobs" 1)], some 1, some (0, 0)) ∧
    (withEmptyGroup ⟨.weighted, 1, 60, 0⟩ [.dequeue "jobs" false]).map
    (fun r => (r.1, (r.2.inMemory "jobs").map fun p => (p.1.len, p.2.len))) =
      some ([.response (.ofError "dequeue message from queue" "jobs" .emptyQueue)], some (1, 0)) := by
  decide +kernel

end

end FSM

end Doq
