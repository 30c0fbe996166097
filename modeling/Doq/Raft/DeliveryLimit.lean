/-
  Doq.Raft.DeliveryLimit — the delivery count of a message and the delivery limit of its queue
  over the life of a node (see `Doq.Queue.Broker`, `Doq.Raft.Delivery`).

  A node applies entries, and now and then its state goes through a snapshot into a node that
  was in some other state. `Counted` is the invariant: the counts that were reported so far
  are 1, 2, 3 and so on, the stored count is the last of them, and a ready message has a
  delivery left. A delivery is the only step that writes the count, and the only one that
  takes a ready message out.

  Proved:
  - `delivery_limit_kept`: from its enqueue on, the deliveries of a message report 1, 2, 3 and
    so on, no more than the limit, and the one that fails at the limit drops the message and
    gives back its slot, if every step respects the queue (`Respects`).
  - `drop_frees_no_slot`: an id that is enqueued while it is in flight does not.
-/

import Doq.Raft.Resume

namespace Doq

open Lib Memory Storage

namespace FSM

/-! ## The life of a node -/

inductive Happening where
  | entry (entry : Entry)
  /-- A snapshot of the state, its queues in the given order, is restored into a node that is
      in the state `prior`. -/
  | restore (prior : FSM) (names : List String)

def occur (f : FSM) : Happening → Go (Option Reply × FSM)
  | .entry entry => (f.apply entry).map fun r => (some r.1, r.2)
  | .restore prior names => do
    let items ← f.persist names
    let f' ← prior.restore items
    some (none, f')

abbrev Lives : FSM → List (Event FSM Happening (Option Reply)) → FSM → Prop := Run occur

/-- The event of the log, if the step was an entry. -/
def applied (e : Event FSM Happening (Option Reply)) : Option (Event FSM Entry Reply) :=
  match e.input, e.output with
  | .entry entry, some reply => some ⟨e.before, entry, reply, e.after⟩
  | _, _ => none

/-- An entry of the log as a step of a node. -/
def ofLog (a : Event FSM Entry Reply) : Event FSM Happening (Option Reply) := ⟨a.before, .entry a.input, some a.output, a.after⟩

theorem Runs.lives {f g : FSM} {events : List (Event FSM Entry Reply)} (r : Runs f events g) : Lives f (events.map ofLog) g := by
  induction r with
  | nil s => exact .nil s
  | cons hs _ ih =>
    refine .cons ?_ ih
    simp only [occur, hs, Option.map_some]

/-- What a step must respect for the queue `name` to stay a broker. A restore goes into a
    state a node can be in, under the same configuration, and no other queue's messages lie
    under the queue's prefix. -/
def Respects (name : String) (e : Event FSM Happening (Option Reply)) : Prop :=
  match e.input with
  | .entry entry => Admits name e.before entry
  | .restore prior names => Safe prior ∧ prior.queueManager.config = e.before.queueManager.config ∧
    names.Perm e.before.queueManager.queues.keys ∧ e.before.queueManager.store.Apart name

/-- The count a delivery of the message reports. -/
def reported (name : String) (id : UInt64) (e : Event FSM Entry Reply) : Option UInt32 :=
  match e.input.command, e.output with
  | .dequeue n _, .response r => if n = name ∧ r.error = none ∧ r.id = id then some r.deliveryCount else none
  | _, _ => none

/-- The counts the deliveries of the message report, in their order. -/
def reports (name : String) (id : UInt64) (events : List (Event FSM Happening (Option Reply))) : List UInt32 :=
  events.filterMap fun e => (applied e).bind (reported name id)

/-- Some step enqueues the message. -/
def Enqueued (name : String) (id : UInt64) (e : Event FSM Happening (Option Reply)) : Prop :=
  ∃ a, applied e = some a ∧ Enqueues name id a

variable {name : String} {id : UInt64} {limit : UInt32} {counts : List UInt32} {ob ob' : Option Broker} {cfg : Config}
  {e : Event FSM Happening (Option Reply)} {a : Event FSM Entry Reply}

theorem reported_eq_some {c : UInt32} (h : reported name id a = some c) :
    Delivers name id a ∧ ∀ r, a.output = .response r → r.deliveryCount = c := by
  unfold reported at h
  split at h
  · rename_i n ack r hc hr
    split at h
    · rename_i hif
      obtain ⟨rfl, herr, hid⟩ := hif
      cases h
      exact ⟨⟨ack, r, hc, hr, herr, hid⟩, fun r' hr' => by rw [hr] at hr'; cases hr'; rfl⟩
    · cases h
  · cases h

theorem Delivers.reported {r : FSMResponse} (h : Delivers name id a) (hr : a.output = .response r) :
    FSM.reported name id a = some r.deliveryCount := by
  obtain ⟨ack, r', hc, hr', herr, hid⟩ := h
  rw [hr] at hr'; cases hr'
  unfold FSM.reported
  rw [hc, hr]
  exact if_pos ⟨rfl, herr, hid⟩

/-! ## The count -/

/-- What holds of a message after the deliveries that reported `counts`. -/
structure Counted (id : UInt64) (limit : UInt32) (counts : List UInt32) (ob : Option Broker) : Prop where
  truthful : counts = (List.range' 1 counts.length).map UInt32.ofNat
  bounded : 0 < limit → counts.length ≤ limit.toNat
  stored : ∀ b r, ob = some b → b.records id = some r → r.message.deliveryCount = UInt32.ofNat counts.length
  ready : 0 < limit → ∀ b msg, ob = some b → b.records id = some ⟨msg, .ready⟩ → counts.length < limit.toNat

/-- A step that is no delivery: what is stored afterwards was so with the same count, and is
    ready only if it was or if a delivery is left. -/
theorem Counted.keep (h : Counted id limit counts ob)
    (hr : ∀ b' r, ob' = some b' → b'.records id = some r → ∃ b r₀, ob = some b ∧ b.records id = some r₀ ∧
      r.message.deliveryCount = r₀.message.deliveryCount ∧
      (r.status = .ready → r₀.status = .ready ∨ ¬ (0 < limit ∧ limit ≤ r₀.message.deliveryCount))) :
    Counted id limit counts ob' where
  truthful := h.truthful
  bounded := h.bounded
  stored b' r hb' hr' := by
    obtain ⟨b, r₀, hb, hr₀, hcount, _⟩ := hr b' r hb' hr'
    rw [hcount]; exact h.stored b r₀ hb hr₀
  ready hpos b' msg hb' hr' := by
    obtain ⟨b, ⟨msg₀, status⟩, hb, hr₀, _, hready⟩ := hr b' _ hb' hr'
    rcases hready rfl with hready | hleft
    · have hready : status = .ready := hready
      subst hready
      exact h.ready hpos b msg₀ hb hr₀
    · have hcount := h.stored b _ hb hr₀
      have hlt : UInt32.ofNat counts.length < limit := by
        rw [← hcount]
        exact UInt32.not_le.mp fun hle => hleft ⟨hpos, hle⟩
      have hle := h.bounded hpos
      rw [UInt32.lt_iff_toNat_lt, UInt32.toNat_ofNat_of_lt' (Nat.lt_of_le_of_lt hle limit.toNat_lt)] at hlt
      exact hlt

/-- A delivery: the next count, and the message is not ready. -/
theorem Counted.deliver {b : Broker} {msg : Message} (h : Counted id limit counts (some b))
    (hbefore : b.records id = some ⟨msg, .ready⟩)
    (hafter : ∀ b' r, ob' = some b' → b'.records id = some r → r.message.deliveryCount = msg.deliveryCount + 1 ∧
      r.status ≠ .ready) :
    Counted id limit (counts ++ [msg.deliveryCount + 1]) ob' := by
  have hcount : msg.deliveryCount + 1 = UInt32.ofNat (counts.length + 1) := by
    have : msg.deliveryCount = UInt32.ofNat counts.length := h.stored b _ rfl hbefore
    rw [this, UInt32.ofNat_add]; rfl
  refine ⟨?_, fun hpos => ?_, fun b' r hb' hr => ?_, fun hpos b' msg' hb' hr => ?_⟩
  · rw [List.length_append, List.length_singleton, List.range'_concat, List.map_append, ← h.truthful, hcount]
    simp [Nat.add_comm]
  · have := h.ready hpos b msg rfl hbefore
    rw [List.length_append, List.length_singleton]
    omega
  · rw [(hafter b' r hb' hr).1, hcount, List.length_append, List.length_singleton]
  · exact absurd rfl (hafter b' _ hb' hr).2

theorem Counted.step (h : Counted id limit counts ob) (hm : Moved name a ob ob') (hnew : ¬ Enqueues name id a)
    (hlimit : ∀ b, ob = some b → b.config.settings.deliveryLimit = limit) :
    Counted id limit (counts ++ (reported name id a).toList) ob' := by
  cases hrep : reported name id a with
  | some c =>
    obtain ⟨hdel, hc⟩ := reported_eq_some hrep
    obtain ⟨b, b', ack, msg, rfl, rfl, _, hbefore, hout, hafter⟩ := hdel.did hm
    have hcount : msg.deliveryCount + 1 = c := hc _ hout
    rw [Option.toList_some, ← hcount]
    refine h.deliver hbefore fun _ r hb' hr => ?_
    cases hb'
    rw [hafter, Function.update_self] at hr
    cases ack <;> cases hr
    exact ⟨rfl, Status.noConfusion⟩
  | none =>
    rw [Option.toList_none, List.append_nil]
    refine h.keep fun b' r hb' hr => ?_
    cases hm with
    | aside _ _ => exact ⟨b', r, hb', hr, rfl, Or.inl⟩
    | created _ _ _ _ _ _ _ => cases hb'; cases hr
    | updated b _ _ _ _ => cases hb'; exact ⟨b, r, rfl, hr, rfl, Or.inl⟩
    | deleted _ _ => cases hb'
    | handled b _ response he _ _ hd hres =>
      cases hb'
      cases hd.origin hr with
      | kept hb => exact ⟨b, r, rfl, hb, rfl, Or.inl⟩
      | enqueued _ _ _ _ hc _ hresp => exact absurd ⟨he, hc, response, hres, hresp⟩ hnew
      | delivered n msg hc _ _ hresp hid =>
        have hn : n = name := by rw [hc] at he; cases he; rfl
        subst hn hresp
        have hdel : Delivers _ id _ := ⟨false, _, hc, hres, rfl, hid⟩
        have := hdel.reported hres
        rw [hrep] at this; cases this
      | requeued msg d priority metadata _ hex hb hx _ =>
        refine ⟨b, _, rfl, hb, by rw [hx]; rfl, fun _ => Or.inr ?_⟩
        rw [← hlimit b rfl]; exact hex
      | changed r₀ hb _ hcount hstatus => exact ⟨b, r₀, rfl, hb, hcount, fun hr => Or.inl (hstatus.mp hr)⟩

/-- A restore brings the count and the status back as they were. -/
theorem Counted.resumed (h : Counted id limit counts ob) (hr : Resumed ob ob') : Counted id limit counts ob' := by
  refine h.keep fun b' r hb' hrec => ?_
  cases hr with
  | absent => cases hb'
  | skipped b _ => cases hb'
  | again b m _ => cases hb'; exact ⟨b, r, rfl, hrec, rfl, Or.inl⟩

/-! ## The last delivery -/

/-- The event takes the message out of the store, of the ready messages and of those in
    flight, and frees one slot of its group; a delayed queue has none. -/
structure DropsOut (name : String) (id : UInt64) (a : Event FSM Entry Reply) : Prop where
  stored : a.after.queueManager.store.messages.lookup (name, id) = none
  held : ∀ p ∈ a.after.inMemory name, id ∉ Queue.heldIds p.1 p.2
  slot : ∃ msg p p', a.before.queueManager.store.messages.lookup (name, id) = some msg ∧ a.before.inMemory name = some p ∧
    a.after.inMemory name = some p' ∧ p'.1.ready = p.1.ready ∧
    ∀ g, p'.1.unacked g = p.1.unacked g - if p.1.kind ≠ .delayed ∧ g = msg.group then 1 else 0

/-- The queue is configured with the limit, under one of the two type names. -/
def Configured (limit : UInt32) (config : QueueConfig) : Prop :=
  config.settings.deliveryLimit = limit ∧ (config.type = "fair" ∨ config.type = "delayed")

theorem delayed_kind {b : Broker} (hb : b.Settled cfg) (ht : b.config.type = "delayed") : b.memory.kind = .delayed := by
  refine (hb.kind (.delayed (.new true)) ?_).symm
  unfold Queue.memoryQueue
  rw [ht, if_neg (by decide), if_pos (by decide)]

/-- The slots are counted exactly in a queue of type `fair`. -/
theorem fair_iff {b : Broker} {q : Queue} {store : Store} (href : Refines name b q store) (hb : b.Settled cfg)
    (ht : b.config.type = "fair" ∨ b.config.type = "delayed") : b.config.type = "fair" ↔ b.memory.kind ≠ .delayed :=
  ⟨href.fair, fun hk => ht.resolve_right fun hd => hk (delayed_kind hb hd)⟩

/-- The broker's part: nothing changes but the record and the slot. -/
theorem fail_drops {b b' : Broker} {entry : Entry} {response : FSMResponse} {msg : Message} {d : Int}
    (hh : b.handle entry = some (response, b')) (hc : entry.command.failed = some id)
    (hr : b.records id = some ⟨msg, .inFlight d⟩)
    (hex : b.exhausted msg) : ∃ m, b.release b.memory msg.group = some m ∧ b' = b.put id none m := by
  have hfail : ∀ {priority metadata r}, b.fail id priority metadata = some (r, b') →
      ∃ m, b.release b.memory msg.group = some m ∧ b' = b.put id none m := by
    intro priority metadata r hf
    unfold Broker.fail at hf
    simp only [hr, if_pos hex] at hf
    obtain ⟨m, hm, hf⟩ := Option.bind_eq_some_iff.mp hf
    cases hf
    exact ⟨m, hm, rfl⟩
  unfold Broker.handle at hh
  cases hcmd : entry.command <;> rw [hcmd] at hh hc <;> cases hc
  case nack n priority metadata =>
    obtain ⟨r, hf, _⟩ := Broker.answer_eq hh
    exact hfail hf
  case ackTimeout n =>
    obtain ⟨r, hf, _⟩ := Broker.answer_eq hh
    exact hfail hf

theorem unheld_of_none {b : Broker} {q : Queue} {store : Store} (h : Refines name b q store) (hr : b.records id = none) :
    id ∉ Queue.heldIds b.memory q.ackQueue := by
  intro hin
  rcases Multiset.mem_add.mp hin with hin | hin
  · obtain ⟨it, hit, hid⟩ := Multiset.mem_map.mp hin
    exact h.not_ready (by rw [hr]; rfl) it hit hid
  · obtain ⟨it, hit, hid⟩ := Multiset.mem_map.mp hin
    exact h.ack.notMem (k := id) (by rw [hr]; rfl) it hit hid

/-- A failed delivery when none is left. -/
theorem Counted.drops (h : Counted id limit counts ob) (ht : Tracks name ob a.before) (hm : Moved name a ob ob')
    (ht' : Tracks name ob' a.after)
    (hf : Fails name id a) (hpos : 0 < limit) (hlen : counts.length = limit.toNat) (hb : ∀ b, ob = some b → b.Settled cfg)
    (hlimit : ∀ b, ob = some b → Configured limit b.config) : DropsOut name id a := by
  obtain ⟨he, hc, hs⟩ := hf
  obtain ⟨b, b', response, rfl, rfl, hh, _, hd, _, herr⟩ := hm.success he hs
  obtain ⟨q, hmem, _, href⟩ := ht.inMemory
  obtain ⟨q', hmem', _, href'⟩ := ht'.inMemory
  obtain ⟨msg, d, hi, ⟨hex, _⟩ | ⟨hex, _⟩⟩ := hd.failure hc herr
  · obtain ⟨m, hrel, rfl⟩ := fail_drops hh hc hi hex
    obtain ⟨m', hrel', hres⟩ := href.release hi href.inv rfl fun _ => rfl
    rw [hrel] at hrel'; cases hrel'
    have hnone : (b.put id none m).records id = none := Function.update_self ..
    refine ⟨href'.lookup_none hnone, fun p hp => ?_, msg, _, _, href.lookup_some hi, hmem, hmem', hres.ready, fun g => ?_⟩
    · rw [hmem'] at hp; cases hp
      exact unheld_of_none href' hnone
    · have hfair := fair_iff href (hb b rfl) (hlimit b rfl).2
      rw [show (b.put id none m).memory.unacked g = _ from hres.unacked g]
      simp only [hfair]
  · -- the message has been delivered as often as the limit allows
    refine absurd ?_ hex
    unfold Broker.exhausted
    rw [(hlimit b rfl).1, h.stored b _ rfl hi, hlen, UInt32.ofNat_toNat]
    exact ⟨hpos, UInt32.le_refl limit⟩

/-! ## Over lives -/

/-- A stored message is the broker's. -/
theorem Tracks.of_stored {f : FSM} {msg : Message} (h : Tracks name ob f)
    (hm : f.queueManager.store.messages.lookup (name, id) = some msg) :
    ∃ b status, ob = some b ∧ b.records id = some ⟨msg, status⟩ := by
  cases ob with
  | some b =>
    obtain ⟨q, _, _, href⟩ := h.present b rfl
    rw [href.stored] at hm
    obtain ⟨⟨_, status⟩, hr, rfl⟩ := Option.map_eq_some_iff.mp hm
    exact ⟨b, status, rfl, hr⟩
  | none =>
    cases hq : f.queueManager.queues.lookup name with
    | none => rw [(h.safe.missing name hq).2 id] at hm; cases hm
    | some q =>
      obtain ⟨config, _, hserved⟩ := h.safe.queue name q hq
      rcases hserved with ⟨_, m, hl⟩ | ⟨_, hi⟩
      · have hnone := h.absent rfl q hq
        rw [hl.queue_eq] at hnone; cases hnone
      · rw [hi.empty id] at hm; cases hm

theorem Tracks.of_inMemory {f : FSM} {p : MemoryQueue × DelayedQueue} (h : Tracks name ob f) (hp : p ∈ f.inMemory name) :
    ∃ b q, ob = some b ∧ p = (b.memory, q.ackQueue) ∧ Refines name b q f.queueManager.store := by
  cases ob with
  | some b =>
    obtain ⟨q, hmem, _, href⟩ := h.inMemory
    rw [hmem] at hp; cases hp
    exact ⟨b, q, rfl, rfl, href⟩
  | none =>
    obtain ⟨q, hq, hp⟩ := Option.bind_eq_some_iff.mp hp
    obtain ⟨m, hm, _⟩ := Option.bind_eq_some_iff.mp hp
    rw [h.absent rfl q hq] at hm; cases hm

/-- One step of a node, in terms of the broker. -/
theorem Respects.step (h : Respects name e) (hs : e.before.occur e.input = some (e.output, e.after))
    (ht : Tracks name ob e.before)
    (hb : ∀ b, ob = some b → b.Settled cfg) (hcfg : e.before.queueManager.config = cfg) :
    ∃ ob', Tracks name ob' e.after ∧ (∀ b, ob' = some b → b.Settled cfg) ∧ e.after.queueManager.config = cfg ∧
      ((∃ a, applied e = some a ∧ a.before = e.before ∧ a.after = e.after ∧ Moved name a ob ob') ∨
        (applied e = none ∧ Resumed ob ob')) := by
  obtain ⟨before, input, output, after⟩ := e
  cases input with
  | entry entry =>
    obtain ⟨⟨reply, f'⟩, hap, hr⟩ := Option.map_eq_some_iff.mp hs
    obtain ⟨rfl, rfl⟩ := Prod.mk.inj hr
    obtain ⟨ob', hm, ht'⟩ := Tracks.step (e := ⟨before, entry, reply, f'⟩) ht hap h
    exact ⟨ob', ht', Settled.step hb ht hm hcfg, (ht.safe.apply_config hap).trans hcfg, Or.inl ⟨_, rfl, rfl, rfl, hm⟩⟩
  | restore prior names =>
    obtain ⟨items, hp, hr⟩ := Option.bind_eq_some_iff.mp hs
    obtain ⟨f', hr, he⟩ := Option.bind_eq_some_iff.mp hr
    cases he
    obtain ⟨hprior, hsame, hnames, ha⟩ := h
    obtain ⟨ob', hres, ht'⟩ := ht.restored hb hprior (hsame.trans hcfg) hnames ha hp hr
    exact ⟨ob', ht', hres.settled hb, (hprior.restore_config hr).trans (hsame.trans hcfg), Or.inr ⟨rfl, hres⟩⟩

/-- A broker for the queue that can be made again. -/
def Managed (cfg : Config) (name : String) (ob : Option Broker) (f : FSM) : Prop :=
  Tracks name ob f ∧ (∀ b, ob = some b → b.Settled cfg) ∧ f.queueManager.config = cfg

theorem Respects.managed (h : Respects name e) (hs : e.before.occur e.input = some (e.output, e.after))
    (hm : Managed cfg name ob e.before) :
    ∃ ob', Managed cfg name ob' e.after ∧
      ((∃ a, applied e = some a ∧ a.before = e.before ∧ a.after = e.after ∧ Moved name a ob ob') ∨
        (applied e = none ∧ Resumed ob ob')) := by
  obtain ⟨ob', ht, hb, hcfg, hstep⟩ := h.step hs hm.1 hm.2.1 hm.2.2
  exact ⟨ob', ⟨ht, hb, hcfg⟩, hstep⟩

theorem Lives.managed {leaderConfig : LeaderConfig} {f : FSM} {events : List (Event FSM Happening (Option Reply))}
    (r : Lives (new cfg leaderConfig) events f) (hok : ∀ e ∈ events, Respects name e) : ∃ ob, Managed cfg name ob f :=
  r.keeps (I := fun f => ∃ ob, Managed cfg name ob f) (fun e he hs ⟨ob, hI⟩ => by
    obtain ⟨ob', hI', _⟩ := (hok e he).managed hs hI
    exact ⟨ob', hI'⟩) ⟨none, tracks_new cfg leaderConfig, nofun, rfl⟩

/-- A state whose settings all pass can go through a snapshot. -/
theorem Runs.occurs_restore {leaderConfig : LeaderConfig} {f : FSM} {events : List (Event FSM Entry Reply)} {names : List String}
    (r : Runs (new cfg leaderConfig) events f) (hnames : names.Perm f.queueManager.queues.keys)
    (hapart : ∀ n ∈ names, f.queueManager.store.Apart n)
    (hrest : ∀ e ∈ f.queueManager.store.queues.entries, Queue.Restorable e.2) :
    ∃ f', f.occur (.restore f names) = some (none, f') := by
  obtain ⟨items, f', hitems, hf', _⟩ := r.wellFormed.recreated r.safe r.safe r.wellFormed.config_eq hnames hapart
    fun n config hc => hrest ⟨n, config⟩ (FinMap.mem_entries.mpr hc)
  exact ⟨f', by simp only [occur, hitems, hf', Option.bind_eq_bind, Option.bind_some]⟩

theorem foldl_toList {α β : Type} (report : α → Option β) (l : List α) : ∀ done : List β,
    l.foldl (fun done a => done ++ (report a).toList) done = done ++ l.filterMap report := by
  induction l with
  | nil => intro done; simp
  | cons a l ih =>
    intro done
    rw [List.foldl_cons, ih, List.append_assoc]
    cases ha : report a <;> simp [ha]

/-- The message as its enqueue leaves it. -/
theorem counted_enqueued {limit : UInt32} (hm : Moved name a ob ob') (he : Enqueues name id a)
    (hfresh : ∀ b, ob = some b → b.records id = none) : Counted id limit [] ob' := by
  obtain ⟨hn, _, hs⟩ := he
  obtain ⟨b, b', response, rfl, rfl, _, _, hd, _, _⟩ := hm.success hn hs
  have hnone := hfresh b rfl
  refine ⟨rfl, fun _ => Nat.zero_le _, fun _ r hb hr => ?_, fun hpos _ _ _ _ => UInt32.lt_iff_toNat_lt.mp hpos⟩
  cases hb
  cases hd.origin hr with
  | enqueued _ _ _ _ _ hx _ => rw [hx]; rfl
  | kept hb => rw [hnone] at hb; cases hb
  | delivered _ _ _ hb _ _ _ => rw [hnone] at hb; cases hb
  | requeued _ _ _ _ _ _ hb _ _ => rw [hnone] at hb; cases hb
  | changed _ hb _ _ _ => rw [hnone] at hb; cases hb

section

variable {leaderConfig : LeaderConfig} {f : FSM} {earlier later : List (Event FSM Happening (Option Reply))}
  {first : Event FSM Happening (Option Reply)}

theorem Lives.counted (r : Lives (new cfg leaderConfig) (earlier ++ first :: later) f)
    (hok : ∀ e ∈ earlier ++ first :: later, Respects name e) (hfirst : Enqueued name id first)
    (honce : ∀ e ∈ later, ¬ Enqueued name id e)
    (hlimit : ∀ e ∈ later, ∀ config, e.before.queueManager.store.queues.lookup name = some config → Configured limit config) :
    ∃ ob, Managed cfg name ob f ∧ Counted id limit (reports name id later) ob := by
  obtain ⟨hrun, hstep, hrest⟩ := r.at_event
  obtain ⟨ob, hI⟩ := Lives.managed hrun fun e he => hok e (by simp [he])
  obtain ⟨a, ha, henq⟩ := hfirst
  obtain ⟨ob', hI', hmoved⟩ := (hok first (by simp)).managed hstep hI
  have hzero : Counted id limit [] ob' := by
    rcases hmoved with ⟨a', ha', hbefore, _, hm⟩ | ⟨hnone, _⟩
    · rw [ha] at ha'; cases ha'
      refine counted_enqueued hm henq fun b hb => ?_
      obtain ⟨q, _, _, href⟩ := hI.1.present b hb
      have hadmits : Admits name first.before a.input := by
        have := hok first (by simp)
        unfold Respects at this
        unfold applied at ha
        split at ha
        · rename_i entry reply hin _
          cases ha
          rw [hin] at this
          exact this
        · cases ha
      have hnew := hadmits.fresh henq.1 id henq.2.1
      rw [href.stored] at hnew
      exact Option.map_eq_none_iff.mp hnew
    · rw [ha] at hnone; cases hnone
  have hcount := hrest.history (fun counts e => counts ++ ((applied e).bind (reported name id)).toList)
    (I := fun counts f => ∃ ob, Managed cfg name ob f ∧ Counted id limit counts ob) (fun counts e he hs ⟨ob, hI, hC⟩ => by
      obtain ⟨ob', hI', hmoved⟩ := (hok e (by simp [he])).managed hs hI
      refine ⟨ob', hI', ?_⟩
      rcases hmoved with ⟨a, ha, _, _, hm⟩ | ⟨hnone, hres⟩
      · rw [ha, Option.bind_some]
        refine hC.step hm (fun henq => honce e he ⟨a, ha, henq⟩) fun b hb => ?_
        obtain ⟨_, _, hconf, _⟩ := hI.1.present b hb
        exact (hlimit e he b.config hconf).1
      · rw [hnone, Option.bind_none, Option.toList_none, List.append_nil]
        exact hC.resumed hres) (g := []) ⟨ob', hI', hzero⟩
  rw [foldl_toList, List.nil_append] at hcount
  exact hcount

/-- What holds of a message in the state `f`, after the part `later` of a node's life that
    began with its enqueue. -/
structure Limited (name : String) (id : UInt64) (limit : UInt32) (later : List (Event FSM Happening (Option Reply)))
    (f : FSM) : Prop where
  truthful : reports name id later = (List.range' 1 (reports name id later).length).map UInt32.ofNat
  stored : ∀ msg, f.queueManager.store.messages.lookup (name, id) = some msg →
    msg.deliveryCount = UInt32.ofNat (reports name id later).length
  bounded : 0 < limit → (reports name id later).length ≤ limit.toNat
  ready : 0 < limit → ∀ p ∈ f.inMemory name, ∀ it ∈ p.1.ready, it.id = id →
    ∃ msg, f.queueManager.store.messages.lookup (name, id) = some msg ∧ msg.deliveryCount < limit
  dropped : 0 < limit → ∀ done e rest a, later = done ++ e :: rest → applied e = some a → Fails name id a →
    (reports name id done).length = limit.toNat → DropsOut name id a

theorem delivery_limit_kept (r : Lives (new cfg leaderConfig) (earlier ++ first :: later) f)
    (hok : ∀ e ∈ earlier ++ first :: later, Respects name e) (hfirst : Enqueued name id first)
    (honce : ∀ e ∈ later, ¬ Enqueued name id e)
    (hlimit : ∀ e ∈ later, ∀ config, e.before.queueManager.store.queues.lookup name = some config → Configured limit config) :
    Limited name id limit later f := by
  obtain ⟨ob, hI, hC⟩ := r.counted hok hfirst honce hlimit
  refine ⟨hC.truthful, fun msg hm => ?_, hC.bounded, fun hpos p hp it hit hid => ?_, ?_⟩
  · obtain ⟨b, status, hb, hr⟩ := hI.1.of_stored hm
    exact hC.stored b _ hb hr
  · obtain ⟨b, q, rfl, rfl, href⟩ := hI.1.of_inMemory hp
    obtain ⟨msg, hr, _⟩ := href.record_of_ready hit
    rw [hid] at hr
    refine ⟨msg, href.lookup_some hr, ?_⟩
    have hcount : msg.deliveryCount = UInt32.ofNat (reports name id later).length := hC.stored b _ rfl hr
    have hlt := hC.ready hpos b msg rfl hr
    rw [hcount, UInt32.lt_iff_toNat_lt, UInt32.toNat_ofNat_of_lt' (Nat.lt_trans hlt limit.toNat_lt)]
    exact hlt
  · rintro hpos done e rest a rfl ha hf hlen
    -- the life up to the event, and the event itself
    rw [← List.cons_append, ← List.append_assoc] at r
    obtain ⟨hrun, hstep, _⟩ := r.at_event
    obtain ⟨ob, hI, hC⟩ := Lives.counted hrun (fun x hx => hok x (by simp at hx ⊢; tauto)) hfirst
      (fun x hx => honce x (by simp [hx])) fun x hx => hlimit x (by simp [hx])
    obtain ⟨ob', hI', hmoved⟩ := (hok e (by simp)).managed hstep hI
    rcases hmoved with ⟨a', ha', hbefore, hafter, hm⟩ | ⟨hnone, _⟩
    · rw [ha] at ha'; cases ha'
      refine hC.drops (hbefore ▸ hI.1) hm (hafter ▸ hI'.1) hf hpos hlen hI.2.1 fun b hb => ?_
      obtain ⟨_, _, hconf, _⟩ := hI.1.present b hb
      exact hlimit e (by simp) b.config hconf
    · rw [ha] at hnone; cases hnone

/-- A message delivered, nacked and delivered for the last time. -/
def twoDeliveries : List Entry :=
  [⟨1, 0, .createQueue "jobs" "fair" ⟨.roundRobin, 0, 60, 2⟩⟩, ⟨2, 0, .enqueue "jobs" 1 "a" 0 "" none⟩,
    ⟨3, 0, .dequeue "jobs" false⟩,
    ⟨4, 0, .nack "jobs" 1 0 none⟩, ⟨5, 0, .dequeue "jobs" false⟩]

theorem twoDeliveries_runs : (exec apply (new defaults (.new "n1" "" "")) twoDeliveries).isSome := rfl

def twoDeliveriesEvents : List (Event FSM Entry Reply) :=
  ((exec apply (new defaults (.new "n1" "" "")) twoDeliveries).get twoDeliveries_runs).1

def twoDeliveriesState : FSM := ((exec apply (new defaults (.new "n1" "" "")) twoDeliveries).get twoDeliveries_runs).2

/-- In a life that ends with a restore. -/
theorem delivery_limit_kept_restored :
    ∃ earlier first later g', Lives (new defaults (.new "n1" "" "")) (earlier ++ first :: later) g' ∧
    later.getLast? = some ⟨twoDeliveriesState, .restore twoDeliveriesState ["jobs"], none, g'⟩ ∧ reports "jobs" 1 later = [1, 2] ∧
    Limited "jobs" 1 2 later g' := by
  have r : Runs (new defaults (.new "n1" "" "")) twoDeliveriesEvents twoDeliveriesState := Run.of_exec_isSome twoDeliveries_runs
  obtain ⟨g', hocc⟩ := r.occurs_restore (.refl ["jobs"]) (by decide +kernel) (by decide +kernel)
  have hlives := r.lives.append (.cons hocc (.nil g'))
  -- what is known of the entries, and of the queue's configuration before each of them
  have hadmits : ∀ a ∈ twoDeliveriesEvents, Admits "jobs" a.before a.input := by decide +kernel
  have hinputs : twoDeliveriesEvents.map Event.input = twoDeliveries := by decide +kernel
  have hsucceed : ∀ a ∈ twoDeliveriesEvents, Succeeds a := by decide +kernel
  have hreports : reports "jobs" 1 ((twoDeliveriesEvents.drop 2).map ofLog) = [1, 2] := by decide +kernel
  have hconfigs : ∀ a ∈ twoDeliveriesEvents, ∀ config ∈ a.before.queueManager.store.queues.lookup "jobs",
    Configured 2 config := by
    unfold Configured; decide +kernel
  have hlast : ∀ config ∈ twoDeliveriesState.queueManager.store.queues.lookup "jobs", Configured 2 config := by
    unfold Configured; decide +kernel
  have hapart : twoDeliveriesState.queueManager.store.Apart "jobs" := by decide +kernel
  generalize twoDeliveriesEvents = events at r hlives hadmits hinputs hsucceed hreports hconfigs
  rcases events with _ | ⟨a, _ | ⟨b, rest⟩⟩
  · cases hinputs
  · exact absurd (congrArg List.length hinputs) (by simp [twoDeliveries])
  obtain ⟨_, hb, hrest⟩ : a.input = _ ∧ b.input = _ ∧ rest.map Event.input = _ := by simpa [twoDeliveries] using hinputs
  have hbs : Succeeds b := hsucceed b (by simp)
  have hlives : Lives _ ([ofLog a] ++ ofLog b :: (rest.map ofLog ++
    [⟨twoDeliveriesState, .restore twoDeliveriesState ["jobs"], none, g'⟩])) g' :=
    hlives
  refine ⟨_, _, _, g', hlives, by simp, ?_, ?_⟩
  · simpa [reports, applied] using hreports
  · refine delivery_limit_kept hlives (fun e he => ?_) ⟨b, rfl, by rw [hb]; rfl, by rw [hb]; rfl, hbs⟩
      (fun e he => ?_) fun e he => ?_
    · have he : e ∈ (a :: b :: rest).map ofLog ++ [_] := he
      rcases List.mem_append.mp he with he | he
      · obtain ⟨x, hx, rfl⟩ := List.mem_map.mp he
        exact hadmits x hx
      · rw [List.mem_singleton] at he
        subst he
        exact ⟨r.safe, rfl, .refl _, hapart⟩
    · rintro ⟨x, hx, _, henq, _⟩
      have hnone : ∀ entry ∈ rest.map Event.input, entry.command.enqueued = none := by rw [hrest]; decide
      rcases List.mem_append.mp he with he | he
      · obtain ⟨y, hy, rfl⟩ := List.mem_map.mp he
        cases hx
        rw [hnone _ (List.mem_map_of_mem hy)] at henq
        cases henq
      · rw [List.mem_singleton] at he
        subst he
        cases hx
    · rcases List.mem_append.mp he with he | he
      · obtain ⟨y, hy, rfl⟩ := List.mem_map.mp he
        exact hconfigs y (by simp [hy])
      · rw [List.mem_singleton] at he
        subst he
        exact hlast

/-- The count of a group's unacked messages. -/
def unackedOf (f : FSM) (name group : String) : Option Int := (f.inMemory name).map (·.1.unacked group)

/-- Two deliveries in the groups `a` and `b`; the message in flight in `b` is enqueued again,
    in `a`, and acked. -/
def stolenSlot : List Entry :=
  [⟨1, 0, .createQueue "jobs" "fair" ⟨.roundRobin, 0, 60, 1⟩⟩, ⟨2, 0, .enqueue "jobs" 1 "a" 0 "" none⟩,
    ⟨3, 0, .enqueue "jobs" 2 "b" 0 "" none⟩, ⟨4, 0, .dequeue "jobs" false⟩, ⟨5, 0, .dequeue "jobs" false⟩,
    ⟨6, 0, .enqueue "jobs" 2 "a" 0 "" none⟩, ⟨7, 0, .ack "jobs" 2⟩, ⟨8, 0, .nack "jobs" 1 0 none⟩]

theorem stolenSlot_runs : (exec apply (new defaults (.new "n1" "" "")) stolenSlot).isSome := rfl

/-- The ack gives back the slot of message 1. When the only delivery of message 1 fails,
    the message is dropped and no slot is given back, and the slot in `b` stays taken. -/
theorem drop_frees_no_slot :
    let events := ((exec apply (new defaults (.new "n1" "" "")) stolenSlot).get stolenSlot_runs).1
    reports "jobs" 1 (events.map ofLog) = [1] ∧
      (events.getLast?.map fun e => [e.before, e.after].map fun f =>
        (f.queueManager.store.messages.lookup ("jobs", 1)).map (·.group)) = some [some "a", none] ∧
      (events.getLast?.map fun e => [e.before, e.after].map fun f => (f.unackedOf "jobs" "a", f.unackedOf "jobs" "b")) =
        some [(some 0, some 1), (some 0, some 1)] := by
  decide +kernel

end

end FSM

end Doq
