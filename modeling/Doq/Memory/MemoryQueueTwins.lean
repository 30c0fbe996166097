/-
  Doq.Memory.MemoryQueueTwins — memory queues that cannot be told apart
  (see `Doq.Memory.MemoryQueueProofs`).

  `Alike m m'` says that two memory queues of one kind hold the same messages ready and count
  the same ones unacked under the same limit, and agree on what else decides a dequeue: in a
  weighted queue the weights, which are up to date on both sides; in a round-robin queue the
  order and the starts of the nodes (see `Doq.Memory.RoundRobinTwins`); in a delayed queue
  nothing.

  Proved: `Alike.dequeue`, both give the same message; every method leaves them alike; and
  `PeekReady` answers the same.
-/

import Doq.Memory.MemoryQueueWakes
import Doq.Memory.RoundRobinSchedule

namespace Doq.Memory

open Lib WeightedAvl

/-! ## The weights -/

namespace FairWeightedQueue

variable {fq fq' : FairWeightedQueue} {e : String × Int}

/-- With the weights up to date, the tree is determined by the messages, the counters and the
    limit. -/
theorem entry_iff (h : Safe fq none) (hf : Full fq none) (hs : Synced fq none) : e ∈ fq.weights.root.toList ↔
    ((∃ it ∈ fq.ready, it.group = e.1) ∨ 0 < fq.unacked e.1) ∧
      e.2 = calculateWeight .float64 fq.maxUnacked (fq.unacked e.1) (fq.ready.countP (·.group = e.1)) := by
  rw [← queueOf_len h]
  constructor
  · intro he
    refine ⟨?_, hs e he (by simp)⟩
    obtain ⟨queue, hq⟩ := (h.keys e.1 (by simp)).mp ⟨e.2, he⟩
    refine (hf.alive e.1 queue (by simp) hq).imp_left fun hlen => ?_
    rw [PriorityMemoryQueue.len_eq_card, Multiset.card_pos_iff_exists_mem] at hlen
    obtain ⟨it, hit⟩ := hlen
    exact ⟨it, (mem_queueOf h).mp (by rw [queueOf_of_lookup hq]; exact hit)⟩
  · rintro ⟨hin, hw⟩
    have hqueue : ∃ queue, fq.queues.lookup e.1 = some queue := by
      rcases hin with ⟨it, hit, hg⟩ | hpos
      · obtain ⟨g, queue, hq, hmem⟩ := FinMap.mem_total.mp hit
        have := (h.queue g queue hq).items trivial it hmem
        rw [← hg, this]
        exact ⟨queue, hq⟩
      · unfold FairWeightedQueue.unacked at hpos
        cases hc : fq.unackedByGroup.lookup e.1 with
        | none => rw [hc] at hpos; exact absurd hpos (by decide)
        | some count => exact h.kept e.1 count hc
    obtain ⟨w, he⟩ := (h.keys e.1 (by simp)).mpr hqueue
    have hwe : w = e.2 := (hs (e.1, w) he (by simp)).trans hw.symm
    rwa [hwe] at he

/-- Two queues that hold and count the same have the same weights. -/
structure SameWeights (fq fq' : FairWeightedQueue) : Prop where
  entries : ∀ e, e ∈ fq'.weights.root.toList ↔ e ∈ fq.weights.root.toList
  empty : fq'.queues.entries = [] ↔ fq.queues.entries = []

theorem entries_nil_iff (h : Safe fq none) : fq.queues.entries = [] ↔ fq.weights.root.toList = [] := by
  rw [List.eq_nil_iff_forall_not_mem, List.eq_nil_iff_forall_not_mem]
  constructor
  · intro hnone e he
    obtain ⟨queue, hq⟩ := (h.keys e.1 (by simp)).mp ⟨e.2, he⟩
    exact hnone ⟨e.1, queue⟩ (FinMap.mem_entries.mpr hq)
  · intro hnone e he
    obtain ⟨w, hw⟩ := (h.keys e.1 (by simp)).mpr ⟨e.2, FinMap.mem_entries.mp he⟩
    exact hnone _ hw

theorem same_weights (h : Safe fq none) (hf : Full fq none) (hs : Synced fq none) (h' : Safe fq' none) (hf' : Full fq' none)
    (hs' : Synced fq' none) (hr : fq'.ready = fq.ready) (hu : ∀ g, fq'.unacked g = fq.unacked g)
    (hm : fq'.maxUnacked = fq.maxUnacked) : SameWeights fq fq' := by
  have hentries : ∀ e, e ∈ fq'.weights.root.toList ↔ e ∈ fq.weights.root.toList := fun e => by
    rw [entry_iff h hf hs, entry_iff h' hf' hs', hr, hu, hm]
  refine ⟨hentries, ?_⟩
  rw [entries_nil_iff h, entries_nil_iff h', List.eq_nil_iff_forall_not_mem, List.eq_nil_iff_forall_not_mem]
  exact forall_congr' fun e => not_congr (hentries e)

theorem SameWeights.sample (hw : SameWeights fq fq') (h : Safe fq none) (h' : Safe fq' none) (seed : UInt64) :
    fq'.weights.sample seed = fq.weights.sample seed :=
  WeightedAVL.Weighed.sample_congr ⟨h.valid, h.weight⟩ ⟨h'.valid, h'.weight⟩
    (fun k w _ => (Node.get_eq_some h'.valid).trans ((hw.entries (k, w)).trans (Node.get_eq_some h.valid).symm)) seed

theorem SameWeights.peekReady (hw : SameWeights fq fq') (h : Safe fq none) (h' : Safe fq' none) :
    fq'.peekReady = fq.peekReady := by
  have hsum : fq'.weights.root.sum = fq.weights.root.sum := by
    rw [h.valid.sum_eq, h'.valid.sum_eq, Node.toList_ext h'.valid h.valid hw.entries]
  unfold FairWeightedQueue.peekReady WeightedAVL.sum
  rw [hsum]

/-- Both pick a group, and the same one, or neither does. -/
theorem SameWeights.group (hw : SameWeights fq fq') (h : Safe fq none) (h' : Safe fq' none) {ack : Bool} {seed : UInt64}
    {it it' : Option Item} {fq1 fq1' : FairWeightedQueue} (hd : fq.dequeue ack seed = some (it, fq1))
    (hd' : fq'.dequeue ack seed = some (it', fq1')) : it'.map (·.group) = it.map (·.group) := by
  have hspec := (dequeue_spec h ack seed).result hd
  have hspec' := (dequeue_spec h' ack seed).result hd'
  cases it with
  | none =>
    cases it' with
    | none => rfl
    | some y =>
      obtain ⟨_, hent, hne, _⟩ := hspec'
      rw [hw.sample h h'] at hne
      exact (hspec.2.elim (fun h0 => hent (hw.empty.mpr h0)) hne).elim
  | some x =>
    obtain ⟨hgroup, hent, hne, _⟩ := hspec
    cases it' with
    | none =>
      have h0 := hspec'.2
      rw [hw.sample h h'] at h0
      exact (h0.elim (fun h0 => hent (hw.empty.mp h0)) hne).elim
    | some y =>
      obtain ⟨hgroup', _⟩ := hspec'
      rw [hw.sample h h'] at hgroup'
      simp only [Option.map_some, hgroup, hgroup']

end FairWeightedQueue

namespace MemoryQueue

variable {m m' m₁ m₁' : MemoryQueue} {group : String} {item : Item}

/-- The trees of two round-robin queues are in step. -/
def Paced : MemoryQueue → MemoryQueue → Prop
  | fairRoundRobin q, fairRoundRobin q' => FairRoundRobinQueue.Paced q q'
  | _, _ => True

structure Alike (m m' : MemoryQueue) : Prop where
  inv : Inv m
  inv' : Inv m'
  kind : m'.kind = m.kind
  ready : m'.ready = m.ready
  unacked : ∀ g, m'.unacked g = m.unacked g
  max : m'.maxUnacked = m.maxUnacked
  synced : m.Synced
  synced' : m'.Synced
  paced : m.Paced m'

theorem Paced.symm (h : m.Paced m') : m'.Paced m := by
  cases m <;> cases m' <;> first | trivial | exact FairRoundRobinQueue.Paced.symm h

theorem Alike.symm (h : Alike m m') : Alike m' m :=
  ⟨h.inv', h.inv, h.kind.symm, h.ready.symm, fun g => (h.unacked g).symm, h.max.symm, h.synced', h.synced, h.paced.symm⟩

theorem Alike.refl (h : Inv m) (hs : m.Synced) : Alike m m :=
  ⟨h, h, rfl, rfl, fun _ => rfl, rfl, hs, hs, by cases m <;> first | trivial | exact .refl _⟩

theorem Alike.twins {q q' : FairRoundRobinQueue} (h : Alike (fairRoundRobin q) (fairRoundRobin q')) : q.Twins q' :=
  ⟨FairRoundRobinQueue.Inv.loosen h.inv, FairRoundRobinQueue.Inv.loosen h.inv', h.ready, h.unacked, h.max, h.paced⟩

theorem Alike.same_weights {q q' : FairWeightedQueue} (h : Alike (fairWeighted q) (fairWeighted q')) : q.SameWeights q' :=
  FairWeightedQueue.same_weights h.inv.1 h.inv.2 h.synced h.inv'.1 h.inv'.2 h.synced' h.ready h.unacked h.max

theorem Alike.len (h : Alike m m') : m'.len = m.len := by
  rw [h.inv.safe.len, h.inv'.safe.len, h.ready]

/-- After the same method on both sides: what is left to show is that round-robin queues stay
    in step. -/
theorem Alike.next (h : Alike m m') {ready : Multiset Item} {unacked unacked' : String → Int} (hr : Result m m₁ ready unacked)
    (hr' : Result m' m₁' ready unacked') (hu : ∀ g, unacked' g = unacked g) (hm : m₁'.maxUnacked = m₁.maxUnacked) (hs : m₁.Synced)
    (hs' : m₁'.Synced) (hp : ∀ q q' q₁ q₁', m = fairRoundRobin q → m' = fairRoundRobin q' → m₁ = fairRoundRobin q₁ →
      m₁' = fairRoundRobin q₁' → q₁.Paced q₁') : Alike m₁ m₁' := by
  refine ⟨hr.inv, hr'.inv, by rw [hr.kind, hr'.kind, h.kind], by rw [hr.ready, hr'.ready],
    fun g => by rw [hr.unacked, hr'.unacked, hu], hm, hs, hs', ?_⟩
  by_cases hk : m.kind = .fairRoundRobin
  · obtain ⟨q, rfl⟩ := eq_of_kind hk
    obtain ⟨q', rfl⟩ := eq_of_kind (h.kind.trans hk)
    obtain ⟨q₁, rfl⟩ := eq_of_kind (hr.kind.trans hk)
    obtain ⟨q₁', rfl⟩ := eq_of_kind (hr'.kind.trans (h.kind.trans hk))
    exact hp q q' q₁ q₁' rfl rfl rfl rfl
  · rw [← hr.kind] at hk
    cases m₁ with
    | fairRoundRobin q => exact absurd rfl hk
    | delayed q => trivial
    | fairWeighted q => trivial

/-! ## The methods -/

theorem Alike.enqueue (h : Alike m m') (hg : Accepts m.kind group) (hi : item.group = group)
    (hfresh : ∀ it ∈ m.ready, it.id ≠ item.id)
    (he : m.enqueue group item = some m₁) (he' : m'.enqueue group item = some m₁') : Alike m₁ m₁' := by
  have hr := (h.inv.enqueue hg hi hfresh).result he
  have hr' := (h.inv'.enqueue (h.kind ▸ hg) hi (h.ready ▸ hfresh)).result he'
  rw [h.ready] at hr'
  refine h.next hr hr' h.unacked ?_ (synced_closed.enqueue h.inv h.synced hi he)
    (synced_closed.enqueue h.inv' h.synced' hi he') ?_
  · rw [(maxUnacked_closed m.maxUnacked).enqueue h.inv rfl hi he, (maxUnacked_closed m.maxUnacked).enqueue h.inv' h.max hi he']
  · rintro q q' q₁ q₁' rfl rfl rfl rfl
    have hq : q.enqueue group item = q₁ := fairRoundRobin.inj (Option.some.inj he)
    have hq' : q'.enqueue group item = q₁' := fairRoundRobin.inj (Option.some.inj he')
    rw [← hq, ← hq']
    exact h.twins.enqueue hg

theorem Alike.delete {it : Item} (h : Alike m m') (hit : it ∈ m.ready) (he : m.delete it.group it.id = some (some it, m₁))
    (he' : m'.delete it.group it.id = some (some it, m₁')) : Alike m₁ m₁' := by
  obtain ⟨_, rest, hrest, hr⟩ := (h.inv.delete_ready hit).result he
  obtain ⟨_, rest', hrest', hr'⟩ := (h.inv'.delete_ready (h.ready ▸ hit)).result he'
  obtain rfl : rest' = rest := (Multiset.cons_inj_right it).mp (by rw [← hrest, ← hrest', h.ready])
  refine h.next hr hr' h.unacked ?_ (synced_closed.delete h.inv h.synced he) (synced_closed.delete h.inv' h.synced' he') ?_
  · rw [(maxUnacked_closed m.maxUnacked).delete h.inv rfl he, (maxUnacked_closed m.maxUnacked).delete h.inv' h.max he']
  · rintro q q' q₁ q₁' rfl rfl rfl rfl
    obtain ⟨⟨_, _⟩, hd, hx⟩ := Option.map_eq_some_iff.mp he
    obtain ⟨⟨_, _⟩, hd', hx'⟩ := Option.map_eq_some_iff.mp he'
    cases hx; cases hx'
    exact h.twins.delete hd hd'

/-- Both sides stay in step when each keeps its own order. -/
theorem Alike.still {q q' q₁ q₁' : FairRoundRobinQueue} (h : Alike (fairRoundRobin q) (fairRoundRobin q'))
    (hp : q.Paced q₁) (hp' : q'.Paced q₁') : q₁.Paced q₁' :=
  (hp.symm.trans h.paced).trans hp'

/-- A change of priority moves no turn, so the ready messages alone decide. -/
theorem Alike.updatePriority_next {id : UInt64} {v : Int} {ready : Multiset Item} (h : Alike m m')
    (hr : Result m m₁ ready m.unacked)
    (hr' : Result m' m₁' ready m'.unacked) (he : m.updatePriority group id v = some m₁)
    (he' : m'.updatePriority group id v = some m₁') : Alike m₁ m₁' := by
  refine h.next hr hr' h.unacked ?_ (synced_closed.updatePriority h.inv h.synced he)
    (synced_closed.updatePriority h.inv' h.synced' he') ?_
  · rw [(maxUnacked_closed m.maxUnacked).updatePriority h.inv rfl he,
      (maxUnacked_closed m.maxUnacked).updatePriority h.inv' h.max he']
  · rintro q q' q₁ q₁' rfl rfl rfl rfl
    obtain ⟨_, hu, hx⟩ := Option.map_eq_some_iff.mp he
    obtain ⟨_, hu', hx'⟩ := Option.map_eq_some_iff.mp he'
    cases hx; cases hx'
    exact h.still (h.twins.inv.updatePriority_paced hu) (h.twins.inv'.updatePriority_paced hu')

theorem Alike.updatePriority_ready {it : Item} {v : Int} (h : Alike m m') (hit : it ∈ m.ready)
    (he : m.updatePriority it.group it.id v = some m₁) (he' : m'.updatePriority it.group it.id v = some m₁') : Alike m₁ m₁' := by
  obtain ⟨rest, hrest, hr⟩ := (h.inv.updatePriority_ready hit v).result he
  obtain ⟨rest', hrest', hr'⟩ := (h.inv'.updatePriority_ready (h.ready ▸ hit) v).result he'
  obtain rfl : rest' = rest := (Multiset.cons_inj_right it).mp (by rw [← hrest, ← hrest', h.ready])
  exact h.updatePriority_next hr hr' he he'

theorem Alike.updatePriority_none {id : UInt64} {v : Int} (h : Alike m m') (hn : ∀ it ∈ m.ready, it.id ≠ id)
    (he : m.updatePriority group id v = some m₁) (he' : m'.updatePriority group id v = some m₁') : Alike m₁ m₁' := by
  have hr := (h.inv.updatePriority_none hn group v).result he
  have hr' := (h.inv'.updatePriority_none (h.ready ▸ hn) group v).result he'
  rw [h.ready] at hr'
  exact h.updatePriority_next hr hr' he he'

theorem Alike.updateWeights (h : Alike m m') (hp : m.kind = .delayed ∨ 0 < m.unacked group) (he : m.updateWeights group = some m₁)
    (he' : m'.updateWeights group = some m₁') : Alike m₁ m₁' := by
  have hr := (h.inv.updateWeights hp).result he
  have hr' := (h.inv'.updateWeights (by rw [h.kind, h.unacked]; exact hp)).result he'
  rw [h.ready] at hr'
  refine h.next hr hr' (fun g => by rw [h.kind, h.unacked]) ?_ (synced_closed.updateWeights h.inv h.synced he)
    (synced_closed.updateWeights h.inv' h.synced' he') ?_
  · rw [(maxUnacked_closed m.maxUnacked).updateWeights h.inv rfl he,
      (maxUnacked_closed m.maxUnacked).updateWeights h.inv' h.max he']
  · rintro q q' q₁ q₁' rfl rfl rfl rfl
    cases he; cases he'
    exact h.still (h.twins.inv.updateWeights_paced group) (h.twins.inv'.updateWeights_paced group)

/-- A new limit, where no weights depend on it. -/
theorem Alike.updateMaxUnacked {maxUnacked : Int} (h : Alike m m') (hm : Limit maxUnacked) (hk : m.kind ≠ .fairWeighted) :
    Alike (m.updateMaxUnacked maxUnacked) (m'.updateMaxUnacked maxUnacked) := by
  have hr := h.inv.updateMaxUnacked hm
  have hr' := h.inv'.updateMaxUnacked hm
  rw [h.ready] at hr'
  have hsynced : ∀ {x : MemoryQueue}, x.kind ≠ .fairWeighted → x.Synced := fun {x} hx => by
    cases x with
    | fairWeighted q => exact absurd rfl hx
    | delayed q => trivial
    | fairRoundRobin q => trivial
  refine h.next hr hr' h.unacked ?_ (hsynced (hr.kind ▸ hk)) (hsynced (hr'.kind ▸ h.kind ▸ hk)) ?_
  · match m, m', h with
    | delayed q, delayed q', _ => rfl
    | fairRoundRobin q, fairRoundRobin q', h =>
      exact (h.twins.inv'.updateMaxUnacked maxUnacked).2.2.1.trans (h.twins.inv.updateMaxUnacked maxUnacked).2.2.1.symm
    | fairWeighted q, _, _ => exact absurd rfl hk
    | delayed _, fairRoundRobin _, h => cases h.kind
    | delayed _, fairWeighted _, h => cases h.kind
    | fairRoundRobin _, delayed _, h => cases h.kind
    | fairRoundRobin _, fairWeighted _, h => cases h.kind
  · rintro q q' q₁ q₁' rfl rfl e e'
    cases e; cases e'
    exact h.still (h.twins.inv.updateMaxUnacked_paced maxUnacked) (h.twins.inv'.updateMaxUnacked_paced maxUnacked)

/-! ## Dequeue -/

theorem Inv.eq_of_id {x y : Item} (h : Inv m) (hx : x ∈ m.ready) (hy : y ∈ m.ready) (hid : x.id = y.id)
    (hg : m.kind = .delayed ∨ x.group = y.group) : x = y := by
  have hgx := h.get_ready hx
  have hgy := h.get_ready hy
  rw [← hid] at hgy
  cases m with
  | delayed q => exact Option.some.inj (Option.some.inj (hgx.symm.trans hgy))
  | fairRoundRobin q => rw [← hg.resolve_left nofun] at hgy; exact Option.some.inj (Option.some.inj (hgx.symm.trans hgy))
  | fairWeighted q => rw [← hg.resolve_left nofun] at hgy; exact Option.some.inj (Option.some.inj (hgx.symm.trans hgy))

/-- The first message of the queue, or of one group, is the same on both sides. -/
theorem Alike.first {ack : Bool} {seed : UInt64} {now : Int} {x y : Item} (h : Alike m m')
    (hd : m.dequeue ack seed now = some (some x, m₁))
    (hd' : m'.dequeue ack seed now = some (some y, m₁')) (hg : m.kind = .delayed ∨ x.group = y.group) : y = x := by
  obtain ⟨rest, hrest, _⟩ := (h.inv.dequeue ack seed now).result hd
  obtain ⟨rest', hrest', _⟩ := (h.inv'.dequeue ack seed now).result hd'
  have hx : x ∈ m.ready := hrest ▸ Multiset.mem_cons_self x rest
  have hy : y ∈ m.ready := h.ready ▸ hrest' ▸ Multiset.mem_cons_self y rest'
  have hxy := h.inv.dequeue_least hd hy (hg.imp_right Eq.symm)
  have hyx := h.inv'.dequeue_least hd' (h.ready ▸ hx) (by rw [h.kind]; exact hg)
  have hid : x.id = y.id := by
    rcases hxy with hlt | ⟨heq, hle⟩
    · rcases hyx with hlt' | ⟨heq', _⟩ <;> omega
    · rcases hyx with hlt' | ⟨_, hle'⟩
      · omega
      · exact UInt64.le_antisymm hle hle'
  exact (h.inv.eq_of_id hx hy hid hg).symm

theorem Alike.dequeue_item {ack : Bool} {seed : UInt64} {now : Int} {it it' : Option Item} (h : Alike m m')
    (hd : m.dequeue ack seed now = some (it, m₁)) (hd' : m'.dequeue ack seed now = some (it', m₁')) : it' = it := by
  by_cases hk : m.kind = .delayed
  · have hdue := (h.inv.dequeue_due hk ack seed now).result hd
    have hdue' := (h.inv'.dequeue_due (h.kind.trans hk) ack seed now).result hd'
    have hmem := (h.inv.dequeue ack seed now).result hd
    have hmem' := (h.inv'.dequeue ack seed now).result hd'
    cases it with
    | none =>
      cases it' with
      | none => rfl
      | some y =>
        obtain ⟨rest, hrest, _⟩ := hmem'
        have hlt := hdue.2 y (h.ready ▸ hrest ▸ Multiset.mem_cons_self y rest)
        have hle : y.priority ≤ now := hdue'
        omega
    | some x =>
      cases it' with
      | none =>
        obtain ⟨rest, hrest, _⟩ := hmem
        have hlt := hdue'.2 x (by rw [h.ready, hrest]; exact Multiset.mem_cons_self x rest)
        have hle : x.priority ≤ now := hdue
        omega
      | some y => rw [h.first hd hd' (Or.inl hk)]
  · by_cases hrr : m.kind = .fairRoundRobin
    · obtain ⟨q, rfl⟩ := eq_of_kind hrr
      obtain ⟨q', rfl⟩ := eq_of_kind (h.kind.trans hrr)
      obtain ⟨⟨_, _⟩, hq, hx⟩ := Option.map_eq_some_iff.mp hd
      obtain ⟨⟨_, _⟩, hq', hx'⟩ := Option.map_eq_some_iff.mp hd'
      cases hx; cases hx'
      exact (h.twins.dequeue hq hq').1
    · have hgroup : it'.map (·.group) = it.map (·.group) := by
        match m, m', h with
        | fairWeighted q, fairWeighted q', h =>
          obtain ⟨⟨_, _⟩, hq, hx⟩ := Option.map_eq_some_iff.mp hd
          obtain ⟨⟨_, _⟩, hq', hx'⟩ := Option.map_eq_some_iff.mp hd'
          cases hx; cases hx'
          exact h.same_weights.group h.inv.1 h.inv'.1 hq hq'
        | delayed _, _, _ => exact absurd rfl hk
        | fairRoundRobin _, _, _ => exact absurd rfl hrr
        | fairWeighted _, delayed _, h => cases h.kind
        | fairWeighted _, fairRoundRobin _, h => cases h.kind
      cases it with
      | none => exact Option.map_eq_none_iff.mp hgroup
      | some x =>
        obtain ⟨y, rfl, hy⟩ := Option.map_eq_some_iff.mp hgroup
        rw [h.first hd hd' (Or.inr hy.symm)]

theorem Alike.dequeue {ack : Bool} {seed : UInt64} {now : Int} {it it' : Option Item} (h : Alike m m')
    (hd : m.dequeue ack seed now = some (it, m₁)) (hd' : m'.dequeue ack seed now = some (it', m₁')) :
    it' = it ∧ Alike m₁ m₁' := by
  obtain rfl := h.dequeue_item hd hd'
  refine ⟨rfl, ?_⟩
  have hmax : m₁'.maxUnacked = m₁.maxUnacked := by
    rw [(maxUnacked_closed m.maxUnacked).dequeue h.inv rfl hd, (maxUnacked_closed m.maxUnacked).dequeue h.inv' h.max hd']
  have hs := synced_closed.dequeue h.inv h.synced hd
  have hs' := synced_closed.dequeue h.inv' h.synced' hd'
  have hp : ∀ q q' q₁ q₁', m = fairRoundRobin q → m' = fairRoundRobin q' → m₁ = fairRoundRobin q₁ → m₁' = fairRoundRobin q₁' →
      q₁.Paced q₁' := by
    rintro q q' q₁ q₁' rfl rfl rfl rfl
    obtain ⟨⟨_, _⟩, hq, hx⟩ := Option.map_eq_some_iff.mp hd
    obtain ⟨⟨_, _⟩, hq', hx'⟩ := Option.map_eq_some_iff.mp hd'
    cases hx; cases hx'
    exact (h.twins.dequeue hq hq').2
  have hr := (h.inv.dequeue ack seed now).result hd
  have hr' := (h.inv'.dequeue ack seed now).result hd'
  cases it' with
  | none =>
    have hr' : Result m' m₁' m'.ready m'.unacked := hr'
    rw [h.ready] at hr'
    exact h.next hr hr' h.unacked hmax hs hs' hp
  | some x =>
    obtain ⟨rest, hrest, hr⟩ := hr
    obtain ⟨rest', hrest', hr'⟩ := hr'
    obtain rfl : rest' = rest := (Multiset.cons_inj_right x).mp (by rw [← hrest, ← hrest', h.ready])
    refine h.next hr hr' (fun g => ?_) hmax hs hs' hp
    unfold charged
    rw [h.kind, h.unacked]

/-! ## PeekReady -/

theorem Alike.peekReady (h : Alike m m') (clock : Int) : m'.peekReady clock = m.peekReady clock := by
  match m, m', h with
  | delayed q, delayed q', h =>
    have hheld : q'.held = q.held := h.ready
    show q'.peekReady clock = q.peekReady clock
    rcases (DelayedQueue.Ordered.mk h.inv.2.2 h.inv.1.toSound h.inv.2.1).head with ⟨h0, hp⟩ | ⟨x, hx, hleast, hp⟩
    · rcases (DelayedQueue.Ordered.mk h.inv'.2.2 h.inv'.1.toSound h.inv'.2.1).head with ⟨_, hp'⟩ | ⟨y, hy, _⟩
      · unfold DelayedQueue.peekReady
        rw [hp, hp']
      · rw [hheld, h0] at hy
        exact absurd hy (Multiset.notMem_zero y)
    · rcases (DelayedQueue.Ordered.mk h.inv'.2.2 h.inv'.1.toSound h.inv'.2.1).head with ⟨h0, _⟩ | ⟨y, hy, hleast', hp'⟩
      · rw [← hheld, h0] at hx
        exact absurd hx (Multiset.notMem_zero x)
      · have hxy : y.priority = x.priority := Int.le_antisymm (hleast' x (hheld ▸ hx)) (hleast y (hheld ▸ hy))
        rw [DelayedQueue.peekReady_of_head hp, DelayedQueue.peekReady_of_head hp', hxy]
  | fairRoundRobin q, fairRoundRobin q', h =>
    have key : q'.peekReady = true ↔ q.peekReady = true := by
      have h1 := h.twins.inv.peekReady_iff
      have h2 := h.twins.inv'.peekReady_iff
      rw [h1, h2, h.twins.ready, h.twins.max]
      simp only [h.twins.unacked, FairRoundRobinQueue.Last, h.twins.ready]
    show (q'.peekReady, (0 : Int)) = (q.peekReady, 0)
    rw [Bool.eq_iff_iff.mpr key]
  | fairWeighted q, fairWeighted q', h =>
    show (q'.peekReady, (0 : Int)) = (q.peekReady, 0)
    rw [h.same_weights.peekReady h.inv.1 h.inv'.1]
  | delayed _, fairRoundRobin _, h => cases h.kind
  | delayed _, fairWeighted _, h => cases h.kind
  | fairRoundRobin _, delayed _, h => cases h.kind
  | fairRoundRobin _, fairWeighted _, h => cases h.kind
  | fairWeighted _, delayed _, h => cases h.kind
  | fairWeighted _, fairRoundRobin _, h => cases h.kind

end MemoryQueue

end Doq.Memory
