/-
  Doq.Memory.WeightedProofs — the weighted queue's heaps, counters and weight tree
  (see `Doq.Memory.Weighted`).

  Every operation changes one group's heap or counter and then brings that group's weight
  up to date or drops the group. `Safe fq off` is the invariant with the group `off`,
  if any, out of date: every group of the tree has a queue and the other way round. `Full fq
  off` is what holds beside it when ids are fresh and releases are matched: a group lives
  while it has a ready or an unacked message.

  Proved: no operation panics on a `Safe` queue, whatever the groups and ids; the ready
  messages change as the operation's name says; `Full` is kept; and without a change of the
  limit every weight is the one `CalculateWeight` gives now (`Synced`).
-/

import Doq.Memory.Weighted
import Doq.Memory.PriorityQueueProofs
import Doq.WeightedAvlProofs

namespace Doq.Memory.FairWeightedQueue

open Lib WeightedAvl

variable {ar : Arithmetic} {fq fq' : FairWeightedQueue ar} {group : String} {queue : PriorityMemoryQueue} {off : Option String}
    {id : UInt64} {own : Prop}

def ready (fq : FairWeightedQueue ar) : Multiset Item := fq.queues.total fun _ queue => queue.held

structure QueueOk (own : Prop) (group : String) (queue : PriorityMemoryQueue) : Prop where
  minFirst : queue.minFirst = true
  items : own → ∀ it ∈ queue.held, it.group = group
  sound : queue.Sound
  heaped : queue.Heaped

/-- `own` is whether every item is known to have been enqueued under its own group. -/
structure SafeIf (own : Prop) (fq : FairWeightedQueue ar) (off : Option String) : Prop where
  limit : 0 ≤ fq.maxUnacked ∧ fq.maxUnacked ≤ maxInt64
  valid : fq.weights.root.Valid
  weight : ∀ e ∈ fq.weights.root.toList, 0 ≤ e.2
  backed : ∀ e ∈ fq.weights.root.toList, off ≠ some e.1 → e.2 ≠ 0 → ∃ queue, fq.queues.lookup e.1 = some queue ∧ 0 < queue.len
  kept : ∀ g count, fq.unackedByGroup.lookup g = some count → ∃ queue, fq.queues.lookup g = some queue
  queue : ∀ g queue, fq.queues.lookup g = some queue → QueueOk own g queue
  keys : ∀ g, off ≠ some g → ((∃ w, (g, w) ∈ fq.weights.root.toList) ↔ ∃ queue, fq.queues.lookup g = some queue)

abbrev Safe (fq : FairWeightedQueue ar) (off : Option String) : Prop := SafeIf True fq off

structure Full (fq : FairWeightedQueue ar) (off : Option String) : Prop where
  exact : ∀ g queue, fq.queues.lookup g = some queue → queue.Exact
  alive : ∀ g queue, off ≠ some g → fq.queues.lookup g = some queue → 0 < queue.len ∨ 0 < fq.unacked g
  counts : ∀ g, 0 ≤ fq.unacked g
  /-- A group with messages and nothing unacked has a weight, whatever the limit was when it got it. -/
  awake : ∀ e ∈ fq.weights.root.toList, off ≠ some e.1 → fq.unacked e.1 = 0 → 0 < (fq.queueOf e.1).len → 0 < e.2

/-- Every weight is the one the group's counter and length give under the limit. -/
def Synced (fq : FairWeightedQueue ar) (off : Option String) : Prop :=
  ∀ e ∈ fq.weights.root.toList, off ≠ some e.1 →
    e.2 = calculateWeight ar fq.maxUnacked (fq.unacked e.1) ((fq.queueOf e.1).len)

/-! ## Weights -/

theorem SafeIf.mono (h : SafeIf own fq none) : SafeIf own fq off :=
  ⟨h.limit, h.valid, h.weight, fun e he _ => h.backed e he (by simp), h.kept, h.queue, fun g _ => h.keys g (by simp)⟩

theorem Synced.mono (h : Synced fq none) : Synced fq off := fun e he _ => h e he (by simp)

/-- The fields beside the weights are the same. -/
structure SameQueues (fq fq' : FairWeightedQueue ar) : Prop where
  queues : fq'.queues = fq.queues
  unacked : fq'.unackedByGroup = fq.unackedByGroup
  max : fq'.maxUnacked = fq.maxUnacked

theorem SameQueues.unacked_eq (h : SameQueues fq fq') (g : String) : fq'.unacked g = fq.unacked g := by
  unfold FairWeightedQueue.unacked; rw [h.unacked]

theorem SameQueues.ready (h : SameQueues fq fq') : fq'.ready = fq.ready := by
  unfold FairWeightedQueue.ready; rw [h.queues]

/-- The one group out of date gets its weight. -/
structure Reweighed (own : Prop) (fq : FairWeightedQueue ar) (group : String) (queue : PriorityMemoryQueue)
    (fq' : FairWeightedQueue ar) : Prop where
  same : SameQueues fq fq'
  safe : SafeIf own fq' none
  full : Full fq (some group) → Full fq' (some group)
  alive : Full fq (some group) → 0 < queue.len ∨ 0 < fq.unacked group → Full fq' none
  synced : Synced fq (some group) → Synced fq' none

theorem updateWeight_spec (h : SafeIf own fq (some group)) (hq : fq.queues.lookup group = some queue) :
    Returns (fq.updateWeight group) (Reweighed own fq group queue) := by
  unfold updateWeight
  refine .bind_eq hq ((WeightedAVL.update_spec h.valid group _).bind fun weights hi => .intro ?_)
  have keys : ∀ g, (some group : Option String) ≠ some g →
    ((∃ w, (g, w) ∈ weights.root.toList) ↔ ∃ w, (g, w) ∈ fq.weights.root.toList) := by
    intro g hg
    refine exists_congr fun w => ?_
    rw [hi.mem]
    constructor
    · intro he
      rcases he with he | he
      · cases he; exact absurd rfl hg
      · exact he.1
    · intro he; exact Or.inr ⟨he, fun e => hg (congrArg some e.symm)⟩
  refine ⟨⟨rfl, rfl, rfl⟩, ⟨h.limit, hi.valid, fun e he => ?_, fun e he _ hne => ?_, h.kept, h.queue, fun g _ => ?_⟩,
    fun hf => ⟨hf.exact, hf.alive, hf.counts, fun e he hg => ?_⟩, fun hf ha => ?_, fun hs e he _ => ?_⟩
  · rcases (hi.mem e).mp he with rfl | ⟨he, _⟩
    · exact calculateWeight_nonneg h.limit _ _
    · exact h.weight e he
  · rcases (hi.mem e).mp he with rfl | ⟨he, hg⟩
    · refine ⟨queue, hq, Nat.pos_of_ne_zero fun h0 => hne ?_⟩
      simp only [h0, calculateWeight_empty]
    · exact h.backed e he (fun e' => hg (Option.some.inj e').symm) hne
  · by_cases hg : group = g
    · subst hg
      exact ⟨fun _ => ⟨queue, hq⟩, fun _ => ⟨_, (hi.mem _).mpr (Or.inl rfl)⟩⟩
    · have hoff : (some group : Option String) ≠ some g := fun e => hg (Option.some.inj e)
      exact (keys g hoff).trans (h.keys g hoff)
  · exact hf.awake e (((hi.mem e).mp he).resolve_left fun e' => hg (by rw [e'])).1 hg
  · refine ⟨hf.exact, fun g q _ hgq => ?_, hf.counts, fun e he _ hu hlen => ?_⟩
    · by_cases hg : group = g
      · subst hg
        have e : queue = q := Option.some.inj (hq.symm.trans hgq)
        rw [← e]; exact ha
      · exact hf.alive g q (fun e => hg (Option.some.inj e)) hgq
    · rcases (hi.mem e).mp he with rfl | ⟨he, hg⟩
      · have hlen : 0 < queue.len := by simpa only [queueOf, hq, Option.getD_some] using hlen
        have hu : fq.unacked group = 0 := hu
        simp only [hu, calculateWeight_idle h.limit hlen]
        decide
      · exact hf.awake e he (fun e' => hg (Option.some.inj e').symm) hu hlen
  · rcases (hi.mem e).mp he with rfl | ⟨he, hg⟩
    · simp only [queueOf, hq, Option.getD_some]; rfl
    · exact hs e he fun e' => hg (Option.some.inj e').symm

structure Dropped (own : Prop) (fq : FairWeightedQueue ar) (group : String) (fq' : FairWeightedQueue ar) : Prop where
  queues : fq'.queues = fq.queues.erase group
  unacked : fq'.unackedByGroup = fq.unackedByGroup.erase group
  max : fq'.maxUnacked = fq.maxUnacked
  safe : SafeIf own fq' none
  full : Full fq (some group) → Full fq' none
  synced : Synced fq (some group) → Synced fq' none

theorem removeGroup_spec (h : SafeIf own fq (some group)) : Returns (fq.removeGroup group) (Dropped own fq group) := by
  unfold removeGroup
  refine (WeightedAVL.remove_spec h.valid group).bind fun weights hd => .intro ?_
  have other : ∀ {g}, g ≠ group → (fq.queues.erase group).lookup g = fq.queues.lookup g ∧
      (fq.unackedByGroup.erase group).lookup g = fq.unackedByGroup.lookup g := fun hg => by
    rw [FinMap.lookup_erase_eq, FinMap.lookup_erase_eq, if_neg hg, if_neg hg]; exact ⟨rfl, rfl⟩
  have gone : (fq.queues.erase group).lookup group = none ∧ (fq.unackedByGroup.erase group).lookup group = none := by
    rw [FinMap.lookup_erase_eq, FinMap.lookup_erase_eq, if_pos rfl, if_pos rfl]; exact ⟨rfl, rfl⟩
  have hne : ∀ {g : String}, g ≠ group → (some group : Option String) ≠ some g := fun hg e => hg (Option.some.inj e).symm
  refine ⟨rfl, rfl, rfl, ⟨h.limit, hd.valid, fun e he => ?_, fun e he _ hne' => ?_, fun g count hg => ?_, fun g q hg => ?_,
    fun g _ => ?_⟩, fun hf => ⟨fun g q hg => ?_, fun g q _ hg => ?_, fun g => ?_, fun e he _ => ?_⟩, fun hs e he _ => ?_⟩
  · exact h.weight e ((hd.mem e).mp he).1
  · obtain ⟨he, hg⟩ := (hd.mem e).mp he
    rw [(other hg).1]
    exact h.backed e he (hne hg) hne'
  · by_cases e : g = group
    · subst e; rw [gone.2] at hg; cases hg
    · rw [(other e).1]; rw [(other e).2] at hg; exact h.kept g count hg
  · by_cases e : g = group
    · subst e; rw [gone.1] at hg; cases hg
    · rw [(other e).1] at hg; exact h.queue g q hg
  · by_cases e : g = group
    · subst e
      simp only [gone.1]
      refine ⟨fun hw => ?_, fun hq => by obtain ⟨q, hq⟩ := hq; cases hq⟩
      obtain ⟨w, hw⟩ := hw
      exact absurd rfl ((hd.mem _).mp hw).2
    · simp only [(other e).1]
      rw [← h.keys g (hne e)]
      exact exists_congr fun w => (hd.mem (g, w)).trans (and_iff_left e)
  · by_cases e : g = group
    · subst e; rw [gone.1] at hg; cases hg
    · rw [(other e).1] at hg; exact hf.exact g q hg
  · by_cases e : g = group
    · subst e; rw [gone.1] at hg; cases hg
    · rw [(other e).1] at hg
      have := hf.alive g q (hne e) hg
      unfold unacked at this ⊢
      simp only [(other e).2]
      exact this
  · have := hf.counts g
    unfold unacked at this ⊢
    by_cases e : g = group
    · subst e; simp only [gone.2]; exact Int.le_refl 0
    · simp only [(other e).2]; exact this
  · obtain ⟨he, hg⟩ := (hd.mem e).mp he
    have := hf.awake e he (hne hg)
    unfold queueOf unacked at this ⊢
    simp only [(other hg).1, (other hg).2]
    exact this
  · obtain ⟨he, hg⟩ := (hd.mem e).mp he
    have := hs e he (hne hg)
    unfold queueOf unacked at this ⊢
    simp only [(other hg).1, (other hg).2]
    exact this

/-! ## One group at a time -/

/-- The ready messages of every other group. -/
def others (fq : FairWeightedQueue ar) (group : String) : Multiset Item :=
  FinMap.total (fun _ queue => queue.held) (fq.queues.erase group)

theorem ready_split (fq : FairWeightedQueue ar) (group : String) : fq.ready = (fq.queueOf group).held + fq.others group := by
  unfold ready others queueOf
  cases h : fq.queues.lookup group with
  | none => rw [FinMap.erase_of_lookup_none h]; simp
  | some queue => exact FinMap.total_of_lookup _ h

theorem queueOf_of_lookup (h : fq.queues.lookup group = some queue) : fq.queueOf group = queue := by
  unfold queueOf; rw [h]; rfl

theorem queueOk_new (group : String) : QueueOk own group (.new true) :=
  ⟨rfl, fun _ it h => absurd h (Multiset.notMem_zero it), PriorityMemoryQueue.new_exact.toSound, PriorityMemoryQueue.new_heaped⟩

theorem SafeIf.queueOf (h : SafeIf own fq off) (group : String) : QueueOk own group (fq.queueOf group) := by
  unfold FairWeightedQueue.queueOf
  cases hq : fq.queues.lookup group with
  | none => exact queueOk_new group
  | some queue => exact h.queue group queue hq

theorem Full.queueOf (h : Full fq off) (group : String) : (fq.queueOf group).Exact := by
  unfold FairWeightedQueue.queueOf
  cases hq : fq.queues.lookup group with
  | none => exact PriorityMemoryQueue.new_exact
  | some queue => exact h.exact group queue hq

theorem ready_of_queueOf {it : Item} (hit : it ∈ (fq.queueOf group).held) : it ∈ fq.ready := by
  rw [ready_split fq group]
  exact Multiset.mem_add.mpr (Or.inl hit)

theorem mem_queueOf (h : Safe fq off) {it : Item} : it ∈ (fq.queueOf group).held ↔ it ∈ fq.ready ∧ it.group = group := by
  constructor
  · intro hit
    exact ⟨ready_of_queueOf hit, (h.queueOf group).items trivial it hit⟩
  · intro hit
    obtain ⟨hit, rfl⟩ := hit
    obtain ⟨g, queue, hq, hitq⟩ := FinMap.mem_total.mp hit
    rw [(h.queue g queue hq).items trivial it hitq, queueOf_of_lookup hq]
    exact hitq

/-- One group's queue and counter rewritten: what every operation does before it brings the
    group's weight up to date. -/
def touch (fq : FairWeightedQueue ar) (group : String) (queue : PriorityMemoryQueue) (unackedByGroup : FinMap String Int) :
    FairWeightedQueue ar :=
  { fq with queues := fq.queues.insert group queue, unackedByGroup := unackedByGroup }

section Touch

variable {unackedByGroup : FinMap String Int} {fq₁ : FairWeightedQueue ar}

theorem touch_lookup : (fq.touch group queue unackedByGroup).queues.lookup group = some queue := by
  unfold touch; rw [FinMap.lookup_insert_eq, if_pos rfl]

theorem touch_other {g : String} (hg : g ≠ group) :
    (fq.touch group queue unackedByGroup).queues.lookup g = fq.queues.lookup g := by
  unfold touch; rw [FinMap.lookup_insert_eq, if_neg hg]

theorem touch_ready : (fq.touch group queue unackedByGroup).ready = queue.held + fq.others group :=
  FinMap.total_insert _ _ _ _

/-- Only one group's queue and counter may differ. -/
structure Touched (fq : FairWeightedQueue ar) (group : String) (queue : PriorityMemoryQueue) (fq₁ : FairWeightedQueue ar) :
    Prop where
  here : fq₁.queues.lookup group = some queue
  other : ∀ g, g ≠ group → fq₁.queues.lookup g = fq.queues.lookup g
  unacked : ∀ g, g ≠ group → fq₁.unackedByGroup.lookup g = fq.unackedByGroup.lookup g
  weights : fq₁.weights = fq.weights
  max : fq₁.maxUnacked = fq.maxUnacked

theorem touched (hu : ∀ g, g ≠ group → unackedByGroup.lookup g = fq.unackedByGroup.lookup g) :
    Touched fq group queue (fq.touch group queue unackedByGroup) :=
  ⟨touch_lookup, fun _ hg => touch_other hg, hu, rfl, rfl⟩

theorem Touched.unacked_eq (ht : Touched fq group queue fq₁) {g : String} (hg : g ≠ group) : fq₁.unacked g = fq.unacked g := by
  unfold FairWeightedQueue.unacked; rw [ht.unacked g hg]

theorem Touched.queueOf_eq (ht : Touched fq group queue fq₁) {g : String} (hg : g ≠ group) : fq₁.queueOf g = fq.queueOf g := by
  unfold queueOf; rw [ht.other g hg]

theorem Touched.safe (ht : Touched fq group queue fq₁) (h : SafeIf own fq none) (hok : QueueOk own group queue) :
    SafeIf own fq₁ (some group) := by
  refine ⟨by rw [ht.max]; exact h.limit, by rw [ht.weights]; exact h.valid, by rw [ht.weights]; exact h.weight,
    fun e he hne hw => ?_, fun g count hg => ?_, fun g q hg => ?_, fun g hg => ?_⟩
  · rw [ht.other e.1 fun e' => hne (by rw [e'])]
    rw [ht.weights] at he
    exact h.backed e he (by simp) hw
  · by_cases e : g = group
    · subst e; exact ⟨queue, ht.here⟩
    · rw [ht.other g e]
      exact h.kept g count (by rw [← ht.unacked g e]; exact hg)
  · by_cases e : g = group
    · subst e; rw [ht.here] at hg; cases hg; exact hok
    · rw [ht.other g e] at hg; exact h.queue g q hg
  · rw [ht.other g fun e => hg (by rw [e]), ht.weights]
    exact h.keys g (by simp)

theorem Touched.full (ht : Touched fq group queue fq₁) (h : Full fq none) (hx : queue.Exact) (hc : 0 ≤ fq₁.unacked group) :
    Full fq₁ (some group) := by
  have hne : ∀ {g : String}, (some group : Option String) ≠ some g → g ≠ group := fun hg e => hg (by rw [e])
  refine ⟨fun g q hg => ?_, fun g q hg hq => ?_, fun g => ?_, fun e he hg => ?_⟩
  · by_cases e : g = group
    · subst e; rw [ht.here] at hg; cases hg; exact hx
    · rw [ht.other g e] at hg; exact h.exact g q hg
  · rw [ht.other g (hne hg)] at hq
    rw [ht.unacked_eq (hne hg)]
    exact h.alive g q (by simp) hq
  · by_cases e : g = group
    · subst e; exact hc
    · rw [ht.unacked_eq e]; exact h.counts g
  · rw [ht.weights] at he
    rw [ht.unacked_eq (hne hg), ht.queueOf_eq (hne hg)]
    exact h.awake e he (by simp)

theorem Touched.synced (ht : Touched fq group queue fq₁) (h : Synced fq none) : Synced fq₁ (some group) := by
  intro e he hne
  have hg : e.1 ≠ group := fun e' => hne (by rw [e'])
  rw [ht.weights] at he
  rw [h e he (by simp), ht.unacked_eq hg, ht.max, ht.queueOf_eq hg]

end Touch

/-- A group out of date has been brought up to date, or dropped when nothing of it was left. -/
structure Settled (own : Prop) (fq : FairWeightedQueue ar) (group : String) (fq' : FairWeightedQueue ar) : Prop where
  held : ∀ g, (fq'.queueOf g).held = (fq.queueOf g).held
  ready : fq'.ready = fq.ready
  unacked : ∀ g, fq'.unacked g = fq.unacked g
  max : fq'.maxUnacked = fq.maxUnacked
  safe : SafeIf own fq' none
  full : Full fq (some group) → Full fq' none
  synced : Synced fq (some group) → Synced fq' none

theorem Dropped.settled (h : Dropped own fq group fq') (hq : fq.queues.lookup group = some queue) (hlen : queue.len = 0)
    (hu : fq.unacked group = 0) : Settled own fq group fq' := by
  rw [PriorityMemoryQueue.len_eq_card, Multiset.card_eq_zero] at hlen
  refine ⟨fun g => ?_, ?_, fun g => ?_, h.max, h.safe, h.full, h.synced⟩
  · unfold queueOf
    rw [h.queues, FinMap.lookup_erase_eq]
    split
    · rename_i e; subst e; rw [hq]; exact hlen.symm
    · rfl
  · rw [ready_split fq group, queueOf_of_lookup hq, hlen, Multiset.zero_add]
    unfold FairWeightedQueue.ready others
    rw [h.queues]
  · unfold FairWeightedQueue.unacked at hu ⊢
    rw [h.unacked, FinMap.lookup_erase_eq]
    split
    · rename_i e; subst e; rw [hu]; rfl
    · rfl

theorem messageLost_spec (h : SafeIf own fq (some group)) (hq : fq.queues.lookup group = some queue) :
    Returns (fq.messageLost group) (Settled own fq group) := by
  unfold messageLost
  refine .bind_eq hq ?_
  split
  · rename_i hz
    exact (removeGroup_spec h).mono fun fq' hd => hd.settled hq hz.2 hz.1
  · rename_i hz
    refine (updateWeight_spec h hq).mono fun fq' hr =>
      ⟨fun g => by unfold queueOf; rw [hr.same.queues], hr.same.ready, hr.same.unacked_eq, hr.same.max, hr.safe,
        fun hf => hr.alive hf ?_, hr.synced⟩
    have := hf.counts group
    by_cases h0 : queue.len = 0
    · exact Or.inr (by have : fq.unacked group ≠ 0 := fun e => hz ⟨e, h0⟩; omega)
    · exact Or.inl (Nat.pos_of_ne_zero h0)

/-! ## The operations -/

/-- What an operation does: the ready messages and counters after it, and, `if` its call was
    a proper one, the facts that need that. -/
structure Effect (own : Prop) (fq fq' : FairWeightedQueue ar) (ready' : Multiset Item) (unacked' : String → Int)
    (proper : Prop) : Prop where
  ready : fq'.ready = ready'
  unacked : Full fq none → proper → ∀ g, fq'.unacked g = unacked' g
  max : fq'.maxUnacked = fq.maxUnacked
  safe : SafeIf own fq' none
  full : Full fq none → proper → Full fq' none
  synced : Synced fq none → Synced fq' none

theorem new_safe {maxUnacked : Int} (h : 0 ≤ maxUnacked ∧ maxUnacked ≤ maxInt64) :
    SafeIf own (new maxUnacked : FairWeightedQueue ar) none :=
  ⟨h, .nil, fun _ he => (List.not_mem_nil he).elim, fun _ he => (List.not_mem_nil he).elim, fun _ _ hg => (nomatch hg),
    fun _ _ hg => (nomatch hg), fun _ _ => ⟨fun ⟨_, hw⟩ => (nomatch hw), fun ⟨_, hq⟩ => (nomatch hq)⟩⟩

theorem new_full (maxUnacked : Int) : Full (new maxUnacked : FairWeightedQueue ar) none :=
  ⟨fun _ _ hg => (nomatch hg), fun _ _ _ hg => (nomatch hg), fun _ => Int.le_refl 0, fun _ he => (List.not_mem_nil he).elim⟩

theorem new_synced (maxUnacked : Int) : Synced (new maxUnacked : FairWeightedQueue ar) none :=
  fun _ he => (List.not_mem_nil he).elim

theorem enqueue_spec (h : SafeIf own fq none) {item : Item} (hi : own → item.group = group) :
    Returns (fq.enqueue group item) fun fq' =>
      Effect own fq fq' (item ::ₘ fq.ready) fq.unacked (∀ it ∈ fq.ready, it.id ≠ item.id) := by
  have hok := h.queueOf group
  have hg := PriorityMemoryQueue.heapPush_grown (fq.queueOf group) item
  have hok' : QueueOk own group ((fq.queueOf group).heapPush item) := by
    refine ⟨hg.minFirst.trans hok.minFirst, fun ho it hit => ?_, hg.sound hok.sound, hg.heaped hok.heaped⟩
    rw [hg.held] at hit
    rcases Multiset.mem_cons.mp hit with rfl | hit
    · exact hi ho
    · exact hok.items ho it hit
  have hlen : 0 < ((fq.queueOf group).heapPush item).len := by
    rw [PriorityMemoryQueue.len_eq_card, hg.held, Multiset.card_cons]; omega
  have ht : Touched fq group _ (fq.touch group ((fq.queueOf group).heapPush item) fq.unackedByGroup) := touched fun _ _ => rfl
  refine (updateWeight_spec (ht.safe h hok') ht.here).mono fun fq' hr => ?_
  refine ⟨?_, fun _ _ g => hr.same.unacked_eq g, hr.same.max, hr.safe, fun hf hfresh => ?_, fun hs =>
    hr.synced (ht.synced hs)⟩
  · rw [hr.same.ready, touch_ready, hg.held, ready_split fq group, Multiset.cons_add]
  · refine hr.alive (ht.full hf (hg.exact (hf.queueOf group) fun hmem => ?_) (hf.counts group)) (Or.inl hlen)
    obtain ⟨it, hit, hid⟩ := Multiset.mem_map.mp hmem
    exact hfresh it (ready_of_queueOf hit) hid

/-- The counters after a delivery. -/
def charged (fq : FairWeightedQueue ar) (ack : Bool) (group g : String) : Int :=
  fq.unacked g + if ack = false ∧ g = group then 1 else 0

theorem charge_touch (fq : FairWeightedQueue ar) (ack : Bool) (group : String) (queue : PriorityMemoryQueue) :
    { fq with queues := fq.queues.insert group queue }.charge ack group =
      fq.touch group queue (fq.charge ack group).unackedByGroup := by
  cases ack <;> rfl

theorem charge_other {ack : Bool} {g : String} (hg : g ≠ group) :
    (fq.charge ack group).unackedByGroup.lookup g = fq.unackedByGroup.lookup g := by
  cases ack
  · show (fq.unackedByGroup.insert group _).lookup g = _
    rw [FinMap.lookup_insert_eq, if_neg hg]
  · rfl

theorem charge_unacked (fq : FairWeightedQueue ar) (ack : Bool) (group g : String) :
    ((fq.charge ack group).unackedByGroup.lookup g).getD 0 = fq.charged ack group g := by
  unfold charged
  cases ack
  · show ((fq.unackedByGroup.insert group _).lookup g).getD 0 = _
    rw [FinMap.lookup_insert_eq]
    split
    · rename_i e; simp [e]
    · rename_i e; simp [e, unacked]
  · simp [charge, unacked]

theorem QueueOk.shrink {it : Item} {queue' : PriorityMemoryQueue} (h : QueueOk own group queue) (hs : queue.Shrunk it queue') :
    QueueOk own group queue' :=
  ⟨hs.minFirst.trans h.minFirst, fun ho x hx => h.items ho x (by rw [hs.held]; exact Multiset.mem_cons_of_mem hx),
    hs.sound h.sound,
    hs.heaped h.heaped⟩

/-- A message taken out of a group's heap. -/
theorem take_spec {it : Item} {queue' : PriorityMemoryQueue} (h : SafeIf own fq none) (hq : fq.queues.lookup group = some queue)
    (hs : queue.Shrunk it queue') (ack : Bool) :
    Returns ((fq.touch group queue' (fq.charge ack group).unackedByGroup).messageLost group) fun fq' =>
      (∀ g, (fq'.queueOf g).held = if g = group then queue'.held else (fq.queueOf g).held) ∧
        ∃ rest, fq.ready = it ::ₘ rest ∧ Effect own fq fq' rest (fq.charged ack group) True := by
  have ht : Touched fq group queue' (fq.touch group queue' (fq.charge ack group).unackedByGroup) :=
    touched fun _ hg => charge_other hg
  refine (messageLost_spec (ht.safe h ((h.queue group queue hq).shrink hs)) ht.here).mono fun fq' hd =>
    ⟨fun g => ?_, queue'.held + fq.others group, ?_, ?_, fun _ _ g => ?_, hd.max, hd.safe, fun hf _ => ?_,
      fun hsy => hd.synced (ht.synced hsy)⟩
  · rw [hd.held]
    split
    · rename_i e; subst e; rw [queueOf_of_lookup ht.here]
    · rename_i e; unfold queueOf; rw [ht.other g e]
  · rw [ready_split fq group, queueOf_of_lookup hq, hs.held, Multiset.cons_add]
  · rw [hd.ready, touch_ready]
  · rw [hd.unacked, ← charge_unacked]; rfl
  · refine hd.full (ht.full hf (hs.exact (hf.exact group queue hq)) ?_)
    have := hf.counts group
    show 0 ≤ ((fq.charge ack group).unackedByGroup.lookup group).getD 0
    rw [charge_unacked]
    unfold charged
    split <;> omega

/-- The sampled group has a message: its weight is not zero. -/
theorem SafeIf.sampled (h : SafeIf own fq none) {seed : UInt64} (hne : fq.weights.sample seed ≠ "") :
    ∃ queue, fq.queues.lookup (fq.weights.sample seed) = some queue ∧ 0 < queue.len := by
  have hsum : fq.weights.root.sum ≠ 0 := fun h0 => hne (by unfold WeightedAVL.sample; rw [if_pos h0]; rfl)
  obtain ⟨w, hpos, hget⟩ := WeightedAVL.sample_mem h.valid h.weight hsum seed
  exact h.backed _ ((Node.get_eq_some h.valid).mp hget) (by simp) (by simp only; omega)

/-- A dequeue takes the first item of the sampled group's heap. -/
theorem dequeue_pops (h : SafeIf own fq none) (ack : Bool) (seed : UInt64) :
    Returns (fq.dequeue ack seed) fun r =>
      match r.1 with
      | none => r.2 = fq ∧ (fq.queues.entries = [] ∨ fq.weights.sample seed = "")
      | some it => fq.queues.entries ≠ [] ∧ fq.weights.sample seed ≠ "" ∧
        (∀ y ∈ (fq.queueOf (fq.weights.sample seed)).held, PriorityMemoryQueue.before true y it = false) ∧
        (fq.queueOf (fq.weights.sample seed)).held = it ::ₘ (r.2.queueOf (fq.weights.sample seed)).held ∧
        (∀ g, g ≠ fq.weights.sample seed → (r.2.queueOf g).held = (fq.queueOf g).held) ∧
        ∃ rest, fq.ready = it ::ₘ rest ∧ Effect own fq r.2 rest (fq.charged ack (fq.weights.sample seed)) True := by
  unfold FairWeightedQueue.dequeue
  split
  · rename_i he; exact .intro ⟨rfl, Or.inl he⟩
  · rename_i hent
    simp only
    split
    · rename_i he; exact .intro ⟨rfl, Or.inr he⟩
    · rename_i hne
      obtain ⟨queue, hq, hlen⟩ := h.sampled hne
      obtain ⟨it, queue', _, hpop, hs, hfirst⟩ := PriorityMemoryQueue.heapPop_spec hlen
      have hok := h.queue _ queue hq
      refine .bind_eq hq ?_
      rw [hpop]
      simp only
      rw [charge_touch]
      refine (take_spec h hq hs ack).bind fun fq' he => .intro ⟨hent, hne, fun y hy => ?_, ?_, fun g hg => ?_, he.2⟩
      · rw [queueOf_of_lookup hq] at hy
        have := hfirst hok.heaped y hy
        rwa [hok.minFirst] at this
      · rw [he.1, if_pos rfl, queueOf_of_lookup hq, hs.held]
      · rw [he.1, if_neg hg]

theorem dequeue_spec (h : Safe fq none) (ack : Bool) (seed : UInt64) :
    Returns (fq.dequeue ack seed) fun r =>
      match r.1 with
      | none => r.2 = fq ∧ (fq.queues.entries = [] ∨ fq.weights.sample seed = "")
      | some it => it.group = fq.weights.sample seed ∧ fq.queues.entries ≠ [] ∧ fq.weights.sample seed ≠ "" ∧
        (∀ y ∈ fq.ready, y.group = it.group → PriorityMemoryQueue.before true y it = false) ∧
        ∃ rest, fq.ready = it ::ₘ rest ∧ Effect True fq r.2 rest (fq.charged ack it.group) True := by
  refine (dequeue_pops h ack seed).mono fun r hr => ?_
  cases hi : r.1 with
  | none => rw [hi] at hr; exact hr
  | some it =>
    rw [hi] at hr
    obtain ⟨hent, hne, hleast, hheld, _, heff⟩ := hr
    have hgroup : it.group = fq.weights.sample seed :=
      (h.queueOf _).items trivial it (by rw [hheld]; exact Multiset.mem_cons_self _ _)
    refine ⟨hgroup, hent, hne, fun y hy hyg => hleast y ((mem_queueOf h).mpr ⟨hy, hyg.trans hgroup⟩), ?_⟩
    rw [hgroup]; exact heff

/-- The message a group and an id name, if it is ready. -/
def Holds (fq : FairWeightedQueue ar) (group : String) (id : UInt64) (it : Item) : Prop :=
  it ∈ fq.ready ∧ it.group = group ∧ it.id = id

theorem not_holds (h : Safe fq off) (hx : Full fq none) (hq : (fq.queueOf group).Missing id) (it : Item) :
    ¬ fq.Holds group id it := by
  intro hit
  obtain ⟨hit, hg, rfl⟩ := hit
  have hf := (hx.queueOf group).found ((mem_queueOf h).mpr ⟨hit, hg⟩)
  obtain ⟨k, hk, _⟩ := hf
  unfold PriorityMemoryQueue.Missing at hq
  rw [hq] at hk; cases hk

theorem holds_found (h : Safe fq off) {it : Item} (hf : (fq.queueOf group).Found id it) : fq.Holds group id it := by
  obtain ⟨hit, hg⟩ := (mem_queueOf h).mp hf.mem
  exact ⟨hit, hg, hf.id_eq (h.queueOf group).sound⟩

theorem missing_new (id : UInt64) : (PriorityMemoryQueue.new true).Missing id := rfl

theorem get_spec (h : Safe fq none) (group : String) (id : UInt64) :
    Returns (fq.get group id) fun r => (∀ it, r = some it → fq.Holds group id it) ∧
      (Full fq none → ∀ it, fq.Holds group id it → r = some it) := by
  unfold FairWeightedQueue.get
  cases hq : fq.queues.lookup group with
  | none =>
    have hqo : fq.queueOf group = .new true := by unfold queueOf; rw [hq]; rfl
    refine .intro ⟨fun it e => (by cases e), fun hx it hit => absurd hit (not_holds h hx ?_ it)⟩
    rw [hqo]; exact missing_new id
  | some queue =>
    have hqo := queueOf_of_lookup hq
    rcases (h.queue group queue hq).sound.missing_or_found id with hm | ⟨it, hf⟩
    · refine .of_eq (PriorityMemoryQueue.get_missing hm)
        ⟨fun it e => (by cases e), fun hx it hit => absurd hit (not_holds h hx ?_ it)⟩
      rw [hqo]; exact hm
    · refine .of_eq (PriorityMemoryQueue.get_found hf) ⟨fun it' e => ?_, fun hx it' hit => ?_⟩
      · cases e; rw [← hqo] at hf; exact holds_found h hf
      · have hf' := (hx.queueOf group).found ((mem_queueOf h).mpr ⟨hit.1, hit.2.1⟩)
        rw [hqo, hit.2.2] at hf'
        rw [hf.unique hf']

theorem holds_unique (h : Safe fq none) (hx : Full fq none) {a b : Item} (ha : fq.Holds group id a) (hb : fq.Holds group id b) :
    a = b := by
  obtain ⟨r, _, hr⟩ := get_spec h group id
  exact Option.some.inj ((hr.2 hx a ha).symm.trans (hr.2 hx b hb))

theorem delete_takes (h : SafeIf own fq none) (group : String) (id : UInt64) :
    Returns (fq.delete group id) fun r =>
      match r.1 with
      | none => r.2 = fq ∧ (fq.queueOf group).Missing id
      | some it => (fq.queueOf group).Found id it ∧ ∃ rest, fq.ready = it ::ₘ rest ∧ Effect own fq r.2 rest fq.unacked True := by
  unfold FairWeightedQueue.delete
  cases hq : fq.queues.lookup group with
  | none =>
    have hqo : fq.queueOf group = .new true := by unfold queueOf; rw [hq]; rfl
    rw [hqo]
    exact .intro ⟨rfl, missing_new id⟩
  | some queue =>
    rw [queueOf_of_lookup hq]
    have hok := h.queue group queue hq
    rcases hok.sound.missing_or_found id with hm | ⟨it, hf⟩
    · exact .bind_eq (PriorityMemoryQueue.delete_missing hm) (.intro ⟨rfl, hm⟩)
    · obtain ⟨queue', hd, hs⟩ := PriorityMemoryQueue.delete_found hf hok.sound
      refine .bind_eq hd ((take_spec h hq hs true).bind fun fq' ⟨_, rest, hr, he⟩ =>
        .intro ⟨hf, rest, hr, he.ready, ?_, he.max, he.safe,
        he.full, he.synced⟩)
      refine fun hx hp g => (he.unacked hx hp g).trans ?_
      simp [charged]

theorem delete_spec (h : Safe fq none) (group : String) (id : UInt64) :
    Returns (fq.delete group id) fun r =>
      match r.1 with
      | none => r.2 = fq ∧ (Full fq none → ∀ it, ¬ fq.Holds group id it)
      | some it => fq.Holds group id it ∧ ∃ rest, fq.ready = it ::ₘ rest ∧ Effect True fq r.2 rest fq.unacked True := by
  refine (delete_takes h group id).mono fun r hr => ?_
  cases hi : r.1 with
  | none => rw [hi] at hr; exact ⟨hr.1, fun hx it => not_holds h hx hr.2 it⟩
  | some it => rw [hi] at hr; exact ⟨holds_found h hr.1, hr.2⟩

/-- One group's heap rewritten with as many messages: no weight is out of date. -/
theorem replace_spec {queue' : PriorityMemoryQueue} (h : SafeIf own fq none) (hq : fq.queues.lookup group = some queue)
    (hok : QueueOk own group queue') (hlen : queue'.len = queue.len) (hx : queue.Exact → queue'.Exact) :
    Effect own fq (fq.touch group queue' fq.unackedByGroup) (queue'.held + fq.others group) fq.unacked True := by
  have hlook : ∀ g q', (fq.touch group queue' fq.unackedByGroup).queues.lookup g = some q' →
      ∃ q, fq.queues.lookup g = some q ∧ q'.len = q.len ∧ (q.Exact → q'.Exact) := by
    intro g q' hg
    by_cases e : g = group
    · subst e; rw [touch_lookup] at hg; cases hg; exact ⟨queue, hq, hlen, hx⟩
    · rw [touch_other e] at hg; exact ⟨q', hg, rfl, id⟩
  have hkeys : ∀ g q, fq.queues.lookup g = some q →
      ∃ q', (fq.touch group queue' fq.unackedByGroup).queues.lookup g = some q' ∧ q'.len = q.len := by
    intro g q hg
    by_cases e : g = group
    · subst e; rw [hq] at hg; cases hg; exact ⟨queue', touch_lookup, hlen⟩
    · rw [touch_other e]; exact ⟨q, hg, rfl⟩
  have hlens : ∀ g, ((fq.touch group queue' fq.unackedByGroup).queueOf g).len = (fq.queueOf g).len := by
    intro g
    unfold queueOf
    by_cases hg : g = group
    · rw [hg, touch_lookup, hq]; exact hlen
    · rw [touch_other hg]
  refine ⟨touch_ready, fun _ _ g => rfl, rfl, ⟨h.limit, h.valid, h.weight, fun e he hoff hw => ?_, fun g c hg => ?_,
    fun g q hg => ?_,
    fun g hoff => ?_⟩, fun hf _ => ⟨fun g q' hg => ?_, fun g q' hoff hg => ?_, hf.counts, fun e he hoff => ?_⟩,
      fun hs e he hoff => ?_⟩
  · obtain ⟨q, hg, hpos⟩ := h.backed e he hoff hw
    obtain ⟨q', hg', hl⟩ := hkeys _ q hg
    exact ⟨q', hg', by omega⟩
  · obtain ⟨q, hg⟩ := h.kept g c hg
    obtain ⟨q', hg', _⟩ := hkeys g q hg
    exact ⟨q', hg'⟩
  · exact ((touched fun _ _ => rfl).safe h hok).queue g q hg
  · refine (h.keys g hoff).trans ⟨fun hq => ?_, fun hq => ?_⟩
    · obtain ⟨q, hq⟩ := hq; obtain ⟨q', hq', _⟩ := hkeys g q hq; exact ⟨q', hq'⟩
    · obtain ⟨q', hq'⟩ := hq; obtain ⟨q, hq, _⟩ := hlook g q' hq'; exact ⟨q, hq⟩
  · obtain ⟨q, hg, _, hx⟩ := hlook g q' hg
    exact hx (hf.exact g q hg)
  · obtain ⟨q, hg, hl, _⟩ := hlook g q' hg
    rw [hl]; exact hf.alive g q hoff hg
  · rw [hlens]; exact hf.awake e he hoff
  · rw [hlens]; exact hs e he hoff

theorem updatePriority_writes (h : SafeIf own fq none) (group : String) (id : UInt64) (v : Int) :
    Returns (fq.updatePriority group id v) fun fq' =>
      Effect own fq fq' fq'.ready fq.unacked True ∧
        (((fq.queueOf group).Missing id ∧ fq'.ready = fq.ready) ∨
          ∃ it rest, (fq.queueOf group).Found id it ∧ fq.ready = it ::ₘ rest ∧
        fq'.ready = { it with priority := v } ::ₘ rest) := by
  unfold FairWeightedQueue.updatePriority onQueue
  cases hq : fq.queues.lookup group with
  | none =>
    have hqo : fq.queueOf group = .new true := by unfold queueOf; rw [hq]; rfl
    rw [hqo]
    exact .intro ⟨⟨rfl, fun _ _ _ => rfl, rfl, h, fun hf _ => hf, fun hs => hs⟩, Or.inl ⟨missing_new id, rfl⟩⟩
  | some queue =>
    have hqo := queueOf_of_lookup hq
    have hok := h.queue group queue hq
    rcases hok.sound.missing_or_found id with hm | ⟨it, hf⟩
    · have he := replace_spec h hq hok rfl fun hx => hx
      rw [← hqo, ← ready_split, hqo] at he
      have hready : (fq.touch group queue fq.unackedByGroup).ready = fq.ready := he.ready
      refine .bind_eq (PriorityMemoryQueue.updatePriority_missing hm v)
        (.intro ⟨⟨rfl, he.unacked, he.max, he.safe, he.full, he.synced⟩, Or.inl ⟨?_, hready⟩⟩)
      rw [hqo]; exact hm
    · obtain ⟨queue', hu, hrep, hh⟩ := PriorityMemoryQueue.updatePriority_found hf v
      obtain ⟨rest, h1, h2⟩ := hrep.held
      have hok' : QueueOk own group queue' := by
        refine ⟨hrep.minFirst.trans hok.minFirst, fun ho x hx => ?_, hrep.sound hok.sound, hh hok.heaped⟩
        rw [h2] at hx
        rcases Multiset.mem_cons.mp hx with rfl | hx
        · exact hok.items ho it hf.mem
        · exact hok.items ho x (by rw [h1]; exact Multiset.mem_cons_of_mem hx)
      have hlen : queue'.len = queue.len := by
        rw [PriorityMemoryQueue.len_eq_card, PriorityMemoryQueue.len_eq_card, h1, h2, Multiset.card_cons, Multiset.card_cons]
      have he := replace_spec h hq hok' hlen hrep.exact
      refine .bind_eq hu (.intro ⟨⟨rfl, he.unacked, he.max, he.safe, he.full, he.synced⟩,
        Or.inr ⟨it, rest + fq.others group, ?_, ?_, ?_⟩⟩)
      · rw [hqo]; exact hf
      · rw [ready_split fq group, hqo, h1, Multiset.cons_add]
      · have hready : (fq.touch group queue' fq.unackedByGroup).ready = _ := he.ready
        exact hready.trans (by rw [h2, Multiset.cons_add])

theorem updatePriority_spec (h : Safe fq none) (group : String) (id : UInt64) (v : Int) :
    Returns (fq.updatePriority group id v) fun fq' =>
      Effect True fq fq' fq'.ready fq.unacked True ∧
        (((Full fq none → ∀ it, ¬ fq.Holds group id it) ∧ fq'.ready = fq.ready) ∨
          ∃ it rest, fq.Holds group id it ∧ fq.ready = it ::ₘ rest ∧ fq'.ready = { it with priority := v } ::ₘ rest) := by
  refine (updatePriority_writes h group id v).mono fun fq' hr =>
    ⟨hr.1, hr.2.imp (fun hm => ⟨fun hx it => not_holds h hx hm.1 it, hm.2⟩) ?_⟩
  rintro ⟨it, rest, hf, hrest⟩
  exact ⟨it, rest, holds_found h hf, hrest⟩

/-- The write through the pointer, and `UpdatePriority` after it, are `UpdatePriority` alone. -/
theorem itemUpdatePriority_updatePriority (fq : FairWeightedQueue ar) (group : String) (id : UInt64) (v : Int) :
    (fq.itemUpdatePriority group id v >>= fun fq => fq.updatePriority group id v) = fq.updatePriority group id v := by
  unfold itemUpdatePriority FairWeightedQueue.updatePriority onQueue
  cases hq : fq.queues.lookup group with
  | none => simp [hq]
  | some queue =>
    simp only [Option.bind_eq_bind, Option.bind_some, FinMap.lookup_insert_eq, if_true,
      PriorityMemoryQueue.updatePriority_itemUpdatePriority, AList.insert_insert]

/-- A release takes one off the group's counter; matched by a delivery, it stays exact. -/
theorem updateWeights_spec (h : SafeIf own fq none) (group : String) :
    Returns (fq.updateWeights group) fun fq' =>
      Effect own fq fq' fq.ready (fun g => fq.unacked g - if g = group then 1 else 0) (0 < fq.unacked group) := by
  unfold FairWeightedQueue.updateWeights
  cases hc : fq.unackedByGroup.lookup group with
  | none =>
    have h0 : fq.unacked group = 0 := by unfold FairWeightedQueue.unacked; rw [hc]; rfl
    exact .intro ⟨rfl, fun _ hp => by omega, rfl, h, fun hf _ => hf, fun hs => hs⟩
  | some count =>
    obtain ⟨queue, hq⟩ := h.kept group count hc
    have hcount : fq.unacked group = count := by unfold FairWeightedQueue.unacked; rw [hc]; rfl
    have ht : Touched fq group queue { fq with unackedByGroup := fq.unackedByGroup.insert group (count - 1) } :=
      ⟨hq, fun _ _ => rfl, fun g hg => by rw [FinMap.lookup_insert_eq, if_neg hg], rfl, rfl⟩
    have hu : ∀ g, ({ fq with unackedByGroup := fq.unackedByGroup.insert group (count - 1) } : FairWeightedQueue ar).unacked g =
        fq.unacked g - if g = group then 1 else 0 := by
      intro g
      by_cases e : g = group
      · subst e; simp [FairWeightedQueue.unacked, hc]
      · rw [ht.unacked_eq e, if_neg e, Int.sub_zero]
    have hfull : Full fq none → 0 < fq.unacked group →
        Full { fq with unackedByGroup := fq.unackedByGroup.insert group (count - 1) } (some group) := fun hf hp =>
      ht.full hf (hf.exact group queue hq) (by rw [hu, if_pos rfl]; omega)
    refine (updateWeight_spec (ht.safe h (h.queue group queue hq)) ht.here).bind fun fq1 hr => ?_
    have hq1 : fq1.queues.lookup group = some queue := by rw [hr.same.queues]; exact hq
    refine .bind_eq hq1 ?_
    split
    · rename_i hz
      refine (removeGroup_spec hr.safe.mono).mono fun fq2 hd => ?_
      have hready : fq2.ready = fq.ready := by
        have hempty : queue.held = 0 := by
          rw [← Multiset.card_eq_zero, ← PriorityMemoryQueue.len_eq_card]; exact hz.1
        rw [ready_split fq group, queueOf_of_lookup hq, hempty, Multiset.zero_add]
        unfold FairWeightedQueue.ready others
        rw [hd.queues, hr.same.queues]
      refine ⟨hready, fun hf hp g => ?_, hd.max.trans hr.same.max, hd.safe, fun hf hp => hd.full (hr.full (hfull hf hp)),
        fun hs => hd.synced (hr.synced (ht.synced hs)).mono⟩
      have hz2 : fq1.unacked group = 0 := by
        have := (hfull hf hp).counts group
        have h1 := hr.same.unacked_eq group
        rw [h1] at hz ⊢; omega
      exact (hd.settled hq1 hz.1 hz2).unacked g |>.trans ((hr.same.unacked_eq g).trans (hu g))
    · rename_i hz
      refine .intro ⟨hr.same.ready, fun _ _ g => (hr.same.unacked_eq g).trans (hu g), hr.same.max, hr.safe, fun hf hp => ?_,
        fun hs => hr.synced (ht.synced hs)⟩
      refine hr.alive (hfull hf hp) ?_
      by_cases h0 : queue.len = 0
      · refine Or.inr (Int.lt_of_not_ge fun hle => hz ⟨h0, ?_⟩)
        rw [hr.same.unacked_eq]; exact hle
      · exact Or.inl (Nat.pos_of_ne_zero h0)

theorem markUnacked_spec (h : SafeIf own fq none) (group : String) :
    Returns (fq.markUnacked group) fun fq' => Effect own fq fq' fq.ready (fq.charged false group) True := by
  have ht : Touched fq group _ (fq.touch group (fq.queueOf group) (fq.charge false group).unackedByGroup) :=
    touched fun _ hg => charge_other hg
  have hu : ∀ g, (fq.touch group (fq.queueOf group) (fq.charge false group).unackedByGroup).unacked g =
    fq.charged false group g :=
    fun g => charge_unacked fq false group g
  refine (updateWeight_spec (ht.safe h (h.queueOf group)) ht.here).mono fun fq' hr => ?_
  have hpos : Full fq none → 0 < (fq.touch group (fq.queueOf group) (fq.charge false group).unackedByGroup).unacked group :=
    fun hf => by
      have := hf.counts group
      rw [hu]; simp only [charged, and_self, if_true]; omega
  refine ⟨?_, fun _ _ g => (hr.same.unacked_eq g).trans (hu g), hr.same.max, hr.safe, fun hf _ => ?_, fun hs =>
    hr.synced (ht.synced hs)⟩
  · rw [hr.same.ready, touch_ready, ready_split fq group]
  · exact hr.alive (ht.full hf (hf.queueOf group) (Int.le_of_lt (hpos hf))) (Or.inr (hpos hf))

theorem updateMaxUnacked_spec (h : SafeIf own fq none) {maxUnacked : Int} (hm : 0 ≤ maxUnacked ∧ maxUnacked ≤ maxInt64) :
    SafeIf own (fq.updateMaxUnacked maxUnacked) none ∧ (Full fq none → Full (fq.updateMaxUnacked maxUnacked) none) := by
  refine ⟨⟨?_, h.valid, h.weight, h.backed, h.kept, h.queue, h.keys⟩, fun hf => ⟨hf.exact, hf.alive, hf.counts, hf.awake⟩⟩
  unfold updateMaxUnacked
  simp only
  split
  · decide
  · exact hm

theorem len_eq_card (fq : FairWeightedQueue ar) : fq.len = fq.ready.card := by
  have h := FinMap.map_total Multiset.cardHom (fun (_ : String) (queue : PriorityMemoryQueue) => queue.held) fq.queues
  refine Eq.trans ?_ h.symm
  exact FinMap.total_congr fun _ queue _ => PriorityMemoryQueue.len_eq_card queue

end Doq.Memory.FairWeightedQueue
