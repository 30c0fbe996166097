/-
  Doq.Memory.MemoryQueueWakes — what makes a memory queue ready (see
  `Doq.Memory.MemoryQueuePicks`).

  `Fit` is what survives any ids, as long as a round-robin queue sees good groups. A `Loss` is
  what a command other than an enqueue does to the memory queue: a message goes, a slot is
  freed, a priority or the limit changes. `lose_peekReady` says when a queue that was not ready
  is ready after it, in terms of what it held and counted before (`Opens`): for a round-robin
  queue by the last message on some path, for a weighted one by the new weight of the one
  group, for a delayed one by a priority that is due. A dequeue never does (`take_peekReady`).
-/

import Doq.Memory.DelayedWait
import Doq.Memory.MemoryQueuePicks

namespace Doq.Memory

open Lib WeightedAvl

/-! ## A delayed queue -/

theorem PriorityMemoryQueue.delete_get {pq : PriorityMemoryQueue} (h : pq.Sound) (id : UInt64) :
    Returns (pq.delete id) fun r => pq.get id = some r.1 := by
  rcases h.missing_or_found id with hm | ⟨it, hf⟩
  · exact .of_eq (PriorityMemoryQueue.delete_missing hm) (PriorityMemoryQueue.get_missing hm)
  · obtain ⟨queue, hd, _⟩ := PriorityMemoryQueue.delete_found hf h
    exact .of_eq hd (PriorityMemoryQueue.get_found hf)

/-! ## A weighted queue -/

namespace FairWeightedQueue

variable {fq fq₁ fq' : FairWeightedQueue} {group : String} {queue : PriorityMemoryQueue} {w w' : Int}

/-- Only the weight of one group was written, and it is positive when `w` is. -/
structure Weighed (fq : FairWeightedQueue) (group : String) (w : Int) (fq' : FairWeightedQueue) : Prop where
  other : ∀ e : String × Int, e.1 ≠ group → (e ∈ fq'.weights.root.toList ↔ e ∈ fq.weights.root.toList)
  here : (∃ e ∈ fq'.weights.root.toList, e.1 = group ∧ 0 < e.2) ↔ 0 < w

theorem Weighed.trans (h : Weighed fq group w fq₁) (h' : Weighed fq₁ group w' fq') : Weighed fq group w' fq' :=
  ⟨fun e he => (h'.other e he).trans (h.other e he), h'.here⟩

theorem Weighed.of_weights (h : Weighed fq₁ group w fq') (hw : fq₁.weights = fq.weights) : Weighed fq group w fq' :=
  ⟨fun e he => by rw [← hw]; exact h.other e he, h.here⟩

/-- No other group was ready, so it is this one. -/
theorem Weighed.peekReady (h : Weighed fq group w fq') (hs : Safe fq none) (hs' : Safe fq' none) (hp : fq.peekReady = false) :
    fq'.peekReady = true ↔ 0 < w := by
  rw [peekReady_iff hs', ← h.here]
  constructor
  · rintro ⟨e, he, hpos⟩
    by_cases hg : e.1 = group
    · exact ⟨e, he, hg, hpos⟩
    · exact absurd ((peekReady_iff hs).mpr ⟨e, (h.other e hg).mp he, hpos⟩) (by rw [hp]; exact Bool.false_ne_true)
  · rintro ⟨e, he, _, hpos⟩
    exact ⟨e, he, hpos⟩

theorem updateWeight_weighed (h : fq.weights.root.Valid) (hq : fq.queues.lookup group = some queue) :
    Returns (fq.updateWeight group) fun fq' =>
      Weighed fq group (calculateWeight .float64 fq.maxUnacked (fq.unacked group) queue.len) fq' ∧ SameQueues fq fq' ∧
        fq'.weights.root.Valid := by
  unfold updateWeight
  refine .bind_eq hq ((WeightedAVL.update_spec h group _).bind fun weights hi =>
    .intro ⟨⟨fun e he => ?_, ?_⟩, ⟨rfl, rfl, rfl⟩, hi.valid⟩)
  · show e ∈ weights.root.toList ↔ _
    rw [hi.mem]
    exact ⟨fun h => h.elim (fun heq => absurd (by rw [heq]) he) (·.1), fun h => Or.inr ⟨h, he⟩⟩
  · show (∃ e ∈ weights.root.toList, e.1 = group ∧ 0 < e.2) ↔ _
    constructor
    · rintro ⟨e, he, hg, hpos⟩
      rcases (hi.mem e).mp he with rfl | ⟨_, hne⟩
      · exact hpos
      · exact absurd hg hne
    · exact fun hpos => ⟨_, (hi.mem _).mpr (Or.inl rfl), rfl, hpos⟩

theorem removeGroup_weighed (h : fq.weights.root.Valid) (group : String) :
    Returns (fq.removeGroup group) fun fq' => Weighed fq group 0 fq' ∧ fq'.unackedByGroup = fq.unackedByGroup.erase group := by
  unfold removeGroup
  refine (WeightedAVL.remove_spec h group).bind fun weights hd => .intro ⟨⟨fun e he => ?_, ?_⟩, rfl⟩
  · show e ∈ weights.root.toList ↔ _
    rw [hd.mem]
    exact and_iff_left he
  · refine iff_of_false ?_ (Int.lt_irrefl 0)
    rintro ⟨e, he, hg, _⟩
    exact ((hd.mem e).mp he).2 hg

/-- The number of ready messages of a group. -/
theorem queueOf_len (h : Safe fq none) (group : String) : (fq.queueOf group).len = fq.ready.countP (·.group = group) := by
  have hown : (fq.queueOf group).held.countP (·.group = group) = (fq.queueOf group).len := by
    rw [PriorityMemoryQueue.len_eq_card]
    exact Multiset.countP_eq_card.mpr fun it hit => (h.queueOf group).items trivial it hit
  have hothers : (fq.others group).countP (·.group = group) = 0 := by
    refine Multiset.countP_eq_zero.mpr fun it hit hg => ?_
    obtain ⟨g, queue, hq, hit⟩ := FinMap.mem_total.mp hit
    rw [FinMap.lookup_erase_eq] at hq
    split at hq
    · cases hq
    · rename_i hne
      exact hne (((h.queue g queue hq).items trivial it hit).symm.trans hg)
  rw [ready_split fq group, Multiset.countP_add, hown, hothers, Nat.add_zero]

theorem messageLost_weighed (h : SafeIf True fq (some group)) (hq : fq.queues.lookup group = some queue) :
    Returns (fq.messageLost group) fun fq' =>
      Weighed fq group (calculateWeight .float64 fq.maxUnacked (fq.unacked group) queue.len) fq' ∧
      (fq'.unackedByGroup.lookup group = fq.unackedByGroup.lookup group ∨ queue.len = 0 ∧
        fq'.unackedByGroup.lookup group = none) := by
  unfold messageLost
  refine .bind_eq hq ?_
  split
  · rename_i hz
    refine (removeGroup_weighed h.valid group).mono fun fq' hd => ?_
    rw [hz.2, calculateWeight_empty]
    refine ⟨hd.1, Or.inr ⟨rfl, ?_⟩⟩
    rw [hd.2, FinMap.lookup_erase_eq, if_pos rfl]
  · exact (updateWeight_weighed h.valid hq).mono fun fq' hw => ⟨hw.1, Or.inl (by rw [hw.2.1.unacked])⟩

/-- A message of the group goes: the group is weighed without it. -/
theorem delete_weighed (h : Safe fq none) (group : String) (id : UInt64) :
    Returns (fq.delete group id) fun r =>
      match r.1 with
      | none => r.2 = fq
      | some _ => Weighed fq group (calculateWeight .float64 fq.maxUnacked (fq.unacked group) (r.2.queueOf group).len) r.2 ∧
        (r.2.unackedByGroup.lookup group = fq.unackedByGroup.lookup group ∨
          (r.2.queueOf group).len = 0 ∧ r.2.unackedByGroup.lookup group = none) := by
  unfold FairWeightedQueue.delete
  cases hq : fq.queues.lookup group with
  | none => exact .intro rfl
  | some queue =>
    have hok := h.queue group queue hq
    rcases hok.sound.missing_or_found id with hm | ⟨it, hf⟩
    · exact .bind_eq (PriorityMemoryQueue.delete_missing hm) (.intro rfl)
    · obtain ⟨queue', hd, hs⟩ := PriorityMemoryQueue.delete_found hf hok.sound
      refine .bind_eq hd ?_
      have ht : Touched fq group queue' (fq.touch group queue' fq.unackedByGroup) := touched fun _ _ => rfl
      have hsafe := ht.safe h (hok.shrink hs)
      refine ((messageLost_weighed hsafe ht.here).and (messageLost_spec hsafe ht.here)).bind fun fq' hw => .intro ?_
      obtain ⟨⟨hw, hentry⟩, hset⟩ := hw
      have hlen : (fq'.queueOf group).len = queue'.len := by
        rw [PriorityMemoryQueue.len_eq_card, PriorityMemoryQueue.len_eq_card, hset.held, queueOf_of_lookup ht.here]
      show Weighed fq group _ fq' ∧ _
      rw [hlen]
      exact ⟨hw.of_weights rfl, hentry⟩

/-- A slot of the group is freed: the group is weighed with one less unacked. -/
theorem updateWeights_weighed (h : Safe fq none) (group : String) :
    Returns (fq.updateWeights group) fun fq' =>
      match fq.unackedByGroup.lookup group with
      | none => fq' = fq
      | some _ =>
        Weighed fq group (calculateWeight .float64 fq.maxUnacked (fq.unacked group - 1) (fq.queueOf group).len) fq' := by
  unfold FairWeightedQueue.updateWeights
  cases hc : fq.unackedByGroup.lookup group with
  | none => exact .intro rfl
  | some count =>
    obtain ⟨queue, hq⟩ := h.kept group count hc
    have hcount : fq.unacked group = count := by unfold FairWeightedQueue.unacked; rw [hc]; rfl
    have hnew :
        ({ fq with unackedByGroup := fq.unackedByGroup.insert group (count - 1) } : FairWeightedQueue).unacked group =
          count - 1 := by
      simp [FairWeightedQueue.unacked]
    have hreleased : Returns ({ fq with unackedByGroup := fq.unackedByGroup.insert group (count - 1) }.updateWeight group) _ :=
      updateWeight_weighed h.valid hq
    rw [hcount, queueOf_of_lookup hq, ← hnew]
    refine hreleased.bind fun fq₁ h₁ => ?_
    obtain ⟨hw, hsame, hvalid⟩ := h₁
    refine .bind_eq (a := queue) (by rw [hsame.queues]; exact hq) ?_
    split
    · rename_i hz
      refine (removeGroup_weighed hvalid group).mono fun fq' hd => ?_
      rw [hz.1, calculateWeight_empty]
      exact (hw.trans hd.1).of_weights rfl
    · exact .intro (hw.of_weights rfl)

end FairWeightedQueue

/-! ## Any memory queue -/

namespace MemoryQueue

variable {m m' : MemoryQueue} {group : String} {id : UInt64} {clock : Int}

/-- What good groups keep, whatever the ids. -/
def Fit : MemoryQueue → Prop
  | delayed q => Safe (delayed q)
  | fairRoundRobin q => q.Inv False
  | fairWeighted q => q.Safe none

theorem Fit.safe (h : Fit m) : Safe m := by
  cases m with
  | delayed q => exact h
  | fairRoundRobin q => exact FairRoundRobinQueue.Inv.safe h
  | fairWeighted q => exact h

/-- What a command that adds no message takes from the queue or sets. -/
inductive Loss where
  | nothing
  | take (ack : Bool) (seed : UInt64) (now : Int)
  /-- A message goes, and with it its slot if it was in flight. -/
  | drop (group : String) (id : UInt64) (freed : Bool)
  | release (group : String)
  | reprice (group : String) (id : UInt64) (priority : Int)
  | limit (maxUnacked : Int)
  deriving DecidableEq, Repr

def lose (m : MemoryQueue) : Loss → Go MemoryQueue
  | .nothing => some m
  | .take ack seed now => (m.dequeue ack seed now).map (·.2)
  | .drop group id freed => do
    let (_, m) ← m.delete group id
    if freed then m.updateWeights group else some m
  | .release group => m.updateWeights group
  | .reprice group id priority => m.updatePriority group id priority
  | .limit maxUnacked => some (m.updateMaxUnacked maxUnacked)

/-- The counters with one slot of the group freed. -/
def released (m : MemoryQueue) (group g : String) : Int := if g = group ∧ m.counted group then m.unacked g - 1 else m.unacked g

/-- The ready messages without one. -/
def without (m : MemoryQueue) : Option Item → Multiset Item
  | none => m.ready
  | some it => m.ready.erase it

/-- Whether a queue of the kind with these messages and counters would be ready, if only `group`
    can be the reason. -/
def Offers (kind : Kind) (clock : Int) (group : String) (ready : Multiset Item) (unacked : String → Int)
    (maxUnacked : Int) : Prop :=
  match kind with
  | .delayed => ∃ it ∈ ready, it.priority ≤ clock
  | .fairRoundRobin => ∃ it ∈ ready, (∀ it' ∈ ready,
    FairRoundRobinQueue.pathOf it <+: FairRoundRobinQueue.pathOf it' → it'.group = it.group) ∧
    unacked it.group < maxUnacked
  | .fairWeighted => 0 < FairWeightedQueue.calculateWeight .float64 maxUnacked (unacked group) (ready.countP (·.group = group))

/-- The loss makes a queue ready that was not. -/
def Opens (m : MemoryQueue) (clock : Int) : Loss → Prop
  | .nothing | .take _ _ _ => False
  | .drop group id freed => ∃ gone, m.get group id = some gone ∧ (gone.isSome ∨ freed ∧ m.counted group) ∧
    Offers m.kind clock group (m.without gone) (if freed then m.released group else m.unacked) m.maxUnacked
  | .release group => m.counted group ∧ Offers m.kind clock group m.ready (m.released group) m.maxUnacked
  -- only a delayed queue looks at priorities
  | .reprice group id priority => m.kind = .delayed ∧ (∃ it, m.get group id = some (some it)) ∧ priority ≤ clock
  -- a weighted queue does not weigh its groups again
  | .limit maxUnacked => m.kind = .fairRoundRobin ∧ Offers m.kind clock "" m.ready m.unacked
    (FairRoundRobinQueue.limitOf maxUnacked)

/-! ### What each method leaves -/

theorem Safe.fit (h : Safe m) (hk : m.kind ≠ .fairRoundRobin) : Fit m := by
  cases m with
  | delayed q => exact h
  | fairRoundRobin q => exact absurd rfl hk
  | fairWeighted q => exact h

/-- A method that keeps the queue safe and its kind leaves it fit, if it does so to a
    round-robin queue. -/
theorem Fit.kept {α : Type} {x : Go α} {out : α → MemoryQueue} {P : α → Prop}
    (hsafe : Returns x fun a => Safe (out a) ∧ (out a).kind = m.kind ∧ P a)
    (hfair : ∀ q, m = fairRoundRobin q → Returns x fun a => Fit (out a)) : Returns x fun a => Fit (out a) := by
  by_cases hk : m.kind = .fairRoundRobin
  · obtain ⟨q, hq⟩ := eq_of_kind hk
    exact hfair q hq
  · refine hsafe.mono fun a ha => ha.1.fit ?_
    rw [ha.2.1]
    exact hk

theorem Fit.enqueue (h : Fit m) (hg : Accepts m.kind group) {item : Item} (hi : item.group = group) :
    Returns (m.enqueue group item) Fit := by
  refine Fit.kept (h.safe.enqueue hi) fun q hq => ?_
  subst hq
  exact .intro (FairRoundRobinQueue.Inv.enqueue_any h hg item).1

theorem Fit.dequeue (h : Fit m) (ack : Bool) (seed : UInt64) (now : Int) : Returns (m.dequeue ack seed now) fun r => Fit r.2 := by
  refine Fit.kept (h.safe.dequeue ack seed now) fun q hq => ?_
  subst hq
  exact (FairRoundRobinQueue.Inv.dequeue h ack).map fun _ hr => hr.1

theorem Fit.delete (h : Fit m) (group : String) (id : UInt64) : Returns (m.delete group id) fun r => Fit r.2 := by
  refine Fit.kept (h.safe.delete group id) fun q hq => ?_
  subst hq
  exact (FairRoundRobinQueue.Inv.delete h group id).map fun _ hr => hr.1

theorem Fit.updatePriority (h : Fit m) (group : String) (id : UInt64) (v : Int) : Returns (m.updatePriority group id v) Fit := by
  refine Fit.kept (h.safe.updatePriority group id v) fun q hq => ?_
  subst hq
  exact (FairRoundRobinQueue.Inv.updatePriority h group id v).map fun _ hr => hr.1

theorem Fit.updateWeights (h : Fit m) (group : String) : Returns (m.updateWeights group) Fit := by
  refine Fit.kept (h.safe.updateWeights group) fun q hq => ?_
  subst hq
  exact .intro (FairRoundRobinQueue.Inv.updateWeights h group).1

theorem Fit.markUnacked (h : Fit m) (group : String) : Returns (m.markUnacked group) Fit := by
  refine Fit.kept (h.safe.markUnacked group) fun q hq => ?_
  subst hq
  exact .intro (FairRoundRobinQueue.Inv.markUnacked h group).1

theorem Fit.updateMaxUnacked (h : Fit m) {maxUnacked : Int} (hm : Limit maxUnacked) : Fit (m.updateMaxUnacked maxUnacked) := by
  cases m with
  | fairRoundRobin q => exact (FairRoundRobinQueue.Inv.updateMaxUnacked h maxUnacked).1
  | delayed q => exact h
  | fairWeighted q => exact (h.safe.updateMaxUnacked hm).1.fit nofun

/-- `Delete` takes what `Get` finds. -/
theorem Safe.delete_get (h : Safe m) {gone : Option Item} (hd : m.delete group id = some (gone, m')) :
    m.get group id = some gone := by
  cases m with
  | delayed q =>
    obtain ⟨⟨it, q'⟩, hq', hr⟩ := Option.map_eq_some_iff.mp hd
    cases hr
    obtain ⟨⟨it', queue⟩, hq, hr⟩ := Option.bind_eq_some_iff.mp hq'
    cases hr
    exact (PriorityMemoryQueue.delete_get h.1 id).result hq
  | fairRoundRobin q =>
    obtain ⟨⟨it, q'⟩, hq', hr⟩ := Option.map_eq_some_iff.mp hd
    cases hr
    obtain ⟨_, ht, _⟩ := h.tree
    show q.get group id = _
    unfold FairRoundRobinQueue.delete at hq'
    unfold FairRoundRobinQueue.get FairRoundRobinQueue.leafQueue
    cases hl : q.groupKeyToLeaf.lookup group with
    | none => simp only [hl] at hq'; cases hq'; rfl
    | some leaf =>
      cases hn : q.nodes.lookup leaf with
      | none => simp only [hl, hn] at hq'; cases hq'; simp [hn]
      | some node =>
        simp only [hl, hn] at hq'
        obtain ⟨⟨it', queue⟩, hq, hr⟩ := Option.bind_eq_some_iff.mp hq'
        have hget := (PriorityMemoryQueue.delete_get (ht.ok leaf node hn).sound id).result hq
        simp only [Option.bind_eq_bind, Option.bind_some, hn, hget]
        cases it' with
        | none => cases hr; rfl
        | some x => obtain ⟨_, _, hr⟩ := Option.bind_eq_some_iff.mp hr; cases hr; rfl
  | fairWeighted q =>
    obtain ⟨⟨it, q'⟩, hq', hr⟩ := Option.map_eq_some_iff.mp hd
    cases hr
    show q.get group id = _
    unfold FairWeightedQueue.delete at hq'
    unfold FairWeightedQueue.get
    cases hn : q.queues.lookup group with
    | none => simp only [hn] at hq'; cases hq'; rfl
    | some queue =>
      simp only [hn] at hq'
      obtain ⟨⟨it', queue'⟩, hq, hr⟩ := Option.bind_eq_some_iff.mp hq'
      have hget := (PriorityMemoryQueue.delete_get (FairWeightedQueue.SafeIf.queue h group queue hn).sound id).result hq
      simp only [hget]
      cases it' with
      | none => cases hr; rfl
      | some x => obtain ⟨_, _, hr⟩ := Option.bind_eq_some_iff.mp hr; cases hr; rfl

theorem Safe.delete_ready (h : Safe m) {gone : Option Item} (hd : m.delete group id = some (gone, m')) :
    m'.ready = m.without gone := by
  obtain ⟨_, _, hr⟩ := (h.delete group id).result hd
  cases gone with
  | none => exact congrArg ready hr
  | some it =>
    show _ = m.ready.erase it
    rw [hr.2, Multiset.erase_cons_head]

/-! ### When a queue is ready -/

/-- Any queue but a weighted one looks at every message it holds. -/
theorem Fit.peekReady_iff (h : Fit m) (hk : m.kind ≠ .fairWeighted) (clock : Int) (group : String) :
    (m.peekReady clock).1 = true ↔ Offers m.kind clock group m.ready m.unacked m.maxUnacked := by
  cases m with
  | delayed q => exact DelayedQueue.Ordered.peekReady_iff ⟨h.2.2, h.1, h.2.1⟩ clock
  | fairRoundRobin q => exact FairRoundRobinQueue.Inv.peekReady_iff h
  | fairWeighted q => exact absurd rfl hk

theorem updateWeights_uncounted (h : m.counted group = false) : m.updateWeights group = some m := by
  cases m with
  | delayed q => rfl
  | fairRoundRobin q =>
    have hn : q.unackedByGroup.lookup group = none := Option.not_isSome_iff_eq_none.mp (by simpa [counted] using h)
    simp only [MemoryQueue.updateWeights, FairRoundRobinQueue.updateWeights, hn]
  | fairWeighted q =>
    have hn : q.unackedByGroup.lookup group = none := Option.not_isSome_iff_eq_none.mp (by simpa [counted] using h)
    simp only [MemoryQueue.updateWeights, FairWeightedQueue.updateWeights, hn, Option.map_some]

theorem released_uncounted (h : m.counted group = false) : m.released group = m.unacked := by
  funext g
  simp [released, h]

theorem Fit.delete_counts (h : Fit m) (hk : m.kind ≠ .fairWeighted) {gone : Option Item}
    (hd : m.delete group id = some (gone, m')) :
    m'.unacked = m.unacked ∧ m'.counted = m.counted ∧ m'.maxUnacked = m.maxUnacked := by
  cases m with
  | delayed q =>
    obtain ⟨⟨it, q'⟩, _, hr⟩ := Option.map_eq_some_iff.mp hd
    cases hr
    exact ⟨rfl, rfl, rfl⟩
  | fairRoundRobin q =>
    obtain ⟨⟨it, q'⟩, hq', hr⟩ := Option.map_eq_some_iff.mp hd
    cases hr
    obtain ⟨_, hmax, hu, _⟩ := (FairRoundRobinQueue.Inv.delete h group id).result hq'
    refine ⟨funext (unacked_of_eq hu), funext fun g => ?_, hmax⟩
    show (q'.unackedByGroup.lookup g).isSome = (q.unackedByGroup.lookup g).isSome
    rw [hu]
  | fairWeighted q => exact absurd rfl hk

theorem Fit.updateWeights_counts (h : Fit m) (hk : m.kind ≠ .fairWeighted) (hu : m.updateWeights group = some m') :
    m'.unacked = m.released group ∧ m'.maxUnacked = m.maxUnacked := by
  cases m with
  | delayed q => cases hu; exact ⟨(released_uncounted rfl).symm, rfl⟩
  | fairRoundRobin q =>
    cases hu
    obtain ⟨_, _, hmax, hcounts⟩ := FairRoundRobinQueue.Inv.updateWeights h group
    refine ⟨funext fun g => (hcounts g).trans ?_, hmax⟩
    show _ = if g = group ∧ (q.unackedByGroup.lookup group).isSome then q.unacked g - 1 else q.unacked g
    by_cases hg : g = group
    · subst hg
      cases hc : q.unackedByGroup.lookup g with
      | none => simp [FairRoundRobinQueue.unacked, hc]
      | some count =>
        have := FairRoundRobinQueue.Inv.positive h g count hc
        simp [FairRoundRobinQueue.unacked, hc]
        omega
    · simp [hg]
  | fairWeighted q => exact absurd rfl hk

/-- The weight of the one group that a weighted queue has weighed again. -/
theorem offers_weighted {q : FairWeightedQueue} (h : q.Safe none) {unacked : String → Int} {maxUnacked : Int} :
    Offers .fairWeighted clock group q.ready unacked maxUnacked ↔
      0 < FairWeightedQueue.calculateWeight .float64 maxUnacked (unacked group) (q.queueOf group).len := by
  rw [FairWeightedQueue.queueOf_len h]
  exact Iff.rfl

theorem Fit.release_peekReady (h : Fit m) (hu : m.updateWeights group = some m') (hp : (m.peekReady clock).1 = false) :
    (m'.peekReady clock).1 = true ↔ m.counted group ∧ Offers m.kind clock group m.ready (m.released group) m.maxUnacked := by
  cases hc : m.counted group with
  | false =>
    rw [updateWeights_uncounted hc] at hu
    cases hu
    simp [hp]
  | true =>
    have hfit := (h.updateWeights group).result hu
    obtain ⟨hsafe, hkind, hready⟩ := (h.safe.updateWeights group).result hu
    by_cases hk : m.kind = .fairWeighted
    · cases m with
      | fairWeighted q =>
        obtain ⟨q', hq', rfl⟩ := Option.map_eq_some_iff.mp hu
        have hw := (FairWeightedQueue.updateWeights_weighed h group).result hq'
        obtain ⟨count, hcount⟩ := Option.isSome_iff_exists.mp hc
        rw [hcount] at hw
        refine (hw.peekReady h hfit hp).trans ?_
        rw [show (fairWeighted q).kind = .fairWeighted from rfl, show (fairWeighted q).ready = q.ready from rfl,
          offers_weighted h]
        simp [released, hc, unacked, maxUnacked]
      | delayed q => cases hk
      | fairRoundRobin q => cases hk
    · obtain ⟨hun, hmax⟩ := h.updateWeights_counts hk hu
      rw [hfit.peekReady_iff (by rw [hkind]; exact hk) clock group, hkind, hready, hun, hmax]
      simp

theorem Fit.delete_peekReady (h : Fit m) {gone : Option Item} (hd : m.delete group id = some (gone, m'))
    (hp : (m.peekReady clock).1 = false) :
    (m'.peekReady clock).1 = true ↔ gone.isSome ∧ Offers m.kind clock group (m.without gone) m.unacked m.maxUnacked := by
  have hfit := (h.delete group id).result hd
  have hready := h.safe.delete_ready hd
  obtain ⟨hsafe, hkind, hr⟩ := (h.safe.delete group id).result hd
  cases gone with
  | none =>
    obtain rfl : m' = m := hr
    simp [hp]
  | some it =>
    rw [← hready]
    by_cases hk : m.kind = .fairWeighted
    · cases m with
      | fairWeighted q =>
        obtain ⟨⟨it, q'⟩, hq', hr⟩ := Option.map_eq_some_iff.mp hd
        cases hr
        obtain ⟨hw, _⟩ := (FairWeightedQueue.delete_weighed h group id).result hq'
        refine (hw.peekReady h hfit hp).trans ?_
        rw [show (fairWeighted q).kind = .fairWeighted from rfl, show (fairWeighted q').ready = q'.ready from rfl,
          offers_weighted hfit]
        simp [unacked, maxUnacked]
      | delayed q => cases hk
      | fairRoundRobin q => cases hk
    · obtain ⟨hun, _, hmax⟩ := h.delete_counts hk hd
      rw [hfit.peekReady_iff (by rw [hkind]; exact hk) clock group, hkind, hun, hmax]
      simp

/-- A weighted queue loses a message and then the slot: the group is weighed a second time,
    unless it left with its last message. -/
theorem weighted_drop {q q₁ q' : FairWeightedQueue} {it : Item} (h : q.Safe none) (h₁ : q₁.Safe none)
    (hd : q.delete group id = some (some it, q₁)) (hu : q₁.updateWeights group = some q') :
    FairWeightedQueue.Weighed q group
      (FairWeightedQueue.calculateWeight .float64 q.maxUnacked ((fairWeighted q).released group group) (q₁.queueOf group).len)
      q' := by
  obtain ⟨hw, hentry⟩ := (FairWeightedQueue.delete_weighed h group id).result hd
  obtain ⟨_, _, _, heffect⟩ := (FairWeightedQueue.delete_spec h group id).result hd
  have hw' := (FairWeightedQueue.updateWeights_weighed h₁ group).result hu
  cases hc : q₁.unackedByGroup.lookup group with
  | none =>
    rw [hc] at hw' hentry
    obtain rfl : q' = q₁ := hw'
    rcases hentry with hsame | ⟨hempty, _⟩
    · have hno : (fairWeighted q).counted group = false := by simp [counted, ← hsame]
      rw [released_uncounted hno]
      exact hw
    · rw [hempty, FairWeightedQueue.calculateWeight_empty] at hw ⊢
      exact hw
  | some count =>
    rw [hc] at hw' hentry
    have hsame : q.unackedByGroup.lookup group = some count := by
      rcases hentry with hsame | ⟨_, hnone⟩
      · exact hsame.symm
      · cases hnone
    have hreleased : (fairWeighted q).released group group = q₁.unacked group - 1 := by
      simp [released, counted, hsame, unacked, FairWeightedQueue.unacked, hc]
    rw [hreleased, ← heffect.max]
    exact hw.trans hw'

theorem Fit.drop_peekReady (h : Fit m) {m₁ : MemoryQueue} {gone : Option Item} (hd : m.delete group id = some (gone, m₁))
    (hu : m₁.updateWeights group = some m') (hp : (m.peekReady clock).1 = false) :
    (m'.peekReady clock).1 = true ↔
      (gone.isSome ∨ m.counted group) ∧ Offers m.kind clock group (m.without gone) (m.released group) m.maxUnacked := by
  have hfit := (h.delete group id).result hd
  have hfit' := (hfit.updateWeights group).result hu
  have hready := h.safe.delete_ready hd
  obtain ⟨_, hkind, hr⟩ := (h.safe.delete group id).result hd
  obtain ⟨_, hkind', hready'⟩ := (hfit.safe.updateWeights group).result hu
  cases gone with
  | none =>
    obtain rfl : m₁ = m := hr
    simpa [without] using h.release_peekReady hu hp
  | some it =>
    rw [← hready]
    by_cases hk : m.kind = .fairWeighted
    · cases m with
      | fairWeighted q =>
        obtain ⟨⟨it, q₁⟩, hq₁, hr⟩ := Option.map_eq_some_iff.mp hd
        cases hr
        obtain ⟨q', hq', rfl⟩ := Option.map_eq_some_iff.mp hu
        refine ((weighted_drop h hfit hq₁ hq').peekReady h hfit' hp).trans ?_
        rw [show (fairWeighted q).kind = .fairWeighted from rfl, show (fairWeighted q₁).ready = q₁.ready from rfl,
          offers_weighted hfit]
        simp [maxUnacked]
      | delayed q => cases hk
      | fairRoundRobin q => cases hk
    · obtain ⟨hun, hcounted, hmax⟩ := h.delete_counts hk hd
      obtain ⟨hun', hmax'⟩ := hfit.updateWeights_counts (by rw [hkind]; exact hk) hu
      have hreleased : m₁.released group = m.released group := by unfold released; rw [hun, hcounted]
      rw [hfit'.peekReady_iff (by rw [hkind', hkind]; exact hk) clock group, hkind', hkind, hready', hun', hreleased, hmax', hmax]
      simp

/-- A fair queue does not look at priorities, so the write leaves what its `PeekReady` reads. -/
theorem updatePriority_peekReady (hk : m.kind ≠ .delayed) {v : Int} (hu : m.updatePriority group id v = some m') (clock : Int) :
    m'.peekReady clock = m.peekReady clock := by
  cases m with
  | delayed q => exact absurd rfl hk
  | fairRoundRobin q =>
    obtain ⟨q', hq', rfl⟩ := Option.map_eq_some_iff.mp hu
    unfold FairRoundRobinQueue.updatePriority FairRoundRobinQueue.onLeafQueue at hq'
    split at hq'
    · cases hq'; rfl
    · split at hq'
      · cases hq'; rfl
      · obtain ⟨queue, _, hr⟩ := Option.bind_eq_some_iff.mp hq'
        cases hr
        rfl
  | fairWeighted q =>
    obtain ⟨q', hq', rfl⟩ := Option.map_eq_some_iff.mp hu
    unfold FairWeightedQueue.updatePriority FairWeightedQueue.onQueue at hq'
    split at hq'
    · cases hq'; rfl
    · obtain ⟨queue, _, hr⟩ := Option.bind_eq_some_iff.mp hq'
      cases hr
      rfl

theorem Fit.reprice_peekReady (h : Fit m) {v : Int} (hu : m.updatePriority group id v = some m')
    (hp : (m.peekReady clock).1 = false) :
    (m'.peekReady clock).1 = true ↔ m.kind = .delayed ∧ (∃ it, m.get group id = some (some it)) ∧ v ≤ clock := by
  have hfit := (h.updatePriority group id v).result hu
  cases m with
  | delayed q =>
    obtain ⟨q', hq', rfl⟩ := Option.map_eq_some_iff.mp hu
    obtain ⟨queue, hqueue, hr⟩ := Option.bind_eq_some_iff.mp hq'
    cases hr
    have hlate : ∀ it ∈ q.held, clock < it.priority := fun it hit => by
      by_contra hle
      exact absurd ((DelayedQueue.Ordered.peekReady_iff ⟨h.2.2, h.1, h.2.1⟩ clock).mpr ⟨it, hit, Int.not_lt.mp hle⟩)
        (Bool.eq_false_iff.mp hp)
    refine (DelayedQueue.Ordered.peekReady_iff ⟨hfit.2.2, hfit.1, hfit.2.1⟩ clock).trans ?_
    rcases h.1.missing_or_found id with hm | ⟨it, hf⟩
    · rw [PriorityMemoryQueue.updatePriority_missing hm] at hqueue
      cases hqueue
      refine iff_of_false (fun ⟨it, hit, hle⟩ => absurd (hlate it hit) (Int.not_lt.mpr hle)) fun ⟨_, ⟨it, hget⟩, _⟩ => ?_
      have hget : q.queue.get id = some (some it) := hget
      rw [PriorityMemoryQueue.get_missing hm] at hget
      cases hget
    · obtain ⟨queue', hqueue', hrep, _⟩ := PriorityMemoryQueue.updatePriority_found hf v
      rw [hqueue] at hqueue'
      cases hqueue'
      obtain ⟨rest, hheld, hheld'⟩ := hrep.held
      have hget : (delayed q).get group id = some (some it) := PriorityMemoryQueue.get_found hf
      constructor
      · rintro ⟨x, hx, hle⟩
        unfold DelayedQueue.held at hx
        rw [hheld'] at hx
        rcases Multiset.mem_cons.mp hx with rfl | hx
        · exact ⟨rfl, ⟨it, hget⟩, hle⟩
        · refine absurd (hlate x ?_) (Int.not_lt.mpr hle)
          unfold DelayedQueue.held
          rw [hheld]
          exact Multiset.mem_cons_of_mem hx
      · rintro ⟨_, _, hle⟩
        refine ⟨{ it with priority := v }, ?_, hle⟩
        unfold DelayedQueue.held
        rw [hheld']
        exact Multiset.mem_cons_self _ _
  | fairRoundRobin q =>
    rw [updatePriority_peekReady (by simp [kind]) hu]
    simp [hp, kind]
  | fairWeighted q =>
    rw [updatePriority_peekReady (by simp [kind]) hu]
    simp [hp, kind]

theorem Fit.take_peekReady (h : Fit m) {ack : Bool} {seed : UInt64} {now : Int} {item : Option Item}
    (hd : m.dequeue ack seed now = some (item, m')) (hp : (m.peekReady clock).1 = false) : (m'.peekReady clock).1 = false := by
  have hfit := (h.dequeue ack seed now).result hd
  have hready := (h.safe.dequeue ack seed now).result hd
  cases m with
  | delayed q =>
    obtain ⟨⟨it, q'⟩, hq', hr⟩ := Option.map_eq_some_iff.mp hd
    cases hr
    have hfewer : ∀ x ∈ q'.held, x ∈ q.held := by
      intro x hx
      obtain ⟨_, _, hready⟩ := hready
      cases it with
      | none => exact (congrArg (x ∈ ·) hready).mp hx
      | some it => exact (congrArg (x ∈ ·) hready).mpr (Multiset.mem_cons_of_mem hx)
    refine Bool.eq_false_iff.mpr fun ht => ?_
    obtain ⟨x, hx, hle⟩ := (DelayedQueue.Ordered.peekReady_iff ⟨hfit.2.2, hfit.1, hfit.2.1⟩ clock).mp ht
    exact absurd ((DelayedQueue.Ordered.peekReady_iff ⟨h.2.2, h.1, h.2.1⟩ clock).mpr ⟨x, hfewer x hx, hle⟩)
      (Bool.eq_false_iff.mp hp)
  | fairRoundRobin q =>
    obtain ⟨⟨it, q'⟩, hq', hr⟩ := Option.map_eq_some_iff.mp hd
    cases hr
    have hserves : ¬ q.Serves [] := fun hs => absurd (FairRoundRobinQueue.Inv.peekReady_of_serves h hs) (Bool.eq_false_iff.mp hp)
    cases it with
    | some it => exact absurd (((FairRoundRobinQueue.Inv.safe h).dequeue_iff ack).mp ⟨it, q', hq'⟩) hserves
    | none =>
      obtain ⟨_, hmax, hr, hu⟩ := (FairRoundRobinQueue.Inv.dequeue h ack).result hq'
      refine Bool.eq_false_iff.mpr fun ht => absurd ?_ (Bool.eq_false_iff.mp hp)
      refine (h.peekReady_iff nofun clock "").mpr ?_
      have hoffers := (hfit.peekReady_iff (fun hk => by cases hk) clock "").mp ht
      rw [show (fairRoundRobin q').ready = (fairRoundRobin q).ready from hr, funext (unacked_of_eq hu),
        show (fairRoundRobin q').maxUnacked = (fairRoundRobin q).maxUnacked from hmax] at hoffers
      exact hoffers
  | fairWeighted q =>
    obtain ⟨⟨it, q'⟩, hq', hr⟩ := Option.map_eq_some_iff.mp hd
    cases hr
    have hspec := (FairWeightedQueue.dequeue_spec h ack seed).result hq'
    cases it with
    | none => obtain ⟨rfl, _⟩ := hspec; exact hp
    | some it =>
      obtain ⟨_, _, hne, _⟩ := hspec
      obtain ⟨w, hpos, hmem⟩ := FairWeightedQueue.sampled_weight h hne
      exact absurd ((FairWeightedQueue.peekReady_iff h).mpr ⟨_, hmem, hpos⟩) (Bool.eq_false_iff.mp hp)

theorem Fit.limit_peekReady (h : Fit m) {maxUnacked : Int} (hm : Limit maxUnacked) (hp : (m.peekReady clock).1 = false) :
    ((m.updateMaxUnacked maxUnacked).peekReady clock).1 = true ↔
      m.kind = .fairRoundRobin ∧ Offers m.kind clock "" m.ready m.unacked (FairRoundRobinQueue.limitOf maxUnacked) := by
  have hfit := h.updateMaxUnacked hm
  cases m with
  | delayed q => exact iff_of_false (Bool.eq_false_iff.mp hp) (by simp [kind])
  | fairWeighted q => exact iff_of_false (Bool.eq_false_iff.mp hp) (by simp [kind])
  | fairRoundRobin q =>
    obtain ⟨_, hready, hmax, hu⟩ := FairRoundRobinQueue.Inv.updateMaxUnacked h maxUnacked
    have hun : ((fairRoundRobin q).updateMaxUnacked maxUnacked).unacked = (fairRoundRobin q).unacked := funext (unacked_of_eq hu)
    refine (hfit.peekReady_iff (fun hk => by cases hk) clock "").trans ?_
    rw [show ((fairRoundRobin q).updateMaxUnacked maxUnacked).ready = (fairRoundRobin q).ready from hready,
      show ((fairRoundRobin q).updateMaxUnacked maxUnacked).maxUnacked = FairRoundRobinQueue.limitOf maxUnacked from hmax, hun]
    exact (and_iff_right rfl).symm

/-! ### Every loss -/

/-- The limits a command sets are those of a `uint32`. -/
def Loss.Bounded : Loss → Prop
  | .limit maxUnacked => Limit maxUnacked
  | _ => True

/-- A queue that was not ready is ready after a loss exactly if the loss opens it. -/
theorem Fit.lose_peekReady (h : Fit m) {loss : Loss} (hb : loss.Bounded) (hl : m.lose loss = some m')
    (hp : (m.peekReady clock).1 = false) : (m'.peekReady clock).1 = true ↔ m.Opens clock loss := by
  cases loss with
  | nothing => cases hl; simp [hp, Opens]
  | take ack seed now =>
    obtain ⟨⟨item, m'⟩, hd, rfl⟩ := Option.map_eq_some_iff.mp hl
    simp [h.take_peekReady hd hp, Opens]
  | drop group id freed =>
    obtain ⟨⟨gone, m₁⟩, hd, hr⟩ := Option.bind_eq_some_iff.mp hl
    unfold Opens
    simp only [h.safe.delete_get hd, Option.some.injEq, exists_eq_left']
    cases freed with
    | false =>
      cases hr
      simpa using h.delete_peekReady hd hp
    | true => simpa using h.drop_peekReady hd hr hp
  | release group => exact h.release_peekReady hl hp
  | reprice group id priority => exact h.reprice_peekReady hl hp
  | limit maxUnacked => cases hl; exact h.limit_peekReady hb hp

end MemoryQueue

end Doq.Memory
