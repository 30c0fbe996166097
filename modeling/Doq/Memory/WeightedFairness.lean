/-
  Doq.Memory.WeightedFairness — weights and limits over runs of the weighted queue (see
  `Doq.Memory.Weighted`).

  An operation brings the weight of the one group it touches up to date, so weights stay
  current until the limit itself changes: `UpdateMaxUnacked` touches no group.

  Proved:
  - `weights_in_sync`: over every run in which a new limit changes no weight, the tree holds
    the groups with a queue, each with the weight `CalculateWeight` gives now, so a dequeue
    respects the limit and `PeekReady` is what recomputing would give.
    `stale_weights`: a new limit that changes one is not enforced.
  - `unstarved_iff`: with the limit a queue was made with, every group with a ready message
    and a free slot has a weight and can be picked, exactly if none of them has used more
    than nine tenths of the limit plus one, and none is the empty group.
    `last_tenth_starves`: from a limit of 20 on, the last slots have the weight 0.
-/

import Doq.Memory.WeightedTotal
import Mathlib.Algebra.Order.Group.Int

namespace Doq.Memory.FairWeightedQueue

open Lib WeightedAvl

variable {ar : Arithmetic} {fq fq' : FairWeightedQueue ar} {c : Call} {m : Int}
  {events : List (Event (FairWeightedQueue ar) Call (Option Item))}

/-! ## Weights in sync -/

/-- A limit the call sets changes no group's weight. -/
def KeepsWeights (fq : FairWeightedQueue ar) (c : Call) : Prop :=
  ∀ m ∈ c.limit, ValidLimit m ∧ ∀ e ∈ fq.queues.entries,
    calculateWeight ar (fq.updateMaxUnacked m).maxUnacked (fq.unacked e.1) e.2.len =
      calculateWeight ar fq.maxUnacked (fq.unacked e.1) e.2.len

instance (fq : FairWeightedQueue ar) (c : Call) : Decidable (KeepsWeights fq c) :=
  inferInstanceAs (Decidable (∀ m ∈ c.limit, _))

/-- The limit in force: no limit is the largest `int`. -/
def limit (fq : FairWeightedQueue ar) : Int := if fq.maxUnacked = 0 then maxInt64 else fq.maxUnacked

structure InSync (fq : FairWeightedQueue ar) : Prop where
  keys : ∀ g, (∃ w, (g, w) ∈ fq.weights.root.toList) ↔ ∃ queue, fq.queues.lookup g = some queue
  weight : ∀ g w, (g, w) ∈ fq.weights.root.toList → w = calculateWeight ar fq.maxUnacked (fq.unacked g) (fq.queueOf g).len
  limited : ∀ ack seed, Returns (fq.dequeue ack seed) fun r => ∀ it, r.1 = some it → wrap64 (fq.unacked it.group) < fq.limit
  peek : fq.peekReady = true ↔ ∃ g queue, fq.queues.lookup g = some queue ∧
    0 < calculateWeight ar fq.maxUnacked (fq.unacked g) queue.len

theorem updateMaxUnacked_synced (hs : Synced fq none) (h : Safe fq none) (hk : KeepsWeights fq (.updateMaxUnacked m)) :
    Synced (fq.updateMaxUnacked m) none := by
  intro e he _
  obtain ⟨queue, hq⟩ := (h.keys e.1 (by simp)).mp ⟨e.2, he⟩
  have hw := hs e he (by simp)
  have hnew := (hk m rfl).2 ⟨e.1, queue⟩ (FinMap.mem_entries.mpr hq)
  rw [hw, queueOf_of_lookup hq]
  have hq' : (fq.updateMaxUnacked m).queueOf e.1 = queue := queueOf_of_lookup hq
  rw [hq']
  exact hnew.symm

/-- `PeekReady` reads the sum of weights that are not negative. -/
theorem peekReady_iff (h : Safe fq none) : fq.peekReady = true ↔ ∃ e ∈ fq.weights.root.toList, 0 < e.2 := by
  have hnn : ∀ y ∈ fq.weights.root.toList.map (·.2), 0 ≤ y := by
    intro y hy
    obtain ⟨e, he, rfl⟩ := List.mem_map.mp hy
    exact h.weight e he
  unfold peekReady WeightedAVL.sum
  rw [decide_eq_true_iff, h.valid.sum_eq]
  constructor
  · intro hpos
    by_contra hno
    have hzero : ∀ y ∈ fq.weights.root.toList.map (·.2), y = 0 := by
      intro y hy
      obtain ⟨e, he, rfl⟩ := List.mem_map.mp hy
      have := h.weight e he
      have : ¬ 0 < e.2 := fun hp => hno ⟨e, he, hp⟩
      omega
    rw [List.sum_eq_zero hzero] at hpos
    omega
  · intro hex
    obtain ⟨e, he, hpos⟩ := hex
    have := List.single_le_sum hnn e.2 (List.mem_map_of_mem he)
    omega

/-- The group a dequeue takes from has a weight. -/
theorem sampled_weight (h : Safe fq none) {seed : UInt64} (hne : fq.weights.sample seed ≠ "") :
    ∃ w, 0 < w ∧ (fq.weights.sample seed, w) ∈ fq.weights.root.toList := by
  have hsum : fq.weights.root.sum ≠ 0 := fun h0 => hne (by unfold WeightedAVL.sample; rw [if_pos h0]; rfl)
  obtain ⟨w, hpos, hget⟩ := WeightedAVL.sample_mem h.valid h.weight hsum seed
  exact ⟨w, hpos, (Node.get_eq_some h.valid).mp hget⟩

/-- Some group is sampled when one has messages and nothing unacked, if the groups have names. -/
theorem sample_idle (h : Safe fq none) (hf : Full fq none) (hnamed : ∀ it ∈ fq.ready, it.group ≠ "") {it : Item}
    (hit : it ∈ fq.ready)
    (hidle : fq.unacked it.group = 0) (seed : UInt64) : fq.weights.sample seed ≠ "" := by
  have hlen : 0 < (fq.queueOf it.group).len := by
    rw [PriorityMemoryQueue.len_eq_card]
    exact Multiset.card_pos_iff_exists_mem.mpr ⟨it, (mem_queueOf h).mpr ⟨hit, rfl⟩⟩
  obtain ⟨queue, hq⟩ : ∃ queue, fq.queues.lookup it.group = some queue := by
    cases hq : fq.queues.lookup it.group with
    | some queue => exact ⟨queue, rfl⟩
    | none =>
      unfold queueOf at hlen
      rw [hq] at hlen
      exact absurd hlen (Nat.lt_irrefl 0)
  obtain ⟨w, hw⟩ := (h.keys it.group nofun).mpr ⟨queue, hq⟩
  have hsum : fq.weights.root.sum ≠ 0 := by
    have hpeek := (peekReady_iff h).mpr ⟨_, hw, hf.awake _ hw nofun hidle hlen⟩
    intro h0
    unfold peekReady WeightedAVL.sum at hpeek
    rw [h0] at hpeek
    cases hpeek
  obtain ⟨w', hpos, hget⟩ := WeightedAVL.sample_mem h.valid h.weight hsum seed
  intro hempty
  -- a sampled group has messages, and those have names
  rw [hempty] at hget
  obtain ⟨queue', hq', hlen'⟩ := h.backed ("", w') ((Node.get_eq_some h.valid).mp hget) nofun (Int.ne_of_gt hpos)
  rw [PriorityMemoryQueue.len_eq_card] at hlen'
  obtain ⟨y, hy⟩ := Multiset.card_pos_iff_exists_mem.mp hlen'
  rw [← queueOf_of_lookup hq'] at hy
  obtain ⟨hy, hg⟩ := (mem_queueOf h).mp hy
  exact hnamed y hy hg

theorem Safe.inSync (h : Safe fq none) (hs : Synced fq none) : InSync fq := by
  refine ⟨fun g => h.keys g (by simp), fun g w he => hs (g, w) he (by simp), fun ack seed => ?_, ?_⟩
  · refine (dequeue_spec h ack seed).mono fun r hr it hi => ?_
    rw [hi] at hr
    obtain ⟨hg, _, hne, _⟩ := hr
    obtain ⟨w, hpos, hmem⟩ := sampled_weight h hne
    have hw : w = calculateWeight ar fq.maxUnacked (fq.unacked it.group) (fq.queueOf it.group).len := by
      rw [hg]; exact hs _ hmem (by simp)
    rw [hw] at hpos
    exact (calculateWeight_pos hpos).2
  · rw [peekReady_iff h]
    constructor
    · intro hex
      obtain ⟨e, he, hpos⟩ := hex
      obtain ⟨queue, hq⟩ := (h.keys e.1 (by simp)).mp ⟨e.2, he⟩
      refine ⟨e.1, queue, hq, ?_⟩
      rw [hs e he (by simp), queueOf_of_lookup hq] at hpos
      exact hpos
    · intro hex
      obtain ⟨g, queue, hq, hpos⟩ := hex
      obtain ⟨w, he⟩ := (h.keys g (by simp)).mpr ⟨queue, hq⟩
      refine ⟨(g, w), he, ?_⟩
      rw [hs (g, w) he (by simp), queueOf_of_lookup hq]
      exact hpos

theorem call_synced (h : Safe fq none) (hs : Synced fq none) (hown : c.Own) (hk : KeepsWeights fq c) {r : Option Item}
    (hcall : fq.call c = some (r, fq')) : Safe fq' none ∧ Synced fq' none := by
  cases hc : c.limit with
  | none =>
    have hkept := (call_spec h (fun _ => hown) hc).result hcall
    exact ⟨hkept.safe, hkept.synced hs⟩
  | some m =>
    cases c <;> cases hc
    cases hcall
    exact ⟨(updateMaxUnacked_spec h (hk m rfl).1).1, updateMaxUnacked_synced hs h hk⟩

theorem weights_in_sync (h : Run call (new m) events fq) (hm : ValidLimit m) (hown : ∀ e ∈ events, e.input.Own)
    (hok : ∀ e ∈ events, KeepsWeights e.before e.input) : InSync fq := by
  have hinv := h.keeps (I := fun fq => Safe fq none ∧ Synced fq none)
    (fun e he hs hI => call_synced hI.1 hI.2 (hown e he) (hok e he) hs) ⟨new_safe hm, new_synced m⟩
  exact hinv.1.inSync hinv.2

/-- Two groups with a message ready and one unacked, and limits under which both weigh 9. -/
def sameWeights : List Call :=
  [.enqueue "a" ⟨1, 0, "a"⟩, .enqueue "a" ⟨2, 0, "a"⟩, .dequeue false 0, .updateMaxUnacked 101, .enqueue "b" ⟨3, 0, "b"⟩,
    .markUnacked "b", .updateMaxUnacked 102]

theorem sameWeights_runs : (exec call (new 100 : FairWeightedQueue) sameWeights).isSome := by decide +kernel

theorem weights_in_sync_raised :
    let r := (exec call (new 100) sameWeights).get sameWeights_runs
    r.2.weights.root.toList = [("a", 9), ("b", 9)] ∧ r.2.maxUnacked = 102 ∧ InSync r.2 := by
  refine ⟨by decide +kernel, by decide +kernel, weights_in_sync (Run.of_exec_isSome sameWeights_runs) ?_ ?_ ?_⟩
  · decide
  · decide +kernel
  · decide +kernel

/-- The weight of the group, the recomputed weight and what the queue says, after a run. -/
def observed (m : Int) (calls : List Call) : Option (Option Int × Int × Bool) :=
  (exec call (new m : FairWeightedQueue) calls).map fun r =>
    (r.2.weights.get "a", calculateWeight .float64 r.2.maxUnacked (r.2.unacked "a") (r.2.queueOf "a").len, r.2.peekReady)

/-- One of two messages is delivered. A limit raised from 1 to 5 does not let the other one
    out, and one lowered from 5 to 1 does not hold it back. -/
theorem stale_weights :
    observed 1 [.enqueue "a" ⟨1, 0, "a"⟩, .enqueue "a" ⟨2, 0, "a"⟩, .dequeue false 0, .updateMaxUnacked 5] =
      some (some 0, 8, false) ∧
    observed 5 [.enqueue "a" ⟨1, 0, "a"⟩, .enqueue "a" ⟨2, 0, "a"⟩, .dequeue false 0, .updateMaxUnacked 1] =
      some (some 8, 0, true) := by
  decide +kernel

/-! ## Starvation -/

/-- The group has a ready message and fewer unacked ones than the limit, as Go counts. -/
def Deliverable (fq : FairWeightedQueue ar) (g : String) : Prop :=
  0 < (fq.queueOf g).len ∧ (fq.maxUnacked = 0 ∨ wrap64 (fq.unacked g) < fq.maxUnacked)

structure Unstarved (fq : FairWeightedQueue ar) : Prop where
  weight : ∀ g, Deliverable fq g → ∃ w, (g, w) ∈ fq.weights.root.toList ∧ 1 ≤ w
  peek : fq.peekReady = true ↔ ∃ g, Deliverable fq g
  picked : ∀ g, Deliverable fq g → ∃ seed, ∀ ack, Returns (fq.dequeue ack seed) fun r => ∃ it, r.1 = some it ∧ it.group = g

/-- The tenfold share of the limit that is free is one or more. Plus one, the largest limit
    wraps to the least `int`, and the signs turn round. -/
def Weighs (limit unacked : Int) : Prop :=
  unacked < limit ∧ (0 < wrap64 (limit + 1) → 10 * unacked ≤ 9 * wrap64 (limit + 1)) ∧
    (wrap64 (limit + 1) < 0 → 9 * wrap64 (limit + 1) ≤ 10 * unacked)

theorem one_le_tdiv {a b : Int} (hb : 0 < b) : 1 ≤ a.tdiv b ↔ b ≤ a := by
  constructor
  · intro h
    by_contra hlt
    by_cases ha : 0 ≤ a
    · rw [Int.tdiv_eq_zero_of_lt ha (by omega)] at h; omega
    · have hneg : a.tdiv b = -(-a).tdiv b := by rw [Int.neg_tdiv, Int.neg_neg]
      have := Int.tdiv_nonneg (a := -a) (b := b) (by omega) (by omega)
      omega
  · intro h
    rw [Int.tdiv_eq_ediv_of_nonneg (by omega)]
    exact Int.le_ediv_of_mul_le hb (by omega)

theorem one_le_calculateWeight (hm : ValidLimit m) (unacked : Int) (size : Nat) :
    1 ≤ calculateWeight .exact m unacked size ↔ 0 < size ∧ Weighs (if m = 0 then maxInt64 else m) (wrap64 unacked) := by
  obtain ⟨h0, h1⟩ := hm.inForce
  unfold calculateWeight Weighs
  by_cases hsize : size = 0
  · rw [if_pos hsize]; omega
  rw [if_neg hsize]
  simp only
  generalize (if m = 0 then maxInt64 else m) = limit at h0 h1 ⊢
  generalize wrap64 unacked = u
  by_cases hle : limit ≤ u
  · rw [if_pos hle]; omega
  rw [if_neg hle]
  show 1 ≤ (10 * (wrap64 (limit + 1) - u)).tdiv (wrap64 (limit + 1)) ↔ _
  rcases wrap64_succ h0 h1 with ⟨hd, _⟩ | ⟨hd, _⟩
  · rw [hd, one_le_tdiv (by omega)]
    omega
  · rw [hd, ← Int.neg_tdiv_neg, one_le_tdiv (by decide)]
    omega

theorem queueOf_found {g : String} (h : 0 < (fq.queueOf g).len) : ∃ queue, fq.queues.lookup g = some queue := by
  cases hq : fq.queues.lookup g with
  | none =>
    unfold queueOf at h
    rw [hq] at h
    exact absurd h (by decide)
  | some queue => exact ⟨queue, rfl⟩

/-- A group that is picked has a name: the empty one stands for none. -/
theorem picked_ne_empty (h : Safe fq none) {g : String} {ack : Bool} {seed : UInt64}
    (hp : Returns (fq.dequeue ack seed) fun r => ∃ it, r.1 = some it ∧ it.group = g) : g ≠ "" := by
  obtain ⟨r, hr, it, hi, hg⟩ := hp
  obtain ⟨r', hr', hspec⟩ := dequeue_spec h ack seed
  rw [hr] at hr'; cases hr'
  rw [hi] at hspec
  rw [← hg, hspec.1]
  exact hspec.2.2.1

/-- A group with a name and a weight is picked by some seed. -/
theorem exists_seed (h : Safe fq none) (hsum : fq.weights.sum < 2 ^ 63) {g : String} {w : Int} (hg : g ≠ "")
    (he : (g, w) ∈ fq.weights.root.toList) (hw : 1 ≤ w) :
    ∃ seed, ∀ ack, Returns (fq.dequeue ack seed) fun r => ∃ it, r.1 = some it ∧ it.group = g := by
  obtain ⟨seed, hs⟩ := WeightedAVL.sample_hits h.valid h.weight hsum he (by omega)
  refine ⟨seed, fun ack => (dequeue_spec h ack seed).mono fun r hr => ?_⟩
  obtain ⟨queue, hq⟩ := (h.keys g (by simp)).mp ⟨w, he⟩
  cases hi : r.1 with
  | none =>
    rw [hi] at hr
    rcases hr.2 with hempty | hnone
    · have := FinMap.mem_entries.mpr hq
      rw [hempty] at this; cases this
    · exact absurd (hs.symm.trans hnone) hg
  | some it =>
    rw [hi] at hr
    exact ⟨it, rfl, hr.1.trans hs⟩

theorem Safe.weighs_iff {fq : FairWeightedQueue .exact} (h : Safe fq none) (hs : Synced fq none)
    (hsum : fq.weights.sum < 2 ^ 63) :
    Unstarved fq ↔ ∀ g, Deliverable fq g → g ≠ "" ∧ Weighs fq.limit (wrap64 (fq.unacked g)) := by
  have hweight : ∀ {g w}, (g, w) ∈ fq.weights.root.toList → 0 < (fq.queueOf g).len →
      (1 ≤ w ↔ Weighs fq.limit (wrap64 (fq.unacked g))) := by
    intro g w he hlen
    have hw : w = calculateWeight .exact fq.maxUnacked (fq.unacked g) (fq.queueOf g).len := hs (g, w) he (by simp)
    rw [hw, one_le_calculateWeight h.limit]
    exact and_iff_right hlen
  constructor
  · intro hu g hg
    obtain ⟨w, he, hw⟩ := hu.weight g hg
    obtain ⟨seed, hseed⟩ := hu.picked g hg
    exact ⟨picked_ne_empty h (hseed true), (hweight he hg.1).mp hw⟩
  · intro hall
    have hheavy : ∀ g, Deliverable fq g → ∃ w, (g, w) ∈ fq.weights.root.toList ∧ 1 ≤ w := by
      intro g hg
      obtain ⟨w, he⟩ := (h.keys g (by simp)).mpr (queueOf_found hg.1)
      exact ⟨w, he, (hweight he hg.1).mpr (hall g hg).2⟩
    refine ⟨hheavy, ?_, fun g hg => ?_⟩
    · rw [peekReady_iff h]
      constructor
      · intro hex
        obtain ⟨⟨g, w⟩, he, hpos⟩ := hex
        have hw : w = calculateWeight .exact fq.maxUnacked (fq.unacked g) (fq.queueOf g).len := hs (g, w) he (by simp)
        have hpos : 0 < w := hpos
        rw [hw] at hpos
        obtain ⟨hlen, hlt⟩ := calculateWeight_pos hpos
        refine ⟨g, hlen, ?_⟩
        by_cases h0 : fq.maxUnacked = 0
        · exact Or.inl h0
        · rw [if_neg h0] at hlt; exact Or.inr hlt
      · intro hex
        obtain ⟨g, hg⟩ := hex
        obtain ⟨w, he, hw⟩ := hheavy g hg
        exact ⟨(g, w), he, by simp only; omega⟩
    · obtain ⟨w, he, hw⟩ := hheavy g hg
      exact exists_seed h hsum (hall g hg).1 he hw

theorem unstarved_iff {fq : FairWeightedQueue .exact} {events : List (Event (FairWeightedQueue .exact) Call (Option Item))}
    (h : Run call (new m) events fq) (hm : ValidLimit m) (hown : ∀ e ∈ events, e.input.Own)
    (hkeep : ∀ e ∈ events, e.input.limit = none) (hsum : fq.weights.sum < 2 ^ 63) :
    Unstarved fq ↔ ∀ g, Deliverable fq g → g ≠ "" ∧ Weighs (if m = 0 then maxInt64 else m) (wrap64 (fq.unacked g)) := by
  have hinv := h.keeps (I := fun fq => Safe fq none ∧ Synced fq none ∧ fq.maxUnacked = m) (fun e he hs hI => by
    have hkept := (call_spec hI.1 (fun _ => hown e he) (hkeep e he)).result hs
    exact ⟨hkept.safe, hkept.synced hI.2.1, hkept.max.trans hI.2.2⟩) ⟨new_safe hm, new_synced m, rfl⟩
  obtain ⟨hsafe, hs, hmax⟩ := hinv
  rw [hsafe.weighs_iff hs hsum]
  unfold limit
  rw [hmax]

theorem mem_keys_of_queueOf {g : String} (h : 0 < (fq.queueOf g).len) : g ∈ fq.queues.keys := by
  obtain ⟨queue, hq⟩ := queueOf_found h
  exact AList.mem_keys.mpr (AList.lookup_isSome.mp (by rw [hq]; rfl))

/-- Twenty messages of one group, and deliveries. -/
def delivered (n : Nat) : List Call :=
  (List.range 20).map (fun i => .enqueue "a" ⟨UInt64.ofNat i, 0, "a"⟩) ++ List.replicate n (.dequeue false 0)

theorem eighteen_runs : (exec call (new 20 : FairWeightedQueue .exact) (delivered 18)).isSome := by decide +kernel

def eighteenOut : FairWeightedQueue .exact := ((exec call (new 20) (delivered 18)).get eighteen_runs).2

/-- Eighteen deliveries leave the weight `int((1 - 18/21) * 10)`. -/
theorem unstarved_eighteen :
    eighteenOut.unacked "a" = 18 ∧ (eighteenOut.queueOf "a").len = 2 ∧ eighteenOut.weights.get "a" = some 1 ∧
      Unstarved eighteenOut := by
  obtain ⟨events, hrun, hok⟩ : ∃ events, Run call (new 20) events eighteenOut ∧
      ∀ e ∈ events, e.input.Own ∧ e.input.limit = none := ⟨_, Run.of_exec_isSome eighteen_runs, by decide +kernel⟩
  have hkeys : eighteenOut.queues.keys = ["a"] := by decide +kernel
  have hunacked : eighteenOut.unacked "a" = 18 := by decide +kernel
  have hlimit : (if (20 : Int) = 0 then maxInt64 else 20) = 20 := by decide
  have hiff := unstarved_iff hrun (by decide) (fun e he => (hok e he).1) (fun e he => (hok e he).2) (by decide +kernel)
  refine ⟨hunacked, by decide +kernel, by decide +kernel, hiff.mpr fun g hg => ?_⟩
  have hmem := mem_keys_of_queueOf hg.1
  rw [hkeys] at hmem
  obtain rfl := List.mem_singleton.mp hmem
  rw [hunacked, hlimit]
  exact ⟨by decide, by decide, by decide, by decide⟩

/-- Under a limit of 20 the twentieth is not delivered: its group has the weight 0, also as
    `float64`s are rounded. -/
theorem last_tenth_starves :
    (exec call (new 20 : FairWeightedQueue .exact) (delivered 19)).map (fun r =>
      (r.2.unacked "a", (r.2.queueOf "a").len, r.2.weights.get "a", r.2.peekReady)) =
      some (19, 1, some 0, false) ∧
    (exec call (new 20 : FairWeightedQueue) (delivered 19)).map (fun r =>
      (r.2.unacked "a", (r.2.queueOf "a").len, r.2.weights.get "a", r.2.peekReady)) =
      some (19, 1, some 0, false) := by
  decide +kernel

end Doq.Memory.FairWeightedQueue
