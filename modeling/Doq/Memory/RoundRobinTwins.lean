/-
  Doq.Memory.RoundRobinTwins — two round-robin queues that cannot be told apart
  (see `Doq.Memory.RoundRobinRotation`).

  Nearly everything in the tree follows from the ready messages: which nodes there are, the
  children of each, the counts, the keys and the leaves. What does not follow is how the past
  left each node: the order of its children, and the child the next rotation starts from.
  `Twins fq fq'` says that two queues hold the same messages, count the same ones unacked
  under the same limit, and agree on those two.

  Proved: a dequeue of twins takes the same message, and every operation leaves twins.
-/

import Doq.Memory.RoundRobinFairness
import Doq.Memory.RoundRobinGroups

namespace Doq.Memory.FairRoundRobinQueue

open Lib

variable {fq fq' fq1 fq1' : FairRoundRobinQueue} {C D C' D' : Multiset Path} {p q : Path} {n n' m : GroupNode} {c : String}

/-! ## Order and start -/

/-- The children of a node in the order of its list. -/
def orderAt (fq : FairRoundRobinQueue) (p : Path) : List String := ((fq.nodes.lookup p).map (·.childrenList.toList)).getD []

/-- Node by node, the same order and the same start. -/
structure Paced (fq fq' : FairRoundRobinQueue) : Prop where
  order : ∀ p, fq'.orderAt p = fq.orderAt p
  start : ∀ p, fq'.startAt p = fq.startAt p

theorem Paced.refl (fq : FairRoundRobinQueue) : Paced fq fq := ⟨fun _ => rfl, fun _ => rfl⟩

theorem Paced.symm (h : Paced fq fq') : Paced fq' fq := ⟨fun p => (h.order p).symm, fun p => (h.start p).symm⟩

theorem Paced.trans {a b c : FairRoundRobinQueue} (h : Paced a b) (h' : Paced b c) : Paced a c :=
  ⟨fun p => (h'.order p).trans (h.order p), fun p => (h'.start p).trans (h.start p)⟩

theorem orderAt_of_lookup (hn : fq.nodes.lookup p = some n) : fq.orderAt p = n.childrenList.toList := by
  unfold orderAt; rw [hn]; rfl

theorem startAt_of_lookup (hn : fq.nodes.lookup p = some n) : fq.startAt p = n.start := by
  unfold startAt; rw [hn]; rfl

theorem orderAt_of_none (hn : fq.nodes.lookup p = none) : fq.orderAt p = [] := by
  unfold orderAt; rw [hn]; rfl

theorem startAt_of_none (hn : fq.nodes.lookup p = none) : fq.startAt p = none := by
  unfold startAt; rw [hn]; rfl

/-- Two queues with the same nodes, compared node by node. -/
theorem paced_of_nodes (hdom : ∀ p n, fq.nodes.lookup p = some n → ∃ n', fq'.nodes.lookup p = some n')
    (hnode : ∀ p n n', fq.nodes.lookup p = some n → fq'.nodes.lookup p = some n' →
      n'.childrenList.toList = n.childrenList.toList ∧ n'.start = n.start)
    (hback : ∀ p n', fq'.nodes.lookup p = some n' → ∃ n, fq.nodes.lookup p = some n) : Paced fq fq' := by
  have key : ∀ p, fq'.orderAt p = fq.orderAt p ∧ fq'.startAt p = fq.startAt p := by
    intro p
    cases hn : fq.nodes.lookup p with
    | none =>
      have hn' : fq'.nodes.lookup p = none := Option.eq_none_iff_forall_ne_some.mpr fun n' hn' => by
        obtain ⟨n, h⟩ := hback p n' hn'
        rw [hn] at h; cases h
      rw [orderAt_of_none hn, orderAt_of_none hn', startAt_of_none hn, startAt_of_none hn']
      exact ⟨rfl, rfl⟩
    | some n =>
      obtain ⟨n', hn'⟩ := hdom p n hn
      rw [orderAt_of_lookup hn, orderAt_of_lookup hn', startAt_of_lookup hn, startAt_of_lookup hn']
      exact hnode p n n' hn hn'
  exact ⟨fun p => (key p).1, fun p => (key p).2⟩

theorem NodeOk.children_nil (h : NodeOk p n) : n.children = [] ↔ n.childrenList.toList = [] := by
  rw [← List.length_eq_zero_iff, ← List.length_eq_zero_iff, h.list.length_eq]

theorem NodeOk.start_nil (h : NodeOk p n) (hl : n.childrenList.toList = []) : n.start = none := by
  cases hs : n.start with
  | none => rfl
  | some s =>
    have := h.start_mem hs
    rw [hl] at this; exact absurd this List.not_mem_nil

/-- A node with at most one child starts from it. -/
theorem NodeOk.start_lone (h : NodeOk p n) (h1 : ∀ c ∈ n.childrenList.toList, ∀ d ∈ n.childrenList.toList, c = d) :
    n.start = n.childrenList.toList.head? := by
  cases hl : n.childrenList.toList with
  | nil => exact h.start_nil hl
  | cons c l =>
    obtain ⟨s, hs⟩ := h.start_some fun e => by rw [h.children_nil.mp e] at hl; cases hl
    rw [hs, h1 s (h.start_mem hs) c (by rw [hl]; exact List.mem_cons_self)]
    rfl

/-! ## Twins -/

structure Twins (fq fq' : FairRoundRobinQueue) : Prop where
  inv : Inv False fq
  inv' : Inv False fq'
  ready : fq'.ready = fq.ready
  unacked : ∀ g, fq'.unacked g = fq.unacked g
  max : fq'.maxUnacked = fq.maxUnacked
  paced : Paced fq fq'

theorem Twins.symm (h : Twins fq fq') : Twins fq' fq :=
  ⟨h.inv', h.inv, h.ready.symm, fun g => (h.unacked g).symm, h.max.symm, h.paced.symm⟩

/-- The nodes are the paths to the ready messages. -/
theorem Inv.node_iff (h : Inv False fq) : (∃ n, fq.nodes.lookup p = some n) ↔ p = [] ∨ ∃ it ∈ fq.ready, p <+: pathOf it := by
  constructor
  · rintro ⟨n, hn⟩
    by_cases hp : p = []
    · exact Or.inl hp
    · exact Or.inr (h.ready_below hp hn)
  · rintro (rfl | ⟨it, hit, hpre⟩)
    · exact h.tree.root
    · exact h.node_of_ready hit hpre

/-- The groups of the ready messages alone decide which nodes there are. -/
theorem Inv.same_nodes (h : Inv False fq) (h' : Inv False fq') (hr : ∀ x, x ∈ fq'.readyPaths ↔ x ∈ fq.readyPaths) (p : Path) :
    (∃ n, fq'.nodes.lookup p = some n) ↔ ∃ n, fq.nodes.lookup p = some n := by
  have key : ∀ {a : FairRoundRobinQueue}, (∃ it ∈ a.ready, p <+: pathOf it) ↔ ∃ x ∈ a.readyPaths, p <+: x := by
    intro a
    simp only [readyPaths, Multiset.mem_map, exists_exists_and_eq_and]
  rw [h.node_iff, h'.node_iff, key, key]
  exact or_congr_right (exists_congr fun x => and_congr_left fun _ => hr x)

theorem Twins.paths (h : Twins fq fq') (x : Path) : x ∈ fq'.readyPaths ↔ x ∈ fq.readyPaths := by
  unfold readyPaths; rw [h.ready]

theorem Inv.len_pos_iff (h : Inv False fq) (hn : fq.nodes.lookup p = some n) :
    0 < n.queue.len ↔ ∃ it ∈ fq.ready, pathOf it = p := by
  rw [PriorityMemoryQueue.len_eq_card, Multiset.card_pos_iff_exists_mem]
  constructor
  · rintro ⟨it, hit⟩
    exact ⟨it, mem_ready.mpr ⟨p, n, hn, hit⟩, (h.tree.ok p n hn).items it hit⟩
  · rintro ⟨it, hit, rfl⟩
    obtain ⟨_, k, hk, _, hmem⟩ := h.home hit
    rw [hn] at hk; cases hk
    exact ⟨it, hmem⟩

/-- A node and its twin. -/
structure NodeTwins (n n' : GroupNode) : Prop where
  list : n'.childrenList.toList = n.childrenList.toList
  start : n'.start = n.start
  key : n'.groupKey = n.groupKey
  childless : n'.children = [] ↔ n.children = []
  child : ∀ c, c ∈ n'.children ↔ c ∈ n.children
  stocked : 0 < n'.queue.len ↔ 0 < n.queue.len

theorem NodeTwins.turns (h : NodeTwins n n') : n'.turns = n.turns := by
  unfold GroupNode.turns
  rw [h.start, h.list]

theorem NodeTwins.next (h : NodeTwins n n') (c : String) : n'.next c = n.next c := by
  rw [GroupNode.next_eq, GroupNode.next_eq, h.list]

theorem Twins.lookup (h : Twins fq fq') (hn : fq.nodes.lookup p = some n) :
    ∃ n', fq'.nodes.lookup p = some n' ∧ NodeTwins n n' := by
  obtain ⟨n', hn'⟩ := (h.inv.same_nodes h.inv' h.paths p).mpr ⟨n, hn⟩
  have hok := h.inv.tree.ok p n hn
  have hok' := h.inv'.tree.ok p n' hn'
  have hlist : n'.childrenList.toList = n.childrenList.toList := by
    rw [← orderAt_of_lookup hn, ← orderAt_of_lookup hn', h.paced.order]
  refine ⟨n', hn', hlist, ?_, ?_, ?_, fun c => ?_, ?_⟩
  · rw [← startAt_of_lookup hn, ← startAt_of_lookup hn', h.paced.start]
  · rw [h.inv.strict.key p n hn, h.inv'.strict.key p n' hn']
  · rw [hok.children_nil, hok'.children_nil, hlist]
  · rw [← hok.list.mem_iff, ← hok'.list.mem_iff, hlist]
  · rw [h.inv.len_pos_iff hn, h.inv'.len_pos_iff hn', h.ready]

/-! ## The same pick -/

theorem Twins.open (h : Twins fq fq') (ho : fq.Open p) : fq'.Open p := by
  obtain ⟨n, hn, hlt⟩ := ho
  obtain ⟨n', hn', htw⟩ := h.lookup hn
  exact ⟨n', hn', by rw [htw.key, h.unacked, h.max]; exact hlt⟩

theorem Twins.serves (h : Twins fq fq') (hs : fq.Serves p) : fq'.Serves p := by
  induction hs with
  | leaf hn hch hlen =>
    obtain ⟨n', hn', htw⟩ := h.lookup hn
    exact .leaf hn' (htw.childless.mpr hch) (htw.stocked.mpr hlen)
  | child hn hc ho _ ih =>
    obtain ⟨n', hn', htw⟩ := h.lookup hn
    exact .child hn' ((htw.child _).mpr hc) (h.open ho) ih

theorem Twins.deliverable (h : Twins fq fq') (hd : fq.Deliverable p) : fq'.Deliverable p := ⟨h.open hd.1, h.serves hd.2⟩

theorem Twins.picks (h : Twins fq fq') (hp : fq.Picks p q) : fq'.Picks p q := by
  induction hp with
  | leaf hn hch hlen =>
    obtain ⟨n', hn', htw⟩ := h.lookup hn
    exact .leaf hn' (htw.childless.mpr hch) (htw.stocked.mpr hlen)
  | child hn hch ht hskip ho _ ih =>
    obtain ⟨n', hn', htw⟩ := h.lookup hn
    exact .child hn' (fun e => hch (htw.childless.mp e)) (htw.turns.trans ht) (fun d hd hx => hskip d hd (h.symm.deliverable hx))
      (h.open ho) ih

/-- Two ways to cut a list at its first member with a property. -/
theorem first_split_unique {α : Type} {P : α → Prop} {a b : α} : ∀ {l l' r r' : List α}, l ++ a :: r = l' ++ b :: r' →
    (∀ x ∈ l, ¬ P x) → (∀ x ∈ l', ¬ P x) → P a → P b → a = b
  | [], [], _, _, h, _, _, _, _ => by cases h; rfl
  | [], x :: l', _, _, h, _, hl', ha, _ => by cases h; exact absurd ha (hl' _ List.mem_cons_self)
  | x :: l, [], _, _, h, hl, _, _, hb => by cases h; exact absurd hb (hl _ List.mem_cons_self)
  | x :: l, y :: l', _, _, h, hl, hl', ha, hb => by
    injection h with _ h
    exact first_split_unique h (fun z hz => hl z (List.mem_cons_of_mem _ hz)) (fun z hz =>
      hl' z (List.mem_cons_of_mem _ hz)) ha hb

/-- A descent ends at one leaf. -/
theorem Picks.unique (ht : Tree fq C D) {q' : Path} (h : fq.Picks p q) (h' : fq.Picks p q') : q = q' := by
  induction h with
  | leaf hn hch _ =>
    cases h' with
    | leaf => rfl
    | child hn' hch' => rw [hn] at hn'; cases hn'; exact absurd hch hch'
  | child hn hch hturns hskip ho hp ih =>
    cases h' with
    | leaf hn' hch' => rw [hn] at hn'; cases hn'; exact absurd hch' hch
    | child hn' _ hturns' hskip' ho' hp' =>
      rw [hn] at hn'; cases hn'
      obtain rfl := first_split_unique (hturns.symm.trans hturns') hskip hskip' ⟨ho, hp.serves ht⟩ ⟨ho', hp'.serves ht⟩
      exact ih hp'

/-! ## After a message left -/

/-- The start of a node that lost a child: its old start, or the new head if that was the child. -/
theorem start_pruned (hl : m.childrenList = n.childrenList.remove c)
    (hc : m.currentChild = if n.currentChild = some c then (n.childrenList.remove c).head? else n.currentChild) :
    m.start = if n.start = some c then (n.childrenList.toList.erase c).head? else n.start := by
  split
  · rename_i hs
    unfold GroupNode.start at hs ⊢
    rw [hl, hc, LinkedList.head?_eq, LinkedList.toList_remove]
    cases hcur : n.currentChild with
    | none => rw [if_neg (by simp), Option.none_or]
    | some d =>
      rw [hcur, Option.some_or] at hs
      rw [if_pos hs, Option.or_self]
  · rename_i hs
    cases hn : n.start with
    | some s => exact start_remove hn (fun e => hs (by rw [hn, e])) hl hc
    | none =>
      unfold GroupNode.start at hn ⊢
      rw [LinkedList.head?_eq] at hn
      obtain ⟨hcur, hhead⟩ := Option.or_eq_none_iff.mp hn
      rw [hl, hc, hcur, if_neg (by simp), Option.none_or, LinkedList.head?_eq, LinkedList.toList_remove,
        List.head?_eq_none_iff.mp hhead]
      rfl

/-- The child toward a node is in its parent's list. -/
theorem Tree.toward_listed (h : Tree fq C D) (hn : fq.nodes.lookup p = some n) (hq : fq.nodes.lookup q = some m)
    (hc : p ++ [c] <+: q) :
    c ∈ n.childrenList.toList := by
  obtain ⟨k, hk⟩ := h.of_prefix hc hq
  obtain ⟨n', hn', hch⟩ := h.parent p c k hk
  rw [hn] at hn'; cases hn'
  exact (h.ok p n hn).list.mem_iff.mpr hch

/-- A child that has left is not in the list of its parent. -/
theorem Tree.listed (h : Tree fq C D) (hn : fq.nodes.lookup p = some n) (hc : c ∈ n.childrenList.toList) :
    ∃ k, fq.nodes.lookup (p ++ [c]) = some k :=
  h.child p c n hn ((h.ok p n hn).list.mem_iff.mp hc)

/-- Two prunings along one path, of queues in step, to the same nodes. -/
theorem Pruned.paced (ht : Tree fq C D) (ht' : Tree fq' C' D') (hp : Paced fq fq') (hprune : Pruned fq q fq1)
    (hprune' : Pruned fq' q fq1')
    (h1 : Inv False fq1) (h1' : Inv False fq1') (hpaths : ∀ x, x ∈ fq1'.readyPaths ↔ x ∈ fq1.readyPaths)
    (hq : fq.nodes.lookup q = some n) (hq' : fq'.nodes.lookup q = some n') : Paced fq1 fq1' := by
  have hdom := h1.same_nodes h1' hpaths
  refine paced_of_nodes (fun p m hm => (hdom p).mpr ⟨m, hm⟩) (fun p m m' hm hm' => ?_) fun p m' hm' => (hdom p).mp ⟨m', hm'⟩
  obtain ⟨k, hk, hcase⟩ := hprune p m hm
  obtain ⟨k', hk', hcase'⟩ := hprune' p m' hm'
  have hlist : k'.childrenList.toList = k.childrenList.toList := by
    rw [← orderAt_of_lookup hk, ← orderAt_of_lookup hk', hp.order]
  have hstart : k'.start = k.start := by rw [← startAt_of_lookup hk, ← startAt_of_lookup hk', hp.start]
  have same : ∀ {a b : GroupNode}, a.childrenList = b.childrenList → a.currentChild = b.currentChild → a.start = b.start :=
    fun hl hc => by unfold GroupNode.start; rw [hl, hc]
  rcases hcase with ⟨hl, hc⟩ | ⟨c, hpre, hgone, hl, hc⟩
  · rcases hcase' with ⟨hl', hc'⟩ | ⟨c', hpre', hgone', hl', hc'⟩
    · rw [hl, hl', same hl hc, same hl' hc']
      exact ⟨hlist, hstart⟩
    · -- here the child is still listed, so it is still a node on both sides
      have hin : c' ∈ m.childrenList.toList := hl ▸ ht.toward_listed hk hq hpre'
      obtain ⟨x, hx⟩ := (hdom _).mpr (h1.tree.listed hm hin)
      rw [hgone'] at hx; cases hx
  · rcases hcase' with ⟨hl', hc'⟩ | ⟨c', hpre', _, hl', hc'⟩
    · have hin : c ∈ m'.childrenList.toList := hl' ▸ ht'.toward_listed hk' hq' hpre
      obtain ⟨x, hx⟩ := (hdom _).mp (h1'.tree.listed hm' hin)
      rw [hgone] at hx; cases hx
    · have e : p ++ [c] = p ++ [c'] := (List.prefix_of_prefix_length_le hpre hpre' (by simp)).eq_of_length (by simp)
      obtain rfl : c = c' := by simpa using e
      rw [start_pruned hl hc, start_pruned hl' hc', hl, hl', LinkedList.toList_remove, LinkedList.toList_remove, hlist, hstart]
      exact ⟨rfl, rfl⟩

/-! ## Dequeue -/

theorem Moved.orderAt (h : Moved fq fq') (p : Path) : fq'.orderAt p = fq.orderAt p := by
  unfold FairRoundRobinQueue.orderAt
  rw [h.nodes]
  cases fq.nodes.lookup p <;> rfl

theorem setQueue_orderAt {queue : PriorityMemoryQueue} (hn : fq.nodes.lookup q = some n) (p : Path) :
    (fq.setNode q { n with queue := queue }).orderAt p = fq.orderAt p := by
  unfold orderAt
  rw [setNode_lookup]
  split
  · rename_i e; rw [e, hn]; rfl
  · rfl

theorem setQueue_startAt {queue : PriorityMemoryQueue} (hn : fq.nodes.lookup q = some n) (p : Path) :
    (fq.setNode q { n with queue := queue }).startAt p = fq.startAt p := by
  unfold startAt
  rw [setNode_lookup]
  split
  · rename_i e; rw [e, hn]; rfl
  · rfl

theorem Popped.orderAt {it : Item} (h : Popped fq q it fq') (p : Path) : fq'.orderAt p = fq.orderAt p := by
  obtain ⟨n, queue, hn, _, _, hmv⟩ := h
  rw [hmv.orderAt, setQueue_orderAt hn]

theorem Popped.leaf {it : Item} (h : Popped fq q it fq') : ∃ n, fq'.nodes.lookup q = some n := by
  obtain ⟨n, queue, _, _, _, hmv⟩ := h
  exact ⟨_, hmv.lookup (by rw [setNode_lookup, if_pos rfl])⟩

theorem Twins.startAfter (h : Twins fq fq') (q p : Path) : fq'.startAfter [] q p = fq.startAfter [] q p := by
  unfold FairRoundRobinQueue.startAfter
  split
  · rename_i c _
    cases hn : fq.nodes.lookup p with
    | none =>
      have hn' : fq'.nodes.lookup p = none := Option.eq_none_iff_forall_ne_some.mpr fun n' hn' => by
        obtain ⟨n, hl, _⟩ := h.symm.lookup hn'
        rw [hn] at hl; cases hl
      rw [hn']
    | some n =>
      obtain ⟨n', hn', htw⟩ := h.lookup hn
      rw [hn']
      exact htw.next c
  · exact h.paced.start p

/-- Twins deliver the same message, and stay in step. -/
theorem Twins.dequeue (h : Twins fq fq') {ack : Bool} {it it' : Option Item} (hd : fq.dequeue ack = some (it, fq1))
    (hd' : fq'.dequeue ack = some (it', fq1')) : it' = it ∧ Paced fq1 fq1' := by
  have hpick := (h.inv.safe.dequeue_picks ack).result hd
  have hpick' := (h.inv'.safe.dequeue_picks ack).result hd'
  have hinv := (h.inv.dequeue ack).result hd
  have hinv' := (h.inv'.dequeue ack).result hd'
  cases it with
  | none =>
    cases it' with
    | none =>
      refine ⟨rfl, fun p => ?_, fun p => ?_⟩
      · rw [hpick.2.1.orderAt, hpick'.2.1.orderAt, h.paced.order]
      · rw [hpick.2.2, hpick'.2.2, h.paced.start]
    | some y => exact absurd (h.symm.serves (hpick'.1.serves h.inv'.tree)) hpick.1
  | some x =>
    cases it' with
    | none => exact absurd (h.serves (hpick.1.serves h.inv.tree)) hpick'.1
    | some y =>
      have hready : fq.ready = x ::ₘ fq1.ready := hinv.2.2.1
      have hready' : fq'.ready = y ::ₘ fq1'.ready := hinv'.2.2.1
      have hx : x ∈ fq.ready := hready ▸ Multiset.mem_cons_self _ _
      have hy : y ∈ fq.ready := h.ready ▸ hready' ▸ Multiset.mem_cons_self _ _
      have hpath : pathOf x = pathOf y := (h.picks hpick.1).unique h.inv'.tree hpick'.1
      have hgroup : x.group = y.group := Dotted.split_inj hpath
      -- both come first in the group
      have hxy := h.inv.picked_least hpick.2 hy hgroup.symm
      have hyx := h.inv'.picked_least hpick'.2 (h.ready ▸ hx) hgroup
      have hid : y.id = x.id := by
        rcases hxy with hlt | ⟨heq, hle⟩
        · rcases hyx with hlt' | ⟨heq', _⟩ <;> omega
        · rcases hyx with hlt' | ⟨_, hle'⟩
          · omega
          · exact UInt64.le_antisymm hle' hle
      have hpriority : y.priority = x.priority := by
        rcases hxy with hlt | ⟨heq, _⟩
        · rcases hyx with hlt' | ⟨heq', _⟩ <;> omega
        · exact heq.symm
      obtain rfl : y = x := by
        cases x; cases y
        cases hid; cases hpriority; cases hgroup
        rfl
      obtain ⟨mid, hpop, hst, hprune⟩ := hpick.2
      obtain ⟨mid', hpop', hst', hprune'⟩ := hpick'.2
      obtain ⟨k, hk⟩ := hpop.leaf
      obtain ⟨k', hk'⟩ := hpop'.leaf
      have hmid : Paced mid mid' := by
        refine ⟨fun p => ?_, fun p => ?_⟩
        · rw [hpop.orderAt, hpop'.orderAt, h.paced.order]
        · rw [hst, hst', h.startAfter]
      refine ⟨rfl, hprune.paced (hpop.tree h.inv.tree) (hpop'.tree h.inv'.tree) hmid hprune' hinv.1 hinv'.1 (fun p => ?_) hk hk'⟩
      have hrest : fq1'.ready = fq1.ready := by
        refine (Multiset.cons_inj_right y).mp ?_
        rw [← hready, ← hready', h.ready]
      unfold readyPaths
      rw [hrest]

/-! ## Delete -/

/-- A delete takes the message out of its leaf, and prunes the way to it. -/
theorem Inv.delete_prunes (h : Inv False fq) (group : String) (id : UInt64) :
    Returns (fq.delete group id) fun r => ∀ it, r.1 = some it → ∃ mid, Tree mid fq.readyPaths fq.readyPaths ∧ Paced fq mid ∧
      (∃ n, mid.nodes.lookup (pathOf it) = some n) ∧ Pruned mid (pathOf it) r.2 := by
  refine delete_returns h.tree nofun fun leaf n it queue hl hn hf hsh => ?_
  have hok := h.tree.ok leaf n hn
  have hleaf : pathOf it = leaf := hok.items it hf.mem
  subst hleaf
  have ht := h.tree.setNode hn { n with queue := queue } rfl rfl (hok.shrink hsh)
  obtain ⟨rest, hr, hr'⟩ := ready_split hn
  have hpaths : fq.readyPaths = pathOf it ::ₘ (fq.setNode (pathOf it) { n with queue := queue }).readyPaths := by
    unfold readyPaths
    rw [hr, hr', hsh.held, Multiset.cons_add, Multiset.map_cons]
  refine (leafLost_pruned (hpaths ▸ ht) (pathOf_ne_nil it) (le_refl _)).mono fun fq2 hprune x hx => ?_
  cases hx
  exact ⟨_, ht, ⟨setQueue_orderAt hn, setQueue_startAt hn⟩, ⟨_, by rw [setNode_lookup, if_pos rfl]⟩, hprune⟩

theorem Twins.delete (h : Twins fq fq') {group : String} {id : UInt64} {it : Item} (hd : fq.delete group id = some (some it, fq1))
    (hd' : fq'.delete group id = some (some it, fq1')) : Paced fq1 fq1' := by
  obtain ⟨mid, ht, hp, ⟨n, hn⟩, hprune⟩ := (h.inv.delete_prunes group id).result hd it rfl
  obtain ⟨mid', ht', hp', ⟨n', hn'⟩, hprune'⟩ := (h.inv'.delete_prunes group id).result hd' it rfl
  obtain ⟨hinv, _, _, _, hready⟩ := (h.inv.delete group id).result hd
  obtain ⟨hinv', _, _, _, hready'⟩ := (h.inv'.delete group id).result hd'
  refine hprune.paced ht ht' ((hp.symm.trans h.paced).trans hp') hprune' hinv hinv' (fun p => ?_) hn hn'
  have hrest : fq1'.ready = fq1.ready := by
    refine (Multiset.cons_inj_right it).mp ?_
    rw [← hready, ← hready', h.ready]
  unfold readyPaths
  rw [hrest]

/-! ## Enqueue -/

theorem start_appended (hl : m.childrenList = n.childrenList.append c) (hc : m.currentChild = n.currentChild) :
    m.start = n.start.or (some c) := by
  unfold GroupNode.start
  rw [hl, hc, LinkedList.head?_eq, LinkedList.head?_eq, LinkedList.toList_append, List.head?_append, Option.or_assoc]
  rfl

/-- Lists of the same members, with at most one. -/
theorem eq_of_single {l l' : List String} (hl : l.Nodup) (hl' : l'.Nodup) (hm : ∀ c, c ∈ l' ↔ c ∈ l)
    (h1 : ∀ c ∈ l, ∀ d ∈ l, c = d) :
    l' = l := by
  have hperm : l'.Perm l := (List.perm_ext_iff_of_nodup hl' hl).mpr hm
  match l with
  | [] => exact hperm.eq_nil
  | [c] => exact List.perm_singleton.mp hperm
  | c :: d :: l =>
    have e := h1 c List.mem_cons_self d (List.mem_cons_of_mem _ List.mem_cons_self)
    rw [e] at hl
    exact absurd List.mem_cons_self (List.nodup_cons.mp hl).1

section Enqueue

variable {group : String} {item : Item}

theorem pathOf_good (hg : GoodGroup group) : pathOf { item with group := group } = Dotted.split (groupOf group) := by
  rw [hg.groupOf]; rfl

/-- A node an enqueue made lies on the way to the message, and so does its one child. -/
theorem Inv.enqueue_made (h : Inv False fq) (hg : GoodGroup group)
    (hn : fq.nodes.lookup p = none) (hm : (fq.enqueue group item).nodes.lookup p = some m) (hc : c ∈ m.childrenList.toList) :
    p ++ [c] <+: Dotted.split (groupOf group) := by
  obtain ⟨hinv, hready, _⟩ := h.enqueue_any hg item
  rcases hinv.node_iff.mp (hinv.tree.listed hm hc) with he | ⟨it, hit, hpre⟩
  · simp at he
  · rw [hready] at hit
    rcases Multiset.mem_cons.mp hit with rfl | hit
    · exact pathOf_good hg ▸ hpre
    · obtain ⟨k, hk⟩ := h.node_of_ready hit ((List.prefix_append p [c]).trans hpre)
      rw [hn] at hk; cases hk

theorem Twins.enqueue (h : Twins fq fq') (hg : GoodGroup group) : Paced (fq.enqueue group item) (fq'.enqueue group item) := by
  obtain ⟨hinv, hready, _⟩ := h.inv.enqueue_any hg item
  obtain ⟨hinv', hready', _⟩ := h.inv'.enqueue_any hg item
  have hpaths : ∀ x, x ∈ (fq'.enqueue group item).readyPaths ↔ x ∈ (fq.enqueue group item).readyPaths := fun x => by
    unfold readyPaths; rw [hready, hready', h.ready]
  have hdom := hinv.same_nodes hinv' hpaths
  refine paced_of_nodes (fun p m hm => (hdom p).mpr ⟨m, hm⟩) (fun p m m' hm hm' => ?_) fun p m' hm' => (hdom p).mp ⟨m', hm'⟩
  -- the children of the two are the same, being the same nodes
  have hmem : ∀ c, c ∈ m'.childrenList.toList ↔ c ∈ m.childrenList.toList := fun c => by
    constructor
    · intro hc
      obtain ⟨k, hk⟩ := (hdom _).mp (hinv'.tree.listed hm' hc)
      exact hinv.tree.toward_listed hm hk List.prefix_rfl
    · intro hc
      obtain ⟨k, hk⟩ := (hdom _).mpr (hinv.tree.listed hm hc)
      exact hinv'.tree.toward_listed hm' hk List.prefix_rfl
  cases hn : fq.nodes.lookup p with
  | none =>
    have hok := hinv.tree.ok p m hm
    have hok' := hinv'.tree.ok p m' hm'
    have hone : ∀ c ∈ m.childrenList.toList, ∀ d ∈ m.childrenList.toList, c = d := fun c hc d hd => by
      have hcx := h.inv.enqueue_made hg hn hm hc
      have hdx := h.inv.enqueue_made hg hn hm hd
      have e : p ++ [c] = p ++ [d] := (List.prefix_of_prefix_length_le hcx hdx (by simp)).eq_of_length (by simp)
      simpa using e
    have hlist := eq_of_single (hok.list.nodup_iff.mpr hok.nodup) (hok'.list.nodup_iff.mpr hok'.nodup) hmem hone
    exact ⟨hlist, by rw [hok.start_lone hone, hok'.start_lone (hlist ▸ hone), hlist]⟩
  | some n =>
    obtain ⟨n', hn', htw⟩ := h.lookup hn
    obtain ⟨k, hk, hext⟩ := h.inv.safe.enqueue_order group item hn
    obtain ⟨k', hk', hext'⟩ := h.inv'.safe.enqueue_order group item hn'
    rw [hm] at hk; cases hk
    rw [hm'] at hk'; cases hk'
    have same : ∀ {a b : GroupNode}, SameOrder a b → b.start = a.start := fun hs => by
      unfold GroupNode.start; rw [hs.list, hs.cursor]
    have hok := h.inv.tree.ok p n hn
    have hok' := h.inv'.tree.ok p n' hn'
    rcases hext with hs | ⟨z, hz, hnew, _, hl, hc⟩
    · rcases hext' with hs' | ⟨z', _, hnew', _, hl', _⟩
      · rw [same hs, same hs', hs.list, hs'.list]
        exact ⟨htw.list, htw.start⟩
      · refine absurd ((htw.child z').mpr (hok.list.mem_iff.mp ?_)) hnew'
        rw [← hs.list, ← hmem, hl', LinkedList.toList_append]; simp
    · rcases hext' with hs' | ⟨z', hz', hnew', _, hl', hc'⟩
      · refine absurd ((htw.child z).mp (hok'.list.mem_iff.mp ?_)) hnew
        rw [← hs'.list, hmem, hl, LinkedList.toList_append]; simp
      · have e : p ++ [z] = p ++ [z'] := (List.prefix_of_prefix_length_le hz hz' (by simp)).eq_of_length (by simp)
        obtain rfl : z = z' := by simpa using e
        rw [start_appended hl hc, start_appended hl' hc', hl, hl', LinkedList.toList_append, LinkedList.toList_append,
          htw.list, htw.start]
        exact ⟨rfl, rfl⟩

end Enqueue

/-! ## Operations that leave the order alone -/

theorem KeepsOrder.paced (hk : KeepsOrder fq fq1) (h : Inv False fq) (h1 : Inv False fq1)
    (hpaths : ∀ x, x ∈ fq1.readyPaths ↔ x ∈ fq.readyPaths) : Paced fq fq1 := by
  refine paced_of_nodes (fun p n hn => (h.same_nodes h1 hpaths p).mpr ⟨n, hn⟩) (fun p n n' hn hn' => ?_)
    fun p n' hn' => (h.same_nodes h1 hpaths p).mp ⟨n', hn'⟩
  obtain ⟨m, hm, hs⟩ := hk p n hn
  rw [hn'] at hm; cases hm
  unfold GroupNode.start
  rw [hs.list, hs.cursor]
  exact ⟨rfl, rfl⟩

theorem updateMaxUnacked_keepsOrder (fq : FairRoundRobinQueue) (maxUnacked : Int) :
    KeepsOrder fq (fq.updateMaxUnacked maxUnacked) := by
  have fold : ∀ (leaves : List Path) (fq1 : FairRoundRobinQueue), KeepsOrder fq1 (leaves.foldl refreshLeafReady fq1) := by
    intro leaves
    induction leaves with
    | nil => exact KeepsOrder.refl
    | cons leaf leaves ih => exact fun fq1 => (refresh_keepsOrder fq1 leaf).trans (ih _)
  exact fold _ { fq with maxUnacked := limitOf maxUnacked }

theorem Inv.updateWeights_paced (h : Inv False fq) (group : String) : Paced fq (fq.updateWeights group) := by
  obtain ⟨hinv, hready, _⟩ := h.updateWeights group
  exact (updateWeights_keepsOrder fq group).paced h hinv fun x => by unfold readyPaths; rw [hready]

theorem Inv.updateMaxUnacked_paced (h : Inv False fq) (maxUnacked : Int) : Paced fq (fq.updateMaxUnacked maxUnacked) := by
  obtain ⟨hinv, hready, _⟩ := h.updateMaxUnacked maxUnacked
  exact (updateMaxUnacked_keepsOrder fq maxUnacked).paced h hinv fun x => by unfold readyPaths; rw [hready]

theorem Inv.updatePriority_paced (h : Inv False fq) {group : String} {id : UInt64} {v : Int}
    (hu : fq.updatePriority group id v = some fq1) :
    Paced fq fq1 := by
  obtain ⟨hinv, _, _, hcase⟩ := (h.updatePriority group id v).result hu
  refine (updatePriority_keepsOrder hu).paced h hinv fun x => ?_
  unfold readyPaths
  rcases hcase with ⟨_, hr⟩ | ⟨it, rest, _, hr, hr'⟩
  · rw [hr]
  · rw [hr, hr', Multiset.map_cons, Multiset.map_cons]
    rfl

end Doq.Memory.FairRoundRobinQueue
