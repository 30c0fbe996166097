/-
  Doq.Memory.RoundRobinSafe — the operations of the round-robin queue on any groups and
  ids (see `Doq.Memory.RoundRobin`, `Doq.Memory.RoundRobinTree`).

  `Safe` is the tree with counts that cover the ready messages. Proved: `Enqueue`,
  `Dequeue`, `Delete` and the others do not panic, keep `Safe`, and change the ready
  messages as their names say.
-/

import Doq.Memory.RoundRobinRotation

namespace Doq.Memory.FairRoundRobinQueue

open Lib

variable {fq fq' : FairRoundRobinQueue} {C C' D : Multiset Path} {p q : Path} {n : GroupNode}

/-! ## Dequeue and Delete -/

theorem dequeue_returns {ack : Bool} {R : Option Item × FairRoundRobinQueue → Prop} (h : Tree fq C D)
    (hnone : ∀ fq1, ¬ fq.Serves [] → Moved fq fq1 → (∀ r, fq1.startAt r = fq.startAt r) → R (none, fq1))
    (hsome : ∀ it q fq1, fq.Picks [] q → Popped fq q it fq1 → (∀ r, fq1.startAt r = fq.startAfter [] q r) →
      Returns ((fq1.charge ack it.group).groupLost it.group) fun fq2 =>
      R (some it, { fq2 with totalMessages := fq2.totalMessages - 1 })) : Returns (fq.dequeue ack) R := by
  obtain ⟨r, hr⟩ := h.root
  unfold dequeue
  refine (dequeueFromNode_spec _ h hr (by simp)).bind fun ⟨item, fq1⟩ ho => ?_
  cases item with
  | none => exact .intro (hnone fq1 ho.1 ho.2.1 ho.2.2)
  | some it =>
    obtain ⟨q, hpick, hp, hst⟩ := ho
    exact (hsome it q fq1 hpick hp hst).bind fun fq2 h2 => .intro h2

theorem delete_returns {group : String} {id : UInt64} {R : Option Item × FairRoundRobinQueue → Prop} (h : Tree fq C D)
    (hnone : R (none, fq))
    (hsome : ∀ leaf n it queue, fq.groupKeyToLeaf.lookup group = some leaf → fq.nodes.lookup leaf = some n →
      n.queue.Found id it → n.queue.Shrunk it queue →
      Returns ((fq.setNode leaf { n with queue := queue }).leafLost leaf) fun fq2 =>
        R (some it, { fq2 with totalMessages := fq2.totalMessages - 1 })) : Returns (fq.delete group id) R := by
  unfold delete
  split
  · exact .intro hnone
  · rename_i leaf hl
    split
    · exact .intro hnone
    · rename_i n hn
      have hs := (h.ok leaf n hn).sound
      rcases hs.missing_or_found id with hm | ⟨it, hf⟩
      · exact .bind_eq (PriorityMemoryQueue.delete_missing hm) (.intro hnone)
      · obtain ⟨queue, hd, hsh⟩ := PriorityMemoryQueue.delete_found hf hs
        exact .bind_eq hd ((hsome leaf n it queue hl hn hf hsh).bind fun fq2 h2 => .intro h2)

/-- The invariant that survives any groups and ids. -/
structure Safe (fq : FairRoundRobinQueue) : Prop where
  tree : ∃ C, Tree fq C C ∧ fq.readyPaths ≤ C
  total : fq.totalMessages = fq.ready.card

theorem new_tree (maxUnacked : Int) : Tree (new maxUnacked) 0 0 where
  root := ⟨_, rfl⟩
  child p c n hn hc := by
    simp only [new, FinMap.lookup_insert_eq] at hn
    split at hn
    · cases hn; simp [GroupNode.new] at hc
    · cases hn
  parent p c m hm := by
    simp only [new, FinMap.lookup_insert_eq] at hm
    rw [if_neg (by simp)] at hm
    cases hm
  ok p n hn := by
    simp only [new, FinMap.lookup_insert_eq] at hn
    split at hn
    · cases hn; exact nodeOk_new _ _
    · cases hn
  count p n hn := by
    simp only [new, FinMap.lookup_insert_eq] at hn
    split at hn
    · cases hn; rfl
    · cases hn
  here x hx := absurd hx (Multiset.notMem_zero x)
  live p n hp hn := by
    simp only [new, FinMap.lookup_insert_eq, if_neg hp] at hn
    cases hn
  leaf g p hp := by cases hp

theorem new_ready (maxUnacked : Int) : (new maxUnacked).ready = 0 := rfl

theorem new_safe (maxUnacked : Int) : Safe (new maxUnacked) :=
  ⟨⟨0, new_tree maxUnacked, by simp [readyPaths, new_ready]⟩, by simp [new_ready]; rfl⟩

theorem Safe.enqueue (h : Safe fq) (group : String) (item : Item) :
    Safe (fq.enqueue group item) ∧ (fq.enqueue group item).ready = filed group item ::ₘ fq.ready := by
  obtain ⟨C, ht, hc⟩ := h.tree
  obtain ⟨ht', hr⟩ := enqueue_tree ht group item
  refine ⟨⟨⟨_, ht', ?_⟩, ?_⟩, hr⟩
  · unfold readyPaths; rw [hr, Multiset.map_cons]; exact Multiset.cons_le_cons _ hc
  · rw [(enqueue_fields fq group item).2.2.2, hr, Multiset.card_cons, h.total]; simp

theorem leafLost_safe {x : Path} (h : Tree fq (x ::ₘ C) (x ::ₘ C)) (hx : x ≠ []) (hcov : fq.readyPaths ≤ C) :
    Returns (fq.leafLost x) fun fq' => Tree fq' C C ∧ fq'.ready = fq.ready ∧ Counters fq fq' :=
  (leafLost_rule (I := fun _ _ => True) (J := fun _ => True) (fun _ _ _ _ _ _ _ _ _ _ _ => trivial) (fun _ _ _ _ => trivial)
    h hx hcov trivial).mono fun _ ⟨a, b, c, _⟩ => ⟨a, b, c⟩

theorem pathOf_ne_nil (it : Item) : pathOf it ≠ [] := Dotted.split_ne_nil _

/-- A ready message's path is counted. -/
theorem counted_split {it : Item} {rest : Multiset Item} (hc : (it ::ₘ rest).map pathOf ≤ C) :
    ∃ C', C = pathOf it ::ₘ C' ∧ rest.map pathOf ≤ C' := by
  rw [Multiset.map_cons] at hc
  obtain ⟨C', rfl⟩ := Multiset.exists_cons_of_mem (Multiset.mem_of_le hc (Multiset.mem_cons_self _ _))
  exact ⟨C', rfl, (Multiset.cons_le_cons_iff _).mp hc⟩

theorem charge_tree (h : Tree fq C D) (ack : Bool) (group : String) : Tree (fq.charge ack group) C D := by
  unfold charge
  split
  · exact h
  · exact h.congr rfl rfl

@[simp] theorem charge_ready (fq : FairRoundRobinQueue) (ack : Bool) (group : String) :
    (fq.charge ack group).ready = fq.ready := by
  unfold charge; split <;> rfl

@[simp] theorem charge_leaf (fq : FairRoundRobinQueue) (ack : Bool) (group : String) :
    (fq.charge ack group).groupKeyToLeaf = fq.groupKeyToLeaf := by unfold charge; split <;> rfl

@[simp] theorem charge_total (fq : FairRoundRobinQueue) (ack : Bool) (group : String) :
    (fq.charge ack group).totalMessages = fq.totalMessages := by unfold charge; split <;> rfl

theorem Safe.dequeue (h : Safe fq) (ack : Bool) :
    Returns (fq.dequeue ack) fun r => Safe r.2 ∧
      match r.1 with
      | none => r.2.ready = fq.ready
      | some it => fq.ready = it ::ₘ r.2.ready := by
  obtain ⟨C, ht, hc⟩ := h.tree
  refine dequeue_returns ht (fun fq1 _ hm _ => ?_) fun it q fq1 _ hp _ => ?_
  · refine ⟨⟨⟨C, ht.moved hm, ?_⟩, ?_⟩, hm.ready⟩
    · unfold readyPaths; rw [hm.ready]; exact hc
    · rw [hm.frame.total, hm.ready, h.total]
  · have hr := hp.ready
    unfold readyPaths at hc
    rw [hr] at hc
    obtain ⟨C', rfl, hc'⟩ := counted_split hc
    have ht1 := charge_tree (hp.tree ht) ack it.group
    have htot : (fq1.charge ack it.group).totalMessages = fq1.ready.card + 1 := by
      rw [charge_total, hp.frame.total, h.total, hr, Multiset.card_cons]; simp
    unfold groupLost
    rw [charge_leaf]
    split
    · refine .intro ⟨⟨⟨_, ht1.congr rfl rfl, ?_⟩, ?_⟩, ?_⟩
      · show (fq1.charge ack it.group).readyPaths ≤ _
        unfold readyPaths; rw [charge_ready]
        exact hc'.trans (Multiset.le_cons_self _ _)
      · show _ - 1 = ((fq1.charge ack it.group).ready.card : Int)
        rw [htot, charge_ready]; omega
      · show fq.ready = it ::ₘ (fq1.charge ack it.group).ready
        rw [charge_ready]; exact hr
    · rename_i leaf hl
      have hleaf : leaf = pathOf it := (hp.tree ht).leaf _ _ hl
      subst hleaf
      refine (leafLost_safe ht1 (pathOf_ne_nil it) (by unfold readyPaths; rw [charge_ready]; exact hc')).mono
        fun fq2 ⟨h1, h2, h3⟩ => ?_
      rw [charge_ready] at h2
      refine ⟨⟨⟨C', h1.congr rfl rfl, ?_⟩, ?_⟩, ?_⟩
      · show fq2.readyPaths ≤ C'
        unfold readyPaths; rw [h2]; exact hc'
      · show fq2.totalMessages - 1 = (fq2.ready.card : Int)
        rw [h3.total, htot, h2]; omega
      · show fq.ready = it ::ₘ fq2.ready
        rw [h2]; exact hr

/-! ## Where a delivery leaves the lists and cursors -/

/-- The nodes left on the way to `q` after its leaf lost a message: each keeps its list and
    its cursor, or lost the child toward `q`, and the cursor if it stood there. -/
def Pruned (fq : FairRoundRobinQueue) (q : Path) (fq' : FairRoundRobinQueue) : Prop :=
  ∀ r m, fq'.nodes.lookup r = some m → ∃ n, fq.nodes.lookup r = some n ∧
    (m.childrenList = n.childrenList ∧ m.currentChild = n.currentChild ∨
      ∃ c, r ++ [c] <+: q ∧ fq'.nodes.lookup (r ++ [c]) = none ∧ m.childrenList = n.childrenList.remove c ∧
        m.currentChild = if n.currentChild = some c then (n.childrenList.remove c).head? else n.currentChild)

theorem Pruned.refl (fq : FairRoundRobinQueue) (q : Path) : Pruned fq q fq :=
  fun _ m hm => ⟨m, hm, Or.inl ⟨rfl, rfl⟩⟩

/-- Counts, flags and queues do not matter. -/
theorem Pruned.map {fq2 : FairRoundRobinQueue} (h : Pruned fq q fq') (g : Path → GroupNode → GroupNode)
    (hl : ∀ r, fq2.nodes.lookup r = (fq'.nodes.lookup r).map (g r))
    (hg : ∀ r n, (g r n).childrenList = n.childrenList ∧ (g r n).currentChild = n.currentChild) : Pruned fq q fq2 := by
  intro r m hm
  rw [hl, Option.map_eq_some_iff] at hm
  obtain ⟨k, hk, rfl⟩ := hm
  obtain ⟨n, hn, hcase⟩ := h r k hk
  refine ⟨n, hn, ?_⟩
  rw [(hg r k).1, (hg r k).2]
  rcases hcase with hsame | ⟨c, hq, hnone, hrest⟩
  · exact Or.inl hsame
  · exact Or.inr ⟨c, hq, by rw [hl, hnone]; rfl, hrest⟩

theorem Pruned.unlink {parent child : GroupNode} {c : String} (h : Pruned fq q fq') (hp : fq'.nodes.lookup p = some parent)
    (hch : fq'.nodes.lookup (p ++ [c]) = some child) (hq : p ++ [c] <+: q) : Pruned fq q (fq'.unlink p parent child c) := by
  intro r m hm
  rw [unlink_lookup] at hm
  split at hm
  · rename_i e
    subst e; cases hm
    obtain ⟨n, hn, hcase⟩ := h r parent hp
    rcases hcase with ⟨hl, hc⟩ | ⟨c', hq', hnone, _⟩
    · refine ⟨n, hn, Or.inr ⟨c, hq, ?_, by simp only [hl], by simp only [hl, hc]⟩⟩
      rw [unlink_lookup, if_neg (by simp), if_pos rfl]
    · -- the child toward `q` is still there, so nothing was unlinked here before
      have e : r ++ [c'] = r ++ [c] := (List.prefix_of_prefix_length_le hq' hq (by simp)).eq_of_length (by simp)
      rw [e, hch] at hnone; cases hnone
  · split at hm
    · cases hm
    · obtain ⟨n, hn, hcase⟩ := h r m hm
      refine ⟨n, hn, hcase.imp_right fun ⟨c', hq', hnone, hrest⟩ => ⟨c', hq', ?_, hrest⟩⟩
      rw [unlink_lookup, if_neg fun e => by rw [e, hp] at hnone; cases hnone]
      split
      · rfl
      · exact hnone

theorem leafLost_pruned {x : Path} (h : Tree fq (x ::ₘ C) (x ::ₘ C)) (hx : x ≠ []) (hcov : fq.readyPaths ≤ C) :
    Returns (fq.leafLost x) fun fq' => Pruned fq x fq' := by
  refine (leafLost_rule (I := fun fq' p => Pruned fq x fq' ∧ p <+: x) (J := fun fq' => Pruned fq x fq')
    (fun fq' p c parent child _ hp _ hch _ hI => ⟨hI.1.unlink hp hch hI.2, (List.prefix_append _ _).trans hI.2⟩)
    (fun fq' p _ hI => hI.1.map _ (refresh_lookup fq' p) fun r n => by split <;> exact ⟨rfl, rfl⟩) h hx hcov
    ⟨(Pruned.refl fq x).map _ (addCount_lookup (-1) x.reverse fq) fun r n => by split <;> exact ⟨rfl, rfl⟩, List.prefix_rfl⟩).mono
    fun fq' h' => h'.2.2.2

/-- Which message a dequeue takes, and how it leaves the tree. -/
theorem Safe.dequeue_picks (h : Safe fq) (ack : Bool) :
    Returns (fq.dequeue ack) fun r =>
      match r.1 with
      | none => ¬ fq.Serves [] ∧ Moved fq r.2 ∧ ∀ p, r.2.startAt p = fq.startAt p
      | some it => fq.Picks [] (pathOf it) ∧ ∃ fq1, Popped fq (pathOf it) it fq1 ∧
          (∀ p, fq1.startAt p = fq.startAfter [] (pathOf it) p) ∧ Pruned fq1 (pathOf it) r.2 := by
  obtain ⟨C, ht, hc⟩ := h.tree
  refine dequeue_returns ht (fun fq1 hno hm hst => ⟨hno, hm, hst⟩) fun it q fq1 hpick hp hst => ?_
  have hpath := hp.path ht
  subst hpath
  have hr := hp.ready
  unfold readyPaths at hc
  rw [hr] at hc
  obtain ⟨C', rfl, hc'⟩ := counted_split hc
  have ht1 := charge_tree (hp.tree ht) ack it.group
  have hlookup : ∀ r, (fq1.charge ack it.group).nodes.lookup r = fq1.nodes.lookup r := fun r => by
    unfold charge; split <;> rfl
  unfold groupLost
  rw [charge_leaf]
  split
  · refine .intro ⟨hpick, fq1, hp, hst, (Pruned.refl fq1 _).map (fun _ n => n) (fun r => ?_) fun _ _ => ⟨rfl, rfl⟩⟩
    show (fq1.charge ack it.group).nodes.lookup r = _
    rw [hlookup, Option.map_id']
  · rename_i leaf hl
    have hleaf : leaf = pathOf it := (hp.tree ht).leaf _ _ hl
    subst hleaf
    refine (leafLost_pruned ht1 (pathOf_ne_nil it) (by unfold readyPaths; rw [charge_ready]; exact hc')).mono fun fq2 h2 =>
      ⟨hpick, fq1, hp, hst, fun r m hm => ?_⟩
    obtain ⟨n, hn, hcase⟩ := h2 r m hm
    exact ⟨n, by rw [← hlookup]; exact hn, hcase⟩

/-- A dequeue returns a message exactly when the root serves. -/
theorem Safe.dequeue_iff (h : Safe fq) (ack : Bool) : (∃ it fq', fq.dequeue ack = some (some it, fq')) ↔ fq.Serves [] := by
  obtain ⟨C, ht, _⟩ := h.tree
  obtain ⟨⟨item, fq'⟩, he, hr⟩ := h.dequeue_picks ack
  cases item with
  | none =>
    refine ⟨fun ⟨it, fq2, h2⟩ => ?_, fun hs => absurd hs hr.1⟩
    rw [he] at h2; cases h2
  | some it => exact ⟨fun _ => hr.1.serves ht, fun _ => ⟨it, fq', he⟩⟩

theorem Safe.delete (h : Safe fq) (group : String) (id : UInt64) :
    Returns (fq.delete group id) fun r => Safe r.2 ∧
      match r.1 with
      | none => r.2 = fq
      | some it => it.id = id ∧ fq.ready = it ::ₘ r.2.ready := by
  obtain ⟨C, ht, hc⟩ := h.tree
  refine delete_returns ht ⟨h, rfl⟩ fun leaf n it queue hl hn hf hsh => ?_
  have hok := ht.ok leaf n hn
  have ht1 := ht.setNode hn { n with queue := queue } rfl rfl (hok.shrink hsh)
  obtain ⟨rest, hr, hr'⟩ := ready_split hn
  have hr1 : fq.ready = it ::ₘ (fq.setNode leaf { n with queue := queue }).ready := by
    rw [hr, hr', hsh.held, Multiset.cons_add]
  have hleaf : pathOf it = leaf := hok.items it hf.mem
  subst hleaf
  unfold readyPaths at hc
  rw [hr1] at hc
  obtain ⟨C', rfl, hc'⟩ := counted_split hc
  refine (leafLost_safe ht1 (pathOf_ne_nil it) hc').mono fun fq2 ⟨h1, h2, h3⟩ =>
    ⟨⟨⟨C', h1.congr rfl rfl, ?_⟩, ?_⟩, hf.id_eq hok.sound, ?_⟩
  · show fq2.readyPaths ≤ C'
    unfold readyPaths; rw [h2]; exact hc'
  · show fq2.totalMessages - 1 = (fq2.ready.card : Int)
    have htot : (fq.setNode (pathOf it) { n with queue := queue }).totalMessages = fq.ready.card := h.total
    rw [h3.total, htot, hr1, h2, Multiset.card_cons]; simp
  · show fq.ready = it ::ₘ fq2.ready
    rw [h2]; exact hr1

/-! ## The other operations -/

theorem Safe.get (h : Safe fq) (group : String) (id : UInt64) :
    Returns (fq.get group id) fun r => ∀ it, r = some it → it.id = id ∧ it ∈ fq.ready := by
  obtain ⟨C, ht, _⟩ := h.tree
  unfold FairRoundRobinQueue.get
  split
  · exact .intro fun it hit => by cases hit
  · rename_i queue hq
    unfold leafQueue at hq
    simp only [Option.bind_eq_bind, Option.bind_eq_some_iff, Option.some.injEq] at hq
    obtain ⟨leaf, _, n, hn, rfl⟩ := hq
    have hs := (ht.ok leaf n hn).sound
    rcases hs.missing_or_found id with hm | ⟨it, hf⟩
    · exact .of_eq (PriorityMemoryQueue.get_missing hm) fun it hit => by cases hit
    · refine .of_eq (PriorityMemoryQueue.get_found hf) fun it' hit => ?_
      cases hit
      exact ⟨hf.id_eq hs, mem_ready.mpr ⟨leaf, n, hn, hf.mem⟩⟩

theorem NodeOk.replace (h : NodeOk p n) {it : Item} {v : Int} {queue : PriorityMemoryQueue} (hr : n.queue.Replaced it v queue)
    (hh : queue.Heaped) : NodeOk p { n with queue := queue } := by
  obtain ⟨rest, h1, h2⟩ := hr.held
  refine ⟨h.list, h.nodup, h.cursor, hr.minFirst.trans h.minFirst, fun x hx => ?_, hr.sound h.sound, hh⟩
  rw [h2] at hx
  have hmem : ∀ y ∈ it ::ₘ rest, pathOf y = p := fun y hy => h.items y (by rw [h1]; exact hy)
  rcases Multiset.mem_cons.mp hx with rfl | hx
  · exact hmem it (Multiset.mem_cons_self _ _)
  · exact hmem x (Multiset.mem_cons_of_mem hx)

theorem map_path_repriced {ready ready' : Multiset Item} {id : UInt64} {v : Int} (h : Repriced ready ready' id v) :
    ready'.map pathOf = ready.map pathOf := by
  obtain ⟨it, rest, _, rfl, rfl⟩ := h
  rw [Multiset.map_cons, Multiset.map_cons]
  rfl

/-- The queue of one leaf rewritten with its items on the same path. -/
theorem Safe.setQueue (h : Safe fq) {queue : PriorityMemoryQueue} (hn : fq.nodes.lookup p = some n)
    (hok : NodeOk p { n with queue := queue }) (hpath : (fq.setNode p { n with queue := queue }).readyPaths = fq.readyPaths) :
    Safe (fq.setNode p { n with queue := queue }) := by
  obtain ⟨C, ht, hc⟩ := h.tree
  refine ⟨⟨C, ht.setNode hn _ rfl rfl hok, by rw [hpath]; exact hc⟩, ?_⟩
  have hcard := congrArg Multiset.card hpath
  unfold readyPaths at hcard
  rw [Multiset.card_map, Multiset.card_map] at hcard
  rw [hcard]
  exact h.total

theorem Safe.updatePriority (h : Safe fq) (group : String) (id : UInt64) (v : Int) :
    Returns (fq.updatePriority group id v) fun fq' =>
      Safe fq' ∧ (fq'.ready = fq.ready ∨ Repriced fq.ready fq'.ready id v) := by
  obtain ⟨C, ht, hc⟩ := h.tree
  unfold FairRoundRobinQueue.updatePriority onLeafQueue
  split
  · exact .intro ⟨h, Or.inl rfl⟩
  · rename_i leaf hl
    split
    · exact .intro ⟨h, Or.inl rfl⟩
    · rename_i n hn
      have hok := ht.ok leaf n hn
      rcases hok.sound.missing_or_found id with hm | ⟨it, hf⟩
      · have hr : (fq.setNode leaf { n with queue := n.queue }).ready = fq.ready := setNode_ready hn rfl
        exact .bind_eq (PriorityMemoryQueue.updatePriority_missing hm v)
          (.intro ⟨h.setQueue hn hok (by unfold readyPaths; rw [hr]), Or.inl hr⟩)
      · obtain ⟨queue, hu, hrep, hh⟩ := PriorityMemoryQueue.updatePriority_found hf v
        obtain ⟨rest, hr, hr'⟩ := ready_split hn
        obtain ⟨others, h1, h2⟩ := hrep.held
        have hrp : Repriced fq.ready (fq.setNode leaf { n with queue := queue }).ready id v :=
          ⟨it, others + rest, hf.id_eq hok.sound, by rw [hr, h1, Multiset.cons_add], by rw [hr', h2, Multiset.cons_add]⟩
        exact .bind_eq hu (.intro ⟨h.setQueue hn (hok.replace hrep (hh hok.heaped)) (map_path_repriced hrp), Or.inr hrp⟩)

theorem onLeafQueue_of_lookup {group : String} {leaf : Path} {f : PriorityMemoryQueue → Go PriorityMemoryQueue}
    (hl : fq.groupKeyToLeaf.lookup group = some leaf) (hn : fq.nodes.lookup leaf = some n) :
    fq.onLeafQueue group f = (f n.queue).map fun queue => fq.setNode leaf { n with queue := queue } := by
  simp only [onLeafQueue, hl, hn]
  cases f n.queue <;> rfl

/-- The write through the pointer, and `UpdatePriority` after it, are `UpdatePriority` alone. -/
theorem itemUpdatePriority_updatePriority (fq : FairRoundRobinQueue) (group : String) (id : UInt64) (v : Int) :
    (fq.itemUpdatePriority group id v >>= fun fq => fq.updatePriority group id v) = fq.updatePriority group id v := by
  unfold itemUpdatePriority FairRoundRobinQueue.updatePriority
  cases hl : fq.groupKeyToLeaf.lookup group with
  | none => simp [onLeafQueue, hl]
  | some leaf =>
    cases hn : fq.nodes.lookup leaf with
    | none => simp [onLeafQueue, hl, hn]
    | some n =>
      have hwritten : (fq.setNode leaf { n with queue := n.queue.itemUpdatePriority id v }).nodes.lookup leaf = some _ :=
        (setNode_lookup ..).trans (if_pos rfl)
      have hkept : (fq.setNode leaf { n with queue := n.queue.itemUpdatePriority id v }).groupKeyToLeaf.lookup group =
        some leaf := hl
      rw [onLeafQueue_of_lookup hl hn, onLeafQueue_of_lookup hl hn, Option.map_some, Option.bind_eq_bind, Option.bind_some,
        onLeafQueue_of_lookup hkept hwritten]
      simp only [setNode, PriorityMemoryQueue.updatePriority_itemUpdatePriority, AList.insert_insert]

theorem Safe.congr (h : Safe fq) (hn : fq'.nodes = fq.nodes) (hl : fq'.groupKeyToLeaf = fq.groupKeyToLeaf)
    (ht : fq'.totalMessages = fq.totalMessages) : Safe fq' := by
  obtain ⟨C, htree, hc⟩ := h.tree
  have hr : fq'.ready = fq.ready := by unfold ready; rw [hn]
  exact ⟨⟨C, htree.congr hn hl, by unfold readyPaths; rw [hr]; exact hc⟩, by rw [ht, hr, h.total]⟩

theorem Safe.refresh (h : Safe fq) (p : Path) : Safe (fq.refreshLeafReady p) := by
  obtain ⟨C, ht, hc⟩ := h.tree
  exact ⟨⟨C, ht.refresh p, by unfold readyPaths; rw [refresh_ready]; exact hc⟩,
    by rw [(refresh_frame fq p).total, refresh_ready, h.total]⟩

theorem Safe.refreshGroup (h : Safe fq) (group : String) :
    Safe (fq.refreshGroup group) ∧ (fq.refreshGroup group).ready = fq.ready := by
  unfold FairRoundRobinQueue.refreshGroup
  split
  · exact ⟨h, rfl⟩
  · exact ⟨h.refresh _, refresh_ready _ _⟩

theorem Safe.recount (h : Safe fq) (unacked : FinMap String Int) (group : String) :
    Safe ({ fq with unackedByGroup := unacked }.refreshGroup group) ∧
      ({ fq with unackedByGroup := unacked }.refreshGroup group).ready = fq.ready :=
  have h' : Safe { fq with unackedByGroup := unacked } := h.congr rfl rfl rfl
  h'.refreshGroup group

theorem Safe.updateWeights (h : Safe fq) (group : String) :
    Safe (fq.updateWeights group) ∧ (fq.updateWeights group).ready = fq.ready := by
  unfold FairRoundRobinQueue.updateWeights
  split
  · exact ⟨h, rfl⟩
  · simp only
    split
    · exact h.recount _ group
    · exact h.recount _ group

theorem Safe.markUnacked (h : Safe fq) (group : String) :
    Safe (fq.markUnacked group) ∧ (fq.markUnacked group).ready = fq.ready :=
  h.recount _ group

theorem Safe.updateMaxUnacked (h : Safe fq) (maxUnacked : Int) :
    Safe (fq.updateMaxUnacked maxUnacked) ∧ (fq.updateMaxUnacked maxUnacked).ready = fq.ready := by
  have fold : ∀ (leaves : List Path) (fq : FairRoundRobinQueue), Safe fq →
      Safe (leaves.foldl refreshLeafReady fq) ∧ (leaves.foldl refreshLeafReady fq).ready = fq.ready := by
    intro leaves
    induction leaves with
    | nil => intro fq h; exact ⟨h, rfl⟩
    | cons p leaves ih =>
      intro fq h
      obtain ⟨h1, h2⟩ := ih _ (h.refresh p)
      exact ⟨h1, h2.trans (refresh_ready _ _)⟩
  exact fold _ { fq with maxUnacked := limitOf maxUnacked } (h.congr rfl rfl rfl)

/-! ## Restoring a scheduling state -/

theorem toList_foldl_append (seen names : List String) : ∀ all : LinkedList String,
    (names.foldl (fun all name => if name ∈ seen then all else all.append name) all).toList =
      all.toList ++ names.filter (· ∉ seen) := by
  induction names with
  | nil => intro all; simp
  | cons name names ih =>
    intro all
    rw [List.foldl_cons, ih]
    by_cases hm : name ∈ seen
    · rw [if_pos hm, List.filter_cons_of_neg (by simpa using hm)]
    · rw [if_neg hm, List.filter_cons_of_pos (by simpa using hm), LinkedList.toList_append, List.append_assoc,
        List.singleton_append]

/-- The listed children, each once. -/
theorem listed_ok (children listed : List String) : ∀ ordered : LinkedList String,
    ordered.toList.Nodup → (∀ c ∈ ordered.toList, c ∈ children) →
    let all := listed.foldl (fun ordered name =>
      if name ∈ children ∧ name ∉ ordered.toList then ordered.append name else ordered) ordered
    all.toList.Nodup ∧ ∀ c ∈ all.toList, c ∈ children := by
  induction listed with
  | nil => intro ordered hn hc; exact ⟨hn, hc⟩
  | cons name listed ih =>
    intro ordered hn hc
    rw [List.foldl_cons]
    split
    · rename_i hm
      refine ih _ ?_ ?_
      · rw [LinkedList.toList_append]
        exact List.nodup_append.mpr ⟨hn, List.nodup_singleton _, fun a ha b hb e => hm.2 (List.mem_singleton.mp hb ▸ e ▸ ha)⟩
      · rw [LinkedList.toList_append]
        intro c hcm
        rcases List.mem_append.mp hcm with hcm | hcm
        · exact hc c hcm
        · rw [List.mem_singleton.mp hcm]; exact hm.1
    · exact ih _ hn hc

/-- A reordering names the same children. -/
theorem reorder_perm (hl : n.childrenList.toList.Perm n.children) (hn : n.children.Nodup) (listed : List String) :
    (reorder n listed).toList.Perm n.children := by
  unfold reorder
  obtain ⟨hnodup, hsub⟩ := listed_ok n.children listed .empty List.nodup_nil fun c hc => absurd hc List.not_mem_nil
  generalize List.foldl _ LinkedList.empty listed = ordered at hnodup hsub ⊢
  rw [toList_foldl_append]
  refine (List.perm_ext_iff_of_nodup (List.nodup_append.mpr ⟨hnodup, ?_, fun a ha b hb e => ?_⟩) hn).mpr fun c => ?_
  · exact (hl.nodup_iff.mpr hn).filter _
  · have hnot : b ∉ ordered.toList := of_decide_eq_true (List.mem_filter.mp hb).2
    exact hnot (e ▸ ha)
  · simp only [List.mem_append, List.mem_filter, hl.mem_iff, decide_eq_true_eq]
    by_cases hc : c ∈ ordered.toList
    · simp [hc, hsub c hc]
    · simp [hc]

theorem NodeOk.rearrange (h : NodeOk p n) (state : SchedulingNode) : NodeOk p (rearrange state n) := by
  have hperm := reorder_perm h.list h.nodup state.children
  refine ⟨hperm, h.nodup, fun c hc => ?_, h.minFirst, h.items, h.sound, h.heaped⟩
  unfold FairRoundRobinQueue.rearrange at hc
  simp only at hc
  split at hc
  · rename_i hm; cases hc; exact hm
  · cases hc

theorem restoreNode_lookup (fq : FairRoundRobinQueue) (state : SchedulingNode) : ∃ target : Option Path, ∀ q,
    (fq.restoreNode state).nodes.lookup q = (fq.nodes.lookup q).map fun n => if some q = target then rearrange state n
      else n := by
  unfold restoreNode
  split
  · exact ⟨none, fun q => by simp⟩
  · rename_i p _
    refine ⟨some p, fun q => ?_⟩
    rw [modifyNode_lookup]
    simp only [Option.some.injEq]

theorem restoreNode_frame (fq : FairRoundRobinQueue) (state : SchedulingNode) : Frame fq (fq.restoreNode state) := by
  unfold restoreNode
  split
  · exact Frame.refl fq
  · exact modifyNode_frame _ _ _

theorem Tree.restoreNode (h : Tree fq C D) (state : SchedulingNode) : Tree (fq.restoreNode state) C D := by
  obtain ⟨target, hl⟩ := restoreNode_lookup fq state
  refine h.pointwise _ hl (fun q n _ => by split <;> rfl) (fun q n hn => ?_) (fun q n hn => ?_) h.here
    (by rw [(restoreNode_frame fq state).leaf]; exact h.leaf)
  · split
    · exact (h.ok q n hn).rearrange state
    · exact h.ok q n hn
  · split <;> exact h.count q n hn

theorem restoreNode_ready (fq : FairRoundRobinQueue) (state : SchedulingNode) : (fq.restoreNode state).ready = fq.ready := by
  obtain ⟨target, hl⟩ := restoreNode_lookup fq state
  exact ready_map _ hl fun q n _ => by split <;> rfl

theorem Safe.restoreNode (h : Safe fq) (state : SchedulingNode) : Safe (fq.restoreNode state) := by
  obtain ⟨C, htree, hle⟩ := h.tree
  refine ⟨⟨C, htree.restoreNode state, ?_⟩, ?_⟩
  · unfold readyPaths; rw [restoreNode_ready]; exact hle
  · rw [(restoreNode_frame fq state).total, restoreNode_ready]; exact h.total

theorem Safe.restoreSchedulingState (nodes : List SchedulingNode) : ∀ {fq : FairRoundRobinQueue}, Safe fq →
    Safe (fq.restoreSchedulingState nodes) ∧ (fq.restoreSchedulingState nodes).ready = fq.ready := by
  induction nodes with
  | nil => intro fq h; exact ⟨h, rfl⟩
  | cons state nodes ih =>
    intro fq h
    obtain ⟨h1, h2⟩ := ih (h.restoreNode state)
    exact ⟨h1, h2.trans (restoreNode_ready fq state)⟩

end Doq.Memory.FairRoundRobinQueue
