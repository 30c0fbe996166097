/-
  Doq.Memory.RoundRobinFairness — who is served between two deliveries out of one group
  (see `Doq.Memory.RoundRobin`, `Doq.Memory.RoundRobinRotation`).

  Between two deliveries out of a node a rotation passes all its siblings, so a sibling
  that always has something to deliver is served in between. `Ahead` is the invariant: the
  sibling's turn comes before the node's. A delivery keeps it, since it moves what came up
  to the delivered child to the end of the turns. An enqueue that makes the node anew does
  not: it puts the node at the end of the list, and that is ahead of a sibling which the
  cursor has already passed.

  Proved, for any groups and ids:
  - `round_robin_fair`: a sibling deliverable throughout is served between two deliveries
    out of a node, in every run that never makes the node anew while the sibling lies
    behind the cursor.
  - `sibling_bypassed`: a run that does so, with two deliveries out of one group and none
    out of the other.
-/

import Doq.Memory.RoundRobinRuns

namespace Doq.Memory

open Lib

/-- The children the rotation comes to only after the end of the list. -/
def GroupNode.behind (n : GroupNode) : List String :=
  match n.start with
  | none => []
  | some s => n.childrenList.toList.takeWhile (· ≠ s)

namespace FairRoundRobinQueue

variable {fq fq' fq1 : FairRoundRobinQueue} {C D : Multiset Path} {p q P : Path} {n : GroupNode} {x y z : String}

/-! ## Operations that leave the order of the children -/

/-- The node keeps its children, their order and its cursor. -/
structure SameOrder (n m : GroupNode) : Prop where
  children : m.children = n.children
  list : m.childrenList = n.childrenList
  cursor : m.currentChild = n.currentChild

theorem SameOrder.turns {m : GroupNode} (h : SameOrder n m) : m.turns = n.turns := by
  unfold GroupNode.turns GroupNode.start
  rw [h.list, h.cursor]

theorem SameOrder.trans {m k : GroupNode} (h : SameOrder n m) (h' : SameOrder m k) : SameOrder n k :=
  ⟨h'.children.trans h.children, h'.list.trans h.list, h'.cursor.trans h.cursor⟩

def KeepsOrder (fq fq' : FairRoundRobinQueue) : Prop :=
  ∀ p n, fq.nodes.lookup p = some n → ∃ m, fq'.nodes.lookup p = some m ∧ SameOrder n m

theorem keepsOrder_map (g : Path → GroupNode → GroupNode) (hl : ∀ q, fq'.nodes.lookup q = (fq.nodes.lookup q).map (g q))
    (hg : ∀ q n, fq.nodes.lookup q = some n → SameOrder n (g q n)) : KeepsOrder fq fq' :=
  fun p n hn => ⟨g p n, by rw [hl, hn]; rfl, hg p n hn⟩

theorem KeepsOrder.refl (fq : FairRoundRobinQueue) : KeepsOrder fq fq := fun _ n hn => ⟨n, hn, rfl, rfl, rfl⟩

theorem KeepsOrder.trans {a b c : FairRoundRobinQueue} (h : KeepsOrder a b) (h' : KeepsOrder b c) : KeepsOrder a c := by
  intro p n hn
  obtain ⟨m, hm, hs⟩ := h p n hn
  obtain ⟨k, hk, hs'⟩ := h' p m hm
  exact ⟨k, hk, hs.trans hs'⟩

theorem refresh_keepsOrder (fq : FairRoundRobinQueue) (p : Path) : KeepsOrder fq (fq.refreshLeafReady p) :=
  keepsOrder_map _ (refresh_lookup fq p) fun q n _ => by split <;> exact ⟨rfl, rfl, rfl⟩

theorem updateWeights_keepsOrder (fq : FairRoundRobinQueue) (group : String) : KeepsOrder fq (fq.updateWeights group) := by
  have hgroup : ∀ fq1 : FairRoundRobinQueue, fq1.nodes = fq.nodes → KeepsOrder fq (fq1.refreshGroup group) := by
    intro fq1 he p n hn
    rw [← he] at hn
    unfold refreshGroup
    split
    · exact KeepsOrder.refl fq1 p n hn
    · exact refresh_keepsOrder fq1 _ p n hn
  unfold updateWeights
  split
  · exact KeepsOrder.refl fq
  · simp only
    split <;> exact hgroup _ rfl

theorem updatePriority_keepsOrder {group : String} {id : UInt64} {v : Int} (h : fq.updatePriority group id v = some fq') :
    KeepsOrder fq fq' := by
  unfold updatePriority onLeafQueue at h
  split at h
  · cases h; exact KeepsOrder.refl fq
  · split at h
    · cases h; exact KeepsOrder.refl fq
    · rename_i leaf _ n hn
      obtain ⟨queue, _, he⟩ := Option.bind_eq_some_iff.mp h
      cases he
      refine keepsOrder_map _ (setNode_map hn _) fun q m hm => ?_
      split
      · rename_i e; rw [e, hn] at hm; cases hm; exact ⟨rfl, rfl, rfl⟩
      · exact ⟨rfl, rfl, rfl⟩

/-! ## Enqueue -/

/-- The node keeps its order, or has one more child, at the end of its list. -/
def Extended (names : Path) (p : Path) (n m : GroupNode) : Prop :=
  SameOrder n m ∨ ∃ z, p ++ [z] <+: names ∧ z ∉ n.children ∧ m.children = n.children ++ [z] ∧
    m.childrenList = n.childrenList.append z ∧ m.currentChild = n.currentChild

theorem addChild_order {cur : GroupNode} (name : String) (h : Tree fq C D) (hp : fq.nodes.lookup p = some cur)
    (hn : fq.nodes.lookup P = some n) : ∃ m, (fq.addChild p name).nodes.lookup P = some m ∧
      (SameOrder n m ∨ P = p ∧ name ∉ n.children ∧ m.children = n.children ++ [name] ∧
        m.childrenList = n.childrenList.append name ∧ m.currentChild = n.currentChild) := by
  rw [addChild_eq hp]
  split
  · exact ⟨n, hn, Or.inl ⟨rfl, rfl, rfl⟩⟩
  · rename_i hnew
    rw [refresh_lookup, graft_lookup]
    by_cases e : P = p
    · subst e
      rw [hp] at hn; cases hn
      rw [if_pos rfl, Option.map_some, if_pos rfl]
      exact ⟨_, rfl, Or.inr ⟨rfl, hnew, rfl, rfl, rfl⟩⟩
    · have e' : P ≠ p ++ [name] := fun e' => by rw [e', h.no_child hp hnew] at hn; cases hn
      rw [if_neg e, if_neg e', hn, Option.map_some, if_neg e]
      exact ⟨n, rfl, Or.inl ⟨rfl, rfl, rfl⟩⟩

theorem descend_order (names : List String) : ∀ {fq : FairRoundRobinQueue} {p : Path} {cur n : GroupNode}, Tree fq C D →
    fq.nodes.lookup p = some cur → (∃ x ∈ D, p ++ names <+: x) → fq.nodes.lookup P = some n →
    ∃ m, (fq.descend p names).nodes.lookup P = some m ∧ Extended (p ++ names) P n m := by
  induction names with
  | nil => intro fq p cur n _ _ _ hn; exact ⟨n, hn, Or.inl ⟨rfl, rfl, rfl⟩⟩
  | cons name names ih =>
    intro fq p cur n h hp hx hn
    have happ : p ++ name :: names = p ++ [name] ++ names := by simp
    rw [happ] at hx ⊢
    obtain ⟨h1, _, c, hc⟩ := h.addChild hp (by
      obtain ⟨x, hx, hpre⟩ := hx
      exact ⟨x, hx, (List.prefix_append _ _).trans hpre⟩)
    obtain ⟨m, hm, hcase⟩ := addChild_order name h hp hn
    obtain ⟨k, hk, hcase'⟩ := ih h1 hc hx hm
    refine ⟨k, hk, ?_⟩
    rcases hcase with hsame | ⟨rfl, hnew, hch, hl, hcur⟩
    · rcases hcase' with hsame' | ⟨z, hz, hnew', hch', hl', hcur'⟩
      · exact Or.inl (hsame.trans hsame')
      · exact Or.inr ⟨z, hz, by rw [← hsame.children]; exact hnew', by rw [hch', hsame.children], by rw [hl', hsame.list],
          by rw [hcur', hsame.cursor]⟩
    · rcases hcase' with hsame' | ⟨z, hz, hnew', _⟩
      · exact Or.inr ⟨name, List.prefix_append _ _, hnew, hsame'.children.trans hch, hsame'.list.trans hl,
          hsame'.cursor.trans hcur⟩
      · -- the node has been passed, and the next child on the way is the one it just got
        have e : P ++ [z] = P ++ [name] :=
          (List.prefix_of_prefix_length_le hz (List.prefix_append _ _) (by simp)).eq_of_length (by simp)
        obtain rfl : z = name := by simpa using e
        exact absurd (by rw [hch]; simp) hnew'

theorem Safe.enqueue_order (h : Safe fq) (group : String) (item : Item) (hn : fq.nodes.lookup P = some n) :
    ∃ m, (fq.enqueue group item).nodes.lookup P = some m ∧ Extended (Dotted.split (groupOf group)) P n m := by
  obtain ⟨C, ht, _⟩ := h.tree
  obtain ⟨r, hr⟩ := ht.root
  have hx : ∃ y ∈ Dotted.split (groupOf group) ::ₘ C, [] ++ Dotted.split (groupOf group) <+: y :=
    ⟨_, Multiset.mem_cons_self _ _, List.prefix_rfl⟩
  obtain ⟨m, hm, hcase⟩ := descend_order _ (ht.mono (Multiset.subset_cons C _)) hr hx hn
  have hfile : KeepsOrder (fq.descend [] (Dotted.split (groupOf group)))
      ((fq.descend [] (Dotted.split (groupOf group))).file (groupOf group) (filed group item)) :=
    keepsOrder_map _ (file_lookup _ _ _) fun _ _ _ => ⟨rfl, rfl, rfl⟩
  obtain ⟨k, hk, hsame⟩ := (hfile.trans (refresh_keepsOrder _ _)) P m hm
  refine ⟨k, by rw [enqueue_eq]; exact hk, ?_⟩
  rw [List.nil_append] at hcase
  rcases hcase with hcase | ⟨z, hz, hnew, hch, hl, hcur⟩
  · exact Or.inl (hcase.trans hsame)
  · exact Or.inr ⟨z, hz, hnew, hsame.children.trans hch, hsame.list.trans hl, hsame.cursor.trans hcur⟩

/-! ## Dequeue -/

/-- A descent at a node it passes: it skips what is not deliverable. -/
theorem Picks.at (h : fq.Picks p q) (hP : p <+: P) (hq : P <+: q) (hne : P ≠ q) :
    ∃ n skipped z later, fq.nodes.lookup P = some n ∧ n.children ≠ [] ∧ n.turns = skipped ++ z :: later ∧
      (∀ d ∈ skipped, ¬ fq.Deliverable (P ++ [d])) ∧ P ++ [z] <+: q := by
  induction h with
  | leaf => exact absurd (hq.eq_of_length (Nat.le_antisymm hq.length_le hP.length_le)) hne
  | @child p q n c skipped later hn hch ht hskip ho hp ih =>
    by_cases e : P = p
    · subst e
      exact ⟨n, skipped, c, later, hn, hch, ht, hskip, hp.under⟩
    · refine ih ?_ hq hne
      refine List.prefix_of_prefix_length_le hp.under hq ?_
      have hlen := hP.length_le
      have hne' : p.length ≠ P.length := fun hl => e (hP.eq_of_length hl).symm
      simp only [List.length_append, List.length_singleton]
      omega

theorem toward_eq_none (h : ¬ P <+: q) : toward [] q P = none := if_neg fun hx => h hx.2

theorem toward_root {c : String} (h : P ++ [c] <+: q) : toward [] q P = some c := by
  obtain ⟨rest, rfl⟩ := h
  unfold toward
  rw [if_pos ⟨List.nil_prefix, by rw [List.append_assoc]; exact List.prefix_append _ _⟩]
  simp

/-- The list after its own child left keeps its start, if that was another one. -/
theorem start_remove {m : GroupNode} {s c : String} (hs : n.start = some s) (hne : s ≠ c)
    (hl : m.childrenList = n.childrenList.remove c)
    (hc : m.currentChild = if n.currentChild = some c then (n.childrenList.remove c).head? else n.currentChild) :
    m.start = some s := by
  unfold GroupNode.start at hs ⊢
  rw [hl, hc]
  cases hcur : n.currentChild with
  | some d =>
    rw [hcur, Option.some_or] at hs; cases hs
    rw [if_neg (by simpa using hne)]
    rfl
  | none =>
    rw [hcur, Option.none_or, LinkedList.head?_eq] at hs
    rw [if_neg (by simp), Option.none_or, LinkedList.head?_eq, LinkedList.toList_remove]
    cases hlist : n.childrenList.toList with
    | nil => rw [hlist] at hs; cases hs
    | cons d rest =>
      rw [hlist] at hs; cases hs
      rw [List.erase_cons_tail (by simpa using hne)]
      rfl

/-- A delivery, seen at a node that is not its leaf: before it, after its descent, and after
    the branch was pruned. -/
theorem Safe.delivered (h : Safe fq) {ack : Bool} {it : Item} (hd : fq.dequeue ack = some (some it, fq')) {m : GroupNode}
    (hne : P ≠ pathOf it) (hm : fq'.nodes.lookup P = some m) :
    fq.Picks [] (pathOf it) ∧ ∃ n n1 : GroupNode, fq.nodes.lookup P = some n ∧ n1.childrenList = n.childrenList ∧
      n1.start = fq.startAfter [] (pathOf it) P ∧
      (m.childrenList = n1.childrenList ∧ m.currentChild = n1.currentChild ∨
        ∃ c, P ++ [c] <+: pathOf it ∧ m.childrenList = n1.childrenList.remove c ∧
          m.currentChild = if n1.currentChild = some c then (n1.childrenList.remove c).head? else n1.currentChild) := by
  obtain ⟨r, hr, hcase⟩ := h.dequeue_picks ack
  rw [hd] at hr; cases hr
  obtain ⟨hpick, fq1, hpop, hst, hprune⟩ := hcase
  obtain ⟨n1, hn1, hcase⟩ := hprune P m hm
  obtain ⟨n, hn⟩ : ∃ n, fq.nodes.lookup P = some n := by
    obtain ⟨k, queue, _, _, _, hmv⟩ := hpop
    obtain ⟨n, hn, _⟩ := hmv.back hn1
    rw [setNode_lookup, if_neg hne] at hn
    exact ⟨n, hn⟩
  have he : n1 = { n with currentChild := fq1.cursorAt P } := Option.some.inj (hn1.symm.trans (hpop.lookup hne hn))
  refine ⟨hpick, n, n1, hn, by rw [he], ?_, hcase.imp_right fun ⟨c, hq, _, hrest⟩ => ⟨c, hq, hrest⟩⟩
  have hs := hst P
  unfold startAt at hs
  rw [hn1] at hs
  exact hs

theorem NodeOk.turns_nil (h : NodeOk p n) (hl : n.childrenList.toList = []) : n.turns = [] := by
  have hcur : n.currentChild = none := by
    cases hc : n.currentChild with
    | none => rfl
    | some c => have := h.cursor c hc; rw [hl] at this; exact absurd this List.not_mem_nil
  unfold GroupNode.turns GroupNode.start
  rw [hcur, LinkedList.head?_eq, hl]
  rfl

/-- A delivery elsewhere leaves a node's turns. -/
theorem Safe.turns_aside (h : Safe fq) {ack : Bool} {it : Item} (hd : fq.dequeue ack = some (some it, fq'))
    (hP : ¬ P <+: pathOf it) {m : GroupNode} (hm : fq'.nodes.lookup P = some m) :
    ∃ n, fq.nodes.lookup P = some n ∧ m.turns = n.turns := by
  obtain ⟨_, n, n1, hn, hl1, hs1, hcase⟩ := h.delivered hd (fun e => hP (e ▸ List.prefix_rfl)) hm
  refine ⟨n, hn, ?_⟩
  rcases hcase with ⟨hl, hc⟩ | ⟨c, hq, _⟩
  · unfold startAfter startAt at hs1
    rw [toward_eq_none hP, hn] at hs1
    have hstart : m.start = n.start := by
      rw [← show n1.start = n.start from hs1]
      unfold GroupNode.start
      rw [hl, hc]
    unfold GroupNode.turns
    rw [hstart, hl, hl1]
  · exact absurd ((List.prefix_append _ _).trans hq) hP

/-- A delivery out of a child moves what came up to that child to the end of the turns, and
    takes the child out if it is left empty. -/
theorem Safe.turns_through (h : Safe fq) {ack : Bool} {it : Item} (hd : fq.dequeue ack = some (some it, fq')) (h' : Safe fq')
    (hz : P ++ [z] <+: pathOf it) {m : GroupNode} (hm : fq'.nodes.lookup P = some m) :
    ∃ n skipped later, fq.nodes.lookup P = some n ∧ n.turns = skipped ++ z :: later ∧ n.turns.Nodup ∧
      (∀ d ∈ skipped, ¬ fq.Deliverable (P ++ [d])) ∧ (m.turns = later ++ skipped ++ [z] ∨ m.turns = later ++ skipped) := by
  have hPq : P <+: pathOf it := (List.prefix_append _ _).trans hz
  have hne : P ≠ pathOf it := (under_child_ne hz).symm
  obtain ⟨hpick, n, n1, hn, hl1, hs1, hcase⟩ := h.delivered hd hne hm
  obtain ⟨k, skipped, z', later, hk, hch, ht, hskip, hz'⟩ := hpick.at List.nil_prefix hPq hne
  rw [hn] at hk; cases hk
  obtain rfl : z' = z := by
    have e : P ++ [z'] = P ++ [z] := (List.prefix_of_prefix_length_le hz' hz (by simp)).eq_of_length (by simp)
    simpa using e
  obtain ⟨C, htree, _⟩ := h.tree
  have hok := htree.ok P n hn
  have hnodup : n.childrenList.toList.Nodup := hok.list.nodup_iff.mpr hok.nodup
  obtain ⟨s, hs⟩ := hok.start_some hch
  have hsm := hok.start_mem hs
  have hturns := GroupNode.turns_of_start hs
  have hnd : n.turns.Nodup := by rw [hturns]; exact Rotation.turns_nodup hnodup
  rw [hturns] at ht
  -- where the node starts now
  have hnext : n1.start = Rotation.after n.childrenList.toList z' := by
    rw [hs1]
    unfold startAfter
    rw [toward_root hz, hn]
    exact GroupNode.next_eq
  obtain ⟨t, ht1⟩ : ∃ t, n1.start = some t := by
    rw [hnext, Rotation.after_eq hnodup hsm ht]
    exact ⟨_, List.head?_eq_some_head (by simp)⟩
  have hturns1 : n1.turns = later ++ skipped ++ [z'] := by
    rw [GroupNode.turns_of_start ht1, hl1]
    exact Rotation.turns_after hnodup hsm ht (hnext.symm.trans ht1)
  refine ⟨n, skipped, later, hn, hturns.trans ht, hnd, hskip, ?_⟩
  rcases hcase with ⟨hl, hc⟩ | ⟨c, hq, hl, hc⟩
  · refine Or.inl (Eq.trans ?_ hturns1)
    unfold GroupNode.turns GroupNode.start
    rw [hl, hc]
  · obtain rfl : c = z' := by
      have e : P ++ [c] = P ++ [z'] := (List.prefix_of_prefix_length_le hq hz (by simp)).eq_of_length (by simp)
      simpa using e
    refine Or.inr ?_
    have hlist : m.childrenList.toList = n.childrenList.toList.erase c := by rw [hl, LinkedList.toList_remove, hl1]
    by_cases hnone : later ++ skipped = []
    · -- it was the only child
      obtain ⟨C', htree', _⟩ := h'.tree
      rw [hnone]
      refine (htree'.ok P m hm).turns_nil (List.eq_nil_iff_forall_not_mem.mpr fun d hd => ?_)
      rw [hlist, hnodup.mem_erase_iff, ← Rotation.mem_turns, ht] at hd
      obtain ⟨hl0, hs0⟩ := List.append_eq_nil_iff.mp hnone
      rw [hl0, hs0] at hd
      exact hd.1 (by simpa using hd.2)
    -- there is another child, so the cursor does not stand on the one that left
    have hnd1 : (later ++ skipped ++ [c]).Nodup := by
      rw [← hturns1, GroupNode.turns_of_start ht1, hl1]; exact Rotation.turns_nodup hnodup
    have htc : t ≠ c := fun e => by
      have hhead : (later ++ skipped ++ [c]).head? = some t := by
        rw [← Rotation.after_eq hnodup hsm ht, ← hnext]; exact ht1
      obtain ⟨u, rest, hu⟩ := List.exists_cons_of_ne_nil hnone
      rw [hu] at hhead hnd1
      obtain rfl : u = t := by simpa using hhead
      exact (List.nodup_append.mp hnd1).2.2 u List.mem_cons_self c (List.mem_singleton_self c) e
    have hstart := start_remove ht1 htc hl hc
    have htm : t ∈ n.childrenList.toList := by
      have : t ∈ n1.turns := by
        rw [hturns1]
        exact List.mem_of_mem_head? (by rw [← Rotation.after_eq hnodup hsm ht, ← hnext]; exact ht1)
      rw [GroupNode.turns_of_start ht1, hl1] at this
      exact Rotation.mem_turns.mp this
    rw [GroupNode.turns_of_start hstart, hlist, Rotation.turns_erase hnodup htm htc.symm,
      ← hl1, ← GroupNode.turns_of_start ht1, hturns1, List.erase_append_right _ fun hc' =>
        (List.nodup_append.mp hnd1).2.2 c hc' c (List.mem_singleton_self c) rfl]
    simp

/-! ## Runs -/

/-- The operations of a delivery run. -/
def Op.plain : Op → Bool
  | enqueue _ _ => true
  | dequeue _ => true
  | updateWeights _ => true
  | updatePriority _ _ _ => true
  | _ => false

/-- A dequeue that takes a message out of the node's subtree. -/
def DeliversUnder (e : Event FairRoundRobinQueue Op (Option Item)) (p : Path) : Prop :=
  ∃ ack it, e.input = .dequeue ack ∧ e.output = some it ∧ p <+: pathOf it

/-- The operation makes the child `y` of `P` while its sibling `x` lies behind the cursor. -/
def CutsIn (fq : FairRoundRobinQueue) (P : Path) (x y : String) : Op → Bool
  | .enqueue group _ => decide (P ++ [y] <+: Dotted.split (groupOf group)) && (fq.nodes.lookup (P ++ [y])).isNone &&
      decide (∃ n ∈ fq.nodes.lookup P, x ∈ n.behind)
  | _ => false

/-- If `y` has a turn at `P`, the turn of `x` comes before it. -/
def Ahead (fq : FairRoundRobinQueue) (P : Path) (x y : String) : Prop :=
  ∀ n, fq.nodes.lookup P = some n → y ∈ n.turns → [x, y].Sublist n.turns

theorem Safe.step {op : Op} {o : Option Item} (h : Safe fq) (hop : op.plain) (hs : fq.step op = some (o, fq')) : Safe fq' := by
  cases op with
  | enqueue group item => cases hs; exact (h.enqueue group item).1
  | dequeue ack => obtain ⟨r, hr, h', _⟩ := h.dequeue ack; rw [show fq.dequeue ack = _ from hs] at hr; cases hr; exact h'
  | updateWeights group => cases hs; exact (h.updateWeights group).1
  | updatePriority group id v =>
    obtain ⟨fq2, hu, he⟩ := Option.map_eq_some_iff.mp hs
    cases he
    obtain ⟨r, hr, h', _⟩ := h.updatePriority group id v
    rw [hu] at hr; cases hr; exact h'
  | _ => cases hop

/-- A deliverable child has a turn at its parent. -/
theorem Safe.has_turn (h : Safe fq) (hx : fq.Deliverable (P ++ [x])) :
    ∃ n, fq.nodes.lookup P = some n ∧ x ∈ n.childrenList.toList ∧ x ∈ n.turns := by
  obtain ⟨C, ht, _⟩ := h.tree
  obtain ⟨m, hm, _⟩ := hx.1
  obtain ⟨n, hn, hc⟩ := ht.parent P x m hm
  have hok := ht.ok P n hn
  exact ⟨n, hn, hok.list.mem_iff.mpr hc, (hok.mem_turns (List.ne_nil_of_mem hc)).mpr hc⟩

theorem Ahead.keepsOrder (ha : Ahead fq P x y) (hk : KeepsOrder fq fq') (hn : fq.nodes.lookup P = some n) : Ahead fq' P x y := by
  intro m hm hy
  obtain ⟨m', hm', hsame⟩ := hk P n hn
  rw [hm] at hm'; cases hm'
  rw [hsame.turns] at hy ⊢
  exact ha n hn hy

/-- After a delivery out of `y` its siblings come first. -/
theorem Safe.ahead_of_delivery (h : Safe fq) {ack : Bool} {it : Item} (hd : fq.dequeue ack = some (some it, fq'))
    (hy : P ++ [y] <+: pathOf it) (h' : Safe fq') (hx : fq'.Deliverable (P ++ [x])) (hxy : x ≠ y) : Ahead fq' P x y := by
  intro m hm hmem
  obtain ⟨m', hm', _, hxt⟩ := h'.has_turn hx
  rw [hm] at hm'; cases hm'
  obtain ⟨n, skipped, later, hn, ht, hnd, _, hcase⟩ := h.turns_through hd h' hy hm
  rcases hcase with hcase | hcase
  · rw [hcase] at hxt ⊢
    have hx' : x ∈ later ++ skipped := (List.mem_append.mp hxt).resolve_right fun e => hxy (List.mem_singleton.mp e)
    exact List.Sublist.append (List.singleton_sublist.mpr hx') (List.Sublist.refl [y])
  · rw [ht] at hnd
    rw [hcase] at hmem
    have hnot := (List.nodup_cons.mp (List.nodup_middle.mp hnd)).1
    exact absurd (List.mem_append.mpr (List.mem_append.mp hmem).symm) hnot

/-- A delivery past `x` takes neither `x` nor what comes after it. -/
theorem Ahead.dequeue (ha : Ahead fq P x y) (h : Safe fq) {ack : Bool} {it : Item} (hd : fq.dequeue ack = some (some it, fq'))
    (hx : fq.Deliverable (P ++ [x])) (h' : Safe fq') (hno : ¬ P ++ [x] <+: pathOf it)
    (hxy : x ≠ y) : Ahead fq' P x y := by
  intro m hm hy
  by_cases hP : P <+: pathOf it
  · -- the delivery goes through a child `z` of `P`
    obtain ⟨n, hn, _, hxt⟩ := h.has_turn hx
    have hz : ∃ z, P ++ [z] <+: pathOf it := by
      obtain ⟨rest, hrest⟩ := hP
      cases rest with
      | nil =>
        obtain ⟨r, hr, hcase⟩ := h.dequeue_picks ack
        rw [hd] at hr; cases hr
        obtain ⟨_, fq1, ⟨k, _, hk, hch, _⟩, _⟩ := hcase
        rw [List.append_nil] at hrest
        obtain ⟨C, htree, _⟩ := h.tree
        obtain ⟨c, hc, _⟩ := hx.1
        obtain ⟨n', hn', hmem⟩ := htree.parent P x c hc
        rw [← hrest, hn'] at hk; cases hk
        rw [hch] at hmem; exact absurd hmem List.not_mem_nil
      | cons z rest => exact ⟨z, rest, by rw [← hrest]; simp⟩
    obtain ⟨z, hz⟩ := hz
    have hxz : x ≠ z := fun e => hno (e ▸ hz)
    obtain ⟨n', skipped, later, hn', ht, hnd, hskip, hcase⟩ := h.turns_through hd h' hz hm
    rw [hn] at hn'; cases hn'
    have hxs : x ∉ skipped := fun hm => hskip x hm hx
    have hyn : y ∈ n.turns := by
      rw [ht]
      rcases hcase with hcase | hcase <;> rw [hcase] at hy <;> simp only [List.mem_append, List.mem_cons] at hy ⊢ <;> tauto
    have hpair := ha n hn hyn
    rw [ht] at hpair hnd
    have hyz : y ≠ z := fun e => by subst e; exact hxs (Rotation.mem_of_pair hnd hxy hpair)
    have hlater : [x, y].Sublist later := by
      rw [List.append_cons] at hpair
      exact Rotation.pair_right hpair (by simp [hxs, hxz])
    rcases hcase with hcase | hcase <;> rw [hcase]
    · exact hlater.trans ((List.sublist_append_left _ _).trans (List.sublist_append_left _ _))
    · exact hlater.trans (List.sublist_append_left _ _)
  · obtain ⟨n, hn, ht⟩ := h.turns_aside hd hP hm
    rw [ht] at hy ⊢
    exact ha n hn hy

/-- A new child goes to the end of the list, which is ahead of what lies behind the cursor. -/
theorem Ahead.enqueue (ha : Ahead fq P x y) (h : Safe fq) {group : String} {item : Item} (hx : fq.Deliverable (P ++ [x]))
    (hcut : CutsIn fq P x y (.enqueue group item) = false) : Ahead (fq.enqueue group item) P x y := by
  intro m hm hy
  obtain ⟨n, hn, hxl, hxt⟩ := h.has_turn hx
  obtain ⟨m', hm', hcase⟩ := h.enqueue_order group item hn
  rw [hm] at hm'; cases hm'
  rcases hcase with hsame | ⟨z, hz, hnew, _, hl, hcur⟩
  · rw [hsame.turns] at hy ⊢
    exact ha n hn hy
  · obtain ⟨C, htree, _⟩ := h.tree
    have hok := htree.ok P n hn
    obtain ⟨s, hs⟩ := hok.start_some (List.ne_nil_of_mem (hok.list.mem_iff.mp hxl))
    have hsm := hok.start_mem hs
    have hs' : m.start = some s := by
      unfold GroupNode.start at hs ⊢
      rw [hcur, hl, LinkedList.head?_eq, LinkedList.toList_append, List.head?_append]
      rw [LinkedList.head?_eq] at hs
      cases hc : n.currentChild with
      | some c => rw [hc] at hs; exact hs
      | none => rw [hc, Option.none_or] at hs; rw [Option.none_or, hs]; rfl
    have hturns : m.turns = Rotation.turns (n.childrenList.toList ++ [z]) s := by
      rw [GroupNode.turns_of_start hs', hl, LinkedList.toList_append]
    by_cases hyz : y = z
    · -- the child is `y` itself, and `x` is not behind the cursor
      subst hyz
      have hbehind : x ∉ n.childrenList.toList.takeWhile (· ≠ s) := fun hmem => by
        have hnone : fq.nodes.lookup (P ++ [y]) = none := htree.no_child hn hnew
        have hb : x ∈ n.behind := by unfold GroupNode.behind; rw [hs]; exact hmem
        unfold CutsIn at hcut
        simp [hz, hnone, hn, hb] at hcut
      have hahead : x ∈ n.childrenList.toList.dropWhile (· ≠ s) := by
        rw [← List.takeWhile_append_dropWhile (p := (· ≠ s)) (l := n.childrenList.toList)] at hxl
        exact (List.mem_append.mp hxl).resolve_left hbehind
      rw [hturns, Rotation.turns_concat hsm]
      exact List.Sublist.append (List.singleton_sublist.mpr hahead) (List.singleton_sublist.mpr List.mem_cons_self)
    · have hyn : y ∈ n.turns := by
        rw [hturns, Rotation.mem_turns, List.mem_append] at hy
        rw [GroupNode.turns_of_start hs, Rotation.mem_turns]
        exact hy.resolve_right fun e => hyz (List.mem_singleton.mp e)
      have hpair := ha n hn hyn
      rw [GroupNode.turns_of_start hs] at hpair
      rw [hturns]
      exact hpair.trans (Rotation.turns_sublist_concat hsm)

section Runs

variable {m : Int} {before mid : List (Event FairRoundRobinQueue Op (Option Item))}
  {first second e : Event FairRoundRobinQueue Op (Option Item)}

theorem ahead_step (hs : e.before.step e.input = some (e.output, e.after)) (h : Safe e.before) (hop : e.input.plain)
    (hx : e.before.Deliverable (P ++ [x])) (hno : ¬ DeliversUnder e (P ++ [x])) (hxy : x ≠ y)
    (hcut : CutsIn e.before P x y e.input = false) (ha : Ahead e.before P x y) : Ahead e.after P x y := by
  obtain ⟨s, op, o, t⟩ := e
  dsimp only at *
  have h' := h.step hop hs
  obtain ⟨n, hn, _⟩ := h.has_turn hx
  cases op with
  | enqueue group item => cases hs; exact ha.enqueue h hx hcut
  | dequeue ack =>
    cases o with
    | some it => exact ha.dequeue h hs hx h' (fun hp => hno ⟨ack, it, rfl, rfl, hp⟩) hxy
    | none =>
      obtain ⟨r, hr, hcase⟩ := h.dequeue_picks ack
      rw [show s.dequeue ack = _ from hs] at hr; cases hr
      obtain ⟨_, hmv, hst⟩ := hcase
      intro k hk hy
      rw [hmv.lookup hn] at hk; cases hk
      rw [hmv.turns_eq hn (hst P)] at hy ⊢
      exact ha n hn hy
  | updateWeights group => cases hs; exact ha.keepsOrder (updateWeights_keepsOrder s group) hn
  | updatePriority group id v =>
    obtain ⟨fq2, hu, he⟩ := Option.map_eq_some_iff.mp hs
    cases he
    exact ha.keepsOrder (updatePriority_keepsOrder hu) hn
  | _ => cases hop

/-- The window up to the second delivery: `x` is served, or still has its turn first. -/
theorem ahead_run (hxy : x ≠ y) : ∀ {s : FairRoundRobinQueue}, Run step s (mid ++ [second]) fq → Safe s → Ahead s P x y →
    (∀ e ∈ mid ++ [second], e.input.plain) → (∀ e ∈ mid ++ [second], e.before.Deliverable (P ++ [x])) →
    (∀ e ∈ mid, CutsIn e.before P x y e.input = false) →
    (∃ e ∈ mid, DeliversUnder e (P ++ [x])) ∨ Safe second.before ∧ Ahead second.before P x y := by
  induction mid with
  | nil => intro s hrun h ha _ _ _; cases hrun; exact Or.inr ⟨h, ha⟩
  | cons e mid ih =>
    intro s hrun h ha hops hx hcut
    cases hrun with
    | @cons _ s' _ i o _ hs hrun =>
      by_cases hd : DeliversUnder ⟨s, i, o, s'⟩ (P ++ [x])
      · exact Or.inl ⟨_, List.mem_cons_self, hd⟩
      have hop := hops _ List.mem_cons_self
      have ha' := ahead_step hs h hop (hx _ List.mem_cons_self) hd hxy (hcut _ List.mem_cons_self) ha
      refine (ih hrun (h.step hop hs) ha' (fun e he => hops e (List.mem_cons_of_mem _ he))
        (fun e he => hx e (List.mem_cons_of_mem _ he)) fun e he => hcut e (List.mem_cons_of_mem _ he)).imp_left ?_
      rintro ⟨e, he, hd⟩
      exact ⟨e, List.mem_cons_of_mem _ he, hd⟩

/-- A sibling that always has something to deliver is served between two deliveries out of a
    node, unless the node is made anew while the sibling lies behind the cursor. -/
theorem round_robin_fair (hrun : Run step (new m) (before ++ first :: (mid ++ [second])) fq)
    (hops : ∀ e ∈ before ++ first :: (mid ++ [second]), e.input.plain) (hxy : x ≠ y)
    (hfirst : DeliversUnder first (P ++ [y])) (hsecond : DeliversUnder second (P ++ [y]))
    (hx : ∀ e ∈ mid ++ [second], e.before.Deliverable (P ++ [x]))
    (hcut : ∀ e ∈ mid, CutsIn e.before P x y e.input = false) : ∃ e ∈ mid, DeliversUnder e (P ++ [x]) := by
  obtain ⟨hpre, hstep, hpost⟩ := hrun.at_event
  have hsafe : Safe first.before := hpre.keeps (fun e he hs h => h.step (hops e (List.mem_append_left _ he)) hs) (new_safe m)
  have hsafe' : Safe first.after := hsafe.step (hops first (by simp)) hstep
  have hx0 : first.after.Deliverable (P ++ [x]) := by
    obtain ⟨e', he', hb⟩ := hpost.starts
    exact hb ▸ hx e' he'
  have ha : Ahead first.after P x y := by
    obtain ⟨ack, it, hi, ho, hy⟩ := hfirst
    rw [hi, ho] at hstep
    exact hsafe.ahead_of_delivery hstep hy hsafe' hx0 hxy
  rcases ahead_run hxy hpost hsafe' ha (fun e he => hops e (List.mem_append_right _ (List.mem_cons_of_mem _ he))) hx hcut with
    hserved | ⟨hs2, ha2⟩
  · exact hserved
  -- otherwise the second delivery skipped `x`, which was deliverable
  obtain ⟨ack, it, hi, ho, hy⟩ := hsecond
  have hstep2 : second.before.step second.input = some (second.output, second.after) := hpost.step_of_mem (by simp)
  rw [hi, ho] at hstep2
  obtain ⟨r, hr, hcase⟩ := hs2.dequeue_picks ack
  rw [show second.before.dequeue ack = _ from hstep2] at hr; cases hr
  have hne : P ≠ pathOf it := (under_child_ne hy).symm
  obtain ⟨n, skipped, z, later, hn, hch, ht, hskip, hz⟩ := hcase.1.at List.nil_prefix ((List.prefix_append _ _).trans hy) hne
  obtain rfl : z = y := by
    have e : P ++ [z] = P ++ [y] := (List.prefix_of_prefix_length_le hz hy (by simp)).eq_of_length (by simp)
    simpa using e
  obtain ⟨C, htree, _⟩ := hs2.tree
  have hok := htree.ok P n hn
  obtain ⟨s, hs⟩ := hok.start_some hch
  have hnd : n.turns.Nodup := by
    rw [GroupNode.turns_of_start hs]; exact Rotation.turns_nodup (hok.list.nodup_iff.mpr hok.nodup)
  have hpair := ha2 n hn (by rw [ht]; simp)
  rw [ht] at hnd hpair
  exact absurd (hx second (by simp)) (hskip x (Rotation.mem_of_pair hnd hxy hpair))

end Runs

/-- A check for a leaf. -/
def leafReady (fq : FairRoundRobinQueue) (p : Path) : Bool := (fq.nodes.lookup p).any fq.isReady

theorem deliverable_of_leafReady (h : fq.leafReady p = true) : fq.Deliverable p := by
  obtain ⟨n, hn, hr⟩ := (Option.any_eq_true _ _).mp h
  obtain ⟨⟨hch, hlen⟩, hlt⟩ : (n.children = [] ∧ 0 < n.queue.len) ∧ fq.unacked n.groupKey < fq.maxUnacked := by
    simpa [isReady] using hr
  exact ⟨⟨n, hn, hlt⟩, .leaf hn hch hlen⟩

/-- A group emptied and filled again while the cursor stands on its only sibling. -/
def refilled : List Op :=
  [.enqueue "x" ⟨1, 0, "x"⟩, .enqueue "x" ⟨2, 0, "x"⟩, .enqueue "x" ⟨3, 0, "x"⟩, .enqueue "y" ⟨4, 0, "y"⟩, .dequeue true,
    .dequeue true, .enqueue "y" ⟨5, 0, "y"⟩, .dequeue true, .dequeue true]

theorem refilled_runs : (exec step (new 0) refilled).isSome := rfl

theorem round_robin_fair_refilled :
    let r := (exec step (new 0) refilled).get refilled_runs
    r.1.map (·.output.map (·.id)) = [none, none, none, none, some 1, some 4, none, some 2, some 5] ∧
      ∃ e ∈ (r.1.drop 6).take 2, DeliversUnder e ["x"] := by
  intro r
  have hlen : r.1.length = 9 := rfl
  have hsplit : r.1 = r.1.take 5 ++ r.1[5] :: ((r.1.drop 6).take 2 ++ [r.1[8]]) := rfl
  have hrun : Run step (new 0) r.1 r.2 := Run.of_exec_isSome refilled_runs
  have hops : ∀ e ∈ r.1, e.input.plain = true := by decide
  have hx : ∀ e ∈ (r.1.drop 6).take 2 ++ [r.1[8]], e.before.leafReady ["x"] = true := by decide
  have hcut : ∀ e ∈ (r.1.drop 6).take 2, CutsIn e.before [] "x" "y" e.input = false := by decide
  rw [hsplit] at hrun hops
  refine ⟨rfl, round_robin_fair hrun hops (by decide) ?_ ?_ (fun e he => deliverable_of_leafReady (hx e he)) hcut⟩
  · exact ⟨true, _, rfl, rfl, by decide⟩
  · exact ⟨true, _, rfl, rfl, by decide⟩

/-- The same with the cursor on a third group: the refilled one is now next after that one. -/
def bypassing : List Op :=
  [.enqueue "x" ⟨1, 0, "x"⟩, .enqueue "x" ⟨2, 0, "x"⟩, .enqueue "y" ⟨3, 0, "y"⟩, .enqueue "z" ⟨4, 0, "z"⟩, .dequeue true,
    .dequeue true, .enqueue "y" ⟨5, 0, "y"⟩, .dequeue true, .dequeue true]

theorem bypassing_runs : (exec step (new 0) bypassing).isSome := rfl

/-- Two deliveries out of `y`, at the events 5 and 8, with `x` deliverable in between and not served. -/
theorem sibling_bypassed :
    let r := (exec step (new 0) bypassing).get bypassing_runs
    Run step (new 0) r.1 r.2 ∧ (∀ e ∈ r.1, e.input.plain = true) ∧ r.1.length = 9 ∧
      r.1.map (·.output.map (·.group)) = [none, none, none, none, some "x", some "y", none, some "z", some "y"] ∧
      ∀ e ∈ r.1.drop 6, e.before.Deliverable ["x"] ∧ ¬ DeliversUnder e ["x"] := by
  intro r
  have hx : ∀ e ∈ r.1.drop 6, e.before.leafReady ["x"] = true ∧ ∀ it ∈ e.output, ¬ ["x"] <+: pathOf it := by decide
  refine ⟨Run.of_exec_isSome bypassing_runs, by decide, rfl, rfl, fun e he => ?_⟩
  obtain ⟨hready, hout⟩ := hx e he
  refine ⟨deliverable_of_leafReady hready, fun ⟨_, it, _, ho, hp⟩ => ?_⟩
  exact hout it ho hp

end FairRoundRobinQueue

end Doq.Memory
