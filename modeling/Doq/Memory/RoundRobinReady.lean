/-
  Doq.Memory.RoundRobinReady — the leaf index, the ids and the ready counter of the
  round-robin queue (see `Doq.Memory.RoundRobin`).

  For groups that are not empty and do not start with a dot a node's key is its path
  again, so a message is found under its group and a pruned leaf takes its own index entry
  with it. `Strict fq dirty` says so, and that every ready flag outside `dirty` is what
  `isReady` computes: a write makes the nodes it touches dirty, and the refresh at the end
  of every operation cleans them. `distinct` is whether the ready messages are known to
  have distinct ids: only then does a leaf's id map name every item of its heap.

  Proved: on such groups `Enqueue`, `Dequeue`, `Delete`, `UpdatePriority`,
  `UpdateWeights`, `MarkUnacked`, `UpdateMaxUnacked` and `RestoreSchedulingState` keep
  `Inv`, which is `Tree` with the counts exactly the ready messages', and `Strict` with no
  dirty node. With distinct ids `Get` and `Delete` find a message exactly when it is ready
  in that group. `PeekReady` is whether some leaf is ready.
-/

import Doq.Memory.RoundRobinSafe

namespace Doq.Memory.FairRoundRobinQueue

open Lib

variable {fq fq' : FairRoundRobinQueue} {C D : Multiset Path} {p q : Path} {n : GroupNode} {distinct : Prop}
    {dirty dirty' : Path → Prop}

/-- The number of leaves whose flag is up. -/
def leavesReady (fq : FairRoundRobinQueue) : Int := fq.nodes.total fun _ n => if n.ready then 1 else 0

/-- A group the queue files under its own name. -/
def GoodGroup (group : String) : Prop := group ≠ "" ∧ group.toList.head? ≠ some '.'

instance (group : String) : Decidable (GoodGroup group) := inferInstanceAs (Decidable (_ ∧ _))

structure Strict (distinct : Prop) (fq : FairRoundRobinQueue) (dirty : Path → Prop) : Prop where
  key : ∀ p n, fq.nodes.lookup p = some n → n.groupKey = Dotted.join p
  head : ∀ p n, fq.nodes.lookup p = some n → p.head? ≠ some ""
  dotFree : ∀ p n, fq.nodes.lookup p = some n → ∀ c ∈ p, Dotted.DotFree c
  filed : ∀ it ∈ fq.ready, fq.groupKeyToLeaf.lookup it.group = some (pathOf it)
  index : ∀ g p, fq.groupKeyToLeaf.lookup g = some p → ∃ n, fq.nodes.lookup p = some n
  exact : distinct → ∀ p n, fq.nodes.lookup p = some n → n.queue.Exact
  sum : fq.readyLeaves = fq.leavesReady
  flag : ∀ p n, fq.nodes.lookup p = some n → ¬ dirty p → n.ready = fq.isReady n

/-! ## Small steps -/

theorem isReady_congr (hu : fq'.unackedByGroup = fq.unackedByGroup) (hm : fq'.maxUnacked = fq.maxUnacked) (n : GroupNode) :
    fq'.isReady n = fq.isReady n := by
  unfold isReady unacked
  rw [hu, hm]

theorem leavesReady_map (g : Path → GroupNode → GroupNode) (hl : ∀ q, fq'.nodes.lookup q = (fq.nodes.lookup q).map (g q))
    (hr : ∀ q n, fq.nodes.lookup q = some n → (g q n).ready = n.ready) : fq'.leavesReady = fq.leavesReady := by
  unfold leavesReady
  rw [FinMap.total_map _ g hl]
  exact FinMap.total_congr fun q n h => by rw [hr q n h]

/-- The strict facts after a change that keeps every node and its key. -/
theorem Strict.pointwise (h : Strict distinct fq dirty) (g : Path → GroupNode → GroupNode)
    (hl : ∀ q, fq'.nodes.lookup q = (fq.nodes.lookup q).map (g q))
    (hkey : ∀ q n, fq.nodes.lookup q = some n → (g q n).groupKey = n.groupKey)
    (hfiled : ∀ it ∈ fq'.ready, fq'.groupKeyToLeaf.lookup it.group = some (pathOf it))
    (hindex : ∀ g p, fq'.groupKeyToLeaf.lookup g = some p → ∃ n, fq.nodes.lookup p = some n)
    (hexact : distinct → ∀ q n, fq.nodes.lookup q = some n → (g q n).queue.Exact)
    (hsum : fq'.readyLeaves = fq'.leavesReady)
    (hflag : ∀ q n, fq.nodes.lookup q = some n → ¬ dirty' q → (g q n).ready = fq'.isReady (g q n)) :
    Strict distinct fq' dirty' := by
  have back : ∀ q m, fq'.nodes.lookup q = some m → ∃ n, fq.nodes.lookup q = some n ∧ g q n = m := fun q m hm => by
    rw [hl, Option.map_eq_some_iff] at hm; exact hm
  constructor
  case key => intro q m hm; obtain ⟨n, hn, rfl⟩ := back q m hm; rw [hkey q n hn]; exact h.key q n hn
  case head => intro q m hm; obtain ⟨n, hn, _⟩ := back q m hm; exact h.head q n hn
  case dotFree => intro q m hm; obtain ⟨n, hn, _⟩ := back q m hm; exact h.dotFree q n hn
  case filed => exact hfiled
  case index =>
    intro g' p hg
    obtain ⟨n, hn⟩ := hindex g' p hg
    exact ⟨g p n, by rw [hl, hn]; rfl⟩
  case exact => intro hd q m hm; obtain ⟨n, hn, rfl⟩ := back q m hm; exact hexact hd q n hn
  case sum => exact hsum
  case flag => intro q m hm hd; obtain ⟨n, hn, rfl⟩ := back q m hm; exact hflag q n hn hd

theorem refresh_sum (p : Path) (h : fq.readyLeaves = fq.leavesReady) :
    (fq.refreshLeafReady p).readyLeaves = (fq.refreshLeafReady p).leavesReady := by
  unfold refreshLeafReady
  split
  · exact h
  · rename_i n hn
    split
    · exact h
    · rename_i hr
      have hold := FinMap.total_of_lookup (fun (_ : Path) (n : GroupNode) => if n.ready then (1 : Int) else 0) hn
      have hnew := FinMap.total_insert (fun (_ : Path) (n : GroupNode) => if n.ready then (1 : Int) else 0) fq.nodes p
        { n with ready := fq.isReady n }
      show _ = FinMap.total _ (fq.nodes.insert p _)
      unfold leavesReady at h
      rw [hnew]
      rw [hold] at h
      revert hr h
      cases fq.isReady n <;> cases n.ready <;> simp <;> omega

/-- The refresh cleans the node it is called on. -/
theorem Strict.refresh (h : Strict distinct fq dirty) (p : Path) :
    Strict distinct (fq.refreshLeafReady p) fun q => dirty q ∧ q ≠ p := by
  have hf := refresh_frame fq p
  refine h.pointwise _ (refresh_lookup fq p) (fun q n _ => by split <;> rfl) (by rw [refresh_ready, hf.leaf]; exact h.filed)
    (by rw [hf.leaf]; exact h.index) (fun hd q n hn => by split <;> exact h.exact hd q n hn) (refresh_sum p h.sum)
      fun q n hn hd => ?_
  rw [isReady_congr hf.unacked hf.max]
  split
  · rfl
  · rename_i hq
    exact h.flag q n hn fun hd' => hd ⟨hd', hq⟩

theorem Strict.mono (h : Strict distinct fq dirty) (hd : ∀ q, dirty q → dirty' q) : Strict distinct fq dirty' :=
  ⟨h.key, h.head, h.dotFree, h.filed, h.index, h.exact, h.sum, fun q n hn hq => h.flag q n hn fun hq' => hq (hd q hq')⟩

/-- Cleaned of its one dirty node. -/
theorem Strict.clean (h : Strict distinct fq (· = p)) : Strict distinct (fq.refreshLeafReady p) fun _ => False :=
  (h.refresh p).mono fun _ hq => hq.2 hq.1

/-- Only nodes, flags and the counter matter. -/
theorem Strict.congr (h : Strict distinct fq dirty) (hn : fq'.nodes = fq.nodes) (hl : fq'.groupKeyToLeaf = fq.groupKeyToLeaf)
    (hs : fq'.readyLeaves = fq.readyLeaves)
    (hr : ∀ q n, fq.nodes.lookup q = some n → ¬ dirty' q → n.ready = fq'.isReady n) : Strict distinct fq' dirty' := by
  have hready : fq'.ready = fq.ready := by unfold ready; rw [hn]
  have hsum : fq'.leavesReady = fq.leavesReady := by unfold leavesReady; rw [hn]
  refine h.pointwise (fun _ n => n) (fun q => by rw [hn]; simp) (fun _ _ _ => rfl) (by rw [hready, hl]; exact h.filed)
    (by rw [hl]; exact h.index) h.exact (by rw [hs, hsum]; exact h.sum) hr

/-! ## Enqueue -/

section AddChild

variable {cur : GroupNode} {name : String}

theorem graft_leavesReady (hp : fq.nodes.lookup p = some cur) (hn : fq.nodes.lookup (p ++ [name]) = none) :
    (fq.graft p cur name).leavesReady = fq.leavesReady := by
  have hp' : (fq.setNode (p ++ [name]) (.new (cur.childKey name))).nodes.lookup p = some cur := by
    rw [setNode_lookup, if_neg (by simp), hp]
  unfold leavesReady graft
  refine (FinMap.total_insert_same (fun (_ : Path) (n : GroupNode) => if n.ready then (1 : Int) else 0) hp' (by rfl)).trans ?_
  exact (FinMap.total_insert_new _ _ hn).trans (by simp [GroupNode.new])

/-- A new child's key is its path, since its parent's is. -/
theorem childKey_eq (hkey : cur.groupKey = Dotted.join p) (hh : (p ++ [name]).head? ≠ some "") :
    cur.childKey name = Dotted.join (p ++ [name]) := by
  unfold GroupNode.childKey
  rw [hkey]
  cases p with
  | nil => simp
  | cons a p =>
    rw [if_neg (Dotted.join_ne_empty (List.cons_ne_nil a p) (by simpa using hh)), Dotted.join_concat (List.cons_ne_nil a p)]

theorem Strict.graft (h : Strict distinct fq fun _ => False) (ht : Tree fq C D) (hp : fq.nodes.lookup p = some cur)
    (hn : name ∉ cur.children) (hh : (p ++ [name]).head? ≠ some "") (hd : Dotted.DotFree name) :
    Strict distinct (fq.graft p cur name) (· = p) := by
  have hnone := ht.no_child hp hn
  have cases : ∀ q n, (fq.graft p cur name).nodes.lookup q = some n →
      (q = p ∧ n.groupKey = cur.groupKey ∧ n.queue = cur.queue) ∨ (q = p ++ [name] ∧ n = .new (cur.childKey name)) ∨
        (q ≠ p ∧ fq.nodes.lookup q = some n) := by
    intro q n hq
    rw [graft_lookup] at hq
    split at hq
    · rename_i e; cases hq; exact Or.inl ⟨e, rfl, rfl⟩
    · rename_i e
      split at hq
      · rename_i e'; cases hq; exact Or.inr (Or.inl ⟨e', rfl⟩)
      · exact Or.inr (Or.inr ⟨e, hq⟩)
  constructor
  case key =>
    intro q n hq
    rcases cases q n hq with ⟨rfl, hk, _⟩ | ⟨rfl, rfl⟩ | ⟨_, hq⟩
    · rw [hk]; exact h.key _ _ hp
    · exact childKey_eq (h.key _ _ hp) hh
    · exact h.key q n hq
  case head =>
    intro q n hq
    rcases cases q n hq with ⟨rfl, _, _⟩ | ⟨rfl, rfl⟩ | ⟨_, hq⟩
    · exact h.head _ _ hp
    · exact hh
    · exact h.head q n hq
  case dotFree =>
    intro q n hq c hc
    rcases cases q n hq with ⟨rfl, _, _⟩ | ⟨rfl, rfl⟩ | ⟨_, hq⟩
    · exact h.dotFree _ _ hp c hc
    · rcases List.mem_append.mp hc with hc | hc
      · exact h.dotFree _ _ hp c hc
      · rw [List.mem_singleton.mp hc]; exact hd
    · exact h.dotFree q n hq c hc
  case filed => rw [graft_ready hp hnone]; exact h.filed
  case index =>
    intro g q hg
    obtain ⟨n, hn⟩ := h.index g q hg
    rw [graft_lookup]
    split
    · exact ⟨_, rfl⟩
    · split
      · exact ⟨_, rfl⟩
      · exact ⟨n, hn⟩
  case exact =>
    intro hdis q n hq
    rcases cases q n hq with ⟨rfl, _, hq'⟩ | ⟨rfl, rfl⟩ | ⟨_, hq⟩
    · rw [hq']; exact h.exact hdis _ _ hp
    · exact PriorityMemoryQueue.new_exact
    · exact h.exact hdis q n hq
  case sum => rw [graft_leavesReady hp hnone]; exact h.sum
  case flag =>
    intro q n hq hne
    rcases cases q n hq with ⟨rfl, _, _⟩ | ⟨rfl, rfl⟩ | ⟨_, hq⟩
    · exact absurd rfl hne
    · simp [isReady, GroupNode.new, PriorityMemoryQueue.new, PriorityMemoryQueue.len]
    · exact h.flag q n hq id

theorem Strict.addChild (h : Strict distinct fq fun _ => False) (ht : Tree fq C D) (hp : fq.nodes.lookup p = some cur)
    (hh : (p ++ [name]).head? ≠ some "") (hd : Dotted.DotFree name) : Strict distinct (fq.addChild p name) fun _ => False := by
  rw [addChild_eq hp]
  split
  · exact h
  · rename_i hn; exact (h.graft ht hp hn hh hd).clean

end AddChild

theorem Strict.descend (names : List String) : ∀ {fq : FairRoundRobinQueue} {p : Path} {cur : GroupNode},
    Strict distinct fq (fun _ => False) → Tree fq C D → fq.nodes.lookup p = some cur → (∃ x ∈ D, p ++ names <+: x) →
    (p ++ names).head? ≠ some "" → (∀ c ∈ names, Dotted.DotFree c) → Strict distinct (fq.descend p names) fun _ => False := by
  induction names with
  | nil => intro fq p cur h _ _ _ _ _; exact h
  | cons name names ih =>
    intro fq p cur h ht hp hx hh hd
    have happ : p ++ name :: names = p ++ [name] ++ names := by simp
    rw [happ] at hx hh
    obtain ⟨h1, _, m, hm⟩ := ht.addChild hp (by
      obtain ⟨x, hx, hpre⟩ := hx
      exact ⟨x, hx, (List.prefix_append _ _).trans hpre⟩)
    have hh' : (p ++ [name]).head? ≠ some "" := by cases p <;> simpa using hh
    exact ih (h.addChild ht hp hh' (hd name (List.mem_cons_self ..))) h1 hm hx hh fun c hc => hd c (List.mem_cons_of_mem _ hc)

theorem GoodGroup.groupOf {group : String} (hg : GoodGroup group) : groupOf group = group := if_neg hg.1

theorem GoodGroup.filed {group : String} (hg : GoodGroup group) (item : Item) :
    filed group item = { item with group := group } := by
  unfold FairRoundRobinQueue.filed; rw [hg.groupOf]

theorem modifyNode_leaves (fq : FairRoundRobinQueue) (p : Path) (f : GroupNode → GroupNode) :
    (fq.modifyNode p f).readyLeaves = fq.readyLeaves := by
  unfold modifyNode; split <;> rfl

theorem restoreNode_leaves (fq : FairRoundRobinQueue) (state : SchedulingNode) :
    (fq.restoreNode state).readyLeaves = fq.readyLeaves := by
  unfold restoreNode
  split
  · rfl
  · exact modifyNode_leaves _ _ _

theorem addCount_leaves (δ : Int) (rev : List String) :
    ∀ fq : FairRoundRobinQueue, (fq.addCount δ rev).readyLeaves = fq.readyLeaves := by
  induction rev with
  | nil => intro fq; exact modifyNode_leaves _ _ _
  | cons name names ih => intro fq; exact (ih _).trans (modifyNode_leaves _ _ _)

/-- The message pushed at its leaf, counted and indexed: `Enqueue` between building the path
    and refreshing the leaf. -/
def file (fq : FairRoundRobinQueue) (group : String) (item : Item) : FairRoundRobinQueue :=
  let fq := fq.modifyNode (Dotted.split group) fun current => { current with queue := current.queue.heapPush item }
  let fq := fq.addCount 1 (Dotted.split group).reverse
  { fq with groupKeyToLeaf := fq.groupKeyToLeaf.insert group (Dotted.split group), totalMessages := fq.totalMessages + 1 }

theorem enqueue_eq (fq : FairRoundRobinQueue) (group : String) (item : Item) :
    fq.enqueue group item = ((fq.descend [] (Dotted.split (groupOf group))).file (groupOf group)
      (filed group item)).refreshLeafReady (Dotted.split (groupOf group)) := rfl

/-- What `file` does to the node at `q`. -/
def fileAt (x : Path) (item : Item) (q : Path) (n : GroupNode) : GroupNode :=
  { n with
    queue := if q = x then n.queue.heapPush item else n.queue
    messageCount := if q <+: x then n.messageCount + 1 else n.messageCount }

theorem file_lookup (fq : FairRoundRobinQueue) (group : String) (item : Item) (q : Path) :
    (fq.file group item).nodes.lookup q = (fq.nodes.lookup q).map (fileAt (Dotted.split group) item q) := by
  show (FairRoundRobinQueue.addCount 1 _ (Dotted.split group).reverse).nodes.lookup q = _
  rw [addCount_lookup, modifyNode_lookup, Option.map_map, List.reverse_reverse]
  congr 1
  funext n
  simp only [Function.comp_apply, fileAt]
  by_cases e : q = Dotted.split group
  · subst e; simp
  · by_cases e' : q <+: Dotted.split group <;> simp [e, e']

theorem file_fields (fq : FairRoundRobinQueue) (group : String) (item : Item) :
    (fq.file group item).groupKeyToLeaf = fq.groupKeyToLeaf.insert group (Dotted.split group) ∧
      (fq.file group item).unackedByGroup = fq.unackedByGroup ∧ (fq.file group item).maxUnacked = fq.maxUnacked ∧
      (fq.file group item).readyLeaves = fq.readyLeaves := by
  have hf := (modifyNode_frame fq (Dotted.split group) fun current => { current with queue := current.queue.heapPush item }).trans
    (addCount_frame 1 (Dotted.split group).reverse _)
  refine ⟨?_, hf.unacked, hf.max, (addCount_leaves _ _ _).trans (modifyNode_leaves _ _ _)⟩
  unfold file
  simp only [hf.leaf]

theorem Strict.file {group : String} {item : Item} (h : Strict distinct fq fun _ => False)
    (hready : (fq.file group item).ready = item ::ₘ fq.ready) (hi : item.group = group)
    (hn : ∃ n, fq.nodes.lookup (Dotted.split group) = some n)
    (hfresh : distinct → ∀ it ∈ fq.ready, it.id ≠ item.id) : Strict distinct (fq.file group item) (· = Dotted.split group) := by
  obtain ⟨hleaf, hu, hm, hlv⟩ := file_fields fq group item
  refine h.pointwise _ (file_lookup fq group item) (fun _ _ _ => rfl) (fun it hit => ?_) (fun g p hg => ?_)
    (fun hd q n hn => ?_) ?_
    fun q n hn hq => ?_
  · rw [hready] at hit
    rw [hleaf, FinMap.lookup_insert_eq]
    rcases Multiset.mem_cons.mp hit with rfl | hit
    · rw [if_pos hi, ← hi]; rfl
    · split
      · rename_i e; rw [← e]; rfl
      · exact h.filed it hit
  · rw [hleaf, FinMap.lookup_insert_eq] at hg
    split at hg
    · cases hg; exact hn
    · exact h.index g p hg
  · have hex := h.exact hd q n hn
    unfold fileAt
    simp only
    split
    · refine (PriorityMemoryQueue.heapPush_grown n.queue item).exact hex fun hmem => ?_
      obtain ⟨it, hit, hid⟩ := Multiset.mem_map.mp hmem
      exact hfresh hd it (mem_ready.mpr ⟨q, n, hn, hit⟩) hid
    · exact hex
  · rw [hlv, leavesReady_map _ (file_lookup fq group item) fun _ _ _ => rfl]; exact h.sum
  · rw [isReady_congr hu hm]
    unfold fileAt isReady
    simp only [if_neg hq]
    exact h.flag q n hn id

theorem Strict.enqueue {group : String} {item : Item} (h : Strict distinct fq fun _ => False) (ht : Tree fq C C)
    (hg : GoodGroup group)
    (hfresh : distinct → ∀ it ∈ fq.ready, it.id ≠ item.id) : Strict distinct (fq.enqueue group item) fun _ => False := by
  have hready := (enqueue_tree ht group item).2
  rw [enqueue_eq, refresh_ready, hg.groupOf] at hready
  rw [enqueue_eq, hg.groupOf]
  have hx : ∃ y ∈ Dotted.split group ::ₘ C, [] ++ Dotted.split group <+: y :=
    ⟨_, Multiset.mem_cons_self _ _, List.prefix_rfl⟩
  have ht' := ht.mono (Multiset.subset_cons C (Dotted.split group))
  obtain ⟨r, hr⟩ := ht.root
  obtain ⟨_, hr1, hn⟩ := ht'.descend _ hr hx
  have h1 := h.descend _ ht' hr hx (Dotted.head?_split_ne_empty hg.1 hg.2) fun c hc => Dotted.dotFree_of_mem_split hc
  refine (h1.file (by rw [hr1]; exact hready) hg.groupOf hn fun hd it hit => ?_).clean
  rw [hr1] at hit
  exact hfresh hd it hit

/-! ## Pruning -/

section Prune

variable {parent child : GroupNode} {c : String}

theorem unlink_leavesReady (hp : fq.nodes.lookup p = some parent) (hch : fq.nodes.lookup (p ++ [c]) = some child) :
    fq.leavesReady = (if child.ready then 1 else 0) + (fq.unlink p parent child c).leavesReady := by
  have hp' : (fq.nodes.erase (p ++ [c])).lookup p = some parent := by rw [FinMap.lookup_erase_eq, if_neg (by simp), hp]
  unfold leavesReady unlink
  rw [FinMap.total_of_lookup _ hch]
  congr 1
  exact (FinMap.total_insert_same (fun (_ : Path) (n : GroupNode) => if n.ready then (1 : Int) else 0) hp' (by rfl)).symm

/-- A path below the root is read back from its key. -/
theorem Strict.split_key (h : Strict distinct fq dirty) (hp : p ≠ []) (hn : fq.nodes.lookup p = some n) :
    Dotted.split n.groupKey = p := by
  rw [h.key p n hn]
  exact Dotted.split_join hp (h.dotFree p n hn)

/-- The step of the removal loop: the child's index entry and flag go with it, and the
    parent, which may have become a leaf, is the dirty node. -/
theorem Strict.unlink (h : Strict distinct fq (· = p ++ [c])) (ht : Tree fq C D) (hp : fq.nodes.lookup p = some parent)
    (hch : fq.nodes.lookup (p ++ [c]) = some child) (hempty : child.queue.held = 0) :
    Strict distinct (fq.unlink p parent child c) (· = p) := by
  have cases : ∀ q n, (fq.unlink p parent child c).nodes.lookup q = some n →
      (q = p ∧ n.groupKey = parent.groupKey ∧ n.queue = parent.queue) ∨ (q ≠ p ∧ q ≠ p ++ [c] ∧ fq.nodes.lookup q = some n) := by
    intro q n hq
    rw [unlink_lookup] at hq
    split at hq
    · rename_i e; cases hq; exact Or.inl ⟨e, rfl, rfl⟩
    · rename_i e
      split at hq
      · cases hq
      · rename_i e'; exact Or.inr ⟨e, e', hq⟩
  constructor
  case key =>
    intro q n hq
    rcases cases q n hq with ⟨rfl, hk, _⟩ | ⟨_, _, hq⟩
    · rw [hk]; exact h.key _ _ hp
    · exact h.key q n hq
  case head =>
    intro q n hq
    rcases cases q n hq with ⟨rfl, _, _⟩ | ⟨_, _, hq⟩
    · exact h.head _ _ hp
    · exact h.head q n hq
  case dotFree =>
    intro q n hq
    rcases cases q n hq with ⟨rfl, _, _⟩ | ⟨_, _, hq⟩
    · exact h.dotFree _ _ hp
    · exact h.dotFree q n hq
  case filed =>
    intro it hit
    rw [unlink_ready hp hch hempty] at hit
    -- no ready message has the pruned leaf's key: it would lie in its queue
    have hne : it.group ≠ child.groupKey := fun e => by
      have hpath : pathOf it = p ++ [c] := by unfold pathOf; rw [e, h.split_key (by simp) hch]
      obtain ⟨q, n, hn, hitn⟩ := mem_ready.mp hit
      rw [(ht.ok q n hn).items it hitn] at hpath
      subst hpath
      rw [hch] at hn; cases hn
      rw [hempty] at hitn
      exact Multiset.notMem_zero it hitn
    show (fq.groupKeyToLeaf.erase child.groupKey).lookup it.group = _
    rw [FinMap.lookup_erase_eq, if_neg hne]
    exact h.filed it hit
  case index =>
    intro g q hg
    change (fq.groupKeyToLeaf.erase child.groupKey).lookup g = _ at hg
    rw [FinMap.lookup_erase_eq] at hg
    split at hg
    · cases hg
    · rename_i hne
      obtain ⟨n, hn⟩ := h.index g q hg
      rw [unlink_lookup]
      split
      · exact ⟨_, rfl⟩
      · -- an entry that leads to the pruned leaf is the one just erased
        rw [if_neg fun e => hne ?_]
        · exact ⟨n, hn⟩
        · refine Dotted.split_inj ?_
          rw [h.split_key (by simp) hch, ← e, ht.leaf g q hg]
  case exact =>
    intro hd q n hq
    rcases cases q n hq with ⟨rfl, _, hq'⟩ | ⟨_, _, hq⟩
    · rw [hq']; exact h.exact hd _ _ hp
    · exact h.exact hd q n hq
  case sum =>
    have hs := h.sum
    rw [unlink_leavesReady hp hch] at hs
    show (if child.ready then fq.readyLeaves - 1 else fq.readyLeaves) = _
    split at hs <;> rename_i hr
    · rw [if_pos hr]; omega
    · rw [if_neg hr]; omega
  case flag =>
    intro q n hq hne
    rcases cases q n hq with ⟨rfl, _, _⟩ | ⟨_, hqc, hq⟩
    · exact absurd rfl hne
    · exact (h.flag q n hq hqc).trans (isReady_congr rfl rfl n).symm

end Prune

/-- The invariant on good groups, and fresh ids if `distinct`. -/
structure Inv (distinct : Prop) (fq : FairRoundRobinQueue) : Prop where
  tree : Tree fq fq.readyPaths fq.readyPaths
  total : fq.totalMessages = fq.ready.card
  strict : Strict distinct fq fun _ => False
  positive : ∀ g count, fq.unackedByGroup.lookup g = some count → 0 < count

theorem Inv.safe (h : Inv distinct fq) : Safe fq := ⟨⟨_, h.tree, le_refl _⟩, h.total⟩

/-- What holds without distinct ids. -/
theorem Inv.loosen (h : Inv distinct fq) : Inv False fq := ⟨h.tree, h.total, { h.strict with exact := False.elim }, h.positive⟩

theorem Strict.addCount (h : Strict distinct fq dirty) (δ : Int) (rev : List String) :
    Strict distinct (fq.addCount δ rev) dirty := by
  have hf := addCount_frame δ rev fq
  refine h.pointwise _ (addCount_lookup δ rev fq) (fun q n _ => by split <;> rfl)
    (by rw [addCount_ready, hf.leaf]; exact h.filed) (by rw [hf.leaf]; exact h.index)
    (fun hd q n hn => by split <;> exact h.exact hd q n hn) ?_ fun q n hn hq => ?_
  · rw [addCount_leaves, leavesReady_map _ (addCount_lookup δ rev fq) fun q n _ => by split <;> rfl]; exact h.sum
  · rw [isReady_congr hf.unacked hf.max]
    split <;> exact h.flag q n hn hq

/-- A message has left the leaf at `x`, whose flag is now out of date. -/
theorem leafLost_strict {x : Path} (ht : Tree fq (x ::ₘ fq.readyPaths) (x ::ₘ fq.readyPaths)) (hx : x ≠ [])
    (h : Strict distinct fq (· = x)) :
    Returns (fq.leafLost x) fun fq' =>
      Tree fq' fq.readyPaths fq.readyPaths ∧ fq'.ready = fq.ready ∧ Counters fq fq' ∧ Strict distinct fq' fun _ => False :=
  leafLost_rule (I := fun fq p => Strict distinct fq (· = p)) (J := fun fq => Strict distinct fq fun _ => False)
    (fun _ _ _ _ _ ht hp _ hch he h => h.unlink ht hp hch he) (fun _ _ _ h => h.clean) ht hx (le_refl _) (h.addCount _ _)

/-! ## The operations -/

theorem new_inv (maxUnacked : Int) : Inv distinct (new maxUnacked) := by
  have only : ∀ p n, (new maxUnacked).nodes.lookup p = some n → p = [] ∧ n = .new "" := by
    intro p n hn
    simp only [new, FinMap.lookup_insert_eq] at hn
    split at hn
    · rename_i e; cases hn; exact ⟨e, rfl⟩
    · cases hn
  refine ⟨new_tree maxUnacked, by simp [new_ready]; rfl, ?_, fun g count h => by cases h⟩
  constructor
  case key => intro p n hn; obtain ⟨rfl, rfl⟩ := only p n hn; rfl
  case head => intro p n hn; obtain ⟨rfl, rfl⟩ := only p n hn; simp
  case dotFree => intro p n hn c hc; obtain ⟨rfl, rfl⟩ := only p n hn; cases hc
  case filed => intro it hit; rw [new_ready] at hit; exact absurd hit (Multiset.notMem_zero it)
  case index => intro g p hg; cases hg
  case exact => intro _ p n hn; obtain ⟨rfl, rfl⟩ := only p n hn; exact PriorityMemoryQueue.new_exact
  case sum => rfl
  case flag => intro p n hn _; obtain ⟨rfl, rfl⟩ := only p n hn; rfl

theorem Inv.enqueue (h : Inv distinct fq) {group : String} (hg : GoodGroup group) {item : Item}
    (hfresh : distinct → ∀ it ∈ fq.ready, it.id ≠ item.id) :
    Inv distinct (fq.enqueue group item) ∧ (fq.enqueue group item).ready = { item with group := group } ::ₘ fq.ready ∧
      (fq.enqueue group item).unackedByGroup = fq.unackedByGroup ∧ (fq.enqueue group item).maxUnacked = fq.maxUnacked := by
  obtain ⟨ht, hr⟩ := enqueue_tree h.tree group item
  obtain ⟨_, hu, hm, _⟩ := enqueue_fields fq group item
  have hpaths : (fq.enqueue group item).readyPaths = pathOf (filed group item) ::ₘ fq.readyPaths := by
    unfold readyPaths; rw [hr, Multiset.map_cons]
  exact ⟨⟨by rw [hpaths]; exact ht, (h.safe.enqueue group item).1.total, h.strict.enqueue h.tree hg hfresh,
    by rw [hu]; exact h.positive⟩, by rw [hr, hg.filed], hu, hm⟩

/-- Where ids may repeat, any item may be enqueued. -/
theorem Inv.enqueue_any (h : Inv False fq) {group : String} (hg : GoodGroup group) (item : Item) :
    Inv False (fq.enqueue group item) ∧ (fq.enqueue group item).ready = { item with group := group } ::ₘ fq.ready ∧
      (fq.enqueue group item).unackedByGroup = fq.unackedByGroup ∧ (fq.enqueue group item).maxUnacked = fq.maxUnacked :=
  h.enqueue hg False.elim

/-- Where a ready message lies. -/
theorem Inv.located (h : Inv distinct fq) (hd : distinct) {it : Item} (hit : it ∈ fq.ready) :
    fq.groupKeyToLeaf.lookup it.group = some (pathOf it) ∧ ∃ n, fq.nodes.lookup (pathOf it) = some n ∧
      n.queue.Found it.id it := by
  refine ⟨h.strict.filed it hit, ?_⟩
  obtain ⟨p, n, hn, hitn⟩ := mem_ready.mp hit
  have hp := (h.tree.ok p n hn).items it hitn
  subst hp
  exact ⟨n, hn, (h.strict.exact hd _ n hn).found hitn⟩

/-- What lies in the leaf a group's key leads to is of that group. -/
theorem Inv.of_leaf (h : Inv distinct fq) {group : String} {leaf : Path} (hl : fq.groupKeyToLeaf.lookup group = some leaf)
    (hn : fq.nodes.lookup leaf = some n) {id : UInt64} {it : Item} (hf : n.queue.Found id it) :
    it ∈ fq.ready ∧ it.group = group ∧ it.id = id := by
  have hok := h.tree.ok leaf n hn
  refine ⟨mem_ready.mpr ⟨leaf, n, hn, hf.mem⟩, Dotted.split_inj ?_, hf.id_eq hok.sound⟩
  exact (hok.items it hf.mem).trans (h.tree.leaf group leaf hl)

/-- The message a group and an id name, if it is ready. -/
def Holds (fq : FairRoundRobinQueue) (group : String) (id : UInt64) (it : Item) : Prop :=
  it ∈ fq.ready ∧ it.group = group ∧ it.id = id

theorem Inv.missing (h : Inv distinct fq) (hd : distinct) {group : String} {leaf : Path} {id : UInt64}
    (hl : fq.groupKeyToLeaf.lookup group = some leaf) (hn : fq.nodes.lookup leaf = some n) (hm : n.queue.Missing id) (it : Item) :
    ¬ fq.Holds group id it := by
  intro hit
  obtain ⟨hit, rfl, rfl⟩ := hit
  obtain ⟨hl', m, hm', hf⟩ := h.located hd hit
  rw [hl] at hl'; cases hl'
  rw [hn] at hm'; cases hm'
  obtain ⟨k, hk, _⟩ := hf
  unfold PriorityMemoryQueue.Missing at hm
  rw [hm] at hk; cases hk

theorem Inv.unfiled (h : Inv distinct fq) {group : String} (hl : fq.groupKeyToLeaf.lookup group = none) (id : UInt64)
    (it : Item) :
    ¬ fq.Holds group id it := by
  intro hit
  obtain ⟨hit, rfl, _⟩ := hit
  rw [h.strict.filed it hit] at hl; cases hl

/-- An index entry leads to a node. -/
theorem Inv.no_leaf (h : Inv distinct fq) {group : String} {leaf : Path} (hl : fq.groupKeyToLeaf.lookup group = some leaf)
    (hn : fq.nodes.lookup leaf = none) : False := by
  obtain ⟨n, hn'⟩ := h.strict.index group leaf hl
  rw [hn] at hn'; cases hn'

theorem Inv.get (h : Inv distinct fq) (hd : distinct) (group : String) (id : UInt64) :
    Returns (fq.get group id) fun r => ∀ it, r = some it ↔ fq.Holds group id it := by
  unfold FairRoundRobinQueue.get leafQueue
  cases hl : fq.groupKeyToLeaf.lookup group with
  | none => exact .intro fun it => by simp [h.unfiled hl id it]
  | some leaf =>
    simp only [Option.bind_eq_bind, Option.bind_some]
    cases hn : fq.nodes.lookup leaf with
    | none => exact (h.no_leaf hl hn).elim
    | some n =>
      rcases (h.tree.ok leaf n hn).sound.missing_or_found id with hm | ⟨it, hf⟩
      · exact .of_eq (PriorityMemoryQueue.get_missing hm) fun it => by simp [h.missing hd hl hn hm it]
      · refine .of_eq (PriorityMemoryQueue.get_found hf) fun it' => ?_
        constructor
        · intro e; cases e; exact h.of_leaf hl hn hf
        · intro hit
          obtain ⟨hit, rfl, rfl⟩ := hit
          obtain ⟨hl', m, hm, hf'⟩ := h.located hd hit
          rw [hl] at hl'; cases hl'
          rw [hn] at hm; cases hm
          rw [hf.unique hf']

theorem Inv.holds_unique (h : Inv distinct fq) (hd : distinct) {group : String} {id : UInt64} {a b : Item}
    (ha : fq.Holds group id a)
    (hb : fq.Holds group id b) : a = b := by
  obtain ⟨r, _, hr⟩ := h.get hd group id
  exact Option.some.inj (((hr a).mpr ha).symm.trans ((hr b).mpr hb))

theorem Strict.setQueue (h : Strict distinct fq dirty) (hn : fq.nodes.lookup p = some n) {queue : PriorityMemoryQueue}
    (hx : distinct → queue.Exact)
    (hready : ∀ it ∈ (fq.setNode p { n with queue := queue }).ready, fq.groupKeyToLeaf.lookup it.group = some (pathOf it)) :
    Strict distinct (fq.setNode p { n with queue := queue }) fun q => dirty q ∨ q = p := by
  have hl := setNode_map hn { n with queue := queue }
  have node : ∀ q m, fq.nodes.lookup q = some m → q = p → m = n := fun q m hm e => by
    subst e; rw [hn] at hm; cases hm; rfl
  refine h.pointwise _ hl (fun q m hm => ?_) hready h.index (fun hd q m hm => ?_) ?_ fun q m hm hq => ?_
  · split
    · rename_i e; rw [node q m hm e]
    · rfl
  · split
    · exact hx hd
    · exact h.exact hd q m hm
  · refine h.sum.trans (leavesReady_map _ hl fun q m hm => ?_).symm
    split
    · rename_i e; rw [node q m hm e]
    · rfl
  · rw [if_neg fun e => hq (Or.inr e)]
    exact h.flag q m hm fun hd => hq (Or.inl hd)

theorem Strict.moved (h : Strict distinct fq dirty) (hm : Moved fq fq') : Strict distinct fq' dirty := by
  refine h.pointwise _ hm.nodes (fun _ _ _ => rfl) (by rw [hm.ready, hm.frame.leaf]; exact h.filed)
    (by rw [hm.frame.leaf]; exact h.index) h.exact ?_ fun q n hn hq => ?_
  · rw [hm.leaves, leavesReady_map _ hm.nodes fun _ _ _ => rfl]; exact h.sum
  · rw [isReady_congr hm.frame.unacked hm.frame.max]
    exact h.flag q n hn hq

theorem Strict.popped {it : Item} (h : Strict distinct fq fun _ => False) (hp : Popped fq q it fq') :
    Strict distinct fq' (· = q) := by
  have hready := hp.ready
  obtain ⟨n, queue, hn, _, hs, hmv, _⟩ := hp.shrunk
  refine ((h.setQueue hn (fun hd => hs.exact (h.exact hd q n hn)) fun x hx => h.filed x ?_).mono fun r hr =>
    hr.resolve_left id).moved hmv
  rw [hready, hmv.ready]
  exact Multiset.mem_cons_of_mem hx

/-- The root holds no message itself. -/
theorem Tree.root_len (h : Tree fq C D) (hn : fq.nodes.lookup [] = some n) : n.queue.len = 0 := by
  rw [PriorityMemoryQueue.len_eq_card, Multiset.card_eq_zero]
  exact Multiset.eq_zero_of_forall_notMem fun it hit => pathOf_ne_nil it ((h.ok [] n hn).items it hit)

/-- A change of one group's counter leaves only that group's leaf out of date. -/
theorem Strict.recount (h : Strict distinct fq dirty) (ht : Tree fq C D) {group : String} {unackedByGroup : FinMap String Int}
    (hu : ∀ g, g ≠ group → unackedByGroup.lookup g = fq.unackedByGroup.lookup g) :
    Strict distinct { fq with unackedByGroup := unackedByGroup } fun q => dirty q ∨ q = Dotted.split group := by
  refine h.congr rfl rfl rfl fun q n hn hq => ?_
  rw [h.flag q n hn fun hd => hq (Or.inl hd)]
  by_cases hroot : q = []
  · subst hroot
    unfold isReady
    simp [ht.root_len hn]
  · have hkey : n.groupKey ≠ group := fun e => hq (Or.inr (by rw [← e, h.split_key hroot hn]))
    unfold isReady FairRoundRobinQueue.unacked
    simp only [hu _ hkey]

theorem Strict.charge (h : Strict distinct fq dirty) (ht : Tree fq C D) (ack : Bool) (group : String) :
    Strict distinct (fq.charge ack group) fun q => dirty q ∨ q = Dotted.split group := by
  unfold FairRoundRobinQueue.charge
  split
  · exact h.mono fun _ => Or.inl
  · exact h.recount ht fun g hg => by rw [FinMap.lookup_insert_eq, if_neg hg]

theorem charge_positive (h : ∀ g count, fq.unackedByGroup.lookup g = some count → 0 < count) (ack : Bool) (group : String) :
    ∀ g count, (fq.charge ack group).unackedByGroup.lookup g = some count → 0 < count := by
  intro g count hg
  unfold charge at hg
  split at hg
  · exact h g count hg
  · simp only [FinMap.lookup_insert_eq] at hg
    split at hg
    · cases hg
      unfold unacked
      cases hc : fq.unackedByGroup.lookup group with
      | none => simp
      | some count => have := h group count hc; simp; omega
    · exact h g count hg

theorem Inv.dequeue (h : Inv distinct fq) (ack : Bool) :
    Returns (fq.dequeue ack) fun r => Inv distinct r.2 ∧ r.2.maxUnacked = fq.maxUnacked ∧
      match r.1 with
      | none => r.2.ready = fq.ready ∧ r.2.unackedByGroup = fq.unackedByGroup
      | some it => fq.ready = it ::ₘ r.2.ready ∧ r.2.unackedByGroup = (fq.charge ack it.group).unackedByGroup := by
  refine dequeue_returns h.tree (fun fq1 _ hm _ => ?_) fun it q fq1 _ hp _ => ?_
  · refine ⟨⟨?_, ?_, h.strict.moved hm, ?_⟩, hm.frame.max, hm.ready, hm.frame.unacked⟩
    · unfold readyPaths; rw [hm.ready]; exact h.tree.moved hm
    · rw [hm.frame.total, hm.ready, h.total]
    · rw [hm.frame.unacked]; exact h.positive
  · have hr := hp.ready
    have hpath := hp.path h.tree
    have hfiled := h.strict.filed it (by rw [hr]; exact Multiset.mem_cons_self _ _)
    have hpaths : fq.readyPaths = pathOf it ::ₘ fq1.readyPaths := by unfold readyPaths; rw [hr, Multiset.map_cons]
    have hpaths' : (fq1.charge ack it.group).readyPaths = fq1.readyPaths := by unfold readyPaths; rw [charge_ready]
    have ht1 := hp.tree h.tree
    have hcharge : (fq1.charge ack it.group).unackedByGroup = (fq.charge ack it.group).unackedByGroup ∧
        (fq1.charge ack it.group).maxUnacked = fq.maxUnacked := by
      unfold charge unacked
      rw [hp.frame.unacked]
      split
      · exact ⟨hp.frame.unacked, hp.frame.max⟩
      · exact ⟨rfl, hp.frame.max⟩
    unfold groupLost
    rw [charge_leaf, hp.frame.leaf, hfiled]
    have hstrict : Strict distinct (fq1.charge ack it.group) (· = pathOf it) :=
      ((h.strict.popped hp).charge ht1 ack it.group).mono fun r hr => by
        rcases hr with hr | hr
        · rw [hr, hpath]
        · exact hr
    refine (leafLost_strict (by rw [hpaths', ← hpaths]; exact charge_tree ht1 ack it.group) (pathOf_ne_nil it) hstrict).mono
      fun fq2 ⟨h1, h2, h3, h4⟩ => ?_
    rw [hpaths'] at h1
    rw [charge_ready] at h2
    have hpaths2 : fq2.readyPaths = fq1.readyPaths := by unfold readyPaths; rw [h2]
    refine ⟨⟨?_, ?_, h4.congr rfl rfl rfl fun q n hn hq => (h4.flag q n hn hq).trans (isReady_congr rfl rfl n).symm, ?_⟩,
      h3.max.trans hcharge.2, ?_, h3.unacked.trans hcharge.1⟩
    · show Tree _ fq2.readyPaths fq2.readyPaths
      rw [hpaths2]; exact h1.congr rfl rfl
    · show fq2.totalMessages - 1 = (fq2.ready.card : Int)
      rw [h3.total, charge_total, hp.frame.total, h.total, hr, h2, Multiset.card_cons]; simp
    · show ∀ g count, fq2.unackedByGroup.lookup g = some count → 0 < count
      rw [h3.unacked, hcharge.1]; exact charge_positive h.positive ack it.group
    · show fq.ready = it ::ₘ fq2.ready
      rw [h2]; exact hr

theorem Inv.delete (h : Inv distinct fq) (group : String) (id : UInt64) :
    Returns (fq.delete group id) fun r => Inv distinct r.2 ∧ r.2.maxUnacked = fq.maxUnacked ∧
      r.2.unackedByGroup = fq.unackedByGroup ∧
      match r.1 with
      | none => r.2 = fq ∧ (distinct → ∀ it, ¬ fq.Holds group id it)
      | some it => fq.Holds group id it ∧ fq.ready = it ::ₘ r.2.ready := by
  unfold FairRoundRobinQueue.delete
  split
  · rename_i hl; exact .intro ⟨h, rfl, rfl, rfl, fun _ => h.unfiled hl id⟩
  · rename_i leaf hl
    split
    · rename_i hn; exact (h.no_leaf hl hn).elim
    · rename_i n hn
      have hok := h.tree.ok leaf n hn
      rcases hok.sound.missing_or_found id with hm | ⟨it, hf⟩
      · exact .bind_eq (PriorityMemoryQueue.delete_missing hm) (.intro ⟨h, rfl, rfl, rfl, fun hd => h.missing hd hl hn hm⟩)
      · obtain ⟨queue, hd, hsh⟩ := PriorityMemoryQueue.delete_found hf hok.sound
        have hleaf : pathOf it = leaf := hok.items it hf.mem
        subst hleaf
        obtain ⟨rest, hr, hr'⟩ := ready_split hn
        have hr1 : fq.ready = it ::ₘ (fq.setNode (pathOf it) { n with queue := queue }).ready := by
          rw [hr, hr', hsh.held, Multiset.cons_add]
        have hpaths : fq.readyPaths = pathOf it ::ₘ (fq.setNode (pathOf it) { n with queue := queue }).readyPaths := by
          unfold readyPaths; rw [hr1, Multiset.map_cons]
        have hstrict := (h.strict.setQueue hn (fun hd => hsh.exact (h.strict.exact hd _ n hn)) fun x hx =>
          h.strict.filed x (by rw [hr1]; exact Multiset.mem_cons_of_mem hx)).mono fun r hr => hr.resolve_left fun f => f
        refine .bind_eq hd ((leafLost_strict (by rw [← hpaths]; exact h.tree.setNode hn _ rfl rfl (hok.shrink hsh))
          (pathOf_ne_nil it) hstrict).bind fun fq2 h2 => .intro ?_)
        obtain ⟨h1, h2, h3, h4⟩ := h2
        refine ⟨⟨?_, ?_, h4.congr rfl rfl rfl fun q n hn hq => (h4.flag q n hn hq).trans (isReady_congr rfl rfl n).symm, ?_⟩,
          h3.max, h3.unacked, h.of_leaf hl hn hf, ?_⟩
        · show Tree _ fq2.readyPaths fq2.readyPaths
          unfold readyPaths; rw [h2]; exact h1.congr rfl rfl
        · show fq2.totalMessages - 1 = (fq2.ready.card : Int)
          have htot : (fq.setNode (pathOf it) { n with queue := queue }).totalMessages = fq.ready.card := h.total
          rw [h3.total, htot, hr1, h2, Multiset.card_cons]; simp
        · show ∀ g count, fq2.unackedByGroup.lookup g = some count → 0 < count
          rw [h3.unacked]; exact h.positive
        · show fq.ready = it ::ₘ fq2.ready
          rw [h2]; exact hr1

/-- The queue of one leaf rewritten, with as many items on the same path. -/
theorem Inv.setQueue (h : Inv distinct fq) {queue : PriorityMemoryQueue} (hn : fq.nodes.lookup p = some n)
    (hok : NodeOk p { n with queue := queue }) (hx : distinct → queue.Exact) (hlen : queue.len = n.queue.len)
    (hpath : (fq.setNode p { n with queue := queue }).readyPaths = fq.readyPaths)
    (hfiled : ∀ it ∈ (fq.setNode p { n with queue := queue }).ready, fq.groupKeyToLeaf.lookup it.group = some (pathOf it)) :
    Inv distinct (fq.setNode p { n with queue := queue }) := by
  have hs := h.strict.setQueue hn hx hfiled
  refine ⟨by rw [hpath]; exact h.tree.setNode hn _ rfl rfl hok, (h.safe.setQueue hn hok hpath).total, ?_, h.positive⟩
  refine ⟨hs.key, hs.head, hs.dotFree, hs.filed, hs.index, hs.exact, hs.sum, fun q m hm _ => ?_⟩
  rw [setNode_lookup] at hm
  split at hm
  · rename_i e; subst e; cases hm
    refine (h.strict.flag q n hn fun f => f).trans ?_
    unfold isReady
    rw [hlen]
    rfl
  · exact (h.strict.flag q m hm fun f => f).trans (isReady_congr rfl rfl m).symm

theorem Inv.updatePriority (h : Inv distinct fq) (group : String) (id : UInt64) (v : Int) :
    Returns (fq.updatePriority group id v) fun fq' => Inv distinct fq' ∧ fq'.maxUnacked = fq.maxUnacked ∧
      fq'.unackedByGroup = fq.unackedByGroup ∧
      (((distinct → ∀ it, ¬ fq.Holds group id it) ∧ fq'.ready = fq.ready) ∨
        ∃ it rest, fq.Holds group id it ∧ fq.ready = it ::ₘ rest ∧ fq'.ready = { it with priority := v } ::ₘ rest) := by
  unfold FairRoundRobinQueue.updatePriority onLeafQueue
  split
  · rename_i hl; exact .intro ⟨h, rfl, rfl, Or.inl ⟨fun _ => h.unfiled hl id, rfl⟩⟩
  · rename_i leaf hl
    split
    · rename_i hn; exact (h.no_leaf hl hn).elim
    · rename_i n hn
      have hok := h.tree.ok leaf n hn
      have hx := fun hd => h.strict.exact hd leaf n hn
      rcases hok.sound.missing_or_found id with hm | ⟨it, hf⟩
      · have hr : (fq.setNode leaf { n with queue := n.queue }).ready = fq.ready := setNode_ready hn rfl
        refine .bind_eq (PriorityMemoryQueue.updatePriority_missing hm v)
          (.intro ⟨?_, rfl, rfl, Or.inl ⟨fun hd => h.missing hd hl hn hm, hr⟩⟩)
        exact h.setQueue hn hok hx rfl (by unfold readyPaths; rw [hr]) (by rw [hr]; exact h.strict.filed)
      · obtain ⟨queue, hu, hrep, hh⟩ := PriorityMemoryQueue.updatePriority_found hf v
        obtain ⟨rest, hr, hr'⟩ := ready_split hn
        obtain ⟨others, h1, h2⟩ := hrep.held
        have ho := h.of_leaf hl hn hf
        have hr1 : fq.ready = it ::ₘ (others + rest) := by rw [hr, h1, Multiset.cons_add]
        have hr2 : (fq.setNode leaf { n with queue := queue }).ready = { it with priority := v } ::ₘ (others + rest) := by
          rw [hr', h2, Multiset.cons_add]
        have hrp : Repriced fq.ready (fq.setNode leaf { n with queue := queue }).ready id v := ⟨it, _, ho.2.2, hr1, hr2⟩
        refine .bind_eq hu (.intro ⟨?_, rfl, rfl, Or.inr ⟨it, _, ho, hr1, hr2⟩⟩)
        refine h.setQueue hn (hok.replace hrep (hh hok.heaped)) (fun hd => hrep.exact (hx hd)) ?_
          (map_path_repriced hrp) fun x hx => ?_
        · rw [PriorityMemoryQueue.len_eq_card, PriorityMemoryQueue.len_eq_card, h1, h2, Multiset.card_cons, Multiset.card_cons]
        · rw [hr2] at hx
          rcases Multiset.mem_cons.mp hx with rfl | hx
          · exact h.strict.filed it ho.1
          · exact h.strict.filed x (by rw [hr1]; exact Multiset.mem_cons_of_mem hx)

/-- A node that no index entry leads to has nothing in its queue. -/
theorem Strict.unfiled_len (h : Strict distinct fq dirty) (ht : Tree fq C D) (hn : fq.nodes.lookup p = some n)
    (hl : ∀ g, fq.groupKeyToLeaf.lookup g ≠ some p) : n.queue.len = 0 := by
  rw [PriorityMemoryQueue.len_eq_card, Multiset.card_eq_zero]
  refine Multiset.eq_zero_of_forall_notMem fun it hit => hl it.group ?_
  rw [h.filed it (mem_ready.mpr ⟨p, n, hn, hit⟩), (ht.ok p n hn).items it hit]

theorem isReady_of_len (hn : n.queue.len = 0) : fq.isReady n = false := by
  unfold isReady; simp [hn]

/-- The fields a recount of one group may not touch. -/
theorem refreshGroup_frame (fq : FairRoundRobinQueue) (group : String) : Frame fq (fq.refreshGroup group) := by
  unfold refreshGroup
  split
  · exact Frame.refl fq
  · exact refresh_frame _ _

theorem Inv.recount (h : Inv distinct fq) {group : String} {unackedByGroup : FinMap String Int}
    (hu : ∀ g, g ≠ group → unackedByGroup.lookup g = fq.unackedByGroup.lookup g)
    (hpos : ∀ g count, unackedByGroup.lookup g = some count → 0 < count) :
    Inv distinct ({ fq with unackedByGroup := unackedByGroup }.refreshGroup group) := by
  obtain ⟨hsafe, hready⟩ := h.safe.recount unackedByGroup group
  have hstrict := h.strict.recount h.tree hu
  refine ⟨?_, hsafe.total, ?_, by rw [(refreshGroup_frame _ group).unacked]; exact hpos⟩
  · have ht : Tree { fq with unackedByGroup := unackedByGroup } fq.readyPaths fq.readyPaths := h.tree.congr rfl rfl
    unfold readyPaths
    rw [hready]
    unfold FairRoundRobinQueue.refreshGroup
    split
    · exact ht
    · exact ht.refresh _
  · unfold FairRoundRobinQueue.refreshGroup
    split
    · rename_i hl
      refine ⟨hstrict.key, hstrict.head, hstrict.dotFree, hstrict.filed, hstrict.index, hstrict.exact, hstrict.sum,
        fun q n hn _ => ?_⟩
      by_cases hq : q = Dotted.split group
      · have hlen := h.strict.unfiled_len h.tree hn fun g hg => by
          have e : g = group := Dotted.split_inj ((h.tree.leaf g q hg).symm.trans hq)
          rw [e] at hg
          exact absurd (hl.symm.trans hg) (by simp)
        rw [isReady_of_len hlen, h.strict.flag q n hn fun f => f, isReady_of_len hlen]
      · exact hstrict.flag q n hn fun hd => hq (hd.resolve_left fun f => f)
    · rename_i leaf hl
      have hleaf : leaf = Dotted.split group := h.tree.leaf group leaf hl
      subst hleaf
      exact (hstrict.mono fun q hq => hq.resolve_left fun f => f).clean

/-- Releasing a group's slot takes one off its counter, if there is one on it. -/
theorem Inv.updateWeights (h : Inv distinct fq) (group : String) :
    Inv distinct (fq.updateWeights group) ∧ (fq.updateWeights group).ready = fq.ready ∧
      (fq.updateWeights group).maxUnacked = fq.maxUnacked ∧
      ∀ g, (fq.updateWeights group).unacked g = if g = group then max 0 (fq.unacked g - 1) else fq.unacked g := by
  refine ⟨?_, (h.safe.updateWeights group).2, ?_⟩
  all_goals unfold FairRoundRobinQueue.updateWeights
  all_goals split
  · exact h
  · rename_i count hc
    simp only
    split
    · refine h.recount (fun g hg => by rw [FinMap.lookup_erase_eq, if_neg hg]) fun g k hg => ?_
      rw [FinMap.lookup_erase_eq] at hg
      split at hg
      · cases hg
      · exact h.positive g k hg
    · refine h.recount (fun g hg => by rw [FinMap.lookup_insert_eq, if_neg hg]) fun g k hg => ?_
      rw [FinMap.lookup_insert_eq] at hg
      split at hg
      · cases hg; omega
      · exact h.positive g k hg
  · rename_i hc
    refine ⟨rfl, fun g => ?_⟩
    split
    · rename_i e; subst e; unfold FairRoundRobinQueue.unacked; rw [hc]; rfl
    · rfl
  · rename_i count hc
    have hpos := h.positive group count hc
    have hcount : fq.unacked group = count := by unfold FairRoundRobinQueue.unacked; rw [hc]; rfl
    simp only
    split
    all_goals refine ⟨(refreshGroup_frame _ group).max, fun g => ?_⟩
    all_goals unfold FairRoundRobinQueue.unacked at hcount ⊢
    all_goals rw [(refreshGroup_frame _ group).unacked]
    · simp only [FinMap.lookup_erase_eq]
      split
      · rename_i e; subst e; rw [hcount]; simp; omega
      · rfl
    · simp only [FinMap.lookup_insert_eq]
      split
      · rename_i e; subst e; rw [hcount]; simp; omega
      · rfl

theorem Inv.markUnacked (h : Inv distinct fq) (group : String) :
    Inv distinct (fq.markUnacked group) ∧ (fq.markUnacked group).ready = fq.ready ∧
      (fq.markUnacked group).maxUnacked = fq.maxUnacked ∧
      (fq.markUnacked group).unackedByGroup = (fq.charge false group).unackedByGroup :=
  ⟨h.recount (fun g hg => by rw [FinMap.lookup_insert_eq, if_neg hg]) (charge_positive h.positive false group),
    (h.safe.markUnacked group).2, (refreshGroup_frame _ group).max, (refreshGroup_frame _ group).unacked⟩

theorem foldl_refresh_frame (leaves : List Path) : ∀ fq : FairRoundRobinQueue, Frame fq (leaves.foldl refreshLeafReady fq) := by
  induction leaves with
  | nil => intro fq; exact Frame.refl fq
  | cons p leaves ih => intro fq; exact (refresh_frame fq p).trans (ih _)

theorem Tree.foldl_refresh (leaves : List Path) :
    ∀ {fq : FairRoundRobinQueue}, Tree fq C D → Tree (leaves.foldl refreshLeafReady fq) C D := by
  induction leaves with
  | nil => intro fq h; exact h
  | cons p leaves ih => intro fq h; exact ih (h.refresh p)

theorem Strict.foldl_refresh (leaves : List Path) : ∀ {fq : FairRoundRobinQueue} {dirty : Path → Prop}, Strict distinct fq dirty →
    Strict distinct (leaves.foldl refreshLeafReady fq) fun q => dirty q ∧ q ∉ leaves := by
  induction leaves with
  | nil => intro fq dirty h; exact h.mono fun q hq => ⟨hq, List.not_mem_nil⟩
  | cons p leaves ih =>
    intro fq dirty h
    refine (ih (h.refresh p)).mono fun q hq => ⟨hq.1.1, fun hm => ?_⟩
    rcases List.mem_cons.mp hm with e | hm
    · exact hq.1.2 e
    · exact hq.2 hm

theorem Inv.updateMaxUnacked (h : Inv distinct fq) (maxUnacked : Int) :
    Inv distinct (fq.updateMaxUnacked maxUnacked) ∧ (fq.updateMaxUnacked maxUnacked).ready = fq.ready ∧
      (fq.updateMaxUnacked maxUnacked).maxUnacked = limitOf maxUnacked ∧
      (fq.updateMaxUnacked maxUnacked).unackedByGroup = fq.unackedByGroup := by
  obtain ⟨hsafe, hready⟩ := h.safe.updateMaxUnacked maxUnacked
  have hf := foldl_refresh_frame (fq.groupKeyToLeaf.entries.map (·.2)) { fq with maxUnacked := limitOf maxUnacked }
  have hstart : Strict distinct { fq with maxUnacked := limitOf maxUnacked } fun q =>
    ∃ g, fq.groupKeyToLeaf.lookup g = some q := by
    refine h.strict.congr rfl rfl rfl fun q n hn hq => ?_
    have hlen := h.strict.unfiled_len h.tree hn fun g hg => hq ⟨g, hg⟩
    rw [isReady_of_len hlen, h.strict.flag q n hn fun f => f, isReady_of_len hlen]
  refine ⟨⟨?_, hsafe.total, ?_, ?_⟩, hready, hf.max, hf.unacked⟩
  · unfold readyPaths
    rw [hready]
    exact Tree.foldl_refresh _ (h.tree.congr rfl rfl)
  · refine (hstart.foldl_refresh (fq.groupKeyToLeaf.entries.map (·.2))).mono fun q hq => ?_
    obtain ⟨⟨g, hg⟩, hnot⟩ := hq
    exact hnot (List.mem_map.mpr ⟨⟨g, q⟩, FinMap.mem_entries.mpr hg, rfl⟩)
  · show ∀ g count, (List.foldl refreshLeafReady _ _).unackedByGroup.lookup g = some count → 0 < count
    rw [hf.unacked]; exact h.positive

theorem Strict.restoreNode (h : Strict distinct fq fun _ => False) (state : SchedulingNode) :
    Strict distinct (fq.restoreNode state) fun _ => False := by
  obtain ⟨target, hl⟩ := restoreNode_lookup fq state
  have hf := restoreNode_frame fq state
  refine h.pointwise _ hl (fun q n _ => by split <;> rfl) (by rw [restoreNode_ready, hf.leaf]; exact h.filed)
    (by rw [hf.leaf]; exact h.index) (fun hd q n hn => by split <;> exact h.exact hd q n hn) ?_ fun q n hn hq => ?_
  · rw [restoreNode_leaves, leavesReady_map _ hl fun q n _ => by split <;> rfl]; exact h.sum
  · rw [isReady_congr hf.unacked hf.max]
    split <;> exact h.flag q n hn hq

theorem Inv.restoreNode (h : Inv distinct fq) (state : SchedulingNode) : Inv distinct (fq.restoreNode state) := by
  have hf := restoreNode_frame fq state
  refine ⟨?_, ?_, h.strict.restoreNode state, ?_⟩
  · unfold readyPaths; rw [restoreNode_ready]; exact h.tree.restoreNode state
  · rw [hf.total, restoreNode_ready]; exact h.total
  · rw [hf.unacked]; exact h.positive

theorem Inv.restoreSchedulingState (nodes : List SchedulingNode) : ∀ {fq : FairRoundRobinQueue}, Inv distinct fq →
    Inv distinct (fq.restoreSchedulingState nodes) ∧ (fq.restoreSchedulingState nodes).ready = fq.ready ∧
      Frame fq (fq.restoreSchedulingState nodes) := by
  induction nodes with
  | nil => intro fq h; exact ⟨h, rfl, Frame.refl fq⟩
  | cons state nodes ih =>
    intro fq h
    obtain ⟨h1, h2, h3⟩ := ih (h.restoreNode state)
    exact ⟨h1, h2.trans (restoreNode_ready fq state), (restoreNode_frame fq state).trans h3⟩

/-- `PeekReady` is whether some leaf is ready. -/
theorem Inv.peekReady (h : Inv distinct fq) : fq.peekReady = true ↔ ∃ p n, fq.nodes.lookup p = some n ∧ fq.isReady n = true := by
  unfold FairRoundRobinQueue.peekReady
  rw [decide_eq_true_iff, h.strict.sum]
  unfold leavesReady
  rw [FinMap.total_pos fun _ n => by split <;> simp]
  refine exists_congr fun p => exists_congr fun n => and_congr_right fun hn => ?_
  rw [h.strict.flag p n hn fun f => f]
  split <;> simp [*]

end Doq.Memory.FairRoundRobinQueue
