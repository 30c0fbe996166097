/-
  Doq.Memory.RoundRobinTree — the group tree of the round-robin queue keeps its shape
  (see `Doq.Memory.RoundRobin`).

  `Tree fq C D` is the tree's invariant. `C` is the multiset of paths the counts count: a
  node's `messageCount` is how many of `C` lie at or under it. The ready messages are
  among `C`; a group that starts with a dot can make a dequeue miss its leaf and leave its
  path in `C`, otherwise `C` is exactly the ready messages' paths. `D` is what keeps nodes
  alive: every node but the root lies on the way to one of `D`. Between operations `D` is
  `C`; while `Enqueue` builds a path, or a removal prunes one, `D` is `C` and that path.

  Proved, for any groups and ids: `Enqueue`, `Dequeue`, `Delete` and the others do not
  panic (no missing child, no rotation without a cursor, no descent past its fuel), keep
  `Tree`, and change the ready messages as their names say.
-/

import Doq.Memory.RoundRobin
import Doq.Memory.PriorityQueueProofs
import Mathlib.Data.List.Induction

namespace Doq.Memory.FairRoundRobinQueue

open Lib

variable {fq fq' : FairRoundRobinQueue} {C C' D : Multiset Path} {p q : Path} {n : GroupNode}

def pathOf (it : Item) : Path := Dotted.split it.group

def ready (fq : FairRoundRobinQueue) : Multiset Item := fq.nodes.total fun _ n => n.queue.held

def readyPaths (fq : FairRoundRobinQueue) : Multiset Path := fq.ready.map pathOf

/-- How many of `C` lie at or under `p`. -/
def below (C : Multiset Path) (p : Path) : Nat := C.countP fun x => p <+: x

@[simp] theorem below_cons (x : Path) : below (x ::ₘ C) p = below C p + if p <+: x then 1 else 0 :=
  Multiset.countP_cons _ _ _

/-- What lies under a child of `p` is not `p` itself. -/
theorem under_child_ne {c : String} (h : p ++ [c] <+: q) : q ≠ p := by
  intro e
  have hlen := h.length_le
  rw [e, List.length_append, List.length_singleton] at hlen
  omega

theorem below_pos : 0 < below C p ↔ ∃ x ∈ C, p <+: x := Multiset.countP_pos

theorem below_eq_zero : below C p = 0 ↔ ∀ x ∈ C, ¬ p <+: x := Multiset.countP_eq_zero

structure NodeOk (p : Path) (n : GroupNode) : Prop where
  list : n.childrenList.toList.Perm n.children
  nodup : n.children.Nodup
  cursor : ∀ c, n.currentChild = some c → c ∈ n.childrenList.toList
  minFirst : n.queue.minFirst = true
  items : ∀ it ∈ n.queue.held, pathOf it = p
  sound : n.queue.Sound
  heaped : n.queue.Heaped

structure Tree (fq : FairRoundRobinQueue) (C D : Multiset Path) : Prop where
  root : ∃ r, fq.nodes.lookup [] = some r
  child : ∀ p c n, fq.nodes.lookup p = some n → c ∈ n.children → ∃ m, fq.nodes.lookup (p ++ [c]) = some m
  parent : ∀ p c m, fq.nodes.lookup (p ++ [c]) = some m → ∃ n, fq.nodes.lookup p = some n ∧ c ∈ n.children
  ok : ∀ p n, fq.nodes.lookup p = some n → NodeOk p n
  count : ∀ p n, fq.nodes.lookup p = some n → n.messageCount = below C p
  here : ∀ x ∈ C, ∃ n, fq.nodes.lookup x = some n
  live : ∀ p n, p ≠ [] → fq.nodes.lookup p = some n → ∃ x ∈ D, p <+: x
  leaf : ∀ g p, fq.groupKeyToLeaf.lookup g = some p → p = Dotted.split g

/-! ## Lookups -/

@[simp] theorem setNode_lookup (fq : FairRoundRobinQueue) (p q : Path) (n : GroupNode) :
    (fq.setNode p n).nodes.lookup q = if q = p then some n else fq.nodes.lookup q :=
  FinMap.lookup_insert_eq _ _ _ _

/-- A write to an existing node changes the map value by value. -/
theorem setNode_map (h : fq.nodes.lookup p = some n) (n' : GroupNode) (q : Path) :
    (fq.setNode p n').nodes.lookup q = (fq.nodes.lookup q).map fun m => if q = p then n' else m := by
  rw [setNode_lookup]
  split
  · rename_i e; rw [e, h]; rfl
  · simp

theorem modifyNode_lookup (fq : FairRoundRobinQueue) (p : Path) (f : GroupNode → GroupNode) (q : Path) :
    (fq.modifyNode p f).nodes.lookup q = (fq.nodes.lookup q).map fun m => if q = p then f m else m := by
  unfold modifyNode
  cases h : fq.nodes.lookup p with
  | none =>
    by_cases e : q = p
    · subst e; simp [h]
    · simp [e]
  | some n =>
    simp only
    rw [setNode_map h]
    by_cases e : q = p
    · subst e; simp [h]
    · simp [e]

theorem ready_map (g : Path → GroupNode → GroupNode) (hl : ∀ q, fq'.nodes.lookup q = (fq.nodes.lookup q).map (g q))
    (hq : ∀ q n, fq.nodes.lookup q = some n → (g q n).queue.held = n.queue.held) : fq'.ready = fq.ready := by
  unfold ready
  rw [FinMap.total_map _ g hl]
  exact FinMap.total_congr fun k v h => hq k v h

theorem setNode_ready (h : fq.nodes.lookup p = some n) {n' : GroupNode} (hq : n'.queue.held = n.queue.held) :
    (fq.setNode p n').ready = fq.ready := by
  refine ready_map _ (setNode_map h n') fun q m hm => ?_
  split
  · rename_i e; subst e; rw [h] at hm; cases hm; exact hq
  · rfl

/-- The ready messages at one node, and those elsewhere. -/
theorem ready_split (h : fq.nodes.lookup p = some n) :
    ∃ rest, fq.ready = n.queue.held + rest ∧ ∀ n', (fq.setNode p n').ready = n'.queue.held + rest :=
  ⟨_, FinMap.total_of_lookup _ h, fun _ => FinMap.total_insert _ _ _ _⟩

theorem mem_ready {it : Item} : it ∈ fq.ready ↔ ∃ p n, fq.nodes.lookup p = some n ∧ it ∈ n.queue.held := FinMap.mem_total

/-- Every prefix of a node's path is a node. -/
theorem Tree.above (h : Tree fq C D) {r : Path} : ∀ {m}, fq.nodes.lookup (p ++ r) = some m → ∃ n, fq.nodes.lookup p = some n := by
  induction r using List.reverseRecOn with
  | nil => intro m hm; rw [List.append_nil] at hm; exact ⟨m, hm⟩
  | append_singleton r c ih =>
    intro m hm
    rw [← List.append_assoc] at hm
    obtain ⟨n, hn, _⟩ := h.parent _ _ _ hm
    exact ih hn

theorem Tree.of_prefix (h : Tree fq C D) (hpq : p <+: q) {m : GroupNode} (hm : fq.nodes.lookup q = some m) :
    ∃ n, fq.nodes.lookup p = some n := by
  obtain ⟨r, rfl⟩ := hpq
  exact h.above hm

/-- The tree after a change that keeps every node and its children. -/
theorem Tree.pointwise (h : Tree fq C D) (g : Path → GroupNode → GroupNode)
    (hl : ∀ q, fq'.nodes.lookup q = (fq.nodes.lookup q).map (g q))
    (hch : ∀ q n, fq.nodes.lookup q = some n → (g q n).children = n.children)
    (hok : ∀ q n, fq.nodes.lookup q = some n → NodeOk q (g q n))
    (hcount : ∀ q n, fq.nodes.lookup q = some n → (g q n).messageCount = below C' q)
    (hhere : ∀ x ∈ C', ∃ n, fq.nodes.lookup x = some n)
    (hleaf : ∀ g p, fq'.groupKeyToLeaf.lookup g = some p → p = Dotted.split g) : Tree fq' C' D := by
  have back : ∀ q m, fq'.nodes.lookup q = some m → ∃ n, fq.nodes.lookup q = some n ∧ g q n = m := fun q m hm => by
    rw [hl, Option.map_eq_some_iff] at hm; exact hm
  have fwd : ∀ q n, fq.nodes.lookup q = some n → fq'.nodes.lookup q = some (g q n) := fun q n hn => by rw [hl, hn]; rfl
  constructor
  case root => obtain ⟨r, hr⟩ := h.root; exact ⟨_, fwd _ _ hr⟩
  case child =>
    intro p c m hm hc
    obtain ⟨n, hn, rfl⟩ := back p m hm
    rw [hch p n hn] at hc
    obtain ⟨k, hk⟩ := h.child p c n hn hc
    exact ⟨_, fwd _ _ hk⟩
  case parent =>
    intro p c m hm
    obtain ⟨k, hk, rfl⟩ := back _ m hm
    obtain ⟨n, hn, hc⟩ := h.parent p c k hk
    exact ⟨_, fwd _ _ hn, by rw [hch p n hn]; exact hc⟩
  case ok => intro p m hm; obtain ⟨n, hn, rfl⟩ := back p m hm; exact hok p n hn
  case count => intro p m hm; obtain ⟨n, hn, rfl⟩ := back p m hm; exact hcount p n hn
  case here => intro x hx; obtain ⟨n, hn⟩ := hhere x hx; exact ⟨_, fwd _ _ hn⟩
  case live => intro p m hp hm; obtain ⟨n, hn, _⟩ := back p m hm; exact h.live p n hp hn
  case leaf => exact hleaf

/-- The tree is the nodes and the leaf index. -/
theorem Tree.congr (h : Tree fq C D) (hn : fq'.nodes = fq.nodes) (hl : fq'.groupKeyToLeaf = fq.groupKeyToLeaf) :
    Tree fq' C D := by
  constructor
  case root => rw [hn]; exact h.root
  case child => rw [hn]; exact h.child
  case parent => rw [hn]; exact h.parent
  case ok => rw [hn]; exact h.ok
  case count => rw [hn]; exact h.count
  case here => rw [hn]; exact h.here
  case live => rw [hn]; exact h.live
  case leaf => rw [hl]; exact h.leaf

/-! ## Small steps -/

/-- `refreshLeafReady` writes nothing but a ready flag and the counter. -/
theorem refresh_lookup (fq : FairRoundRobinQueue) (p q : Path) :
    (fq.refreshLeafReady p).nodes.lookup q =
      (fq.nodes.lookup q).map fun n => if q = p then { n with ready := fq.isReady n } else n := by
  unfold refreshLeafReady
  cases h : fq.nodes.lookup p with
  | none =>
    by_cases e : q = p
    · subst e; simp [h]
    · simp [e]
  | some n =>
    simp only
    by_cases hr : fq.isReady n = n.ready
    · rw [if_pos hr]
      by_cases e : q = p
      · subst e; simp [h, hr]
      · simp [e]
    · rw [if_neg hr]
      show (fq.setNode p _).nodes.lookup q = _
      rw [setNode_map h]
      by_cases e : q = p
      · subst e; simp [h]
      · simp [e]

/-- The fields beside the nodes and the ready counter are the same. -/
structure Frame (fq fq' : FairRoundRobinQueue) : Prop where
  leaf : fq'.groupKeyToLeaf = fq.groupKeyToLeaf
  unacked : fq'.unackedByGroup = fq.unackedByGroup
  max : fq'.maxUnacked = fq.maxUnacked
  total : fq'.totalMessages = fq.totalMessages

theorem Frame.refl (fq : FairRoundRobinQueue) : Frame fq fq := ⟨rfl, rfl, rfl, rfl⟩

theorem Frame.trans {a b c : FairRoundRobinQueue} (h : Frame a b) (h' : Frame b c) : Frame a c :=
  ⟨h'.leaf.trans h.leaf, h'.unacked.trans h.unacked, h'.max.trans h.max, h'.total.trans h.total⟩

theorem setNode_frame (fq : FairRoundRobinQueue) (p : Path) (n : GroupNode) : Frame fq (fq.setNode p n) := ⟨rfl, rfl, rfl, rfl⟩

theorem modifyNode_frame (fq : FairRoundRobinQueue) (p : Path) (f : GroupNode → GroupNode) : Frame fq (fq.modifyNode p f) := by
  unfold modifyNode
  split
  · exact Frame.refl fq
  · exact setNode_frame _ _ _

theorem refresh_frame (fq : FairRoundRobinQueue) (p : Path) : Frame fq (fq.refreshLeafReady p) := by
  unfold refreshLeafReady
  split
  · exact Frame.refl fq
  · split <;> exact ⟨rfl, rfl, rfl, rfl⟩

@[simp] theorem refresh_ready (fq : FairRoundRobinQueue) (p : Path) : (fq.refreshLeafReady p).ready = fq.ready :=
  ready_map _ (refresh_lookup fq p) fun q n _ => by split <;> rfl

theorem NodeOk.setReady (h : NodeOk p n) (b : Bool) : NodeOk p { n with ready := b } :=
  ⟨h.list, h.nodup, h.cursor, h.minFirst, h.items, h.sound, h.heaped⟩

theorem Tree.refresh (h : Tree fq C D) (p : Path) : Tree (fq.refreshLeafReady p) C D := by
  refine h.pointwise _ (refresh_lookup fq p) (fun q n _ => by split <;> rfl) (fun q n hn => ?_) (fun q n hn => ?_)
    h.here (by rw [(refresh_frame fq p).leaf]; exact h.leaf)
  · split
    · exact (h.ok q n hn).setReady _
    · exact h.ok q n hn
  · rw [← h.count q n hn]; split <;> rfl

theorem nodeOk_new (p : Path) (key : String) : NodeOk p (.new key) where
  list := List.Perm.refl _
  nodup := List.nodup_nil
  cursor c h := by cases h
  minFirst := rfl
  items it h := by simp [GroupNode.new, PriorityMemoryQueue.new, PriorityMemoryQueue.held] at h
  sound := PriorityMemoryQueue.new_exact.toSound
  heaped := PriorityMemoryQueue.new_heaped

/-! ## Building a path -/

section AddChild

variable {cur : GroupNode} {name : String}

/-- The tree with a new child linked in, before the parent's flag is refreshed. -/
def graft (fq : FairRoundRobinQueue) (p : Path) (cur : GroupNode) (name : String) : FairRoundRobinQueue :=
  (fq.setNode (p ++ [name]) (.new (cur.childKey name))).setNode p { cur with
    children := cur.children ++ [name], childrenList := cur.childrenList.append name }

theorem addChild_eq (hp : fq.nodes.lookup p = some cur) :
    fq.addChild p name = if name ∈ cur.children then fq else (fq.graft p cur name).refreshLeafReady p := by
  unfold addChild graft
  simp only [hp]

theorem graft_lookup (q : Path) :
    (fq.graft p cur name).nodes.lookup q =
      if q = p then some { cur with children := cur.children ++ [name], childrenList := cur.childrenList.append name }
      else if q = p ++ [name] then some (.new (cur.childKey name)) else fq.nodes.lookup q := by
  unfold graft
  rw [setNode_lookup, setNode_lookup]

theorem Tree.no_child (h : Tree fq C D) (hp : fq.nodes.lookup p = some cur) (hn : name ∉ cur.children) :
    fq.nodes.lookup (p ++ [name]) = none := by
  cases e : fq.nodes.lookup (p ++ [name]) with
  | none => rfl
  | some m =>
    obtain ⟨n, hn', hc⟩ := h.parent _ _ _ e
    rw [hp] at hn'; cases hn'
    exact absurd hc hn

theorem graft_ready (hp : fq.nodes.lookup p = some cur) (hn : fq.nodes.lookup (p ++ [name]) = none) :
    (fq.graft p cur name).ready = fq.ready := by
  have hp' : (fq.setNode (p ++ [name]) (.new (cur.childKey name))).nodes.lookup p = some cur := by
    rw [setNode_lookup, if_neg (by simp), hp]
  unfold graft
  rw [setNode_ready hp' (by rfl)]
  exact (FinMap.total_insert_new _ _ hn).trans (by simp [GroupNode.new, ready])

theorem Tree.graft (h : Tree fq C D) (hp : fq.nodes.lookup p = some cur) (hn : name ∉ cur.children)
    (hx : ∃ x ∈ D, p ++ [name] <+: x) : Tree (fq.graft p cur name) C D := by
  have hnone := h.no_child hp hn
  have hne : ∀ r : Path, r ++ [name] ≠ r := fun r => by simp
  have keep : ∀ q n, fq.nodes.lookup q = some n → ∃ m, (fq.graft p cur name).nodes.lookup q = some m := fun q n hq => by
    rw [graft_lookup]
    split
    · exact ⟨_, rfl⟩
    · split
      · exact ⟨_, rfl⟩
      · exact ⟨n, hq⟩
  constructor
  case root => obtain ⟨r, hr⟩ := h.root; exact keep _ _ hr
  case child =>
    intro r c n hr hc
    rw [graft_lookup] at hr
    split at hr
    · rename_i e; subst e; cases hr
      rcases List.mem_append.mp hc with hc | hc
      · obtain ⟨m, hm⟩ := h.child _ _ _ hp hc; exact keep _ _ hm
      · rw [List.mem_singleton.mp hc, graft_lookup, if_neg (hne r), if_pos rfl]; exact ⟨_, rfl⟩
    · split at hr
      · cases hr; simp [GroupNode.new] at hc
      · obtain ⟨m, hm⟩ := h.child _ _ _ hr hc; exact keep _ _ hm
  case parent =>
    intro r c m hm
    rw [graft_lookup] at hm
    have old : ∀ {m}, fq.nodes.lookup (r ++ [c]) = some m →
        ∃ n, (fq.graft p cur name).nodes.lookup r = some n ∧ c ∈ n.children := by
      intro m hm
      obtain ⟨n, hr, hc⟩ := h.parent _ _ _ hm
      rw [graft_lookup]
      split
      · rename_i e; subst e; rw [hp] at hr; cases hr
        exact ⟨_, rfl, List.mem_append_left _ hc⟩
      · split
        · rename_i e; rw [e, hnone] at hr; cases hr
        · exact ⟨n, hr, hc⟩
    split at hm
    · rename_i e; rw [← e] at hp; exact old hp
    · split at hm
      · rename_i e
        obtain ⟨rfl, hc⟩ := List.append_inj' e rfl
        cases hc
        exact ⟨_, by rw [graft_lookup, if_pos rfl], by simp⟩
      · exact old hm
  case ok =>
    intro r n hr
    rw [graft_lookup] at hr
    split at hr
    · rename_i e; subst e; cases hr
      have ho := h.ok _ _ hp
      exact ⟨by rw [LinkedList.toList_append]; exact ho.list.append_right _,
        List.nodup_append.mpr ⟨ho.nodup, by simp, fun a ha b hb => by
          rw [List.mem_singleton.mp hb]; rintro rfl; exact hn ha⟩,
        fun c hc => by rw [LinkedList.toList_append]; exact List.mem_append_left _ (ho.cursor c hc),
        ho.minFirst, ho.items, ho.sound, ho.heaped⟩
    · split at hr
      · cases hr; exact nodeOk_new _ _
      · exact h.ok r n hr
  case count =>
    intro r n hr
    rw [graft_lookup] at hr
    split at hr
    · rename_i e; subst e; cases hr; exact h.count r cur hp
    · split at hr
      · rename_i e; subst e; cases hr
        have : below C (p ++ [name]) = 0 := below_eq_zero.mpr fun x hx hpre => by
          obtain ⟨m, hm⟩ := h.here x hx
          obtain ⟨k, hk⟩ := h.of_prefix hpre hm
          rw [hnone] at hk; cases hk
        simp [GroupNode.new, this]
      · exact h.count r n hr
  case here => intro x hx; obtain ⟨n, hn⟩ := h.here x hx; exact keep _ _ hn
  case live =>
    intro r n hr0 hr
    rw [graft_lookup] at hr
    split at hr
    · rename_i e; subst e; exact h.live _ _ hr0 hp
    · split at hr
      · rename_i e; subst e; exact hx
      · exact h.live r n hr0 hr
  case leaf => exact h.leaf

theorem addChild_frame (fq : FairRoundRobinQueue) (p : Path) (name : String) : Frame fq (fq.addChild p name) := by
  cases hp : fq.nodes.lookup p with
  | none => unfold FairRoundRobinQueue.addChild; simp only [hp]; exact Frame.refl fq
  | some cur =>
    rw [addChild_eq hp]
    split
    · exact Frame.refl fq
    · exact Frame.trans (b := fq.graft p cur name) ⟨rfl, rfl, rfl, rfl⟩ (refresh_frame _ p)

/-- After the step the child exists, and nothing else changed but links and flags. -/
theorem Tree.addChild (h : Tree fq C D) (hp : fq.nodes.lookup p = some cur) (hx : ∃ x ∈ D, p ++ [name] <+: x) :
    Tree (fq.addChild p name) C D ∧ (fq.addChild p name).ready = fq.ready ∧
      ∃ m, (fq.addChild p name).nodes.lookup (p ++ [name]) = some m := by
  rw [addChild_eq hp]
  split
  · rename_i hc; exact ⟨h, rfl, h.child _ _ _ hp hc⟩
  · rename_i hc
    refine ⟨(h.graft hp hc hx).refresh p, ?_, ?_⟩
    · rw [refresh_ready, graft_ready hp (h.no_child hp hc)]
    · rw [refresh_lookup, graft_lookup, if_neg (by simp), if_pos rfl]
      exact ⟨_, rfl⟩

end AddChild

theorem Tree.descend (names : List String) : ∀ {fq : FairRoundRobinQueue} {p : Path} {cur : GroupNode}, Tree fq C D →
    fq.nodes.lookup p = some cur → (∃ x ∈ D, p ++ names <+: x) →
    Tree (fq.descend p names) C D ∧ (fq.descend p names).ready = fq.ready ∧
      ∃ m, (fq.descend p names).nodes.lookup (p ++ names) = some m := by
  induction names with
  | nil =>
    intro fq p cur h hp _
    exact ⟨h, rfl, cur, by rw [List.append_nil]; exact hp⟩
  | cons name names ih =>
    intro fq p cur h hp hx
    have happ : p ++ name :: names = p ++ [name] ++ names := by simp
    rw [happ] at hx ⊢
    obtain ⟨h1, hr1, m, hm⟩ := h.addChild hp (by
      obtain ⟨x, hx, hpre⟩ := hx
      exact ⟨x, hx, (List.prefix_append _ _).trans hpre⟩)
    obtain ⟨h2, hr2, hm2⟩ := ih h1 hm hx
    exact ⟨h2, hr2.trans hr1, hm2⟩

theorem descend_frame (names : List String) : ∀ (fq : FairRoundRobinQueue) (p : Path), Frame fq (fq.descend p names) := by
  induction names with
  | nil => intro fq p; exact Frame.refl fq
  | cons name names ih => intro fq p; exact (addChild_frame fq p name).trans (ih _ _)

/-! ## Counts -/

theorem addCount_lookup (δ : Int) (rev : List String) : ∀ (fq : FairRoundRobinQueue) (q : Path),
    (fq.addCount δ rev).nodes.lookup q =
      (fq.nodes.lookup q).map fun n => if q <+: rev.reverse then { n with messageCount := n.messageCount + δ } else n := by
  induction rev with
  | nil =>
    intro fq q
    unfold addCount
    rw [modifyNode_lookup]
    simp only [List.reverse_nil, List.prefix_nil]
  | cons name names ih =>
    intro fq q
    unfold addCount
    rw [ih, modifyNode_lookup, Option.map_map]
    congr 1
    funext n
    -- a prefix of the longer path is the path itself or a prefix of the shorter one
    simp only [Function.comp_apply, List.reverse_cons, List.prefix_concat_iff]
    by_cases e : q = names.reverse ++ [name]
    · have : ¬ q <+: names.reverse := fun hp => under_child_ne (e ▸ hp) rfl
      simp [e, e ▸ this]
    · simp [e]

theorem addCount_frame (δ : Int) (rev : List String) : ∀ fq : FairRoundRobinQueue, Frame fq (fq.addCount δ rev) := by
  induction rev with
  | nil => intro fq; exact modifyNode_frame _ _ _
  | cons name names ih => intro fq; exact (modifyNode_frame _ _ _).trans (ih _)

theorem addCount_ready (δ : Int) (rev : List String) (fq : FairRoundRobinQueue) : (fq.addCount δ rev).ready = fq.ready :=
  ready_map _ (addCount_lookup δ rev fq) fun q n _ => by split <;> rfl

theorem NodeOk.setCount (h : NodeOk p n) (c : Int) : NodeOk p { n with messageCount := c } :=
  ⟨h.list, h.nodup, h.cursor, h.minFirst, h.items, h.sound, h.heaped⟩

/-- Counting one path more, or one less, along that path. -/
theorem Tree.addCount (h : Tree fq C D) {δ : Int} {x : Path}
    (hhere : ∀ y ∈ C', ∃ n, fq.nodes.lookup y = some n)
    (hδ : ∀ q, (below C' q : Int) = below C q + if q <+: x then δ else 0) : Tree (fq.addCount δ x.reverse) C' D := by
  refine h.pointwise _ (addCount_lookup δ x.reverse fq) (fun q n _ => by split <;> rfl) (fun q n hn => ?_)
    (fun q n hn => ?_) hhere (by rw [(addCount_frame δ x.reverse fq).leaf]; exact h.leaf)
  · split
    · exact (h.ok q n hn).setCount _
    · exact h.ok q n hn
  · rw [hδ, ← h.count q n hn, List.reverse_reverse]
    split <;> simp

/-! ## Enqueue -/

theorem Tree.mono (h : Tree fq C D) {D' : Multiset Path} (hD : D ⊆ D') : Tree fq C D' :=
  ⟨h.root, h.child, h.parent, h.ok, h.count, h.here, fun p n hp hn => by
    obtain ⟨x, hx, hpre⟩ := h.live p n hp hn
    exact ⟨x, hD hx, hpre⟩, h.leaf⟩

theorem NodeOk.push (h : NodeOk p n) {it : Item} (hit : pathOf it = p) : NodeOk p { n with queue := n.queue.heapPush it } := by
  have hg := PriorityMemoryQueue.heapPush_grown n.queue it
  refine ⟨h.list, h.nodup, h.cursor, hg.minFirst.trans h.minFirst, fun x hx => ?_, hg.sound h.sound, hg.heaped h.heaped⟩
  rw [hg.held] at hx
  rcases Multiset.mem_cons.mp hx with rfl | hx
  · exact hit
  · exact h.items x hx

/-- A change of the queue at one node. -/
theorem Tree.setQueue (h : Tree fq C D) (f : GroupNode → PriorityMemoryQueue)
    (hok : ∀ n, fq.nodes.lookup p = some n → NodeOk p { n with queue := f n }) :
    Tree (fq.modifyNode p fun n => { n with queue := f n }) C D := by
  refine h.pointwise _ (modifyNode_lookup fq p _) (fun q n _ => by split <;> rfl) (fun q n hn => ?_) (fun q n hn => ?_)
    h.here (by rw [(modifyNode_frame fq p _).leaf]; exact h.leaf)
  · split
    · rename_i e; subst e; exact hok n hn
    · exact h.ok q n hn
  · rw [← h.count q n hn]; split <;> rfl

theorem modifyNode_ready {f : GroupNode → GroupNode} (h : fq.nodes.lookup p = some n) {it : Item}
    (hq : (f n).queue.held = it ::ₘ n.queue.held) : (fq.modifyNode p f).ready = it ::ₘ fq.ready := by
  obtain ⟨rest, hr, hr'⟩ := ready_split h
  unfold modifyNode
  simp only [h]
  rw [hr', hr, hq, Multiset.cons_add]

/-- The item as `Enqueue` files it. -/
def filed (group : String) (item : Item) : Item := { item with group := groupOf group }

theorem enqueue_tree (h : Tree fq C C) (group : String) (item : Item) :
    Tree (fq.enqueue group item) (pathOf (filed group item) ::ₘ C) (pathOf (filed group item) ::ₘ C) ∧
      (fq.enqueue group item).ready = filed group item ::ₘ fq.ready := by
  have hx : pathOf (filed group item) = Dotted.split (groupOf group) := rfl
  rw [hx]
  generalize hgs : Dotted.split (groupOf group) = x at *
  obtain ⟨r, hr⟩ := h.root
  obtain ⟨h1, hr1, m, hm⟩ := (h.mono (Multiset.subset_cons C x)).descend x hr ⟨x, Multiset.mem_cons_self _ _, List.prefix_rfl⟩
  rw [List.nil_append] at hm
  have h2 := h1.setQueue (fun n => n.queue.heapPush (filed group item)) (p := x) fun n hn => (h1.ok x n hn).push hx
  have h3 : Tree (FairRoundRobinQueue.addCount 1 _ x.reverse) (x ::ₘ C) (x ::ₘ C) :=
    h2.addCount (fun y hy => ?_) fun q => by rw [below_cons]; split <;> simp
  · refine ⟨?_, ?_⟩
    · unfold enqueue
      simp only [hgs]
      refine Tree.refresh ?_ x
      refine ⟨h3.root, h3.child, h3.parent, h3.ok, h3.count, h3.here, h3.live, fun g p hp => ?_⟩
      simp only [FinMap.lookup_insert_eq] at hp
      split at hp
      · rename_i e; cases hp; rw [e, hgs]
      · exact h3.leaf g p hp
    · unfold enqueue
      simp only [hgs]
      rw [refresh_ready]
      show (FairRoundRobinQueue.addCount 1 _ x.reverse).ready = _
      rw [addCount_ready, modifyNode_ready hm (PriorityMemoryQueue.heapPush_grown _ _).held, hr1]
      rfl
  · rcases Multiset.mem_cons.mp hy with rfl | hy
    · rw [modifyNode_lookup, hm]; exact ⟨_, rfl⟩
    · exact h2.here y hy

/-- The counters and the leaf index after `Enqueue`. -/
theorem enqueue_fields (fq : FairRoundRobinQueue) (group : String) (item : Item) :
    (fq.enqueue group item).groupKeyToLeaf = fq.groupKeyToLeaf.insert (groupOf group) (Dotted.split (groupOf group)) ∧
      (fq.enqueue group item).unackedByGroup = fq.unackedByGroup ∧ (fq.enqueue group item).maxUnacked = fq.maxUnacked ∧
      (fq.enqueue group item).totalMessages = fq.totalMessages + 1 := by
  unfold enqueue
  simp only
  have hf := ((descend_frame (Dotted.split (groupOf group)) fq []).trans
    (modifyNode_frame _ (Dotted.split (groupOf group)) fun current =>
      { current with queue := current.queue.heapPush { item with group := groupOf group } })).trans
    (addCount_frame 1 (Dotted.split (groupOf group)).reverse _)
  rw [(refresh_frame _ _).leaf, (refresh_frame _ _).unacked, (refresh_frame _ _).max, (refresh_frame _ _).total]
  exact ⟨by rw [hf.leaf], hf.unacked, hf.max, by rw [hf.total]⟩

/-! ## Writes -/

theorem NodeOk.shrink (h : NodeOk p n) {it : Item} {queue : PriorityMemoryQueue} (hs : n.queue.Shrunk it queue) :
    NodeOk p { n with queue := queue } :=
  ⟨h.list, h.nodup, h.cursor, hs.minFirst.trans h.minFirst,
    fun x hx => h.items x (by rw [hs.held]; exact Multiset.mem_cons_of_mem hx), hs.sound h.sound, hs.heaped h.heaped⟩

theorem Tree.setNode (h : Tree fq C D) (hp : fq.nodes.lookup p = some n) (n' : GroupNode) (hch : n'.children = n.children)
    (hc : n'.messageCount = n.messageCount) (hok : NodeOk p n') : Tree (fq.setNode p n') C D := by
  refine h.pointwise _ (setNode_map hp n') (fun q m hm => ?_) (fun q m hm => ?_) (fun q m hm => ?_) h.here h.leaf
  all_goals split
  any_goals (rename_i e; subst e; rw [hp] at hm; cases hm)
  · exact hch
  · rfl
  · exact hok
  · exact h.ok q m hm
  · rw [hc]; exact h.count _ _ hp
  · exact h.count q m hm

/-! ## Pruning -/

section Prune

variable {parent child : GroupNode} {c : String}

theorem removeEmptyChild_eq {rest : List String} (hp : fq.nodes.lookup rest.reverse = some parent) (hc : c ∈ parent.children)
    (hch : fq.nodes.lookup (rest.reverse ++ [c]) = some child) :
    fq.removeEmptyChild (c :: rest) =
      if rest.reverse ≠ [] ∧ parent.messageCount = 0 then (fq.unlink rest.reverse parent child c).removeEmptyChild rest
      else some ((fq.unlink rest.reverse parent child c).refreshLeafReady rest.reverse) := by
  have hchild : fq.childNode rest.reverse parent c = some child := by unfold childNode; rw [if_pos hc, hch]
  rw [removeEmptyChild]
  simp only [hp, hchild, Option.bind_eq_bind, Option.bind_some]

theorem unlink_lookup (q : Path) :
    (fq.unlink p parent child c).nodes.lookup q =
      if q = p then some { parent with
        childrenList := parent.childrenList.remove c
        children := parent.children.erase c
        currentChild := if parent.currentChild = some c then (parent.childrenList.remove c).head? else parent.currentChild }
      else if q = p ++ [c] then none else fq.nodes.lookup q := by
  unfold unlink
  rw [FinMap.lookup_insert_eq, FinMap.lookup_erase_eq]

theorem unlink_ready (hp : fq.nodes.lookup p = some parent) (hch : fq.nodes.lookup (p ++ [c]) = some child)
    (hempty : child.queue.held = 0) : (fq.unlink p parent child c).ready = fq.ready := by
  have hp' : (fq.nodes.erase (p ++ [c])).lookup p = some parent := by rw [FinMap.lookup_erase_eq, if_neg (by simp), hp]
  unfold ready unlink
  refine (FinMap.total_insert_same (fun (_ : Path) (n : GroupNode) => n.queue.held) hp' (by rfl)).trans ?_
  rw [FinMap.total_of_lookup _ hch, hempty, Multiset.zero_add]

theorem Tree.unlink (h : Tree fq C ((p ++ [c]) ::ₘ C)) (hp : fq.nodes.lookup p = some parent) (hc : c ∈ parent.children)
    (hzero : below C (p ++ [c]) = 0) : Tree (fq.unlink p parent child c) C (p ::ₘ C) := by
  have hnone := below_eq_zero.mp hzero
  have ho := h.ok p parent hp
  -- the unlinked node was the last on its branch
  have tip : ∀ d m, fq.nodes.lookup (p ++ [c] ++ [d]) ≠ some m := fun d m hm => by
    obtain ⟨x, hx, hpre⟩ := h.live _ m (by simp) hm
    rcases Multiset.mem_cons.mp hx with rfl | hx
    · have := hpre.length_le; simp at this
    · exact hnone x hx ((List.prefix_append _ _).trans hpre)
  have keep : ∀ q n, q ≠ p ++ [c] → fq.nodes.lookup q = some n → ∃ m, (fq.unlink p parent child c).nodes.lookup q = some m :=
    fun q n hq hn => by
      rw [unlink_lookup]
      split
      · exact ⟨_, rfl⟩
      · exact ⟨n, hn⟩
  constructor
  case root => obtain ⟨r, hr⟩ := h.root; exact keep _ r (by simp) hr
  case child =>
    intro r d n hr hd
    rw [unlink_lookup] at hr
    split at hr
    · rename_i e; subst e; cases hr
      have hdc : d ≠ c := fun e => by subst e; exact (List.Nodup.not_mem_erase ho.nodup) hd
      obtain ⟨m, hm⟩ := h.child _ _ _ hp (List.mem_of_mem_erase hd)
      exact keep _ m (by simpa using hdc) hm
    · rename_i hrp
      split at hr
      · cases hr
      · obtain ⟨m, hm⟩ := h.child _ _ _ hr hd
        exact keep _ m (fun e => hrp (List.append_inj' e rfl).1) hm
  case parent =>
    intro r d m hm
    rw [unlink_lookup] at hm
    have old : ∀ {m}, fq.nodes.lookup (r ++ [d]) = some m → r ++ [d] ≠ p ++ [c] →
        ∃ n, (fq.unlink p parent child c).nodes.lookup r = some n ∧ d ∈ n.children := by
      intro m hm hne
      obtain ⟨n, hr, hd⟩ := h.parent _ _ _ hm
      rw [unlink_lookup]
      split
      · rename_i e; subst e; rw [hp] at hr; cases hr
        exact ⟨_, rfl, (List.mem_erase_of_ne (fun e => hne (by rw [e]))).mpr hd⟩
      · split
        · rename_i e; subst e; exact absurd hm (tip d m)
        · exact ⟨n, hr, hd⟩
    split at hm
    · rename_i e
      exact old (e ▸ hp) (by rw [e]; simp)
    · split at hm
      · cases hm
      · rename_i hne; exact old hm hne
  case ok =>
    intro r n hr
    rw [unlink_lookup] at hr
    split at hr
    · rename_i e; subst e; cases hr
      refine ⟨by rw [LinkedList.toList_remove]; exact ho.list.erase c, ho.nodup.erase c, fun x hx => ?_, ho.minFirst, ho.items,
        ho.sound, ho.heaped⟩
      simp only [LinkedList.head?_eq, LinkedList.toList_remove] at hx ⊢
      split at hx
      · exact List.mem_of_mem_head? hx
      · rename_i hcur
        have hxc : x ≠ c := fun e => hcur (by rw [hx, e])
        exact (List.mem_erase_of_ne hxc).mpr (ho.cursor x hx)
    · split at hr
      · cases hr
      · exact h.ok r n hr
  case count =>
    intro r n hr
    rw [unlink_lookup] at hr
    split at hr
    · rename_i e; subst e; cases hr; exact h.count r parent hp
    · split at hr
      · cases hr
      · exact h.count r n hr
  case here =>
    intro x hx
    obtain ⟨n, hn⟩ := h.here x hx
    exact keep x n (fun e => hnone x hx (e ▸ List.prefix_rfl)) hn
  case live =>
    intro r n hr0 hr
    have hold : ∃ m, fq.nodes.lookup r = some m ∧ r ≠ p ++ [c] := by
      rw [unlink_lookup] at hr
      split at hr
      · rename_i e; subst e; exact ⟨parent, hp, by simp⟩
      · split at hr
        · cases hr
        · exact ⟨n, hr, by assumption⟩
    obtain ⟨m, hm, hne⟩ := hold
    obtain ⟨x, hx, hpre⟩ := h.live r m hr0 hm
    rcases Multiset.mem_cons.mp hx with rfl | hx
    · rcases List.prefix_concat_iff.mp hpre with e | hpre
      · exact absurd e hne
      · exact ⟨p, Multiset.mem_cons_self _ _, hpre⟩
    · exact ⟨x, Multiset.mem_cons_of_mem hx, hpre⟩
  case leaf =>
    intro g q hq
    unfold FairRoundRobinQueue.unlink at hq
    rw [FinMap.lookup_erase_eq] at hq
    split at hq
    · cases hq
    · exact h.leaf g q hq

/-- What no removal touches. -/
structure Counters (fq fq' : FairRoundRobinQueue) : Prop where
  unacked : fq'.unackedByGroup = fq.unackedByGroup
  max : fq'.maxUnacked = fq.maxUnacked
  total : fq'.totalMessages = fq.totalMessages

theorem Counters.trans {a b c : FairRoundRobinQueue} (h : Counters a b) (h' : Counters b c) : Counters a c :=
  ⟨h'.unacked.trans h.unacked, h'.max.trans h.max, h'.total.trans h.total⟩

theorem Frame.counters (h : Frame fq fq') : Counters fq fq' := ⟨h.unacked, h.max, h.total⟩

theorem unlink_counters : Counters fq (fq.unlink p parent child c) := ⟨rfl, rfl, rfl⟩

/-- Nothing counted under a node, nothing in its queue. -/
theorem Tree.queue_empty (h : Tree fq C D) (hcov : fq.readyPaths ≤ C) (hp : fq.nodes.lookup p = some n) (hz : below C p = 0) :
    n.queue.held = 0 := by
  refine Multiset.eq_zero_of_forall_notMem fun it hit => ?_
  have hr : pathOf it ∈ fq.readyPaths := Multiset.mem_map_of_mem _ (mem_ready.mpr ⟨p, n, hp, hit⟩)
  rw [(h.ok p n hp).items it hit] at hr
  exact below_eq_zero.mp hz p (Multiset.mem_of_le hcov hr) List.prefix_rfl

/-- The last node on a branch that is still counted keeps the branch alive. -/
theorem Tree.settle (h : Tree fq C (p ::ₘ C)) (hp : p = [] ∨ 0 < below C p) : Tree fq C C :=
  ⟨h.root, h.child, h.parent, h.ok, h.count, h.here, fun r n hr hn => by
    obtain ⟨x, hx, hpre⟩ := h.live r n hr hn
    rcases Multiset.mem_cons.mp hx with rfl | hx
    · rcases hp with rfl | hp
      · exact absurd (List.prefix_nil.mp hpre) hr
      · obtain ⟨y, hy, hxy⟩ := below_pos.mp hp
        exact ⟨y, hy, hpre.trans hxy⟩
    · exact ⟨x, hx, hpre⟩, h.leaf⟩

/-- The removal loop, once for every invariant: `I` holds of the tree and the node whose flag
    is out of date, an unlinking moves that node up, and the final refresh gives `J`. -/
theorem removeEmptyChild_rule {I : FairRoundRobinQueue → Path → Prop} {J : FairRoundRobinQueue → Prop}
    (step : ∀ fq p c parent child, Tree fq C ((p ++ [c]) ::ₘ C) → fq.nodes.lookup p = some parent → c ∈ parent.children →
      fq.nodes.lookup (p ++ [c]) = some child → child.queue.held = 0 → I fq (p ++ [c]) → I (fq.unlink p parent child c) p)
    (last : ∀ fq p, Tree fq C C → I fq p → J (fq.refreshLeafReady p)) (rev : List String) :
    ∀ {fq : FairRoundRobinQueue} {m : GroupNode}, Tree fq C (rev.reverse ::ₘ C) → rev ≠ [] →
      fq.nodes.lookup rev.reverse = some m → below C rev.reverse = 0 → fq.readyPaths ≤ C → I fq rev.reverse →
      Returns (fq.removeEmptyChild rev) fun fq' => Tree fq' C C ∧ fq'.ready = fq.ready ∧ Counters fq fq' ∧ J fq' := by
  induction rev with
  | nil => intro fq m _ h; exact absurd rfl h
  | cons c rest ih =>
    intro fq m h _ hm hz hcov hI
    rw [List.reverse_cons] at h hm hz hI
    obtain ⟨parent, hp, hc⟩ := h.parent _ _ _ hm
    have hempty := h.queue_empty hcov hm hz
    have hu : Tree (fq.unlink rest.reverse parent m c) C (rest.reverse ::ₘ C) := h.unlink hp hc hz
    have hr := unlink_ready hp hm hempty
    have hI' := step fq _ c parent m h hp hc hm hempty hI
    rw [removeEmptyChild_eq hp hc hm]
    split
    · rename_i hcond
      have hcount := h.count _ _ hp
      refine (ih hu (fun e => hcond.1 (by rw [e]; rfl)) (by rw [unlink_lookup, if_pos rfl]) (by omega)
        (by unfold readyPaths; rw [hr]; exact hcov) hI').mono fun fq' ⟨h1, h2, h3, h4⟩ =>
          ⟨h1, h2.trans hr, unlink_counters.trans h3, h4⟩
    · rename_i hcond
      have hs : Tree (fq.unlink rest.reverse parent m c) C C := hu.settle (by
        by_cases e : rest.reverse = []
        · exact Or.inl e
        · have := h.count _ _ hp
          have : parent.messageCount ≠ 0 := fun e' => hcond ⟨e, e'⟩
          exact Or.inr (by omega))
      refine .intro ⟨hs.refresh _, by rw [refresh_ready, hr], unlink_counters.trans (refresh_frame _ _).counters,
        last _ _ hs hI'⟩

end Prune

/-- A message has left the leaf at `x`: the counts along its path fall, and the branch is
    pruned if that leaves it empty. -/
theorem leafLost_rule {I : FairRoundRobinQueue → Path → Prop} {J : FairRoundRobinQueue → Prop} {x : Path}
    (step : ∀ fq p c parent child, Tree fq C ((p ++ [c]) ::ₘ C) → fq.nodes.lookup p = some parent → c ∈ parent.children →
      fq.nodes.lookup (p ++ [c]) = some child → child.queue.held = 0 → I fq (p ++ [c]) → I (fq.unlink p parent child c) p)
    (last : ∀ fq p, Tree fq C C → I fq p → J (fq.refreshLeafReady p))
    (h : Tree fq (x ::ₘ C) (x ::ₘ C)) (hx : x ≠ []) (hcov : fq.readyPaths ≤ C) (hI : I (fq.addCount (-1) x.reverse) x) :
    Returns (fq.leafLost x) fun fq' => Tree fq' C C ∧ fq'.ready = fq.ready ∧ Counters fq fq' ∧ J fq' := by
  have h1 : Tree (fq.addCount (-1) x.reverse) C (x ::ₘ C) :=
    h.addCount (fun y hy => h.here y (Multiset.mem_cons_of_mem hy)) fun q => by rw [below_cons]; split <;> simp
  obtain ⟨n, hn⟩ := h.here x (Multiset.mem_cons_self _ _)
  have hn' : ∃ m, (fq.addCount (-1) x.reverse).nodes.lookup x = some m := by rw [addCount_lookup, hn]; exact ⟨_, rfl⟩
  obtain ⟨m, hm⟩ := hn'
  have hr := addCount_ready (-1) x.reverse fq
  have hf := (addCount_frame (-1) x.reverse fq).counters
  have hcount := h1.count x m hm
  unfold leafLost
  simp only
  refine .bind_eq hm ?_
  split
  · rename_i hz
    refine (removeEmptyChild_rule step last x.reverse (by rw [List.reverse_reverse]; exact h1) (by simpa using hx)
      (by rw [List.reverse_reverse]; exact hm) (by rw [List.reverse_reverse]; omega)
      (by unfold readyPaths; rw [hr]; exact hcov) (by rw [List.reverse_reverse]; exact hI)).mono
      fun fq' ⟨a, b, c, d⟩ => ⟨a, b.trans hr, hf.trans c, d⟩
  · rename_i hz
    have hs := h1.settle (Or.inr (by omega))
    exact .intro ⟨hs.refresh x, by rw [refresh_ready, hr], hf.trans (refresh_frame _ _).counters, last _ _ hs hI⟩

end Doq.Memory.FairRoundRobinQueue
