/-
  Doq.Memory.RoundRobinRuns — what holds of the round-robin queue after any run of its
  operations (see `Doq.Memory.RoundRobin`).

  The groups of a run are not empty and do not start with a dot; they may be prefixes of
  one another, and ids may repeat.

  Proved:
  - `representation_holds`: the child maps, the linked lists, the cursors, the counts and
    the leaf index describe one tree, no operation panics or takes a counter below zero,
    and a queue without messages is a bare root.
  - `readyLeaves_exact`: the ready counter is the number of leaves that hold a message and
    are under the limit; `PeekReady` is true whenever `Dequeue` returns a message; and if
    no group is a proper prefix of another the two agree, with `hasReadyNode` as well.
-/

import Doq.Lib.Run
import Doq.Memory.RoundRobinReady
import Mathlib.Algebra.Ring.Int.Defs
import Mathlib.Data.Nat.Cast.Basic

namespace Doq.Memory.FairRoundRobinQueue

open Lib

inductive Op where
  | enqueue (group : String) (item : Item)
  | dequeue (ack : Bool)
  | get (group : String) (id : UInt64)
  | delete (group : String) (id : UInt64)
  | updatePriority (group : String) (id : UInt64) (priority : Int)
  | updateWeights (group : String)
  | markUnacked (group : String)
  | updateMaxUnacked (maxUnacked : Int)
  | schedulingState
  | restoreSchedulingState (nodes : List SchedulingNode)

/-- Does its result leave the queue? -/
def Op.takes : Op → Bool
  | dequeue _ => true
  | delete _ _ => true
  | _ => false

/-- The groups an operation brings in: a message's, or one counted as unacked. -/
def Op.groups : Op → List String
  | enqueue group _ => [group]
  | markUnacked group => [group]
  | _ => []

def Op.Good : Op → Prop
  | enqueue group _ => GoodGroup group
  | _ => True

instance : (op : Op) → Decidable op.Good
  | .enqueue group _ => inferInstanceAs (Decidable (GoodGroup group))
  | .dequeue _ | .get _ _ | .delete _ _ | .updatePriority _ _ _ | .updateWeights _ | .markUnacked _ | .updateMaxUnacked _
  | .schedulingState | .restoreSchedulingState _ => isTrue trivial

def step (fq : FairRoundRobinQueue) : Op → Go (Option Item × FairRoundRobinQueue)
  | .enqueue group item => some (none, fq.enqueue group item)
  | .dequeue ack => fq.dequeue ack
  | .get group id => (fq.get group id).map (·, fq)
  | .delete group id => fq.delete group id
  | .updatePriority group id priority => (fq.updatePriority group id priority).map (none, ·)
  | .updateWeights group => some (none, fq.updateWeights group)
  | .markUnacked group => some (none, fq.markUnacked group)
  | .updateMaxUnacked maxUnacked => some (none, fq.updateMaxUnacked maxUnacked)
  | .schedulingState => fq.schedulingState.map fun _ => (none, fq)
  | .restoreSchedulingState nodes => some (none, fq.restoreSchedulingState nodes)

variable {fq fq' : FairRoundRobinQueue} {op : Op} {p : Path} {n : GroupNode} {m : Int}
  {events : List (Event FairRoundRobinQueue Op (Option Item))}

/-! ## One step -/

/-- The groups of the ready messages and of the unacked ones are among `G`. -/
structure Within (G : String → Prop) (fq : FairRoundRobinQueue) : Prop where
  ready : ∀ it ∈ fq.ready, G it.group
  unacked : ∀ g, 0 < fq.unacked g → G g

theorem unacked_congr (h : fq'.unackedByGroup = fq.unackedByGroup) (g : String) : fq'.unacked g = fq.unacked g := by
  unfold unacked; rw [h]

theorem Within.kept {G : String → Prop} (hG : Within G fq) (hr : ∀ it ∈ fq'.ready, G it.group)
    (hu : fq'.unackedByGroup = fq.unackedByGroup) : Within G fq' :=
  ⟨hr, fun g hg => hG.unacked g (by rw [← unacked_congr hu]; exact hg)⟩

theorem unacked_charge {ack : Bool} {group : String} (h : fq'.unackedByGroup = (fq.charge ack group).unackedByGroup) {g : String}
    (hg : 0 < fq'.unacked g) : 0 < fq.unacked g ∨ g = group := by
  rw [unacked_congr h] at hg
  unfold charge at hg
  split at hg
  · exact Or.inl hg
  · unfold unacked at hg ⊢
    simp only [FinMap.lookup_insert_eq] at hg
    split at hg
    · rename_i e; exact Or.inr e
    · exact Or.inl hg

/-- What one operation does: it does not panic, keeps the invariant, brings in its own groups
    only, and what it takes out was there. -/
theorem step_spec (h : Inv False fq) (hop : op.Good) :
    Returns (fq.step op) fun r => Inv False r.2 ∧
      (∀ G, Within G fq → (∀ g ∈ op.groups, G g) → Within G r.2) ∧
      (op.takes → ∀ it, r.1 = some it → it ∈ fq.ready) := by
  cases op with
  | enqueue group item =>
    obtain ⟨h1, hr, hu, _⟩ := h.enqueue_any hop item
    show Returns (some (none, fq.enqueue group item)) _
    generalize fq.enqueue group item = fq₁ at h1 hr hu ⊢
    refine .intro ⟨h1, fun G hG hgs => hG.kept (fun it hit => ?_) hu, nofun⟩
    rw [hr] at hit
    rcases Multiset.mem_cons.mp hit with rfl | hit
    · exact hgs group (List.mem_singleton_self group)
    · exact hG.ready it hit
  | dequeue ack =>
    refine (h.dequeue ack).mono fun r hr => ?_
    obtain ⟨item, fq'⟩ := r
    obtain ⟨h1, _, hcase⟩ := hr
    cases item with
    | none =>
      obtain ⟨hr, hu⟩ := hcase
      exact ⟨h1, fun G hG _ => hG.kept (by rw [hr]; exact hG.ready) hu, fun _ it e => by cases e⟩
    | some it =>
      obtain ⟨hr, hu⟩ := hcase
      have hit : it ∈ fq.ready := by rw [hr]; exact Multiset.mem_cons_self _ _
      refine ⟨h1, fun G hG _ => ⟨fun x hx => hG.ready x (by rw [hr]; exact Multiset.mem_cons_of_mem hx), fun g hg => ?_⟩,
        fun _ x e => by cases e; exact hit⟩
      rcases unacked_charge hu hg with hg | rfl
      · exact hG.unacked g hg
      · exact hG.ready it hit
  | get group id => exact (h.safe.get group id).map fun r _ => ⟨h, fun G hG _ => hG, nofun⟩
  | delete group id =>
    refine (h.delete group id).mono fun r hr => ?_
    obtain ⟨item, fq'⟩ := r
    obtain ⟨h1, _, hu, hcase⟩ := hr
    cases item with
    | none =>
      obtain ⟨rfl, _⟩ := hcase
      exact ⟨h, fun G hG _ => hG, fun _ it e => by cases e⟩
    | some it =>
      obtain ⟨hh, hr⟩ := hcase
      exact ⟨h1, fun G hG _ => hG.kept (fun x hx => hG.ready x (by rw [hr]; exact Multiset.mem_cons_of_mem hx)) hu,
        fun _ x e => by cases e; exact hh.1⟩
  | updatePriority group id v =>
    refine (h.updatePriority group id v).map fun fq' hr => ?_
    obtain ⟨h1, _, hu, hcase⟩ := hr
    refine ⟨h1, fun G hG _ => hG.kept ?_ hu, nofun⟩
    rcases hcase with ⟨_, hr⟩ | ⟨it, rest, _, hr, hr'⟩
    · rw [hr]; exact hG.ready
    · intro x hx
      rw [hr'] at hx
      rcases Multiset.mem_cons.mp hx with rfl | hx
      · exact hG.ready it (by rw [hr]; exact Multiset.mem_cons_self _ _)
      · exact hG.ready x (by rw [hr]; exact Multiset.mem_cons_of_mem hx)
  | updateWeights group =>
    obtain ⟨h1, hr, _, hu⟩ := h.updateWeights group
    refine .intro ⟨h1, fun G hG _ => ⟨by rw [hr]; exact hG.ready, fun g hg => hG.unacked g ?_⟩, nofun⟩
    rw [hu g] at hg
    split at hg <;> omega
  | markUnacked group =>
    obtain ⟨h1, hr, _, hu⟩ := h.markUnacked group
    refine .intro ⟨h1, fun G hG hgs => ⟨by rw [hr]; exact hG.ready, fun g hg => ?_⟩, nofun⟩
    rcases unacked_charge hu hg with hg | rfl
    · exact hG.unacked g hg
    · exact hgs g (List.mem_singleton_self g)
  | updateMaxUnacked maxUnacked =>
    obtain ⟨h1, hr, _, hu⟩ := h.updateMaxUnacked maxUnacked
    exact .intro ⟨h1, fun G hG _ => hG.kept (by rw [hr]; exact hG.ready) hu, nofun⟩
  | schedulingState =>
    obtain ⟨r, hr⟩ := h.tree.root
    exact (walk_returns h.tree _ hr (by simp)).map fun _ _ => ⟨h, fun G hG _ => hG, nofun⟩
  | restoreSchedulingState nodes =>
    obtain ⟨h1, hr, hf⟩ := h.restoreSchedulingState nodes
    exact .intro ⟨h1, fun G hG _ => hG.kept (by rw [hr]; exact hG.ready) hf.unacked, nofun⟩

/-- Over a run: the invariant, and no groups but those brought in. -/
theorem Runs.inv (hrun : Run step (new m) events fq) (hgood : ∀ e ∈ events, e.input.Good) :
    Inv False fq ∧ Within (· ∈ events.flatMap (·.input.groups)) fq := by
  refine hrun.keeps (I := fun fq => Inv False fq ∧ Within (· ∈ events.flatMap (·.input.groups)) fq) (fun e he hs h => ?_)
    ⟨new_inv m, fun it hit => ?_, fun g hg => ?_⟩
  · obtain ⟨r, hr, h1, h2, _⟩ := step_spec h.1 (hgood e he)
    rw [hs] at hr; cases hr
    exact ⟨h1, h2 _ h.2 fun g hg => List.mem_flatMap.mpr ⟨e, he, hg⟩⟩
  · rw [new_ready] at hit; exact absurd hit (Multiset.notMem_zero it)
  · exact absurd hg (Int.lt_irrefl 0)

/-! ## Runs without a leading dot -/

/-- The group of an `Enqueue` does not start with a dot; it may be empty. -/
def Op.Undotted : Op → Prop
  | enqueue group _ => group.toList.head? ≠ some '.'
  | _ => True

instance : (op : Op) → Decidable op.Undotted
  | .enqueue group _ => inferInstanceAs (Decidable (group.toList.head? ≠ some '.'))
  | .dequeue _ | .get _ _ | .delete _ _ | .updatePriority _ _ _ | .updateWeights _ | .markUnacked _ | .updateMaxUnacked _
  | .schedulingState | .restoreSchedulingState _ => isTrue trivial

theorem goodGroup_groupOf {group : String} (h : group.toList.head? ≠ some '.') : GoodGroup (groupOf group) := by
  unfold groupOf
  split
  · decide
  · rename_i hne; exact ⟨hne, h⟩

/-- An empty group is filed as the default one. -/
theorem enqueue_groupOf (fq : FairRoundRobinQueue) (group : String) (item : Item) :
    fq.enqueue (groupOf group) item = fq.enqueue group item := by
  have : groupOf (groupOf group) = groupOf group := by unfold groupOf; split <;> simp_all
  unfold enqueue
  rw [this]

theorem step_inv {o : Option Item} (h : Inv False fq) (hop : op.Undotted) (hs : fq.step op = some (o, fq')) : Inv False fq' := by
  cases op with
  | enqueue group item =>
    cases hs
    rw [← enqueue_groupOf]
    exact (h.enqueue_any (goodGroup_groupOf hop) item).1
  | _ => exact ((step_spec h (by trivial)).result hs).1

theorem Runs.inv_undotted (hrun : Run step (new m) events fq) (hdots : ∀ e ∈ events, e.input.Undotted) : Inv False fq :=
  hrun.keeps (I := fun fq => Inv False fq) (fun e he hs h => step_inv h (hdots e he) hs) (new_inv m)

/-! ## The representation -/

/-- The messages in the queues at and under a node. -/
def subtreeLen (fq : FairRoundRobinQueue) (p : Path) : Int := fq.nodes.total fun q n => if p <+: q then (n.queue.len : Int) else 0

/-- The five representations describe one tree. -/
structure Represents (fq : FairRoundRobinQueue) : Prop where
  root : ∃ r, fq.nodes.lookup [] = some r
  child : ∀ p n c, fq.nodes.lookup p = some n → c ∈ n.children → ∃ m, fq.nodes.lookup (p ++ [c]) = some m
  parent : ∀ p c m, fq.nodes.lookup (p ++ [c]) = some m → ∃ n, fq.nodes.lookup p = some n ∧ c ∈ n.children
  names : ∀ p n, fq.nodes.lookup p = some n → n.childrenList.toList.Nodup ∧ ∀ c, c ∈ n.childrenList.toList ↔ c ∈ n.children
  links : ∀ p n, fq.nodes.lookup p = some n → n.childrenList.len = n.children.length ∧
    ∃ addrs, n.childrenList.links.Linked addrs ∧ n.childrenList.toList = Links.values n.childrenList.links.cells addrs
  cursor : ∀ p n c, fq.nodes.lookup p = some n → n.currentChild = some c → c ∈ n.childrenList.toList
  count : ∀ p n, fq.nodes.lookup p = some n → n.messageCount = fq.subtreeLen p
  positive : ∀ p n, fq.nodes.lookup p = some n → p ≠ [] → 0 < n.messageCount
  total : ∀ r, fq.nodes.lookup [] = some r → fq.totalMessages = r.messageCount
  filed : ∀ p n, fq.nodes.lookup p = some n → 0 < n.queue.len →
    fq.groupKeyToLeaf.lookup n.groupKey = some p ∧ ∀ it ∈ n.queue.held, it.group = n.groupKey
  index : ∀ g p, fq.groupKeyToLeaf.lookup g = some p → ∃ n, fq.nodes.lookup p = some n

/-- Nothing is left but the root, as it was made. -/
structure Bare (fq : FairRoundRobinQueue) : Prop where
  only : ∀ p, p ≠ [] → fq.nodes.lookup p = none
  root : ∀ r, fq.nodes.lookup [] = some r → r.children = [] ∧ r.childrenList.toList = [] ∧ r.currentChild = none ∧
    r.queue.len = 0 ∧ r.messageCount = 0
  index : ∀ g, fq.groupKeyToLeaf.lookup g = none
  ready : fq.readyLeaves = 0

/-- The ready messages at or under a node are the ones in the queues there. -/
theorem Tree.below_eq {C D : Multiset Path} (h : Tree fq C D) (p : Path) : (below fq.readyPaths p : Int) = fq.subtreeLen p := by
  unfold below readyPaths subtreeLen
  rw [Multiset.countP_map, ← Multiset.countP_eq_card_filter]
  show ((Multiset.countPAddMonoidHom (fun it => p <+: pathOf it) fq.ready : Nat) : Int) = _
  unfold ready
  rw [FinMap.map_total]
  show Nat.castAddMonoidHom Int _ = _
  rw [FinMap.map_total]
  refine FinMap.total_congr fun q n hn => ?_
  have hpath := (h.ok q n hn).items
  show ((Multiset.countP (fun it => p <+: pathOf it) n.queue.held : Nat) : Int) = _
  split
  · rename_i hpq
    rw [Multiset.countP_eq_card.mpr fun it hit => by rw [hpath it hit]; exact hpq, PriorityMemoryQueue.len_eq_card]
  · rename_i hpq
    rw [Multiset.countP_eq_zero.mpr fun it hit => by rw [hpath it hit]; exact hpq]
    rfl

theorem Inv.represents (h : Inv False fq) : Represents fq := by
  have ht := h.tree
  constructor
  case root => exact ht.root
  case child => exact fun p n c hn hc => ht.child p c n hn hc
  case parent => exact ht.parent
  case names =>
    intro p n hn
    have hok := ht.ok p n hn
    exact ⟨hok.list.nodup_iff.mpr hok.nodup, fun c => hok.list.mem_iff⟩
  case links =>
    intro p n hn
    obtain ⟨addrs, hl⟩ := n.childrenList.linked
    exact ⟨by rw [LinkedList.len_eq]; exact (ht.ok p n hn).list.length_eq, addrs, hl, hl.toList⟩
  case cursor => exact fun p n c hn hc => (ht.ok p n hn).cursor c hc
  case count => exact fun p n hn => (ht.count p n hn).trans (ht.below_eq p)
  case positive =>
    intro p n hn hp
    rw [ht.count p n hn]
    exact_mod_cast below_pos.mpr (ht.live p n hp hn)
  case total =>
    intro r hr
    rw [h.total, ht.count [] r hr]
    unfold below readyPaths
    rw [Multiset.countP_eq_card.mpr fun _ _ => List.nil_prefix, Multiset.card_map]
  case filed =>
    intro p n hn hlen
    have hok := ht.ok p n hn
    have hgroup : ∀ it ∈ n.queue.held, it.group = n.groupKey := fun it hit => by
      rw [h.strict.key p n hn, ← hok.items it hit]
      exact (Dotted.join_split it.group).symm
    rw [PriorityMemoryQueue.len_eq_card] at hlen
    obtain ⟨it, hit⟩ := Multiset.card_pos_iff_exists_mem.mp hlen
    refine ⟨?_, hgroup⟩
    rw [← hgroup it hit, h.strict.filed it (mem_ready.mpr ⟨p, n, hn, hit⟩), hok.items it hit]
  case index => exact h.strict.index

theorem Inv.bare (h : Inv False fq) (hz : fq.totalMessages = 0) : Bare fq := by
  have ht := h.tree
  have hempty : fq.ready = 0 := by
    have := h.total
    rw [hz] at this
    exact Multiset.card_eq_zero.mp (by omega)
  have hpaths : fq.readyPaths = 0 := by unfold readyPaths; rw [hempty]; rfl
  have only : ∀ p, p ≠ [] → fq.nodes.lookup p = none := by
    intro p hp
    cases hn : fq.nodes.lookup p with
    | none => rfl
    | some n =>
      obtain ⟨x, hx, _⟩ := ht.live p n hp hn
      rw [hpaths] at hx
      exact absurd hx (Multiset.notMem_zero x)
  constructor
  case only => exact only
  case root =>
    intro r hr
    have hok := ht.ok [] r hr
    have hch : r.children = [] := List.eq_nil_iff_forall_not_mem.mpr fun c hc => by
      obtain ⟨m, hm⟩ := ht.child [] c r hr hc
      rw [only _ (by simp)] at hm; cases hm
    have hlist : r.childrenList.toList = [] := List.perm_nil.mp (hch ▸ hok.list)
    refine ⟨hch, hlist, ?_, ht.root_len hr, ?_⟩
    · cases hc : r.currentChild with
      | none => rfl
      | some c => have := hok.cursor c hc; rw [hlist] at this; exact absurd this List.not_mem_nil
    · rw [ht.count [] r hr, hpaths]; rfl
  case index =>
    intro g
    cases hg : fq.groupKeyToLeaf.lookup g with
    | none => rfl
    | some p =>
      obtain ⟨n, hn⟩ := h.strict.index g p hg
      rw [only p (by rw [ht.leaf g p hg]; exact Dotted.split_ne_nil g)] at hn; cases hn
  case ready =>
    rw [h.strict.sum]
    refine FinMap.total_eq_zero fun p n hn => ?_
    have hp : p = [] := by_contra fun hp => by rw [only p hp] at hn; cases hn
    subst hp
    rw [h.strict.flag [] n hn id, isReady_of_len (ht.root_len hn)]
    rfl

/-- Over every run on good groups: the tree is one tree, no operation panics, what an
    operation takes is counted on its whole path, and an emptied queue is a bare root. -/
theorem representation_holds (hrun : Run step (new m) events fq) (hgood : ∀ e ∈ events, e.input.Good) :
    Represents fq ∧ (∀ op : Op, op.Good → ∃ r, fq.step op = some r) ∧
      (∀ (op : Op) (it : Item) (fq' : FairRoundRobinQueue), op.takes → op.Good → fq.step op = some (some it, fq') →
        ∀ x, x <+: pathOf it → ∃ n, fq.nodes.lookup x = some n ∧ 1 ≤ n.messageCount) ∧
      (fq.totalMessages = 0 → Bare fq) := by
  have h := (Runs.inv hrun hgood).1
  refine ⟨h.represents, fun op hop => ?_, fun op it fq' htk hop hs x hx => ?_, h.bare⟩
  · obtain ⟨r, hr, _⟩ := step_spec h hop
    exact ⟨r, hr⟩
  · obtain ⟨r, hr, _, _, htaken⟩ := step_spec h hop
    rw [hs] at hr; cases hr
    have hpath : pathOf it ∈ fq.readyPaths := Multiset.mem_map_of_mem _ (htaken htk it rfl)
    obtain ⟨k, hk⟩ := h.tree.here _ hpath
    obtain ⟨n, hn⟩ := h.tree.of_prefix hx hk
    refine ⟨n, hn, ?_⟩
    rw [h.tree.count x n hn]
    exact_mod_cast below_pos.mpr ⟨_, hpath, hx⟩

/-- A group and a longer one under it; both messages are taken, the first with its branch. -/
def prefixedRun : List Op :=
  [.enqueue "a" ⟨1, 0, "a"⟩, .enqueue "a.b" ⟨2, 0, "a.b"⟩, .dequeue true, .delete "a" 1]

theorem prefixedRun_runs : (exec step (new 0) prefixedRun).isSome := rfl

theorem representation_holds_prefixed :
    let r := (exec step (new 0) prefixedRun).get prefixedRun_runs
    r.1.map (·.output.map (·.id)) = [none, none, some 2, some 1] ∧ Represents r.2 ∧ Bare r.2 := by
  intro r
  have h := representation_holds (Run.of_exec_isSome prefixedRun_runs) (by decide)
  exact ⟨rfl, h.1, h.2.2.2 rfl⟩

/-! ## The ready counter -/

/-- The nodes without children that hold a message and are under the limit. -/
def readyNodes (fq : FairRoundRobinQueue) : Nat := fq.nodes.entries.countP fun e => fq.isReady e.2

/-- No group is a proper prefix of another. -/
def PrefixFree (groups : List String) : Prop :=
  ∀ g ∈ groups, ∀ g' ∈ groups, Dotted.split g <+: Dotted.split g' → g = g'

instance (groups : List String) : Decidable (PrefixFree groups) := inferInstanceAs (Decidable (∀ _ ∈ _, _))

theorem Inv.readyLeaves (h : Inv False fq) : fq.readyLeaves = fq.readyNodes := by
  rw [h.strict.sum]
  refine (FinMap.total_congr fun p n hn => ?_).trans (FinMap.total_indicator (fun _ n => fq.isReady n) fq.nodes)
  rw [h.strict.flag p n hn id]

/-- A serving node has a leaf at or under it that holds a message, and is open if it is another node. -/
theorem Serves.leaf_below (hs : fq.Serves p) : ∃ q n, fq.nodes.lookup q = some n ∧ n.children = [] ∧ 0 < n.queue.len ∧
    (q = p ∨ fq.unacked n.groupKey < fq.maxUnacked) := by
  induction hs with
  | leaf hn hch hlen => exact ⟨_, _, hn, hch, hlen, Or.inl rfl⟩
  | child hn hc ho _ ih =>
    obtain ⟨q, n, hq, hch, hlen, hor⟩ := ih
    refine ⟨q, n, hq, hch, hlen, Or.inr ?_⟩
    rcases hor with rfl | hlt
    · obtain ⟨m, hm, hlt⟩ := ho
      rw [hq] at hm; cases hm
      exact hlt
    · exact hlt

/-- A message in reach is a ready leaf: `PeekReady` has no false negatives. -/
theorem Inv.peekReady_of_serves (h : Inv False fq) (hs : fq.Serves []) : fq.peekReady = true := by
  obtain ⟨q, n, hn, hch, hlen, hor⟩ := hs.leaf_below
  refine h.peekReady.mpr ⟨q, n, hn, ?_⟩
  have hlt : fq.unacked n.groupKey < fq.maxUnacked := by
    rcases hor with rfl | hlt
    · rw [h.tree.root_len hn] at hlen; exact absurd hlen (Nat.lt_irrefl 0)
    · exact hlt
  unfold isReady
  simp [hch, hlen, hlt]

/-- A node whose key was never brought in is open, if any node can be. -/
theorem Within.open {G : String → Prop} (hG : Within G fq) (hn : fq.nodes.lookup p = some n)
    (hp : ¬ G n.groupKey) (hmax : 0 < fq.maxUnacked) : fq.Open p := by
  refine ⟨n, hn, ?_⟩
  have : ¬ 0 < fq.unacked n.groupKey := fun hu => hp (hG.unacked _ hu)
  omega

/-- A deliverable node below open ones is in reach. -/
theorem Serves.climb (rest : Path) : ∀ {p : Path}, fq.Serves (p ++ rest) →
    (∀ r, p <+: r → r ≠ p → r <+: p ++ rest → fq.Open r) →
    (∀ r c m, fq.nodes.lookup (r ++ [c]) = some m → ∃ n, fq.nodes.lookup r = some n ∧ c ∈ n.children) → fq.Serves p := by
  induction rest with
  | nil => intro p hs _ _; rw [List.append_nil] at hs; exact hs
  | cons c rest ih =>
    intro p hs ho hpar
    have happ : p ++ c :: rest = p ++ [c] ++ rest := by simp
    rw [happ] at hs ho
    have hne : ∀ r, p ++ [c] <+: r → r ≠ p := fun r hr => under_child_ne hr
    have hsc : fq.Serves (p ++ [c]) :=
      ih hs (fun r hr _ hpre => ho r ((List.prefix_append _ _).trans hr) (hne r hr) hpre) hpar
    have hoc := ho (p ++ [c]) (List.prefix_append _ _) (by simp) (List.prefix_append _ _)
    obtain ⟨m, hm, _⟩ := hoc
    obtain ⟨n, hn, hc⟩ := hpar p c m hm
    exact .child hn hc ⟨m, hm, by assumption⟩ hsc

/-- Without prefixed groups an inner node's key is nobody's group, so a ready leaf is in reach. -/
theorem Inv.serves_of_peekReady (h : Inv False fq) {groups : List String} (hG : Within (· ∈ groups) fq)
    (hfree : PrefixFree groups)
    (hp : fq.peekReady = true) : fq.Serves [] := by
  obtain ⟨q, n, hn, hr⟩ := h.peekReady.mp hp
  obtain ⟨⟨hch, hlen⟩, hlt⟩ : (n.children = [] ∧ 0 < n.queue.len) ∧ fq.unacked n.groupKey < fq.maxUnacked := by
    simpa [isReady] using hr
  have hpos : 0 ≤ fq.unacked n.groupKey := by
    unfold unacked
    cases hu : fq.unackedByGroup.lookup n.groupKey with
    | none => exact Int.le_refl 0
    | some count => exact (h.positive _ count hu).le
  have hmem : n.groupKey ∈ groups ∧ Dotted.split n.groupKey = q := by
    obtain ⟨_, hgroup⟩ := h.represents.filed q n hn hlen
    rw [PriorityMemoryQueue.len_eq_card] at hlen
    obtain ⟨it, hit⟩ := Multiset.card_pos_iff_exists_mem.mp hlen
    rw [← hgroup it hit]
    exact ⟨hG.ready it (mem_ready.mpr ⟨q, n, hn, hit⟩), (h.tree.ok q n hn).items it hit⟩
  refine Serves.climb q (.leaf hn hch hlen) (fun r _ hne hpre => ?_) h.tree.parent
  obtain ⟨k, hk⟩ := h.tree.of_prefix hpre hn
  by_cases hrq : r = q
  · rw [hrq]; exact ⟨n, hn, hlt⟩
  · refine hG.open hk (fun hkg => hrq ?_) (by omega)
    have hsplit := h.strict.split_key hne hk
    rw [← hsplit, ← hmem.2, hfree _ hkg _ hmem.1 (by rw [hsplit, hmem.2]; exact hpre)]

/-- Over every run on good groups: the counter counts the ready leaves, `PeekReady` is true
    whenever a dequeue returns a message, and without prefixed groups only then. -/
theorem readyLeaves_exact (hrun : Run step (new m) events fq) (hgood : ∀ e ∈ events, e.input.Good) :
    fq.readyLeaves = fq.readyNodes ∧
      (∀ ack it fq', fq.dequeue ack = some (some it, fq') → fq.peekReady = true) ∧
      (PrefixFree (events.flatMap (·.input.groups)) → ∀ ack,
        (fq.peekReady = true ↔ fq.hasReadyNode (fq.depth + 1) [] = some true) ∧
        (fq.peekReady = true ↔ ∃ it fq', fq.dequeue ack = some (some it, fq'))) := by
  obtain ⟨h, hG⟩ := Runs.inv hrun hgood
  refine ⟨h.readyLeaves, fun ack it fq' hd => ?_, fun hfree ack => ?_⟩
  · exact h.peekReady_of_serves ((h.safe.dequeue_iff ack).mp ⟨it, fq', hd⟩)
  · have hserves : fq.peekReady = true ↔ fq.Serves [] := ⟨h.serves_of_peekReady hG hfree, h.peekReady_of_serves⟩
    rw [hserves]
    refine ⟨?_, (h.safe.dequeue_iff ack).symm⟩
    obtain ⟨r, hr⟩ := h.tree.root
    obtain ⟨b, hb, hbs⟩ := hasReadyNode_spec h.tree (fq.depth + 1) hr (by simp)
    rw [hb, Option.some.injEq, hbs]

/-- Two groups with a limit of one: one delivered and blocked, one restored to the front. -/
def limitedRun : List Op :=
  [.enqueue "a.x" ⟨1, 0, "a.x"⟩, .enqueue "a.x" ⟨2, 0, "a.x"⟩, .enqueue "b" ⟨3, 0, "b"⟩, .dequeue false,
    .restoreSchedulingState [⟨"", ["b", "a"], "b"⟩]]

theorem limitedRun_runs : (exec step (new 1) limitedRun).isSome := rfl

theorem readyLeaves_exact_limited :
    let r := (exec step (new 1) limitedRun).get limitedRun_runs
    r.2.readyLeaves = 1 ∧ r.2.readyNodes = 1 ∧ r.2.hasReadyNode (r.2.depth + 1) [] = some true := by
  intro r
  have h := readyLeaves_exact (Run.of_exec_isSome limitedRun_runs) (by decide)
  have hleaves : r.2.readyLeaves = 1 := rfl
  have hnodes : (r.2.readyNodes : Int) = 1 := h.1.symm.trans hleaves
  refine ⟨hleaves, by exact_mod_cast hnodes, ?_⟩
  exact ((h.2.2 (by decide) true).1).mp rfl

end Doq.Memory.FairRoundRobinQueue
