/-
  Doq.Memory.RoundRobinRotation — which message a round-robin dequeue takes
  (see `Doq.Memory.RoundRobin`).

  `Serves fq p` says that a dequeue which comes to the node `p` finds a message: `p` is a
  leaf with messages, or has a child that serves and is under its unacked limit. `Picks fq
  p q` is the descent itself: at every inner node it takes the first deliverable child in
  the node's turns, from its cursor on and around.

  Proved: `dequeueFromNode` does not panic (no missing child, no rotation without a
  cursor, no descent past its fuel). It returns a message exactly when the node serves;
  the message is popped from the leaf the descent picks; and afterwards every node on the
  way starts after the child that was taken, and every other node where it did before.
-/

import Doq.Memory.RoundRobinTree
import Doq.Lib.Rotation

namespace Doq.Memory

open Lib

namespace GroupNode

variable {n : GroupNode} {c : String}

theorem next_eq : n.next c = Rotation.after n.childrenList.toList c := by
  unfold next Rotation.after
  rw [LinkedList.next_eq, LinkedList.head?_eq]

/-- The child the next rotation starts from. -/
def start (n : GroupNode) : Option String := n.currentChild.or n.childrenList.head?

/-- The children in the order the next rotation visits them. -/
def turns (n : GroupNode) : List String :=
  match n.start with
  | none => []
  | some s => Rotation.turns n.childrenList.toList s

theorem turns_of_start {s : String} (h : n.start = some s) : n.turns = Rotation.turns n.childrenList.toList s := by
  unfold turns; rw [h]

end GroupNode

namespace FairRoundRobinQueue

variable {fq fq' : FairRoundRobinQueue} {C C' D : Multiset Path} {p q : Path} {n : GroupNode}

/-! ## The rotation -/

def cursorAt (fq : FairRoundRobinQueue) (q : Path) : Option String := (fq.nodes.lookup q).bind (·.currentChild)

/-- Only cursors moved, each to a child of its node. -/
structure Moved (fq fq' : FairRoundRobinQueue) : Prop where
  frame : Frame fq fq'
  leaves : fq'.readyLeaves = fq.readyLeaves
  nodes : ∀ q, fq'.nodes.lookup q = (fq.nodes.lookup q).map fun n => { n with currentChild := fq'.cursorAt q }
  cursor : ∀ q n c, fq.nodes.lookup q = some n → fq'.cursorAt q = some c → c ∈ n.childrenList.toList

theorem Moved.refl (h : Tree fq C D) : Moved fq fq := by
  refine ⟨Frame.refl fq, rfl, fun q => ?_, fun q n c hn hc => ?_⟩
  · unfold cursorAt
    cases hq : fq.nodes.lookup q <;> simp
  · unfold cursorAt at hc
    rw [hn] at hc
    exact (h.ok q n hn).cursor c hc

theorem Moved.lookup (h : Moved fq fq') (hp : fq.nodes.lookup p = some n) :
    fq'.nodes.lookup p = some { n with currentChild := fq'.cursorAt p } := by
  rw [h.nodes, hp]; rfl

theorem Moved.trans {a b c : FairRoundRobinQueue} (h : Moved a b) (h' : Moved b c) : Moved a c := by
  refine ⟨h.frame.trans h'.frame, h'.leaves.trans h.leaves, fun q => ?_, fun q n x hn hx =>
    h'.cursor q { n with currentChild := b.cursorAt q } x (h.lookup hn) hx⟩
  rw [h'.nodes, h.nodes, Option.map_map]
  rfl

theorem Moved.setCursor (h : Tree fq C D) (hp : fq.nodes.lookup p = some n) {c : String} (hc : c ∈ n.childrenList.toList) :
    Moved fq (fq.setNode p { n with currentChild := some c }) := by
  have hcur : ∀ q, (fq.setNode p { n with currentChild := some c }).cursorAt q =
      if q = p then some c else fq.cursorAt q := fun q => by
    unfold cursorAt
    rw [setNode_lookup]
    split <;> rfl
  refine ⟨setNode_frame _ _ _, rfl, fun q => ?_, fun q m x hm hx => ?_⟩
  · rw [setNode_lookup, hcur]
    split
    · rename_i e; subst e; rw [hp]; rfl
    · exact (Moved.refl h).nodes q
  · rw [hcur] at hx
    split at hx
    · rename_i e; subst e; rw [hp] at hm; cases hm; cases hx; exact hc
    · exact (Moved.refl h).cursor q m x hm hx

theorem Tree.moved (h : Tree fq C D) (hm : Moved fq fq') : Tree fq' C D := by
  refine h.pointwise _ hm.nodes (fun q n _ => rfl) (fun q n hn => ?_) (fun q n hn => h.count q n hn) h.here
    (by rw [hm.frame.leaf]; exact h.leaf)
  have ho := h.ok q n hn
  exact ⟨ho.list, ho.nodup, fun c hcur => hm.cursor q n c hn hcur, ho.minFirst, ho.items, ho.sound, ho.heaped⟩

theorem Moved.ready (h : Moved fq fq') : fq'.ready = fq.ready := ready_map _ h.nodes fun _ _ _ => rfl

theorem Moved.depth (h : Moved fq fq') : fq'.depth = fq.depth := FinMap.total_map _ _ h.nodes

/-- One item left the heap of a childless node, and cursors moved. -/
def Popped (fq : FairRoundRobinQueue) (q : Path) (it : Item) (fq' : FairRoundRobinQueue) : Prop :=
  ∃ n queue, fq.nodes.lookup q = some n ∧ n.children = [] ∧ n.queue.heapPop = (some it, queue) ∧
    Moved (fq.setNode q { n with queue := queue }) fq'

theorem Moved.popped {a b c : FairRoundRobinQueue} {it : Item} (h : Moved a b) (hp : Popped b q it c) : Popped a q it c := by
  obtain ⟨m, queue, hm, hch, hpop, hmv⟩ := hp
  rw [h.nodes, Option.map_eq_some_iff] at hm
  obtain ⟨n, hn, rfl⟩ := hm
  have hcur : ∀ r, (b.setNode q { n with currentChild := b.cursorAt q, queue := queue }).cursorAt r = b.cursorAt r := fun r => by
    unfold cursorAt
    rw [setNode_lookup]
    split
    · rename_i e; subst e; rfl
    · rfl
  have hmv' : Moved (a.setNode q { n with queue := queue })
      (b.setNode q { n with currentChild := b.cursorAt q, queue := queue }) := by
    refine ⟨⟨h.frame.leaf, h.frame.unacked, h.frame.max, h.frame.total⟩, h.leaves, fun r => ?_, fun r k x hk hx => ?_⟩
    · rw [setNode_lookup, setNode_lookup, hcur]
      split
      · rename_i e; subst e; rfl
      · exact h.nodes r
    · rw [hcur] at hx
      rw [setNode_lookup] at hk
      split at hk
      · rename_i e; subst e; cases hk; exact h.cursor r n x hn hx
      · exact h.cursor r k x hk hx
  exact ⟨n, queue, hn, hch, hpop, hmv'.trans hmv⟩

/-- The popped heap, before cursors move on. -/
theorem Popped.shrunk {it : Item} (hp : Popped fq q it fq') : ∃ n queue, fq.nodes.lookup q = some n ∧
    n.children = [] ∧ n.queue.Shrunk it queue ∧ Moved (fq.setNode q { n with queue := queue }) fq' ∧
    n.queue.heapPop = (some it, queue) := by
  obtain ⟨n, queue, hn, hch, hpop, hmv⟩ := hp
  have hpos : 0 < n.queue.items.size := by
    rcases Nat.eq_zero_or_pos n.queue.items.size with h0 | h0
    · have : n.queue.items = #[] := Array.eq_empty_of_size_eq_zero h0
      simp [PriorityMemoryQueue.heapPop, PriorityMemoryQueue.pop, Heap.pop, Heap.down, Heap.downN, PriorityMemoryQueue.heap,
        PriorityMemoryQueue.swap, PriorityMemoryQueue.len, this] at hpop
    · exact h0
  obtain ⟨x, pq', _, he, hs, _⟩ := PriorityMemoryQueue.heapPop_spec hpos
  rw [he] at hpop
  cases hpop
  exact ⟨n, queue, hn, hch, hs, hmv, he⟩

theorem Popped.tree {it : Item} (hp : Popped fq q it fq') (h : Tree fq C D) : Tree fq' C D := by
  obtain ⟨n, queue, hn, _, hs, hmv, _⟩ := hp.shrunk
  have hn' := h.setNode hn { n with queue := queue } rfl rfl ((h.ok q n hn).shrink hs)
  exact hn'.moved hmv

theorem Popped.ready {it : Item} (hp : Popped fq q it fq') : fq.ready = it ::ₘ fq'.ready := by
  obtain ⟨n, queue, hn, _, hs, hmv, _⟩ := hp.shrunk
  obtain ⟨rest, hr, hr'⟩ := ready_split hn
  rw [hmv.ready, hr', hr, hs.held, Multiset.cons_add]

theorem Popped.path {it : Item} (hp : Popped fq q it fq') (h : Tree fq C D) : pathOf it = q := by
  obtain ⟨n, queue, hn, _, hs, _, _⟩ := hp.shrunk
  exact (h.ok q n hn).items it (by rw [hs.held]; exact Multiset.mem_cons_self _ _)

theorem Popped.frame {it : Item} (hp : Popped fq q it fq') : Frame fq fq' := by
  obtain ⟨n, queue, _, _, _, hmv⟩ := hp
  exact (setNode_frame _ _ _).trans hmv.frame

theorem Popped.moved {it : Item} (hp : Popped fq q it fq') {fq'' : FairRoundRobinQueue} (hm : Moved fq' fq'') :
    Popped fq q it fq'' := by
  obtain ⟨n, queue, hn, hch, hpop, hmv⟩ := hp
  exact ⟨n, queue, hn, hch, hpop, hmv.trans hm⟩

/-- A node other than the popped one keeps everything but its cursor. -/
theorem Popped.lookup {it : Item} (hp : Popped fq q it fq') (hne : p ≠ q) (hn : fq.nodes.lookup p = some n) :
    fq'.nodes.lookup p = some { n with currentChild := fq'.cursorAt p } := by
  obtain ⟨m, queue, _, _, _, hmv⟩ := hp
  exact hmv.lookup (by rw [setNode_lookup, if_neg hne, hn])

/-! ## What a node can deliver -/

/-- The node is under its unacked limit. -/
def Open (fq : FairRoundRobinQueue) (p : Path) : Prop :=
  ∃ m, fq.nodes.lookup p = some m ∧ fq.unacked m.groupKey < fq.maxUnacked

/-- A dequeue that comes to the node finds a message. -/
inductive Serves (fq : FairRoundRobinQueue) : Path → Prop
  | leaf {p : Path} {n : GroupNode} (hn : fq.nodes.lookup p = some n) (hch : n.children = [])
    (hlen : 0 < n.queue.len) : Serves fq p
  | child {p : Path} {n : GroupNode} {c : String} (hn : fq.nodes.lookup p = some n) (hc : c ∈ n.children)
      (ho : fq.Open (p ++ [c])) (hs : Serves fq (p ++ [c])) : Serves fq p

/-- A rotation that visits the node takes a message from it. -/
def Deliverable (fq : FairRoundRobinQueue) (p : Path) : Prop := fq.Open p ∧ fq.Serves p

/-- The descent from `p` ends at the leaf `q`. -/
inductive Picks (fq : FairRoundRobinQueue) : Path → Path → Prop
  | leaf {p : Path} {n : GroupNode} (hn : fq.nodes.lookup p = some n) (hch : n.children = [])
    (hlen : 0 < n.queue.len) : Picks fq p p
  | child {p q : Path} {n : GroupNode} {c : String} {skipped later : List String} (hn : fq.nodes.lookup p = some n)
      (hch : n.children ≠ []) (ht : n.turns = skipped ++ c :: later)
      (hskip : ∀ d ∈ skipped, ¬ fq.Deliverable (p ++ [d])) (ho : fq.Open (p ++ [c])) (hp : Picks fq (p ++ [c]) q) : Picks fq p q

def startAt (fq : FairRoundRobinQueue) (r : Path) : Option String := (fq.nodes.lookup r).bind (·.start)

/-- The child of `r` on the way from `p` to `q`, if `r` is on it. -/
def toward (p q r : Path) : Option String := if p <+: r ∧ r <+: q then (q.drop r.length).head? else none

/-- Where a node starts after a delivery along the way from `p` to `q`. -/
def startAfter (fq : FairRoundRobinQueue) (p q r : Path) : Option String :=
  match toward p q r with
  | some c => (fq.nodes.lookup r).bind (·.next c)
  | none => fq.startAt r

/-- What a descent from `p` does: it finds nothing and leaves every start where it was, or
    it pops a message at the leaf it picks and moves on the starts on its way. -/
def Descent (fq : FairRoundRobinQueue) (p : Path) : Option Item × FairRoundRobinQueue → Prop
  | (none, fq') => ¬ fq.Serves p ∧ Moved fq fq' ∧ ∀ r, fq'.startAt r = fq.startAt r
  | (some it, fq') => ∃ q, fq.Picks p q ∧ Popped fq q it fq' ∧ ∀ r, fq'.startAt r = fq.startAfter p q r

theorem Picks.under (h : fq.Picks p q) : p <+: q := by
  induction h with
  | leaf => exact List.prefix_rfl
  | child _ _ _ _ _ _ ih => exact (List.prefix_append _ _).trans ih

theorem toward_self {c : String} (h : p ++ [c] <+: q) : toward p q p = some c := by
  obtain ⟨rest, rfl⟩ := h
  unfold toward
  rw [if_pos ⟨List.prefix_rfl, by rw [List.append_assoc]; exact List.prefix_append _ _⟩]
  simp

theorem toward_child {c : String} {r : Path} (h : p ++ [c] <+: q) (hr : r ≠ p) : toward (p ++ [c]) q r = toward p q r := by
  unfold toward
  by_cases hq : r <+: q
  · refine if_congr ⟨fun hx => ⟨(List.prefix_append _ _).trans hx.1, hq⟩, fun hx => ⟨?_, hq⟩⟩ rfl rfl
    -- two prefixes of `q`, the longer one a proper extension of `p`
    refine List.prefix_of_prefix_length_le h hq ?_
    have hlen := hx.1.length_le
    have hne : p.length ≠ r.length := fun e => hr (hx.1.eq_of_length e).symm
    simp only [List.length_append, List.length_singleton]
    omega
  · rw [if_neg fun hx => hq hx.2, if_neg fun hx => hq hx.2]

/-! ## Moving cursors changes nothing of this -/

theorem Moved.back (h : Moved fq fq') {m : GroupNode} (hm : fq'.nodes.lookup p = some m) :
    ∃ n, fq.nodes.lookup p = some n ∧ m = { n with currentChild := fq'.cursorAt p } := by
  rw [h.nodes, Option.map_eq_some_iff] at hm
  obtain ⟨n, hn, rfl⟩ := hm
  exact ⟨n, hn, rfl⟩

theorem Moved.unacked_eq (h : Moved fq fq') (g : String) : fq'.unacked g = fq.unacked g := by
  unfold unacked; rw [h.frame.unacked]

theorem Moved.open_iff (h : Moved fq fq') : fq'.Open p ↔ fq.Open p := by
  unfold Open
  constructor
  · rintro ⟨m, hm, hlt⟩
    obtain ⟨n, hn, rfl⟩ := h.back hm
    exact ⟨n, hn, by rw [← h.unacked_eq, ← h.frame.max]; exact hlt⟩
  · rintro ⟨n, hn, hlt⟩
    exact ⟨_, h.lookup hn, by rw [h.unacked_eq, h.frame.max]; exact hlt⟩

theorem Moved.serves_iff (h : Moved fq fq') : fq'.Serves p ↔ fq.Serves p := by
  constructor
  · intro hs
    induction hs with
    | leaf hn hch hlen => obtain ⟨n, hn', rfl⟩ := h.back hn; exact .leaf hn' hch hlen
    | child hn hc ho _ ih => obtain ⟨n, hn', rfl⟩ := h.back hn; exact .child hn' hc (h.open_iff.mp ho) ih
  · intro hs
    induction hs with
    | leaf hn hch hlen => exact .leaf (h.lookup hn) hch hlen
    | child hn hc ho _ ih => exact .child (h.lookup hn) hc (h.open_iff.mpr ho) ih

theorem Moved.deliverable_iff (h : Moved fq fq') : fq'.Deliverable p ↔ fq.Deliverable p :=
  and_congr h.open_iff h.serves_iff

theorem Moved.next_eq (h : Moved fq fq') (r : Path) (c : String) :
    (fq'.nodes.lookup r).bind (·.next c) = (fq.nodes.lookup r).bind (·.next c) := by
  rw [h.nodes]
  cases fq.nodes.lookup r <;> rfl

theorem Moved.turns_eq (h : Moved fq fq') (hn : fq.nodes.lookup p = some n) (hs : fq'.startAt p = fq.startAt p) :
    GroupNode.turns { n with currentChild := fq'.cursorAt p } = n.turns := by
  unfold startAt at hs
  rw [h.lookup hn, hn] at hs
  unfold GroupNode.turns
  rw [show GroupNode.start { n with currentChild := fq'.cursorAt p } = n.start from hs]

/-- A descent depends on the starts at and below its node only. -/
theorem Picks.of_moved (h : Moved fq fq') (hp : fq'.Picks p q) (hs : ∀ r, p <+: r → fq'.startAt r = fq.startAt r) :
    fq.Picks p q := by
  induction hp with
  | leaf hn hch hlen => obtain ⟨n, hn', rfl⟩ := h.back hn; exact .leaf hn' hch hlen
  | child hn hch ht hskip ho _ ih =>
    obtain ⟨n, hn', rfl⟩ := h.back hn
    rw [h.turns_eq hn' (hs _ List.prefix_rfl)] at ht
    exact .child hn' hch ht (fun d hd hx => hskip d hd (h.deliverable_iff.mpr hx)) (h.open_iff.mp ho)
      (ih fun r hr => hs r ((List.prefix_append _ _).trans hr))

theorem Moved.startAfter_eq (h : Moved fq fq') {r : Path} (hs : fq'.startAt r = fq.startAt r) :
    fq'.startAfter p q r = fq.startAfter p q r := by
  unfold startAfter
  split
  · exact h.next_eq r _
  · exact hs

/-! ## The loop -/

/-- The new start at one node; the others stay. -/
theorem setCursor_startAt {c : String} (r : Path) (hr : r ≠ p) :
    (fq.setNode p { n with currentChild := some c }).startAt r = fq.startAt r := by
  unfold startAt
  rw [setNode_lookup, if_neg hr]

theorem setCursor_startAt_self {c : String} : (fq.setNode p { n with currentChild := some c }).startAt p = some c := by
  unfold startAt
  rw [setNode_lookup, if_pos rfl]
  rfl

/-- What the rest of a rotation does, with `rest` still to visit: nothing, and the cursor is
    back at the start, or a delivery from the first deliverable child. -/
def Around (fq : FairRoundRobinQueue) (p : Path) (startNode : String) (rest : List String) :
    Option Item × FairRoundRobinQueue → Prop
  | (none, fq') => (∀ d ∈ rest, ¬ fq.Deliverable (p ++ [d])) ∧ Moved fq fq' ∧ (∀ r, r ≠ p → fq'.startAt r = fq.startAt r) ∧
      fq'.startAt p = some startNode
  | (some it, fq') => ∃ skipped c later q, rest = skipped ++ c :: later ∧ (∀ d ∈ skipped, ¬ fq.Deliverable (p ++ [d])) ∧
      fq.Open (p ++ [c]) ∧ fq.Picks (p ++ [c]) q ∧ Popped fq q it fq' ∧
      (∀ r, r ≠ p → fq'.startAt r = fq.startAfter (p ++ [c]) q r) ∧ fq'.startAt p = (fq.nodes.lookup p).bind (·.next c)

/-- One visit: the child is not deliverable and no start moves, or it delivers. -/
def Visited (fq : FairRoundRobinQueue) (p : Path) : Option Item × FairRoundRobinQueue → Prop
  | (none, fq') => ¬ fq.Deliverable p ∧ Moved fq fq' ∧ ∀ r, fq'.startAt r = fq.startAt r
  | (some it, fq') => fq.Open p ∧ ∃ q, fq.Picks p q ∧ Popped fq q it fq' ∧ ∀ r, fq'.startAt r = fq.startAfter p q r

section Rotate

variable {dequeue : FairRoundRobinQueue → Path → Go (Option Item × FairRoundRobinQueue)} {child node : GroupNode} {c : String}

theorem visit_spec (h : Tree fq C D) (hc : fq.nodes.lookup p = some child) (hd : Returns (dequeue fq p) (Descent fq p)) :
    Returns (visit dequeue fq p child) (Visited fq p) := by
  unfold visit
  split
  · rename_i hlt
    refine hd.mono fun r hr => ?_
    obtain ⟨it, fq'⟩ := r
    cases it with
    | none => exact ⟨fun hx => hr.1 hx.2, hr.2⟩
    | some it => exact ⟨⟨child, hc, hlt⟩, hr⟩
  · rename_i hlt
    refine .intro ⟨fun hx => ?_, Moved.refl h, fun _ => rfl⟩
    obtain ⟨⟨m, hm, hlt'⟩, _⟩ := hx
    rw [hc] at hm; cases hm
    exact hlt hlt'

/-- The node the rotation stands on keeps everything but its cursor during a visit. -/
theorem Visited.keeps {r : Option Item × FairRoundRobinQueue} (hv : Visited fq (p ++ [c]) r)
    (hn : fq.nodes.lookup p = some node) :
    r.2.nodes.lookup p = some { node with currentChild := r.2.cursorAt p } := by
  obtain ⟨it, fq'⟩ := r
  cases it with
  | none => exact hv.2.1.lookup hn
  | some it =>
    obtain ⟨_, q, hpick, hpop, _⟩ := hv
    exact hpop.lookup (under_child_ne hpick.under).symm hn

theorem Visited.tree {r : Option Item × FairRoundRobinQueue} (hv : Visited fq p r) (h : Tree fq C D) : Tree r.2 C D := by
  obtain ⟨it, fq'⟩ := r
  cases it with
  | none => exact h.moved hv.2.1
  | some it => obtain ⟨_, q, _, hpop, _⟩ := hv; exact hpop.tree h

/-- The rest of the rotation, after a visit without a delivery moved the cursor on. -/
theorem Around.of_moved {startNode : String} {rest : List String} {r : Option Item × FairRoundRobinQueue} (hm : Moved fq fq')
    (hs : ∀ r, r ≠ p → fq'.startAt r = fq.startAt r) (hc : ¬ fq.Deliverable (p ++ [c])) (h : Around fq' p startNode rest r) :
    Around fq p startNode (c :: rest) r := by
  obtain ⟨it, fq2⟩ := r
  cases it with
  | none =>
    obtain ⟨hno, hmv, hst, hp⟩ := h
    refine ⟨fun d hd => ?_, hm.trans hmv, fun r hr => (hst r hr).trans (hs r hr), hp⟩
    rcases List.mem_cons.mp hd with rfl | hd
    · exact hc
    · exact fun hx => hno d hd (hm.deliverable_iff.mpr hx)
  | some it =>
    obtain ⟨skipped, d, later, q, rfl, hskip, ho, hpick, hpop, hst, hp⟩ := h
    have hne : ∀ r, p ++ [d] <+: r → r ≠ p := fun r hr => under_child_ne hr
    refine ⟨c :: skipped, d, later, q, rfl, fun b hb => ?_, hm.open_iff.mp ho, hpick.of_moved hm fun r hr => hs r (hne r hr),
      hm.popped hpop, fun r hr => (hst r hr).trans (hm.startAfter_eq (hs r hr)), hp.trans (hm.next_eq p d)⟩
    rcases List.mem_cons.mp hb with rfl | hb
    · exact hc
    · exact fun hx => hskip b hb (hm.deliverable_iff.mpr hx)

/-- One turn of the loop: a delivery ends it, and otherwise the cursor is on the next child. -/
theorem rotate_step {startNode x : String} {visits : Nat} {todo : List String} (h : Tree fq C D)
    (hn : fq.nodes.lookup p = some node)
    (hcur : node.currentChild = some c) (hx : node.next c = some x) (hmem : x ∈ node.childrenList.toList)
    (hd : ∀ m, fq.nodes.lookup (p ++ [c]) = some m → Returns (dequeue fq (p ++ [c])) (Descent fq (p ++ [c])))
    (hcont : ∀ fq1, ¬ fq.Deliverable (p ++ [c]) → Moved fq fq1 → (∀ r, r ≠ p → fq1.startAt r = fq.startAt r) →
      fq1.nodes.lookup p = some { node with currentChild := some x } →
      Returns (if x = startNode then some (none, fq1)
        else rotate dequeue p startNode visits fq1) (Around fq p startNode (c :: todo))) :
    Returns (rotate dequeue p startNode (visits + 1) fq) (Around fq p startNode (c :: todo)) := by
  have hok := h.ok p node hn
  have hch : c ∈ node.children := hok.list.mem_iff.mp (hok.cursor c hcur)
  obtain ⟨m, hm⟩ := h.child p c node hn hch
  have hchild : fq.childNode p node c = some m := by unfold childNode; rw [if_pos hch, hm]
  unfold rotate
  refine .bind_eq hn (.bind_eq hcur (.bind_eq hchild ((visit_spec h hm (hd m hm)).bind fun ⟨item, fq1⟩ hv => ?_)))
  have hn1 := hv.keeps hn
  have hmv := Moved.setCursor (hv.tree h) hn1 hmem
  simp only
  refine .bind_eq hn1 (.bind_eq (show GroupNode.next _ c = some x from hx) ?_)
  cases item with
  | some it =>
    obtain ⟨ho, q, hpick, hpop, hst⟩ := hv
    refine .intro ⟨[], c, todo, q, rfl, fun d hd => absurd hd List.not_mem_nil, ho, hpick, hpop.moved hmv, fun r hr => ?_, ?_⟩
    · rw [setCursor_startAt r hr, hst r]
    · rw [setCursor_startAt_self, hn]; exact hx.symm
  | none =>
    obtain ⟨hno, hmv1, hst⟩ := hv
    exact hcont _ hno (hmv1.trans hmv) (fun r hr => (setCursor_startAt r hr).trans (hst r)) (by rw [setNode_lookup, if_pos rfl])

theorem rotate_spec {d : Nat} (hrec : ∀ fq' c m, Tree fq' C D → fq'.depth = d → fq'.nodes.lookup (p ++ [c]) = some m →
      Returns (dequeue fq' (p ++ [c])) (Descent fq' (p ++ [c]))) (startNode : String) (todo : List String) :
    ∀ {fq : FairRoundRobinQueue} {node : GroupNode} {c : String} {done : List String}, Tree fq C D → fq.depth = d →
      fq.nodes.lookup p = some node → node.currentChild = some c → startNode ∈ node.childrenList.toList →
      Rotation.turns node.childrenList.toList startNode = done ++ c :: todo →
      Returns (rotate dequeue p startNode (todo.length + 1) fq) (Around fq p startNode (c :: todo)) := by
  induction todo with
  | nil =>
    intro fq node c done h hd hn hcur hs ht
    have hnodup := (h.ok p node hn).list.nodup_iff.mpr (h.ok p node hn).nodup
    -- the last child of the turns: the rotation is back at its start
    have hx : node.next c = some startNode := by
      rw [GroupNode.next_eq, Rotation.after_eq hnodup hs ht, List.nil_append, ← ht, Rotation.head_turns hs]
    refine rotate_step h hn hcur hx hs (fun m hm => hrec fq c m h hd hm) fun fq1 hno hmv hst hn1 => ?_
    rw [if_pos rfl]
    refine .intro ⟨fun d hd => ?_, hmv, hst, ?_⟩
    · rw [List.mem_singleton.mp hd]; exact hno
    · unfold startAt; rw [hn1]; rfl
  | cons t todo ih =>
    intro fq node c done h hd hn hcur hs ht
    have hnodup := (h.ok p node hn).list.nodup_iff.mpr (h.ok p node hn).nodup
    have hx : node.next c = some t := by rw [GroupNode.next_eq, Rotation.after_eq hnodup hs ht]; rfl
    have hmem : t ∈ node.childrenList.toList := Rotation.mem_turns.mp (by rw [ht]; simp)
    refine rotate_step h hn hcur hx hmem (fun m hm => hrec fq c m h hd hm) fun fq1 hno hmv hst hn1 => ?_
    have hne : t ≠ startNode := fun e => by
      have hhead := Rotation.head_turns hs
      have hnd := Rotation.turns_nodup (s := startNode) hnodup
      rw [ht] at hhead hnd
      have hin : startNode ∈ done ++ [c] := by
        cases done with
        | nil => simp at hhead; simp [hhead]
        | cons x done => simp at hhead; simp [hhead]
      rw [← List.singleton_append, ← List.append_assoc] at hnd
      exact (List.nodup_append.mp hnd).2.2 startNode hin t List.mem_cons_self e.symm
    rw [if_neg hne]
    have ht' : Rotation.turns node.childrenList.toList startNode = (done ++ [c]) ++ t :: todo := by rw [ht]; simp
    exact (ih (h.moved hmv) (hmv.depth.trans hd) hn1 rfl hs ht').mono fun r hr => hr.of_moved hmv hst hno

end Rotate

theorem NodeOk.start_mem (h : NodeOk p n) {s : String} (hs : n.start = some s) : s ∈ n.childrenList.toList := by
  unfold GroupNode.start at hs
  rw [LinkedList.head?_eq] at hs
  cases hc : n.currentChild with
  | none => rw [hc, Option.none_or] at hs; exact List.mem_of_mem_head? hs
  | some c => rw [hc, Option.some_or] at hs; cases hs; exact h.cursor _ hc

theorem NodeOk.start_some (h : NodeOk p n) (hch : n.children ≠ []) : ∃ s, n.start = some s := by
  unfold GroupNode.start
  rw [LinkedList.head?_eq]
  cases hl : n.childrenList.toList with
  | nil => exact absurd (hl ▸ h.list).nil_eq.symm hch
  | cons x l => cases n.currentChild <;> exact ⟨_, rfl⟩

theorem NodeOk.mem_turns (h : NodeOk p n) (hch : n.children ≠ []) {c : String} : c ∈ n.turns ↔ c ∈ n.children := by
  obtain ⟨s, hs⟩ := h.start_some hch
  rw [GroupNode.turns_of_start hs, Rotation.mem_turns, h.list.mem_iff]

/-- A leaf that is asked delivers the top of its heap if it has one. -/
theorem dequeueFromNode_leaf {fuel : Nat} (h : Tree fq C D) (hp : fq.nodes.lookup p = some n) (hch : n.children = []) :
    Returns (dequeueFromNode (fuel + 1) fq p) (Descent fq p) := by
  unfold dequeueFromNode
  refine .bind_eq hp ?_
  rw [if_pos hch]
  split
  · rename_i hlen
    obtain ⟨x, pq', _, he, hs, _⟩ := PriorityMemoryQueue.heapPop_spec hlen
    rw [he]
    have hn := h.setNode hp { n with queue := pq' } rfl rfl ((h.ok p n hp).shrink hs)
    refine .intro ⟨p, .leaf hp hch hlen, ⟨n, pq', hp, hch, he, Moved.refl hn⟩, fun r => ?_⟩
    have ht : toward p p r = none := by
      unfold toward
      split
      · rename_i hr
        have e : r = p := hr.2.eq_of_length (Nat.le_antisymm hr.2.length_le hr.1.length_le)
        rw [e, List.drop_length]; rfl
      · rfl
    unfold startAfter startAt
    rw [ht, setNode_lookup]
    split
    · rename_i e; rw [e, hp]; rfl
    · rfl
  · rename_i hlen
    refine .intro ⟨fun hs => ?_, Moved.refl h, fun _ => rfl⟩
    cases hs with
    | leaf hn _ hlen' => rw [hp] at hn; cases hn; exact hlen hlen'
    | child hn hc _ _ => rw [hp] at hn; cases hn; rw [hch] at hc; exact absurd hc List.not_mem_nil

/-- An inner node delivers from the first deliverable child in its turns. -/
theorem Descent.of_around (h : Tree fq C D) (hp : fq.nodes.lookup p = some n) (hch : n.children ≠ []) {s : String}
    (hs : n.start = some s) {r : Option Item × FairRoundRobinQueue}
    (hr : Around (fq.setNode p { n with currentChild := some s }) p s n.turns r) : Descent fq p r := by
  have hok := h.ok p n hp
  have hmv := Moved.setCursor h hp (hok.start_mem hs)
  have hst : ∀ r, (fq.setNode p { n with currentChild := some s }).startAt r = fq.startAt r := fun r => by
    by_cases hr : r = p
    · rw [hr, setCursor_startAt_self]; unfold startAt; rw [hp]; exact hs.symm
    · exact setCursor_startAt r hr
  obtain ⟨it, fq'⟩ := r
  cases it with
  | none =>
    obtain ⟨hno, hmv', hst', hp'⟩ := hr
    refine ⟨fun hserve => ?_, hmv.trans hmv', fun r => ?_⟩
    · cases hserve with
      | leaf hn hch' _ => rw [hp] at hn; cases hn; exact hch hch'
      | child hn hc ho hs' =>
        rw [hp] at hn; cases hn
        exact hno _ ((hok.mem_turns hch).mpr hc) (hmv.deliverable_iff.mpr ⟨ho, hs'⟩)
    · by_cases hr : r = p
      · rw [hr, hp']; unfold startAt; rw [hp]; exact hs.symm
      · rw [hst' r hr, hst r]
  | some it =>
    obtain ⟨skipped, c, later, q, ht, hskip, ho, hpick, hpop, hst', hp'⟩ := hr
    have hpick' := hpick.of_moved hmv fun r _ => hst r
    refine ⟨q, .child hp hch ht (fun d hd hx => hskip d hd (hmv.deliverable_iff.mpr hx)) (hmv.open_iff.mp ho) hpick',
      hmv.popped hpop, fun r => ?_⟩
    by_cases hr : r = p
    · rw [hr, hp', hmv.next_eq]
      unfold startAfter
      rw [toward_self hpick'.under]
    · rw [hst' r hr, hmv.startAfter_eq (hst r)]
      unfold startAfter
      rw [toward_child hpick'.under hr]

theorem length_le_depth (hp : fq.nodes.lookup p = some n) : p.length ≤ fq.depth :=
  FinMap.le_total (fun (p : Path) (_ : GroupNode) => p.length) hp

/-- The descent ends: a node's path is no longer than the fuel left for it. -/
theorem dequeueFromNode_spec (fuel : Nat) : ∀ {fq : FairRoundRobinQueue} {p : Path} {n : GroupNode}, Tree fq C D →
    fq.nodes.lookup p = some n → fq.depth + 1 ≤ fuel + p.length →
    Returns (dequeueFromNode fuel fq p) (Descent fq p) := by
  induction fuel with
  | zero =>
    intro fq p n _ hp hf
    have := length_le_depth hp
    omega
  | succ fuel ih =>
    intro fq p n h hp hf
    by_cases hch : n.children = []
    · exact dequeueFromNode_leaf h hp hch
    have hok := h.ok p n hp
    obtain ⟨s, hs⟩ := hok.start_some hch
    have hmem := hok.start_mem hs
    unfold dequeueFromNode
    refine .bind_eq hp ?_
    rw [if_neg hch, if_neg (by rw [LinkedList.len_eq]; exact (List.length_pos_of_mem hmem).ne')]
    refine .bind_eq (show n.currentChild.or n.childrenList.head? = some s from hs) ?_
    have hmv := Moved.setCursor h hp hmem
    have hturns : ∃ todo, Rotation.turns n.childrenList.toList s = [] ++ s :: todo := by
      have hhead := Rotation.head_turns hmem
      cases ht : Rotation.turns n.childrenList.toList s with
      | nil => rw [ht] at hhead; cases hhead
      | cons x todo => rw [ht] at hhead; cases hhead; exact ⟨todo, rfl⟩
    obtain ⟨todo, ht⟩ := hturns
    have hlen : n.childrenList.len = todo.length + 1 := by
      rw [LinkedList.len_eq, ← (Rotation.turns_perm n.childrenList.toList s).length_eq, ht]; rfl
    have hp' : (fq.setNode p { n with currentChild := some s }).nodes.lookup p = some { n with currentChild := some s } := by
      rw [setNode_lookup, if_pos rfl]
    rw [hlen]
    refine (rotate_spec (d := fq.depth) (fun fq' c m h' hd hm => ih h' hm (by simp; omega)) s todo (h.moved hmv) hmv.depth
      hp' rfl hmem ht).mono fun r hr => Descent.of_around h hp hch hs ?_
    rw [GroupNode.turns_of_start hs, ht]
    exact hr

theorem Picks.serves (h : fq.Picks p q) (ht : Tree fq C D) : fq.Serves p := by
  induction h with
  | leaf hn hch hlen => exact .leaf hn hch hlen
  | child hn hch hturns _ ho _ ih =>
    exact .child hn ((ht.ok _ _ hn).mem_turns hch |>.mp (by rw [hturns]; simp)) ho ih

/-! ## The read-only walks -/

/-- The test's oracle answers whether a dequeue finds a message. -/
theorem hasReadyNode_spec (h : Tree fq C D) (fuel : Nat) : ∀ {p : Path} {n : GroupNode}, fq.nodes.lookup p = some n →
    fq.depth + 1 ≤ fuel + p.length → Returns (fq.hasReadyNode fuel p) fun b => b = true ↔ fq.Serves p := by
  induction fuel with
  | zero => intro p n hp hf; have := length_le_depth hp; omega
  | succ fuel ih =>
    intro p n hp hf
    unfold hasReadyNode
    refine .bind_eq hp ?_
    split
    · rename_i hch
      refine .intro ?_
      rw [decide_eq_true_iff]
      constructor
      · exact fun hlen => .leaf hp hch hlen
      · intro hs
        cases hs with
        | leaf hn _ hlen => rw [hp] at hn; cases hn; exact hlen
        | child hn hc _ _ => rw [hp] at hn; cases hn; rw [hch] at hc; exact absurd hc List.not_mem_nil
    · rename_i hch
      refine (Returns.anyM (Q := fun c => fq.Deliverable (p ++ [c])) fun c hc => ?_).mono fun b hb => ?_
      · obtain ⟨m, hm⟩ := h.child p c n hp hc
        refine .bind_eq hm ?_
        split
        · rename_i hlt
          refine (ih hm (by simp; omega)).mono fun b hb => ?_
          rw [hb]
          exact ⟨fun hs => ⟨⟨m, hm, hlt⟩, hs⟩, fun hx => hx.2⟩
        · rename_i hlt
          refine .intro ⟨fun e => Bool.noConfusion e, fun hx => ?_⟩
          obtain ⟨⟨m', hm', hlt'⟩, _⟩ := hx
          rw [hm] at hm'; cases hm'
          exact absurd hlt' hlt
      · rw [hb]
        constructor
        · rintro ⟨c, hc, ho, hs⟩; exact .child hp hc ho hs
        · intro hs
          cases hs with
          | leaf hn hch' _ => rw [hp] at hn; cases hn; exact absurd hch' hch
          | child hn hc ho hs => rw [hp] at hn; cases hn; exact ⟨_, hc, ho, hs⟩

theorem walk_returns (h : Tree fq C D) (fuel : Nat) : ∀ {p : Path} {n : GroupNode}, fq.nodes.lookup p = some n →
    fq.depth + 1 ≤ fuel + p.length → Returns (fq.walk fuel p) fun _ => True := by
  induction fuel with
  | zero => intro p n hp hf; have := length_le_depth hp; omega
  | succ fuel ih =>
    intro p n hp hf
    unfold walk
    refine .bind_eq hp ?_
    split
    · exact .intro trivial
    · refine (Returns.mapM (Q := fun _ _ => True) fun c hc => ?_).bind fun rest _ => .intro trivial
      have hch : c ∈ n.children := (h.ok p n hp).list.mem_iff.mp hc
      obtain ⟨m, hm⟩ := h.child p c n hp hch
      rw [if_pos hch]
      exact ih hm (by simp; omega)

end FairRoundRobinQueue

end Doq.Memory
