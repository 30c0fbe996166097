/-
  Doq.Memory.RoundRobinGroups — the groups of a round-robin queue over any run of its
  operations (see `Doq.Memory.RoundRobin`, `Doq.Memory.RoundRobinRuns`).

  A node's key is built on the way down, and an empty key stands for the root's. For a
  group that starts with a dot the first component is empty, and the node below it gets
  the key of another group: `.a` is gated by the counter of `a`, and takes the index entry
  of `a` with it when it leaves. A node may also hold messages and have children; then its
  own messages wait until the children are gone, and the children wait while the node is
  at its limit.

  Proved, where no enqueued group is empty or starts with a dot:
  - `groupKeys_faithful`: a leaf has the key of its group, every operation on a group works
    on that group's leaf and counter, and no dequeue takes a group over the limit; with
    the group `.a`, `dotted_over_limit`.
  - `dequeue_conserves_iff`: a dequeue returns a message although some group could deliver
    one exactly if there is such a group with no longer ready group under it and with every
    group above it under the limit; the groups `a` and `a.b`, in `parent_waits`.
-/

import Doq.Memory.RoundRobinRuns
import Mathlib.Data.Finset.Max

namespace Doq.Memory.FairRoundRobinQueue

open Lib

variable {fq fq' : FairRoundRobinQueue} {p q : Path} {n : GroupNode} {m : Int}
  {events : List (Event FairRoundRobinQueue Op (Option Item))}

/-! ## Keys -/

/-- A message lies in the leaf of its group, and the index leads there. -/
theorem Inv.home (h : Inv False fq) {it : Item} (hit : it ∈ fq.ready) : fq.groupKeyToLeaf.lookup it.group = some (pathOf it) ∧
    ∃ n, fq.nodes.lookup (pathOf it) = some n ∧ n.groupKey = it.group ∧ it ∈ n.queue.held := by
  obtain ⟨p, n, hn, hmem⟩ := mem_ready.mp hit
  have hp := (h.tree.ok p n hn).items it hmem
  subst hp
  exact ⟨h.strict.filed it hit, n, hn, (h.strict.key _ n hn).trans (Dotted.join_split it.group), hmem⟩

/-- A node that is not the root has a ready message at or below it. -/
theorem Inv.ready_below (h : Inv False fq) (hp : p ≠ []) (hn : fq.nodes.lookup p = some n) :
    ∃ it ∈ fq.ready, p <+: pathOf it := by
  obtain ⟨x, hx, hpre⟩ := h.tree.live p n hp hn
  obtain ⟨it, hit, rfl⟩ := Multiset.mem_map.mp hx
  exact ⟨it, hit, hpre⟩

theorem Inv.node_of_ready (h : Inv False fq) {it : Item} (hit : it ∈ fq.ready) (hp : p <+: pathOf it) :
    ∃ n, fq.nodes.lookup p = some n := by
  obtain ⟨_, k, hk, _⟩ := h.home hit
  exact h.tree.of_prefix hp hk

theorem Inv.leaf_of_index (h : Inv False fq) {g : String} {leaf : Path} (hl : fq.groupKeyToLeaf.lookup g = some leaf) :
    ∃ n, fq.nodes.lookup leaf = some n ∧ n.groupKey = g ∧ ∀ it ∈ n.queue.held, it.group = g := by
  have hpath := h.tree.leaf g leaf hl
  obtain ⟨n, hn⟩ := h.strict.index g leaf hl
  refine ⟨n, hn, ?_, fun it hit => ?_⟩
  · rw [h.strict.key leaf n hn, hpath, Dotted.join_split]
  · have := (h.tree.ok leaf n hn).items it hit
    rw [hpath] at this
    exact Dotted.split_inj this

/-- A key is the key of one node. -/
theorem Inv.key_inj (h : Inv False fq) {n' : GroupNode} (hn : fq.nodes.lookup p = some n) (hn' : fq.nodes.lookup q = some n')
    (hk : n.groupKey = n'.groupKey) : p = q := by
  have hroot : ∀ {r : Path} {k : GroupNode}, fq.nodes.lookup r = some k → r ≠ [] → k.groupKey ≠ "" := fun hr hne => by
    rw [h.strict.key _ _ hr]
    exact Dotted.join_ne_empty hne (h.strict.head _ _ hr)
  by_cases hp : p = []
  · subst hp
    by_contra hq
    refine hroot hn' (Ne.symm hq) ?_
    rw [← hk, h.strict.key _ _ hn]; rfl
  · by_cases hq : q = []
    · subst hq
      refine absurd ?_ (hroot hn hp)
      rw [hk, h.strict.key _ _ hn']; rfl
    · rw [← h.strict.split_key hp hn, hk, h.strict.split_key hq hn']

theorem Picks.open (h : fq.Picks p q) : q = p ∨ fq.Open q := by
  induction h with
  | leaf => exact Or.inl rfl
  | child _ _ _ _ ho _ ih =>
    rcases ih with rfl | hopen
    · exact Or.inr ho
    · exact Or.inr hopen

/-- A message is delivered only while its group is under the limit. -/
theorem Inv.dequeue_under (h : Inv False fq) {ack : Bool} {it : Item} (hd : fq.dequeue ack = some (some it, fq')) :
    fq.unacked it.group < fq.maxUnacked := by
  have hpick := ((h.safe.dequeue_picks ack).result hd).1
  rcases hpick.open with hroot | ⟨n, hn, hlt⟩
  · exact absurd hroot (pathOf_ne_nil it)
  · rw [h.strict.key _ n hn] at hlt
    rwa [pathOf, Dotted.join_split] at hlt

/-- A message is delivered before every other ready one of its group. -/
theorem Inv.picked_least (h : Inv False fq) {it y : Item} (hpop : ∃ fq1, Popped fq (pathOf it) it fq1 ∧
      (∀ p, fq1.startAt p = fq.startAfter [] (pathOf it) p) ∧ Pruned fq1 (pathOf it) fq')
    (hy : y ∈ fq.ready) (hg : y.group = it.group) : it.priority < y.priority ∨ it.priority = y.priority ∧ it.id ≤ y.id := by
  obtain ⟨_, ⟨n, queue, hn, _, hheap, _⟩, _⟩ := hpop
  have hok := h.tree.ok _ n hn
  obtain ⟨_, k, hk, _, hmem⟩ := h.home hy
  rw [pathOf, hg] at hk
  obtain rfl : k = n := Option.some.inj (hk.symm.trans hn)
  have hfirst := PriorityMemoryQueue.heapPop_first hheap hok.heaped hmem
  rw [hok.minFirst] at hfirst
  exact PriorityMemoryQueue.not_before_iff.mp hfirst

theorem unacked_charge_eq (fq : FairRoundRobinQueue) (group g : String) :
    (fq.charge false group).unacked g = fq.unacked g + if g = group then 1 else 0 := by
  unfold charge unacked
  simp only [Bool.false_eq_true, if_false, FinMap.lookup_insert_eq]
  split
  · rename_i e; subst e; rfl
  · simp

theorem Inv.unacked_nonneg (h : Inv False fq) (g : String) : 0 ≤ fq.unacked g := by
  unfold unacked
  cases hu : fq.unackedByGroup.lookup g with
  | none => exact Int.le_refl 0
  | some count => exact (h.positive g count hu).le

/-- What an operation on a group does, in a queue that takes a group for itself. -/
structure Faithful (fq : FairRoundRobinQueue) : Prop where
  reached : ∀ group item, GoodGroup group → ∃ n, (fq.enqueue group item).nodes.lookup (Dotted.split group) = some n ∧
    n.groupKey = group ∧ { item with group := group } ∈ n.queue.held
  filed : ∀ it ∈ fq.ready, ∃ leaf n, fq.groupKeyToLeaf.lookup it.group = some leaf ∧ fq.nodes.lookup leaf = some n ∧
    it ∈ n.queue.held
  leaf : ∀ g leaf, fq.groupKeyToLeaf.lookup g = some leaf → ∃ n, fq.nodes.lookup leaf = some n ∧ n.groupKey = g ∧
    ∀ it ∈ n.queue.held, it.group = g
  entries : ∀ g g' leaf, fq.groupKeyToLeaf.lookup g = some leaf → fq.groupKeyToLeaf.lookup g' = some leaf → g = g'
  counters : ∀ p q n n', fq.nodes.lookup p = some n → fq.nodes.lookup q = some n' → n.groupKey = n'.groupKey → p = q
  limited : ∀ it fq', fq.dequeue false = some (some it, fq') → fq'.unacked it.group ≤ fq'.maxUnacked ∧
    ∀ g, fq'.unacked g = fq.unacked g + if g = it.group then 1 else 0
  got : ∀ g id it, fq.get g id = some (some it) → it ∈ fq.ready ∧ it.group = g ∧ it.id = id
  deleted : ∀ g id it fq', fq.delete g id = some (some it, fq') → it.group = g ∧ it.id = id ∧ fq.ready = it ::ₘ fq'.ready
  repriced : ∀ g id v fq', fq.updatePriority g id v = some fq' → fq'.ready = fq.ready ∨
    ∃ it rest, it.group = g ∧ it.id = id ∧ fq.ready = it ::ₘ rest ∧ fq'.ready = { it with priority := v } ::ₘ rest
  released : ∀ g g', (fq.updateWeights g).unacked g' = if g' = g then max 0 (fq.unacked g' - 1) else fq.unacked g'

theorem Inv.faithful (h : Inv False fq) : Faithful fq := by
  constructor
  case reached =>
    intro group item hg
    obtain ⟨h1, hr, _⟩ := h.enqueue_any hg item
    generalize fq.enqueue group item = fq₁ at h1 hr ⊢
    have hit : { item with group := group } ∈ fq₁.ready := by rw [hr]; exact Multiset.mem_cons_self _ _
    exact (h1.home hit).2
  case filed =>
    intro it hit
    obtain ⟨hl, n, hn, _, hmem⟩ := h.home hit
    exact ⟨_, n, hl, hn, hmem⟩
  case leaf => exact fun g leaf hl => h.leaf_of_index hl
  case entries =>
    intro g g' leaf hl hl'
    exact Dotted.split_inj ((h.tree.leaf g leaf hl).symm.trans (h.tree.leaf g' leaf hl'))
  case counters => exact fun p q n n' hn hn' hk => h.key_inj hn hn' hk
  case limited =>
    intro it fq' hd
    obtain ⟨_, hmax, _, hu⟩ := (h.dequeue false).result hd
    have hall : ∀ g, fq'.unacked g = fq.unacked g + if g = it.group then 1 else 0 := fun g => by
      rw [unacked_congr hu, unacked_charge_eq]
    refine ⟨?_, hall⟩
    have := h.dequeue_under hd
    rw [hmax, hall, if_pos rfl]
    omega
  case got =>
    intro g id it hg
    unfold FairRoundRobinQueue.get leafQueue at hg
    cases hl : fq.groupKeyToLeaf.lookup g with
    | none => simp [hl] at hg
    | some leaf =>
      obtain ⟨n, hn⟩ := h.strict.index g leaf hl
      simp only [hl, hn, Option.bind_eq_bind, Option.bind_some] at hg
      rcases (h.tree.ok leaf n hn).sound.missing_or_found id with hmiss | ⟨it', hf⟩
      · rw [PriorityMemoryQueue.get_missing hmiss] at hg; cases hg
      · rw [PriorityMemoryQueue.get_found hf] at hg; cases hg
        exact h.of_leaf hl hn hf
  case deleted =>
    intro g id it fq' hd
    obtain ⟨_, _, _, hh, hready⟩ := (h.delete g id).result hd
    exact ⟨hh.2.1, hh.2.2, hready⟩
  case repriced =>
    intro g id v fq' hd
    obtain ⟨_, _, _, hcase⟩ := (h.updatePriority g id v).result hd
    exact hcase.imp (fun hsame => hsame.2) fun ⟨it, rest, hh, h1, h2⟩ => ⟨it, rest, hh.2.1, hh.2.2, h1, h2⟩
  case released => exact fun g g' => (h.updateWeights g).2.2.2 g'

/-- Does the operation write the limit? -/
def Op.limits : Op → Bool
  | updateMaxUnacked _ => true
  | _ => false

/-- Does the operation count a message that it did not deliver? -/
def Op.marks : Op → Bool
  | markUnacked _ => true
  | _ => false

/-- No operation but `UpdateMaxUnacked` writes the limit, and only `MarkUnacked` counts more
    unacked messages of a group than the limit allows. -/
theorem step_limit {r : Option Item × FairRoundRobinQueue} {op : Op} (h : Inv False fq) (hop : op.Good)
    (hlimit : op.limits = false)
    (hs : fq.step op = some r) : r.2.maxUnacked = fq.maxUnacked ∧
      (op.marks = false → ∀ g, r.2.unacked g ≤ max (fq.unacked g) fq.maxUnacked) := by
  have hsame : r.2.unackedByGroup = fq.unackedByGroup → ∀ g, r.2.unacked g ≤ max (fq.unacked g) fq.maxUnacked := fun hu g => by
    rw [unacked_congr hu]; exact Int.le_max_left _ _
  cases op with
  | enqueue group item =>
    cases hs
    obtain ⟨_, _, hu, hmax⟩ := h.enqueue_any hop item
    exact ⟨hmax, fun _ => hsame hu⟩
  | dequeue ack =>
    obtain ⟨item, fq'⟩ := r
    obtain ⟨_, hmax, hcase⟩ := (h.dequeue ack).result hs
    refine ⟨hmax, fun _ => ?_⟩
    cases item with
    | none => exact hsame hcase.2
    | some it =>
      cases ack with
      | true => exact hsame hcase.2
      | false =>
        intro g
        obtain ⟨hle, hall⟩ := h.faithful.limited it fq' hs
        by_cases hg : g = it.group
        · subst hg
          exact Int.le_trans hle (by rw [hmax]; exact Int.le_max_right _ _)
        · rw [hall, if_neg hg]
          omega
  | get group id =>
    obtain ⟨_, _, rfl⟩ := Option.map_eq_some_iff.mp hs
    exact ⟨rfl, fun _ => hsame rfl⟩
  | delete group id =>
    obtain ⟨_, hmax, hu, _⟩ := (h.delete group id).result hs
    exact ⟨hmax, fun _ => hsame hu⟩
  | updatePriority group id v =>
    obtain ⟨_, hd, rfl⟩ := Option.map_eq_some_iff.mp hs
    obtain ⟨_, hmax, hu, _⟩ := (h.updatePriority group id v).result hd
    exact ⟨hmax, fun _ => hsame hu⟩
  | updateWeights group =>
    cases hs
    obtain ⟨_, _, hmax, hu⟩ := h.updateWeights group
    refine ⟨hmax, fun _ g => ?_⟩
    have hpos := h.unacked_nonneg g
    rw [hu g]
    split <;> omega
  | markUnacked group =>
    cases hs
    exact ⟨(h.markUnacked group).2.2.1, nofun⟩
  | updateMaxUnacked l => cases hlimit
  | schedulingState =>
    obtain ⟨_, _, rfl⟩ := Option.map_eq_some_iff.mp hs
    exact ⟨rfl, fun _ => hsame rfl⟩
  | restoreSchedulingState nodes =>
    cases hs
    obtain ⟨_, _, hf⟩ := h.restoreSchedulingState nodes
    exact ⟨hf.max, fun _ => hsame hf.unacked⟩

/-- Over every run on good groups with the limit `m`: a group is its own leaf and counter, and
    deliveries do not take a group over the limit. -/
theorem groupKeys_faithful (hm : 0 < m) (hrun : Run step (new m) events fq) (hgood : ∀ e ∈ events, e.input.Good)
    (hlimit : ∀ e ∈ events, e.input.limits = false) :
    Faithful fq ∧ fq.maxUnacked = m ∧ ((∀ e ∈ events, e.input.marks = false) → ∀ g, fq.unacked g ≤ m) := by
  have hnew : (new m).maxUnacked = m := if_neg (by omega)
  have hI := hrun.keeps (I := fun fq => Inv False fq ∧ fq.maxUnacked = m ∧
    ((∀ e ∈ events, e.input.marks = false) → ∀ g, fq.unacked g ≤ m)) (fun e he hs ⟨h, hmax, hle⟩ => by
      obtain ⟨hmax', hle'⟩ := step_limit h (hgood e he) (hlimit e he) hs
      refine ⟨((step_spec h (hgood e he)).result hs).1, hmax'.trans hmax, fun hno g => ?_⟩
      have := hle' (hno e he) g
      rw [hmax] at this
      exact Int.le_trans this (Int.max_le.mpr ⟨hle hno g, Int.le_refl m⟩))
    ⟨new_inv m, hnew, fun _ g => Int.le_of_lt hm⟩
  exact ⟨hI.1.faithful, hI.2⟩

/-- Doubled and trailing dots, and a group next to one it is a prefix of. -/
def dottedRun : List Op :=
  [.enqueue "a" ⟨1, 0, "a"⟩, .enqueue "a..b" ⟨2, 0, "a..b"⟩, .enqueue "a." ⟨3, 0, "a."⟩, .enqueue "a." ⟨4, 0, "a."⟩,
    .dequeue false, .dequeue false, .dequeue false]

theorem dottedRun_runs : (exec step (new 1) dottedRun).isSome := rfl

theorem groupKeys_faithful_dotted :
    let r := (exec step (new 1) dottedRun).get dottedRun_runs
    Faithful r.2 ∧ r.2.unacked "a." ≤ 1 := by
  intro r
  have h := groupKeys_faithful (by decide) (Run.of_exec_isSome dottedRun_runs) (by decide) (by decide)
  exact ⟨h.1, h.2.2 (by decide) "a."⟩

/-- The key of the leaf a group's messages lie in. -/
def keyOf (fq : FairRoundRobinQueue) (group : String) : Option String := (fq.nodes.lookup (Dotted.split group)).map (·.groupKey)

/-- With a limit of one, both messages of `.a` are delivered: the gate asks for `a`. -/
theorem dotted_over_limit :
    (exec step (new 1) [.enqueue ".a" ⟨1, 0, ".a"⟩, .enqueue ".a" ⟨2, 0, ".a"⟩]).map (fun r => r.2.keyOf ".a") = some (some "a") ∧
      (exec step (new 1) [.enqueue ".a" ⟨1, 0, ".a"⟩, .enqueue ".a" ⟨2, 0, ".a"⟩, .dequeue false, .dequeue false]).map
        (fun r => (r.1.map (·.output.map (·.id)), r.2.unacked ".a")) = some ([none, none, some 1, some 2], 2) := by
  exact ⟨rfl, rfl⟩

/-! ## Work conservation -/

/-- No ready message lies below the group of this one. -/
def Last (fq : FairRoundRobinQueue) (it : Item) : Prop := ∀ it' ∈ fq.ready, pathOf it <+: pathOf it' → it'.group = it.group

/-- A ready message with no message below its group, and every group above it, and its own,
    under the limit. -/
def InReach (fq : FairRoundRobinQueue) : Prop :=
  ∃ it ∈ fq.ready, Last fq it ∧ ∀ r, r ≠ [] → r <+: pathOf it → fq.unacked (Dotted.join r) < fq.maxUnacked

/-- The leaf a serving node serves from, below open nodes only. -/
theorem Serves.open_leaf (hs : fq.Serves p) : ∃ q n, p <+: q ∧ fq.nodes.lookup q = some n ∧ n.children = [] ∧ 0 < n.queue.len ∧
    ∀ r, p <+: r → r ≠ p → r <+: q → fq.Open r := by
  induction hs with
  | @leaf p n hn hch hlen =>
    refine ⟨p, n, List.prefix_rfl, hn, hch, hlen, fun r hr hne hrp => absurd ?_ hne⟩
    exact hrp.eq_of_length (Nat.le_antisymm hrp.length_le hr.length_le)
  | @child p _ c hn hc ho _ ih =>
    obtain ⟨q, n, hq, hleaf, hch, hlen, hopen⟩ := ih
    refine ⟨q, n, (List.prefix_append _ _).trans hq, hleaf, hch, hlen, fun r hr hne hrq => ?_⟩
    by_cases hrc : r = p ++ [c]
    · rw [hrc]; exact ho
    · refine hopen r (List.prefix_of_prefix_length_le hq hrq ?_) hrc hrq
      have hlt : p.length ≠ r.length := fun e => hne (hr.eq_of_length e).symm
      have := hr.length_le
      simp only [List.length_append, List.length_singleton]
      omega

/-- A node without children is the last on its ready paths. -/
theorem Inv.last_of_leaf (h : Inv False fq) (hn : fq.nodes.lookup p = some n) (hch : n.children = []) {it : Item}
    (hit : it ∈ fq.ready)
    (hp : p <+: pathOf it) : pathOf it = p := by
  obtain ⟨rest, hrest⟩ := hp
  cases rest with
  | nil => rw [← hrest, List.append_nil]
  | cons c rest =>
    obtain ⟨m, hm⟩ := h.node_of_ready hit (p := p ++ [c]) ⟨rest, by rw [← hrest]; simp⟩
    obtain ⟨n', hn', hc⟩ := h.tree.parent p c m hm
    rw [hn] at hn'; cases hn'
    rw [hch] at hc
    exact absurd hc List.not_mem_nil

/-- The node of the last message on a path has no children: a child is there for a ready
    message below it. -/
theorem Inv.leaf_of_last (h : Inv False fq) {it : Item} (hlast : fq.Last it)
    (hn : fq.nodes.lookup (pathOf it) = some n) : n.children = [] := by
  refine List.eq_nil_iff_forall_not_mem.mpr fun c hc => ?_
  obtain ⟨m, hm⟩ := h.tree.child _ c n hn hc
  obtain ⟨it', hit', hpre⟩ := h.ready_below (by simp) hm
  have hgroup := hlast it' hit' ((List.prefix_append _ _).trans hpre)
  have hlen := hpre.length_le
  rw [pathOf, pathOf, hgroup, List.length_append] at hlen
  exact Nat.not_succ_le_self _ hlen

theorem Inv.serves_iff (h : Inv False fq) : fq.Serves [] ↔ fq.InReach := by
  constructor
  · intro hs
    obtain ⟨q, n, _, hn, hch, hlen, hopen⟩ := hs.open_leaf
    rw [PriorityMemoryQueue.len_eq_card] at hlen
    obtain ⟨it, hit⟩ := Multiset.card_pos_iff_exists_mem.mp hlen
    have hpath := (h.tree.ok q n hn).items it hit
    refine ⟨it, mem_ready.mpr ⟨q, n, hn, hit⟩, fun it' hit' hpre => ?_, fun r hr hpre => ?_⟩
    · rw [hpath] at hpre
      exact Dotted.split_inj ((h.last_of_leaf hn hch hit' hpre).trans hpath.symm)
    · rw [hpath] at hpre
      obtain ⟨m, hm, hlt⟩ := hopen r List.nil_prefix hr hpre
      rwa [h.strict.key r m hm] at hlt
  · rintro ⟨it, hit, hlast, hlimit⟩
    obtain ⟨_, n, hn, _, hmem⟩ := h.home hit
    have hlen : 0 < n.queue.len := by
      rw [PriorityMemoryQueue.len_eq_card]
      exact Multiset.card_pos_iff_exists_mem.mpr ⟨it, hmem⟩
    refine Serves.climb (pathOf it) (.leaf hn (h.leaf_of_last hlast hn) hlen) (fun r _ hne hpre => ?_) h.tree.parent
    obtain ⟨m, hm⟩ := h.tree.of_prefix hpre hn
    exact ⟨m, hm, by rw [h.strict.key r m hm]; exact hlimit r hne hpre⟩

/-- `PeekReady` looks at the groups of the last messages, not at those above them. -/
theorem Inv.peekReady_iff (h : Inv False fq) :
    fq.peekReady = true ↔ ∃ it ∈ fq.ready, fq.Last it ∧ fq.unacked it.group < fq.maxUnacked := by
  rw [h.peekReady]
  constructor
  · rintro ⟨p, n, hn, hr⟩
    obtain ⟨⟨hch, hlen⟩, hlt⟩ : (n.children = [] ∧ 0 < n.queue.len) ∧ fq.unacked n.groupKey < fq.maxUnacked := by
      simpa [isReady] using hr
    rw [PriorityMemoryQueue.len_eq_card] at hlen
    obtain ⟨it, hit⟩ := Multiset.card_pos_iff_exists_mem.mp hlen
    have hpath := (h.tree.ok p n hn).items it hit
    refine ⟨it, mem_ready.mpr ⟨p, n, hn, hit⟩, fun it' hit' hpre => ?_, ?_⟩
    · rw [hpath] at hpre
      exact Dotted.split_inj ((h.last_of_leaf hn hch hit' hpre).trans hpath.symm)
    · rwa [h.strict.key p n hn, ← hpath, pathOf, Dotted.join_split] at hlt
  · rintro ⟨it, hit, hlast, hlt⟩
    obtain ⟨_, n, hn, hkey, hmem⟩ := h.home hit
    refine ⟨_, n, hn, ?_⟩
    have hlen : 0 < n.queue.len := by
      rw [PriorityMemoryQueue.len_eq_card]
      exact Multiset.card_pos_iff_exists_mem.mpr ⟨it, hmem⟩
    unfold isReady
    simp [h.leaf_of_last hlast hn, hlen, hkey, hlt]

/-- With nothing unacked, a message on the longest path is in reach. -/
theorem Inv.serves_idle (h : Inv False fq) (hready : fq.ready ≠ 0) (hidle : ∀ g, fq.unacked g = 0) (hmax : 0 < fq.maxUnacked) :
    fq.Serves [] := by
  obtain ⟨it, hit, hlong⟩ := Multiset.exists_max_image (fun it => (pathOf it).length) hready
  refine h.serves_iff.mpr ⟨it, hit, fun it' hit' hpre => ?_, fun r _ _ => by rw [hidle]; exact hmax⟩
  exact Dotted.split_inj (hpre.eq_of_length (Nat.le_antisymm hpre.length_le (hlong it' hit'))).symm

/-- Over every run on good groups: when some group has a ready message and is under its limit,
    a dequeue returns a message exactly if one is in reach. -/
theorem dequeue_conserves_iff (hrun : Run step (new m) events fq) (hgood : ∀ e ∈ events, e.input.Good) (ack : Bool) :
    ((∃ it ∈ fq.ready, fq.unacked it.group < fq.maxUnacked) → ∃ it fq', fq.dequeue ack = some (some it, fq')) ↔
      ((∃ it ∈ fq.ready, fq.unacked it.group < fq.maxUnacked) → fq.InReach) := by
  have h := (Runs.inv hrun hgood).1
  rw [h.safe.dequeue_iff ack, h.serves_iff]

theorem dottedStart_runs : (exec step (new 1) (dottedRun.take 5)).isSome := rfl

/-- With the message of `a..b` in flight, those of `a.` are in reach, and the one of `a` is not. -/
theorem dequeue_conserves_dotted :
    let fq := ((exec step (new 1) (dottedRun.take 5)).get dottedStart_runs).2
    (∃ it ∈ fq.ready, fq.unacked it.group < fq.maxUnacked) ∧ ∃ it fq', fq.dequeue true = some (some it, fq') := by
  intro fq
  have hmem : (⟨3, 0, "a."⟩ : Item) ∈ fq.ready := by decide +kernel
  have hready : ∃ it ∈ fq.ready, fq.unacked it.group < fq.maxUnacked := ⟨_, hmem, by decide +kernel⟩
  refine ⟨hready, (dequeue_conserves_iff (Run.of_exec_isSome dottedStart_runs) (by decide) true).mpr (fun _ => ?_) hready⟩
  have hbelow : ∀ it' ∈ fq.ready, pathOf ⟨3, 0, "a."⟩ <+: pathOf it' → it'.group = "a." := by decide +kernel
  have hlimit : ∀ k ≤ 2, fq.unacked (Dotted.join ((pathOf ⟨3, 0, "a."⟩).take k)) < fq.maxUnacked := by decide +kernel
  refine ⟨_, hmem, hbelow, fun r _ hpre => ?_⟩
  rw [List.prefix_iff_eq_take.mp hpre]
  exact hlimit _ hpre.length_le

/-- Limit one, nothing of `a` in flight. The message of `a` waits while `a.b`, at its limit, has
    another one ready; and the message of `a.b` waits while `a` is at its limit. -/
theorem parent_waits :
    (exec step (new 1) [.enqueue "a" ⟨1, 0, "a"⟩, .enqueue "a.b" ⟨2, 0, "a.b"⟩, .enqueue "a.b" ⟨3, 0, "a.b"⟩,
        .dequeue false, .get "a" 1, .dequeue false]).map (fun r => (r.1.map (·.output.map (·.id)), r.2.unacked "a")) =
      some ([none, none, none, some 2, some 1, none], 0) ∧
    (exec step (new 1) [.enqueue "a" ⟨1, 0, "a"⟩, .dequeue false, .enqueue "a.b" ⟨2, 0, "a.b"⟩, .get "a.b" 2, .dequeue false]).map
        (fun r => (r.1.map (·.output.map (·.id)), r.2.unacked "a.b")) = some ([none, some 1, none, some 2, none], 0) := by
  decide +kernel

end Doq.Memory.FairRoundRobinQueue
