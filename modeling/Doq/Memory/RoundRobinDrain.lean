/-
  Doq.Memory.RoundRobinDrain — the order in which a round-robin queue is drained (see
  `Doq.Memory.RoundRobin`, `Doq.Memory.RoundRobinFairness`).

  `Calm` says that nothing is in the way of a delivery: no ready group lies below another
  one, and every node is under its limit. Then every child has something to deliver, so a
  rotation takes the child its cursor stands on, and moves it to the end of the turns or,
  with its last message, out of them: at every node the children served are the laps of the
  turns over the messages below them (`Doq.Lib.Rotation`).

  Proved:
  - `drains_in_laps`: over every run in which no enqueued group starts with a dot, a state
    whose groups are apart and under the limit is drained in laps, and nothing comes after.
  - `stale_branch_blocks`: after a group that starts with a dot has come and gone.
-/

import Doq.Memory.RoundRobinFairness
import Doq.Memory.RoundRobinGroups

namespace Doq.Memory.FairRoundRobinQueue

open Lib Rotation

variable {fq fq' : FairRoundRobinQueue} {p q P : Path} {n : GroupNode} {m : Int} {op : Op}
  {events : List (Event FairRoundRobinQueue Op (Option Item))} {it : Item} {c x y z : String} {R : Nat}

/-! ## Nothing in the way -/

/-- A group of the queue: it has a ready message or an unacked one. -/
def InUse (fq : FairRoundRobinQueue) (g : String) : Prop := (∃ it ∈ fq.ready, it.group = g) ∨ 0 < fq.unacked g

structure Calm (fq : FairRoundRobinQueue) : Prop where
  inv : Inv False fq
  apart : ∀ it ∈ fq.ready, ∀ it' ∈ fq.ready, pathOf it <+: pathOf it' → it.group = it'.group
  opened : ∀ p n, fq.nodes.lookup p = some n → p ≠ [] → fq.unacked n.groupKey < fq.maxUnacked

theorem Inv.calm (h : Inv False fq) (hapart : ∀ g g', fq.InUse g → fq.InUse g' → Dotted.split g <+: Dotted.split g' → g = g')
    (hlimit : ∀ g, fq.InUse g → fq.unacked g < fq.maxUnacked) : Calm fq := by
  refine ⟨h, fun it hit it' hit' hpre => hapart _ _ (Or.inl ⟨it, hit, rfl⟩) (Or.inl ⟨it', hit', rfl⟩) hpre, fun p n hn hp => ?_⟩
  obtain ⟨it, hit, hpre⟩ := h.ready_below hp hn
  have hit' : fq.InUse it.group := Or.inl ⟨it, hit, rfl⟩
  by_cases hu : 0 < fq.unacked n.groupKey
  · exact hlimit _ (Or.inr hu)
  · -- nothing of an inner node's key is unacked, and some group is under the limit
    have := hlimit _ hit'
    have := h.unacked_nonneg it.group
    omega

/-- A node that holds a message has no children. -/
theorem Calm.leaf (h : Calm fq) (hit : it ∈ fq.ready) (hn : fq.nodes.lookup (pathOf it) = some n) : n.children = [] :=
  h.inv.leaf_of_last (fun it' hit' hpre => (h.apart it hit it' hit' hpre).symm) hn

theorem Calm.serves (h : Calm fq) (hit : it ∈ fq.ready) (hp : p <+: pathOf it) : fq.Serves p := by
  obtain ⟨_, n, hn, _, hmem⟩ := h.inv.home hit
  obtain ⟨rest, hrest⟩ := hp
  have hlen : 0 < n.queue.len := by
    rw [PriorityMemoryQueue.len_eq_card]
    exact Multiset.card_pos_iff_exists_mem.mpr ⟨it, hmem⟩
  have hleaf : fq.Serves (p ++ rest) := by rw [hrest]; exact .leaf hn (h.leaf hit hn) hlen
  refine Serves.climb rest hleaf (fun r hr hne hpre => ?_) h.inv.tree.parent
  rw [hrest] at hpre
  obtain ⟨k, hk⟩ := h.inv.node_of_ready hit hpre
  refine ⟨k, hk, h.opened r k hk fun e => hne ?_⟩
  subst e
  exact (List.prefix_nil.mp hr).symm

theorem Calm.deliverable (h : Calm fq) (hp : p ≠ []) (hn : fq.nodes.lookup p = some n) : fq.Deliverable p := by
  obtain ⟨it, hit, hpre⟩ := h.inv.ready_below hp hn
  exact ⟨⟨n, hn, h.opened p n hn hp⟩, h.serves hit hpre⟩

theorem Calm.smaller (h : Calm fq) (h' : Inv False fq') (hr : fq'.ready ≤ fq.ready) (hu : fq'.unackedByGroup = fq.unackedByGroup)
    (hm : fq'.maxUnacked = fq.maxUnacked) : Calm fq' := by
  refine ⟨h', fun it hit it' hit' => h.apart it (Multiset.mem_of_le hr hit) it' (Multiset.mem_of_le hr hit'), fun p n hn hp => ?_⟩
  obtain ⟨it, hit, hpre⟩ := h'.ready_below hp hn
  obtain ⟨k, hk⟩ := h.inv.node_of_ready (Multiset.mem_of_le hr hit) hpre
  have := h.opened p k hk hp
  rw [h.inv.strict.key p k hk] at this
  rw [h'.strict.key p n hn, unacked_congr hu, hm]
  exact this

/-! ## One delivery -/

/-- The child of `P` that a delivery of the message goes through. -/
def via (P : Path) (it : Item) : Option String := toward [] (pathOf it) P

theorem via_eq_some : via P it = some c ↔ P ++ [c] <+: pathOf it := by
  constructor
  · intro h
    unfold via toward at h
    split at h
    · rename_i hpre
      obtain ⟨rest, hrest⟩ := hpre.2
      rw [← hrest, List.drop_left] at h
      obtain ⟨tail, rfl⟩ := List.head?_eq_some_iff.mp h
      exact ⟨tail, by rw [← hrest]; simp⟩
    · cases h
  · exact toward_root

def turnsAt (fq : FairRoundRobinQueue) (P : Path) : List String :=
  match fq.nodes.lookup P with
  | none => []
  | some n => n.turns

/-- The ready messages below a child. -/
def stock (fq : FairRoundRobinQueue) (P : Path) (c : String) : Nat := below fq.readyPaths (P ++ [c])

theorem mem_turnsAt (h : Inv False fq) : c ∈ fq.turnsAt P ↔ 0 < fq.stock P c := by
  unfold turnsAt stock
  rw [below_pos]
  constructor
  · intro hc
    cases hn : fq.nodes.lookup P with
    | none => rw [hn] at hc; exact absurd hc List.not_mem_nil
    | some n =>
      simp only [hn] at hc
      have hch : n.children ≠ [] := fun e => by
        have hok := h.tree.ok P n hn
        rw [hok.turns_nil (List.perm_nil.mp (e ▸ hok.list))] at hc
        exact absurd hc List.not_mem_nil
      obtain ⟨k, hk⟩ := h.tree.child P c n hn (((h.tree.ok P n hn).mem_turns hch).mp hc)
      exact h.tree.live _ k (by simp) hk
  · rintro ⟨x, hx, hpre⟩
    obtain ⟨k, hk⟩ := h.tree.here x hx
    obtain ⟨k', hk'⟩ := h.tree.of_prefix hpre hk
    obtain ⟨n, hn, hc⟩ := h.tree.parent P c k' hk'
    simp only [hn]
    exact ((h.tree.ok P n hn).mem_turns (List.ne_nil_of_mem hc)).mpr hc

theorem turnsAt_nodup (h : Inv False fq) (P : Path) : (fq.turnsAt P).Nodup := by
  unfold turnsAt
  split
  · exact List.nodup_nil
  · rename_i n hn
    have hok := h.tree.ok P n hn
    unfold GroupNode.turns
    split
    · exact List.nodup_nil
    · exact Rotation.turns_nodup (hok.list.nodup_iff.mpr hok.nodup)

theorem Inv.stocked (h : Inv False fq) (hR : fq.ready.card ≤ R) (P : Path) : Stocked R (fq.turnsAt P) (fq.stock P) := by
  refine ⟨turnsAt_nodup h P, fun c hc => (mem_turnsAt h).mp hc, fun c _ => ?_⟩
  have := Multiset.countP_le_card (fun x => P ++ [c] <+: x) fq.readyPaths
  unfold readyPaths at this
  rw [Multiset.card_map] at this
  exact Nat.le_trans this hR

theorem stock_cons (hr : fq.ready = it ::ₘ fq'.ready) (P : Path) (c : String) :
    fq.stock P c = fq'.stock P c + if via P it = some c then 1 else 0 := by
  unfold stock readyPaths
  rw [hr, Multiset.map_cons, below_cons]
  simp only [via_eq_some]

/-- A delivery takes the first child of the turns at every node on its way, and passes on. -/
theorem Calm.turned (h : Calm fq) (hd : fq.dequeue true = some (some it, fq')) (h' : Inv False fq')
    (hr : fq.ready = it ::ₘ fq'.ready)
    (hz : via P it = some z) : ∃ rest, fq.turnsAt P = z :: rest ∧ fq'.turnsAt P = pass z rest (fq.stock P) := by
  have hpre := via_eq_some.mp hz
  have hpick := ((h.inv.safe.dequeue_picks true).result hd).1
  have hP : P <+: pathOf it := (List.prefix_append _ _).trans hpre
  have hne : P ≠ pathOf it := (under_child_ne hpre).symm
  obtain ⟨n, skipped, z', later, hn, hch, ht, hskip, hz'⟩ := hpick.at List.nil_prefix hP hne
  obtain rfl : z' = z := by
    have := via_eq_some.mpr hz'
    rw [hz] at this; exact (Option.some.inj this).symm
  -- every child could deliver, so none was passed over
  have hnone : skipped = [] := List.eq_nil_iff_forall_not_mem.mpr fun d hd => by
    have hdc : d ∈ n.children := ((h.inv.tree.ok P n hn).mem_turns hch).mp (by rw [ht]; simp [hd])
    obtain ⟨k, hk⟩ := h.inv.tree.child P d n hn hdc
    exact hskip d hd (h.deliverable (by simp) hk)
  subst hnone
  have hfirst : fq.turnsAt P = z' :: later := by unfold turnsAt; simp only [hn]; exact ht
  refine ⟨later, hfirst, ?_⟩
  have hone : fq.stock P z' = fq'.stock P z' + 1 := by rw [stock_cons hr, if_pos hz]
  have hother : ∀ d, d ≠ z' → fq.stock P d = fq'.stock P d := fun d hdz => by
    rw [stock_cons hr, if_neg fun e => hdz (Option.some.inj (e.symm.trans hz))]; rfl
  have hnd := turnsAt_nodup h.inv P
  rw [hfirst] at hnd
  cases hm : fq'.nodes.lookup P with
  | none =>
    -- the node left with its last message
    have hgone : fq'.turnsAt P = [] := by unfold turnsAt; simp only [hm]
    have hzero : ∀ d, fq'.stock P d = 0 := fun d => by
      by_contra hpos
      have := (mem_turnsAt h').mpr (Nat.pos_of_ne_zero hpos)
      rw [hgone] at this; exact absurd this List.not_mem_nil
    have hlater : later = [] := List.eq_nil_iff_forall_not_mem.mpr fun d hdl => by
      have hpos : 0 < fq.stock P d := (mem_turnsAt h.inv).mp (by rw [hfirst]; exact List.mem_cons_of_mem _ hdl)
      rw [hother d (ne_of_mem_of_not_mem hdl (List.nodup_cons.mp hnd).1), hzero] at hpos
      exact Nat.lt_irrefl 0 hpos
    rw [hgone, hlater, Rotation.pass, if_pos (by rw [hone, hzero])]
  | some m =>
    have hmt : fq'.turnsAt P = m.turns := by unfold turnsAt; simp only [hm]
    obtain ⟨n', skipped', later', hn', ht', _, _, hcase⟩ := h.inv.safe.turns_through hd h'.safe hpre hm
    rw [hn] at hn'; cases hn'
    have hsame : [] = skipped' ∧ later = later' := by
      rw [ht] at ht'
      cases skipped' with
      | nil => exact ⟨rfl, (List.cons.inj ht').2⟩
      | cons d ds =>
        obtain ⟨rfl, hrest⟩ := List.cons.inj ht'
        rw [hrest] at hnd
        exact absurd (by simp) (List.nodup_cons.mp hnd).1
    obtain ⟨rfl, rfl⟩ := hsame
    rw [List.append_nil, ← hmt] at hcase
    have hstays : z' ∈ fq'.turnsAt P ↔ fq.stock P z' ≠ 1 := by rw [mem_turnsAt h', hone]; omega
    have hzl := (List.nodup_cons.mp hnd).1
    unfold Rotation.pass
    rcases hcase with hcase | hcase <;> rw [hcase] at hstays ⊢
    · rw [if_neg (hstays.mp (by simp))]
    · rw [if_pos (by by_contra e; exact hzl (hstays.mpr e))]

/-- At a node aside nothing changes. -/
theorem Calm.unturned (h : Calm fq) (hd : fq.dequeue true = some (some it, fq')) (h' : Inv False fq')
    (hr : fq.ready = it ::ₘ fq'.ready)
    (hz : via P it = none) : fq'.turnsAt P = fq.turnsAt P := by
  have hstock : ∀ c, fq'.stock P c = fq.stock P c := fun c => by rw [stock_cons hr, hz]; rfl
  have hmem : ∀ c, c ∈ fq'.turnsAt P ↔ c ∈ fq.turnsAt P := fun c => by rw [mem_turnsAt h', mem_turnsAt h.inv, hstock]
  by_cases hP : P <+: pathOf it
  · -- the leaf itself, which has no turns
    have hnil : fq.turnsAt P = [] := List.eq_nil_iff_forall_not_mem.mpr fun c hc => by
      obtain ⟨rest, hrest⟩ := hP
      cases rest with
      | nil =>
        rw [List.append_nil] at hrest
        have hpos := (mem_turnsAt h.inv).mp hc
        unfold stock at hpos
        obtain ⟨x, hx, hpre⟩ := below_pos.mp hpos
        obtain ⟨it', hit', rfl⟩ := Multiset.mem_map.mp hx
        rw [hrest] at hpre
        have hgroup := h.apart it (by rw [hr]; exact Multiset.mem_cons_self _ _) it' hit' ((List.prefix_append _ _).trans hpre)
        have hlen := hpre.length_le
        rw [pathOf, pathOf, hgroup, List.length_append] at hlen
        exact Nat.not_succ_le_self _ hlen
      | cons d rest =>
        have : via P it = some d := via_eq_some.mpr ⟨rest, by rw [← hrest]; simp⟩
        rw [hz] at this; cases this
    rw [hnil]
    exact List.eq_nil_iff_forall_not_mem.mpr fun c hc => by rw [hmem, hnil] at hc; exact absurd hc List.not_mem_nil
  · cases hm : fq'.nodes.lookup P with
    | none =>
      have hgone : fq'.turnsAt P = [] := by unfold turnsAt; simp only [hm]
      rw [hgone]
      exact (List.eq_nil_iff_forall_not_mem.mpr fun c hc => by
        rw [← hmem, hgone] at hc; exact absurd hc List.not_mem_nil).symm
    | some m =>
      obtain ⟨n, hn, ht⟩ := h.inv.safe.turns_aside hd hP hm
      unfold turnsAt
      simp only [hm, hn, ht]

/-! ## Draining -/

/-- `Dequeue(ack = true)`, so many times. -/
def drain : Nat → FairRoundRobinQueue → Go (List (Option Item) × FairRoundRobinQueue)
  | 0, fq => some ([], fq)
  | count + 1, fq => do
    let (item, fq) ← fq.dequeue true
    let (items, fq) ← drain count fq
    some (item :: items, fq)

/-- Not after another one in the order of (priority, id). -/
def Precedes (a b : Item) : Prop := a.priority < b.priority ∨ a.priority = b.priority ∧ a.id ≤ b.id

/-- What one dequeue does to a calm queue. -/
theorem Calm.dequeue (h : Calm fq) : Returns (fq.dequeue true) fun r => Calm r.2 ∧
    match r.1 with
    | none => fq.ready = 0 ∧ r.2.ready = 0
    | some it => fq.ready = it ::ₘ r.2.ready ∧ ∀ y ∈ fq.ready, y.group = it.group → Precedes it y := by
  refine ((h.inv.dequeue true).and (h.inv.safe.dequeue_picks true)).mono fun ⟨item, fq'⟩ ⟨⟨h1, hmax, hcase⟩, hpick⟩ => ?_
  cases item with
  | none =>
    obtain ⟨hready, hu⟩ := hcase
    have hempty : fq.ready = 0 := Multiset.eq_zero_of_forall_notMem fun it hit => hpick.1 (h.serves hit List.nil_prefix)
    exact ⟨h.smaller h1 (le_of_eq hready) hu hmax, hempty, hready.trans hempty⟩
  | some it =>
    obtain ⟨hready, hu⟩ := hcase
    exact ⟨h.smaller h1 (by rw [hready]; exact Multiset.le_cons_self _ _) hu hmax, hready, fun y hy hg =>
      h.inv.picked_least hpick.2 hy hg⟩

/-- The items a queue was drained of, in their order. -/
structure Emptied (R : Nat) (fq : FairRoundRobinQueue) (items : List Item) : Prop where
  once : (items : Multiset Item) = fq.ready
  ordered : ∀ g, (items.filter (·.group = g)).Pairwise Precedes
  served : ∀ P, items.filterMap (via P) = laps R (fq.turnsAt P) (fq.stock P)

/-- A calm queue without messages has no turns left. -/
theorem Calm.emptied_nil (h : Calm fq) (hr : fq.ready = 0) (R : Nat) : Emptied R fq [] := by
  refine ⟨hr.symm, fun g => List.Pairwise.nil, fun P => ?_⟩
  have hnil : fq.turnsAt P = [] := List.eq_nil_iff_forall_not_mem.mpr fun c hc => by
    have hpos := (mem_turnsAt h.inv).mp hc
    unfold stock readyPaths at hpos
    rw [hr] at hpos
    exact absurd hpos (Nat.lt_irrefl 0)
  rw [hnil, laps_nil]
  rfl

theorem Calm.emptied_cons {items : List Item} (h : Calm fq) (hR : fq.ready.card ≤ R) (hd : fq.dequeue true = some (some it, fq'))
    (h' : Inv False fq') (hr : fq.ready = it ::ₘ fq'.ready) (hleast : ∀ y ∈ fq.ready, y.group = it.group → Precedes it y)
    (he : Emptied R fq' items) : Emptied R fq (it :: items) := by
  refine ⟨?_, fun g => ?_, fun P => ?_⟩
  · rw [hr, ← he.once]; rfl
  · by_cases hg : it.group = g
    · rw [List.filter_cons_of_pos (by simpa using hg)]
      refine List.pairwise_cons.mpr ⟨fun y hy => ?_, he.ordered g⟩
      obtain ⟨hy, hyg⟩ := List.mem_filter.mp hy
      refine hleast y ?_ ((of_decide_eq_true hyg).trans hg.symm)
      rw [hr, ← he.once]
      exact Multiset.mem_cons_of_mem hy
    · rw [List.filter_cons_of_neg (by simpa using hg)]
      exact he.ordered g
  · cases hz : via P it with
    | none =>
      have hstock : fq'.stock P = fq.stock P := funext fun c => by rw [stock_cons hr, hz]; rfl
      rw [List.filterMap_cons_none hz, he.served, h.unturned hd h' hr hz, hstock]
    | some z =>
      obtain ⟨rest, hfirst, hnext⟩ := h.turned hd h' hr hz
      have hstock : fq'.stock P = spend (fq.stock P) z := funext fun c => by
        by_cases hc : c = z
        · rw [hc, spend_self, stock_cons hr, if_pos hz]; rfl
        · rw [spend_other hc, stock_cons hr, if_neg fun e => hc (Option.some.inj (e.symm.trans hz))]; rfl
      have hst := h.inv.stocked hR P
      rw [hfirst] at hst
      rw [List.filterMap_cons_some hz, he.served, hnext, hstock, hfirst, hst.laps_eq]

/-- Drained of its messages, and asked a few times more. -/
theorem Calm.drain (count : Nat) : ∀ {fq : FairRoundRobinQueue} (extra : Nat), Calm fq → fq.ready.card = count → count ≤ R →
    Returns (FairRoundRobinQueue.drain (count + extra) fq) fun r => ∃ items : List Item,
      r.1 = items.map some ++ List.replicate extra none ∧ Emptied R fq items := by
  induction count with
  | zero =>
    intro fq extra h hc _
    have hempty := Multiset.card_eq_zero.mp hc
    rw [Nat.zero_add]
    induction extra generalizing fq with
    | zero => exact .intro ⟨[], rfl, h.emptied_nil hempty R⟩
    | succ extra ih =>
      refine h.dequeue.bind fun ⟨item, fq'⟩ ⟨h1, hcase⟩ => ?_
      cases item with
      | some it => rw [hempty] at hcase; exact absurd hcase.1.symm (Multiset.cons_ne_zero)
      | none =>
        refine (ih h1 (by rw [hcase.2]; rfl) hcase.2).bind fun r ⟨items, hr, he⟩ => .intro ⟨[], ?_, h.emptied_nil hempty R⟩
        have hnil : items = [] := by
          have := he.once
          rw [hcase.2] at this
          exact (Multiset.coe_eq_zero items).mp this
        simp only [hr, hnil, List.map_nil, List.nil_append, List.replicate_succ]
  | succ count ih =>
    intro fq extra h hc hR
    rw [Nat.succ_add]
    obtain ⟨⟨item, fq'⟩, hd, h1, hcase⟩ := h.dequeue
    refine .bind_eq hd ?_
    cases item with
    | none => rw [hcase.1] at hc; cases hc
    | some it =>
      obtain ⟨hready, hleast⟩ : fq.ready = it ::ₘ fq'.ready ∧ _ := hcase
      have hc' : fq'.ready.card = count := by rw [hready, Multiset.card_cons] at hc; omega
      refine (ih extra h1 hc' (by omega)).bind fun r ⟨items, hr, he⟩ => .intro ⟨it :: items, by simp only [hr]; rfl, ?_⟩
      exact h.emptied_cons (by omega) hd h1.inv hready hleast he

/-- The deliveries out of a child of `P`. -/
def deliveries (P : Path) (c : String) (items : List Item) : Nat := items.countP fun it => P ++ [c] <+: pathOf it

theorem deliveries_eq (P : Path) (c : String) (items : List Item) : deliveries P c items = (items.filterMap (via P)).count c := by
  unfold deliveries
  induction items with
  | nil => rfl
  | cons it items ih =>
    rw [List.countP_cons, ih]
    cases hz : via P it with
    | none =>
      have hno : ¬ P ++ [c] <+: pathOf it := fun hp => by rw [via_eq_some.mpr hp] at hz; cases hz
      rw [List.filterMap_cons_none hz]
      simp [hno]
    | some z =>
      rw [List.filterMap_cons_some hz, List.count_cons]
      have hiff : P ++ [c] <+: pathOf it ↔ z = c := by rw [← via_eq_some, hz, Option.some.injEq]
      simp [hiff]

/-- The order in which a queue is drained. -/
structure Drained (fq : FairRoundRobinQueue) (items : List Item) : Prop where
  /-- Each ready message once. -/
  once : (items : Multiset Item) = fq.ready
  /-- The messages of a leaf by priority and id. -/
  ordered : ∀ g, (items.filter (·.group = g)).Pairwise Precedes
  /-- The children served at an inner node: its list from the cursor on and around, lap after
      lap, each child as often as there are messages below it. -/
  rotation : ∀ P n, fq.nodes.lookup P = some n → n.children ≠ [] → ∃ s, n.currentChild.or n.childrenList.head? = some s ∧
    items.filterMap (via P) = laps fq.ready.card (turns n.childrenList.toList s) fun c => below fq.readyPaths (P ++ [c])
  /-- Two children that both have a message before the last delivery of a window. -/
  balanced : ∀ P x y before window last after, items = before ++ (window ++ [last]) ++ after →
    deliveries P x (before ++ window) < below fq.readyPaths (P ++ [x]) →
    deliveries P y (before ++ window) < below fq.readyPaths (P ++ [y]) →
    deliveries P x (window ++ [last]) ≤ deliveries P y (window ++ [last]) + 1

theorem deliveries_append (P : Path) (c : String) (l l' : List Item) :
    deliveries P c (l ++ l') = deliveries P c l + deliveries P c l' :=
  List.countP_append

/-- A child that comes first is ahead by one delivery at most, from the start on. -/
theorem Emptied.lead {items A B : List Item} (h : Emptied R fq items) (hs : Stocked R (fq.turnsAt P) (fq.stock P)) (hxy : x ≠ y)
    (hsub : [x, y].Sublist (fq.turnsAt P)) (hA : items = A ++ B) (hx : deliveries P x A.dropLast < fq.stock P x)
    (hy : deliveries P y A.dropLast < fq.stock P y) :
    deliveries P y A ≤ deliveries P x A ∧ deliveries P x A ≤ deliveries P y A + 1 := by
  have hl := h.served P
  rw [hA, List.filterMap_append] at hl
  -- the last delivery may not go through `P`
  have hdrop : ∀ c, (A.filterMap (via P)).dropLast.count c ≤ deliveries P c A.dropLast := fun c => by
    rw [deliveries_eq]
    cases hA' : A.reverse with
    | nil => rw [List.reverse_eq_nil_iff.mp hA']; simp
    | cons e A' =>
      obtain rfl : A = A'.reverse ++ [e] := by rw [← List.reverse_reverse A, hA', List.reverse_cons]
      rw [List.dropLast_concat, List.filterMap_append]
      cases hz : via P e with
      | none =>
        rw [List.filterMap_cons_none hz, List.filterMap_nil, List.append_nil]
        exact (List.dropLast_sublist _).count_le c
      | some z => rw [List.filterMap_cons_some hz, List.filterMap_nil, List.dropLast_concat]
  rw [deliveries_eq, deliveries_eq]
  exact laps_lead hs hxy hsub hl.symm (Nat.lt_of_le_of_lt (hdrop x) hx) (Nat.lt_of_le_of_lt (hdrop y) hy)

theorem Calm.drained {items : List Item} (h : Calm fq) (he : Emptied fq.ready.card fq items) : Drained fq items := by
  have hst := h.inv.stocked (le_refl fq.ready.card)
  refine ⟨he.once, he.ordered, fun P n hn hch => ?_, fun P x y before window last after hi hx hy => ?_⟩
  · obtain ⟨s, hs⟩ := (h.inv.tree.ok P n hn).start_some hch
    refine ⟨s, hs, ?_⟩
    rw [he.served P, ← GroupNode.turns_of_start hs]
    unfold turnsAt
    simp only [hn]
    rfl
  · by_cases hxy : x = y
    · subst hxy; omega
    have hcount : ∀ c, deliveries P c (before ++ window) = deliveries P c before + deliveries P c window := fun c =>
      deliveries_append P c before window
    have hwhole : ∀ c, deliveries P c (before ++ (window ++ [last])) =
      deliveries P c before + deliveries P c (window ++ [last]) :=
      fun c => deliveries_append P c before (window ++ [last])
    have hdrop : (before ++ (window ++ [last])).dropLast = before ++ window := by
      rw [← List.append_assoc, List.dropLast_concat]
    have hfirst : ∀ c, deliveries P c before.dropLast ≤ deliveries P c (before ++ window) := fun c => by
      rw [hcount]
      exact Nat.le_add_right_of_le ((List.dropLast_sublist before).countP_le)
    have hmem : ∀ c, deliveries P c (before ++ window) < fq.stock P c → c ∈ fq.turnsAt P := fun c hc =>
      (mem_turnsAt h.inv).mpr (Nat.lt_of_le_of_lt (Nat.zero_le _) hc)
    have hi' : items = before ++ ((window ++ [last]) ++ after) := by rw [hi, List.append_assoc]
    rcases pair_of_mem (hmem x hx) (hmem y hy) hxy with hsub | hsub
    · have h1 := he.lead (hst P) hxy hsub hi' (Nat.lt_of_le_of_lt (hfirst x) hx) (Nat.lt_of_le_of_lt (hfirst y) hy)
      have h2 := he.lead (hst P) hxy hsub hi (by rw [hdrop]; exact hx) (by rw [hdrop]; exact hy)
      rw [hwhole, hwhole] at h2
      omega
    · have h1 := he.lead (hst P) (Ne.symm hxy) hsub hi' (Nat.lt_of_le_of_lt (hfirst y) hy) (Nat.lt_of_le_of_lt (hfirst x) hx)
      have h2 := he.lead (hst P) (Ne.symm hxy) hsub hi (by rw [hdrop]; exact hy) (by rw [hdrop]; exact hx)
      rw [hwhole, hwhole] at h2
      omega

/-- Over every run in which no enqueued group starts with a dot: a queue whose groups are apart
    and under the limit returns `Len` messages, in laps, and then nothing. -/
theorem drains_in_laps (hrun : Run step (new m) events fq) (hdots : ∀ e ∈ events, e.input.Undotted)
    (hapart : ∀ g g', fq.InUse g → fq.InUse g' → Dotted.split g <+: Dotted.split g' → g = g')
    (hlimit : ∀ g, fq.InUse g → fq.unacked g < fq.maxUnacked) (extra : Nat) :
    ∃ items fq', fq.drain (fq.len.toNat + extra) = some (items.map some ++ List.replicate extra none, fq') ∧
      items.length = fq.len ∧ Drained fq items := by
  have hinv := Runs.inv_undotted hrun hdots
  have hcalm := hinv.calm hapart hlimit
  have hlen : fq.len = fq.ready.card := hinv.total
  obtain ⟨r, hr, items, hout, he⟩ := Calm.drain fq.ready.card extra hcalm rfl (le_refl _)
  refine ⟨items, r.2, ?_, ?_, hcalm.drained he⟩
  · rw [hlen, Int.toNat_natCast, hr, ← hout]
  · rw [hlen, ← he.once]; rfl

/-- Two subgroups of one group and another group, one message in flight. -/
def twoLevels : List Op :=
  [.enqueue "a.x" ⟨1, 0, "a.x"⟩, .enqueue "a.y" ⟨2, 0, "a.y"⟩, .enqueue "b" ⟨3, 0, "b"⟩, .enqueue "a.x" ⟨4, 0, "a.x"⟩,
    .enqueue "b" ⟨5, 0, "b"⟩, .dequeue false]

theorem twoLevels_runs : (exec step (new 2) twoLevels).isSome := rfl

theorem drains_in_laps_twoLevels :
    let fq := ((exec step (new 2) twoLevels).get twoLevels_runs).2
    fq.len = 4 ∧ (fq.drain 5).map (·.1.map (·.map (·.id))) = some [some 3, some 2, some 5, some 4, none] ∧
      ∃ items fq', fq.drain 5 = some (items.map some ++ [none], fq') ∧ Drained fq items := by
  intro fq
  have hrun : Run step (new 2) _ fq := Run.of_exec_isSome twoLevels_runs
  have hG := (Runs.inv hrun (by decide)).2
  have huse : ∀ g, fq.InUse g → g ∈ ["a.x", "a.y", "b", "a.x", "b"] := by
    rintro g (⟨it, hit, rfl⟩ | hu)
    · exact hG.ready it hit
    · exact hG.unacked g hu
  have hfree : PrefixFree ["a.x", "a.y", "b", "a.x", "b"] := by decide
  have hlimit : ∀ g ∈ ["a.x", "a.y", "b", "a.x", "b"], fq.unacked g < fq.maxUnacked := by decide
  obtain ⟨items, fq', hd, _, hdr⟩ := drains_in_laps hrun (by decide) (fun g g' hg hg' => hfree g (huse g hg) g' (huse g' hg'))
    (fun g hg => hlimit g (huse g hg)) 1
  exact ⟨rfl, by decide +kernel, items, fq', hd, hdr⟩

/-- The leaf of `a.b` loses its index entry to `.a.b`, and stays when its message is gone; a
    message of `a` is behind it for good. -/
theorem stale_branch_blocks :
    (exec step (new 0) [.enqueue "a.b" ⟨1, 0, "a.b"⟩, .enqueue ".a.b" ⟨2, 0, ".a.b"⟩, .delete ".a.b" 2, .dequeue true,
        .enqueue "a" ⟨3, 0, "a"⟩, .get "a" 3, .dequeue true]).map (fun r => (r.1.map (·.output.map (·.id)), r.2.len)) =
      some ([none, none, some 2, some 1, none, some 3, none], 1) := by
  decide +kernel

end Doq.Memory.FairRoundRobinQueue
