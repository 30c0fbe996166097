/-
  Doq.Memory.RoundRobinDelete — what `Delete` does to the rotation of the groups
  (`FairRoundRobinQueue.Delete` and `removeEmptyChild` in
  `pkg/queue/memory/fair_round_robin_queue.go`).

  A delete that empties a group takes its node out of the tree, and with it the nodes above
  that hold nothing else. The node above the last of them loses a child. Where the cursor
  stood on that child, it is set to the head of the list, not to the child that was next.

  Proved: the turns at the nodes left are those from before without the child that was taken
  out, unless the cursor stood on it and it was neither the first nor the last of its list; and
  then they are not.
-/

import Doq.Memory.RoundRobinTwins
import Doq.Memory.RoundRobinRuns

namespace Doq.Memory

open Lib

namespace FairRoundRobinQueue

variable {fq fq' : FairRoundRobinQueue} {p q : Path} {n n' : GroupNode} {c : String} {it : Item} {group : String} {id : UInt64}

/-- The nodes of `fq'` visit their children in the order they did in `fq`, without those that
    are gone. -/
def TurnsKept (fq fq' : FairRoundRobinQueue) : Prop :=
  ∀ p n n', fq.nodes.lookup p = some n → fq'.nodes.lookup p = some n' →
    n'.turns = n.turns.filter fun c => (fq'.nodes.lookup (p ++ [c])).isSome

/-- Where the way to `q` holds one message only, and the node above it more, the cursor of that
    node is not on the way, or is at an end of the list. -/
def Sidelined (fq : FairRoundRobinQueue) (q : Path) : Prop :=
  ∀ p c n m, p ++ [c] <+: q → fq.nodes.lookup p = some n → fq.nodes.lookup (p ++ [c]) = some m → m.messageCount = 1 →
    p = [] ∨ 1 < n.messageCount → n.start = some c → n.childrenList.toList.head? = some c ∨
      n.childrenList.toList.getLast? = some c

/-- A node on the way stays exactly when it held more than the message. -/
theorem Inv.gone_iff (h : Inv False fq) (h' : Inv False fq') (hr : fq.ready = it ::ₘ fq'.ready) (hp : p ≠ [])
    (hpre : p <+: pathOf it)
    (hn : fq.nodes.lookup p = some n) : fq'.nodes.lookup p = none ↔ n.messageCount = 1 := by
  have hcount : n.messageCount = below fq'.readyPaths p + 1 := by
    rw [h.tree.count p n hn]
    unfold readyPaths
    rw [hr, Multiset.map_cons, below_cons, if_pos hpre, Nat.cast_add, Nat.cast_one]
  have hnode := h'.node_iff (p := p)
  rw [hcount, Option.eq_none_iff_forall_ne_some]
  constructor
  · intro hnone
    have hzero : below fq'.readyPaths p = 0 := below_eq_zero.mpr fun x hx hpx => by
      obtain ⟨it', hit', rfl⟩ := Multiset.mem_map.mp hx
      obtain ⟨k, hk⟩ := hnode.mpr (Or.inr ⟨it', hit', hpx⟩)
      exact hnone k hk
    omega
  · intro hone k hk
    rcases hnode.mp ⟨k, hk⟩ with rfl | ⟨it', hit', hpx⟩
    · exact hp rfl
    · have hzero : below fq'.readyPaths p = 0 := by omega
      exact below_eq_zero.mp hzero (pathOf it') (Multiset.mem_map_of_mem _ hit') hpx

theorem GroupNode.mem_of_turns {d : String} (h : d ∈ n.turns) : d ∈ n.childrenList.toList := by
  unfold GroupNode.turns at h
  split at h
  · cases h
  · exact Rotation.mem_turns.mp h

/-- A node that lost a child. -/
theorem NodeOk.turns_lost (hok : NodeOk p n) (hc : c ∈ n.childrenList.toList)
    (hlist : n'.childrenList.toList = n.childrenList.toList.erase c)
    (hstart : n'.start = if n.start = some c then (n.childrenList.toList.erase c).head? else n.start) :
    n'.turns = n.turns.erase c ↔
      (n.start = some c → n.childrenList.toList.head? = some c ∨ n.childrenList.toList.getLast? = some c) := by
  have hnodup : n.childrenList.toList.Nodup := hok.list.nodup_iff.mpr hok.nodup
  obtain ⟨s, hs⟩ := hok.start_some (List.ne_nil_of_mem (hok.list.mem_iff.mp hc))
  rw [GroupNode.turns_of_start hs]
  by_cases hsc : s = c
  · subst hsc
    rw [if_pos hs] at hstart
    have hturns : n'.turns = n.childrenList.toList.erase s := by
      unfold GroupNode.turns
      rw [hstart, hlist]
      have hhead := Rotation.turns_head (x := s) (n.childrenList.toList.erase s)
      cases he : (n.childrenList.toList.erase s).head? with
      | none => exact (List.head?_eq_none_iff.mp he).symm
      | some d => rwa [he] at hhead
    rw [hturns, Rotation.turns_erase_first hnodup hc]
    exact ⟨fun h _ => h, fun h => h hs⟩
  · rw [if_neg (by rw [hs]; simpa using hsc), hs] at hstart
    rw [GroupNode.turns_of_start hstart, hlist, Rotation.turns_erase hnodup (hok.start_mem hs) (Ne.symm hsc)]
    exact iff_of_true rfl fun e => absurd (Option.some.inj (hs.symm.trans e)) hsc

/-- The turns at one node that stays. -/
theorem Inv.node_turns_iff (h : Inv False fq) (hd : fq.delete group id = some (some it, fq')) (hn : fq.nodes.lookup p = some n)
    (hn' : fq'.nodes.lookup p = some n') :
    n'.turns = n.turns.filter (fun c => (fq'.nodes.lookup (p ++ [c])).isSome) ↔
      ∀ c m, p ++ [c] <+: pathOf it → fq.nodes.lookup (p ++ [c]) = some m → m.messageCount = 1 → n.start = some c →
        n.childrenList.toList.head? = some c ∨ n.childrenList.toList.getLast? = some c := by
  obtain ⟨mid, _, hpaced, _, hprune⟩ := (h.delete_prunes group id).result hd it rfl
  obtain ⟨h', _, _, hheld, hr⟩ := (h.delete group id).result hd
  obtain ⟨k, hk, hcase⟩ := hprune p n' hn'
  have horder : k.childrenList.toList = n.childrenList.toList := by
    rw [← orderAt_of_lookup hk, ← orderAt_of_lookup hn, hpaced.order]
  have hstart : k.start = n.start := by rw [← startAt_of_lookup hk, ← startAt_of_lookup hn, hpaced.start]
  obtain ⟨leaf, hleaf⟩ := h.node_of_ready hheld.1 List.prefix_rfl
  have stays : ∀ {d : String}, d ∈ n'.childrenList.toList → (fq'.nodes.lookup (p ++ [d])).isSome := fun hd' => by
    obtain ⟨m, hm⟩ := h'.tree.listed hn' hd'
    rw [hm]; rfl
  rcases hcase with ⟨hl, hc⟩ | ⟨c, hpre, hgone, hl, hc⟩
  · -- nothing was taken out here
    have hlist : n'.childrenList.toList = n.childrenList.toList := by rw [hl, horder]
    have hturns : n'.turns = n.turns := by
      unfold GroupNode.turns
      rw [hlist, show n'.start = n.start by rw [← hstart]; unfold GroupNode.start; rw [hl, hc]]
    refine iff_of_true ?_ fun c m hpre hm hone _ => ?_
    · rw [hturns, List.filter_eq_self.mpr fun d hd' => stays (hlist ▸ GroupNode.mem_of_turns hd')]
    · have hin := stays (hlist ▸ h.tree.toward_listed hn hleaf hpre)
      rw [(h.gone_iff h' hr (by simp) hpre hm).mpr hone] at hin
      cases hin
  · have hlist : n'.childrenList.toList = n.childrenList.toList.erase c := by rw [hl, LinkedList.toList_remove, horder]
    have hstart' := start_pruned hl hc
    rw [hstart, horder] at hstart'
    have hok := h.tree.ok p n hn
    have hin := h.tree.toward_listed hn hleaf hpre
    have hnodup : n.turns.Nodup := by
      obtain ⟨s, hs⟩ := hok.start_some (List.ne_nil_of_mem (hok.list.mem_iff.mp hin))
      rw [GroupNode.turns_of_start hs]
      exact Rotation.turns_nodup (hok.list.nodup_iff.mpr hok.nodup)
    have hfilter : n.turns.filter (fun d => (fq'.nodes.lookup (p ++ [d])).isSome) = n.turns.erase c := by
      rw [hnodup.erase_eq_filter]
      refine List.filter_congr fun d hd' => ?_
      by_cases hdc : d = c
      · subst hdc
        rw [hgone]; simp
      · rw [stays (hlist ▸ (List.mem_erase_of_ne hdc).mpr (GroupNode.mem_of_turns hd'))]
        simp [hdc]
    rw [hfilter, hok.turns_lost hin hlist hstart']
    constructor
    · intro hends d m hpre' _ _ hs
      obtain rfl : d = c := by
        have e : p ++ [d] = p ++ [c] := (List.prefix_of_prefix_length_le hpre' hpre (by simp)).eq_of_length (by simp)
        simpa using e
      exact hends hs
    · intro hends hs
      obtain ⟨m, hm⟩ := h.tree.listed hn hin
      exact hends c m hpre hm ((h.gone_iff h' hr (by simp) hpre hm).mp hgone) hs

theorem Inv.delete_turns_iff (h : Inv False fq) (hd : fq.delete group id = some (some it, fq')) :
    TurnsKept fq fq' ↔ Sidelined fq (pathOf it) := by
  obtain ⟨h', _, _, hheld, hr⟩ := (h.delete group id).result hd
  have stays : ∀ {p : Path} {n : GroupNode}, p <+: pathOf it → fq.nodes.lookup p = some n →
      (p = [] ∨ 1 < n.messageCount ↔ ∃ n', fq'.nodes.lookup p = some n') := by
    intro p n hpre hn
    by_cases hp : p = []
    · subst hp
      exact iff_of_true (Or.inl rfl) h'.tree.root
    · have hone : 1 ≤ n.messageCount := by
        rw [h.tree.count p n hn]
        exact_mod_cast below_pos.mpr ⟨pathOf it, Multiset.mem_map_of_mem _ hheld.1, hpre⟩
      have hgone := h.gone_iff h' hr hp hpre hn
      rw [← Option.ne_none_iff_exists', ne_eq, hgone]
      exact ⟨fun hcase => by have := hcase.resolve_left hp; omega, fun hne => Or.inr (by omega)⟩
  constructor
  · intro hkept p c n m hpre hn hm hone hstay hs
    obtain ⟨n', hn'⟩ := (stays ((List.prefix_append p [c]).trans hpre) hn).mp hstay
    exact (h.node_turns_iff hd hn hn').mp (hkept p n n' hn hn') c m hpre hm hone hs
  · intro hside p n n' hn hn'
    refine (h.node_turns_iff hd hn hn').mpr fun c m hpre hm hone hs => ?_
    exact hside p c n m hpre hn hm hone ((stays ((List.prefix_append p [c]).trans hpre) hn).mpr ⟨n', hn'⟩) hs

/-- A message that is deleted leaves the turns as they were, up to the child it empties, exactly
    if no cursor is lost in the middle of a list. -/
theorem delete_turns_kept_iff {m : Int} {events : List (Event FairRoundRobinQueue Op (Option Item))}
    (hrun : Run step (new m) events fq) (hdots : ∀ e ∈ events, e.input.Undotted)
    (hd : fq.delete group id = some (some it, fq')) : TurnsKept fq fq' ↔ Sidelined fq (pathOf it) :=
  (Runs.inv_undotted hrun hdots).delete_turns_iff hd

/-- Three groups, and the first has been served: the cursor is on the second. -/
def secondNext : List Op :=
  [.enqueue "a" ⟨1, 0, "a"⟩, .enqueue "a" ⟨2, 0, "a"⟩, .enqueue "b" ⟨3, 0, "b"⟩, .enqueue "c" ⟨4, 0, "c"⟩, .dequeue true]

theorem secondNext_runs : (exec step (new 1) secondNext).isSome := by decide +kernel

/-- The message of the last group can go: the cursor is elsewhere. -/
theorem delete_turns_kept_last :
    let fq := ((exec step (new 1) secondNext).get secondNext_runs).2
    ∃ it fq', fq.delete "c" 4 = some (some it, fq') ∧ TurnsKept fq fq' := by
  intro fq
  have hd : (fq.delete "c" 4).map (·.1) = some (some ⟨4, 0, "c"⟩) := by decide +kernel
  obtain ⟨⟨_, fq'⟩, hd, he⟩ := Option.map_eq_some_iff.mp hd
  cases he
  refine ⟨_, fq', hd, (delete_turns_kept_iff (Run.of_exec_isSome secondNext_runs) (by decide +kernel) hd).mpr ?_⟩
  intro p c n m hpre hn _ _ _ hs
  have hpath : pathOf ⟨4, 0, "c"⟩ = ["c"] := by decide +kernel
  have hroot : (fq.nodes.lookup []).map (·.start) = some (some "b") := by decide +kernel
  have hlen := hpre.length_le
  rw [hpath] at hpre hlen
  obtain rfl : p = [] := List.eq_nil_of_length_eq_zero (by simpa using hlen)
  rw [hn, Option.map_some, hs] at hroot
  cases hroot
  exact absurd hpre (by decide)

/-- With the only message of `b` goes the turn of `c`: the next is `a`, which was served last. -/
theorem delete_restarts_turns :
    let fq := ((exec step (new 1) secondNext).get secondNext_runs).2
    (∀ e ∈ ((exec step (new 1) secondNext).get secondNext_runs).1, e.input.Good) ∧
    ∃ it fq', fq.delete "b" 3 = some (some it, fq') ∧ ¬ TurnsKept fq fq' ∧
      (fq'.dequeue true).map (·.1) = some (some ⟨2, 0, "a"⟩) := by
  intro fq
  refine ⟨by decide +kernel, ?_⟩
  have hd : (fq.delete "b" 3).map (fun r => (r.1, (r.2.nodes.lookup []).map (·.turns))) =
    some (some ⟨3, 0, "b"⟩, some ["a", "c"]) := by
    decide +kernel
  have hleft : (fq.delete "b" 3).map (fun r => ["a", "b", "c"].map fun c => (r.2.nodes.lookup [c]).isSome) =
    some [true, false, true] := by
    decide +kernel
  have hnext : (fq.delete "b" 3).map (fun r => (r.2.dequeue true).map (·.1)) = some (some (some ⟨2, 0, "a"⟩)) := by decide +kernel
  obtain ⟨⟨_, fq'⟩, hd, he⟩ := Option.map_eq_some_iff.mp hd
  obtain ⟨rfl, hturns'⟩ := Prod.mk.injEq .. ▸ he
  rw [hd, Option.map_some, Option.some.injEq] at hleft hnext
  refine ⟨_, fq', hd, fun hkept => ?_, hnext⟩
  have hturns : (fq.nodes.lookup []).map (·.turns) = some ["b", "c", "a"] := by decide +kernel
  obtain ⟨n, hn, hturns⟩ := Option.map_eq_some_iff.mp hturns
  obtain ⟨n', hn', hturns'⟩ := Option.map_eq_some_iff.mp hturns'
  have h := hkept [] n n' hn hn'
  rw [hturns, hturns'] at h
  simp only [List.map_cons, List.cons.injEq] at hleft
  simp [hleft.1, hleft.2.1, hleft.2.2.1] at h

end FairRoundRobinQueue

end Doq.Memory
