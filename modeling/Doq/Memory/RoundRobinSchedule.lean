/-
  Doq.Memory.RoundRobinSchedule — what the scheduling state of a round-robin queue carries
  (see `Doq.Memory.RoundRobin`).

  `SchedulingState` walks the tree and notes, for every node with children, their order and
  the cursor; `RestoreSchedulingState` lays the notes over a queue that has the same messages
  but another past.

  Proved: the walk notes every node with children; and the queue it is laid over then has the
  order of the one that was walked at every node, and its start wherever the note can tell it.
  A note cannot where there is no cursor and a child other than the first has the empty name,
  which is what the note of no cursor says.
-/

import Doq.Memory.RoundRobinTwins

namespace Doq.Memory.FairRoundRobinQueue

open Lib

variable {fq fq' : FairRoundRobinQueue} {C D : Multiset Path} {p q : Path} {n m : GroupNode} {c : String}
  {states : List SchedulingNode} {state : SchedulingNode}

/-! ## The walk -/

def noteOf (n : GroupNode) : SchedulingNode := ⟨n.groupKey, n.childrenList.toList, n.currentChild.getD ""⟩

/-- The notes of the nodes at and below `p`. -/
structure Noted (fq : FairRoundRobinQueue) (p : Path) (states : List SchedulingNode) : Prop where
  sound : ∀ s ∈ states, ∃ r n, fq.nodes.lookup r = some n ∧ s = noteOf n
  complete : ∀ r n, p <+: r → fq.nodes.lookup r = some n → n.childrenList.toList ≠ [] → noteOf n ∈ states

theorem forall₂_left {α β : Type} {R : α → β → Prop} {a : α} :
    ∀ {l : List α} {l' : List β}, List.Forall₂ R l l' → a ∈ l → ∃ b ∈ l', R a b
  | _, _, .cons hr hl, ha => by
    rcases List.mem_cons.mp ha with rfl | ha
    · exact ⟨_, List.mem_cons_self, hr⟩
    · obtain ⟨b, hb, hR⟩ := forall₂_left hl ha
      exact ⟨b, List.mem_cons_of_mem _ hb, hR⟩

theorem forall₂_right {α β : Type} {R : α → β → Prop} {b : β} {l : List α} {l' : List β} (h : List.Forall₂ R l l') (hb : b ∈ l') :
    ∃ a ∈ l, R a b :=
  forall₂_left h.flip hb

theorem walk_noted (h : Tree fq C D) (fuel : Nat) : ∀ {p : Path} {n : GroupNode}, fq.nodes.lookup p = some n →
    fq.depth + 1 ≤ fuel + p.length → Returns (fq.walk fuel p) (Noted fq p) := by
  induction fuel with
  | zero => intro p n hp hf; have := length_le_depth hp; omega
  | succ fuel ih =>
    intro p n hp hf
    unfold walk
    refine .bind_eq hp ?_
    -- a node below `p` lies below one of its children
    have below : ∀ r m, p <+: r → r ≠ p → fq.nodes.lookup r = some m → ∃ c ∈ n.childrenList.toList, p ++ [c] <+: r := by
      rintro r m ⟨rest, rfl⟩ hne hr
      cases rest with
      | nil => exact absurd (List.append_nil p) hne
      | cons c rest =>
        have hpre : p ++ [c] <+: p ++ c :: rest := ⟨rest, by simp⟩
        exact ⟨c, h.toward_listed hp hr hpre, hpre⟩
    split
    · rename_i hlen
      have hnil : n.childrenList.toList = [] := List.length_eq_zero_iff.mp (LinkedList.len_eq ▸ hlen)
      refine .intro ⟨fun s hs => absurd hs List.not_mem_nil, fun r m hpre hr hne => ?_⟩
      by_cases e : r = p
      · rw [e, hp] at hr; cases hr; exact absurd hnil hne
      · obtain ⟨c, hc, _⟩ := below r m hpre e hr
        rw [hnil] at hc; exact absurd hc List.not_mem_nil
    · refine (Returns.mapM (Q := fun c states => Noted fq (p ++ [c]) states) fun c hc => ?_).bind fun rest hrest =>
        .intro ⟨?_, ?_⟩
      · have hch : c ∈ n.children := (h.ok p n hp).list.mem_iff.mp hc
        obtain ⟨m, hm⟩ := h.child p c n hp hch
        rw [if_pos hch]
        exact ih hm (by simp; omega)
      · intro s hs
        rcases List.mem_cons.mp hs with rfl | hs
        · exact ⟨p, n, hp, rfl⟩
        · obtain ⟨states, hmem, hs⟩ := List.mem_flatten.mp hs
          obtain ⟨c, _, hnoted⟩ := forall₂_right hrest hmem
          exact hnoted.sound s hs
      · intro r m hpre hr hne
        by_cases e : r = p
        · rw [e, hp] at hr; cases hr; exact List.mem_cons_self
        · obtain ⟨c, hc, hcr⟩ := below r m hpre e hr
          obtain ⟨states, hmem, hnoted⟩ := forall₂_left hrest hc
          exact List.mem_cons_of_mem _ (List.mem_flatten.mpr ⟨states, hmem, hnoted.complete r m hcr hr hne⟩)

theorem Tree.schedulingState (h : Tree fq C D) : Returns fq.schedulingState (Noted fq []) := by
  obtain ⟨r, hr⟩ := h.root
  exact walk_noted h _ hr (by simp)

/-! ## Laying a note over a node -/

/-- Children listed once each come out in the order of the list. -/
theorem reorder_listed {listed : List String} (hnodup : listed.Nodup) (hmem : ∀ c, c ∈ listed ↔ c ∈ n.children)
    (hlist : n.childrenList.toList.Perm n.children) : (reorder n listed).toList = listed := by
  have key : ∀ (todo : List String) (ordered : LinkedList String), (ordered.toList ++ todo).Nodup → (∀ c ∈ todo, c ∈ n.children) →
      (todo.foldl (fun ordered name => if name ∈ n.children ∧ name ∉ ordered.toList then ordered.append name
        else ordered) ordered).toList =
        ordered.toList ++ todo := by
    intro todo
    induction todo with
    | nil => intro ordered _ _; simp
    | cons name todo ih =>
      intro ordered hnd hin
      have hnot : name ∉ ordered.toList := fun hx => (List.nodup_append.mp hnd).2.2 name hx name List.mem_cons_self rfl
      rw [List.foldl_cons, if_pos ⟨hin name List.mem_cons_self, hnot⟩, ih _ (by rw [LinkedList.toList_append]; simpa using hnd)
        fun c hc => hin c (List.mem_cons_of_mem _ hc), LinkedList.toList_append]
      simp
  have hordered := key listed .empty (by simpa using hnodup) fun c hc => (hmem c).mp hc
  rw [LinkedList.toList_empty, List.nil_append] at hordered
  unfold reorder
  generalize List.foldl _ LinkedList.empty listed = ordered at hordered ⊢
  -- nothing is left to append
  have hnone : n.childrenList.toList.filter (· ∉ ordered.toList) = [] := by
    refine List.filter_eq_nil_iff.mpr fun c hc => ?_
    simpa [hordered] using (hmem c).mpr (hlist.mem_iff.mp hc)
  rw [toList_foldl_append, hnone, List.append_nil, hordered]

theorem find_spec (h : Tree fq C D) (names : List String) : ∀ {p : Path} {m : GroupNode}, fq.nodes.lookup (p ++ names) = some m →
    fq.find p names = some (p ++ names) := by
  induction names with
  | nil => intro p m _; rw [List.append_nil]; rfl
  | cons name names ih =>
    intro p m hm
    have happ : p ++ name :: names = (p ++ [name]) ++ names := by simp
    obtain ⟨k, hk⟩ := h.above (happ ▸ hm)
    obtain ⟨n, hn, hc⟩ := h.parent p name k hk
    unfold find
    rw [hn]
    simp only [hc, if_true]
    rw [happ]
    exact ih (happ ▸ hm)

/-- The cursor a note leads back to: its empty name is also that of a child. -/
def notedChild (n : GroupNode) : Option String := n.currentChild.or (if "" ∈ n.childrenList.toList then some "" else none)

/-- The note leads back to the child the next rotation starts from. -/
def NotedRight (n : GroupNode) : Prop :=
  n.currentChild = none → "" ∈ n.childrenList.toList → n.childrenList.toList.head? = some ""

instance (n : GroupNode) : Decidable (NotedRight n) := inferInstanceAs (Decidable (_ → _ → _))

theorem notedChild_start_iff : (notedChild n).or n.childrenList.toList.head? = n.start ↔ NotedRight n := by
  unfold notedChild NotedRight GroupNode.start
  rw [LinkedList.head?_eq]
  cases n.currentChild with
  | some c => simp
  | none =>
    by_cases hc : "" ∈ n.childrenList.toList
    · simp [hc, eq_comm]
    · simp [hc]

/-- The node at `p` has been laid over with the note of its counterpart. -/
def RightAt (fq fq' : FairRoundRobinQueue) (p : Path) : Prop :=
  ∃ n m, fq.nodes.lookup p = some n ∧ fq'.nodes.lookup p = some m ∧ m.childrenList.toList = n.childrenList.toList ∧
    m.currentChild = notedChild n

theorem Inv.note_path (h : Inv False fq) (hn : fq.nodes.lookup p = some n) :
    (if n.groupKey = "" then [] else Dotted.split n.groupKey) = p := by
  by_cases hp : p = []
  · rw [if_pos (by rw [h.strict.key p n hn, hp]; rfl), hp]
  · rw [if_neg (by rw [h.strict.key p n hn]; exact Dotted.join_ne_empty hp (h.strict.head p n hn)), h.strict.split_key hp hn]

theorem restoreNode_lookup_note (h : Inv False fq) (h' : Inv False fq') (hn : fq.nodes.lookup p = some n)
    (hn' : fq'.nodes.lookup p = some m) (q : Path) :
    (fq'.restoreNode (noteOf n)).nodes.lookup q = (fq'.nodes.lookup q).map fun k => if q = p then rearrange
    (noteOf n) k else k := by
  unfold restoreNode
  have hfind : fq'.find [] (if (noteOf n).path = "" then [] else Dotted.split (noteOf n).path) = some p := by
    rw [show (if (noteOf n).path = "" then [] else Dotted.split (noteOf n).path) = p from h.note_path hn]
    exact find_spec h'.tree p (p := []) hn'
  rw [hfind]
  exact modifyNode_lookup _ _ _ _

theorem rearrange_noted (hok : NodeOk p n) (hok' : NodeOk p m) (hmem : ∀ c, c ∈ n.children ↔ c ∈ m.children) :
    (rearrange (noteOf n) m).childrenList.toList = n.childrenList.toList ∧
    (rearrange (noteOf n) m).currentChild = notedChild n := by
  have hlist : (reorder m n.childrenList.toList).toList = n.childrenList.toList :=
    reorder_listed (hok.list.nodup_iff.mpr hok.nodup) (fun c => hok.list.mem_iff.trans (hmem c)) hok'.list
  refine ⟨hlist, ?_⟩
  show (if (noteOf n).current ∈ (reorder m n.childrenList.toList).toList then some (noteOf n).current else none) = notedChild n
  unfold notedChild noteOf
  rw [hlist]
  cases hc : n.currentChild with
  | none => rfl
  | some c => simp [hok.cursor c hc]

/-! ## Laying the whole state over a queue -/

/-- Two queues with the same messages have the same children everywhere. -/
theorem Inv.same_children (h : Inv False fq) (h' : Inv False fq') (hr : fq'.ready = fq.ready) (hn : fq.nodes.lookup p = some n)
    (hn' : fq'.nodes.lookup p = some m) (c : String) : c ∈ n.children ↔ c ∈ m.children := by
  have hdom := h.same_nodes h' (fun x => by unfold readyPaths; rw [hr]) (p ++ [c])
  constructor
  · intro hc
    obtain ⟨k, hk⟩ := hdom.mpr (h.tree.child p c n hn hc)
    obtain ⟨m', hm', hc'⟩ := h'.tree.parent p c k hk
    rw [hn'] at hm'; cases hm'; exact hc'
  · intro hc
    obtain ⟨k, hk⟩ := hdom.mp (h'.tree.child p c m hn' hc)
    obtain ⟨n', hn'', hc'⟩ := h.tree.parent p c k hk
    rw [hn] at hn''; cases hn''; exact hc'

theorem restoreNode_right (h : Inv False fq) (h' : Inv False fq') (hr : fq'.ready = fq.ready)
    (hn : fq.nodes.lookup p = some n) (q : Path)
    (hq : q = p ∨ RightAt fq fq' q) : RightAt fq (fq'.restoreNode (noteOf n)) q := by
  obtain ⟨m, hm⟩ := (h.same_nodes h' (fun x => by unfold readyPaths; rw [hr]) p).mpr ⟨n, hn⟩
  have hl := restoreNode_lookup_note h h' hn hm q
  by_cases e : q = p
  · subst e
    rw [hm, Option.map_some, if_pos rfl] at hl
    exact ⟨n, _, hn, hl, rearrange_noted (h.tree.ok q n hn) (h'.tree.ok q m hm) (h.same_children h' hr hn hm)⟩
  · obtain ⟨k, k', hk, hk', hright⟩ := hq.resolve_left e
    rw [hk', Option.map_some, if_neg e] at hl
    exact ⟨k, k', hk, hl, hright⟩

/-- What the notes of `states` put right stays right. -/
theorem restore_right (h : Inv False fq) (states : List SchedulingNode) :
    ∀ {fq' : FairRoundRobinQueue}, Inv False fq' → fq'.ready = fq.ready →
      (∀ s ∈ states, ∃ r n, fq.nodes.lookup r = some n ∧ s = noteOf n) →
      ∀ p n, fq.nodes.lookup p = some n → noteOf n ∈ states ∨ RightAt fq fq' p →
        RightAt fq (fq'.restoreSchedulingState states) p := by
  induction states with
  | nil => intro fq' _ _ _ p n _ hcase; exact hcase.resolve_left List.not_mem_nil
  | cons s states ih =>
    intro fq' h' hr hsound p n hn hcase
    obtain ⟨r, k, hk, rfl⟩ := hsound s List.mem_cons_self
    refine ih (h'.restoreNode (noteOf k)) ((restoreNode_ready fq' _).trans hr)
      (fun s hs => hsound s (List.mem_cons_of_mem _ hs)) p n hn ?_
    rcases hcase with hin | hright
    · rcases List.mem_cons.mp hin with e | hin
      · -- the note leads to one node only
        have hkey : n.groupKey = k.groupKey := congrArg SchedulingNode.path e
        exact Or.inr (restoreNode_right h h' hr hk p (Or.inl (h.key_inj hn hk hkey)))
      · exact Or.inl hin
    · exact Or.inr (restoreNode_right h h' hr hk p (Or.inr hright))

/-- The node `n` and its counterpart under the notes: the same order, and the same start if the
    note can tell it. -/
theorem Inv.restored_node (h : Inv False fq) (h' : Inv False fq') (hr : fq'.ready = fq.ready)
    (hs : fq.schedulingState = some states)
    (hn : fq.nodes.lookup p = some n) (hm : (fq'.restoreSchedulingState states).nodes.lookup p = some m) :
    m.childrenList.toList = n.childrenList.toList ∧ (m.start = n.start ↔ NotedRight n) := by
  have hnoted := h.tree.schedulingState.result hs
  obtain ⟨hinv, hready, _⟩ := h'.restoreSchedulingState states
  have hok := h.tree.ok p n hn
  by_cases hl : n.childrenList.toList = []
  · have hok' := hinv.tree.ok p m hm
    have hch' : m.children = [] := List.eq_nil_iff_forall_not_mem.mpr fun c hc => by
      have := (h.same_children hinv (hready.trans hr) hn hm c).mpr hc
      rw [hok.children_nil.mpr hl] at this
      exact absurd this List.not_mem_nil
    have hl' := hok'.children_nil.mp hch'
    have hright : NotedRight n := fun _ hc => absurd (hl ▸ hc) List.not_mem_nil
    rw [hl, hl', hok.start_nil hl, hok'.start_nil hl']
    exact ⟨rfl, iff_of_true rfl hright⟩
  · obtain ⟨n', m', hn', hm', horder, hcur⟩ := restore_right h states h' hr hnoted.sound p n hn
      (Or.inl (hnoted.complete p n List.nil_prefix hn hl))
    rw [hn] at hn'; cases hn'
    rw [hm] at hm'; cases hm'
    have hstart : m.start = (notedChild n).or n.childrenList.toList.head? := by
      unfold GroupNode.start
      rw [hcur, LinkedList.head?_eq, horder]
    rw [hstart]
    exact ⟨horder, notedChild_start_iff⟩

/-- A queue with the same messages, under the notes of the first one, is in step with it exactly
    if each note leads back to the start of its node. -/
theorem Inv.restored_paced_iff (h : Inv False fq) (h' : Inv False fq') (hr : fq'.ready = fq.ready)
    (hs : fq.schedulingState = some states) :
    Paced fq (fq'.restoreSchedulingState states) ↔ ∀ p n, fq.nodes.lookup p = some n → NotedRight n := by
  obtain ⟨hinv, hready, _⟩ := h'.restoreSchedulingState states
  have hdom := h.same_nodes hinv fun x => by unfold readyPaths; rw [hready, hr]
  constructor
  · intro hp p n hn
    obtain ⟨m, hm⟩ := (hdom p).mpr ⟨n, hn⟩
    refine (h.restored_node h' hr hs hn hm).2.mp ?_
    rw [← startAt_of_lookup hm, ← startAt_of_lookup hn, hp.start]
  · intro hright
    refine paced_of_nodes (fun p n hn => (hdom p).mpr ⟨n, hn⟩) (fun p n m hn hm => ?_) fun p m hm => (hdom p).mp ⟨m, hm⟩
    obtain ⟨horder, hstart⟩ := h.restored_node h' hr hs hn hm
    exact ⟨horder, hstart.mpr (hright p n hn)⟩

/-- No component of a group is empty, so no child is, and every note leads back. -/
theorem Inv.restored_paced (h : Inv False fq) (h' : Inv False fq') (hr : fq'.ready = fq.ready)
    (hnamed : ∀ it ∈ fq.ready, "" ∉ pathOf it)
    (hs : fq.schedulingState = some states) : Paced fq (fq'.restoreSchedulingState states) := by
  refine (h.restored_paced_iff h' hr hs).mpr fun p n hn _ hc => ?_
  rcases h.node_iff.mp (h.tree.listed hn hc) with he | ⟨it, hit, hpre⟩
  · simp at he
  · exact absurd (hpre.subset (by simp)) (hnamed it hit)

end Doq.Memory.FairRoundRobinQueue
