/-
  Doq.Memory.RoundRobinRebuild — a round-robin queue built again from its messages and its
  scheduling state (see `Doq.Memory.RoundRobinSchedule`).

  A restore enqueues the ready messages in another order than they came in, counts the
  unacked ones, and then lays the scheduling state over the tree. The state names a node by
  its dotted path and a cursor by the name of the child it is on, and an empty name also
  stands for a cursor that is not set.

  Proved: the queue rebuilt so visits the children of every node in the order of the first
  one, from the same child on, and drains to the same messages, exactly if no node without a
  cursor has a child with the empty name that is not its first.
-/

import Doq.Memory.RoundRobinSchedule
import Doq.Memory.RoundRobinRuns

namespace Doq.Memory.FairRoundRobinQueue

open Lib

variable {fq fq' : FairRoundRobinQueue} {m : Int} {events : List (Event FairRoundRobinQueue Op (Option Item))}

/-- A queue that got the messages of `items` in turn, and counts one unacked for each of
    `held`. -/
def rebuilt (maxUnacked : Int) (items : List Item) (held : List String) : FairRoundRobinQueue :=
  held.foldl markUnacked (items.foldl (fun fq it => fq.enqueue it.group it) (new maxUnacked))

/-- Dequeue until nothing comes, at most once for each flag. -/
def drainBy : List Bool → FairRoundRobinQueue → Go (List Item)
  | [], _ => some []
  | ack :: acks, fq => do
    let (item, fq) ← fq.dequeue ack
    match item with
    | none => some []
    | some item => (drainBy acks fq).map (item :: ·)

/-- Whatever the order the messages come in, the scheduling state of `fq` puts the queue in step
    with `fq`; and if the two also count the same messages unacked, they drain alike. -/
def StateCarried (fq : FairRoundRobinQueue) : Prop :=
  ∃ states, fq.schedulingState = some states ∧ ∀ (maxUnacked : Int) (items : List Item) (held : List String),
    (items : Multiset Item) = fq.ready →
      let r := (rebuilt maxUnacked items held).restoreSchedulingState states
      Paced fq r ∧ (r.maxUnacked = fq.maxUnacked → (∀ g, r.unacked g = fq.unacked g) → ∀ acks, drainBy acks r = drainBy acks fq)

/-- Where a node has no cursor, no child but the first has the empty name. -/
def CursorsNamed (fq : FairRoundRobinQueue) : Prop := ∀ p n, fq.nodes.lookup p = some n → NotedRight n

/-! ## The rebuilt queue -/

theorem Inv.good_of_ready (h : Inv False fq) {it : Item} (hit : it ∈ fq.ready) : GoodGroup it.group := by
  obtain ⟨_, n, hn, _⟩ := h.home hit
  exact Dotted.of_head?_split_ne_empty (h.strict.head (pathOf it) n hn)

theorem Inv.enqueueAll (items : List Item) : ∀ {fq : FairRoundRobinQueue}, Inv False fq → (∀ it ∈ items, GoodGroup it.group) →
    Inv False (items.foldl (fun fq it => fq.enqueue it.group it) fq) ∧
      (items.foldl (fun fq it => fq.enqueue it.group it) fq).ready = (items : Multiset Item) + fq.ready := by
  induction items with
  | nil => intro fq h _; exact ⟨h, by simp⟩
  | cons it items ih =>
    intro fq h hgood
    obtain ⟨h1, hr, _⟩ := h.enqueue_any (hgood it List.mem_cons_self) it
    obtain ⟨h2, hr2⟩ := ih h1 fun x hx => hgood x (List.mem_cons_of_mem _ hx)
    refine ⟨h2, hr2.trans ?_⟩
    rw [hr, ← Multiset.cons_coe, Multiset.add_cons, Multiset.cons_add]

theorem Inv.markAll (held : List String) : ∀ {fq : FairRoundRobinQueue}, Inv False fq →
    Inv False (held.foldl FairRoundRobinQueue.markUnacked fq) ∧
      (held.foldl FairRoundRobinQueue.markUnacked fq).ready = fq.ready := by
  induction held with
  | nil => intro fq h; exact ⟨h, rfl⟩
  | cons g held ih =>
    intro fq h
    obtain ⟨h1, hr, _⟩ := h.markUnacked g
    obtain ⟨h2, hr2⟩ := ih h1
    exact ⟨h2, hr2.trans hr⟩

theorem Inv.rebuilt (h : Inv False fq) (maxUnacked : Int) {items : List Item} (held : List String)
    (hitems : (items : Multiset Item) = fq.ready) :
    Inv False (rebuilt maxUnacked items held) ∧ (FairRoundRobinQueue.rebuilt maxUnacked items held).ready = fq.ready := by
  have h0 : Inv False (new maxUnacked) := new_inv maxUnacked
  obtain ⟨h1, hr1⟩ := h0.enqueueAll items fun it hit =>
    h.good_of_ready (hitems ▸ Multiset.mem_coe.mpr hit)
  obtain ⟨h2, hr2⟩ := h1.markAll held
  exact ⟨h2, by rw [FairRoundRobinQueue.rebuilt, hr2, hr1, new_ready, add_zero, hitems]⟩

/-! ## Draining twins -/

theorem unacked_charged {ack : Bool} {group g : String} (h : fq'.unackedByGroup = (fq.charge ack group).unackedByGroup) :
    fq'.unacked g = fq.unacked g + if ack = false ∧ g = group then 1 else 0 := by
  rw [unacked_congr h]
  cases ack with
  | true => simp [charge]
  | false => rw [unacked_charge_eq]; simp

theorem Twins.drainBy (acks : List Bool) :
    ∀ {fq fq' : FairRoundRobinQueue}, Twins fq fq' → drainBy acks fq' = drainBy acks fq := by
  induction acks with
  | nil => intro fq fq' _; rfl
  | cons ack acks ih =>
    intro fq fq' h
    obtain ⟨⟨it, fq1⟩, hd, hinv, hmax, hcase⟩ := h.inv.dequeue ack
    obtain ⟨⟨it', fq1'⟩, hd', hinv', hmax', hcase'⟩ := h.inv'.dequeue ack
    obtain ⟨rfl, hp⟩ := h.dequeue hd hd'
    unfold FairRoundRobinQueue.drainBy
    rw [hd, hd']
    cases it' with
    | none => rfl
    | some it =>
      have hready : fq1'.ready = fq1.ready := by
        refine (Multiset.cons_inj_right it).mp ?_
        rw [← hcase.1, ← hcase'.1, h.ready]
      have hunacked : ∀ g, fq1'.unacked g = fq1.unacked g := fun g => by
        rw [unacked_charged hcase.2, unacked_charged hcase'.2, h.unacked]
      exact congrArg (Option.map (it :: ·)) (ih ⟨hinv, hinv', hready, hunacked, by rw [hmax, hmax', h.max], hp⟩)

theorem Inv.stateCarried_iff (h : Inv False fq) : StateCarried fq ↔ CursorsNamed fq := by
  obtain ⟨states, hs, _⟩ := h.tree.schedulingState
  constructor
  · rintro ⟨states', hs', hcarried⟩
    rw [hs] at hs'; cases hs'
    have hitems : (fq.ready.toList : Multiset Item) = fq.ready := Multiset.coe_toList _
    obtain ⟨hinv, hready⟩ := h.rebuilt 0 [] hitems
    exact (h.restored_paced_iff hinv hready hs).mp (hcarried 0 _ [] hitems).1
  · intro hright
    refine ⟨states, hs, fun maxUnacked items held hitems => ?_⟩
    obtain ⟨hinv, hready⟩ := h.rebuilt maxUnacked held hitems
    have hp := (h.restored_paced_iff hinv hready hs).mpr hright
    obtain ⟨hinv', hready', _⟩ := hinv.restoreSchedulingState states
    exact ⟨hp, fun hmax hunacked acks => Twins.drainBy acks ⟨h, hinv', hready'.trans hready, hunacked, hmax, hp⟩⟩

/-- In every run that enqueues groups not starting with a dot, the scheduling state carries over to
    a rebuilt queue exactly if it names every cursor. -/
theorem state_carried_iff (hrun : Run step (new m) events fq) (hgood : ∀ e ∈ events, e.input.Good) :
    StateCarried fq ↔ CursorsNamed fq :=
  (Runs.inv hrun hgood).1.stateCarried_iff

/-- An empty component is no harm at the head of the list. -/
def emptyFirst : List Op := [.enqueue "a." ⟨1, 0, "a."⟩, .enqueue "a.b" ⟨2, 0, "a.b"⟩]

theorem emptyFirst_runs : (exec step (new 5) emptyFirst).isSome := by decide +kernel

theorem state_carried_emptyFirst :
    let fq := ((exec step (new 5) emptyFirst).get emptyFirst_runs).2
    StateCarried fq := by
  intro fq
  refine (state_carried_iff (Run.of_exec_isSome emptyFirst_runs) (by decide +kernel)).mpr fun p n hn => ?_
  have hall : ∀ e ∈ fq.nodes.entries, NotedRight e.2 := by decide +kernel
  exact hall ⟨p, n⟩ (AList.mem_lookup_iff.mp hn)

/-- After another child it is: the group `a.b` came first and no dequeue has set the cursor of
    `a`, and the note of that is read as the child with the empty name. -/
def emptySecond : List Op := [.enqueue "a.b" ⟨1, 0, "a.b"⟩, .enqueue "a." ⟨2, 0, "a."⟩]

theorem emptySecond_runs : (exec step (new 5) emptySecond).isSome := by decide +kernel

theorem state_not_carried :
    let fq := ((exec step (new 5) emptySecond).get emptySecond_runs).2
    ¬ StateCarried fq ∧ drainBy [true, true] fq = some [⟨1, 0, "a.b"⟩, ⟨2, 0, "a."⟩] ∧
      fq.schedulingState.bind (fun states => drainBy [true,
        true] ((rebuilt 5 [⟨1, 0, "a.b"⟩, ⟨2, 0, "a."⟩] []).restoreSchedulingState states)) =
        some [⟨2, 0, "a."⟩, ⟨1, 0, "a.b"⟩] := by
  intro fq
  refine ⟨?_, by decide +kernel, by decide +kernel⟩
  rintro ⟨states, hs, hcarried⟩
  have hready : (([⟨1, 0, "a.b"⟩, ⟨2, 0, "a."⟩] : List Item) : Multiset Item) = fq.ready := by decide +kernel
  have hstart := (hcarried 5 _ [] hready).1.start ["a"]
  have hdiffer : fq.schedulingState.map (fun states =>
      ((rebuilt 5 [⟨1, 0, "a.b"⟩, ⟨2, 0, "a."⟩] []).restoreSchedulingState states).startAt ["a"]) = some (some "") := by
        decide +kernel
  rw [hs, Option.map_some, Option.some.injEq, hstart] at hdiffer
  exact absurd hdiffer (by decide +kernel)

end Doq.Memory.FairRoundRobinQueue
