/-
  Doq.Queue.Sweep — the ack monitor's sweep (`Queue.expireAcks`).

  The sweep looks only at the head of the ack queue and stops at a head that is not due.
  `order` lists the items as they come to the head while each head is taken out; the sweep
  takes the due items at the front of that list. The ack queue's head is the latest
  deadline, so a message that is not due hides every one that is.

  Proved, with `AckTimeout` as the handler and no failing store call:
  - `sweep_exact_iff`: the sweep returns, and it has taken out exactly the due messages if
    and only if no due item comes after one that is not. In heap order that is: all are
    due, or none is.
-/

import Doq.Queue.Refine

namespace Doq

open Lib Memory Storage

namespace Memory.DelayedQueue

variable {aq aq' : DelayedQueue} {it : Item}

/-- The first items that come to the head, each head taken out by its id. -/
def drain : Nat → DelayedQueue → List Item
  | 0, _ => []
  | n + 1, aq =>
    match aq.queue.peek with
    | none => []
    | some head => head :: match aq.delete head.id with
      | some (_, aq') => drain n aq'
      | none => []

def order (aq : DelayedQueue) : List Item := aq.drain aq.len

theorem mem_of_peek (h : aq.queue.peek = some it) : it ∈ aq.held := PriorityMemoryQueue.mem_held.mpr ⟨0, h⟩

theorem peekReadyItem_none (h : aq.queue.peek = none) (clock : Int) : aq.peekReadyItem clock = none := by
  unfold peekReadyItem; rw [h]

theorem peekReadyItem_some {clock : Int} (h : aq.queue.peek = some it) :
    aq.peekReadyItem clock = if it.priority > clock then none else some it := by
  unfold peekReadyItem; rw [h]

theorem mem_of_peekReadyItem {clock : Int} (h : aq.peekReadyItem clock = some it) : it ∈ aq.held := by
  cases hp : aq.queue.peek with
  | none => rw [peekReadyItem_none hp] at h; cases h
  | some x =>
    rw [peekReadyItem_some hp] at h
    split at h
    · cases h
    · cases h; exact mem_of_peek hp

theorem Taken.len (h : Taken aq it aq') : aq.len = aq'.len + 1 := by
  show aq.queue.len = aq'.queue.len + 1
  rw [PriorityMemoryQueue.len_eq_card, PriorityMemoryQueue.len_eq_card, h.shrunk.held, Multiset.card_cons]

theorem order_empty (h : aq.queue.peek = none) : aq.order = [] := by
  unfold order len
  rw [peek_none h]
  rfl

theorem order_cons (h : aq.queue.peek = some it) (ht : Taken aq it aq') : aq.order = it :: aq'.order := by
  unfold order
  rw [ht.len]
  simp only [drain, h, ht.delete_eq]

/-- The order lists what is held. -/
theorem order_held (h : aq.queue.Exact) : (aq.order : Multiset Item) = aq.held := by
  induction hn : aq.len generalizing aq with
  | zero =>
    have hheld : aq.held = 0 := by
      rw [← Multiset.card_eq_zero]
      exact (PriorityMemoryQueue.len_eq_card aq.queue).symm.trans hn
    unfold order
    rw [hn, hheld]
    rfl
  | succ n ih =>
    cases hp : aq.queue.peek with
    | none => rw [show aq.len = 0 from peek_none hp] at hn; cases hn
    | some it =>
      obtain ⟨aq', ht⟩ := taken h (mem_of_peek hp)
      have hlen := ht.len
      have hheld : aq.held = it ::ₘ aq'.held := ht.shrunk.held
      rw [order_cons hp ht, ← Multiset.cons_coe, ih (ht.shrunk.exact h) (by omega), hheld]

/-- In heap order the head of a max-first queue is the latest. -/
theorem le_head (h : aq.queue.Heaped) (hmax : aq.queue.minFirst = false) (hp : aq.queue.peek = some it) :
    ∀ x ∈ aq.held, x.priority ≤ it.priority := by
  intro x hx
  have hsize : 0 < aq.queue.items.size := (Array.getElem?_eq_some_iff.mp hp).1
  obtain ⟨y, _, hy, _, _, hfirst⟩ := PriorityMemoryQueue.heapPop_spec hsize
  have hy : aq.queue.peek = some y := hy
  rw [hp] at hy; cases hy
  have hb := hfirst h x hx
  rw [hmax] at hb
  unfold PriorityMemoryQueue.before at hb
  split at hb
  · omega
  · simp only [Bool.false_eq_true, if_false, decide_eq_false_iff_not] at hb
    omega

end Memory.DelayedQueue

namespace Queue

/-- No due item after one that is not. -/
def DueFirst (clock : Int) (items : List Item) : Prop := items.Pairwise fun a b => b.priority ≤ clock → a.priority ≤ clock

theorem dueFirst_cons_due {clock : Int} {it : Item} {items : List Item} (h : it.priority ≤ clock) :
    DueFirst clock (it :: items) ↔ DueFirst clock items := by
  unfold DueFirst
  rw [List.pairwise_cons]
  exact ⟨fun hp => hp.2, fun hp => ⟨fun _ _ _ => h, hp⟩⟩

theorem dueFirst_cons_not_due {clock : Int} {it : Item} {items : List Item} (h : clock < it.priority) :
    DueFirst clock (it :: items) ↔ ∀ x ∈ items, clock < x.priority := by
  unfold DueFirst
  rw [List.pairwise_cons]
  constructor
  · intro hp x hx
    by_contra hle
    have := hp.1 x hx (by omega)
    omega
  · intro hp
    refine ⟨fun x hx hle => ?_, List.pairwise_of_forall_mem_list fun a ha b hb hle => ?_⟩
    · have := hp x hx; omega
    · have := hp b hb; omega

/-- The condition, on a queue in heap order. -/
theorem dueFirst_heaped {aq : DelayedQueue} (hx : aq.queue.Exact) (h : aq.queue.Heaped)
    (hmax : aq.queue.minFirst = false) (clock : Int) :
    DueFirst clock aq.order ↔ (∀ it ∈ aq.held, it.priority ≤ clock) ∨ ∀ it ∈ aq.held, clock < it.priority := by
  have hmem : ∀ {it}, it ∈ aq.order ↔ it ∈ aq.held := by
    intro it
    rw [← DelayedQueue.order_held hx, Multiset.mem_coe]
  cases hp : aq.queue.peek with
  | none =>
    have hnil := DelayedQueue.order_empty hp
    refine ⟨fun _ => Or.inl fun it hit => ?_, fun _ => by rw [hnil]; exact List.Pairwise.nil⟩
    rw [← hmem, hnil] at hit
    cases hit
  | some head =>
    obtain ⟨aq', ht⟩ := DelayedQueue.taken hx (DelayedQueue.mem_of_peek hp)
    have hle := DelayedQueue.le_head h hmax hp
    have hcons := DelayedQueue.order_cons hp ht
    by_cases hdue : head.priority ≤ clock
    · refine ⟨fun _ => Or.inl fun it hit => (hle it hit).trans hdue, fun _ => ?_⟩
      refine List.pairwise_of_forall_mem_list fun a ha b _ _ => ?_
      exact (hle a (hmem.mp ha)).trans hdue
    · rw [hcons, dueFirst_cons_not_due (by omega)]
      constructor
      · intro hrest
        refine Or.inr fun it hit => ?_
        rw [← hmem, hcons] at hit
        rcases List.mem_cons.mp hit with rfl | hit
        · omega
        · exact hrest it hit
      · rintro (hall | hnone) x hx'
        · exact absurd (hall head (DelayedQueue.mem_of_peek hp)) hdue
        · exact hnone x (hmem.mp (by rw [hcons]; exact List.mem_cons_of_mem _ hx'))

/-- The handler that applies `AckTimeout`. -/
def timeouts (cfg : Config) (_ : String) (id : UInt64) (q : Queue) (store : Store) : Go (Outcome Unit) :=
  q.ackTimeout store cfg noFaults id

/-- Exactly the due messages have left flight: each is ready again, or dropped. -/
structure Swept (name : String) (clock : Int) (q q' : Queue) (store' : Store) : Prop where
  held : q'.ackQueue.held = q.ackQueue.held.filter fun it => clock < it.priority
  released : ∀ it ∈ q.ackQueue.held, it.priority ≤ clock →
    store'.messages.lookup (name, it.id) = none ∨ ∃ m', q'.queue = some m' ∧ ∃ x ∈ m'.ready, x.id = it.id

end Queue

namespace Refines

variable {name : String} {b : Broker} {q : Queue} {store : Store} {cfg : Config} {clock : Int}

theorem record_of_ack (h : Refines name b q store) {it : Item} (hit : it ∈ q.ackQueue.held) :
    ∃ msg, b.records it.id = some ⟨msg, .inFlight it.priority⟩ ∧ it.group = msg.group := by
  obtain ⟨⟨msg, status⟩, hr, hi⟩ := Option.bind_eq_some_iff.mp ((h.ack.mem it).mp hit)
  cases status with
  | ready => cases hi
  | inFlight d =>
    cases hi
    exact ⟨msg, hr, rfl⟩

/-- The handler takes a due head out, and another message comes to the head. -/
theorem expire_head (h : Refines name b q store) (clock : Int) {head : Item} (hp : q.ackQueue.queue.peek = some head) :
    ∃ b' q' store', Queue.timeouts cfg b.config.name head.id q store = some (.ok (), q', store') ∧ Refines name b' q' store' ∧
      DelayedQueue.Taken q.ackQueue head q'.ackQueue ∧ ∀ next, q'.ackQueue.peekReadyItem clock = some next →
        next.id ≠ head.id := by
  obtain ⟨msg, hr, hg⟩ := h.record_of_ack (DelayedQueue.mem_of_peek hp)
  obtain ⟨⟨r, q', store'⟩, heq, b', _, hok, href, _, htaken⟩ := h.ackTimeout_in_flight hr
  have hok : r = .ok () := hok
  subst hok
  rw [← hg] at htaken
  refine ⟨b', q', store', heq, href, htaken, fun next hn hid => ?_⟩
  have hnd := h.exact.nodup
  unfold PriorityMemoryQueue.ids at hnd
  rw [htaken.shrunk.held, Multiset.map_cons, ← hid] at hnd
  exact (Multiset.nodup_cons.mp hnd).1 (Multiset.mem_map_of_mem _ (DelayedQueue.mem_of_peekReadyItem hn))

/-- The sweep takes the due items at the front of the order. -/
theorem expireAcks (h : Refines name b q store) {fuel : Nat} (hfuel : q.ackQueue.len < fuel) :
    Returns (Queue.expireAcks (Queue.timeouts cfg) clock fuel q store) fun r => ∃ b', Refines name b' r.1 r.2 ∧
      r.1.ackQueue.held = (q.ackQueue.order.dropWhile fun it => it.priority ≤ clock : List Item) := by
  induction fuel generalizing b q store with
  | zero => omega
  | succ fuel ih =>
    unfold Queue.expireAcks
    cases hp : q.ackQueue.queue.peek with
    | none =>
      rw [DelayedQueue.peekReadyItem_none hp]
      refine .intro ⟨b, h, ?_⟩
      rw [← DelayedQueue.order_held h.exact, DelayedQueue.order_empty hp]
      rfl
    | some head =>
      obtain ⟨b', q', store', heq, href, htaken, hnext⟩ := h.expire_head clock hp
      have hcons := DelayedQueue.order_cons hp htaken
      rw [DelayedQueue.peekReadyItem_some hp]
      by_cases hdue : head.priority > clock
      · rw [if_pos hdue]
        refine .intro ⟨b, h, ?_⟩
        rw [hcons, List.dropWhile_cons_of_neg (by simpa using hdue), ← hcons, DelayedQueue.order_held h.exact]
      · rw [if_neg hdue, hcons, List.dropWhile_cons_of_pos (by simpa using hdue)]
        have hlen := htaken.len
        refine .bind_eq h.config_eq (.bind_eq heq ?_)
        dsimp only
        cases hn : q'.ackQueue.peekReadyItem clock with
        | none => exact ih href (by omega)
        | some next =>
          simp only [if_neg (hnext next hn)]
          exact ih href (by omega)

/-- What is left is what is not due, if nothing due is behind it. -/
theorem held_eq_filter_iff {order : List Item} {held : Multiset Item} (h : (order : Multiset Item) = held) :
    ((order.dropWhile fun it => it.priority ≤ clock : List Item) : Multiset Item) = held.filter (fun it => clock < it.priority) ↔
      Queue.DueFirst clock order := by
  rw [← h, Multiset.filter_coe]
  induction order generalizing held with
  | nil => simp [Queue.DueFirst]
  | cons it items ih =>
    by_cases hdue : it.priority ≤ clock
    · rw [Queue.dueFirst_cons_due hdue, List.dropWhile_cons_of_pos (by simpa using hdue),
        List.filter_cons_of_neg (by simpa using hdue)]
      exact ih rfl
    · rw [Queue.dueFirst_cons_not_due (by omega), List.dropWhile_cons_of_neg (by simpa using hdue)]
      constructor
      · intro heq x hx
        have hmem : x ∈ ((it :: items : List Item) : Multiset Item) := List.mem_cons_of_mem _ hx
        rw [heq, Multiset.mem_coe, List.mem_filter] at hmem
        simpa using hmem.2
      · intro hall
        rw [List.filter_eq_self.mpr]
        intro x hx
        rcases List.mem_cons.mp hx with rfl | hx
        · simpa using hdue
        · simpa using hall x hx

/-- A message that has left flight is ready or gone. -/
theorem released {q' : Queue} {store' : Store} {b' : Broker} (h : Refines name b q store) (h' : Refines name b' q' store')
    (hheld : q'.ackQueue.held = q.ackQueue.held.filter fun it => clock < it.priority) : Queue.Swept name clock q q' store' := by
  refine ⟨hheld, fun it hit hdue => ?_⟩
  match hr : b'.records it.id with
  | none => exact Or.inl (h'.lookup_none hr)
  | some ⟨msg, .ready⟩ => exact Or.inr ⟨_, h'.queue_eq, _, h'.mem_ready hr, rfl⟩
  | some ⟨msg, .inFlight d⟩ =>
    have hmem : ⟨it.id, d, msg.group⟩ ∈ q'.ackQueue.held := (h'.found hr).mem
    rw [hheld, Multiset.mem_filter] at hmem
    have heq : (⟨it.id, d, msg.group⟩ : Item) = it := h.exact.eq_of_id hmem.1 hit rfl
    rw [heq] at hmem
    omega

theorem sweep_exact_iff (h : Refines name b q store) (cfg : Config) (clock : Int) {fuel : Nat} (hfuel : q.ackQueue.len < fuel) :
    Returns (Queue.expireAcks (Queue.timeouts cfg) clock fuel q store)
        (fun r => Queue.Swept name clock q r.1 r.2 ↔ Queue.DueFirst clock q.ackQueue.order) ∧
      (q.ackQueue.queue.Heaped → (Queue.DueFirst clock q.ackQueue.order ↔
        (∀ it ∈ q.ackQueue.held, it.priority ≤ clock) ∨ ∀ it ∈ q.ackQueue.held, clock < it.priority)) := by
  refine ⟨(h.expireAcks hfuel).mono fun r hr => ?_, fun hh => Queue.dueFirst_heaped h.exact hh h.maxFirst clock⟩
  obtain ⟨b', href, hheld⟩ := hr
  rw [← held_eq_filter_iff (DelayedQueue.order_held h.exact), ← hheld]
  exact ⟨fun hs => hs.held, fun hs => h.released href hs⟩

/-- A delayed queue with the messages 1 and 2 in flight, due at 60 and at 70. -/
def twoInFlight : Go (Queue × Store) := do
  let (_, q, store) ← (Queue.created "jobs" "delayed" ⟨.unspecified, 0, 60, 0⟩).enqueue .empty ⟨60, true⟩ noFaults 1 "" 0 "" none
  let (_, q, store) ← q.enqueue store ⟨60, true⟩ noFaults 2 "" 0 "" none
  let (_, q, store) ← q.dequeue store ⟨60, true⟩ noFaults false 0 0
  let (_, q, store) ← q.dequeue store ⟨60, true⟩ noFaults false 0 10
  some (q, store)

theorem twoInFlight_refines : Returns twoInFlight fun r => ∃ b, Refines "jobs" b r.1 r.2 := by
  have h : Refines "jobs" _ (Queue.created "jobs" "delayed" ⟨.unspecified, 0, 60, 0⟩) .empty := .created rfl fun _ => rfl
  have henq : Follows "jobs" .empty
      ((Queue.created "jobs" "delayed" ⟨.unspecified, 0, 60, 0⟩).enqueue .empty ⟨60, true⟩ noFaults 1 "" 0 "" none) _ :=
    h.enqueue rfl trivial 0 "" none
  refine Returns.bind henq fun r hr => ?_
  obtain ⟨b, hb, h, _⟩ := hr
  obtain ⟨_, rfl⟩ := Prod.mk.inj (Option.some.inj hb)
  have henq : Follows "jobs" r.2.2 (r.2.1.enqueue r.2.2 ⟨60, true⟩ noFaults 2 "" 0 "" none) _ := h.enqueue rfl trivial 0 "" none
  refine Returns.bind henq fun r hr => ?_
  obtain ⟨b, _, h, _⟩ := hr
  have hdeq : Follows "jobs" r.2.2 (r.2.1.dequeue r.2.2 ⟨60, true⟩ noFaults false 0 0) _ := h.dequeue false 0 0
  refine Returns.bind hdeq fun r hr => ?_
  obtain ⟨b, _, h, _⟩ := hr
  have hdeq : Follows "jobs" r.2.2 (r.2.1.dequeue r.2.2 ⟨60, true⟩ noFaults false 0 10) _ := h.dequeue false 0 10
  refine Returns.bind hdeq fun r hr => ?_
  obtain ⟨b, _, h, _⟩ := hr
  exact .intro ⟨b, h⟩

/-- At 75 both messages are due and both are swept, at 50 none is. -/
theorem sweep_exact_two :
    Returns twoInFlight fun r => r.1.ackQueue.items = [⟨2, 70, "default"⟩, ⟨1, 60, "default"⟩] ∧ ∀ clock ∈ [75, 50],
      Returns (Queue.expireAcks (Queue.timeouts ⟨60, true⟩) clock 3 r.1 r.2) fun r' =>
        Queue.Swept "jobs" clock r.1 r'.1 r'.2 := by
  obtain ⟨r, hr, b, h⟩ := twoInFlight_refines
  have hr' : r = twoInFlight.get rfl := (Option.some.inj hr).symm
  have hlen : r.1.ackQueue.len = 2 := by rw [hr']; rfl
  have hitems : r.1.ackQueue.items = [⟨2, 70, "default"⟩, ⟨1, 60, "default"⟩] := by rw [hr']; rfl
  have horder : r.1.ackQueue.order = [⟨2, 70, "default"⟩, ⟨1, 60, "default"⟩] := by rw [hr']; rfl
  refine .of_eq hr ⟨hitems, fun clock hc => ?_⟩
  refine ((h.sweep_exact_iff ⟨60, true⟩ clock (by omega)).1).mono fun r' hiff => hiff.mpr ?_
  rw [horder]
  revert clock
  simp [Queue.DueFirst]

/-- At 65 the message due at 60 stays in flight behind the one due at 70. -/
theorem sweep_misses_due :
    (do let (q, store) ← twoInFlight
        let (q', _) ← Queue.expireAcks (Queue.timeouts ⟨60, true⟩) 65 3 q store
        some (q'.ackQueue.items)) = some [⟨2, 70, "default"⟩, ⟨1, 60, "default"⟩] := by
  decide

end Refines

end Doq
