/-
  Doq.Memory.DelayedWait — when a delayed queue is ready, and how long until then
  (`Dequeue` and `PeekReady` in `pkg/queue/memory/delayed_queue.go`, the wait of
  `DequeueStream` in `pkg/grpc/server.go`).

  A delayed queue gives out its head once the clock, in Unix seconds, has reached the head's
  priority. `PeekReady` looks at the same head and clock. The time that is left is a duration
  in nanoseconds, in 64 bits: some 292 years at most.

  Proved, for every state the methods lead to: `PeekReady` says ready exactly when `Dequeue`
  gives an item; and the wait it tells is right, and enough, exactly if the head is at most
  9223372036 seconds away. A priority in milliseconds is further away than that.
-/

import Doq.Lib.Run
import Doq.Memory.MemoryQueueProofs

namespace Doq.Memory

open Lib

namespace DelayedQueue

variable {pq pq' : DelayedQueue}

/-! ## The states of a delayed queue -/

inductive Op where
  | enqueue (item : Item)
  | dequeue (now : Int)
  | get (id : UInt64)
  | delete (id : UInt64)
  | updatePriority (id : UInt64) (priority : Int)
  deriving DecidableEq, Repr

def step (pq : DelayedQueue) : Op → Go (Option Item × DelayedQueue)
  | .enqueue item => some (none, pq.enqueue item)
  | .dequeue now => pq.dequeue now
  | .get id => (pq.get id).map (·, pq)
  | .delete id => pq.delete id
  | .updatePriority id priority => (pq.updatePriority id priority).map (none, ·)

/-- The earliest first, whatever ids were pushed. -/
structure Ordered (pq : DelayedQueue) : Prop where
  minFirst : pq.queue.minFirst = true
  sound : pq.queue.Sound
  heaped : pq.queue.Heaped

theorem new_ordered : Ordered (new true) := ⟨rfl, PriorityMemoryQueue.new_exact.toSound, PriorityMemoryQueue.new_heaped⟩

theorem Ordered.shrunk {it : Item} (h : Ordered pq) (hs : pq.queue.Shrunk it pq'.queue) : Ordered pq' :=
  ⟨hs.minFirst.trans h.minFirst, hs.sound h.sound, hs.heaped h.heaped⟩

theorem Ordered.step (h : Ordered pq) (op : Op) : Returns (pq.step op) fun r => Ordered r.2 := by
  cases op with
  | enqueue item =>
    have hg := PriorityMemoryQueue.heapPush_grown pq.queue item
    exact .intro ⟨hg.minFirst.trans h.minFirst, hg.sound h.sound, hg.heaped h.heaped⟩
  | dequeue now =>
    refine (dequeue_spec now).mono fun r hr => ?_
    obtain ⟨it, pq'⟩ := r
    cases it with
    | none => obtain ⟨rfl, _⟩ := hr; exact h
    | some it => exact h.shrunk hr.2.2.1
  | get id =>
    show Returns ((pq.get id).map _) _
    unfold DelayedQueue.get
    rcases h.sound.missing_or_found id with hm | ⟨it, hf⟩
    · rw [PriorityMemoryQueue.get_missing hm]; exact .intro h
    · rw [PriorityMemoryQueue.get_found hf]; exact .intro h
  | delete id =>
    show Returns (pq.delete id) _
    unfold DelayedQueue.delete
    rcases h.sound.missing_or_found id with hm | ⟨it, hf⟩
    · rw [PriorityMemoryQueue.delete_missing hm]; exact .intro h
    · obtain ⟨queue, hd, hs⟩ := PriorityMemoryQueue.delete_found hf h.sound
      rw [hd]
      exact .intro (h.shrunk hs)
  | updatePriority id priority =>
    show Returns ((pq.updatePriority id priority).map _) _
    unfold DelayedQueue.updatePriority
    rcases h.sound.missing_or_found id with hm | ⟨it, hf⟩
    · rw [PriorityMemoryQueue.updatePriority_missing hm]; exact .intro h
    · obtain ⟨queue, hu, hr, hheap⟩ := PriorityMemoryQueue.updatePriority_found hf priority
      rw [hu]
      exact .intro ⟨hr.minFirst.trans h.minFirst, hr.sound h.sound, hheap h.heaped⟩

theorem Runs.ordered {events : List (Event DelayedQueue Op (Option Item))} (hrun : Run step (new true) events pq) : Ordered pq :=
  hrun.keeps (fun e _ hs h => (h.step e.input).result hs) new_ordered

/-! ## The head decides -/

/-- The head is the earliest item, and both methods look at it. -/
theorem Ordered.head (h : Ordered pq) :
    (pq.held = 0 ∧ pq.queue.peek = none) ∨
      ∃ x ∈ pq.held, (∀ y ∈ pq.held, x.priority ≤ y.priority) ∧ pq.queue.peek = some x := by
  cases hp : pq.queue.peek with
  | none =>
    have hlen := peek_none hp
    rw [PriorityMemoryQueue.len_eq_card, Multiset.card_eq_zero] at hlen
    exact Or.inl ⟨hlen, rfl⟩
  | some x =>
    have hpos : 0 < pq.queue.items.size := (Array.getElem?_eq_some_iff.mp hp).1
    obtain ⟨head, queue, hx, _, hs, hfirst⟩ := PriorityMemoryQueue.heapPop_spec hpos
    obtain rfl : head = x := Option.some.inj (hx.symm.trans hp)
    refine Or.inr ⟨head, ?_, fun y hy => ?_, rfl⟩
    · unfold DelayedQueue.held
      rw [hs.held]
      exact Multiset.mem_cons_self head _
    · have hle := hfirst h.heaped y hy
      rw [h.minFirst] at hle
      rcases PriorityMemoryQueue.not_before_iff.mp hle with hlt | ⟨heq, _⟩ <;> omega

theorem dequeue_iff {now : Int} :
    (∃ it pq', pq.dequeue now = some (some it, pq')) ↔ ∃ x, pq.queue.peek = some x ∧ x.priority ≤ now := by
  obtain ⟨⟨it, pq'⟩, hd, hspec⟩ : Returns (pq.dequeue now) _ := dequeue_spec now
  rw [hd]
  cases it with
  | none => exact iff_of_false (by simp) fun ⟨x, hx, hle⟩ => absurd (hspec.2 x hx) (by omega)
  | some it => exact iff_of_true ⟨it, pq', rfl⟩ ⟨it, hspec.1, hspec.2.1⟩

theorem peekReady_fst {clock : Int} : (pq.peekReady clock).1 = true ↔ ∃ x, pq.queue.peek = some x ∧ x.priority ≤ clock := by
  unfold peekReady
  cases hp : pq.queue.peek with
  | none => simp
  | some x =>
    simp only [Option.some.injEq, exists_eq_left']
    split
    · exact iff_of_false Bool.false_ne_true (by omega)
    · exact iff_of_true rfl (by omega)

theorem Ordered.peekReady_iff (h : Ordered pq) (clock : Int) :
    (pq.peekReady clock).1 = true ↔ ∃ it ∈ pq.held, it.priority ≤ clock := by
  rw [peekReady_fst]
  rcases h.head with ⟨h0, hp⟩ | ⟨x, hx, hleast, hp⟩
  · rw [hp, h0]
    exact iff_of_false (fun ⟨_, he, _⟩ => by cases he) fun ⟨it, hit, _⟩ => Multiset.notMem_zero it hit
  · rw [hp]
    constructor
    · rintro ⟨y, hy, hle⟩
      cases hy
      exact ⟨x, hx, hle⟩
    · rintro ⟨y, hy, hle⟩
      exact ⟨x, rfl, Int.le_trans (hleast y hy) hle⟩

/-! ## The wait -/

/-- A priority, or a time in Unix seconds, as the code holds it. -/
def IsInt64 (v : Int) : Prop := -2 ^ 63 ≤ v ∧ v < 2 ^ 63

theorem wrap64_of_isInt64 {v : Int} (h : IsInt64 v) : wrap64 v = v := by
  unfold IsInt64 at h
  unfold wrap64
  omega

theorem isInt64_wrap64 (v : Int) : IsInt64 (wrap64 v) := by
  unfold IsInt64 wrap64
  omega

def emptyQueuePollInterval : Int := 1000000000

/-- How long `DequeueStream` sleeps after an empty `Dequeue`. -/
def streamWait (nextReadyIn : Int) : Int :=
  if 0 < nextReadyIn ∧ nextReadyIn < emptyQueuePollInterval then nextReadyIn else emptyQueuePollInterval

/-- `Dequeue` gives an item at this time. -/
def DueAt (pq : DelayedQueue) (clock : Int) : Prop := ∃ it pq', pq.dequeue clock = some (some it, pq')

/-- `PeekReady` mirrors `Dequeue` at a clock value: it says ready exactly when there is an item
    to give out, and otherwise tells the time to the earliest item, at which there is one. -/
structure Mirrors (pq : DelayedQueue) (clock : Int) : Prop where
  ready : pq.peekReady clock = (true, 0) ↔ pq.DueAt clock
  empty : pq.held = 0 → pq.peekReady clock = (false, 0)
  wait : ∀ x ∈ pq.held, (∀ y ∈ pq.held, x.priority ≤ y.priority) → ¬ pq.DueAt clock →
    (pq.peekReady clock).1 = false ∧ 0 < (pq.peekReady clock).2 ∧ (pq.peekReady clock).2 = (x.priority - clock) * 1000000000 ∧
      pq.DueAt (clock + (pq.peekReady clock).2 / 1000000000)
  stream : streamWait (pq.peekReady clock).2 ≠ emptyQueuePollInterval →
    pq.DueAt (clock + streamWait (pq.peekReady clock).2 / 1000000000)

theorem dueAt_of_head {x : Item} (hp : pq.queue.peek = some x) (clock : Int) : pq.DueAt clock ↔ x.priority ≤ clock := by
  unfold DueAt
  rw [dequeue_iff, hp]
  simp

theorem peekReady_of_head {x : Item} (hp : pq.queue.peek = some x) (clock : Int) :
    pq.peekReady clock = if x.priority > clock then (false, wrap64 (wrap64 (x.priority - clock) * 1000000000))
      else (true, 0) := by
  unfold peekReady
  rw [hp]

/-- Nothing to wait for. -/
theorem Mirrors.of_idle {clock : Int} (hready : pq.peekReady clock = (true, 0) ↔ pq.DueAt clock)
    (hempty : pq.held = 0 → pq.peekReady clock = (false, 0)) (hnone : pq.held = 0 ∨ pq.DueAt clock)
    (hzero : (pq.peekReady clock).2 = 0) : Mirrors pq clock where
  ready := hready
  empty := hempty
  wait x hx _ hdue := by
    rcases hnone with h0 | hd
    · rw [h0] at hx
      exact absurd hx (Multiset.notMem_zero x)
    · exact absurd hd hdue
  stream hne := by
    rw [hzero] at hne
    exact absurd rfl hne

/-- A head in the future, near enough. -/
theorem Mirrors.of_near {x : Item} {clock : Int} (hp : pq.queue.peek = some x) (hx : x ∈ pq.held) (hlt : clock < x.priority)
    (hdur : wrap64 (wrap64 (x.priority - clock) * 1000000000) = (x.priority - clock) * 1000000000)
    (hleast : ∀ y ∈ pq.held, x.priority ≤ y.priority) : Mirrors pq clock := by
  have hpeek : pq.peekReady clock = (false, (x.priority - clock) * 1000000000) := by
    rw [peekReady_of_head hp, if_pos hlt, hdur]
  have hnot : ¬ pq.DueAt clock := fun hd => absurd ((dueAt_of_head hp clock).mp hd) (by omega)
  refine ⟨iff_of_false (by rw [hpeek]; simp) hnot, fun h0 => ?_, fun y hy hly _ => ?_, fun hne => ?_⟩
  · rw [h0] at hx
    exact absurd hx (Multiset.notMem_zero x)
  · have hxy : y.priority = x.priority := Int.le_antisymm (hly x hx) (hleast y hy)
    rw [hpeek, dueAt_of_head hp]
    exact ⟨rfl, by simp only; omega, by rw [hxy], by simp only; omega⟩
  · -- a wait of whole seconds is never shorter than the interval
    rw [hpeek] at hne
    refine absurd (if_neg fun hc => ?_) hne
    have := hc.2
    unfold emptyQueuePollInterval at this
    simp only at this
    omega

/-- The longest duration, in whole seconds. -/
def maxSeconds : Int := 9223372036

/-- `PeekReady` mirrors `Dequeue` exactly while the head is no further away than a duration can
    tell. -/
theorem mirrors_dequeue_iff {events : List (Event DelayedQueue Op (Option Item))} (hrun : Run step (new true) events pq)
    (hint : ∀ it ∈ pq.held, IsInt64 it.priority) {clock : Int} (hpos : 0 ≤ clock) :
    Mirrors pq clock ↔ ∀ x ∈ pq.held, (∀ y ∈ pq.held, x.priority ≤ y.priority) → x.priority - clock ≤ maxSeconds := by
  rcases (Runs.ordered hrun).head with ⟨h0, hp⟩ | ⟨x, hx, hleast, hp⟩
  · have hpeek : pq.peekReady clock = (false, 0) := by unfold peekReady; rw [hp]
    have hnot : ¬ pq.DueAt clock := fun hd => by
      obtain ⟨y, hy, _⟩ := dequeue_iff.mp hd
      rw [hp] at hy
      cases hy
    refine iff_of_true (.of_idle (iff_of_false (by rw [hpeek]; simp) hnot) (fun _ => hpeek) (Or.inl h0)
      (by rw [hpeek])) fun y hy => ?_
    rw [h0] at hy
    exact absurd hy (Multiset.notMem_zero y)
  · by_cases hle : x.priority ≤ clock
    · have hpeek : pq.peekReady clock = (true, 0) := by rw [peekReady_of_head hp, if_neg (by omega)]
      have hdue := (dueAt_of_head hp clock).mpr hle
      refine iff_of_true (.of_idle (iff_of_true hpeek hdue) (fun h0 => ?_) (Or.inr hdue) (by rw [hpeek])) fun y _ hly => ?_
      · rw [h0] at hx
        exact absurd hx (Multiset.notMem_zero x)
      · have := hly x hx
        unfold maxSeconds
        omega
    · have hlt : clock < x.priority := by omega
      have hrange := hint x hx
      have hdiff : wrap64 (x.priority - clock) = x.priority - clock := wrap64_of_isInt64 (by unfold IsInt64 at hrange ⊢; omega)
      have hpeek : pq.peekReady clock = (false, wrap64 ((x.priority - clock) * 1000000000)) := by
        rw [peekReady_of_head hp, if_pos hlt, hdiff]
      constructor
      · intro hm y hy hly
        have hnot : ¬ pq.DueAt clock := fun hd => absurd ((dueAt_of_head hp clock).mp hd) hle
        have hwait : wrap64 ((x.priority - clock) * 1000000000) = _ := hpeek ▸ (hm.wait x hx hleast hnot).2.2.1
        -- a duration in 64 bits
        have hbound := isInt64_wrap64 ((x.priority - clock) * 1000000000)
        rw [hwait] at hbound
        have := hly x hx
        unfold IsInt64 at hbound
        unfold maxSeconds
        omega
      · intro hnear
        have := hnear x hx hleast
        unfold maxSeconds at this
        refine .of_near hp hx hlt ?_ hleast
        rw [hdiff]
        exact wrap64_of_isInt64 (by unfold IsInt64; omega)

/-- Three messages, the second due first, in an hour. -/
def nextHour : List Op := [.enqueue ⟨1, 1700007200, ""⟩, .enqueue ⟨2, 1700003600, ""⟩, .enqueue ⟨3, 1700010800, ""⟩]

theorem nextHour_runs : (exec step (new true) nextHour).isSome := rfl

theorem mirrors_dequeue_hour :
    let pq := ((exec step (new true) nextHour).get nextHour_runs).2
    Mirrors pq 1700000000 ∧ pq.peekReady 1700000000 = (false, 3600000000000) := by
  intro pq
  have hheld : pq.held = {⟨2, 1700003600, ""⟩, ⟨1, 1700007200, ""⟩, ⟨3, 1700010800, ""⟩} := by decide +kernel
  refine ⟨(mirrors_dequeue_iff (Run.of_exec_isSome nextHour_runs) ?_ (by decide)).mpr ?_, by decide +kernel⟩
  · show ∀ it ∈ pq.held, IsInt64 it.priority
    rw [hheld]
    unfold IsInt64
    decide
  · show ∀ x ∈ pq.held, (∀ y ∈ pq.held, x.priority ≤ y.priority) → x.priority - 1700000000 ≤ maxSeconds
    rw [hheld]
    decide

/-- A priority in milliseconds: the duration wraps, and the message is not due at its end. One
    in seconds, 293 years ahead: the duration is negative. -/
theorem milliseconds_wrap :
    (let pq := (new true).enqueue ⟨1, 1700000000000, ""⟩
     pq.peekReady 1700000000 = (false, 1199545218721251328) ∧ ¬ pq.DueAt (1700000000 + 1199545218721251328 / 1000000000) ∧
      ¬ pq.Mirrors 1700000000) ∧
    ((new true).enqueue ⟨1, 10923372037, ""⟩).peekReady 1700000000 = (false, -9223372036709551616) := by
  refine ⟨?_, by decide +kernel⟩
  intro pq
  have hpeek : pq.queue.peek = some ⟨1, 1700000000000, ""⟩ := by decide +kernel
  have hready : pq.peekReady 1700000000 = (false, 1199545218721251328) := by decide +kernel
  have hheld : pq.held = {⟨1, 1700000000000, ""⟩} := by decide +kernel
  have hlate : ¬ pq.DueAt (1700000000 + 1199545218721251328 / 1000000000) := by rw [dueAt_of_head hpeek]; decide
  refine ⟨hready, hlate, fun hm => ?_⟩
  have hwait := hm.wait ⟨1, 1700000000000, ""⟩ (by rw [hheld]; exact Multiset.mem_singleton_self _)
    (by rw [hheld]; intro y hy; rw [Multiset.mem_singleton.mp hy]) (by rw [dueAt_of_head hpeek]; decide)
  rw [hready] at hwait
  exact hlate hwait.2.2.2

end DelayedQueue

end Doq.Memory
