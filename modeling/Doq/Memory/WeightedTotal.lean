/-
  Doq.Memory.WeightedTotal — every call of the weighted queue returns, in any order and with
  any arguments (see `Doq.Memory.Weighted`, `Doq.Memory.WeightedProofs`).

  The counters, the heaps and the weight tree are pruned under different conditions:
  `Dequeue` and `Delete` drop a group with a counter of zero, `UpdateWeights` one with a
  counter of zero or less. What keeps them together is one direction only: a counter has a
  heap, and a weight other than zero has a message.

  Proved: `calls_total`, over every run of calls.
-/

import Doq.Lib.Run
import Doq.Memory.WeightedProofs

namespace Doq.Memory.FairWeightedQueue

open Lib WeightedAvl

/-- The calls that read a heap or write; `Len` and `PeekReady` only read the maps. An item may
    be enqueued under a group that is not its own. -/
inductive Call where
  | enqueue (group : String) (item : Item)
  | dequeue (ack : Bool) (seed : UInt64)
  | get (group : String) (id : UInt64)
  | delete (group : String) (id : UInt64)
  | updatePriority (group : String) (id : UInt64) (priority : Int)
  | updateWeights (group : String)
  | markUnacked (group : String)
  | updateMaxUnacked (maxUnacked : Int)
  deriving DecidableEq, Repr

/-- The limit a call sets. -/
def Call.limit : Call → Option Int
  | updateMaxUnacked maxUnacked => some maxUnacked
  | _ => none

/-- An item is enqueued under its own group. -/
def Call.Own : Call → Prop
  | enqueue group item => item.group = group
  | _ => True

instance : (c : Call) → Decidable c.Own
  | .enqueue group item => inferInstanceAs (Decidable (item.group = group))
  | .dequeue .. | .get .. | .delete .. | .updatePriority .. | .updateWeights _ | .markUnacked _ | .updateMaxUnacked _ =>
    isTrue trivial

variable {ar : Arithmetic}

def call (fq : FairWeightedQueue ar) : Call → Go (Option Item × FairWeightedQueue ar)
  | .enqueue group item => (fq.enqueue group item).map (none, ·)
  | .dequeue ack seed => fq.dequeue ack seed
  | .get group id => (fq.get group id).map (·, fq)
  | .delete group id => fq.delete group id
  | .updatePriority group id priority => (fq.updatePriority group id priority).map (none, ·)
  | .updateWeights group => (fq.updateWeights group).map (none, ·)
  | .markUnacked group => (fq.markUnacked group).map (none, ·)
  | .updateMaxUnacked maxUnacked => some (none, fq.updateMaxUnacked maxUnacked)

variable {fq fq' : FairWeightedQueue ar} {c : Call} {m : Int}
    {events : List (Event (FairWeightedQueue ar) Call (Option Item))} {own : Prop}

theorem get_returns (h : SafeIf own fq none) (group : String) (id : UInt64) : Returns (fq.get group id) fun _ => True := by
  unfold FairWeightedQueue.get
  cases hq : fq.queues.lookup group with
  | none => exact .intro trivial
  | some queue =>
    rcases (h.queue group queue hq).sound.missing_or_found id with hm | ⟨it, hf⟩
    · exact .of_eq (PriorityMemoryQueue.get_missing hm) trivial
    · exact .of_eq (PriorityMemoryQueue.get_found hf) trivial

/-- What a call keeps that does not set a limit. -/
structure Kept (own : Prop) (fq fq' : FairWeightedQueue ar) : Prop where
  safe : SafeIf own fq' none
  max : fq'.maxUnacked = fq.maxUnacked
  synced : Synced fq none → Synced fq' none

theorem Effect.kept {ready' : Multiset Item} {unacked' : String → Int} {proper : Prop}
    (h : Effect own fq fq' ready' unacked' proper) : Kept own fq fq' :=
  ⟨h.safe, h.max, h.synced⟩

theorem kept_same (h : SafeIf own fq none) : Kept own fq fq := ⟨h, rfl, fun hs => hs⟩

theorem call_spec (h : SafeIf own fq none) (hown : own → c.Own) (hc : c.limit = none) :
    Returns (fq.call c) fun r => Kept own fq r.2 := by
  cases c with
  | enqueue group item => exact (enqueue_spec h hown).map fun _ he => he.kept
  | dequeue ack seed =>
    refine (dequeue_pops h ack seed).mono fun r hr => ?_
    cases hi : r.1 with
    | none => rw [hi] at hr; rw [hr.1]; exact kept_same h
    | some it =>
      rw [hi] at hr
      obtain ⟨_, _, _, _, _, _, _, he⟩ := hr
      exact he.kept
  | get group id => exact (get_returns h group id).map fun _ _ => kept_same h
  | delete group id =>
    refine (delete_takes h group id).mono fun r hr => ?_
    cases hi : r.1 with
    | none => rw [hi] at hr; rw [hr.1]; exact kept_same h
    | some it =>
      rw [hi] at hr
      obtain ⟨_, _, _, he⟩ := hr
      exact he.kept
  | updatePriority group id priority => exact (updatePriority_writes h group id priority).map fun _ he => he.1.kept
  | updateWeights group => exact (updateWeights_spec h group).map fun _ he => he.kept
  | markUnacked group => exact (markUnacked_spec h group).map fun _ he => he.kept
  | updateMaxUnacked l => cases hc

/-- One call: it returns, and leaves the maps and the tree together. -/
theorem call_returns (h : SafeIf own fq none) (hown : own → c.Own) (hc : ∀ l ∈ c.limit, ValidLimit l) :
    Returns (fq.call c) fun r => SafeIf own r.2 none := by
  cases hl : c.limit with
  | none => exact (call_spec h hown hl).mono fun _ hk => hk.safe
  | some l =>
    cases c <;> cases hl
    exact .intro (updateMaxUnacked_spec h (hc l rfl)).1

/-- The items of a group's heap. -/
def heldBy (fq : FairWeightedQueue ar) (group : String) : Multiset Item := (fq.queueOf group).held

/-- What holds in a state from which every call returns. -/
structure Total (fq : FairWeightedQueue ar) : Prop where
  counted : ∀ g count, fq.unackedByGroup.lookup g = some count → ∃ queue, fq.queues.lookup g = some queue
  backed : ∀ g w, fq.weights.get g = some w → 0 < w → ∃ queue, fq.queues.lookup g = some queue ∧ 0 < queue.len
  weights : ∀ g w, fq.weights.get g = some w → 0 ≤ w
  sum : 0 ≤ fq.weights.sum
  modulus : fq.weights.sum ≠ 0 → 0 < fq.weights.sum.toNat
  returns : ∀ c : Call, (∀ l ∈ c.limit, ValidLimit l) → ∃ r, fq.call c = some r
  taken : ∀ ack seed it fq', fq.dequeue ack seed = some (some it, fq') →
    fq.heldBy (fq.weights.sample seed) = it ::ₘ fq'.heldBy (fq.weights.sample seed) ∧
      (∀ y ∈ fq.heldBy (fq.weights.sample seed), it.priority < y.priority ∨ it.priority = y.priority ∧ it.id ≤ y.id) ∧
      ∀ g, g ≠ fq.weights.sample seed → fq'.heldBy g = fq.heldBy g

theorem SafeIf.total (h : SafeIf False fq none) : Total fq := by
  have hget : ∀ {g w}, fq.weights.get g = some w → (g, w) ∈ fq.weights.root.toList := (Node.get_eq_some h.valid).mp
  have hsum : 0 ≤ fq.weights.sum := by
    unfold WeightedAVL.sum
    rw [h.valid.sum_eq]
    refine List.sum_nonneg fun w hw => ?_
    obtain ⟨e, he, rfl⟩ := List.mem_map.mp hw
    exact h.weight e he
  constructor
  case counted => exact h.kept
  case backed => exact fun g w hw hpos => h.backed (g, w) (hget hw) nofun (by omega)
  case weights => exact fun g w hw => h.weight (g, w) (hget hw)
  case sum => exact hsum
  case modulus => intro hne; omega
  case returns =>
    intro c hc
    obtain ⟨r, hr, _⟩ := call_returns h nofun hc
    exact ⟨r, hr⟩
  case taken =>
    intro ack seed it fq' hd
    obtain ⟨_, _, hleast, hheld, hother, _⟩ := (dequeue_pops h ack seed).result hd
    exact ⟨hheld, fun y hy => PriorityMemoryQueue.not_before_iff.mp (hleast y hy), hother⟩

theorem calls_total (hm : ValidLimit m) (hrun : Run call (new m) events fq)
    (hlimits : ∀ e ∈ events, ∀ l ∈ e.input.limit, ValidLimit l) :
    Total fq := by
  have h := hrun.keeps (I := fun fq => SafeIf False fq none)
    (fun e he hs h => (call_returns h nofun (hlimits e he)).result hs) (new_safe hm)
  exact h.total

/-- Releases of groups that have nothing in flight, of one that never had, and a message under
    another group's name. -/
def unmatchedCalls : List Call :=
  [.enqueue "a" ⟨1, 0, "b"⟩, .updateWeights "a", .markUnacked "c", .dequeue false 5, .updateWeights "a", .updateWeights "a",
    .updateWeights "c", .updateWeights "c", .delete "a" 1, .updateMaxUnacked 3]

theorem unmatchedCalls_run : (exec call (new 1 : FairWeightedQueue) unmatchedCalls).isSome := by decide +kernel

theorem calls_total_unmatched : Total ((exec call (new 1) unmatchedCalls).get unmatchedCalls_run).2 :=
  calls_total (by decide) (Run.of_exec_isSome unmatchedCalls_run) (by decide +kernel)

end Doq.Memory.FairWeightedQueue
