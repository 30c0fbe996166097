/-
  Doq.Queue.Writes — what each method of a queue writes to the store (see `Doq.Queue.Queue`).

  `shelf name store` is what is stored under the name of a queue. Each method changes it in at
  most one place, and what it writes there is determined by what was stored and by the result.
  Which message `Dequeue` picks and whether a message is in flight is up to memory; what is
  written then is not.
-/

import Doq.Queue.Safety
import Mathlib.Logic.Function.Basic

namespace Doq

open Lib Memory Storage

/-- The messages stored for a queue, by id. -/
abbrev Shelf := UInt64 → Option Message

def Storage.shelf (name : String) (store : Store) : Shelf := fun id => store.messages.lookup (name, id)

namespace Storage

variable {name : String} {store : Store} {id : UInt64}

theorem shelf_insert (msg : Message) :
    shelf name { store with messages := store.messages.insert (name, id) msg } =
      Function.update (shelf name store) id (some msg) := by
  funext i
  simp only [shelf, FinMap.lookup_insert_eq, Function.update_apply, Prod.mk.injEq, true_and]

theorem shelf_erase :
    shelf name { store with messages := store.messages.erase (name, id) } = Function.update (shelf name store) id none := by
  funext i
  simp only [shelf, FinMap.lookup_erase_eq, Function.update_apply, Prod.mk.injEq, true_and]

end Storage

/-- What a failed delivery leaves of a message: nothing once the limit is reached, otherwise the
    message with the caller's priority and metadata, where there are any. -/
def Message.afterFailure (limit : UInt32) (priority : Int) (metadata : Option Metadata) (msg : Message) : Option Message :=
  if limit > 0 ∧ msg.deliveryCount ≥ limit then none
  else some { msg with
    priority := if priority ≠ 0 then priority else msg.priority
    metadata := if metadata.isSome then metadata else msg.metadata }

/-- A method that failed wrote nothing. -/
def Wrote {α : Type} (store store' : Store) (P : α → Prop) : Except Err α → Prop
  | .error _ => store' = store
  | .ok a => P a

namespace Queue

variable {config : QueueConfig} {q q' : Queue} {store store' : Store} {cfg : Config} {id : UInt64}

theorem enqueue_writes (hc : q.config = some config) {group content : String} {priority : Int} {metadata : Option Metadata}
    {r : Except Err Message} (h : q.enqueue store cfg noFaults id group priority content metadata = some (r, q', store')) :
    r = .ok ⟨groupFor config group, id, priority, content, metadata, 0⟩ ∧
      shelf config.name store' =
        Function.update (shelf config.name store) id (some ⟨groupFor config group, id, priority, content, metadata, 0⟩) := by
  simp only [enqueue, hc, Store.enqueue, noFaults, Bool.false_eq_true, if_false, Option.bind_eq_bind, Option.bind_some] at h
  obtain ⟨queue, _, h⟩ := Option.bind_eq_some_iff.mp h
  obtain ⟨item, _, h⟩ := Option.bind_eq_some_iff.mp h
  cases item with
  | some item => cases h; exact ⟨rfl, shelf_insert _⟩
  | none =>
    obtain ⟨queue', _, h⟩ := Option.bind_eq_some_iff.mp h
    obtain ⟨u, _, h⟩ := Option.bind_eq_some_iff.mp h
    cases h; exact ⟨rfl, shelf_insert _⟩

theorem dequeue_writes (hc : q.config = some config) (hk : Keyed config.name store) {acked : Bool} {seed : UInt64} {now : Int}
    {r : Except Err Message} (h : q.dequeue store cfg noFaults acked seed now = some (r, q', store')) :
    Wrote store store' (fun msg => ∃ old, shelf config.name store msg.id = some old ∧
      msg = { old with deliveryCount := old.deliveryCount + 1 } ∧
      shelf config.name store' = Function.update (shelf config.name store) msg.id (if acked then none else some msg)) r := by
  unfold dequeue at h
  obtain ⟨queue, _, h⟩ := Option.bind_eq_some_iff.mp h
  split at h
  · cases h; rfl
  obtain ⟨⟨item, queue'⟩, _, h⟩ := Option.bind_eq_some_iff.mp h
  cases item with
  | none => cases h; rfl
  | some item =>
    simp only [hc, Option.bind_eq_bind, Option.bind_some] at h
    cases hm : store.messages.lookup (config.name, item.id) with
    | none => rw [Store.dequeue_none hm] at h; cases h; rfl
    | some old =>
      have hid : old.id = item.id := hk _ _ hm
      cases acked with
      | true =>
        rw [Store.dequeue_acked hm] at h
        obtain ⟨u, _, h⟩ := Option.bind_eq_some_iff.mp h
        cases h
        exact ⟨old, hid ▸ hm, rfl, hid ▸ shelf_erase⟩
      | false =>
        rw [Store.dequeue_unacked hm] at h
        obtain ⟨u, _, h⟩ := Option.bind_eq_some_iff.mp h
        cases h
        exact ⟨old, hid ▸ hm, rfl, hid ▸ shelf_insert _⟩

theorem get_reads (hc : q.config = some config) {r : Except Err Message} (h : q.get store noFaults id = some r) :
    r = match shelf config.name store id with
      | none => .error .messageNotFound
      | some msg => .ok msg := by
  simp only [get, hc, Option.bind_eq_bind, Option.bind_some, Option.some.injEq] at h
  subst h
  unfold shelf
  cases hm : store.messages.lookup (config.name, id) with
  | none => exact Store.get_none hm
  | some msg => exact Store.get_some hm

theorem delete_writes (hc : q.config = some config) (hk : Keyed config.name store) {r : Except Err Unit}
    (h : q.delete store noFaults id = some (r, q', store')) :
    (r = match shelf config.name store id with
      | none => .error .messageNotFound
      | some _ => .ok ()) ∧
    shelf config.name store' = Function.update (shelf config.name store) id none := by
  unfold delete at h
  simp only [hc, Option.bind_eq_bind, Option.bind_some] at h
  cases hm : store.messages.lookup (config.name, id) with
  | none =>
    rw [Store.delete_none hm] at h
    cases h
    have hnone : shelf config.name store id = none := hm
    refine ⟨by rw [hnone], ?_⟩
    rw [Function.update_eq_self_iff.mpr hnone.symm]
  | some msg =>
    rw [Store.delete_some hm] at h
    obtain ⟨queue, _, h⟩ := Option.bind_eq_some_iff.mp h
    obtain ⟨r', _, h⟩ := Option.bind_eq_some_iff.mp h
    obtain ⟨q₁, _, h⟩ := Option.bind_eq_some_iff.mp h
    cases h
    have hsome : shelf config.name store id = some msg := hm
    exact ⟨by rw [hsome], hk _ _ hm ▸ shelf_erase⟩

theorem ack_writes (hc : q.config = some config) {r : Except Err Unit} (h : q.ack store cfg noFaults id = some (r, q', store')) :
    Wrote store store' (fun _ => shelf config.name store' = Function.update (shelf config.name store) id none) r := by
  unfold ack at h
  obtain ⟨item, _, h⟩ := Option.bind_eq_some_iff.mp h
  cases item with
  | none => cases h; rfl
  | some item =>
    simp only [hc, Option.bind_eq_bind, Option.bind_some] at h
    obtain ⟨released, _, h⟩ := Option.bind_eq_some_iff.mp h
    cases released with
    | error e => cases h; rfl
    | ok q₁ =>
      simp only [Store.ack, noFaults, Bool.false_eq_true, if_false] at h
      obtain ⟨r', _, h⟩ := Option.bind_eq_some_iff.mp h
      obtain ⟨u, _, h⟩ := Option.bind_eq_some_iff.mp h
      cases h
      exact shelf_erase

theorem touch_writes {now : Int} {r : Except Err Unit} (h : q.touch store id now = some (r, q', store')) : store' = store := by
  unfold touch at h
  obtain ⟨item, _, h⟩ := Option.bind_eq_some_iff.mp h
  cases item with
  | none => cases h; rfl
  | some item =>
    obtain ⟨c, _, h⟩ := Option.bind_eq_some_iff.mp h
    obtain ⟨aq, _, h⟩ := Option.bind_eq_some_iff.mp h
    cases h; rfl

theorem updatePriority_writes (hc : q.config = some config) {priority : Int} {r : Except Err Unit}
    (h : q.updatePriority store noFaults id priority = some (r, q', store')) :
    Wrote store store' (fun _ => shelf config.name store' = Function.update (shelf config.name store) id
      ((shelf config.name store id).map fun msg => { msg with priority := priority })) r := by
  unfold updatePriority at h
  simp only [hc, Option.bind_eq_bind, Option.bind_some] at h
  cases hm : store.messages.lookup (config.name, id) with
  | none => rw [Store.get_none hm] at h; cases h; rfl
  | some msg =>
    rw [Store.get_some hm] at h
    obtain ⟨queue, _, h⟩ := Option.bind_eq_some_iff.mp h
    obtain ⟨place, _, h⟩ := Option.bind_eq_some_iff.mp h
    cases place with
    | none => cases h; rfl
    | some place =>
      simp only [Store.updatePriority_some hm] at h
      obtain ⟨q₁, _, h⟩ := Option.bind_eq_some_iff.mp h
      obtain ⟨queue₁, _, h⟩ := Option.bind_eq_some_iff.mp h
      obtain ⟨queue₂, _, h⟩ := Option.bind_eq_some_iff.mp h
      cases h
      have hsome : shelf config.name store id = some msg := hm
      rw [hsome]
      exact shelf_insert _

/-- The stored message is removed exactly when the limit is reached, and nothing else is written. -/
theorem redeliverOrDrop_writes (hc : q.config = some config) (hk : Keyed config.name store) {message : Message}
    (hm : shelf config.name store message.id = some message) {newPriority : Int} {r : Except Err Bool}
    (h : q.redeliverOrDrop store noFaults config message newPriority = some (r, q', store')) (priority : Int)
    (metadata : Option Metadata) :
    (r = .ok true ∧ shelf config.name store' = Function.update (shelf config.name store) message.id
      (message.afterFailure config.settings.deliveryLimit priority metadata)) ∨
    r = .ok false ∧ store' = store ∧ message.afterFailure config.settings.deliveryLimit priority metadata = some { message with
      priority := if priority ≠ 0 then priority else message.priority
      metadata := if metadata.isSome then metadata else message.metadata } := by
  unfold redeliverOrDrop at h
  unfold Message.afterFailure
  split at h
  · rename_i hlimit
    rw [if_pos hlimit]
    obtain ⟨⟨r', q₁, store₁⟩, hd, h⟩ := Option.bind_eq_some_iff.mp h
    obtain ⟨hr, hs⟩ := delete_writes hc hk hd
    rw [hm] at hr
    subst hr
    cases h
    exact Or.inl ⟨rfl, hs⟩
  · rename_i hlimit
    rw [if_neg hlimit]
    obtain ⟨r', _, h⟩ := Option.bind_eq_some_iff.mp h
    obtain ⟨queue, _, h⟩ := Option.bind_eq_some_iff.mp h
    obtain ⟨queue', _, h⟩ := Option.bind_eq_some_iff.mp h
    obtain ⟨q₁, _, h⟩ := Option.bind_eq_some_iff.mp h
    cases h
    exact Or.inr ⟨rfl, rfl, rfl⟩

/-- Whether or not it is written again, the message is as the caller wants it. -/
theorem keepNacked_writes {message : Message} (hm : shelf config.name store message.id = some message) (priority : Int)
    (metadata : Option Metadata) :
    ∃ store', keepNacked store noFaults config message false priority metadata = .ok store' ∧
      shelf config.name store' = Function.update (shelf config.name store) message.id (some { message with
        priority := if priority ≠ 0 then priority else message.priority
        metadata := if metadata.isSome then metadata else message.metadata }) := by
  unfold keepNacked
  split
  · exact ⟨_, Store.updateMessage_some hm priority metadata, shelf_insert _⟩
  · rename_i hkeep
    refine ⟨store, rfl, (Function.update_eq_self_iff.mpr ?_).symm⟩
    simp only [true_and, not_or, not_and, ne_eq, not_not, Bool.not_eq_true] at hkeep
    obtain ⟨hmeta, hpriority⟩ := hkeep
    rw [hm, hmeta]
    by_cases hp : priority = 0
    · simp [hp]
    · simp [hpriority hp]

theorem nack_writes (hc : q.config = some config) (hk : Keyed config.name store) (ha : q.ackQueue.queue.Sound) {priority : Int}
    {metadata : Option Metadata} {r : Except Err Unit}
    (h : q.nack store cfg noFaults id priority metadata = some (r, q', store')) :
    Wrote store store' (fun _ => shelf config.name store' = Function.update (shelf config.name store) id
      ((shelf config.name store id).bind (Message.afterFailure config.settings.deliveryLimit priority metadata))) r := by
  unfold nack at h
  obtain ⟨item, hitem, h⟩ := Option.bind_eq_some_iff.mp h
  have hfound := (DelayedQueue.get_spec ha id).result hitem
  cases item with
  | none => cases h; rfl
  | some item =>
    have hid : item.id = id := hfound.id_eq ha
    simp only [hc, hid, Option.bind_eq_bind, Option.bind_some] at h
    cases hm : store.messages.lookup (config.name, id) with
    | none => rw [Store.get_none hm] at h; cases h; rfl
    | some message =>
      obtain rfl : message.id = id := hk _ _ hm
      have hm : shelf config.name store message.id = some message := hm
      rw [Store.get_some hm] at h
      obtain ⟨⟨r', q₁, store₁⟩, hr, h⟩ := Option.bind_eq_some_iff.mp h
      rw [hm, Option.bind_some]
      rcases redeliverOrDrop_writes hc hk hm hr priority metadata with ⟨rfl, hs⟩ | ⟨rfl, hs₁, hkept⟩
      · simp only [keepNacked, Bool.true_eq_false, false_and, if_false] at h
        obtain ⟨u, _, h⟩ := Option.bind_eq_some_iff.mp h
        cases h
        exact hs
      · obtain ⟨store₂, hkeep, hs⟩ := keepNacked_writes hm priority metadata
        simp only [hs₁, hkeep] at h
        obtain ⟨u, _, h⟩ := Option.bind_eq_some_iff.mp h
        cases h
        rw [hkept]
        exact hs

theorem ackTimeout_writes (hc : q.config = some config) (hk : Keyed config.name store) {r : Except Err Unit}
    (h : q.ackTimeout store cfg noFaults id = some (r, q', store')) :
    Wrote store store' (fun _ => shelf config.name store' = Function.update (shelf config.name store) id
      ((shelf config.name store id).bind (Message.afterFailure config.settings.deliveryLimit 0 none))) r := by
  unfold ackTimeout at h
  obtain ⟨item, _, h⟩ := Option.bind_eq_some_iff.mp h
  cases item with
  | none => cases h; rfl
  | some item =>
    simp only [hc, Option.bind_eq_bind, Option.bind_some] at h
    cases hm : store.messages.lookup (config.name, id) with
    | none =>
      rw [Store.get_none hm] at h
      obtain ⟨q₁, _, h⟩ := Option.bind_eq_some_iff.mp h
      cases h; rfl
    | some message =>
      obtain rfl : message.id = id := hk _ _ hm
      have hm : shelf config.name store message.id = some message := hm
      rw [Store.get_some hm] at h
      obtain ⟨⟨r', q₁, store₁⟩, hr, h⟩ := Option.bind_eq_some_iff.mp h
      rw [hm, Option.bind_some]
      rcases redeliverOrDrop_writes hc hk hm hr 0 none with ⟨rfl, hs⟩ | ⟨rfl, hs₁, hkept⟩
      · obtain ⟨u, _, h⟩ := Option.bind_eq_some_iff.mp h
        cases h
        exact hs
      · obtain ⟨u, _, h⟩ := Option.bind_eq_some_iff.mp h
        cases h
        rw [hs₁, hkept]
        -- neither a priority nor metadata to write
        exact (Function.update_eq_self_iff.mpr hm.symm).symm

end Queue

end Doq
