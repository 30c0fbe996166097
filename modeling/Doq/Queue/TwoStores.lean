/-
  Doq.Queue.TwoStores — one method of a queue on two stores (see `Doq.Queue.Queue`).

  A method reads the store by id, at most at one id, and what it does to the queue depends on
  the message it finds there. So on two stores that have the same message under that id it
  returns the same, leaves the same queue, and edits both stores alike (`Alike`).
-/

import Doq.Queue.Safety

namespace Doq

open Lib Memory Storage

namespace Storage

variable {key : String × UInt64} {F G F' G' : Store} {name : String} {id : UInt64}

/-- Both stores keep everything but one key, where they end up the same. -/
structure Edits (key : String × UInt64) (F G F' G' : Store) : Prop where
  queues : F'.queues = F.queues ∧ G'.queues = G.queues
  here : G'.messages.lookup key = F'.messages.lookup key
  other : ∀ k, k ≠ key → F'.messages.lookup k = F.messages.lookup k ∧ G'.messages.lookup k = G.messages.lookup k

theorem Edits.refl (h : G.messages.lookup key = F.messages.lookup key) : Edits key F G F G :=
  ⟨⟨rfl, rfl⟩, h, fun _ _ => ⟨rfl, rfl⟩⟩

theorem Edits.trans {F'' G'' : Store} (h : Edits key F G F' G') (h' : Edits key F' G' F'' G'') : Edits key F G F'' G'' :=
  ⟨⟨h'.queues.1.trans h.queues.1, h'.queues.2.trans h.queues.2⟩, h'.here,
    fun k hk => ⟨(h'.other k hk).1.trans (h.other k hk).1, (h'.other k hk).2.trans (h.other k hk).2⟩⟩

theorem Edits.insert (key : String × UInt64) (F G : Store) (msg : Message) :
    Edits key F G { F with messages := F.messages.insert key msg } { G with messages := G.messages.insert key msg } := by
  refine ⟨⟨rfl, rfl⟩, ?_, fun k hk => ?_⟩
  · rw [FinMap.lookup_insert_eq, FinMap.lookup_insert_eq, if_pos rfl, if_pos rfl]
  · rw [FinMap.lookup_insert_eq, FinMap.lookup_insert_eq, if_neg hk, if_neg hk]
    exact ⟨rfl, rfl⟩

theorem Edits.erase (key : String × UInt64) (F G : Store) :
    Edits key F G { F with messages := F.messages.erase key } { G with messages := G.messages.erase key } := by
  refine ⟨⟨rfl, rfl⟩, ?_, fun k hk => ?_⟩
  · rw [FinMap.lookup_erase_eq, FinMap.lookup_erase_eq, if_pos rfl, if_pos rfl]
  · rw [FinMap.lookup_erase_eq, FinMap.lookup_erase_eq, if_neg hk, if_neg hk]
    exact ⟨rfl, rfl⟩

theorem Store.get_congr (h : G.messages.lookup (name, id) = F.messages.lookup (name, id)) :
    G.get noFaults name id = F.get noFaults name id := by
  unfold Store.get
  rw [h]

end Storage

namespace Queue

variable {q : Queue} {config : QueueConfig} {cfg : Config} {F G : Store} {id : UInt64}

/-- The same result and the same queue, and the stores edited alike. -/
def Alike {α : Type} (key : String × UInt64) (F G : Store) : Go (Outcome α) → Go (Outcome α) → Prop :=
  Simulates fun a b => b.1 = a.1 ∧ b.2.1 = a.2.1 ∧ Edits key F G a.2.2 b.2.2

theorem enqueue_alike (hc : q.config = some config) (id : UInt64) (group : String) (priority : Int) (content : String)
    (metadata : Option Metadata) :
    Alike (config.name, id) F G (q.enqueue F cfg noFaults id group priority content metadata)
      (q.enqueue G cfg noFaults id group priority content metadata) := by
  simp only [Queue.enqueue, hc, Option.bind_eq_bind, Option.bind_some, Store.enqueue, noFaults, Bool.false_eq_true, if_false]
  refine .bind_same fun queue _ => .bind_same fun item _ => ?_
  cases item with
  | some item => exact .intro ⟨rfl, rfl, .insert ..⟩
  | none => exact .bind_same fun queue _ => .bind_same fun _ _ => .intro ⟨rfl, rfl, .insert ..⟩

section Stored

variable (hc : q.config = some config) (h : G.messages.lookup (config.name, id) = F.messages.lookup (config.name, id))
include hc h

theorem delete_alike (hk : ∀ msg, F.messages.lookup (config.name, id) = some msg → msg.id = id) :
    Alike (config.name, id) F G (q.delete F noFaults id) (q.delete G noFaults id) := by
  simp only [Queue.delete, hc, Option.bind_eq_bind, Option.bind_some]
  cases hm : F.messages.lookup (config.name, id) with
  | none =>
    rw [Store.delete_none hm, Store.delete_none (h.trans hm)]
    exact .intro ⟨rfl, rfl, .refl h⟩
  | some msg =>
    rw [Store.delete_some hm, Store.delete_some (h.trans hm), hk msg hm]
    exact .bind_same fun queue _ => .bind_same fun r _ => .bind_same fun q' _ => .intro ⟨rfl, rfl, .erase ..⟩

theorem touch_alike (now : Int) : Alike (config.name, id) F G (q.touch F id now) (q.touch G id now) := by
  simp only [Queue.touch, hc, Option.bind_eq_bind, Option.bind_some]
  refine .bind_same fun item _ => ?_
  cases item with
  | none => exact .intro ⟨rfl, rfl, .refl h⟩
  | some item => exact .bind_same fun ackQueue _ => .intro ⟨rfl, rfl, .refl h⟩

theorem ack_alike : Alike (config.name, id) F G (q.ack F cfg noFaults id) (q.ack G cfg noFaults id) := by
  have hrel : q.releaseAcked G noFaults config id = q.releaseAcked F noFaults config id := by
    unfold Queue.releaseAcked
    rw [Store.get_congr h]
  simp only [Queue.ack, hc, hrel, Option.bind_eq_bind, Option.bind_some]
  refine .bind_same fun item _ => ?_
  cases item with
  | none => exact .intro ⟨rfl, rfl, .refl h⟩
  | some item =>
    refine .bind_same fun released _ => ?_
    cases released with
    | error e => exact .intro ⟨rfl, rfl, .refl h⟩
    | ok q' =>
      simp only [Store.ack, noFaults, Bool.false_eq_true, if_false]
      exact .bind_same fun r _ => .bind_same fun _ _ => .intro ⟨rfl, rfl, .erase ..⟩

theorem updatePriority_alike (priority : Int) :
    Alike (config.name, id) F G (q.updatePriority F noFaults id priority) (q.updatePriority G noFaults id priority) := by
  simp only [Queue.updatePriority, hc, Option.bind_eq_bind, Option.bind_some]
  cases hm : F.messages.lookup (config.name, id) with
  | none =>
    rw [Store.get_none hm, Store.get_none (h.trans hm)]
    exact .intro ⟨rfl, rfl, .refl h⟩
  | some msg =>
    rw [Store.get_some hm, Store.get_some (h.trans hm)]
    refine .bind_same fun queue _ => .bind_same fun place _ => ?_
    cases place with
    | none => exact .intro ⟨rfl, rfl, .refl h⟩
    | some place =>
      simp only [Store.updatePriority_some hm, Store.updatePriority_some (h.trans hm)]
      exact .bind_same fun q' _ => .bind_same fun queue _ => .bind_same fun queue _ => .intro ⟨rfl, rfl, .insert ..⟩

end Stored

theorem redeliverOrDrop_alike {message : Message} (hc : q.config = some config)
    (h : G.messages.lookup (config.name, message.id) = F.messages.lookup (config.name, message.id))
    (hk : ∀ msg, F.messages.lookup (config.name, message.id) = some msg → msg.id = message.id) (priority : Int) :
    Alike (config.name, message.id) F G (q.redeliverOrDrop F noFaults config message priority)
      (q.redeliverOrDrop G noFaults config message priority) := by
  unfold Queue.redeliverOrDrop
  split
  · refine (delete_alike hc h hk).bind ?_
    rintro ⟨_, _, F'⟩ ⟨r, q', G'⟩ ⟨rfl, rfl, hedit⟩
    cases r with
    | error e => exact .intro ⟨rfl, rfl, hedit⟩
    | ok u => exact .intro ⟨rfl, rfl, hedit⟩
  · exact .bind_same fun r _ => .bind_same fun queue _ => .bind_same fun queue _ => .bind_same fun q' _ =>
      .intro ⟨rfl, rfl, .refl h⟩

theorem keepNacked_alike {message : Message} {dropped : Bool} {priority : Int} {metadata : Option Metadata}
    (h : G.messages.lookup (config.name, message.id) = F.messages.lookup (config.name, message.id)) :
    (∃ e, keepNacked F noFaults config message dropped priority metadata = .error e ∧
      keepNacked G noFaults config message dropped priority metadata = .error e) ∨
    ∃ F' G', keepNacked F noFaults config message dropped priority metadata = .ok F' ∧
      keepNacked G noFaults config message dropped priority metadata = .ok G' ∧ Edits (config.name, message.id) F G F' G' := by
  unfold keepNacked
  split
  · cases hm : F.messages.lookup (config.name, message.id) with
    | none =>
      rw [Store.updateMessage_none hm, Store.updateMessage_none (h.trans hm)]
      exact Or.inl ⟨_, rfl, rfl⟩
    | some msg =>
      rw [Store.updateMessage_some hm, Store.updateMessage_some (h.trans hm)]
      exact Or.inr ⟨_, _, rfl, rfl, .insert ..⟩
  · exact Or.inr ⟨F, G, rfl, rfl, .refl h⟩

section Failed

variable (hc : q.config = some config) (h : G.messages.lookup (config.name, id) = F.messages.lookup (config.name, id))
  (hk : ∀ msg, F.messages.lookup (config.name, id) = some msg → msg.id = id)
include hc h hk

theorem nack_alike (hid : ∀ item, q.ackQueue.get id = some (some item) → item.id = id) (priority : Int)
    (metadata : Option Metadata) :
    Alike (config.name, id) F G (q.nack F cfg noFaults id priority metadata) (q.nack G cfg noFaults id priority metadata) := by
  simp only [Queue.nack, hc, Option.bind_eq_bind, Option.bind_some]
  refine .bind_same fun item hitem => ?_
  cases item with
  | none => exact .intro ⟨rfl, rfl, .refl h⟩
  | some item =>
    simp only [hid item hitem]
    cases hm : F.messages.lookup (config.name, id) with
    | none =>
      rw [Store.get_none hm, Store.get_none (h.trans hm)]
      exact .intro ⟨rfl, rfl, .refl h⟩
    | some message =>
      rw [Store.get_some hm, Store.get_some (h.trans hm)]
      obtain rfl := hk message hm
      refine (redeliverOrDrop_alike hc h hk priority).bind ?_
      rintro ⟨_, _, F'⟩ ⟨r, q', G'⟩ ⟨rfl, rfl, hedit⟩
      cases r with
      | error e => exact .intro ⟨rfl, rfl, hedit⟩
      | ok dropped =>
        have hedit : Edits (config.name, message.id) F G F' G' := hedit
        simp only
        rcases keepNacked_alike hedit.here with ⟨e, hF, hG⟩ | ⟨F'', G'', hF, hG, hedit'⟩
        · rw [hF, hG]
          exact .intro ⟨rfl, rfl, hedit⟩
        · rw [hF, hG]
          exact .bind_same fun _ _ => .intro ⟨rfl, rfl, hedit.trans hedit'⟩

theorem ackTimeout_alike : Alike (config.name, id) F G (q.ackTimeout F cfg noFaults id) (q.ackTimeout G cfg noFaults id) := by
  simp only [Queue.ackTimeout, hc, Option.bind_eq_bind, Option.bind_some]
  refine .bind_same fun item hitem => ?_
  cases item with
  | none => exact .intro ⟨rfl, rfl, .refl h⟩
  | some item =>
    simp only
    cases hm : F.messages.lookup (config.name, id) with
    | none =>
      rw [Store.get_none hm, Store.get_none (h.trans hm)]
      exact .bind_same fun q' _ => .intro ⟨rfl, rfl, .refl h⟩
    | some message =>
      rw [Store.get_some hm, Store.get_some (h.trans hm)]
      obtain rfl := hk message hm
      refine (redeliverOrDrop_alike hc h hk 0).bind ?_
      rintro ⟨_, _, F'⟩ ⟨r, q', G'⟩ ⟨rfl, rfl, hedit⟩
      cases r with
      | error e => exact .intro ⟨rfl, rfl, hedit⟩
      | ok dropped => exact .bind_same fun _ _ => .intro ⟨rfl, rfl, hedit⟩

end Failed

/-- The id that is read is the picked one. -/
theorem dequeue_alike {ack : Bool} {seed : UInt64} {now : Int} (hc : q.config = some config)
    (h : ∀ m item m', q.queue = some m → m.dequeue ack seed now = some (some item, m') →
      G.messages.lookup (config.name, item.id) = F.messages.lookup (config.name, item.id)) :
    Simulates (fun a b => b.1 = a.1 ∧ b.2.1 = a.2.1 ∧ (a.2.2 = F ∧ b.2.2 = G ∨ ∃ id, Edits (config.name, id) F G a.2.2 b.2.2))
      (q.dequeue F cfg noFaults ack seed now) (q.dequeue G cfg noFaults ack seed now) := by
  simp only [Queue.dequeue, hc, Option.bind_eq_bind, Option.bind_some]
  refine .bind_same fun queue hqueue => ?_
  split
  · exact .intro ⟨rfl, rfl, Or.inl ⟨rfl, rfl⟩⟩
  · refine .bind_same fun r hr => ?_
    obtain ⟨item, queue'⟩ := r
    cases item with
    | none => exact .intro ⟨rfl, rfl, Or.inl ⟨rfl, rfl⟩⟩
    | some item =>
      have h' := h queue item queue' hqueue hr
      simp only
      cases hm : F.messages.lookup (config.name, item.id) with
      | none =>
        rw [Store.dequeue_none hm, Store.dequeue_none (h'.trans hm)]
        exact .intro ⟨rfl, rfl, Or.inl ⟨rfl, rfl⟩⟩
      | some msg =>
        cases ack with
        | true =>
          rw [Store.dequeue_acked hm, Store.dequeue_acked (h'.trans hm)]
          exact .bind_same fun _ _ => .intro ⟨rfl, rfl, Or.inr ⟨item.id, .erase ..⟩⟩
        | false =>
          rw [Store.dequeue_unacked hm, Store.dequeue_unacked (h'.trans hm)]
          exact .bind_same fun _ _ => .intro ⟨rfl, rfl, Or.inr ⟨item.id, .insert ..⟩⟩

/-! ## A message only one of the stores has -/

section Unheld

variable {name : String} {m : MemoryQueue} (hl : Live name config m q F) (hn : id ∉ heldIds m q.ackQueue)
include hl hn

/-- The message goes from the store, and the queue is as before. -/
theorem delete_unheld {msg : Message} (hm : G.messages.lookup (name, id) = some msg) :
    q.delete G noFaults id = some (.ok (), q, { G with messages := G.messages.erase (name, msg.id) }) := by
  have hmem : m.delete msg.group id = some (none, m) := by
    obtain ⟨⟨item, m'⟩, hd, _, _, hr⟩ := hl.memory.delete msg.group id
    cases item with
    | none => rw [hd, show m' = m from hr]
    | some item =>
      refine absurd (Multiset.mem_add.mpr (Or.inl ?_)) hn
      rw [hr.2, Multiset.map_cons, hr.1]
      exact Multiset.mem_cons_self _ _
  have hack : q.ackQueue.delete id = some (none, q.ackQueue) := by
    obtain ⟨⟨item, aq⟩, hd, hr⟩ := DelayedQueue.delete_spec hl.ack id
    cases item with
    | none => rw [hd, show aq = q.ackQueue from hr.1]
    | some item =>
      exact absurd (Multiset.mem_add.mpr (Or.inr (Multiset.mem_map.mpr ⟨item, hr.1.mem, hr.1.id_eq hl.ack⟩))) hn
  have hq : { q with config := some config, queue := some m } = q := by rw [← hl.config_eq, ← hl.queue_eq]
  simp only [Queue.delete, hl.config_eq, hl.name_eq, Store.delete_some hm, hl.queue_eq, hmem, dropUnacked, hack,
    Option.bind_eq_bind, Option.bind_some]
  rw [hq]

theorem updatePriority_unheld (priority : Int) :
    q.updatePriority G noFaults id priority = some (.error .messageNotFound, q, G) := by
  simp only [Queue.updatePriority, hl.config_eq, Option.bind_eq_bind, Option.bind_some, hl.name_eq]
  cases hm : G.messages.lookup (name, id) with
  | none => rw [Store.get_none hm]
  | some msg =>
    obtain ⟨hget, hack⟩ := get_unheld hl hn msg.group
    simp only [Store.get_some hm, hl.queue_eq, locate, hget, hack, Option.bind_eq_bind, Option.bind_some, Option.map_none]

end Unheld

end Queue

end Doq
