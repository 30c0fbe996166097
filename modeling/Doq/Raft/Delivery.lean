/-
  Doq.Raft.Delivery — who holds a message over a run.

  A message that was delivered is not ready again before its delivery fails, and one that
  was acked, deleted or dropped does not come back before its id is enqueued again. Both
  are kept by every entry (`Out.step`, `Gone.step`), whatever happens to other messages,
  and both start with the entry that takes the message out.

  Proved:
  - `exclusive_delivery`: between two deliveries of an id there is a successful `Nack` or
    `AckTimeout` of it, and an id that was removed is not delivered, acked, nacked, touched
    or expired, if the id is not enqueued in between.
-/

import Doq.Raft.Track

namespace Doq

open Lib Memory Storage

namespace FSM

variable {name : String} {id : UInt64} {ob ob' : Option Broker} {e : Event FSM Entry Reply}

def Succeeds (e : Event FSM Entry Reply) : Prop := ∃ r, e.output = .response r ∧ r.error = none

instance : (e : Event FSM Entry Reply) → Decidable (Succeeds e)
  | ⟨_, _, .response r, _⟩ => decidable_of_iff (r.error = none) ⟨fun h => ⟨r, rfl, h⟩, by rintro ⟨_, h, hr⟩; cases h; exact hr⟩
  | ⟨_, _, .nil, _⟩ => isFalse (by rintro ⟨_, h, _⟩; cases h)
  | ⟨_, _, .unknownCommand, _⟩ => isFalse (by rintro ⟨_, h, _⟩; cases h)

/-- The event delivers the message. -/
def Delivers (name : String) (id : UInt64) (e : Event FSM Entry Reply) : Prop :=
  ∃ ack r, e.input.command = .dequeue name ack ∧ e.output = .response r ∧ r.error = none ∧ r.id = id

def Enqueues (name : String) (id : UInt64) (e : Event FSM Entry Reply) : Prop :=
  e.input.command.queueName = some name ∧ e.input.command.enqueued = some id ∧ Succeeds e

/-- A delivery of the message is over without success: `Nack` or `AckTimeout`. -/
def Fails (name : String) (id : UInt64) (e : Event FSM Entry Reply) : Prop :=
  e.input.command.queueName = some name ∧ e.input.command.failed = some id ∧ Succeeds e

/-- The delivery that failed was the last one the limit allows. -/
def Drops (name : String) (id : UInt64) (e : Event FSM Entry Reply) : Prop :=
  Fails name id e ∧ ∃ config msg, e.before.queueManager.store.queues.lookup name = some config ∧
    e.before.queueManager.store.messages.lookup (name, id) = some msg ∧
    0 < config.settings.deliveryLimit ∧ config.settings.deliveryLimit ≤ msg.deliveryCount

/-- The event removes the message for good. -/
def Removes (name : String) (id : UInt64) (e : Event FSM Entry Reply) : Prop :=
  (Delivers name id e ∧ e.input.command = .dequeue name true) ∨ (e.input.command = .ack name id ∧ Succeeds e) ∨
    (e.input.command = .delete name id ∧ Succeeds e) ∨ Drops name id e

/-- The event delivers the message or works on its delivery. -/
def Uses (name : String) (id : UInt64) (e : Event FSM Entry Reply) : Prop :=
  Delivers name id e ∨ (e.input.command.queueName = some name ∧ e.input.command.inFlight = some id ∧ Succeeds e)

/-- The message is not ready. -/
def Out (id : UInt64) (ob : Option Broker) : Prop := ∀ b, ob = some b → ∀ r, b.records id = some r → r.status ≠ .ready

def Gone (id : UInt64) (ob : Option Broker) : Prop := ∀ b, ob = some b → b.records id = none

theorem Succeeds.response {r : FSMResponse} (h : Succeeds e) (hr : e.output = .response r) : r.error = none := by
  obtain ⟨r', hr', herr⟩ := h
  rw [hr] at hr'; cases hr'
  exact herr

theorem Out.handled {b b' : Broker} {response : FSMResponse} (h : Out id (some b)) (he : e.input.command.queueName = some name)
    (hd : b.Did e.input response b') (hr : e.output = .response response) (hnew : ¬ Enqueues name id e)
    (hfail : ¬ Fails name id e) :
    Out id (some b') := by
  intro _ hb r hrec
  cases hb
  cases hd.origin hrec with
  | kept hb => exact h b rfl r hb
  | enqueued _ _ _ _ hc _ hresp => exact absurd ⟨he, hc, response, hr, hresp⟩ hnew
  | delivered _ _ _ _ hx _ _ => rw [hx]; exact Status.noConfusion
  | requeued _ _ _ _ hc _ _ _ hresp => exact absurd ⟨he, hc, response, hr, hresp⟩ hfail
  | changed r₀ hb _ _ hstatus => exact fun hready => h b rfl r₀ hb (hstatus.mp hready)

theorem Out.step (h : Out id ob) (hm : Moved name e ob ob') (hnew : ¬ Enqueues name id e)
    (hfail : ¬ Fails name id e) : Out id ob' := by
  cases hm with
  | aside _ _ => exact h
  | handled b b' response he _ _ hd hr => exact h.handled he hd hr hnew hfail
  | created _ _ _ _ _ _ _ => intro b hb r hrec; cases hb; cases hrec
  | updated b _ _ _ _ => intro b' hb r hrec; cases hb; exact h b rfl r hrec
  | deleted _ _ => exact nofun

theorem Gone.step (h : Gone id ob) (hm : Moved name e ob ob') (hnew : ¬ Enqueues name id e) : Gone id ob' := by
  cases hm with
  | aside _ _ => exact h
  | created _ _ _ _ _ _ _ => intro b hb; cases hb; rfl
  | updated b _ _ _ _ => intro b' hb; cases hb; exact h b rfl
  | deleted _ _ => exact nofun
  | handled b b' response he _ _ hd hr =>
    intro _ hb
    cases hb
    have hbefore := h b rfl
    -- a record that is replaced was there, but for an enqueue
    have hother : ∀ {i r x}, b.records i = some r → b'.records = Function.update b.records i x → b'.records id = none := by
      intro i r x hi hrec
      have hne : id ≠ i := fun heq => by rw [← heq, hbefore] at hi; cases hi
      rw [hrec, Function.update_of_ne hne, hbefore]
    cases hd with
    | refused _ hrec => rw [hrec, hbefore]
    | read _ _ _ hrec => rw [hrec, hbefore]
    | enqueued n i group priority content metadata hc hrec hresp =>
      have hne : id ≠ i := fun heq => hnew ⟨he, by rw [hc, heq]; rfl, response, hr, hresp⟩
      rw [hrec, Function.update_of_ne hne, hbefore]
    | delivered _ _ _ _ _ hi hrec _ _ => exact hother hi hrec
    | removed _ _ _ _ hi hrec _ => exact hother hi hrec
    | dropped _ _ _ _ _ hi hrec _ => exact hother hi hrec
    | requeued _ _ _ _ _ _ _ hi hrec _ => exact hother hi hrec
    | touched _ _ _ _ _ hi hrec => exact hother hi hrec
    | repriced _ _ _ _ _ _ _ hi _ hrec => exact hother hi hrec

/-! ## The entries that take a message out -/

/-- A command on messages that succeeds is the broker's. -/
theorem Moved.success (hm : Moved name e ob ob') (he : e.input.command.queueName = some name) (hs : Succeeds e) :
    ∃ b b' response, ob = some b ∧ ob' = some b' ∧ b.handle e.input = some (response, b') ∧ b'.config = b.config ∧
      b.Did e.input response b' ∧ e.output = .response response ∧ response.error = none := by
  cases hm with
  | aside _ hfail =>
    obtain ⟨r, hr, herr⟩ := hfail he
    exact absurd (hs.response hr) herr
  | created _ _ _ _ hc _ _ => rw [hc] at he; cases he
  | updated _ _ _ hc _ => rw [hc] at he; cases he
  | deleted _ hc => rw [hc] at he; cases he
  | handled b b' response _ hh hconf hd hr => exact ⟨b, b', response, rfl, rfl, hh, hconf, hd, hr, hs.response hr⟩

/-- A delivery is the broker's, of a ready message. -/
theorem Delivers.did (h : Delivers name id e) (hm : Moved name e ob ob') : ∃ b b' ack msg, ob = some b ∧ ob' = some b' ∧
    e.input.command = .dequeue name ack ∧ b.records id = some ⟨msg, .ready⟩ ∧
    e.output = .response (.ofMessage name { msg with deliveryCount := msg.deliveryCount + 1 }) ∧
    b'.records = Function.update b.records id (if ack then none else
      some ⟨{ msg with deliveryCount := msg.deliveryCount + 1 }, .inFlight (Queue.ackDeadline b.config e.input.now)⟩) := by
  obtain ⟨ack, r, hc, hr, herr, hid⟩ := h
  obtain ⟨b, b', response, rfl, rfl, _, _, hd, hr', _⟩ := hm.success (by rw [hc]; rfl) ⟨r, hr, herr⟩
  rw [hr] at hr'; cases hr'
  cases hd with
  | refused herr' _ => exact absurd herr herr'
  | read _ _ hc' _ => rw [hc] at hc'; cases hc'
  | enqueued _ _ _ _ _ _ hc' _ _ => rw [hc] at hc'; cases hc'
  | removed _ _ _ hc' _ _ _ => rw [hc] at hc'; rcases hc' with hc' | ⟨hc', _⟩ <;> cases hc'
  | dropped _ _ _ hc' _ _ _ _ => rw [hc] at hc'; cases hc'
  | requeued _ _ _ _ _ hc' _ _ _ _ => rw [hc] at hc'; cases hc'
  | touched _ _ _ _ hc' _ _ => rw [hc] at hc'; cases hc'
  | repriced _ _ _ _ _ _ hc' _ _ _ => rw [hc] at hc'; cases hc'
  | delivered n ack' i msg hc' hbefore hrec hresp hmsg =>
    rw [hc] at hc'; cases hc'
    have hi : i = id := by rw [← hmsg, ← hid, hresp]; rfl
    subst hi
    exact ⟨b, b', ack, msg, rfl, rfl, hc, hbefore, by rw [hr, hresp], hrec⟩

/-- A delivery takes a ready message out. -/
theorem Delivers.moved (h : Delivers name id e) (hm : Moved name e ob ob') :
    (∃ b msg, ob = some b ∧ b.records id = some ⟨msg, .ready⟩) ∧ Out id ob' ∧
    (e.input.command = .dequeue name true → Gone id ob') := by
  obtain ⟨b, b', ack, msg, rfl, rfl, hc, hbefore, _, hrec⟩ := h.did hm
  refine ⟨⟨b, msg, rfl, hbefore⟩, fun _ hb x hx => ?_, fun htrue _ hb => ?_⟩
  · cases hb
    rw [hrec, Function.update_self] at hx
    cases ack <;> cases hx
    exact Status.noConfusion
  · cases hb
    cases ack with
    | false => rw [hc] at htrue; cases htrue
    | true => rw [hrec, Function.update_self, if_pos rfl]

/-- A command on a delivery that succeeds finds the message. -/
theorem found_of_inFlight {b b' : Broker} {entry : Entry} {response : FSMResponse} (hd : b.Did entry response b')
    (hc : entry.command.inFlight = some id) (herr : response.error = none) : ∃ r, b.records id = some r := by
  cases hd with
  | refused herr' _ => exact absurd herr herr'
  | read _ _ hc' _ => rw [hc'] at hc; cases hc
  | enqueued _ _ _ _ _ _ hc' _ _ => rw [hc'] at hc; cases hc
  | delivered _ _ _ _ hc' _ _ _ _ => rw [hc'] at hc; cases hc
  | repriced _ _ _ _ _ _ hc' _ _ _ => rw [hc'] at hc; cases hc
  | touched _ _ _ _ hc' hi _ => rw [hc'] at hc; cases hc; exact ⟨_, hi⟩
  | removed _ _ _ hc' hi _ _ =>
    rcases hc' with hc' | ⟨hc', _⟩ <;> rw [hc'] at hc <;> cases hc
    exact ⟨_, hi⟩
  | dropped i _ _ hc' _ hi _ _ => rw [inFlight_of_failed hc'] at hc; cases hc; exact ⟨_, hi⟩
  | requeued i _ _ _ _ hc' _ hi _ _ => rw [inFlight_of_failed hc'] at hc; cases hc; exact ⟨_, hi⟩

theorem Gone.not_used (h : Gone id ob) (hm : Moved name e ob ob') : ¬ Uses name id e := by
  rintro (hdel | ⟨he, hc, hs⟩)
  · obtain ⟨⟨b, msg, rfl, hr⟩, _⟩ := hdel.moved hm
    rw [h b rfl] at hr; cases hr
  · obtain ⟨b, b', response, rfl, rfl, _, _, hd, _, herr⟩ := hm.success he hs
    obtain ⟨r, hr⟩ := found_of_inFlight hd hc herr
    rw [h b rfl] at hr; cases hr

theorem Drops.gone (h : Drops name id e) (ht : Tracks name ob e.before) (hm : Moved name e ob ob') : Gone id ob' := by
  obtain ⟨⟨he, hc, hs⟩, config, msg, hconf, hmsg, hpos, hle⟩ := h
  obtain ⟨b, b', response, rfl, rfl, _, _, hd, _, herr⟩ := hm.success he hs
  obtain ⟨q, _, hconf', href⟩ := ht.present b rfl
  rw [hconf] at hconf'; cases hconf'
  intro _ hb
  cases hb
  obtain ⟨msg', d, hi, ⟨_, hrec⟩ | ⟨hex, _⟩⟩ := hd.failure hc herr
  · rw [hrec, Function.update_self]
  · rw [href.lookup_some hi] at hmsg; cases hmsg
    exact absurd ⟨hpos, hle⟩ hex

theorem Removes.gone (h : Removes name id e) (ht : Tracks name ob e.before) (hm : Moved name e ob ob') : Gone id ob' := by
  rcases h with ⟨hdel, hc⟩ | ⟨hc, hs⟩ | ⟨hc, hs⟩ | hdrop
  · exact (hdel.moved hm).2.2 hc
  · obtain ⟨b, b', response, rfl, rfl, _, _, hd, _, herr⟩ := hm.success (by rw [hc]; rfl) hs
    intro _ hb; cases hb
    obtain ⟨_, _, _, hrec⟩ := hd.removal (Or.inl hc) herr
    rw [hrec, Function.update_self]
  · obtain ⟨b, b', response, rfl, rfl, _, _, hd, _, herr⟩ := hm.success (by rw [hc]; rfl) hs
    intro _ hb; cases hb
    obtain ⟨_, _, _, hrec⟩ := hd.removal (Or.inr hc) herr
    rw [hrec, Function.update_self]
  · exact hdrop.gone ht hm

/-! ## What a dequeue answers -/

/-- An entry that enqueues nothing and deletes no queue. -/
theorem admits_of_none {f : FSM} {entry : Entry} (henq : entry.command.enqueued = none)
    (hgroup : entry.command.enqueuedGroup = none)
    (hdel : entry.command.deletedQueue = none) : Admits name f entry where
  fresh _ id hid := by rw [henq] at hid; cases hid
  group _ group hg := by rw [hgroup] at hg; cases hg
  spares n hn := by rw [hdel] at hn; cases hn

/-- The reply to a dequeue is the message the memory queue picks. -/
theorem Tracks.delivers {b : Broker} {f : FSM} {ack : Bool} {index : UInt64} {now : Int} {it : Item} {m : MemoryQueue}
    (h : Tracks name (some b) f) (hd : b.memory.dequeue ack index now = some (some it, m)) :
    ∃ msg, f.queueManager.store.messages.lookup (name, it.id) = some msg ∧ msg.id = it.id ∧ it.group = msg.group ∧
      it.priority = msg.priority ∧
      Returns (f.apply ⟨index, now, .dequeue name ack⟩) fun r =>
        r.1 = .response (.ofMessage name { msg with deliveryCount := msg.deliveryCount + 1 }) := by
  obtain ⟨q, _, _, href⟩ := h.present b rfl
  obtain ⟨rest, hrest, _⟩ := (href.inv.dequeue ack index now).result hd
  obtain ⟨msg, hr, hid, hg, hp⟩ := href.record_of_ready (hrest ▸ Multiset.mem_cons_self it rest)
  refine ⟨msg, href.lookup_some hr, hid, hg, hp, ?_⟩
  refine (h.answers ⟨index, now, .dequeue name ack⟩ (admits_of_none rfl rfl rfl) rfl).mono ?_
  rintro r ⟨b', response, hres, hh, _⟩
  obtain ⟨o, hx, rfl⟩ := Broker.answer_eq hh
  have hlen : b.memory.len ≠ 0 := by
    rw [href.inv.safe.len, hrest, Multiset.card_cons]
    omega
  unfold Broker.dequeue at hx
  rw [if_neg hlen] at hx
  simp only [hd, hr, Option.bind_eq_bind, Option.bind_some] at hx
  cases hx
  exact hres

/-! ## Over runs -/

/-- A run cut at two of its events, with the broker at each. -/
theorem Runs.between {cfg : Config} {leaderConfig : LeaderConfig} {f : FSM} {before between later : List (Event FSM Entry Reply)}
    {e₁ e₂ : Event FSM Entry Reply} (h : Runs (new cfg leaderConfig) (before ++ e₁ :: (between ++ e₂ :: later)) f)
    (hok : ∀ e ∈ before ++ e₁ :: (between ++ e₂ :: later), Admits name e.before e.input) {P : Option Broker → Prop}
    (hstart : ∀ ob ob', Tracks name ob e₁.before → Moved name e₁ ob ob' → P ob')
    (hkeep : ∀ e ∈ between, ∀ ob ob', P ob → Moved name e ob ob' → P ob') :
    ∃ ob ob', P ob ∧ Tracks name ob e₂.before ∧ Moved name e₂ ob ob' ∧ Tracks name ob' e₂.after := by
  obtain ⟨hrun, hstep, hrest⟩ := h.at_event
  obtain ⟨hmid, hstep₂, _⟩ := hrest.at_event
  obtain ⟨ob, htracks⟩ := Runs.tracks hrun fun e he => hok e (List.mem_append_left _ he)
  obtain ⟨ob', hmoved, htracks'⟩ := htracks.step hstep (hok e₁ (by simp))
  have hinv := Run.keeps (I := fun f => ∃ ob, Tracks name ob f ∧ P ob) (fun e he hs hI => by
    obtain ⟨ob, hI, hP⟩ := hI
    obtain ⟨ob', hm, hI'⟩ := hI.step hs (hok e (by simp [he]))
    exact ⟨ob', hI', hkeep e he ob ob' hP hm⟩) hmid ⟨ob', htracks', hstart ob ob' htracks hmoved⟩
  obtain ⟨ob₂, htracks₂, hP⟩ := hinv
  obtain ⟨ob₂', hmoved₂, htracks₂'⟩ := htracks₂.step hstep₂ (hok e₂ (by simp))
  exact ⟨ob₂, ob₂', hP, htracks₂, hmoved₂, htracks₂'⟩

theorem exclusive_delivery {cfg : Config} {leaderConfig : LeaderConfig} {f : FSM}
    {before between later : List (Event FSM Entry Reply)}
    {e₁ e₂ : Event FSM Entry Reply} (h : Runs (new cfg leaderConfig) (before ++ e₁ :: (between ++ e₂ :: later)) f)
    (hok : ∀ e ∈ before ++ e₁ :: (between ++ e₂ :: later), Admits name e.before e.input)
    (hnew : ∀ e ∈ between, ¬ Enqueues name id e) :
    (Delivers name id e₁ → Delivers name id e₂ → ∃ e ∈ between, Fails name id e) ∧ (Removes name id e₁ → ¬ Uses name id e₂) := by
  constructor
  · intro h₁ h₂
    by_contra hno
    have hfail : ∀ e ∈ between, ¬ Fails name id e := fun e he hf => hno ⟨e, he, hf⟩
    obtain ⟨ob, ob', hout, _, hm, _⟩ := h.between hok (P := Out id) (fun _ _ _ hm => (h₁.moved hm).2.1)
      fun e he _ _ hP hm => hP.step hm (hnew e he) (hfail e he)
    obtain ⟨⟨b, msg, rfl, hr⟩, _⟩ := h₂.moved hm
    exact hout b rfl _ hr rfl
  · intro h₁
    obtain ⟨ob, ob', hgone, _, hm, _⟩ := h.between hok (P := Gone id) (fun _ _ ht hm => h₁.gone ht hm)
      fun e he _ _ hP hm => hP.step hm (hnew e he)
    exact hgone.not_used hm

/-- A message delivered, nacked, delivered again and acked at once, and then touched. -/
def deliveredTwice : List Entry :=
  [⟨1, 0, .createQueue "jobs" "delayed" plain⟩, ⟨2, 0, .enqueue "jobs" 1 "" 0 "" none⟩, ⟨3, 0, .dequeue "jobs" false⟩,
    ⟨4, 0, .nack "jobs" 1 0 none⟩, ⟨5, 0, .dequeue "jobs" true⟩, ⟨6, 0, .touch "jobs" 1⟩]

theorem deliveredTwice_runs : (exec apply (new defaults (.new "n1" "" "")) deliveredTwice).isSome := rfl

theorem exclusive_delivery_twice :
    ∃ a b c d x y, ((exec apply (new defaults (.new "n1" "" "")) deliveredTwice).get deliveredTwice_runs).1 = [a, b, c, d, x, y] ∧
      Delivers "jobs" 1 c ∧ Delivers "jobs" 1 x ∧ (∃ e ∈ [d], Fails "jobs" 1 e) ∧ Removes "jobs" 1 x ∧ ¬ Uses "jobs" 1 y := by
  have hrun := Run.of_exec_isSome deliveredTwice_runs
  have hok : ∀ e ∈ ((exec apply (new defaults (.new "n1" "" "")) deliveredTwice).get deliveredTwice_runs).1,
      Admits "jobs" e.before e.input := by decide
  have hnack : ∀ {e : Event FSM Entry Reply} {entry : Entry} {p m}, e.input = entry → entry.command = .nack "jobs" 1 p m →
      ¬ Enqueues "jobs" 1 e := by
    rintro e _ p m rfl hc ⟨_, henq, _⟩
    rw [hc] at henq; cases henq
  refine ⟨_, _, _, _, _, _, rfl, ⟨false, _, rfl, rfl, rfl, rfl⟩, ⟨true, _, rfl, rfl, rfl, rfl⟩, ?_,
    Or.inl ⟨⟨true, _, rfl, rfl, rfl, rfl⟩, rfl⟩, ?_⟩
  · refine (@exclusive_delivery "jobs" 1 _ _ _ [_, _] [_] [_] _ _ hrun hok fun e he => ?_).1
      ⟨false, _, rfl, rfl, rfl, rfl⟩ ⟨true, _, rfl, rfl, rfl, rfl⟩
    rw [List.mem_singleton] at he
    subst he
    exact hnack rfl rfl
  · exact (@exclusive_delivery "jobs" 1 _ _ _ [_, _, _, _] [] [] _ _ hrun hok fun e he => (List.not_mem_nil he).elim).2
      (Or.inl ⟨⟨true, _, rfl, rfl, rfl, rfl⟩, rfl⟩)

end FSM

end Doq
