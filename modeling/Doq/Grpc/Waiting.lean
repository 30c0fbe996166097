/-
  Doq.Grpc.Waiting — whether a stream that waits for a message can miss one (`DequeueStream` of
  `pkg/grpc/server.go`, `notify` and `NotifyChan` of `pkg/queue/queue.go`).

  The stream takes the queue's channel first and asks for a message then, so that a message that
  comes in between the two closes the channel before the stream waits on it. Other streams and
  other clients may do anything at any of these moments.

  Proved:
  - `no_lost_wakeup`: while the channel that a stream waits on is open, nothing is ready that was
    not when it took the channel; and if the guard of `Dequeue` found nothing by some reading of
    the clock, there still is nothing by that reading, unless an entry made the queue ready by a
    loss. Round-robin queues are given good groups only (`EnqueuesGood`).
-/

import Doq.Grpc.Streams
import Doq.Raft.Wakeups

namespace Doq

open Lib Memory Storage Serving
open MemoryQueue (Loss)

/-! ## What is ready while the channel is open -/

/-- No loss makes another message ready. -/
theorem Memory.MemoryQueue.Safe.lose_ids {m m' : MemoryQueue} {loss : Loss} (h : m.Safe) (hb : loss.Bounded)
    (hl : m.lose loss = some m') : m'.ready.map Item.id ≤ m.ready.map Item.id := by
  cases loss with
  | nothing =>
    cases hl
    exact le_rfl
  | take ack seed now =>
    obtain ⟨⟨item, m₁⟩, hd, rfl⟩ := Option.map_eq_some_iff.mp hl
    obtain ⟨_, _, hready⟩ := (h.dequeue ack seed now).result hd
    cases item with
    | none => exact (congrArg (Multiset.map Item.id) hready).le
    | some it =>
      rw [show m.ready = it ::ₘ m₁.ready from hready]
      exact Multiset.map_le_map (Multiset.le_cons_self _ _)
  | drop group id freed =>
    obtain ⟨⟨gone, m₁⟩, hd, hr⟩ := Option.bind_eq_some_iff.mp hl
    obtain ⟨hsafe, _, hready⟩ := (h.delete group id).result hd
    have hgone : m₁.ready ≤ m.ready := by
      cases gone with
      | none => exact (congrArg MemoryQueue.ready (show m₁ = m from hready)).le
      | some it =>
        rw [show m.ready = it ::ₘ m₁.ready from hready.2]
        exact Multiset.le_cons_self _ _
    cases freed with
    | false =>
      cases hr
      exact Multiset.map_le_map hgone
    | true =>
      rw [((hsafe.updateWeights group).result hr).2.2]
      exact Multiset.map_le_map hgone
  | release group => exact (congrArg (Multiset.map Item.id) ((h.updateWeights group).result hl).2.2).le
  | reprice group id priority =>
    rcases ((h.updatePriority group id priority).result hl).2.2 with hsame | ⟨it, rest, _, hready, hready'⟩
    · exact (congrArg (Multiset.map Item.id) hsame).le
    · rw [hready, hready']
      simp
  | limit maxUnacked =>
    cases hl
    exact (congrArg (Multiset.map Item.id) (h.updateMaxUnacked hb).2.2).le

/-- The messages in the memory queue, whether their time has come or not. -/
def Queue.readyIds (q : Queue) : Multiset UInt64 :=
  match q.queue with
  | none => 0
  | some m => m.ready.map Item.id

namespace FSM

variable {f g : FSM} {name : String} {q q' : Queue} {entry : Entry} {reply : Reply}

/-- An entry that leaves the channel open adds no message. -/
theorem Steady.readyIds_le (h : Steady f) (hgood : EnqueuesGood f entry) (hs : f.apply entry = some (reply, g))
    (hq : f.queueManager.queues.lookup name = some q) (hq' : g.queueManager.queues.lookup name = some q')
    (hopen : q'.notifyCh = q.notifyCh) : q'.readyIds ≤ q.readyIds := by
  cases hm : q.queue with
  | none => rw [h.still hs hq hm hq']
  | some m =>
    obtain ⟨config, _, hserved⟩ := h.safe.queue name q hq
    obtain ⟨m', hm', _, hturn⟩ := h.turned hgood hs hq hserved.config_eq hm hq'
    rcases hturn with ⟨_, hwoken⟩ | ⟨_, hlose⟩
    · omega
    · unfold Queue.readyIds
      rw [hm, hm']
      exact (h.fit hq hm).safe.lose_ids lossOf_bounded hlose

/-- Nothing is added over a run that leaves the channel open. -/
theorem Steady.unnoticed {later : List (Event FSM Entry Reply)} (h : Steady f) (r : Runs f later g)
    (hgood : ∀ e ∈ later, EnqueuesGood e.before e.input) (hkeep : ∀ e ∈ later, e.input.command ≠ .deleteQueue name)
    (hq : f.queueManager.queues.lookup name = some q) :
    ∃ q', g.queueManager.queues.lookup name = some q' ∧ q.notifyCh ≤ q'.notifyCh ∧
      (q'.notifyCh = q.notifyCh → q'.readyIds ≤ q.readyIds) := by
  refine (r.keeps (I := fun g => Steady g ∧ ∃ q', g.queueManager.queues.lookup name = some q' ∧ q.notifyCh ≤ q'.notifyCh ∧
    (q'.notifyCh = q.notifyCh → q'.readyIds ≤ q.readyIds)) (fun e he hs hI => ?_) ⟨h, q, hq, le_rfl, fun _ => le_rfl⟩).2
  obtain ⟨hsteady, q₁, hq₁, hle, hids⟩ := hI
  obtain ⟨q', hq'⟩ := hsteady.stays hs hq₁ (hkeep e he)
  have hle' := hsteady.notifyCh_le (hgood e he) hs hq₁ hq'
  refine ⟨hsteady.step (hgood e he) hs, q', hq', hle.trans hle', fun hopen => ?_⟩
  have hopen₁ : q₁.notifyCh = q.notifyCh := by omega
  exact (hsteady.readyIds_le (hgood e he) hs hq₁ hq' (by omega)).trans (hids hopen₁)

end FSM

/-! ## The channel of a stream -/

/-- The channel that a stream has taken. -/
def Phase.channel : Phase → Option Nat
  | .asking notify | .applying notify | .forwarded notify | .waiting notify => notify
  | _ => none

namespace Streams

variable {n n' : Node} {w w' : World} {e : Event World Act Out} {events : List (Event World Act Out)} {i c : Nat} {cfg : Config}
  {leaderConfig : LeaderConfig} {name : String} {clock : Int}

theorem channel_of_moves {s s' : DequeueStream} {act : DequeueStream.Act} {out : Out} (h : s.Moves n act out n' s')
    (hc : s'.phase.channel = some c) : s'.queueName = s.queueName ∧
      (act = .grab ∧ n.notifyChan s.queueName = some (some c, n') ∨ s.phase.channel = some c) := by
  cases h with
  | grabs notify n' hp hget =>
    obtain rfl : notify = some c := hc
    exact ⟨rfl, Or.inl ⟨rfl, hget⟩⟩
  | tries clock notify d n' hp hcall =>
    refine ⟨rfl, Or.inr ?_⟩
    rw [hp]
    cases d <;> exact hc
  | misses index now notify r f hp happly herr =>
    refine ⟨rfl, Or.inr ?_⟩
    rw [hp]
    exact hc
  | fails notify hp =>
    refine ⟨rfl, Or.inr ?_⟩
    rcases hp with hp | hp <;> rw [hp] <;> exact hc
  | _ => cases hc

theorem notifyChan_found (hsafe : n.fsm.Safe) (h : n.notifyChan name = some (some c, n')) :
    ∃ q, n.fsm.queueManager.queues.lookup name = some q ∧ q.notifyCh = c := by
  unfold Node.notifyChan QueueManager.getQueue at h
  cases hq : n.fsm.queueManager.queues.lookup name with
  | some q =>
    rw [hq] at h
    cases h
    exact ⟨q, rfl, rfl⟩
  | none =>
    have hs := (hsafe.missing name hq).1
    simp [hq, Queue.load, Storage.Store.loadQueue, Storage.noFaults, hs] at h

/-- The stream took the channel from the queue at one of the steps. -/
def Grabs (i : Nat) (name : String) (c : Nat) (events : List (Event World Act Out)) : Prop :=
  ∃ earlier grab later q, events = earlier ++ grab :: later ∧ grab.input = .own i .grab ∧
    grab.before.shared.fsm.queueManager.queues.lookup name = some q ∧ q.notifyCh = c

/-- A channel that a stream has is the one the queue had when the stream took it. -/
theorem grabbed (hsafe : n.fsm.Safe) (hrun : Run World.step (.start n) events w) (hc : (w.session i).phase.channel = some c) :
    Grabs i (w.session i).queueName c events := by
  refine hrun.snoc_rec (P := fun events w => (w.session i).phase.channel = some c → Grabs i (w.session i).queueName c events)
    (fun hc => by cases hc) ?_ hc
  intro events e hpast hs ih hc
  have hbefore : e.before.shared.fsm.Safe :=
    hpast.keeps (I := fun w => w.shared.fsm.Safe) (fun _ _ hs h => Service.safe_run hs h) hsafe
  -- What the stream had before the step, it took at an earlier one.
  have hkept : (e.before.session i).phase.channel = some c → (e.after.session i).queueName = (e.before.session i).queueName →
      Grabs i (e.after.session i).queueName c (events ++ [e]) := by
    intro hc hname
    obtain ⟨earlier, grab, later, q, rfl, hgrab, hq⟩ := ih hc
    exact ⟨earlier, grab, later ++ [e], q, by simp, hgrab, hname ▸ hq⟩
  rcases Sessions.turn hs i with ⟨act, hin, ho⟩ | ⟨_, hsame⟩
  · obtain ⟨hname, ⟨rfl, hget⟩ | hc'⟩ := channel_of_moves (DequeueStream.moves_of_step ho) hc
    · obtain ⟨q, hq, hch⟩ := notifyChan_found hbefore hget
      exact ⟨events, e, [], q, rfl, hin, hname ▸ hq, hch⟩
    · exact hkept hc' hname
  · exact hkept (hsame ▸ hc) (by rw [hsame])

/-- The guard of a stream's `Dequeue` finds nothing by its reading of the clock. -/
def Misses (i : Nat) (name : String) (clock : Int) (e : Event World Act Out) : Prop :=
  e.input = .own i (.ask clock) ∧ (e.before.session i).queueName = name ∧
    ∃ n, e.before.shared.localReady clock name = some (false, n)

theorem Misses.idle {q : Queue} (h : Misses i name clock e)
    (hq : e.before.shared.fsm.queueManager.queues.lookup name = some q) : ¬ q.Ready clock := by
  obtain ⟨_, _, n, hready⟩ := h
  unfold Node.localReady QueueManager.getQueue at hready
  rw [hq] at hready
  simp only [Option.bind_eq_bind, Option.bind_some] at hready
  obtain ⟨⟨ready, wait⟩, hpeek, hready⟩ := Option.bind_eq_some_iff.mp hready
  cases hready
  rintro ⟨wait', hpeek'⟩
  rw [hpeek] at hpeek'
  cases hpeek'

theorem steady_run (hsteady : w.shared.fsm.Steady) (hrun : Run World.step w events w')
    (hgood : ∀ fe ∈ events.filterMap logged, FSM.EnqueuesGood fe.before fe.input) : w'.shared.fsm.Steady :=
  Run.keeps (I := FSM.Steady) (fun fe hfe hs h => h.step (hgood fe hfe) hs) (Service.runs_logged hsteady.safe hrun) hsteady

/-- By a reading of the clock by which a stream found nothing there is nothing still. -/
theorem Misses.waits {ask : Event World Act Out} {between since : List (Event World Act Out)} {q₀ q : Queue}
    (h : Misses i name clock ask) (hsteady : w.shared.fsm.Steady) (hrun : Run World.step w (between ++ ask :: since) w')
    (hgood : ∀ fe ∈ (between ++ ask :: since).filterMap logged, FSM.EnqueuesGood fe.before fe.input)
    (hkeep : ∀ fe ∈ (between ++ ask :: since).filterMap logged, fe.input.command ≠ .deleteQueue name)
    (hno : ∀ fe ∈ since.filterMap logged, ¬ FSM.Opens name clock fe.before fe.input)
    (hq₀ : w.shared.fsm.queueManager.queues.lookup name = some q₀)
    (hq : w'.shared.fsm.queueManager.queues.lookup name = some q) (hopen : q.notifyCh = q₀.notifyCh) : ¬ q.Ready clock := by
  obtain ⟨hbetween, hs, hsince⟩ := hrun.at_event
  have hentry : service.entryOf ask = none := by simp only [Service.entryOf, h.1]; rfl
  have hlog : (between ++ ask :: since).filterMap logged = between.filterMap logged ++ since.filterMap logged := by
    rw [List.filterMap_append, List.filterMap_cons_none (by simp only [Service.logged, hentry])]
  rw [hlog] at hgood hkeep
  have hask := steady_run hsteady hbetween fun fe hfe => hgood fe (List.mem_append_left _ hfe)
  have hsame := Service.same_run hs hask.safe hentry
  -- The channel has been open all the time, so the queue that was asked had the same one.
  obtain ⟨q₁, hq₁, hle, _⟩ := hsteady.unnoticed (Service.runs_logged hsteady.safe hbetween)
    (fun fe hfe => hgood fe (List.mem_append_left _ hfe)) (fun fe hfe => hkeep fe (List.mem_append_left _ hfe)) hq₀
  have hruns := Service.runs_logged (by rw [hsame]; exact hask.safe) hsince
  rw [hsame] at hruns
  obtain ⟨q', hq', hwaits⟩ := hask.waits hruns (fun fe hfe => hgood fe (List.mem_append_right _ hfe))
    (fun fe hfe => hkeep fe (List.mem_append_right _ hfe)) hno hq₁ (h.idle hq₁)
  rw [hq] at hq'
  cases hq'
  rcases hwaits with hclosed | ⟨_, hidle⟩
  · omega
  · exact hidle

theorem no_lost_wakeup (hn : n.fsm = .new cfg leaderConfig) (hrun : Run World.step (.start n) events w)
    (hgood : ∀ fe ∈ events.filterMap logged, FSM.EnqueuesGood fe.before fe.input) (hw : (w.session i).phase = .waiting (some c)) :
    let name := (w.session i).queueName
    ∃ earlier grab later q₀, events = earlier ++ grab :: later ∧ grab.input = .own i .grab ∧
      grab.before.shared.fsm.queueManager.queues.lookup name = some q₀ ∧ q₀.notifyCh = c ∧
      ((∀ fe ∈ later.filterMap logged, fe.input.command ≠ .deleteQueue name) →
        ∃ q, w.shared.fsm.queueManager.queues.lookup name = some q ∧ c ≤ q.notifyCh ∧ (q.notifyCh = c →
          q.readyIds ≤ q₀.readyIds ∧
          ∀ between ask since clock, later = between ++ ask :: since → Misses i name clock ask →
            (∀ fe ∈ since.filterMap logged, ¬ FSM.Opens name clock fe.before fe.input) → ¬ q.Ready clock)) := by
  intro name
  have hsteady : n.fsm.Steady := hn ▸ FSM.new_steady cfg leaderConfig
  obtain ⟨earlier, grab, later, q₀, rfl, hgrab, hq₀, rfl⟩ := grabbed hsteady.safe hrun (by rw [hw]; rfl)
  refine ⟨earlier, grab, later, q₀, rfl, hgrab, hq₀, rfl, fun hkeep => ?_⟩
  obtain ⟨hpast, hs, hlater⟩ := hrun.at_event
  have hentry : service.entryOf grab = none := by simp only [Service.entryOf, hgrab]; rfl
  rw [List.filterMap_append, List.filterMap_cons_none (by simp only [Service.logged, hentry])] at hgood
  have hbefore := steady_run (w := .start n) hsteady hpast fun fe hfe => hgood fe (List.mem_append_left _ hfe)
  rw [← Service.same_run hs hbefore.safe hentry] at hq₀ hbefore
  have hgood' : ∀ fe ∈ later.filterMap logged, FSM.EnqueuesGood fe.before fe.input :=
    fun fe hfe => hgood fe (List.mem_append_right _ hfe)
  obtain ⟨q, hq, hle, hids⟩ := hbefore.unnoticed (Service.runs_logged hbefore.safe hlater) hgood' hkeep hq₀
  refine ⟨q, hq, hle, fun hopen => ⟨hids hopen, ?_⟩⟩
  rintro between ask since clock rfl hmisses hno
  exact hmisses.waits hbefore hlater hgood' hkeep hno hq₀ hq hopen

/-- A message comes in after a stream has taken the channel and before it asks; it is not due. -/
def raced : List Act :=
  [.aside ⟨1, 0, .createQueue "jobs" "delayed" FSM.plain⟩, .own 0 (.recv (some ("jobs", false))), .own 0 .grab,
    .aside ⟨2, 0, .enqueue "jobs" 1 "a" 10 "" none⟩, .own 0 (.ask 5)]

theorem raced_runs : (exec World.step (.start leader) raced).isSome := rfl

/-- The queue "jobs" of a step, before it. -/
def jobsBefore (e : Event World Act Out) : Option Queue := e.before.shared.fsm.queueManager.queues.lookup "jobs"

/-- The channel is closed before the stream waits on it. -/
theorem no_lost_wakeup_raced :
    let r := (exec World.step (.start leader) raced).get raced_runs
    (r.2.session 0).phase = .waiting (some 0) ∧
      ∃ q, r.2.shared.fsm.queueManager.queues.lookup "jobs" = some q ∧ q.readyIds = {1} ∧ 0 < q.notifyCh := by
  intro r
  have hgood : ∀ fe ∈ r.1.filterMap logged, FSM.EnqueuesGood fe.before fe.input := by decide
  have hkeep : ∀ fe ∈ r.1.filterMap logged, fe.input.command ≠ .deleteQueue "jobs" := by decide
  have hempty : ∀ e ∈ r.1, e.input = .own 0 .grab → ∀ q ∈ jobsBefore e, q.readyIds = 0 := by decide
  obtain ⟨earlier, grab, later, q₀, hsplit, hgrab, hq₀, _, hwaits⟩ :=
    no_lost_wakeup (i := 0) (c := 0) rfl (Run.of_exec_isSome raced_runs) hgood rfl
  have hlater : ∀ e ∈ later, e ∈ r.1 := fun e he => hsplit ▸ List.mem_append_right _ (List.mem_cons_of_mem _ he)
  obtain ⟨q, hq, _, hopen⟩ := hwaits fun fe hfe => by
    obtain ⟨e, he, hlog⟩ := List.mem_filterMap.mp hfe
    exact hkeep fe (List.mem_filterMap.mpr ⟨e, hlater e he, hlog⟩)
  have hids : ∀ q ∈ r.2.shared.fsm.queueManager.queues.lookup "jobs", q.readyIds = {1} := by decide
  refine ⟨rfl, q, hq, hids q hq, Nat.pos_of_ne_zero fun hclosed => ?_⟩
  have hle := (hopen hclosed).1
  rw [hids q hq, hempty grab (hsplit ▸ by simp) hgrab q₀ hq₀] at hle
  simp at hle

end Streams

end Doq
