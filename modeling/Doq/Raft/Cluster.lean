/-
  Doq.Raft.Cluster — the replicas of a cluster (`raft.NewRaft` with the state machine of
  `pkg/raft/fsm.go`, in `pkg/raft/node.go`), as `Doq.Lib.Replication` has them.

  Raft gives every node the same log. A node applies the entries in their order, each at its
  own pace. It saves snapshots, and loads one, its own or another node's, over the state it is
  in. Nodes start empty: what a node finds in its store when it starts again is not part of it.

  Proved:
  - `replicas_agree`: whatever the interleaving, nodes answer an entry alike, nodes that have
    applied equally much look alike, and no node gets stuck, if the log is one a fresh node
    can run and keeps to what twins need (`Keeps`).
-/

import Doq.Lib.Replication
import Doq.Raft.Equivalence

namespace Doq

open Lib Memory Storage

/-! ## Twins of twins -/

namespace Refines

variable {name : String} {b b' : Broker} {q : Queue} {store : Store}

/-- A queue and what is stored are one broker. -/
theorem unique (h : Refines name b q store) (h' : Refines name b' q store) : b = b' := by
  have hconfig : b.config = b'.config := Option.some.inj (h.config_eq.symm.trans h'.config_eq)
  have hmemory : b.memory = b'.memory := Option.some.inj (h.queue_eq.symm.trans h'.queue_eq)
  have hrecords : b.records = b'.records := by
    funext id
    have hstored := (h.stored id).symm.trans (h'.stored id)
    cases hr : b.records id with
    | none =>
      rw [hr] at hstored
      exact (Option.map_eq_none_iff.mp hstored.symm).symm
    | some r =>
      rw [hr] at hstored
      obtain ⟨r', hr', hmsg⟩ := Option.map_eq_some_iff.mp hstored.symm
      obtain ⟨msg, status⟩ := r
      obtain ⟨msg', status'⟩ := r'
      cases (show msg' = msg from hmsg)
      -- where it is held says what its status is
      cases status with
      | ready =>
        have hin := h.mem_ready hr
        rw [hmemory] at hin
        obtain ⟨m, hm, _⟩ := h'.record_of_ready hin
        rw [hr'] at hm
        cases hm
        exact hr'.symm
      | inFlight d =>
        have hlook : (b.records id).bind Record.ackItem = some ⟨msg.id, d, msg.group⟩ := by rw [hr]; rfl
        have hlook' := (h'.ack.mem _).mp (h.ack.of_look hlook)
        rw [show msg.id = id from h.keyed id _ hr, hr'] at hlook'
        cases status' with
        | ready => cases hlook'
        | inFlight d' => cases hlook'; exact hr'.symm
  obtain ⟨c, r, m⟩ := b
  obtain ⟨c', r', m'⟩ := b'
  cases hconfig; cases hmemory; cases hrecords
  rfl

end Refines

theorem Memory.MemoryQueue.Alike.trans {a b c : MemoryQueue} (h : a.Alike b) (h' : b.Alike c) : a.Alike c := by
  refine ⟨h.inv, h'.inv', h'.kind.trans h.kind, h'.ready.trans h.ready, fun g => (h'.unacked g).trans (h.unacked g),
    h'.max.trans h.max, h.synced, h'.synced', ?_⟩
  have hp := h.paced
  have hp' := h'.paced
  have hk := h.kind
  cases a with
  | fairRoundRobin q =>
    obtain ⟨q', rfl⟩ := MemoryQueue.eq_of_kind (show b.kind = .fairRoundRobin from hk)
    cases c with
    | fairRoundRobin q'' => exact FairRoundRobinQueue.Paced.trans hp hp'
    | delayed => trivial
    | fairWeighted => trivial
  | delayed q => trivial
  | fairWeighted q => trivial

namespace FSM

variable {cfg : Config} {K : MemoryQueue.Kind → Prop} {f g h : FSM} {name : String}

theorem Tracks.unique {b b' : Broker} (ht : Tracks name (some b) f) (ht' : Tracks name (some b') f) : b = b' := by
  obtain ⟨q, hq, _, href⟩ := ht.present b rfl
  obtain ⟨q', hq', _, href'⟩ := ht'.present b' rfl
  rw [hq] at hq'
  cases hq'
  exact href.unique href'

theorem Same.trans (hfg : Same cfg K name f g) (hgh : Same cfg K name g h) : Same cfg K name f h := by
  cases hfg with
  | missing hf hg =>
    cases hgh with
    | missing _ hh => exact .missing hf hh
    | present b _ ht _ _ _ _ =>
      obtain ⟨q, hq, _⟩ := ht.present b rfl
      rw [hg] at hq; cases hq
  | present a b hf hg hab ha hn =>
    cases hgh with
    | missing hg' _ =>
      obtain ⟨q, hq, _⟩ := hg.present b rfl
      rw [hg'] at hq; cases hq
    | present b' c hg' hh hbc _ _ =>
      cases hg.unique hg'
      exact .present a c hf hh ⟨hbc.config.trans hab.config, hbc.records.trans hab.records, hab.memory.trans hbc.memory⟩ ha hn

theorem Twins.trans (hfg : Twins cfg K f g) (hgh : Twins cfg K g h) : Twins cfg K f h :=
  ⟨hfg.safe, hgh.safe', hfg.config, hgh.config', fun name => (hfg.queue name).trans (hgh.queue name)⟩

/-! ## Replicas -/

/-- The items are a snapshot of the state. `Persist` walks the queues in any order. -/
def Saves (f : FSM) (items : List SnapshotItem) : Prop :=
  ∃ names : List String, names.Perm f.queueManager.queues.keys ∧ f.persist names = some items

abbrev Cluster (κ : Type) := World κ FSM Entry Reply (List SnapshotItem)

/-- Twins answer alike, and a snapshot of a twin is loaded as a twin. -/
theorem twins_replicable (h10 : 10 ≤ cfg.defaultAckTimeout) :
    Replicable apply Saves restore (Twins cfg K) fun e => Keeps K e.before e.input where
  step_alike _ _ hform hs ht := ht.step h10 hform hs
  loads s t u v items hst hsaves hvu := by
    obtain ⟨names, hperm, hp⟩ := hsaves
    obtain ⟨items', u', hitems, hu', ht⟩ := (hst.symm.trans hst).restored hvu.safe' hvu.config' hperm
    rw [hp] at hitems
    cases hitems
    exact ⟨u', hu', hst.trans ht⟩

theorem twins_fresh (cfg : Config) (K : MemoryQueue.Kind → Prop) (leaderConfig leaderConfig' : LeaderConfig) :
    Twins cfg K (new cfg leaderConfig) (new cfg leaderConfig') :=
  ⟨new_safe cfg leaderConfig, new_safe cfg leaderConfig', rfl, rfl, fun _ => .missing rfl rfl⟩

theorem replicas_agree {κ : Type} [DecidableEq κ] {leaderConfigs : κ → LeaderConfig} {leaderConfig : LeaderConfig}
    {w : Cluster κ} {events : List (Event FSM Entry Reply)} {final : FSM} (h10 : 10 ≤ cfg.defaultAckTimeout)
    (hw : World.Reaches apply Saves restore (.new fun k => new cfg (leaderConfigs k)) w)
    (r : Runs (new cfg leaderConfig) events final) (hlog : events.map Event.input = w.log)
    (hform : ∀ e ∈ events, Keeps K e.before e.input) :
    (∀ k l n o o', (k, n, o) ∈ w.answers → (l, n, o') ∈ w.answers → o = o') ∧
    (∀ k l, (w.replicas k).applied = (w.replicas l).applied → LooksLike (w.replicas k).state (w.replicas l).state) ∧
    ∀ k entry, w.log[(w.replicas k).applied]? = some entry → ((w.replicas k).state.apply entry).isSome := by
  have hle : w.log <+: events.map Event.input := hlog ▸ List.prefix_rfl
  have hfollows := World.Reaches.follows hw (twins_replicable (K := K) h10) (fun k => twins_fresh cfg K leaderConfig _) r
    hform hle
  refine ⟨fun k l n o o' ho ho' => ?_, fun k l heq => ?_, fun k entry hentry => ?_⟩
  · obtain ⟨e, he, rfl⟩ := hfollows.answers k n o ho
    obtain ⟨e', he', rfl⟩ := hfollows.answers l n o' ho'
    rw [he] at he'
    cases he'
    rfl
  · have hk := hfollows.replicas k
    rw [heq] at hk
    exact (hk.symm.trans (hfollows.replicas l)).looksLike
  · obtain ⟨e, s', _, hs, _⟩ := hfollows.answer (twins_replicable h10) r hform hle hentry
    rw [hs]
    rfl

/-- A queue with a message, and its delivery. -/
def deliveredLog : List Entry :=
  [⟨1, 0, .createQueue "jobs" "fair" ⟨.roundRobin, 2, 60, 0⟩⟩, ⟨2, 0, .enqueue "jobs" 1 "a" 0 "" none⟩,
    ⟨3, 5, .dequeue "jobs" false⟩]

theorem deliveredLog_runs : (exec apply (new defaults (.new "n1" "" "")) deliveredLog).isSome := rfl

theorem deliveredLog_form :
    ∀ e ∈ ((exec apply (new defaults (.new "n1" "" "")) deliveredLog).get deliveredLog_runs).1, OnRoundRobin e := by
  decide +kernel

theorem deliveredLog_two_runs : (exec apply (new defaults (.new "n1" "" "")) (deliveredLog.take 2)).isSome := rfl

theorem deliveredLog_two_form :
    ∀ e ∈ ((exec apply (new defaults (.new "n1" "" "")) (deliveredLog.take 2)).get deliveredLog_two_runs).1, OnRoundRobin e := by
  decide +kernel

/-- The first node applies two entries and saves its state; the second loads that, and both apply
    the third entry. -/
theorem replicas_agree_loaded :
    ∃ (w : Cluster Bool) (o o' : Reply), World.Reaches apply Saves restore (.new fun _ => new defaults (.new "n1" "" "")) w ∧
      w.answers.map (fun a => (a.1, a.2.1)) = [(false, 2), (true, 2), (true, 1), (true, 0)] ∧
      (true, 2, o) ∈ w.answers ∧ (false, 2, o') ∈ w.answers ∧ o = o' ∧
      LooksLike (w.replicas true).state (w.replicas false).state := by
  have h10 : 10 ≤ defaults.defaultAckTimeout := by decide
  have htwins := Runs.twins (K := (· = .fairRoundRobin)) (Run.of_exec_isSome deliveredLog_two_runs) h10
    fun e he => (deliveredLog_two_form e he).keeps
  -- what the second node loads, and how it answers
  obtain ⟨items, g, hitems, hg, ht⟩ := htwins.restored (new_safe defaults (.new "n1" "" "")) rfl (.refl ["jobs"])
  have hkeeps := (deliveredLog_form _ (List.getLast_mem (List.cons_ne_nil _ _))).keeps
  obtain ⟨g', hg', _⟩ := ht.step h10 hkeeps rfl
  have hw : World.Reaches apply Saves restore (.new fun _ => new defaults (.new "n1" "" "")) _ :=
    Relation.ReflTransGen.refl.tail (.commit _ ⟨1, 0, .createQueue "jobs" "fair" ⟨.roundRobin, 2, 60, 0⟩⟩)
      |>.tail (.commit _ ⟨2, 0, .enqueue "jobs" 1 "a" 0 "" none⟩)
      |>.tail (.commit _ ⟨3, 5, .dequeue "jobs" false⟩)
      |>.tail (.apply _ true rfl rfl) |>.tail (.apply _ true rfl rfl)
      |>.tail (.save _ true ⟨["jobs"], .refl _, hitems⟩)
      |>.tail (.load _ false List.mem_cons_self hg)
      |>.tail (.apply _ true rfl rfl) |>.tail (.apply _ false rfl hg')
  obtain ⟨hanswers, hstates, _⟩ := replicas_agree (K := (· = .fairRoundRobin)) h10 hw (Run.of_exec_isSome deliveredLog_runs) rfl
    fun e he => (deliveredLog_form e he).keeps
  exact ⟨_, _, _, hw, rfl, List.mem_cons_of_mem _ List.mem_cons_self, List.mem_cons_self,
    hanswers true false 2 _ _ (List.mem_cons_of_mem _ List.mem_cons_self) List.mem_cons_self, hstates true false rfl⟩

end FSM

end Doq
