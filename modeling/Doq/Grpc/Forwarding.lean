/-
  Doq.Grpc.Forwarding — a call that is passed on from node to node (`pkg/raft/commands.go`,
  `pkg/grpc/proxy.go`, `pkg/grpc/server.go`).

  A node that is not the leader sends a call to the node that announced itself last, as far as
  its replica has seen, and that one does the same. Replicas lag behind each other, so the node
  it reaches need not be the leader, nor send it on to the leader.

  Proved:
  - `forwards_bounded`: the announcements that the nodes on the way go by are later and later
    ones, unless one of the nodes has not applied an announcement of its own. So a call is passed
    on at most as often as leaders were announced. The addresses announced have a host and a
    port, and whoever listens there is the node that was announced.
  - `relayed_append`: what the leader appends is the same however many nodes pass it on.
-/

import Doq.Grpc.Server
import Doq.Raft.Leader

namespace Doq

open Lib

namespace FSM

/-- The leaders that were announced. -/
def announcements (log : List Entry) : List LeaderChange := log.filterMap (·.command.leaderChange)

variable {log : List Entry} {events : List (Event FSM Entry Reply)} {f f' : FSM}

theorem announcements_split (log : List Entry) (k : Nat) :
    announcements log = announcements (log.take k) ++ announcements (log.drop k) := by
  rw [announcements, announcements, announcements, ← List.filterMap_append, List.take_append_drop]

theorem announcements_take (log : List Entry) (k : Nat) :
    announcements (log.take k) = (announcements log).take (announcements (log.take k)).length := by
  rw [announcements_split log k, List.take_left' rfl]

theorem announcements_drop (log : List Entry) (k : Nat) :
    announcements (log.drop k) = (announcements log).drop (announcements (log.take k)).length := by
  rw [announcements_split log k, List.drop_left' rfl]

/-- A replica goes by the last one it has applied. -/
theorem Runs.leads (hrun : Runs f events f')
    (hformed : ∀ change ∈ announcements (events.map Event.input), change.formed ≠ none) {change : Option LeaderChange}
    (hstart : Leads change f.leaderConfig) :
    Leads ((announcements (events.map Event.input)).getLast?.or change) f'.leaderConfig := by
  induction hrun generalizing change with
  | nil => exact hstart
  | @cons s s' t entry reply events hs _ ih =>
    have hlc := apply_leaderConfig hs
    rw [List.map_cons] at hformed ⊢
    cases hc : entry.command.leaderChange with
    | none =>
      rw [hc] at hlc
      have heq : announcements (entry :: events.map Event.input) = announcements (events.map Event.input) :=
        List.filterMap_cons_none hc
      rw [heq] at hformed ⊢
      exact ih hformed (hlc ▸ hstart)
    | some ch =>
      rw [hc] at hlc
      have heq : announcements (entry :: events.map Event.input) = ch :: announcements (events.map Event.input) :=
        List.filterMap_cons_some hc
      rw [heq, List.forall_mem_cons] at hformed
      obtain ⟨c, hc⟩ := Option.ne_none_iff_exists'.mp hformed.1
      have hnext : Leads (some ch) s'.leaderConfig := by
        rw [show s'.leaderConfig = (s.leaderConfig.setChange ch).2 from hlc, LeaderConfig.setChange_formed hc]
        exact hc
      have hlast : (ch :: announcements (events.map Event.input)).getLast?.or change =
          (announcements (events.map Event.input)).getLast?.or (some ch) := by
        rw [List.getLast?_cons]
        cases (announcements (events.map Event.input)).getLast? <;> rfl
      rw [heq, hlast]
      exact ih hformed.2 hnext

end FSM

/-- A node that has applied the first entries of the log. -/
structure Peer (cfg : Config) (log : List Entry) where
  node : Node
  applied : Nat
  ran : ∃ f events raftAddr grpcAddr, FSM.Runs (.new cfg (.new node.cfg.nodeID raftAddr grpcAddr)) events f ∧
    events.map Event.input = log.take applied ∧ node.fsm.leaderConfig = f.leaderConfig

namespace Peer

variable {cfg : Config} {log : List Entry}

/-- The node was announced as the leader by an entry that it has not applied. -/
def Lags (r : Peer cfg log) : Prop := ∃ change ∈ FSM.announcements (log.drop r.applied), change.nodeId = r.node.cfg.nodeID

/-- How many announcements it has applied. -/
def version (r : Peer cfg log) : Nat := (FSM.announcements (log.take r.applied)).length

/-- A call on its way: each node is one that listens where the one before sends it. -/
inductive Path (listens : String → Peer cfg log → Prop) : NodeCall → List (Peer cfg log) → Dispatch → Prop
  | last {r : Peer cfg log} {call : NodeCall} {d : Dispatch} {n : Node} (clock : Int) (generated : UInt64)
      (h : r.node.call clock generated call = some (d, n)) : Path listens call [r] d
  | hop {r next : Peer cfg log} {call call' : NodeCall} {host : String} {request : Command} {n : Node}
      {path : List (Peer cfg log)} {d : Dispatch} (clock : Int) (generated : UInt64)
      (h : r.node.call clock generated call = some (.forward host request, n)) (hnext : listens host next)
      (hserved : QueueServer.served request = some call') (hrest : Path listens call' (next :: path) d) :
      Path listens call (r :: next :: path) d

/-- Who listens at the address of an announced leader is that leader. -/
def Honest (listens : String → Peer cfg log → Prop) : Prop :=
  ∀ host r, listens host r → ∀ change ∈ FSM.announcements log, ∀ c, change.formed = some c → c.leaderGrpcAddr = host →
    change.nodeId = r.node.cfg.nodeID

variable {r next : Peer cfg log} {listens : String → Peer cfg log → Prop} {host : String}

theorem dispatch_host {n : Node} {command request : Command} (h : n.dispatch command = .forward host request) :
    n.leaderGrpcAddr = .ok host := by
  unfold Node.dispatch at h
  split at h
  · cases h
  · split at h
    · cases h
    · rename_i heq
      cases h
      exact heq

theorem localReady_leaderConfig {n n' : Node} {clock : Int} {queueName : String} {ready : Bool}
    (h : n.localReady clock queueName = some (ready, n')) : n'.cfg = n.cfg ∧ n'.leading = n.leading ∧
      n'.fsm.leaderConfig = n.fsm.leaderConfig := by
  unfold Node.localReady at h
  obtain ⟨⟨r, qm⟩, _, h⟩ := Option.bind_eq_some_iff.mp h
  dsimp only at h
  split at h
  · cases h
    exact ⟨rfl, rfl, rfl⟩
  · obtain ⟨⟨ready, _⟩, _, h⟩ := Option.bind_eq_some_iff.mp h
    cases h
    exact ⟨rfl, rfl, rfl⟩

/-- Looking into the queue first changes nothing about where a node forwards to. -/
theorem forward_host {n n' : Node} {clock : Int} {generated : UInt64} {call : NodeCall} {request : Command}
    (h : n.call clock generated call = some (.forward host request, n')) : n.leaderGrpcAddr = .ok host := by
  unfold Node.call at h
  split at h
  · exact dispatch_host (Prod.mk.inj (Option.some.inj h)).1
  · obtain ⟨⟨ready, n₁⟩, hready, h⟩ := Option.bind_eq_some_iff.mp h
    obtain ⟨hcfg, _, hconfig⟩ := localReady_leaderConfig hready
    cases ready with
    | true =>
      have haddr := dispatch_host (Prod.mk.inj (Option.some.inj h)).1
      unfold Node.leaderGrpcAddr at haddr ⊢
      rwa [hcfg, hconfig] at haddr
    | false => cases h
  · exact dispatch_host (Prod.mk.inj (Option.some.inj h)).1

theorem leads (hformed : ∀ change ∈ FSM.announcements log, change.formed ≠ none) (r : Peer cfg log) :
    FSM.Leads ((FSM.announcements log).take r.version).getLast? r.node.fsm.leaderConfig := by
  obtain ⟨f, events, raftAddr, grpcAddr, hrun, hlog, hconfig⟩ := r.ran
  have htake := FSM.announcements_take log r.applied
  have hstart : FSM.Leads none (LeaderConfig.new r.node.cfg.nodeID raftAddr grpcAddr) := rfl
  have hleads := FSM.Runs.leads hrun (hlog ▸ fun change hc => hformed change ?_) hstart
  · rw [hlog, Option.or_none, htake] at hleads
    rw [hconfig]
    exact hleads
  · rw [htake] at hc
    exact List.mem_of_mem_take hc

theorem version_le (r : Peer cfg log) : r.version ≤ (FSM.announcements log).length :=
  ((List.take_sublist r.applied log).filterMap _).length_le

/-- A node that forwards goes by the last announcement it has applied, and that is not its own. -/
theorem forwards (hformed : ∀ change ∈ FSM.announcements log, change.formed ≠ none) (h : r.node.leaderGrpcAddr = .ok host) :
    ∃ change c, 0 < r.version ∧ (FSM.announcements log)[r.version - 1]? = some change ∧ change.formed = some c ∧
      c.leaderGrpcAddr = host ∧ change.nodeId ≠ r.node.cfg.nodeID := by
  have hleads := r.leads hformed
  unfold Node.leaderGrpcAddr at h
  split at h
  · cases h
  · rename_i hknown
    rw [not_or] at hknown
    cases h
    cases hlast : ((FSM.announcements log).take r.version).getLast? with
    | none =>
      rw [hlast] at hleads
      have hnew : r.node.fsm.leaderConfig = .new _ _ _ := hleads
      rw [hnew] at hknown
      exact absurd rfl hknown.1
    | some change =>
      rw [hlast] at hleads
      have hpos : 0 < r.version := by
        refine Nat.pos_of_ne_zero fun hzero => ?_
        rw [hzero] at hlast
        cases hlast
      refine ⟨change, r.node.fsm.leaderConfig, hpos, ?_, hleads, rfl, fun hid => hknown.2 ?_⟩
      · have hlen : ((FSM.announcements log).take r.version).length = r.version := by
          rw [List.length_take, Nat.min_eq_left r.version_le]
        rw [List.getLast?_eq_getElem?, hlen, List.getElem?_take, if_pos (by omega)] at hlast
        exact hlast
      · rw [← hid, ← LeaderConfig.kept_of_formed hleads]
        rfl

/-- The next one goes by a later announcement: the one that names it is among those it has applied,
    and it does not go by that. -/
theorem version_lt (hformed : ∀ change ∈ FSM.announcements log, change.formed ≠ none) (hhonest : Honest listens)
    (h : r.node.leaderGrpcAddr = .ok host) (hnext : listens host next) {host' : String}
    (h' : next.node.leaderGrpcAddr = .ok host') (hlag : ¬ next.Lags) : r.version < next.version := by
  obtain ⟨change, c, hpos, hat, hc, hhost, _⟩ := forwards hformed h
  obtain ⟨change', c', hpos', hat', _, _, hother⟩ := forwards hformed h'
  have hnamed := hhonest host next hnext change (List.mem_of_getElem? hat) c hc hhost
  by_contra hle
  by_cases he : r.version = next.version
  · rw [he, hat'] at hat
    cases hat
    exact hother hnamed
  · refine hlag ⟨change, ?_, hnamed⟩
    have hindex : next.version + (r.version - 1 - next.version) = r.version - 1 := by omega
    have hdrop : ((FSM.announcements log).drop next.version)[r.version - 1 - next.version]? = some change := by
      rw [List.getElem?_drop, hindex, hat]
    rw [FSM.announcements_drop]
    exact List.mem_of_getElem? hdrop

/-- Each of the nodes on the way but the last goes by another announcement. -/
theorem Path.length_le (hformed : ∀ change ∈ FSM.announcements log, change.formed ≠ none) (hhonest : Honest listens)
    {call : NodeCall} {path : List (Peer cfg log)} {d : Dispatch} (hpath : Path listens call (r :: path) d)
    (hlag : ∀ m ∈ path, ¬ m.Lags) (hne : path ≠ []) : path.length + r.version ≤ (FSM.announcements log).length + 1 := by
  induction path generalizing r call with
  | nil => exact absurd rfl hne
  | cons next path ih =>
    cases hpath with
    | hop _ _ h hnext hserved hrest =>
      have haddr := forward_host h
      rw [List.forall_mem_cons] at hlag
      cases path with
      | nil =>
        have hle := r.version_le
        simp only [List.length_cons, List.length_nil]
        omega
      | cons later path =>
        have hrest' := ih hrest hlag.2 (List.cons_ne_nil _ _)
        cases hrest with
        | hop _ _ h' hnext' hserved' hrest'' =>
          have hlt := version_lt hformed hhonest haddr hnext (forward_host h') hlag.1
          simp only [List.length_cons] at hrest' ⊢
          omega

theorem forwards_bounded (hformed : ∀ change ∈ FSM.announcements log, change.formed ≠ none) (hhonest : Honest listens)
    {call : NodeCall} {path : List (Peer cfg log)} {d : Dispatch} (hpath : Path listens call path d) :
    path.length ≤ (FSM.announcements log).length + 1 ∨ ∃ r ∈ path, r.Lags := by
  by_cases hlag : ∃ r ∈ path, r.Lags
  · exact Or.inr hlag
  · refine Or.inl ?_
    have hlag : ∀ r ∈ path, ¬ r.Lags := fun r hr hl => hlag ⟨r, hr, hl⟩
    cases hpath with
    | last _ _ _ => exact Nat.le_add_left 1 _
    | hop clock generated h hnext hserved hrest =>
      obtain ⟨_, _, hpos, _⟩ := forwards hformed (forward_host h)
      have hle := (Path.hop clock generated h hnext hserved hrest).length_le hformed hhonest
        (fun m hm => hlag m (List.mem_cons_of_mem _ hm)) (List.cons_ne_nil _ _)
      simp only [List.length_cons] at hle ⊢
      omega

/-- "n2" leads, and then "n1". -/
def succession : List Entry :=
  [⟨1, 0, .leaderConfigChange "n2" "10.0.0.2:9000" "10.0.0.2:10000" "10.0.0.2:8000"⟩,
    ⟨2, 0, .leaderConfigChange "n1" "10.0.0.1:9000" "10.0.0.1:10000" "10.0.0.1:8000"⟩]

/-- "n1" has started again and has not yet applied the entry it announced itself with. -/
def behind : Peer FSM.defaults succession where
  node := ⟨⟨"n1", "10.0.0.1:9000", "10.0.0.1:10000", "8000"⟩, false,
    (FSM.new FSM.defaults (.new "n1" "" "")).applyLeaderConfigChange "n2" "10.0.0.2:9000" "10.0.0.2:10000" "10.0.0.2:8000"⟩
  applied := 1
  ran := ⟨_, _, "", "", .cons rfl (.nil _), rfl, rfl⟩

/-- "n2" knows that "n1" has taken over. -/
def deposed : Peer FSM.defaults succession where
  node := ⟨⟨"n2", "10.0.0.2:9000", "10.0.0.2:10000", "8000"⟩, false,
    ((FSM.new FSM.defaults (.new "n2" "" "")).applyLeaderConfigChange "n2" "10.0.0.2:9000" "10.0.0.2:10000"
      "10.0.0.2:8000").applyLeaderConfigChange "n1" "10.0.0.1:9000" "10.0.0.1:10000" "10.0.0.1:8000"⟩
  applied := 2
  ran := ⟨_, _, "", "", .cons rfl (.cons rfl (.nil _)), rfl, rfl⟩

/-- The two send a call to each other. -/
theorem forwards_bounded_circle :
    let listens : String → Peer FSM.defaults succession → Prop := fun host r =>
      (r = behind ∨ r = deposed) ∧ r.node.cfg.grpcAddress = host
    Path listens (.ack "jobs" 7) [behind, deposed, behind, deposed] (.forward "10.0.0.1:10000" (.ack "jobs" 7)) ∧
      ∃ r ∈ [behind, deposed, behind, deposed], r.Lags := by
  intro listens
  have hthere : behind.node.call 0 0 (.ack "jobs" 7) = some (.forward "10.0.0.2:10000" (.ack "jobs" 7), behind.node) := rfl
  have hback : deposed.node.call 0 0 (.ack "jobs" 7) = some (.forward "10.0.0.1:10000" (.ack "jobs" 7), deposed.node) := rfl
  have hpath : Path listens (.ack "jobs" 7) [behind, deposed, behind, deposed] (.forward "10.0.0.1:10000" (.ack "jobs" 7)) :=
    .hop 0 0 hthere ⟨Or.inr rfl, rfl⟩ rfl
      (.hop 0 0 hback ⟨Or.inl rfl, rfl⟩ rfl (.hop 0 0 hthere ⟨Or.inr rfl, rfl⟩ rfl (.last 0 0 hback)))
  refine ⟨hpath, (forwards_bounded ?_ ?_ hpath).resolve_left (by decide)⟩
  · decide
  · rintro host r ⟨hr, rfl⟩ change hchange c hc hhost
    have haddr : change.formed.map (·.leaderGrpcAddr) = some r.node.cfg.grpcAddress := by rw [hc, ← hhost]; rfl
    rcases hr with rfl | rfl
    · exact (show ∀ change ∈ FSM.announcements succession, change.formed.map (·.leaderGrpcAddr) = some "10.0.0.1:10000" →
        change.nodeId = "n1" by decide +kernel) change hchange haddr
    · exact (show ∀ change ∈ FSM.announcements succession, change.formed.map (·.leaderGrpcAddr) = some "10.0.0.2:10000" →
        change.nodeId = "n2" by decide +kernel) change hchange haddr

/-! ## What is appended -/

/-- What a request has become when a server has taken it up. -/
def carried : Command → Command
  | .updateQueue name settings => .updateQueue name { settings with deliveryLimit := 0 }
  | request => request

/-- What the leader makes of a request: it fills in a missing id. -/
def numbered (generated : UInt64) : Command → Command
  | .enqueue queueName id group priority content metadata =>
    .enqueue queueName (if id = 0 then generated else id) group priority content metadata
  | request => request

theorem carried_carried (request : Command) : carried (carried request) = carried request := by
  cases request <;> rfl

theorem served_request {call call' : NodeCall} (h : QueueServer.served call.request = some call') :
    call'.request = carried call.request := by
  cases call with
  | createQueue queueType queueName settings =>
    cases h
    simp only [NodeCall.request, carried, QueueServer.settings_again]
  | updateQueue queueName settings =>
    cases h
    simp only [NodeCall.request, carried, QueueServer.settings_again]
  | _ => cases h; rfl

theorem dispatch_append {n : Node} {command request : Command} (h : n.dispatch request = .append command) :
    n.leading = true ∧ command = request := by
  unfold Node.dispatch at h
  split at h
  · rename_i hl
    cases h
    exact ⟨hl, rfl⟩
  · split at h <;> cases h

theorem call_append {n n' : Node} {clock : Int} {generated : UInt64} {call : NodeCall} {command : Command}
    (h : n.call clock generated call = some (.append command, n')) :
    n.leading = true ∧ command = numbered generated call.request := by
  cases call with
  | enqueue queueName id group priority content metadata =>
    obtain ⟨hl, rfl⟩ := dispatch_append (Prod.mk.inj (Option.some.inj h)).1
    simp [hl, NodeCall.request, numbered]
  | dequeue queueName ack =>
    obtain ⟨⟨ready, n₁⟩, hready, h⟩ := Option.bind_eq_some_iff.mp h
    cases ready with
    | true =>
      obtain ⟨hl, rfl⟩ := dispatch_append (Prod.mk.inj (Option.some.inj h)).1
      exact ⟨(localReady_leaderConfig hready).2.1 ▸ hl, rfl⟩
    | false => cases h
  | _ =>
    obtain ⟨hl, rfl⟩ := dispatch_append (Prod.mk.inj (Option.some.inj h)).1
    exact ⟨hl, rfl⟩

theorem relayed_append {call : NodeCall} {path : List (Peer cfg log)} {command : Command}
    (hpath : Path listens call path (.append command)) :
    (∃ r ∈ path.getLast?, r.node.leading = true) ∧
      ∃ generated, command = numbered generated (if path.length = 1 then call.request else carried call.request) := by
  generalize hd : Dispatch.append command = d at hpath
  induction hpath with
  | last clock generated h =>
    subst hd
    obtain ⟨hl, rfl⟩ := call_append h
    exact ⟨⟨_, rfl, hl⟩, _, rfl⟩
  | hop _ _ h hnext hserved hrest ih =>
    obtain ⟨⟨r, hr, hl⟩, generated, rfl⟩ := ih hd
    obtain rfl := Node.request_of_forward h
    refine ⟨⟨r, by simpa using hr, hl⟩, generated, ?_⟩
    -- a second server finds nothing more to lose
    rw [served_request hserved, carried_carried, ite_self, if_neg (by simp)]

/-- The leader after the succession. -/
def leader : Peer FSM.defaults succession where
  node := ⟨⟨"n1", "10.0.0.1:9000", "10.0.0.1:10000", "8000"⟩, true,
    ((FSM.new FSM.defaults (.new "n1" "" "")).applyLeaderConfigChange "n2" "10.0.0.2:9000" "10.0.0.2:10000"
      "10.0.0.2:8000").applyLeaderConfigChange "n1" "10.0.0.1:9000" "10.0.0.1:10000" "10.0.0.1:8000"⟩
  applied := 2
  ran := ⟨_, _, "", "", .cons rfl (.cons rfl (.nil _)), rfl, rfl⟩

/-- A node that still takes "n2" for the leader. -/
def late : Peer FSM.defaults succession where
  node := ⟨⟨"n3", "10.0.0.3:9000", "10.0.0.3:10000", "8000"⟩, false,
    (FSM.new FSM.defaults (.new "n3" "" "")).applyLeaderConfigChange "n2" "10.0.0.2:9000" "10.0.0.2:10000" "10.0.0.2:8000"⟩
  applied := 1
  ran := ⟨_, _, "", "", .cons rfl (.nil _), rfl, rfl⟩

/-- From "n3" over "n2" to "n1", which makes up the id. -/
theorem relayed_append_twice :
    let listens : String → Peer FSM.defaults succession → Prop := fun host r => r.node.cfg.grpcAddress = host
    let call : NodeCall := .enqueue "jobs" 0 "a" 5 "x" none
    Path listens call [late, deposed, leader] (.append (.enqueue "jobs" 42 "a" 5 "x" none)) ∧
      ∃ generated, Command.enqueue "jobs" 42 "a" 5 "x" none = numbered generated (carried call.request) := by
  intro listens call
  have hpath : Path listens call [late, deposed, leader] (.append (.enqueue "jobs" 42 "a" 5 "x" none)) :=
    .hop 0 0 rfl rfl rfl (.hop 0 0 rfl rfl rfl (.last 0 42 rfl))
  exact ⟨hpath, (relayed_append hpath).2⟩

end Peer

end Doq
