/-
  Doq.Raft.Leader — whom a node takes for the leader over its life (see
  `Doq.Raft.LeaderConfig`, `Doq.Raft.Commands`).

  `Set` writes the id and the addresses of a change first and splits the addresses then; one
  that does not split leaves the leader's own addresses at those of the change before. The
  raft and the gRPC address of a change split, since a node that listens on them has split
  them. The HTTP address is put together by `NotifyLeaderConfiguration` and splits only when
  the gRPC host has no colon in it, so an IPv6 host is enough to break it.

  Proved:
  - `leader_current_iff`: in every state of a life the fields are those of the latest change,
    and no node forwards to itself, exactly when every change has a plain HTTP address and a
    snapshot without a change in it goes only where it came from (`Announces`).
  - `ipv6_leader_proxies_to_itself`: otherwise the node that led before forwards to itself.
-/

import Doq.Raft.Commands
import Doq.Raft.DeliveryLimit

namespace Doq

open Lib Memory Storage

/-! ## Addresses -/

namespace Net

/-- An address that does not start with a bracket is cut at its last colon, and has no other
    colon and no bracket. -/
theorem splitHostPort_plain {host port : List Char} (hport : ':' ∉ port) (hhost : host.head? ≠ some '[') :
    splitHostPort (host ++ ':' :: port) =
      if ':' ∈ host ∨ '[' ∈ host ++ port ∨ ']' ∈ host ++ port then none else some (host, port) := by
  have hafter : ((host ++ ':' :: port).reverse.takeWhile (· ≠ ':')).reverse = port := by
    have hall : ∀ c ∈ port.reverse, decide (c ≠ ':') = true := by
      intro c hc
      exact decide_eq_true fun h => hport (h ▸ List.mem_reverse.mp hc)
    rw [List.reverse_append, List.reverse_cons, List.append_assoc, List.takeWhile_append_of_pos hall]
    simp
  have hbefore : (host ++ ':' :: port).take ((host ++ ':' :: port).length - port.length - 1) = host := by
    have hlen : (host ++ ':' :: port).length - port.length - 1 = host.length := by
      simp only [List.length_append, List.length_cons]
      omega
    rw [hlen, List.take_left]
  have hcolon : ¬ ':' ∉ host ++ ':' :: port := by simp
  unfold splitHostPort
  simp only [hafter, hbefore, if_neg hcolon]
  split
  · rename_i rest heq
    cases host with
    | nil => cases heq
    | cons c host =>
      cases heq
      exact absurd rfl hhost
  · have hbracket : ∀ c, c ≠ ':' → (c ∈ host ++ ':' :: port ↔ c ∈ host ++ port) := by
      intro c hc
      simp [hc]
    rw [if_congr (hbracket '[' (by decide)) rfl rfl, if_congr (hbracket ']' (by decide)) rfl rfl]
    by_cases h₁ : ':' ∈ host <;> by_cases h₂ : '[' ∈ host ++ port <;> by_cases h₃ : ']' ∈ host ++ port <;>
      simp only [h₁, h₂, h₃, if_true, if_false, or_true, true_or, or_self]

/-- No bracket is left in a host. -/
theorem host_unbracketed {hostport host port : List Char} (h : splitHostPort hostport = some (host, port)) :
    '[' ∉ host ∧ ']' ∉ host := by
  unfold splitHostPort at h
  simp only at h
  split at h
  · cases h
  · split at h
    · rename_i rest
      split at h
      · cases h
      · split at h
        · cases h
        · rename_i hopen
          split at h <;> cases h
          refine ⟨fun hm => hopen (List.takeWhile_subset _ hm), fun hm => ?_⟩
          exact absurd (List.mem_takeWhile_imp hm) (by simp)
    · split at h
      · cases h
      · split at h
        · cases h
        · rename_i hopen
          split at h
          · cases h
          · rename_i hclose
            cases h
            exact ⟨fun hm => hopen (List.mem_of_mem_take hm), fun hm => hclose (List.mem_of_mem_take hm)⟩

/-- A host without brackets and a port, joined by a colon: it splits when there is no other
    colon and no bracket. -/
theorem split_joined_iff {host port : List Char} (hopen : '[' ∉ host) (hclose : ']' ∉ host) :
    (splitHostPort (host ++ ':' :: port)).isSome ↔ ':' ∉ host ∧ ':' ∉ port ∧ '[' ∉ port ∧ ']' ∉ port := by
  have hhead : ∀ rest, (host ++ ':' :: rest).head? ≠ some '[' := by
    intro rest h
    cases host with
    | nil => exact absurd h (by simp)
    | cons c host =>
      cases h
      exact hopen List.mem_cons_self
  by_cases hport : ':' ∈ port
  · -- it is cut at the last colon of the port, so the first one is left over
    obtain ⟨after, before, hrev, hlast⟩ := List.eq_append_cons_of_mem (List.mem_reverse.mpr hport)
    have hcut : host ++ ':' :: port = (host ++ ':' :: before.reverse) ++ ':' :: after.reverse := by
      rw [← List.reverse_reverse port, hrev]
      simp
    rw [hcut, splitHostPort_plain (by simpa using hlast) (hhead _), if_pos (Or.inl (by simp))]
    exact iff_of_false (by simp) fun h => h.2.1 hport
  · have hhost : host.head? ≠ some '[' := fun h => hopen (List.mem_of_mem_head? h)
    rw [splitHostPort_plain hport hhost]
    by_cases h₁ : ':' ∈ host <;> by_cases h₂ : '[' ∈ port <;> by_cases h₃ : ']' ∈ port <;> simp [h₁, h₂, h₃, hopen, hclose, hport]

theorem joinHostPort_ne_nil (host port : List Char) : joinHostPort host port ≠ [] := by
  unfold joinHostPort
  split <;> simp

end Net

/-! ## One change -/

/-- The fields of a `LeaderConfigChange`, and of the item a snapshot opens with. -/
structure LeaderChange where
  nodeId : String
  raftAddr : String
  grpcAddr : String
  httpAddr : String
  deriving DecidableEq, Repr

def Command.leaderChange : Command → Option LeaderChange
  | .leaderConfigChange nodeId raftAddr grpcAddr httpAddr => some ⟨nodeId, raftAddr, grpcAddr, httpAddr⟩
  | _ => none

/-- The configuration whose fields all stem from the change. -/
def LeaderChange.formed (change : LeaderChange) : Option LeaderConfig := do
  let (host, raftPort) ← Net.splitHostPort change.raftAddr.toList
  let (_, grpcPort) ← Net.splitHostPort change.grpcAddr.toList
  let (_, httpPort) ← Net.splitHostPort change.httpAddr.toList
  some ⟨change.nodeId, change.httpAddr, change.raftAddr, change.grpcAddr, .ofList (Net.joinHostPort host httpPort),
    .ofList (Net.joinHostPort host grpcPort), .ofList (Net.joinHostPort host raftPort)⟩

namespace LeaderConfig

def setChange (c : LeaderConfig) (change : LeaderChange) : Bool × LeaderConfig :=
  c.set change.nodeId change.raftAddr change.grpcAddr change.httpAddr

/-- What a snapshot keeps of the configuration. -/
def kept (c : LeaderConfig) : LeaderChange := ⟨c.id, c.raftAddr, c.grpcAddr, c.httpAddr⟩

variable {c c' : LeaderConfig} {change : LeaderChange}

theorem setChange_formed (h : change.formed = some c') : c.setChange change = (true, c') := by
  unfold LeaderChange.formed at h
  obtain ⟨⟨host, raftPort⟩, hraft, h⟩ := Option.bind_eq_some_iff.mp h
  obtain ⟨⟨_, grpcPort⟩, hgrpc, h⟩ := Option.bind_eq_some_iff.mp h
  obtain ⟨⟨_, httpPort⟩, hhttp, h⟩ := Option.bind_eq_some_iff.mp h
  cases h
  simp only [setChange, LeaderConfig.set, hraft, hgrpc, hhttp]

theorem setChange_unformed (h : change.formed = none) : c.setChange change =
    (false,
      { c with id := change.nodeId, raftAddr := change.raftAddr, grpcAddr := change.grpcAddr, httpAddr := change.httpAddr }) := by
  unfold setChange LeaderConfig.set
  unfold LeaderChange.formed at h
  cases hraft : Net.splitHostPort change.raftAddr.toList with
  | none => rfl
  | some raft =>
    cases hgrpc : Net.splitHostPort change.grpcAddr.toList with
    | none => rfl
    | some grpc =>
      cases hhttp : Net.splitHostPort change.httpAddr.toList with
      | none => rfl
      | some http => simp [hraft, hgrpc, hhttp] at h

/-- What a snapshot keeps is enough to form the rest again. -/
theorem kept_of_formed (h : change.formed = some c) : c.kept = change := by
  unfold LeaderChange.formed at h
  obtain ⟨⟨host, raftPort⟩, _, h⟩ := Option.bind_eq_some_iff.mp h
  obtain ⟨⟨_, grpcPort⟩, _, h⟩ := Option.bind_eq_some_iff.mp h
  obtain ⟨⟨_, httpPort⟩, _, h⟩ := Option.bind_eq_some_iff.mp h
  cases h
  rfl

theorem leaderGrpcAddr_of_formed (h : change.formed = some c) : ∃ host raftPort grpcHost grpcPort,
    Net.splitHostPort change.raftAddr.toList = some (host, raftPort) ∧
      Net.splitHostPort change.grpcAddr.toList = some (grpcHost, grpcPort) ∧
      c.leaderGrpcAddr = .ofList (Net.joinHostPort host grpcPort) := by
  unfold LeaderChange.formed at h
  obtain ⟨⟨host, raftPort⟩, hraft, h⟩ := Option.bind_eq_some_iff.mp h
  obtain ⟨⟨grpcHost, grpcPort⟩, hgrpc, h⟩ := Option.bind_eq_some_iff.mp h
  obtain ⟨⟨_, httpPort⟩, _, h⟩ := Option.bind_eq_some_iff.mp h
  cases h
  exact ⟨host, raftPort, grpcHost, grpcPort, hraft, hgrpc, rfl⟩

end LeaderConfig

/-! ## What a node announces -/

/-- A node listens on its raft and its gRPC address. -/
def NodeConfig.Listens (cfg : NodeConfig) : Prop :=
  (Net.splitHostPort cfg.raftAddress.toList).isSome ∧ (Net.splitHostPort cfg.grpcAddress.toList).isSome

/-- The gRPC host is no IPv6 address, and the HTTP port is only a port. -/
def NodeConfig.PlainHttp (cfg : NodeConfig) : Prop :=
  ∀ host port, Net.splitHostPort cfg.grpcAddress.toList = some (host, port) →
    ':' ∉ host ∧ ':' ∉ cfg.httpPort.toList ∧ '[' ∉ cfg.httpPort.toList ∧ ']' ∉ cfg.httpPort.toList

theorem NodeConfig.raftAddr_of_notify {cfg : NodeConfig} {change : LeaderChange} {command : Command}
    (hn : cfg.notifyLeaderConfiguration = some command) (hc : command.leaderChange = some change) :
    change.raftAddr = cfg.raftAddress := by
  obtain ⟨_, _, hn⟩ := Option.bind_eq_some_iff.mp hn
  cases hn
  cases hc
  rfl

theorem NodeConfig.formed_iff {cfg : NodeConfig} {change : LeaderChange} {command : Command}
    (hn : cfg.notifyLeaderConfiguration = some command) (hc : command.leaderChange = some change)
    (hraft : (Net.splitHostPort cfg.raftAddress.toList).isSome) : change.formed.isSome ↔ cfg.PlainHttp := by
  obtain ⟨⟨host, port⟩, hgrpc, hn⟩ := Option.bind_eq_some_iff.mp hn
  cases hn
  cases hc
  obtain ⟨⟨raftHost, raftPort⟩, hraft⟩ := Option.isSome_iff_exists.mp hraft
  obtain ⟨hopen, hclose⟩ := Net.host_unbracketed hgrpc
  have hplain : cfg.PlainHttp ↔ ':' ∉ host ∧ ':' ∉ cfg.httpPort.toList ∧
    '[' ∉ cfg.httpPort.toList ∧ ']' ∉ cfg.httpPort.toList := by
    unfold NodeConfig.PlainHttp
    simp [hgrpc]
  rw [hplain, ← Net.split_joined_iff hopen hclose]
  simp only [LeaderChange.formed, hraft, hgrpc, Option.bind_eq_bind, Option.bind_some, String.toList_ofList]
  cases Net.splitHostPort (host ++ ':' :: cfg.httpPort.toList) <;> rfl

namespace FSM

/-! ## Steps that leave it alone -/

variable {f f' : FSM} {entry : Entry} {reply : Reply}

theorem onQueue_leaderConfig {α : Type} {queueName context : String} {method : Queue → Store → Config → Go (Queue.Outcome α)}
    {answer : α → FSMResponse} (h : respond (f.onQueue queueName context method answer) = some (reply, f')) :
    f'.leaderConfig = f.leaderConfig := by
  obtain ⟨⟨response, g⟩, h, hr⟩ := Option.bind_eq_some_iff.mp h
  cases hr
  obtain ⟨⟨found, qm⟩, _, h⟩ := Option.bind_eq_some_iff.mp h
  cases found with
  | error e => cases h; rfl
  | ok q =>
    obtain ⟨⟨r, q', store⟩, _, h⟩ := Option.bind_eq_some_iff.mp h
    cases r <;> cases h <;> rfl

/-- Only a `LeaderConfigChange` touches the leader's configuration. -/
theorem apply_leaderConfig (h : f.apply entry = some (reply, f')) : f'.leaderConfig =
    match entry.command.leaderChange with
    | none => f.leaderConfig
    | some change => (f.leaderConfig.setChange change).2 := by
  unfold apply at h
  unfold Command.leaderChange
  cases hc : entry.command <;> rw [hc] at h
  case leaderConfigChange => cases h; rfl
  case createQueue => cases h; rfl
  case updateQueue =>
    obtain ⟨⟨response, g⟩, h, hr⟩ := Option.bind_eq_some_iff.mp h
    cases hr
    obtain ⟨_, _, h⟩ := Option.bind_eq_some_iff.mp h
    cases h
    rfl
  case deleteQueue =>
    obtain ⟨⟨response, g⟩, h, hr⟩ := Option.bind_eq_some_iff.mp h
    cases hr
    obtain ⟨_, _, h⟩ := Option.bind_eq_some_iff.mp h
    cases h
    rfl
  case unset => cases h; rfl
  all_goals exact onQueue_leaderConfig h

theorem restoreItem_leaderConfig {st st' : Restoring} {item : SnapshotItem} (hi : ∀ a b c d, item ≠ .leaderConfiguration a b c d)
    (h : restoreItem st item = some st') : st'.fsm.leaderConfig = st.fsm.leaderConfig := by
  unfold restoreItem at h
  cases item with
  | leaderConfiguration a b c d => exact absurd rfl (hi a b c d)
  | queue config => cases h; rfl
  | unackedMessage id ackDeadline =>
    obtain ⟨_, _, h⟩ := Option.bind_eq_some_iff.mp h
    cases h
    rfl
  | roundRobinState nodes =>
    cases hq : st.q with
    | none => rw [hq] at h; cases h; rfl
    | some name =>
      rw [hq] at h
      obtain ⟨_, _, h⟩ := Option.bind_eq_some_iff.mp h
      cases h
      rfl
  | message msg =>
    obtain ⟨name, _, h⟩ := Option.bind_eq_some_iff.mp h
    obtain ⟨q, _, h⟩ := Option.bind_eq_some_iff.mp h
    obtain ⟨_, _, h⟩ := Option.bind_eq_some_iff.mp h
    cases h
    rfl

theorem restoreItems_leaderConfig {items : List SnapshotItem} (hi : ∀ a b c d, .leaderConfiguration a b c d ∉ items)
    {st st' : Restoring}
    (h : items.foldlM restoreItem st = some st') : st'.fsm.leaderConfig = st.fsm.leaderConfig := by
  induction items generalizing st with
  | nil => cases h; rfl
  | cons item items ih =>
    rw [List.foldlM_cons] at h
    obtain ⟨st₁, h₁, h⟩ := Option.bind_eq_some_iff.mp h
    rw [ih (fun a b c d hm => hi a b c d (List.mem_cons_of_mem _ hm)) h]
    exact restoreItem_leaderConfig (fun a b c d he => hi a b c d (he ▸ List.mem_cons_self)) h₁

theorem persistQueue_leaderless {name : String} {items : List SnapshotItem} (h : f.persistQueue name = some items)
    (a b c d : String) :
    .leaderConfiguration a b c d ∉ items := by
  obtain ⟨q, _, h⟩ := Option.bind_eq_some_iff.mp h
  obtain ⟨state, _, h⟩ := Option.bind_eq_some_iff.mp h
  obtain ⟨config, _, h⟩ := Option.bind_eq_some_iff.mp h
  cases hs : state.roundRobin with
  | none => simp only [hs] at h; cases h; simp
  | some nodes => simp only [hs] at h; cases h; simp

/-- A restore sets the leader's configuration to what the snapshot kept of it. -/
theorem restore_leaderConfig {prior : FSM} {names : List String} {items : List SnapshotItem} (hp : f.persist names = some items)
    (hr : prior.restore items = some f') : f'.leaderConfig = (prior.leaderConfig.setChange f.leaderConfig.kept).2 := by
  obtain ⟨blocks, hblocks, hp⟩ := Option.bind_eq_some_iff.mp hp
  cases hp
  obtain ⟨qm, _, st, hst, rfl⟩ := restore_some hr
  rw [List.foldlM_cons] at hst
  obtain ⟨st₁, h₁, hst⟩ := Option.bind_eq_some_iff.mp hst
  cases h₁
  rw [restoreItems_leaderConfig ?_ hst]
  · rfl
  · intro a b c d hm
    obtain ⟨block, hblock, hm⟩ := List.mem_flatten.mp hm
    obtain ⟨n, _, hn⟩ := of_mem_mapM hblocks hblock
    exact persistQueue_leaderless hn a b c d hm

/-! ## A life -/

/-- The latest change, after one more step. A restore brings the state of the snapshot with it. -/
def latest (change : Option LeaderChange) (e : Event FSM Happening (Option Reply)) : Option LeaderChange :=
  match e.input with
  | .entry entry => entry.command.leaderChange.or change
  | .restore _ _ => change

/-- All fields stem from the change; before any change they are those of a new node. -/
def Leads : Option LeaderChange → LeaderConfig → Prop
  | none, c => c = .new c.id c.raftAddr c.grpcAddr
  | some change, c => change.formed = some c

/-- The configuration a step calls `Set` on, and with what. -/
def setBy (e : Event FSM Happening (Option Reply)) : Option (LeaderConfig × LeaderChange) :=
  match e.input with
  | .entry entry => entry.command.leaderChange.map fun change => (e.before.leaderConfig, change)
  | .restore prior _ => some (prior.leaderConfig, e.before.leaderConfig.kept)

/-- A node with that state forwards to nobody or to the node of the change, which is another. -/
def ForwardsTo (change : Option LeaderChange) (f : FSM) : Prop :=
  ∀ n : Node, n.fsm = f → n.leaderGrpcAddr = .error .noRaftLeader ∨ ∃ c host raftPort grpcHost grpcPort, change = some c ∧
    Net.splitHostPort c.raftAddr.toList = some (host, raftPort) ∧
      Net.splitHostPort c.grpcAddr.toList = some (grpcHost, grpcPort) ∧
    n.leaderGrpcAddr = .ok (.ofList (Net.joinHostPort host grpcPort)) ∧ c.nodeId ≠ n.cfg.nodeID

/-- What should hold after a step, with the latest change. -/
structure Current (change : Option LeaderChange) (e : Event FSM Happening (Option Reply)) : Prop where
  leads : Leads change e.after.leaderConfig
  forwards : ForwardsTo change e.after
  rejected : ∀ c ch, setBy e = some (c, ch) → (c.setChange ch).1 = false → (c.setChange ch).2 = c

/-- A change is announced by a node that listens. -/
def Built (e : Event FSM Happening (Option Reply)) : Prop :=
  ∀ entry, e.input = .entry entry → entry.command.leaderChange ≠ none →
    ∃ cfg : NodeConfig, cfg.Listens ∧ cfg.notifyLeaderConfiguration = some entry.command

/-- The HTTP address of a change is plain, and a snapshot of a node that was never told of a
    leader is restored only into one with the same configuration. -/
def Announces (e : Event FSM Happening (Option Reply)) : Prop :=
  match e.input with
  | .entry entry => ∀ cfg : NodeConfig, cfg.notifyLeaderConfiguration = some entry.command → cfg.PlainHttp
  | .restore prior _ => e.before.leaderConfig.leaderGrpcAddr = "" → prior.leaderConfig = e.before.leaderConfig

variable {change : Option LeaderChange} {e : Event FSM Happening (Option Reply)}

theorem occur_leaderConfig (hs : e.before.occur e.input = some (e.output, e.after)) : e.after.leaderConfig =
    match setBy e with
    | none => e.before.leaderConfig
    | some (c, ch) => (c.setChange ch).2 := by
  obtain ⟨before, input, output, after⟩ := e
  cases input with
  | entry entry =>
    obtain ⟨r, hr, heq⟩ := Option.map_eq_some_iff.mp hs
    cases heq
    have hlc := apply_leaderConfig hr
    cases hc : entry.command.leaderChange <;> rw [hc] at hlc <;> simp only [setBy, hc, Option.map_none,
      Option.map_some] <;> exact hlc
  | restore prior names =>
    obtain ⟨items, hp, hs⟩ := Option.bind_eq_some_iff.mp hs
    obtain ⟨f', hr, hs⟩ := Option.bind_eq_some_iff.mp hs
    cases hs
    exact restore_leaderConfig hp hr

theorem Leads.forwards (h : Leads change f.leaderConfig) : ForwardsTo change f := by
  rintro n rfl
  unfold Node.leaderGrpcAddr
  split
  · exact Or.inl rfl
  · rename_i hknown
    rw [not_or] at hknown
    cases change with
    | none =>
      have h : n.fsm.leaderConfig = .new _ _ _ := h
      rw [h] at hknown
      exact absurd rfl hknown.1
    | some change =>
      have h : change.formed = some n.fsm.leaderConfig := h
      obtain ⟨host, raftPort, grpcHost, grpcPort, hraft, hgrpc, haddr⟩ := LeaderConfig.leaderGrpcAddr_of_formed h
      refine Or.inr ⟨change, host, raftPort, grpcHost, grpcPort, rfl, hraft, hgrpc, by rw [haddr], fun hid => hknown.2 ?_⟩
      rw [← hid, ← LeaderConfig.kept_of_formed h]
      rfl

theorem Current.of_leads (h : Leads change e.after.leaderConfig)
    (hset : ∀ c ch, setBy e = some (c, ch) → (c.setChange ch).1 = false → (c.setChange ch).2 = c) : Current change e :=
  ⟨h, h.forwards, hset⟩

/-- A change takes effect as a whole exactly when its addresses split. -/
theorem current_change_iff {entry : Entry} {ch : LeaderChange} {before after : FSM} {output : Option Reply}
    (hb : Built ⟨before, .entry entry, output, after⟩) (hc : entry.command.leaderChange = some ch)
    (hafter : after.leaderConfig = (before.leaderConfig.setChange ch).2) :
    Current (some ch) ⟨before, .entry entry, output, after⟩ ↔
      ∀ cfg : NodeConfig, cfg.notifyLeaderConfiguration = some entry.command → cfg.PlainHttp := by
  obtain ⟨cfg, ⟨hraft, _⟩, hn⟩ := hb entry rfl (by rw [hc]; nofun)
  constructor
  · intro h cfg' hn'
    have hraft' : (Net.splitHostPort cfg'.raftAddress.toList).isSome := by
      rw [← NodeConfig.raftAddr_of_notify hn' hc, NodeConfig.raftAddr_of_notify hn hc]
      exact hraft
    exact (NodeConfig.formed_iff hn' hc hraft').mp (Option.isSome_iff_exists.mpr ⟨_, h.leads⟩)
  · intro hplain
    obtain ⟨c, hformed⟩ := Option.isSome_iff_exists.mp ((NodeConfig.formed_iff hn hc hraft).mpr (hplain cfg hn))
    refine .of_leads ?_ fun c' ch' hset hfalse => ?_
    · show ch.formed = some after.leaderConfig
      rw [hafter, LeaderConfig.setChange_formed hformed, hformed]
    · simp only [setBy, hc, Option.map_some] at hset
      cases hset
      rw [LeaderConfig.setChange_formed hformed] at hfalse
      cases hfalse

/-- A snapshot with a change in it brings the configuration along as it was. -/
theorem current_restore_iff {prior before after : FSM} {names : List String} {output : Option Reply}
    (h : Leads change before.leaderConfig)
    (hafter : after.leaderConfig = (prior.leaderConfig.setChange before.leaderConfig.kept).2) :
    Current change ⟨before, .restore prior names, output, after⟩ ↔
      (before.leaderConfig.leaderGrpcAddr = "" → prior.leaderConfig = before.leaderConfig) := by
  cases change with
  | some ch =>
    have h : ch.formed = some before.leaderConfig := h
    have hformed : before.leaderConfig.kept.formed = some before.leaderConfig := by rw [LeaderConfig.kept_of_formed h, h]
    have hset : ∀ c : LeaderConfig, c.setChange before.leaderConfig.kept = (true, before.leaderConfig) :=
      fun c => LeaderConfig.setChange_formed hformed
    refine iff_of_true (.of_leads ?_ fun c ch' hby hfalse => ?_) fun haddr => ?_
    · show ch.formed = some after.leaderConfig
      rw [hafter, hset, h]
    · cases hby
      rw [hset] at hfalse
      cases hfalse
    · obtain ⟨host, _, _, grpcPort, _, _, hjoin⟩ := LeaderConfig.leaderGrpcAddr_of_formed h
      rw [haddr] at hjoin
      have hnil : [] = Net.joinHostPort host grpcPort := by simpa using congrArg String.toList hjoin
      exact absurd hnil.symm (Net.joinHostPort_ne_nil host grpcPort)
  | none =>
    -- the HTTP address of a new node is empty, so `Set` fails
    obtain ⟨_, id, httpAddr, raftAddr, grpcAddr, _, _, _⟩ := before
    cases h
    have hunformed : (LeaderConfig.new id raftAddr grpcAddr).kept.formed = none := by
      simp only [LeaderChange.formed, LeaderConfig.kept, LeaderConfig.new, Option.bind_eq_bind]
      cases Net.splitHostPort raftAddr.toList with
      | none => rfl
      | some raft =>
        cases Net.splitHostPort grpcAddr.toList <;> rfl
    have hset := LeaderConfig.setChange_unformed (c := prior.leaderConfig) hunformed
    have hafter : after.leaderConfig = (prior.leaderConfig.setChange (LeaderConfig.new id raftAddr grpcAddr).kept).2 := hafter
    constructor
    · intro hcur _
      have hsame : (prior.leaderConfig.setChange (LeaderConfig.new id raftAddr grpcAddr).kept).2 = prior.leaderConfig :=
        hcur.rejected _ _ rfl (by rw [hset])
      have hleads : after.leaderConfig = .new _ _ _ := hcur.leads
      rw [hafter, hset] at hleads
      rw [← hsame, hset, hleads]
      rfl
    · intro hprior
      have hprior : prior.leaderConfig = .new id raftAddr grpcAddr := hprior rfl
      rw [hset, hprior] at hafter
      refine .of_leads ?_ fun c ch hby _ => ?_
      · show after.leaderConfig = _
        rw [hafter]
        rfl
      · cases hby
        rw [hprior]
        exact congrArg Prod.snd (LeaderConfig.setChange_unformed hunformed)

theorem current_iff (hb : Built e) (hs : e.before.occur e.input = some (e.output, e.after))
    (h : Leads change e.before.leaderConfig) :
    Current (latest change e) e ↔ Announces e := by
  have hafter := occur_leaderConfig hs
  obtain ⟨before, input, output, after⟩ := e
  cases input with
  | restore prior names => exact current_restore_iff h hafter
  | entry entry =>
    cases hc : entry.command.leaderChange with
    | some ch =>
      simp only [setBy, hc, Option.map_some] at hafter
      simp only [latest, hc, Option.some_or]
      exact current_change_iff hb hc hafter
    | none =>
      simp only [setBy, hc, Option.map_none] at hafter
      refine iff_of_true (.of_leads ?_ fun c ch hby => ?_) fun cfg hn => ?_
      · simp only [latest, hc, Option.none_or, hafter]
        exact h
      · simp only [setBy, hc, Option.map_none] at hby
        cases hby
      · obtain ⟨_, _, hn⟩ := Option.bind_eq_some_iff.mp hn
        rw [← Option.some.inj hn] at hc
        cases hc

theorem leader_current_iff {cfg : Config} {nodeID raftAddr grpcAddr : String} {events : List (Event FSM Happening (Option Reply))}
    (r : Lives (new cfg (.new nodeID raftAddr grpcAddr)) events f) (hbuilt : ∀ e ∈ events, Built e) :
    (∀ earlier e later, events = earlier ++ e :: later → Current ((earlier ++ [e]).foldl latest none) e) ↔
      ∀ e ∈ events, Announces e :=
  r.each_iff latest (I := fun change f => Leads change f.leaderConfig) (fun _ e he hs h => current_iff (hbuilt e he) hs h)
    (fun _ _ h => h.leads) rfl

def ipv4Node (nodeID : String) : NodeConfig := ⟨nodeID, "10.0.0.1:9000", "10.0.0.1:10000", "8000"⟩

def ipv6Node (nodeID : String) : NodeConfig := ⟨nodeID, "[::1]:9000", "[::1]:10000", "8000"⟩

/-- A node without queues that announced itself at `host`. -/
def told (nodeID host : String) : FSM :=
  (new defaults (.new nodeID "" "")).applyLeaderConfigChange nodeID (host ++ ":9000") (host ++ ":10000") (host ++ ":8000")

/-- "n1" announces itself, and its state goes through a snapshot into "n2", which took itself for
    the leader. -/
theorem leader_current_restored : ∃ events f, Lives (new defaults (.new "n1" "" "")) events f ∧
    events.map Event.before = [new defaults (.new "n1" "" ""), told "n1" "10.0.0.1"] ∧
    (∀ earlier e later, events = earlier ++ e :: later → Current ((earlier ++ [e]).foldl latest none) e) ∧
    (Node.mk (ipv4Node "n2") false f).leaderGrpcAddr = .ok "10.0.0.1:10000" := by
  have hnotify : (ipv4Node "n1").notifyLeaderConfiguration =
      some (.leaderConfigChange "n1" "10.0.0.1:9000" "10.0.0.1:10000" "10.0.0.1:8000") := by decide +kernel
  have r : Lives (new defaults (.new "n1" "" ""))
      [⟨new defaults (.new "n1" "" ""), .entry ⟨1, 0,
        .leaderConfigChange "n1" "10.0.0.1:9000" "10.0.0.1:10000" "10.0.0.1:8000"⟩, some .nil,
          told "n1" "10.0.0.1"⟩,
        ⟨told "n1" "10.0.0.1", .restore (told "n2" "10.0.0.2") [], none,
          (new defaults (.new "n2" "" "")).applyLeaderConfigChange "n1" "10.0.0.1:9000" "10.0.0.1:10000" "10.0.0.1:8000"⟩] _ :=
    .cons rfl (.cons rfl (.nil _))
  refine ⟨_, _, r, rfl, (leader_current_iff r ?_).mpr ?_, by decide +kernel⟩
  · rw [List.forall_mem_cons, List.forall_mem_singleton]
    refine ⟨fun entry hin _ => ?_, fun entry hin => nomatch hin⟩
    cases hin
    exact ⟨ipv4Node "n1", ⟨rfl, rfl⟩, hnotify⟩
  · rw [List.forall_mem_cons, List.forall_mem_singleton]
    refine ⟨fun cfg hn => ?_, fun haddr => absurd haddr (by decide +kernel)⟩
    have hraft := NodeConfig.raftAddr_of_notify hn rfl
    exact (NodeConfig.formed_iff hn rfl (by rw [← hraft]; rfl)).mp rfl

/-- "n1" leads and then "n2", on IPv6: "n1" has the id of "n2" and still the address it had
    announced itself, and forwards to itself. -/
theorem ipv6_leader_proxies_to_itself :
    let n1 := ipv4Node "n1"
    let n2 := ipv6Node "n2"
    ∃ command₁ command₂ events f, n1.Listens ∧ n2.Listens ∧ n1.notifyLeaderConfiguration = some command₁ ∧
      n2.notifyLeaderConfiguration = some command₂ ∧ Runs (new defaults (.new "n1" n1.raftAddress n1.grpcAddress)) events f ∧
      events.map Event.input = [⟨1, 0, command₁⟩, ⟨2, 0, command₂⟩] ∧ f.leaderConfig.id = "n2" ∧
      (Node.mk n1 false f).leaderGrpcAddr = .ok n1.grpcAddress := by
  refine ⟨.leaderConfigChange "n1" "10.0.0.1:9000" "10.0.0.1:10000" "10.0.0.1:8000",
    .leaderConfigChange "n2" "[::1]:9000" "[::1]:10000" "::1:8000", _, _, ⟨rfl, rfl⟩, ⟨rfl, rfl⟩, by
      decide +kernel, by decide +kernel,
    .cons rfl (.cons rfl (.nil _)), rfl, by decide +kernel, by decide +kernel⟩

end FSM

end Doq
