/-
  Doq.Raft.Membership — who is in the cluster, and the number each node makes its ids with
  (`Join`, `Leave` and `InitIDGenerator` of `pkg/raft/node.go`).

  The configuration of the Raft group is a list of servers, which only the library's calls
  change. What they do is taken as it is documented (`RaftCalls.Documented`); a call that fails
  may have been carried out all the same. `Join` may make several calls and fail between them.

  Proved:
  - `members_exact`: through all joins and leaves, also those that fail half way, no id and no
    address is there twice; a server that has joined stays until it leaves or another one asks
    to join with its id or its address, and one that was replaced stays out until it asks to
    join again.
  - `numbers_distinct_iff`: nodes that join one after another get different numbers exactly if
    each has an id that comes after all those before it.
-/

import Doq.Lib.Run
import Doq.Storage.Keys
import Mathlib.Data.List.Count

namespace Doq

open Lib Storage

/-- A server of the configuration. All are voters. -/
structure Server where
  id : String
  addr : String
  deriving DecidableEq, Repr

namespace Servers

/-- The calls of the Raft library that one method makes: the error of `GetConfiguration`, and for
    the others the error and the configuration they leave. -/
structure RaftCalls where
  getConfiguration : Option String
  removeServer : List Server → String → Option String × List Server
  addVoter : List Server → String → String → Option String × List Server

/-- `RemoveServer` takes the server with an id out, and `AddVoter` puts a server in that is not
    there. A call that fails may not have been carried out. -/
structure RaftCalls.Documented (calls : RaftCalls) : Prop where
  removed : ∀ servers id, (calls.removeServer servers id).2.Perm (servers.filter (·.id ≠ id)) ∨
    (calls.removeServer servers id).1 ≠ none ∧ (calls.removeServer servers id).2 = servers
  added : ∀ servers id addr, (∀ s ∈ servers, s.id ≠ id) →
    (calls.addVoter servers id addr).2.Perm (⟨id, addr⟩ :: servers) ∨
      (calls.addVoter servers id addr).1 ≠ none ∧ (calls.addVoter servers id addr).2 = servers

/-- The loop of `Join` over the configuration it has read: done early if the server is there
    already, and an error if one that is in its way cannot be removed. -/
def clear (calls : RaftCalls) (nodeID addr : String) : List Server → List Server → Except String Bool × List Server
  | [], servers => (.ok false, servers)
  | srv :: rest, servers =>
    if srv.id = nodeID ∨ srv.addr = addr then
      if srv.addr = addr ∧ srv.id = nodeID then (.ok true, servers)
      else
        match calls.removeServer servers srv.id with
        | (some err, servers) => (.error ("error removing existing node " ++ nodeID ++ " at " ++ addr ++ ": " ++ err), servers)
        | (none, servers) => clear calls nodeID addr rest servers
    else clear calls nodeID addr rest servers

/-- The error that a call ended with. -/
def result : Option String → Except String Unit
  | some err => .error err
  | none => .ok ()

def join (calls : RaftCalls) (nodeID addr : String) (servers : List Server) : Except String Unit × List Server :=
  match calls.getConfiguration with
  | some err => (.error err, servers)
  | none =>
    match clear calls nodeID addr servers servers with
    | (.error err, servers) => (.error err, servers)
    | (.ok true, servers) => (.ok (), servers)
    | (.ok false, servers) => (result (calls.addVoter servers nodeID addr).1, (calls.addVoter servers nodeID addr).2)

def leave (calls : RaftCalls) (nodeID : String) (servers : List Server) : Except String Unit × List Server :=
  (result (calls.removeServer servers nodeID).1, (calls.removeServer servers nodeID).2)

/-- The number of the node's id generator: its place among the servers in the order of their ids,
    or 0 if it is not one of them. It stays as it was if the configuration cannot be read or the
    number does not fit in ten bits. -/
def initIDGenerator (number : Nat) (configuration : Except String (List Server)) (nodeID : String) : Except String Unit × Nat :=
  match configuration with
  | .error err => (.error err, number)
  | .ok servers =>
    let servers := servers.mergeSort fun a b => decide (bytes a.id ≤ bytes b.id)
    let place := match servers.findIdx? (·.id = nodeID) with
      | some i => i + 1
      | none => 0
    if place ≤ 1023 then (.ok (), place) else (.error "Node number must be between 0 and 1023", number)

/-! ## Joining and leaving -/

/-- No id and no address twice. -/
structure Valid (servers : List Server) : Prop where
  ids : (servers.map (·.id)).Nodup
  addrs : (servers.map (·.addr)).Nodup

variable {servers servers' : List Server} {calls : RaftCalls} {nodeID addr : String} {s : Server}

theorem result_ok {error : Option String} (h : result error = .ok ()) : error = none := by
  cases error with
  | none => rfl
  | some err => cases h

theorem mem_without {id : String} : s ∈ servers.filter (·.id ≠ id) ↔ s ∈ servers ∧ s.id ≠ id := by
  simp

theorem Valid.eq_of_id (h : Valid servers) {a b : Server} (ha : a ∈ servers) (hb : b ∈ servers) (he : a.id = b.id) : a = b :=
  List.inj_on_of_nodup_map h.ids ha hb he

theorem Valid.eq_of_addr (h : Valid servers) {a b : Server} (ha : a ∈ servers) (hb : b ∈ servers) (he : a.addr = b.addr) :
    a = b :=
  List.inj_on_of_nodup_map h.addrs ha hb he

/-- The server has the id or the address of another one. -/
def InWay (nodeID addr : String) (s : Server) : Prop := s.id = nodeID ∨ s.addr = addr

instance : Decidable (InWay nodeID addr s) := inferInstanceAs (Decidable (_ ∨ _))

theorem Valid.sublist (h : Valid servers) (hs : servers'.Sublist servers) : Valid servers' :=
  ⟨h.ids.sublist (hs.map _), h.addrs.sublist (hs.map _)⟩

theorem Valid.perm (h : Valid servers) (hp : servers'.Perm servers) : Valid servers' :=
  ⟨(hp.map _).nodup_iff.mpr h.ids, (hp.map _).nodup_iff.mpr h.addrs⟩

theorem Valid.without (h : Valid servers) (id : String) : Valid (servers.filter (·.id ≠ id)) := h.sublist List.filter_sublist

/-- A server that nothing is in the way of. -/
theorem Valid.cons (h : Valid servers) (hclear : ∀ s ∈ servers, ¬ InWay nodeID addr s) : Valid (⟨nodeID, addr⟩ :: servers) := by
  constructor
  · rw [List.map_cons, List.nodup_cons]
    refine ⟨fun hid => ?_, h.ids⟩
    obtain ⟨s, hs, he⟩ := List.mem_map.mp hid
    exact hclear s hs (Or.inl he)
  · rw [List.map_cons, List.nodup_cons]
    refine ⟨fun ha => ?_, h.addrs⟩
    obtain ⟨s, hs, he⟩ := List.mem_map.mp ha
    exact hclear s hs (Or.inr he)

/-- What the loop leaves of the configuration. -/
structure Cleared (nodeID addr : String) (servers : List Server) (r : Except String Bool × List Server) : Prop where
  valid : Valid r.2
  subset : ∀ s ∈ r.2, s ∈ servers
  others : ∀ s ∈ servers, ¬ InWay nodeID addr s → s ∈ r.2
  kept : ⟨nodeID, addr⟩ ∈ servers → ⟨nodeID, addr⟩ ∈ r.2
  done : r.1 = .ok true → ⟨nodeID, addr⟩ ∈ r.2
  clear : r.1 = .ok false → ∀ s ∈ r.2, ¬ InWay nodeID addr s

/-- Removing a server that is in the way, but is not the one that joins. -/
theorem Cleared.of_removed {srv : Server} {r : Except String Bool × List Server} (h : Cleared nodeID addr servers' r)
    (hremoved : servers'.Perm (servers.filter (·.id ≠ srv.id))) (hvalid : Valid servers) (hsrv : srv ∈ servers)
    (hway : InWay nodeID addr srv) (hne : srv ≠ ⟨nodeID, addr⟩) : Cleared nodeID addr servers r where
  valid := h.valid
  subset s hs := (mem_without.mp (hremoved.mem_iff.mp (h.subset s hs))).1
  others s hs hn := h.others s (hremoved.mem_iff.mpr (mem_without.mpr ⟨hs, fun he => hn (hvalid.eq_of_id hs hsrv he ▸ hway)⟩)) hn
  kept hs := by
    -- no two servers of a valid configuration share what they are in the way with
    rcases hway with hid | haddr
    · exact absurd (hvalid.eq_of_id hsrv hs hid) hne
    · exact absurd (hvalid.eq_of_addr hsrv hs haddr) hne
  done := h.done
  clear := h.clear

theorem Cleared.unchanged {r : Except String Bool} (hvalid : Valid servers) (hdone : r = .ok true → ⟨nodeID, addr⟩ ∈ servers)
    (hclear : r = .ok false → ∀ s ∈ servers, ¬ InWay nodeID addr s) : Cleared nodeID addr servers (r, servers) :=
  ⟨hvalid, fun _ hs => hs, fun _ hs _ => hs, id, hdone, hclear⟩

/-- Only what is still to come can be in the way. -/
theorem clear_spec (hcalls : calls.Documented) {todo : List Server} (hvalid : Valid servers) (htodo : ∀ s ∈ todo, s ∈ servers)
    (hids : (todo.map (·.id)).Nodup) (hway : ∀ s ∈ servers, InWay nodeID addr s → s ∈ todo) :
    Cleared nodeID addr servers (clear calls nodeID addr todo servers) := by
  induction todo generalizing servers with
  | nil => exact .unchanged hvalid (fun h => by cases h) fun _ s hs hw => List.not_mem_nil (hway s hs hw)
  | cons srv rest ih =>
    have hsrv : srv ∈ servers := htodo srv List.mem_cons_self
    rw [List.map_cons, List.nodup_cons] at hids
    unfold clear
    split
    · rename_i hw
      split
      · rename_i heq
        have hself : srv = ⟨nodeID, addr⟩ := by cases srv; simp_all
        exact .unchanged hvalid (fun _ => hself ▸ hsrv) fun h => by cases h
      · rename_i hne
        have hother : srv ≠ ⟨nodeID, addr⟩ := fun he => hne (by simp [he])
        have hremoved := hcalls.removed servers srv.id
        split
        · rename_i err servers' hcall
          rw [hcall] at hremoved
          rcases hremoved with hperm | ⟨_, hsame⟩
          · exact (Cleared.unchanged ((hvalid.without srv.id).perm hperm) (fun h => by cases h)
              fun h => by cases h).of_removed hperm hvalid hsrv hw hother
          · rw [show servers' = servers from hsame]
            exact .unchanged hvalid (fun h => by cases h) fun h => by cases h
        · rename_i servers' hcall
          rw [hcall] at hremoved
          have hperm : servers'.Perm _ := hremoved.resolve_right fun h => h.1 rfl
          refine (ih ((hvalid.without srv.id).perm hperm) (fun t ht => ?_) hids.2 fun t ht hwt => ?_).of_removed hperm hvalid
            hsrv hw hother
          · -- the rest have other ids, so all of them are still there
            exact hperm.mem_iff.mpr (mem_without.mpr
              ⟨htodo t (List.mem_cons_of_mem _ ht), fun he => hids.1 (he ▸ List.mem_map_of_mem ht)⟩)
          · obtain ⟨ht, hne⟩ := mem_without.mp (hperm.mem_iff.mp ht)
            exact (List.mem_cons.mp (hway t ht hwt)).resolve_left fun he => hne (by rw [he])
    · rename_i hw
      refine ih hvalid (fun t ht => htodo t (List.mem_cons_of_mem _ ht)) hids.2 fun t ht hwt => ?_
      exact (List.mem_cons.mp (hway t ht hwt)).resolve_left fun he => hw (he ▸ hwt)

/-- What a call of `Join` makes of the configuration. -/
structure Joins (nodeID addr : String) (servers : List Server) (r : Except String Unit × List Server) : Prop where
  valid : Valid r.2
  others : ∀ s, ¬ InWay nodeID addr s → (s ∈ r.2 ↔ s ∈ servers)
  kept : ⟨nodeID, addr⟩ ∈ servers → ⟨nodeID, addr⟩ ∈ r.2
  joined : r.1 = .ok () → ⟨nodeID, addr⟩ ∈ r.2
  origin : ∀ s ∈ r.2, s ∈ servers ∨ s = ⟨nodeID, addr⟩

theorem Cleared.joins {c : Except String Bool} {r : Except String Unit} (hc : Cleared nodeID addr servers (c, servers'))
    (hr : r = .ok () → c = .ok true) : Joins nodeID addr servers (r, servers') where
  valid := hc.valid
  others s hn := ⟨fun hs => hc.subset s hs, fun hs => hc.others s hs hn⟩
  kept := hc.kept
  joined h := hc.done (hr h)
  origin s hs := Or.inl (hc.subset s hs)

theorem Cleared.added {r : Except String Unit} {after : List Server} (hc : Cleared nodeID addr servers (.ok false, servers'))
    (hperm : after.Perm (⟨nodeID, addr⟩ :: servers')) : Joins nodeID addr servers (r, after) where
  valid := (hc.valid.cons (hc.clear rfl)).perm hperm
  others s hn := by
    have hne : s ≠ ⟨nodeID, addr⟩ := fun he => hn (Or.inl (by rw [he]))
    rw [hperm.mem_iff, List.mem_cons, or_iff_right hne]
    exact ⟨fun hs => hc.subset s hs, fun hs => hc.others s hs hn⟩
  kept _ := hperm.mem_iff.mpr List.mem_cons_self
  joined _ := hperm.mem_iff.mpr List.mem_cons_self
  origin s hs := (List.mem_cons.mp (hperm.mem_iff.mp hs)).symm.imp_left (hc.subset s)

theorem join_spec (hcalls : calls.Documented) (hvalid : Valid servers) :
    Joins nodeID addr servers (join calls nodeID addr servers) := by
  unfold join
  split
  · exact ⟨hvalid, fun _ _ => Iff.rfl, id, fun h => (by cases h), fun _ hs => Or.inl hs⟩
  · have hc : Cleared nodeID addr servers (clear calls nodeID addr servers servers) :=
      clear_spec hcalls hvalid (fun _ hs => hs) hvalid.ids fun _ hs _ => hs
    split
    · rename_i heq
      exact (heq ▸ hc).joins fun h => by cases h
    · rename_i heq
      exact (heq ▸ hc).joins fun _ => rfl
    · rename_i servers' heq
      rw [heq] at hc
      rcases hcalls.added servers' nodeID addr fun s hs he => hc.clear rfl s hs (Or.inl he) with hperm | ⟨herror, hsame⟩
      · exact hc.added hperm
      · rw [hsame]
        exact hc.joins fun hok => absurd (result_ok hok) herror

/-! ## Runs -/

/-- A request to change the configuration, with the calls it makes. -/
inductive Change where
  | join (nodeID addr : String) (calls : RaftCalls)
  | leave (nodeID : String) (calls : RaftCalls)

def Change.made : Change → RaftCalls
  | .join _ _ calls => calls
  | .leave _ calls => calls

def Change.apply (servers : List Server) : Change → Option (Except String Unit × List Server)
  | .join nodeID addr calls => some (Servers.join calls nodeID addr servers)
  | .leave nodeID calls => some (Servers.leave calls nodeID servers)

/-- The server asked to be let in. -/
def Asks (s : Server) (e : Event (List Server) Change (Except String Unit)) : Prop := ∃ calls, e.input = .join s.id s.addr calls

/-- Another server asked to join with the id or the address of this one, or it was told to leave. -/
def Touches (s : Server) (e : Event (List Server) Change (Except String Unit)) : Prop :=
  match e.input with
  | .join nodeID addr _ => InWay nodeID addr s ∧ s ≠ ⟨nodeID, addr⟩
  | .leave nodeID _ => s.id = nodeID

variable {e : Event (List Server) Change (Except String Unit)} {events : List (Event (List Server) Change (Except String Unit))}

/-- What one request does. -/
structure Changed (e : Event (List Server) Change (Except String Unit)) : Prop where
  valid : Valid e.after
  stays : ∀ s ∈ e.before, ¬ Touches s e → s ∈ e.after
  joined : ∀ s, Asks s e → e.output = .ok () → s ∈ e.after
  out : ∀ s, Touches s e → e.output = .ok () → s ∉ e.after
  origin : ∀ s ∈ e.after, s ∈ e.before ∨ Asks s e

theorem Joins.changed {r : Except String Unit} (h : Joins nodeID addr servers (r, servers')) :
    Changed ⟨servers, .join nodeID addr calls, r, servers'⟩ where
  valid := h.valid
  stays s hs hn := by
    by_cases hw : InWay nodeID addr s
    · have hself : s = ⟨nodeID, addr⟩ := by_contra fun hne => hn ⟨hw, hne⟩
      exact hself ▸ h.kept (hself ▸ hs)
    · exact (h.others s hw).mpr hs
  joined s hj hok := by
    obtain ⟨_, hin⟩ := hj
    cases hin
    exact h.joined hok
  out s ht hok hs := by
    -- it would share its id or its address with the server that has joined
    obtain ⟨hid | haddr, hne⟩ := ht
    · exact hne (h.valid.eq_of_id hs (h.joined hok) hid)
    · exact hne (h.valid.eq_of_addr hs (h.joined hok) haddr)
  origin s hs := by
    rcases h.origin s hs with hs | rfl
    · exact Or.inl hs
    · exact Or.inr ⟨calls, rfl⟩

theorem leave_changed (hcalls : calls.Documented) (hvalid : Valid servers) :
    Changed ⟨servers, .leave nodeID calls, (leave calls nodeID servers).1, (leave calls nodeID servers).2⟩ := by
  have hasks : ∀ (s : Server) (r : Except String Unit) (after : List Server),
      ¬ Asks s ⟨servers, .leave nodeID calls, r, after⟩ := by
    rintro s r after ⟨_, hin⟩
    cases hin
  unfold leave
  rcases hcalls.removed servers nodeID with hperm | ⟨herror, hsame⟩
  · exact ⟨(hvalid.without nodeID).perm hperm, fun s hs hn => hperm.mem_iff.mpr (mem_without.mpr ⟨hs, hn⟩),
      fun s hj => absurd hj (hasks s _ _), fun s ht _ hs => (mem_without.mp (hperm.mem_iff.mp hs)).2 ht,
      fun s hs => Or.inl (mem_without.mp (hperm.mem_iff.mp hs)).1⟩
  · rw [hsame]
    exact ⟨hvalid, fun _ hs _ => hs, fun s hj => absurd hj (hasks s _ _), fun s _ hok => absurd (result_ok hok) herror,
      fun _ hs => Or.inl hs⟩

theorem changed_of_apply (hs : e.input.apply e.before = some (e.output, e.after)) (hcalls : e.input.made.Documented)
    (hvalid : Valid e.before) : Changed e := by
  obtain ⟨before, input, output, after⟩ := e
  cases input with
  | join nodeID addr calls =>
    have hj : Joins nodeID addr before (join calls nodeID addr before) := join_spec hcalls hvalid
    exact (Option.some.inj hs ▸ hj).changed
  | leave nodeID calls =>
    have hr : leave calls nodeID before = (output, after) := Option.some.inj hs
    have hl : Changed ⟨before, .leave nodeID calls, (leave calls nodeID before).1, (leave calls nodeID before).2⟩ :=
      leave_changed hcalls hvalid
    rwa [hr] at hl

theorem keeps_changed {I : List Server → Prop} (hvalid : Valid servers) (hrun : Run Change.apply servers events servers')
    (hcalls : ∀ e ∈ events, e.input.made.Documented) (hI : ∀ e ∈ events, Changed e → I e.before → I e.after) (h : I servers) :
    Valid servers' ∧ I servers' :=
  hrun.keeps (I := fun servers => Valid servers ∧ I servers) (fun e he hs hv =>
    have hc := changed_of_apply hs (hcalls e he) hv.1
    ⟨hc.valid, hI e he hc hv.2⟩) ⟨hvalid, h⟩

theorem members_exact {start final : List Server} (hstart : Valid start) (hrun : Run Change.apply start events final)
    (hcalls : ∀ e ∈ events, e.input.made.Documented) :
    Valid final ∧ ∀ s,
      (s ∈ final → s ∈ start ∨ ∃ e ∈ events, Asks s e) ∧
      (∀ earlier e later, events = earlier ++ e :: later → Asks s e → e.output = .ok () → (∀ e' ∈ later, ¬ Touches s e') →
        s ∈ final) ∧
      ∀ earlier e later, events = earlier ++ e :: later → Touches s e → e.output = .ok () → (∀ e' ∈ later, ¬ Asks s e') →
        s ∉ final := by
  refine ⟨(keeps_changed hstart hrun hcalls (I := fun _ => True) (fun _ _ _ _ => trivial) trivial).1, fun s => ⟨?_, ?_, ?_⟩⟩
  · exact (keeps_changed hstart hrun hcalls (I := fun servers => s ∈ servers → s ∈ start ∨ ∃ e ∈ events, Asks s e)
      (fun e he hc hfrom hafter => (hc.origin s hafter).elim hfrom fun hj => Or.inr ⟨e, he, hj⟩) Or.inl).2
  -- what the event left, carried to the end by what the later ones leave alone
  all_goals
    rintro earlier e later rfl hdid hok hlater
    obtain ⟨hearlier, hs, hrun⟩ := hrun.at_event
    rw [List.forall_mem_append, List.forall_mem_cons] at hcalls
    have hvalid := (keeps_changed hstart hearlier hcalls.1 (I := fun _ => True) (fun _ _ _ _ => trivial) trivial).1
    have hc := changed_of_apply hs hcalls.2.1 hvalid
  · exact (keeps_changed hc.valid hrun hcalls.2.2 (I := fun servers => s ∈ servers)
      (fun e' he hc hmem => hc.stays s hmem (hlater e' he)) (hc.joined s hdid hok)).2
  · exact (keeps_changed hc.valid hrun hcalls.2.2 (I := fun servers => s ∉ servers)
      (fun e' he hc hmem hafter => (hc.origin s hafter).elim hmem (hlater e' he)) (hc.out s hdid hok)).2

/-- Calls that are carried out, except that a server may refuse to go. -/
def working (refuses : String → Bool) : RaftCalls where
  getConfiguration := none
  removeServer servers id := if refuses id then (some "not leader", servers) else (none, servers.filter (·.id ≠ id))
  addVoter servers id addr := (none, servers ++ [⟨id, addr⟩])

theorem working_documented (refuses : String → Bool) : (working refuses).Documented where
  removed servers id := by
    simp only [working]
    split
    · exact Or.inr ⟨nofun, rfl⟩
    · exact Or.inl (.refl _)
  added _ _ _ _ := Or.inl (List.perm_append_singleton _ _)

/-- Node "b" comes back under a new address, which node "c" had: both old entries are removed. The
    first attempt removes only one of them. -/
def moved : List Change :=
  [.join "b" "10.0.0.3:9000" (working (· = "c")), .join "b" "10.0.0.3:9000" (working fun _ => false)]

theorem members_exact_moved :
    let start : List Server := [⟨"a", "10.0.0.1:9000"⟩, ⟨"b", "10.0.0.2:9000"⟩, ⟨"c", "10.0.0.3:9000"⟩]
    ∃ events, Run Change.apply start events [⟨"a", "10.0.0.1:9000"⟩, ⟨"b", "10.0.0.3:9000"⟩] ∧
      events.map (·.output) = [.error "error removing existing node b at 10.0.0.3:9000: not leader", .ok ()] ∧
      events.map (·.after.length) = [2, 2] ∧ Valid [⟨"a", "10.0.0.1:9000"⟩, ⟨"b", "10.0.0.3:9000"⟩] := by
  intro start
  have hrun := @Run.of_exec_isSome _ _ _ Change.apply start moved rfl
  refine ⟨_, hrun, rfl, rfl, (members_exact ⟨by decide, by decide⟩ hrun fun e he => ?_).1⟩
  change e ∈ [_, _] at he
  simp only [List.mem_cons, List.not_mem_nil, or_false] at he
  obtain rfl | rfl := he <;> exact working_documented _

/-! ## Generator numbers -/

/-- How many servers come before an id. -/
def before (servers : List Server) (id : String) : Nat := servers.countP fun s => decide (bytes s.id < bytes id)

theorem findIdx_sorted {l : List Server} (hsorted : l.Pairwise fun a b => bytes a.id ≤ bytes b.id)
    (hids : (l.map (·.id)).Nodup) (hs : s ∈ l) : l.findIdx? (·.id = s.id) = some (before l s.id) := by
  induction l with
  | nil => cases hs
  | cons t rest ih =>
    rw [List.pairwise_cons] at hsorted
    rw [List.map_cons, List.nodup_cons] at hids
    by_cases he : t.id = s.id
    · -- nothing is smaller than the first
      have hzero : before (t :: rest) s.id = 0 := by
        rw [before, List.countP_eq_zero]
        intro x hx
        rw [decide_eq_true_iff, List.not_lt, ← he]
        rcases List.mem_cons.mp hx with rfl | hx
        · exact List.le_refl _
        · exact hsorted.1 x hx
      rw [hzero, List.findIdx?_cons, if_pos (by simp [he])]
    · have hrest : s ∈ rest := (List.mem_cons.mp hs).resolve_left fun h => he (by rw [h])
      have hlt : bytes t.id < bytes s.id := Std.lt_of_le_of_ne (hsorted.1 s hrest) (mt bytes_inj he)
      have hsucc : before (t :: rest) s.id = before rest s.id + 1 := List.countP_cons_of_pos (decide_eq_true hlt)
      rw [hsucc, List.findIdx?_cons, if_neg (by simp [he]), ih hsorted.2 hids.2 hrest]
      rfl

theorem initIDGenerator_member (hvalid : Valid servers) (hlen : servers.length ≤ 1023) (hs : s ∈ servers) (number : Nat) :
    initIDGenerator number (.ok servers) s.id = (.ok (), before servers s.id + 1) := by
  have hperm := List.mergeSort_perm servers fun a b => decide (bytes a.id ≤ bytes b.id)
  have hsorted := pairwise_mergeSort_bytes Server.id servers
  have hfind := findIdx_sorted hsorted ((hperm.map _).nodup_iff.mpr hvalid.ids) (hperm.mem_iff.mpr hs)
  have hcount : before (servers.mergeSort fun a b => decide (bytes a.id ≤ bytes b.id)) s.id = before servers s.id :=
    hperm.countP_eq _
  have hlt : before servers s.id < servers.length :=
    List.countP_lt_length_iff.mpr ⟨s, hs, decide_eq_false (List.lt_irrefl _)⟩
  have hfits : before servers s.id + 1 ≤ 1023 := by omega
  simp only [initIDGenerator, hfind, hcount, if_pos hfits]

/-- A node joins and sets its generator up before the next one comes. The first one is the seed: a
    bootstrap leaves the configuration that joining an empty group would. -/
def start (calls : RaftCalls) (cluster : List Server × List Nat) (node : Server) : List Server × List Nat :=
  let servers := (join calls node.id node.addr cluster.1).2
  (servers, cluster.2 ++ [(initIDGenerator 1 (.ok servers) node.id).2])

theorem clear_others (hclear : ∀ s ∈ servers, ¬ InWay nodeID addr s) (now : List Server) :
    clear calls nodeID addr servers now = (.ok false, now) := by
  induction servers with
  | nil => rfl
  | cons srv rest ih =>
    rw [List.forall_mem_cons] at hclear
    unfold clear
    exact (if_neg hclear.1).trans (ih hclear.2)

/-- The calls of a leader that does not fail. -/
structure RaftCalls.Succeed (calls : RaftCalls) : Prop extends calls.Documented where
  getConfiguration : calls.getConfiguration = none
  addVoter : ∀ servers id addr, (calls.addVoter servers id addr).1 = none

theorem start_eq {nodes : List Server} {numbers : List Nat} (hcalls : calls.Succeed) (hnodes : servers.Perm nodes)
    (hvalid : Valid (nodes ++ [s])) (hlen : nodes.length < 1023) :
    ∃ servers', servers'.Perm (nodes ++ [s]) ∧
      start calls (servers, numbers) s = (servers', numbers ++ [before nodes s.id + 1]) := by
  have hclear : ∀ t ∈ servers, ¬ InWay s.id s.addr t := by
    intro t ht hway
    have ht := hnodes.mem_iff.mp ht
    have hids := hvalid.ids
    have haddrs := hvalid.addrs
    rw [List.map_append, List.nodup_append] at hids haddrs
    rcases hway with he | he
    · exact hids.2.2 t.id (List.mem_map_of_mem ht) s.id (List.mem_singleton.mpr rfl) he
    · exact haddrs.2.2 t.addr (List.mem_map_of_mem ht) s.addr (List.mem_singleton.mpr rfl) he
  have hjoin : (join calls s.id s.addr servers).2 = (calls.addVoter servers s.id s.addr).2 := by
    simp only [join, hcalls.getConfiguration, clear_others hclear]
  have hadded : (calls.addVoter servers s.id s.addr).2.Perm (nodes ++ [s]) := by
    refine ((hcalls.added servers s.id s.addr fun t ht he => hclear t ht (Or.inl he)).resolve_right fun h =>
      h.1 (hcalls.addVoter _ _ _)).trans ?_
    exact (hnodes.cons _).trans (List.perm_append_singleton _ _).symm
  have hbefore : before (calls.addVoter servers s.id s.addr).2 s.id = before nodes s.id := by
    rw [before, hadded.countP_eq, List.countP_append, List.countP_singleton, if_neg (by simp [List.lt_irrefl])]
    rfl
  have hnumber := initIDGenerator_member (hvalid.perm hadded)
    (by rw [hadded.length_eq, List.length_append, List.length_singleton]; omega)
    (hadded.mem_iff.mpr (List.mem_append_right _ List.mem_cons_self)) 1
  exact ⟨_, hadded, by simp only [start, hjoin, hnumber, hbefore]⟩

/-- In order, the nodes are numbered from 1; the first that is out of order gets the number of one
    that is there. -/
theorem foldl_start {nodes : List Server} (hcalls : calls.Succeed) (hvalid : Valid nodes) (hlen : nodes.length ≤ 1023) :
    ∃ servers numbers, nodes.foldl (start calls) ([], []) = (servers, numbers) ∧ servers.Perm nodes ∧
      (nodes.Pairwise (fun a b => bytes a.id < bytes b.id) → numbers = List.range' 1 nodes.length) ∧
      (¬ nodes.Pairwise (fun a b => bytes a.id < bytes b.id) → ¬ numbers.Nodup) := by
  induction nodes using List.reverseRecOn with
  | nil => exact ⟨[], [], rfl, .nil, fun _ => rfl, fun h => absurd .nil h⟩
  | append_singleton nodes s ih =>
    rw [List.length_append, List.length_singleton] at hlen
    obtain ⟨servers, numbers, hfold, hnodes, hin, hout⟩ := ih (hvalid.sublist (List.sublist_append_left _ _)) (by omega)
    obtain ⟨servers', hnodes', hstart⟩ := @start_eq servers calls s nodes numbers hcalls hnodes hvalid (by omega)
    refine ⟨servers', numbers ++ [before nodes s.id + 1], ?_, hnodes', fun hp => ?_, fun hp hnodup => ?_⟩
    · rw [List.foldl_append, hfold, List.foldl_cons, List.foldl_nil, hstart]
    · obtain ⟨hp, _, hlast⟩ := List.pairwise_append.mp hp
      have hall : before nodes s.id = nodes.length :=
        List.countP_eq_length.mpr fun t ht => decide_eq_true (hlast t ht s List.mem_cons_self)
      rw [hin hp, hall, List.length_append, List.length_singleton, List.range'_concat, Nat.one_mul, Nat.add_comm]
    · by_cases hp' : nodes.Pairwise fun a b => bytes a.id < bytes b.id
      · -- not all come before it, so its number is one of those given
        have hlt : before nodes s.id < nodes.length := by
          refine lt_of_le_of_ne List.countP_le_length fun hall => hp ?_
          refine List.pairwise_append.mpr ⟨hp', List.pairwise_singleton _ _, ?_⟩
          intro t ht u hu
          rw [List.mem_singleton.mp hu]
          exact of_decide_eq_true (List.countP_eq_length.mp hall t ht)
        rw [hin hp'] at hnodup
        refine (List.nodup_append.mp hnodup).2.2 _ ?_ _ (List.mem_singleton.mpr rfl) rfl
        rw [List.mem_range'_1]
        omega
      · exact hout hp' (List.nodup_append.mp hnodup).1

theorem numbers_distinct_iff {nodes : List Server} (hcalls : calls.Succeed) (hvalid : Valid nodes) (hlen : nodes.length ≤ 1023) :
    (nodes.foldl (start calls) ([], [])).2.Nodup ↔ nodes.Pairwise fun a b => bytes a.id < bytes b.id := by
  obtain ⟨servers, numbers, hfold, _, hin, hout⟩ := foldl_start hcalls hvalid hlen
  rw [hfold]
  constructor
  · intro hnodup
    exact by_contra fun hp => hout hp hnodup
  · intro hp
    rw [hin hp]
    exact List.nodup_range'

/-- The eleventh pod of a StatefulSet comes between the second and the third. -/
theorem numbers_distinct_eleventh :
    let calls := working fun _ => false
    let nodes : List Server := (List.range 11).map fun i => ⟨"doq-" ++ toString i, toString i⟩
    ¬ (nodes.foldl (start calls) ([], [])).2.Nodup ∧ ((nodes.take 10).foldl (start calls) ([], [])).2.Nodup := by
  intro calls nodes
  have hcalls : calls.Succeed := ⟨working_documented _, rfl, fun _ _ _ => rfl⟩
  have hvalid : Valid nodes := ⟨by decide +kernel, by decide +kernel⟩
  exact ⟨mt (numbers_distinct_iff hcalls hvalid (by decide)).mp (by decide +kernel),
    (numbers_distinct_iff hcalls (hvalid.sublist (List.take_sublist _ _)) (by decide)).mpr (by decide +kernel)⟩

end Servers

end Doq
