/-
  Doq.Grpc.Proxy — the connection to the leader that a node keeps (`getClient` of
  `pkg/grpc/proxy.go`).

  The proxy remembers one client, the connection it was made on and the host. It makes a new
  connection when it is asked for another host, and closes the old one first; if the new one
  cannot be made it is left with the old client on a connection that it has closed itself.
  What `GetState` says of a connection is gRPC's: it reconnects one that breaks, and its
  documentation has `Close` as the only way to `Shutdown` (`OnlyCloseShutsDown`).

  Proved:
  - `client_fits`: whatever calls came before and whichever connections could not be made, a
    client that is handed out is on an open connection to the host that was asked for, no other
    connection is open, and asking for the same host again gives the same client.
-/

import Doq.Lib.Run

namespace Doq

open Lib

/-- `connectivity.State`. -/
inductive Connectivity where
  | idle | connecting | ready | transientFailure | shutdown
  deriving DecidableEq, Repr

/-- A connection that the proxy has made, and whether it has called `Close` on it. -/
structure Conn where
  host : String
  closed : Bool
  deriving DecidableEq, Repr

/-- Connections and clients are known by the number of the connection. -/
structure GRPCProxy where
  conn : Option Nat
  client : Option Nat
  leader : String
  deriving DecidableEq, Repr

namespace GRPCProxy

def new : GRPCProxy := ⟨none, none, ""⟩

/-- The proxy and all connections that it has made. -/
structure World where
  proxy : GRPCProxy
  conns : List Conn
  deriving DecidableEq, Repr

/-- A call for a client, with what gRPC answers should it be asked: the state of the proxy's
    connection, and the error of making another one. -/
structure Call where
  host : String
  state : Connectivity
  dial : Option String
  deriving DecidableEq, Repr

/-- `conn.Close()`. -/
def close (conns : List Conn) : Option Nat → List Conn
  | none => conns
  | some i => conns.modify i fun conn => { conn with closed := true }

/-- `p.conn == nil || p.conn.GetState() != connectivity.Shutdown`. -/
def usable (state : Connectivity) (conn : Option Nat) : Bool := conn.isNone || state ≠ .shutdown

def getClient (w : World) (call : Call) : Except String Nat × World :=
  let p := w.proxy
  if call.host = "" then (.error "leader address is empty", w)
  else
    match p.client with
    | some client =>
      if p.leader = call.host ∧ usable call.state p.conn then (.ok client, w) else connect call p (close w.conns p.conn)
    | none => connect call p (close w.conns p.conn)
where
  connect (call : Call) (p : GRPCProxy) (conns : List Conn) : Except String Nat × World :=
    match call.dial with
    | some err => (.error ("failed to connect to leader " ++ call.host ++ ": " ++ err), ⟨p, conns⟩)
    | none => (.ok conns.length, ⟨⟨some conns.length, some conns.length, call.host⟩, conns ++ [⟨call.host, false⟩]⟩)

def step (w : World) (call : Call) : Option (Except String Nat × World) := some (getClient w call)

/-- The proxy's connection is in the state `Shutdown` exactly if it was closed. -/
def OnlyCloseShutsDown (w : World) (call : Call) : Prop :=
  ∀ i ∈ w.proxy.conn, ∀ conn ∈ w.conns[i]?, call.state = .shutdown ↔ conn.closed = true

instance decidableOnlyCloseShutsDown (w : World) (call : Call) : Decidable (OnlyCloseShutsDown w call) :=
  inferInstanceAs (Decidable (∀ i ∈ w.proxy.conn, ∀ conn ∈ w.conns[i]?, call.state = .shutdown ↔ conn.closed = true))

/-- The client is on the connection, the connection is to the host, and no other one is open. -/
structure Tidy (w : World) : Prop where
  client : w.proxy.client = w.proxy.conn
  host : ∀ i, w.proxy.conn = some i → ∃ conn, w.conns[i]? = some conn ∧ conn.host = w.proxy.leader
  others : ∀ i conn, w.conns[i]? = some conn → conn.closed = false → w.proxy.conn = some i

variable {w : World} {call : Call}

theorem new_tidy : Tidy ⟨new, []⟩ := ⟨rfl, nofun, fun _ _ h => by simp at h⟩

/-- After closing the proxy's connection none is open. -/
theorem Tidy.close (h : Tidy w) {i : Nat} {conn : Conn} (hi : (close w.conns w.proxy.conn)[i]? = some conn) :
    conn.closed = true := by
  by_contra hopen
  cases hc : w.proxy.conn with
  | none =>
    rw [hc] at hi
    have hown := h.others i conn hi (Bool.eq_false_iff.mpr hopen)
    rw [hc] at hown
    cases hown
  | some k =>
    rw [hc, GRPCProxy.close, List.getElem?_modify, Option.map_eq_map, Option.map_eq_some_iff] at hi
    obtain ⟨old, hold, rfl⟩ := hi
    by_cases hk : k = i
    · rw [if_pos hk] at hopen
      exact hopen rfl
    · rw [if_neg hk] at hopen
      have hown := h.others i old hold (Bool.eq_false_iff.mpr hopen)
      rw [hc] at hown
      exact hk (Option.some.inj hown)

/-- A client that fits a host: its connection is open and goes there. -/
def Fits (w : World) (host : String) (client : Nat) : Prop :=
  w.proxy.client = some client ∧ w.proxy.leader = host ∧ w.conns[client]? = some ⟨host, false⟩

theorem Tidy.connect (h : Tidy w) :
    let r := getClient.connect call w.proxy (GRPCProxy.close w.conns w.proxy.conn)
    Tidy r.2 ∧ ∀ c, r.1 = .ok c → Fits r.2 call.host c := by
  unfold getClient.connect
  cases call.dial with
  | some err =>
    refine ⟨⟨h.client, fun i hi => ?_, fun i conn hi hopen => ?_⟩, fun c hc => by cases hc⟩
    · obtain ⟨conn, hconn, hhost⟩ := h.host i hi
      have hi : w.proxy.conn = some i := hi
      refine ⟨{ conn with closed := true }, ?_, hhost⟩
      simp [hi, GRPCProxy.close, hconn]
    · rw [h.close hi] at hopen
      cases hopen
  | none =>
    refine ⟨⟨rfl, fun i hi => ?_, fun i conn hi hopen => ?_⟩, fun c hc => ?_⟩
    · cases hi
      exact ⟨_, List.getElem?_concat_length, rfl⟩
    · by_cases hlast : i = (GRPCProxy.close w.conns w.proxy.conn).length
      · rw [hlast]
      · have hi : (GRPCProxy.close w.conns w.proxy.conn ++ [⟨call.host, false⟩])[i]? = some conn := hi
        have hlt : i < (GRPCProxy.close w.conns w.proxy.conn).length := by
          have hbound := (List.getElem?_eq_some_iff.mp hi).1
          rw [List.length_append, List.length_singleton] at hbound
          omega
        rw [List.getElem?_append_left hlt] at hi
        rw [h.close hi] at hopen
        cases hopen
    · cases hc
      exact ⟨rfl, rfl, List.getElem?_concat_length⟩

/-- The client at hand fits if it is used again. -/
theorem Tidy.reuse (h : Tidy w) (hgrpc : OnlyCloseShutsDown w call) {client : Nat} (hc : w.proxy.client = some client)
    (hu : usable call.state w.proxy.conn = true) : Fits w w.proxy.leader client := by
  have hconn : w.proxy.conn = some client := h.client ▸ hc
  obtain ⟨conn, hat, hhost⟩ := h.host client hconn
  have hstate : call.state ≠ .shutdown := by simpa [usable, hconn] using hu
  have hopen : conn.closed = false := Bool.eq_false_iff.mpr (mt (hgrpc client hconn conn hat).mpr hstate)
  refine ⟨hc, rfl, ?_⟩
  rw [hat, ← hhost, ← hopen]

theorem Tidy.getClient (h : Tidy w) (hgrpc : OnlyCloseShutsDown w call) :
    Tidy (getClient w call).2 ∧ ∀ c, (getClient w call).1 = .ok c → Fits (getClient w call).2 call.host c := by
  unfold GRPCProxy.getClient
  dsimp only
  split
  · exact ⟨h, fun c hc => by cases hc⟩
  · split
    · rename_i client hclient
      split
      · rename_i hsame
        refine ⟨h, fun c hc => ?_⟩
        cases hc
        exact hsame.1 ▸ h.reuse hgrpc hclient hsame.2
      · exact h.connect
    · exact h.connect

/-- The only open connection is the one of the client. -/
theorem Tidy.only (h : Tidy w) {host : String} {client : Nat} (hf : Fits w host client) {i : Nat} {conn : Conn}
    (hi : w.conns[i]? = some conn) (hopen : conn.closed = false) : i = client := by
  have hown := h.others i conn hi hopen
  rw [← h.client, hf.1] at hown
  exact (Option.some.inj hown).symm

/-- A client that fits is handed out again. -/
theorem getClient_again {client : Nat} (h : Tidy w) (hgrpc : OnlyCloseShutsDown w call) (hf : Fits w call.host client)
    (hhost : call.host ≠ "") : getClient w call = (.ok client, w) := by
  obtain ⟨hclient, hleader, hat⟩ := hf
  have hstate : call.state ≠ .shutdown := fun hs =>
    absurd ((hgrpc client (h.client ▸ hclient) _ hat).mp hs) Bool.false_ne_true
  have husable : usable call.state w.proxy.conn = true := by simp [usable, hstate]
  unfold GRPCProxy.getClient
  dsimp only
  rw [if_neg hhost, hclient]
  dsimp only
  rw [if_pos ⟨hleader, husable⟩]

theorem ne_empty_of_ok {c : Nat} (h : (getClient w call).1 = .ok c) : call.host ≠ "" := by
  intro hempty
  unfold GRPCProxy.getClient at h
  dsimp only at h
  rw [if_pos hempty] at h
  cases h

variable {e : Event World Call (Except String Nat)}

theorem Tidy.step (h : Tidy e.before) (hgrpc : OnlyCloseShutsDown e.before e.input)
    (hs : step e.before e.input = some (e.output, e.after)) :
    Tidy e.after ∧ ∀ c, e.output = .ok c → Fits e.after e.input.host c := by
  have hget : GRPCProxy.getClient e.before e.input = (e.output, e.after) := Option.some.inj hs
  have htidy := h.getClient hgrpc
  rwa [hget] at htidy

/-- Calls for the host of the client at hand change nothing. -/
theorem Tidy.again {events : List (Event World Call (Except String Nat))} {w' : World} {host : String} {c : Nat} (h : Tidy w)
    (hf : Fits w host c) (hhost : host ≠ "") (hrun : Run GRPCProxy.step w events w')
    (hgrpc : ∀ e ∈ events, OnlyCloseShutsDown e.before e.input) (hsame : ∀ e ∈ events, e.input.host = host) :
    ∀ e ∈ events, e.output = .ok c ∧ e.after = w := by
  induction hrun with
  | nil => exact fun e he => (List.not_mem_nil he).elim
  | @cons w w₁ w' call out events hs hrun ih =>
    rw [List.forall_mem_cons] at hgrpc hsame ⊢
    have hcall : call.host = host := hsame.1
    have hget : GRPCProxy.getClient w call = (out, w₁) := Option.some.inj hs
    rw [getClient_again h hgrpc.1 (hcall ▸ hf) (hcall ▸ hhost)] at hget
    cases hget
    exact ⟨⟨rfl, rfl⟩, ih h hf hgrpc.2 hsame.2⟩

theorem client_fits {earlier between later : List (Event World Call (Except String Nat))} {w : World}
    (hrun : Run step ⟨new, []⟩ (earlier ++ e :: (between ++ later)) w)
    (hgrpc : ∀ x ∈ earlier ++ e :: (between ++ later), OnlyCloseShutsDown x.before x.input) {c : Nat} (hc : e.output = .ok c)
    (hsame : ∀ e' ∈ between, e'.input.host = e.input.host) :
    e.after.conns[c]? = some ⟨e.input.host, false⟩ ∧
      (∀ i conn, e.after.conns[i]? = some conn → conn.closed = false → i = c) ∧
      ∀ e' ∈ between, e'.output = .ok c ∧ e'.after = e.after := by
  obtain ⟨hpast, hs, hrest⟩ := hrun.at_event
  have hbefore : Tidy e.before :=
    hpast.keeps (fun x hx hs h => (h.step (hgrpc x (List.mem_append_left _ hx)) hs).1) new_tidy
  obtain ⟨hafter, hok⟩ := hbefore.step (hgrpc e (by simp)) hs
  have hfits := hok c hc
  have hget : getClient e.before e.input = (e.output, e.after) := Option.some.inj hs
  have hhost : e.input.host ≠ "" := ne_empty_of_ok (congrArg Prod.fst hget |>.trans hc)
  obtain ⟨_, hbetween, _⟩ := hrest.split
  refine ⟨hfits.2.2, fun i conn hi hopen => hafter.only hfits hi hopen, ?_⟩
  exact hafter.again hfits hhost hbetween (fun x hx => hgrpc x (by simp [hx])) hsame

/-- The leader moves from "a" to "b", which cannot be reached at first, and the old one is asked
    for again in between. -/
def moves : List Call :=
  [⟨"a", .idle, none⟩, ⟨"b", .ready, some "refused"⟩, ⟨"a", .shutdown, none⟩, ⟨"a", .transientFailure, some "refused"⟩,
    ⟨"b", .connecting, none⟩]

theorem moves_runs : (exec step ⟨new, []⟩ moves).isSome := rfl

theorem client_fits_moves :
    let r := (exec step ⟨new, []⟩ moves).get moves_runs
    r.1.map (·.output.toOption) = [some 0, none, some 1, some 1, some 2] ∧
      ∀ e ∈ (r.1.drop 3).take 1, e.output = .ok 1 ∧ e.after.conns = [⟨"a", true⟩, ⟨"a", false⟩] := by
  intro r
  have hfits := @client_fits (r.1.get ⟨2, by decide⟩) (r.1.take 2) ((r.1.drop 3).take 1) (r.1.drop 4) _
    (Run.of_exec_isSome moves_runs) (by decide) 1 rfl (by decide)
  refine ⟨rfl, fun e he => ?_⟩
  obtain ⟨hc, hafter⟩ := hfits.2.2 e he
  exact ⟨hc, hafter ▸ rfl⟩

end GRPCProxy

end Doq
