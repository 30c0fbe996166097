/-
  Doq.Cluster.Formation — how a pod of a StatefulSet joins a Raft group (`pkg/cluster/jointer.go`).

  A pod that finds no Raft state on its disk and does not seed a group asks the other pods,
  again and again, to let it into theirs.

  Proved:
  - `join_iff`: the joiner is let in exactly if some pod that the lookup of some round lists
    accepts it, or one that was found at the start in a round whose lookup is of no use.
-/

import Doq.Cluster.Discovery

namespace Doq

open Lib

namespace Cluster

structure Joiner where
  nodeID : List Char
  raftAddr : List Char
  hosts : List (List Char)
  maxAttempts : Nat
  deriving DecidableEq, Repr

namespace Joiner

def new (nodeID raftAddr : List Char) (hosts : List (List Char)) : Joiner := ⟨nodeID, raftAddr, hosts, 150⟩

/-- What a lookup gives, if there is one. -/
abbrev Resolve := Option (Nat → Except String (List (List Char)))

/-- The hosts that a round tries. -/
def hostsAt (j : Joiner) (resolve : Resolve) (i : Nat) : List (List Char) :=
  match resolve with
  | none => j.hosts
  | some resolve =>
    match resolve i with
    | .error _ => j.hosts
    | .ok fresh => if fresh ≠ [] then fresh else j.hosts

/-- Posts to the hosts in turn until one accepts; otherwise the last error. -/
def tryHosts (post : List Char → Option String) (lastErr : Option String) : List (List Char) → Bool × Option String
  | [] => (false, lastErr)
  | host :: rest =>
    match post host with
    | none => (true, lastErr)
    | some err => tryHosts post (some err) rest

/-- The rounds that are left, from the `i`th on. -/
def rounds (j : Joiner) (resolve : Resolve) (post : Nat → List Char → Option String) : Nat → Nat → Option String → Option String
  | 0, _, lastErr =>
    some ("failed to join cluster after " ++ toString j.maxAttempts ++ " attempts: " ++ lastErr.getD "no peers discovered")
  | left + 1, i, lastErr =>
    let hosts := j.hostsAt resolve i
    if hosts = [] then j.rounds resolve post left (i + 1) (some "no peers discovered yet")
    else
      match tryHosts (post i) lastErr hosts with
      | (true, _) => none
      | (false, lastErr) => j.rounds resolve post left (i + 1) lastErr

/-- The error of `Join`; `post i host` is that of the request to a host in the `i`th round. -/
def join (j : Joiner) (resolve : Resolve) (post : Nat → List Char → Option String) : Option String :=
  if resolve.isNone ∧ j.hosts = [] then none else j.rounds resolve post j.maxAttempts 0 none

variable {j : Joiner} {resolve : Resolve} {post : Nat → List Char → Option String}

theorem tryHosts_true {accept : List Char → Option String} {hosts : List (List Char)} (lastErr : Option String) :
    (tryHosts accept lastErr hosts).1 = true ↔ ∃ host ∈ hosts, accept host = none := by
  induction hosts generalizing lastErr with
  | nil => simp [tryHosts]
  | cons host rest ih =>
    unfold tryHosts
    cases hpost : accept host with
    | none => simp [hpost]
    | some err => simp [hpost, ih]

/-- A round without hosts is one in which nobody accepts. -/
theorem rounds_none (left i : Nat) (lastErr : Option String) :
    j.rounds resolve post left i lastErr = none ↔
      ∃ k, i ≤ k ∧ k < i + left ∧ ∃ host ∈ j.hostsAt resolve k, post k host = none := by
  induction left generalizing i lastErr with
  | zero => exact iff_of_false (by simp [rounds]) fun ⟨k, hk, hk', _⟩ => by omega
  | succ left ih =>
    have hnext : (∃ k, i ≤ k ∧ k < i + (left + 1) ∧ ∃ host ∈ j.hostsAt resolve k, post k host = none) ↔
        (∃ host ∈ j.hostsAt resolve i, post i host = none) ∨
          ∃ k, i + 1 ≤ k ∧ k < i + 1 + left ∧ ∃ host ∈ j.hostsAt resolve k, post k host = none := by
      constructor
      · rintro ⟨k, hk, hk', haccept⟩
        by_cases he : k = i
        · exact Or.inl (he ▸ haccept)
        · exact Or.inr ⟨k, by omega, by omega, haccept⟩
      · rintro (haccept | ⟨k, hk, hk', haccept⟩)
        · exact ⟨i, by omega, by omega, haccept⟩
        · exact ⟨k, by omega, by omega, haccept⟩
    rw [hnext]
    unfold rounds
    dsimp only
    split
    · rename_i hempty
      rw [ih, hempty]
      simp
    · have htry := @tryHosts_true (post i) (j.hostsAt resolve i) lastErr
      split
      · rename_i heq
        rw [heq] at htry
        exact iff_of_true rfl (Or.inl (htry.mp rfl))
      · rename_i heq
        rw [heq] at htry
        rw [ih, or_iff_right (mt htry.mpr (by simp))]

end Joiner

/-- `DiscoverPeers`, in each round. -/
def discoverPeers (c : Cluster) (lookup : Nat → Except String (List (List Char))) : Joiner.Resolve :=
  some fun i => (lookup i).map fun addrs => (c.lookupPeers addrs).1

variable {c : Cluster}

/-- In the `i`th round the lookup names another pod that accepts, or it names none and one of the
    first hosts accepts. -/
def Accepted (c : Cluster) (hosts : List (List Char)) (post : Nat → List Char → Option String)
    (records : Nat → Except String (List (List Char × List Char))) (i : Nat) : Prop :=
  (∃ rs, records i = .ok rs ∧ ∃ r ∈ rs, r.1 ≠ c.hostname ∧ post i (c.addressOf r.1 c.httpAddr) = none) ∨
    (∀ rs, records i = .ok rs → ∀ r ∈ rs, r.1 = c.hostname) ∧ ∃ host ∈ hosts, post i host = none

theorem hostsAt_accepts {records : Nat → Except String (List (List Char × List Char))} (hown : '.' ∉ c.hostname)
    (hdomain : Plain c.domain) (hrecords : ∀ i rs, records i = .ok rs → ∀ r ∈ rs, Label r.1 ∧ Plain r.2)
    {j : Joiner} {post : Nat → List Char → Option String} (i : Nat) :
    (∃ host ∈ j.hostsAt (c.discoverPeers fun i => (records i).map (List.map fun r => c.addressOf r.1 r.2)) i,
      post i host = none) ↔ Accepted c j.hosts post records i := by
  simp only [discoverPeers, Joiner.hostsAt, Accepted]
  cases hr : records i with
  | error err => simp [Except.map]
  | ok rs =>
    have hfound := lookupPeers_found hown hdomain (hrecords i rs hr)
    simp only [Except.map, Except.ok.injEq, exists_eq_left', forall_eq']
    split
    · rename_i hne
      obtain ⟨p, hp⟩ := List.exists_mem_of_ne_nil _ hne
      obtain ⟨r, hr, hother, _⟩ := (hfound.peers p).mp hp
      rw [or_iff_left fun h => hother (h.1 r hr)]
      constructor
      · rintro ⟨host, hhost, haccept⟩
        obtain ⟨r, hr, hother, rfl⟩ := (hfound.peers host).mp hhost
        exact ⟨r, hr, hother, haccept⟩
      · rintro ⟨r, hr, hother, haccept⟩
        exact ⟨_, (hfound.peers _).mpr ⟨r, hr, hother, rfl⟩, haccept⟩
    · rename_i hnil
      have hnobody : ∀ r ∈ rs, r.1 = c.hostname := fun r hr =>
        by_contra fun hother => hnil (List.ne_nil_of_mem ((hfound.peers _).mpr ⟨r, hr, hother, rfl⟩))
      rw [or_iff_right fun ⟨r, hr, hother, _⟩ => hother (hnobody r hr), and_iff_right hnobody]

theorem join_iff (hown : '.' ∉ c.hostname) (hdomain : Plain c.domain)
    {records : Nat → Except String (List (List Char × List Char))}
    (hrecords : ∀ i rs, records i = .ok rs → ∀ r ∈ rs, Label r.1 ∧ Plain r.2) (nodeID raftAddr : List Char)
    (hosts : List (List Char)) (post : Nat → List Char → Option String) :
    (Joiner.new nodeID raftAddr hosts).join
        (c.discoverPeers fun i => (records i).map (List.map fun r => c.addressOf r.1 r.2)) post = none ↔
      ∃ i < 150, Accepted c hosts post records i := by
  rw [Joiner.join, if_neg (by simp [discoverPeers]), Joiner.rounds_none]
  simp only [Nat.zero_le, true_and, Nat.zero_add, hostsAt_accepts hown hdomain hrecords]
  rfl

/-- The lookup of "doq-1" fails twice and then names it and the seed, which accepts. -/
theorem join_iff_late :
    let c : Cluster := { Cluster.new "default".toList "doq".toList ":9000".toList "8000".toList with hostname := "doq-1".toList }
    let records : Nat → Except String (List (List Char × List Char)) := fun i =>
      if i < 2 then .error "no such host" else .ok [("doq-1".toList, "9000".toList), ("doq-0".toList, "9000".toList)]
    let post : Nat → List Char → Option String := fun _ host =>
      if host = c.addressOf "doq-0".toList "8000".toList then none else some "connection refused"
    (Joiner.new c.nodeID c.raftAddr []).join
      (c.discoverPeers fun i => (records i).map (List.map fun r => c.addressOf r.1 r.2)) post = none := by
  intro c records post
  have hrecords : ∀ i rs, records i = .ok rs → ∀ r ∈ rs, Label r.1 ∧ Plain r.2 := by
    intro i rs hr
    by_cases hi : i < 2
    · rw [show records i = .error "no such host" from if_pos hi] at hr
      cases hr
    · rw [show records i = .ok _ from if_neg hi] at hr
      cases hr
      decide
  exact (join_iff (by decide) (by decide) hrecords _ _ [] post).mpr
    ⟨2, by decide, Or.inl ⟨_, rfl, ("doq-0".toList, "9000".toList), by simp, by decide, by decide⟩⟩

end Cluster

end Doq
