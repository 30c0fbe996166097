/-
  Doq.Raft.LeaderConfig — the addresses of the current leader
  (`pkg/raft/leader_configuration.go`), with `SplitHostPort` and `JoinHostPort` of the
  standard library as they are written there.
-/

namespace Doq

namespace Net

/-- The host and the port of "host:port" or "[host]:port", or nothing when the address has
    no port, too many colons or a bracket out of place. -/
def splitHostPort (hostport : List Char) : Option (List Char × List Char) :=
  -- the port starts after the last colon
  let port := (hostport.reverse.takeWhile (· ≠ ':')).reverse
  if ':' ∉ hostport then none
  else
    let before := hostport.take (hostport.length - port.length - 1)
    match hostport with
    | '[' :: rest =>
      -- the first ']' must stand just before the last colon
      let host := rest.takeWhile (· ≠ ']')
      if before ≠ '[' :: host ++ [']'] then none
      else if '[' ∈ rest then none
      else if ']' ∈ port then none
      else some (host, port)
    | _ =>
      if ':' ∈ before then none
      else if '[' ∈ hostport then none
      else if ']' ∈ hostport then none
      else some (before, port)

def joinHostPort (host port : List Char) : List Char :=
  if ':' ∈ host then '[' :: host ++ ']' :: ':' :: port else host ++ ':' :: port

end Net

structure LeaderConfig where
  id : String
  httpAddr : String
  raftAddr : String
  grpcAddr : String
  leaderHttpAddr : String
  leaderGrpcAddr : String
  leaderRaftAddr : String
  deriving DecidableEq, Repr, Inhabited

namespace LeaderConfig

def new (nodeID raftAddr grpcAddr : String) : LeaderConfig := ⟨nodeID, "", raftAddr, grpcAddr, "", "", ""⟩

/-- The addresses are kept even when one of them cannot be split; the leader's own are only
    rebuilt when all can. The result says whether they were. -/
def set (c : LeaderConfig) (nodeID raftAddr grpcAddr httpAddr : String) : Bool × LeaderConfig :=
  let c := { c with id := nodeID, raftAddr := raftAddr, grpcAddr := grpcAddr, httpAddr := httpAddr }
  match Net.splitHostPort raftAddr.toList, Net.splitHostPort grpcAddr.toList, Net.splitHostPort httpAddr.toList with
  | some (leaderHostname, raftPort), some (_, grpcPort), some (_, httpPort) =>
    (true, { c with
      leaderGrpcAddr := .ofList (Net.joinHostPort leaderHostname grpcPort)
      leaderHttpAddr := .ofList (Net.joinHostPort leaderHostname httpPort)
      leaderRaftAddr := .ofList (Net.joinHostPort leaderHostname raftPort) })
  | _, _, _ => (false, c)

end LeaderConfig

end Doq
