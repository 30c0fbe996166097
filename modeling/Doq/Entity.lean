/-
  Doq.Entity — messages, queue settings and errors (`pkg/entity`, `pkg/errors`), and the
  part of the configuration the queues read (`pkg/config`).

  A command carries the strategy as its protobuf enum, so it is one of three values.
  `MaxUnacked` is a Go `int` that is only ever made from a `uint32`.
-/

import Mathlib.Algebra.Ring.Int.Defs

namespace Doq

abbrev Metadata := List (String × String)

structure Message where
  group : String
  id : UInt64
  priority : Int
  content : String
  metadata : Option Metadata
  deliveryCount : UInt32
  deriving DecidableEq, Repr, Inhabited

inductive Strategy where
  | unspecified
  | roundRobin
  | weighted
  deriving DecidableEq, Repr, Inhabited

structure QueueSettings where
  strategy : Strategy
  maxUnacked : UInt32
  ackTimeout : UInt32
  deliveryLimit : UInt32
  deriving DecidableEq, Repr, Inhabited

structure QueueConfig where
  name : String
  type : String
  settings : QueueSettings
  deriving DecidableEq, Repr, Inhabited

inductive Err where
  | queueNotFound
  | emptyQueue
  | messageNotFound
  | invalidStrategy
  | invalidAckTimeout
  | invalidMaxUnacked
  | invalidQueueSettings
  /-- Badger's own error for a missing key. -/
  | keyNotFound
  /-- Any other failure of a store call. -/
  | storage
  deriving DecidableEq, Repr, Inhabited

def Err.text : Err → String
  | queueNotFound => "queue not found"
  | emptyQueue => "queue is empty"
  | messageNotFound => "message not found"
  | invalidStrategy => "invalid strategy"
  | invalidAckTimeout => "invalid ack timeout"
  | invalidMaxUnacked => "invalid max unacked"
  | invalidQueueSettings => "invalid queue settings"
  | keyNotFound => "Key not found"
  | storage => "storage error"

structure Config where
  defaultAcknowledgementTimeout : Int
  prometheusEnabled : Bool
  deriving DecidableEq, Repr, Inhabited

/-- `uint32(cfg.Queue.DefaultAcknowledgementTimeout)`. -/
def Config.defaultAckTimeout (cfg : Config) : UInt32 := UInt32.ofNat (cfg.defaultAcknowledgementTimeout % 2 ^ 32).toNat

/-- `strings.ToUpper`, as far as its result can be ASCII: two letters outside ASCII have an
    upper case in it. -/
def toUpper (s : String) : String :=
  String.ofList (s.toList.map fun c => if c = 'ı' then 'I' else if c = 'ſ' then 'S' else c.toUpper)

end Doq
