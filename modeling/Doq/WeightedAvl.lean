/-
  Doq.WeightedAvl — the weighted AVL tree the weighted fair queue samples its groups
  from (`pkg/weighted_avl/weighted_avl.go`).

  Keys are of any linear order, with the default key standing for the empty string a
  sample of nothing returns. Weights are of any type with an addition. Go's are `Int64`s, whose
  sums wrap; unless said otherwise they are integers, which is the same while the weights add
  up to less than 2^63 (`Doq.WeightedAvlMap`). Go updates the nodes in place; here each function
  returns the node it would leave. A rotation reads a child through a pointer that may be nil,
  so it can panic: `none`.
-/

import Mathlib.Algebra.Ring.Int.Defs
import Mathlib.Order.Defs.LinearOrder
import Doq.Lib.FinMap
import Doq.Lib.Go

namespace Doq.WeightedAvl

open Lib

inductive Node (κ : Type) (ω : Type := Int) where
  | nil
  | node (key : κ) (weight sum : ω) (height : Int) (left right : Node κ ω)
  deriving DecidableEq, Repr, Inhabited

namespace Node

variable {κ ω : Type}

def height : Node κ ω → Int
  | nil => 0
  | node _ _ _ h _ _ => h

def getBalance : Node κ ω → Int
  | nil => 0
  | node _ _ _ _ l r => l.height - r.height

variable [Add ω] [Zero ω]

def sum : Node κ ω → ω
  | nil => 0
  | node _ _ s _ _ _ => s

/-- The node with the caches `update` computes. -/
def update (key : κ) (weight : ω) (left right : Node κ ω) : Node κ ω :=
  node key weight (weight + left.sum + right.sum) (1 + max left.height right.height) left right

def rotateRight : Node κ ω → Go (Node κ ω)
  | node yk yw _ _ (node xk xw _ _ a b) c => some (update xk xw a (update yk yw b c))
  | _ => none

def rotateLeft : Node κ ω → Go (Node κ ω)
  | node xk xw _ _ a (node yk yw _ _ b c) => some (update yk yw (update xk xw a b) c)
  | _ => none

variable [LinearOrder κ]

/-- The four rotation cases after an insertion of `key`, on an updated node. -/
def rebalanceInsert (key : κ) : Node κ ω → Go (Node κ ω)
  | nil => some nil
  | node k w s h l r =>
    let balance := l.height - r.height
    if 1 < balance then
      match l with
      | nil => none
      | node lk _ _ _ _ _ =>
        if key < lk then rotateRight (node k w s h l r)
        else if lk < key then do
          let l ← rotateLeft l
          rotateRight (node k w s h l r)
        else some (node k w s h l r)
    else if balance < -1 then
      match r with
      | nil => none
      | node rk _ _ _ _ _ =>
        if rk < key then rotateLeft (node k w s h l r)
        else if key < rk then do
          let r ← rotateRight r
          rotateLeft (node k w s h l r)
        else some (node k w s h l r)
    else some (node k w s h l r)

def insert : Node κ ω → κ → ω → Go (Node κ ω)
  | nil, key, weight => some (node key weight weight 1 nil nil)
  | node k w _ _ l r, key, weight =>
    if key < k then do
      let l ← insert l key weight
      rebalanceInsert key (update k w l r)
    else if k < key then do
      let r ← insert r key weight
      rebalanceInsert key (update k w l r)
    else some (update k weight l r)

/-- The key and weight of the leftmost node. -/
def minValueNode : Node κ ω → Go (κ × ω)
  | nil => none
  | node k w _ _ nil _ => some (k, w)
  | node _ _ _ _ (node k w s h l r) _ => minValueNode (node k w s h l r)

/-- The rotation cases after a deletion, on an updated node. -/
def rebalanceDelete : Node κ ω → Go (Node κ ω)
  | nil => some nil
  | node k w s h l r =>
    let balance := l.height - r.height
    if 1 < balance then
      if 0 ≤ l.getBalance then rotateRight (node k w s h l r)
      else do
        let l ← rotateLeft l
        rotateRight (node k w s h l r)
    else if balance < -1 then
      if r.getBalance ≤ 0 then rotateLeft (node k w s h l r)
      else do
        let r ← rotateRight r
        rotateLeft (node k w s h l r)
    else some (node k w s h l r)

def delete : Node κ ω → κ → Go (Node κ ω)
  | nil, _ => some nil
  | node k w _ _ l r, key =>
    if key < k then do
      let l ← delete l key
      rebalanceDelete (update k w l r)
    else if k < key then do
      let r ← delete r key
      rebalanceDelete (update k w l r)
    else
      match l, r with
      | nil, r => some r
      | l, nil => some l
      | l, r => do
        let temp ← minValueNode r
        let r ← delete r temp.1
        rebalanceDelete (update temp.1 temp.2 l r)

def get : Node κ ω → κ → Option ω
  | nil, _ => none
  | node k w _ _ l r, key =>
    if key < k then get l key
    else if k < key then get r key
    else some w

/-- The in-order traversal that fills the map of `Items`. -/
def items : Node κ ω → FinMap κ ω → FinMap κ ω
  | nil, m => m
  | node k w _ _ l r, m => r.items ((l.items m).insert k w)

def sample [Inhabited κ] [Sub ω] [LT ω] [DecidableLT ω] : Node κ ω → ω → κ
  | nil, _ => default
  | node k w _ _ l r, x =>
    if x < l.sum then sample l x
    else if x < l.sum + w then k
    else sample r (x - l.sum - w)

end Node

/-- The splitmix64 finalizer. -/
def mix64 (x : UInt64) : UInt64 :=
  let x := x + 0x9e3779b97f4a7c15
  let x := (x ^^^ (x >>> 30)) * 0xbf58476d1ce4e5b9
  let x := (x ^^^ (x >>> 27)) * 0x94d049bb133111eb
  x ^^^ (x >>> 31)

/-- `int(x % uint64(sum))`; of integers, where the sum is not negative. -/
class Offset (ω : Type) where
  offset : UInt64 → ω → ω

instance : Offset Int64 := ⟨fun x sum => (x % sum.toUInt64).toInt64⟩

instance : Offset Int := ⟨fun x sum => ((x.toNat % sum.toNat : Nat) : Int)⟩

structure WeightedAVL (κ : Type) (ω : Type := Int) where
  root : Node κ ω
  deriving DecidableEq, Repr, Inhabited

namespace WeightedAVL

variable {κ ω : Type} [LinearOrder κ] [Add ω] [Zero ω]

def new : WeightedAVL κ ω := ⟨.nil⟩

def update (tree : WeightedAVL κ ω) (key : κ) (weight : ω) : Go (WeightedAVL κ ω) :=
  (tree.root.insert key weight).map WeightedAVL.mk

def remove (tree : WeightedAVL κ ω) (key : κ) : Go (WeightedAVL κ ω) := (tree.root.delete key).map WeightedAVL.mk

def get (tree : WeightedAVL κ ω) (key : κ) : Option ω := tree.root.get key

def increment (tree : WeightedAVL κ ω) (key : κ) (delta : ω) : Go (WeightedAVL κ ω) :=
  let weight := (tree.root.get key).getD 0
  (tree.root.insert key (weight + delta)).map WeightedAVL.mk

def sum (tree : WeightedAVL κ ω) : ω := tree.root.sum

def items (tree : WeightedAVL κ ω) : FinMap κ ω := tree.root.items ∅

def sample [Inhabited κ] [Sub ω] [LT ω] [DecidableLT ω] [DecidableEq ω] [Offset ω] (tree : WeightedAVL κ ω) (seed : UInt64) : κ :=
  if tree.root.sum = 0 then default
  else tree.root.sample (Offset.offset (mix64 seed) tree.root.sum)

end WeightedAVL

end Doq.WeightedAvl
