import ElectrumX.Lib.Util

/-!
# Merkle trees and the Merkle cache

The model of `lib/merkle.py`. `branch_length` is the exact binary logarithm rounded up.
The methods of `MerkleCache` that await `source_func` are cut at the await: the part
before it computes the request, the part after it takes the hashes that came back.
-/

namespace ElectrumX.Lib
open ElectrumX.Base

/-- `Merkle`, `merkle.py:37–46`. -/
structure Merkle where
  hashFunc : Bytes → Bytes

namespace Merkle

/-- The least `k` with `hashCount ≤ 2 ^ k`, `ceil(log(hash_count, 2))` in exact arithmetic. -/
def ceilLog2 (hashCount : Nat) : Nat := if hashCount ≤ 1 then 0 else (hashCount - 1).log2 + 1

/-- `branch_length`, `merkle.py:51–57`. -/
def branchLength (hashCount : Nat) : Except PyError Nat :=
  if hashCount < 1 then .error .valueError else .ok (ceilLog2 hashCount)

/-- `tree_depth`, `merkle.py:48`. -/
def treeDepth (hashCount : Nat) : Except PyError Nat := return (← branchLength hashCount) + 1

/-- Repeat the last hash of an odd list, `merkle.py:82`. -/
def evenUp (hashes : List Bytes) : List Bytes :=
  if hashes.length % 2 = 1 then hashes ++ hashes.getLast?.toList else hashes

/-- Hash the pairs of an even list, `merkle.py:86`. -/
def hashPairs (m : Merkle) : List Bytes → List Bytes
  | a :: b :: rest => m.hashFunc (a ++ b) :: hashPairs m rest
  | _ => []

/-- The loop of `branch_and_root`, `merkle.py:81–87`: the branch and the last row. -/
def branchLoop (m : Merkle) : Nat → List Bytes → Nat → List Bytes × List Bytes
  | 0, hashes, _ => ([], hashes)
  | length + 1, hashes, index =>
    let hashes := evenUp hashes
    let (branch, row) := branchLoop m length (m.hashPairs hashes) (index / 2)
    ((hashes[index ^^^ 1]?).getD [] :: branch, row)

/-- `branch_and_root`, `merkle.py:59–89`. -/
def branchAndRoot (m : Merkle) (hashes : List Bytes) (index : Nat) (length : Option Nat) :
    Except PyError (List Bytes × Bytes) := do
  if ¬index < hashes.length then throw .valueError
  let naturalLength ← branchLength hashes.length
  let length := length.getD naturalLength
  if length < naturalLength then throw .valueError
  let (branch, row) := m.branchLoop length hashes index
  return (branch, row.headD [])

/-- `root`, `merkle.py:92–95`. -/
def root (m : Merkle) (hashes : List Bytes) (length : Option Nat) : Except PyError Bytes :=
  return (← m.branchAndRoot hashes 0 length).2

/-- The two hashes in the order in which the index says they are joined. -/
def joinAt (index : Nat) (hash elt : Bytes) : Bytes :=
  if index % 2 = 1 then elt ++ hash else hash ++ elt

/-- The loop of `root_from_proof`, `merkle.py:111–116`: the last hash and what is left of
the index. -/
def proofLoop (m : Merkle) : Bytes → List Bytes → Nat → Bytes × Nat
  | hash, [], index => (hash, index)
  | hash, elt :: branch, index =>
    proofLoop m (m.hashFunc (joinAt index hash elt)) branch (index / 2)

/-- `root_from_proof`, `merkle.py:97–119`. -/
def rootFromProof (m : Merkle) (hash : Bytes) (branch : List Bytes) (index : Nat) :
    Except PyError Bytes := do
  let (hash, index) := m.proofLoop hash branch index
  if index ≠ 0 then throw .valueError
  return hash

/-- `level`, `merkle.py:121–127`. -/
def level (m : Merkle) (hashes : List Bytes) (depthHigher : Nat) :
    Except PyError (List Bytes) :=
  (chunks hashes (2 ^ depthHigher)).mapM fun segment ↦ m.root segment (some depthHigher)

/-- `branch_and_root_from_level`, `merkle.py:129–161`. -/
def branchAndRootFromLevel (m : Merkle) (level leafHashes : List Bytes) (index depthHigher : Nat) :
    Except PyError (List Bytes × Bytes) := do
  let leafIndex := index / 2 ^ depthHigher * 2 ^ depthHigher
  let (leafBranch, leafRoot) ← m.branchAndRoot leafHashes (index - leafIndex) (some depthHigher)
  let index := index / 2 ^ depthHigher
  let (levelBranch, root) ← m.branchAndRoot level index none
  if some leafRoot ≠ level[index]? then throw .valueError
  return (leafBranch ++ levelBranch, root)

end Merkle

/-- `MerkleCache`, `merkle.py:164–181`. -/
structure MerkleCache where
  length : Nat := 0
  level : List Bytes := []
  depthHigher : Nat := 0
  initialized : Bool := false
  deriving DecidableEq, Repr

namespace MerkleCache

/-- `_segment_length`, `merkle.py:184–185`. -/
def segmentLength (mc : MerkleCache) : Nat := 2 ^ mc.depthHigher

/-- `_leaf_start`, `merkle.py:187–192`. -/
def leafStart (mc : MerkleCache) (index : Nat) : Nat :=
  index / 2 ^ mc.depthHigher * 2 ^ mc.depthHigher

/-- `_level`, `merkle.py:194–195`. -/
def levelOf (mc : MerkleCache) (m : Merkle) (hashes : List Bytes) : Except PyError (List Bytes) :=
  m.level hashes mc.depthHigher

/-- `_extend_to` before its await, `merkle.py:197–204`: the start and count to read. -/
def extendRequest (mc : MerkleCache) (length : Nat) : Option (Nat × Nat) :=
  if length ≤ mc.length then none
  else some (mc.leafStart mc.length, length - mc.leafStart mc.length)

/-- `_extend_to` after its await, `merkle.py:205–206`. -/
def extendWith (mc : MerkleCache) (m : Merkle) (length start : Nat) (hashes : List Bytes) :
    Except PyError MerkleCache := do
  let tail ← mc.levelOf m hashes
  return { mc with
    level := mc.level.take (start / 2 ^ mc.depthHigher) ++ tail
    length := length }

/-- The leaf segment of `branch_and_root`, `merkle.py:256–257`. -/
def leafRequest (mc : MerkleCache) (length index : Nat) : Nat × Nat :=
  (mc.leafStart index, min mc.segmentLength (length - mc.leafStart index))

/-- `_level_for` before its await, `merkle.py:208–215`: either the level itself, or the
whole segments and the start and count to read. -/
def levelRequest (mc : MerkleCache) (length : Nat) : List Bytes ⊕ (List Bytes × Nat × Nat) :=
  if length = mc.length then .inl mc.level
  else .inr (mc.level.take (length / 2 ^ mc.depthHigher), mc.leafRequest length length)

/-- `_level_for` after its await, `merkle.py:216–217`. -/
def levelWith (mc : MerkleCache) (m : Merkle) (level hashes : List Bytes) :
    Except PyError (List Bytes) := return level ++ (← mc.levelOf m hashes)

/-- `initialize` before its await, `merkle.py:219–222`. -/
def initializeRequest (mc : MerkleCache) (length : Nat) : Except PyError MerkleCache :=
  return { mc with length := length, depthHigher := (← Merkle.treeDepth length) / 2 }

/-- `initialize` after its await, `merkle.py:222–223`. -/
def initializeWith (mc : MerkleCache) (m : Merkle) (hashes : List Bytes) :
    Except PyError MerkleCache :=
  return { mc with level := (← mc.levelOf m hashes), initialized := true }

/-- `truncate`, `merkle.py:227–238`. -/
def truncate (mc : MerkleCache) (length : Int) : Except PyError MerkleCache := do
  if length ≤ 0 then throw .valueError
  if length ≥ mc.length then return mc
  let length := mc.leafStart length.toNat
  return { mc with length := length, level := mc.level.take (length / 2 ^ mc.depthHigher) }

section Sequential

variable (m : Merkle) (source : Nat → Nat → Except PyError (List Bytes))

/-- `_extend_to`, `merkle.py:197–206`, without interleaving. -/
def extendTo (mc : MerkleCache) (length : Nat) : Except PyError MerkleCache := do
  match mc.extendRequest length with
  | none => return mc
  | some (start, count) => mc.extendWith m length start (← source start count)

/-- `_level_for`, `merkle.py:208–217`, without interleaving. -/
def levelFor (mc : MerkleCache) (length : Nat) : Except PyError (List Bytes) := do
  match mc.levelRequest length with
  | .inl level => return level
  | .inr (level, leafStart, count) => mc.levelWith m level (← source leafStart count)

/-- `initialize`, `merkle.py:220–225`, without interleaving. -/
def initializeTo (mc : MerkleCache) (length : Nat) : Except PyError MerkleCache := do
  let mc ← mc.initializeRequest length
  mc.initializeWith m (← source 0 length)

/-- `branch_and_root`, `merkle.py:240–263`, without interleaving, on an initialized cache. -/
def branchAndRoot (mc : MerkleCache) (length index : Nat) :
    Except PyError (MerkleCache × List Bytes × Bytes) := do
  if length = 0 then throw .valueError
  if index ≥ length then throw .valueError
  let mc ← mc.extendTo m source length
  let (leafStart, count) := mc.leafRequest length index
  let leafHashes ← source leafStart count
  if length < mc.segmentLength then return (mc, ← m.branchAndRoot leafHashes index none)
  let level ← mc.levelFor m source length
  return (mc, ← m.branchAndRootFromLevel level leafHashes index mc.depthHigher)

end Sequential
end MerkleCache
end ElectrumX.Lib
