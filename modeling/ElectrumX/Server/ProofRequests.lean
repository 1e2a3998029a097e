import ElectrumX.Lib.Hex
import ElectrumX.Server.TxCaches
import ElectrumX.Server.DB

/-!
# Requests for Merkle proofs

The model of the requests of `server/session.py` that a client checks against a Merkle root: the
position of a transaction in its block, and headers below a checkpoint. Arguments are those that
`assert_tx_hash` and `non_negative_integer` have let through; costs are left out.
-/

namespace ElectrumX.Lib.Merkle
open ElectrumX.Base

variable (m : Merkle)

/-- A branch over some hashes proves the hash at its index under their root. -/
theorem branchAndRoot_proves {hashes : List Bytes} {index : Nat} {branch : List Bytes} {r : Bytes}
    (h : m.branchAndRoot hashes index none = .ok (branch, r)) (hindex : index < hashes.length) :
    m.root hashes none = .ok r ∧ m.rootFromProof hashes[index] branch index = .ok r := by
  have hnone : ∀ k, (none : Option Nat) = some k → ceilLog2 hashes.length ≤ k := fun k hk ↦ by
    cases hk
  have hfit : hashes.length ≤ 2 ^ ceilLog2 hashes.length := ceilLog2_le_iff.mp le_rfl
  obtain ⟨-, r', hrow, hclimb⟩ := m.branchLoop_spec _ hashes index hindex hfit
  rw [List.getElem?_eq_getElem hindex, Option.getD_some] at hclimb
  have hzero : m.branchAndRoot hashes 0 none = _ :=
    m.branchAndRoot_eq (Nat.zero_lt_of_lt hindex) hnone
  rw [Option.getD_none, branchLoop_row, ← m.branchLoop_row _ _ index, hrow,
    List.headD_cons] at hzero
  rw [m.branchAndRoot_eq hindex hnone, Option.getD_none, hrow, List.headD_cons] at h
  cases h
  refine ⟨?_, m.rootFromProof_eq_ok.mpr hclimb⟩
  rw [root, hzero]
  rfl

end ElectrumX.Lib.Merkle

namespace ElectrumX.Server
open ElectrumX.Base ElectrumX.Lib

/-- How a request fails: an exception of what it calls, or an `RPCError` with `BAD_REQUEST` and the
data of its message. -/
inductive RequestError where
  | raised (e : PyError)
  /-- `height … out of range`, `session.py:786`. -/
  | heightOutOfRange (height : Nat)
  /-- `require header height … <= cp_height … <= chain height …`, `session.py:1289–1292`. -/
  | requireHeights (height cpHeight : Nat) (maxHeight : Int)
  /-- `tx … not in block at height …`, `session.py:728–729`. -/
  | notInBlock (txHash : String) (height : Nat)
  /-- `no tx at position … in block at height …`, `session.py:739–740`. -/
  | noTxAt (txPos height : Nat)
  deriving DecidableEq, Repr

/-- An exception that the request does not catch. -/
def raising {α : Type} : Except PyError α → Except RequestError α
  | .ok a => .ok a
  | .error e => .error (.raised e)

/-! ### The position of a transaction -/

namespace TxCaches

variable (m : Merkle)

/-- The branch of `_merkle_branch`, `session.py:698–718`. -/
def branchOf (s : TxCaches) (height : Nat) (txHashes : List Bytes) (txPos : Nat) :
    Except PyError (List Bytes) :=
  if txHashes.length ≥ 200 then do
    let merkleCache := (s.merkleTxidCache height).getD (.create m txHashes)
    let (_, branch, _) ← merkleCache.cache.branchAndRoot m (TxMerkle.source merkleCache.hashes)
      txHashes.length txPos
    return branch
  else do
    let (branch, _) ← m.branchAndRoot txHashes txPos none
    return branch

/-- What `_merkle_branch` returns, `session.py:719–720`. -/
def branchHex (s : TxCaches) (height : Nat) (txHashes : List Bytes) (txPos : Nat) :
    Except PyError (List String) :=
  return (← s.branchOf m height txHashes txPos).map hashToHexStr

/-- `merkle_branch_for_tx_hash` once it has the txids, `session.py:725–731`. -/
def branchForTxHash (s : TxCaches) (height : Nat) (txHashes : List Bytes) (txHash : Bytes) :
    Except RequestError (List String × Nat) := do
  match txHashes.idxOf? txHash with
  | none => throw (.notInBlock (hashToHexStr txHash) height)
  | some txPos => return (← raising (s.branchHex m height txHashes txPos), txPos)

/-- `merkle_branch_for_tx_pos` once it has the txids, `session.py:736–742`. -/
def branchForTxPos (s : TxCaches) (height : Nat) (txHashes : List Bytes) (txPos : Nat) :
    Except RequestError (List String × String) := do
  match txHashes[txPos]? with
  | none => throw (.noTxAt txPos height)
  | some txHash => return (← raising (s.branchHex m height txHashes txPos), hashToHexStr txHash)

/-- The request that a step answers, with the height and the txids that it answers from. -/
def answers (s : TxCaches) : TxCacheEvent → Option (TxRequest × Nat × List Bytes)
  | .request request height =>
    match s.txidsCache height with
    | some txHashes => if txHashes ≠ [] then some (request, height, txHashes) else none
    | none => none
  | .returned i => do
    let call ← s.reads[i]?
    match call.result with
    | some (.ok txHashes) =>
      if call.reorgCount = s.reorgCount then some (call.request, call.height, txHashes) else none
    | _ => none
  | _ => none

end TxCaches

/-! ### Headers below a checkpoint -/

/-- What `_merkle_proof` returns, `session.py:1295–1298`. -/
structure HeaderProof where
  branch : List String
  root : String
  deriving DecidableEq, Repr

/-- The reply of `blockchain.block.header`: the header, and a proof below a checkpoint. -/
structure HeaderReply where
  header : String
  proof : Option HeaderProof
  deriving DecidableEq, Repr

/-- The reply of `blockchain.block.headers`, `session.py:1328–1332`. -/
structure HeadersReply where
  hex : String
  count : Nat
  max : Nat
  proof : Option HeaderProof
  deriving DecidableEq, Repr

/-- `MAX_CHUNK_SIZE`, `session.py:920`. -/
def maxChunkSize : Nat := 2016

namespace DB

variable (env : Env) (m : Merkle)

/-- `raw_header`, `db.py:419–424`. -/
def rawHeader (db : DB) (height : Nat) : Except PyError Bytes := do
  let (header, n) ← db.readHeaders env height 1
  if n ≠ 1 then throw .indexError
  return header

/-- `raw_header` of the session manager, `session.py:781–787`. -/
def rawHeaderOr (db : DB) (height : Nat) : Except RequestError Bytes :=
  match db.rawHeader env height with
  | .error .indexError => .error (.heightOutOfRange height)
  | result => raising result

/-- `_merkle_proof`, `session.py:1286–1298`, on the header cache. -/
def merkleProof (db : DB) (headerMc : MerkleCache) (cpHeight height : Nat) :
    Except RequestError (MerkleCache × HeaderProof) := do
  if ¬(height ≤ cpHeight ∧ (cpHeight : Int) ≤ db.dbHeight) then
    throw (.requireHeights height cpHeight db.dbHeight)
  let (headerMc, branch, root) ← raising (headerMc.branchAndRoot m
    (fun start count ↦ db.fsBlockHashes env start count) (cpHeight + 1) height)
  return (headerMc, { branch := branch.map hashToHexStr, root := hashToHexStr root })

/-- `block_header`, `session.py:1300–1311`. -/
def blockHeader (db : DB) (headerMc : MerkleCache) (height cpHeight : Nat) :
    Except RequestError (MerkleCache × HeaderReply) := do
  let header ← db.rawHeaderOr env height
  if cpHeight = 0 then return (headerMc, { header := bytesHex header, proof := none })
  let (headerMc, proof) ← db.merkleProof env m headerMc cpHeight height
  return (headerMc, { header := bytesHex header, proof := some proof })

/-- `block_headers`, `session.py:1313–1334`. -/
def blockHeaders (db : DB) (headerMc : MerkleCache) (startHeight count cpHeight : Nat) :
    Except RequestError (MerkleCache × HeadersReply) := do
  let (headers, n) ← raising (db.readHeaders env startHeight (min count maxChunkSize))
  let reply : HeadersReply :=
    { hex := bytesHex headers, count := n, max := maxChunkSize, proof := none }
  if n ≠ 0 ∧ cpHeight ≠ 0 then
    let (headerMc, proof) ← db.merkleProof env m headerMc cpHeight (startHeight + n - 1)
    return (headerMc, { reply with proof := some proof })
  return (headerMc, reply)

end DB

namespace TxCaches

variable {m : Merkle} {s : TxCaches}

/-- A cache that was built over some txids gives the branches of the plain tree. -/
theorem built_branchAndRoot {t : TxMerkle} (h : t.Built m) {txPos : Nat}
    (hpos : txPos < t.hashes.length) :
    ∃ cache branch root, t.cache.branchAndRoot m (TxMerkle.source t.hashes) t.hashes.length txPos =
        .ok (cache, branch, root) ∧
      m.branchAndRoot t.hashes txPos none = .ok (branch, root) := by
  obtain ⟨cache, hcache, hcaches, -⟩ := MerkleCache.Caches.initializeTo (m := m) {}
    (serves_source t.hashes) (by omega) le_rfl
  obtain rfl : cache = t.cache := Except.ok.inj (hcache.symm.trans h)
  obtain ⟨cache, ⟨branch, root⟩, hrequest, hplain, -⟩ :=
    hcaches.branchAndRoot (serves_source t.hashes) hpos le_rfl
  rw [List.take_length] at hplain
  exact ⟨cache, branch, root, hrequest, hplain⟩

/-- The optimised path of `_merkle_branch` agrees with the plain one. -/
theorem Current.branchOf (h : s.Current m) (hq : ¬s.Pending) {height : Nat}
    {txHashes : List Bytes} (hx : s.chain[height]? = some txHashes) {txPos : Nat}
    (hpos : txPos < txHashes.length) :
    ∃ branch root, s.branchOf m height txHashes txPos = .ok branch ∧
      m.branchAndRoot txHashes txPos none = .ok (branch, root) := by
  rw [TxCaches.branchOf]
  split
  · have hbuilt : ((s.merkleTxidCache height).getD (.create m txHashes)).Built m ∧
        ((s.merkleTxidCache height).getD (.create m txHashes)).hashes = txHashes := by
      cases hc : s.merkleTxidCache height with
      | none => exact ⟨built_create (List.ne_nil_of_length_pos (by omega)), rfl⟩
      | some t =>
        obtain ⟨ht, -, hb⟩ := h.merkle hq height t hc
        exact ⟨hb, Option.some.inj (ht.symm.trans hx)⟩
    generalize (s.merkleTxidCache height).getD (.create m txHashes) = t at hbuilt
    obtain ⟨hb, rfl⟩ := hbuilt
    obtain ⟨cache, branch, root, hrequest, hplain⟩ := built_branchAndRoot hb hpos
    refine ⟨branch, root, ?_, hplain⟩
    dsimp only
    rw [hrequest]
    rfl
  · have hplain := @Merkle.branchAndRoot_eq m _ _ none hpos fun k hk ↦ by cases hk
    exact ⟨_, _, by rw [hplain]; rfl, hplain⟩

/-- A step answers from the txids of the active block. -/
theorem Current.answers (h : s.Current m) (hq : ¬s.Pending) {e : TxCacheEvent}
    {request : TxRequest} {height : Nat} {txHashes : List Bytes}
    (hs : s.answers e = some (request, height, txHashes)) :
    s.chain[height]? = some txHashes := by
  cases e with
  | request request' height' =>
    rw [TxCaches.answers] at hs
    split at hs
    · next txHashes' hc =>
      split at hs
      · cases hs
        exact h.txids hq _ _ hc
      · cases hs
    · cases hs
  | returned i =>
    obtain ⟨call, hcall, hs⟩ := Option.bind_eq_some_iff.mp hs
    split at hs
    · next txHashes' hr =>
      split at hs
      · next hcount =>
        cases hs
        exact h.reads hq call (List.mem_of_getElem? hcall) hcount _ hr
      · cases hs
    · cases hs
  | _ => cases hs

/-- In every run, whatever is cached and however reorgs interleave, a step that answers a request
while no reorg is pending answers from the txids of the active block at that height; the branch
that it returns for a position proves the txid there under the Merkle root of these txids, and for
a txid it is the branch of a position where that txid stands. -/
theorem Run.answers_prove (r : Run m s) (hq : ¬s.Pending) {e : TxCacheEvent} {request : TxRequest}
    {height : Nat} {txHashes : List Bytes} (h : s.answers e = some (request, height, txHashes)) :
    s.chain[height]? = some txHashes ∧
      (∀ txPos (hpos : txPos < txHashes.length), ∃ branch root,
        s.branchForTxPos m height txHashes txPos =
          .ok (branch.map hashToHexStr, hashToHexStr txHashes[txPos]) ∧
        m.root txHashes none = .ok root ∧
        m.rootFromProof txHashes[txPos] branch txPos = .ok root) ∧
      (∀ txHash ∈ txHashes, ∃ branch root txPos, ∃ (hpos : txPos < txHashes.length),
        txHashes[txPos] = txHash ∧
        s.branchForTxHash m height txHashes txHash = .ok (branch.map hashToHexStr, txPos) ∧
        m.root txHashes none = .ok root ∧ m.rootFromProof txHash branch txPos = .ok root) ∧
      (∀ txHash ∉ txHashes, s.branchForTxHash m height txHashes txHash =
        .error (.notInBlock (hashToHexStr txHash) height)) := by
  have hx := r.current.answers hq h
  have hbranch : ∀ txPos (hpos : txPos < txHashes.length), ∃ branch root,
      s.branchHex m height txHashes txPos = .ok (branch.map hashToHexStr) ∧
        m.root txHashes none = .ok root ∧
        m.rootFromProof txHashes[txPos] branch txPos = .ok root := by
    intro txPos hpos
    obtain ⟨branch, root, hb, hplain⟩ := r.current.branchOf hq hx hpos
    exact ⟨branch, root, by rw [branchHex, hb]; rfl, m.branchAndRoot_proves hplain hpos⟩
  refine ⟨hx, fun txPos hpos ↦ ?_, fun txHash hm ↦ ?_, fun txHash hm ↦ ?_⟩
  · obtain ⟨branch, root, hb, hproof⟩ := hbranch txPos hpos
    refine ⟨branch, root, ?_, hproof⟩
    rw [branchForTxPos, List.getElem?_eq_getElem hpos]
    dsimp only
    rw [hb]
    rfl
  · cases hidx : txHashes.idxOf? txHash with
    | none => exact absurd hm (List.idxOf?_eq_none_iff.mp hidx)
    | some txPos =>
      obtain ⟨hpos, hget, -⟩ := List.idxOf?_eq_some_iff.mp hidx
      obtain ⟨branch, root, hb, hroot, hproof⟩ := hbranch txPos hpos
      refine ⟨branch, root, txPos, hpos, hget, ?_, hroot, hget ▸ hproof⟩
      rw [branchForTxHash, hidx]
      dsimp only
      rw [hb]
      rfl
  · rw [branchForTxHash, List.idxOf?_eq_none_iff.mpr hm]
    rfl

/-- A request for the first transaction of a block whose txids have been read. -/
def sampleRead : Option TxCaches :=
  runEvents (step Merkle.sampleMerkle) (fun _ _ ↦ True) { chain := [[[1]], [[2], [3]]] }
    [.request (.branchForTxPos 0) 1, .read 0]

theorem sampleRead_proves : ∃ s, sampleRead = some s ∧ ∃ branch root,
    s.branchForTxPos Merkle.sampleMerkle 1 [[2], [3]] 0 =
      .ok (branch.map hashToHexStr, hashToHexStr [2]) ∧
    Merkle.sampleMerkle.root [[2], [3]] none = .ok root ∧
    Merkle.sampleMerkle.rootFromProof [2] branch 0 = .ok root := by
  refine ⟨_, rfl, ?_⟩
  have r : Run Merkle.sampleMerkle _ :=
    ⟨_, Reach.refl.runEvents (show sampleRead = some _ from rfl)⟩
  exact (r.answers_prove (by rintro (h | h) <;> cases h) (e := .returned 0) rfl).2.1 0 (by decide)

end TxCaches
end ElectrumX.Server
