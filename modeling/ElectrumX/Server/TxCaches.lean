import ElectrumX.Base.Reach
import ElectrumX.Lib.MerkleCache
import Mathlib.Logic.Function.Basic

/-!
# The transaction caches of the session manager

The model of the txid and Merkle caches of `server/session.py`: requests look the txids of a
block up, read them from the DB in a thread until no reorg has been handled in between, and
build a Merkle cache over them when they are many. A reorg lowers the chain, signals and is
handled; each of the three is a step of its own. The caches evict an entry whenever they like.
Costs and replies are left out.
-/

namespace ElectrumX.Server
open ElectrumX.Base ElectrumX.Lib

/-- A `MerkleCache` of `_merkle_txid_cache`, with the txids that its `source_func` slices. -/
structure TxMerkle where
  hashes : List Bytes
  cache : MerkleCache := {}

/-- A request that needs the txids of a block. -/
inductive TxRequest where
  /-- `tx_hashes_at_blockheight`, `session.py:744–768`. -/
  | txHashes
  /-- `merkle_branch_for_tx_hash`, `session.py:722–731`. -/
  | branchForTxHash (txHash : Bytes)
  /-- `merkle_branch_for_tx_pos`, `session.py:733–742`. -/
  | branchForTxPos (txPos : Nat)

/-- A request that awaits the DB: the `reorg_count` that it noted, and the result once it has
been read. -/
structure TxidsRead where
  request : TxRequest
  height : Nat
  reorgCount : Nat
  result : Option (Except PyError (List Bytes)) := none

/-- The caches over the active chain, given by the txids of its blocks. -/
structure TxCaches where
  chain : List (List Bytes)
  backingUp : Bool := false
  signalled : Bool := false
  reorgCount : Nat := 0
  txidsCache : Nat → Option (List Bytes) := fun _ ↦ none
  merkleTxidCache : Nat → Option TxMerkle := fun _ ↦ none
  reads : List TxidsRead := []

/-- The steps between awaits. -/
inductive TxCacheEvent where
  | request (request : TxRequest) (height : Nat)
  /-- The DB read of a request in a thread. -/
  | read (i : Nat)
  /-- The read returns to its request. -/
  | returned (i : Nat)
  | evictTxids (height : Nat)
  | evictMerkle (height : Nat)
  /-- A reorg lowers the DB height. -/
  | backup (count : Nat)
  /-- `backed_up_event` is set, `block_processor.py:296`. -/
  | signal
  /-- `_handle_chain_reorgs` wakes up, `session.py:285–291`. -/
  | handle
  /-- New blocks. -/
  | extend (blocks : List (List Bytes))

namespace TxMerkle

/-- `tx_hashes_func`, `session.py:709–710`. -/
def source (hashes : List Bytes) (start count : Nat) : Except PyError (List Bytes) :=
  .ok ((hashes.drop start).take count)

variable (m : Merkle)

/-- A new cache over some txids, `session.py:712–714`. -/
def create (hashes : List Bytes) : TxMerkle where
  hashes := hashes
  cache :=
    match ({} : MerkleCache).initializeTo m (source hashes) hashes.length with
    | .ok cache => cache
    | .error _ => {}

/-- What `branch_and_root` leaves in the cache, which it may extend, `merkle.py:254–255`. -/
def afterBranch (t : TxMerkle) (length index : Nat) : TxMerkle :=
  if index ≥ length then t
  else
    match t.cache.extendTo m (source t.hashes) length with
    | .ok cache => { t with cache := cache }
    | .error _ => t

/-- The cache is that of its txids. -/
def Built (t : TxMerkle) : Prop :=
  ({} : MerkleCache).initializeTo m (source t.hashes) t.hashes.length = .ok t.cache

end TxMerkle

namespace TxCaches

variable (m : Merkle)

/-- `_merkle_branch`, `session.py:698–720`. It does not suspend: the source of its cache is a
slice. -/
def merkleBranch (s : TxCaches) (height : Nat) (txHashes : List Bytes) (txPos : Nat) : TxCaches :=
  if txHashes.length ≥ 200 then
    let merkleCache := (s.merkleTxidCache height).getD (.create m txHashes)
    let merkleCache := merkleCache.afterBranch m txHashes.length txPos
    { s with merkleTxidCache := Function.update s.merkleTxidCache height (some merkleCache) }
  else s

/-- What a request does once it has the txids. -/
def finish (s : TxCaches) (request : TxRequest) (height : Nat) (txHashes : List Bytes) : TxCaches :=
  match request with
  | .txHashes => s
  | .branchForTxHash txHash =>
    match txHashes.idxOf? txHash with
    | none => s
    | some txPos => s.merkleBranch m height txHashes txPos
  | .branchForTxPos txPos =>
    if txPos < txHashes.length then s.merkleBranch m height txHashes txPos else s

/-- The read of a block's txids, which fails above the DB height, `db.py:461–475`. -/
def readTxids (chain : List (List Bytes)) (height : Nat) : Except PyError (List Bytes) :=
  match chain[height]? with
  | some txHashes => .ok txHashes
  | none => .error (.dbError (.blockNotOnDisk height (chain.length - 1)))

/-- One step, if it can be taken. -/
def step (s : TxCaches) : TxCacheEvent → Option TxCaches
  | .request request height =>
    let txHashes := (s.txidsCache height).getD []
    if txHashes ≠ [] then some (s.finish m request height txHashes)
    else some { s with reads := s.reads ++ [{ request, height, reorgCount := s.reorgCount }] }
  | .read i => do
    let call ← s.reads[i]?
    if call.result.isSome then none
    else
      let result := readTxids s.chain call.height
      return { s with reads := s.reads.set i { call with result := some result } }
  | .returned i => do
    let call ← s.reads[i]?
    match ← call.result with
    | .error _ => return { s with reads := s.reads.eraseIdx i }
    | .ok txHashes =>
      if call.reorgCount ≠ s.reorgCount then
        -- the loop of `tx_hashes_at_blockheight` goes round once more
        return { s with
          reads := s.reads.set i { call with reorgCount := s.reorgCount, result := none } }
      else
        let s := { s with
          txidsCache := Function.update s.txidsCache call.height (some txHashes)
          reads := s.reads.eraseIdx i }
        return s.finish m call.request call.height txHashes
  | .evictTxids height => some { s with txidsCache := Function.update s.txidsCache height none }
  | .evictMerkle height =>
    some { s with merkleTxidCache := Function.update s.merkleTxidCache height none }
  | .backup count => some { s with
      chain := s.chain.take (s.chain.length - count)
      backingUp := true }
  | .signal => if s.backingUp then some { s with backingUp := false, signalled := true } else none
  | .handle =>
    if s.signalled then some { s with
      signalled := false
      reorgCount := s.reorgCount + 1
      txidsCache := fun _ ↦ none
      merkleTxidCache := fun _ ↦ none }
    else none
  | .extend blocks => some { s with chain := s.chain ++ blocks }

/-- The states that are reached from empty caches. -/
def Run (s : TxCaches) : Prop := ∃ chain, Reach (step m) (fun _ _ ↦ True) { chain } s

/-- A reorg has lowered the chain and its handler step has not run. -/
def Pending (s : TxCaches) : Prop := s.backingUp = true ∨ s.signalled = true

/-! ### Building a Merkle cache -/

section Building

variable {m : Merkle}

theorem serves_source (hashes : List Bytes) :
    MerkleCache.Serves (TxMerkle.source hashes) hashes :=
  fun _ _ _ ↦ rfl

/-- `initialize` succeeds on a block with transactions, and covers them all. -/
theorem exists_initializeTo {hashes : List Bytes} (h : hashes ≠ []) :
    ∃ cache, ({} : MerkleCache).initializeTo m (TxMerkle.source hashes) hashes.length =
      .ok cache ∧ cache.length = hashes.length := by
  obtain ⟨cache, hcache, -, hlength⟩ := MerkleCache.Caches.initializeTo {} (serves_source hashes)
    (List.length_pos_of_ne_nil h) le_rfl
  exact ⟨cache, hcache, hlength⟩

theorem built_create {hashes : List Bytes} (h : hashes ≠ []) : (TxMerkle.create m hashes).Built m := by
  obtain ⟨cache, hcache, -⟩ := exists_initializeTo (m := m) h
  rw [TxMerkle.Built, TxMerkle.create, hcache]

end Building

/-! ### Freshness -/

/-- Unless a reorg is pending, the entries are those of the active chain, and so is what a read
returns to a request that has seen no reorg handled. -/
structure Current (s : TxCaches) : Prop where
  counts : ∀ call ∈ s.reads, call.reorgCount ≤ s.reorgCount
  txids : ¬s.Pending → ∀ height txHashes, s.txidsCache height = some txHashes →
    s.chain[height]? = some txHashes
  merkle : ¬s.Pending → ∀ height t, s.merkleTxidCache height = some t →
    s.chain[height]? = some t.hashes ∧ t.hashes ≠ [] ∧ t.Built m
  reads : ¬s.Pending → ∀ call ∈ s.reads, call.reorgCount = s.reorgCount → ∀ txHashes,
    call.result = some (.ok txHashes) → s.chain[call.height]? = some txHashes

section Steps

variable {m : Merkle} {s s' : TxCaches}

/-- A Merkle cache is not extended by a branch over its own txids. -/
theorem afterBranch_eq {t : TxMerkle} (h : t.Built m) (hne : t.hashes ≠ []) (index : Nat) :
    t.afterBranch m t.hashes.length index = t := by
  obtain ⟨cache, hcache, hlength⟩ := exists_initializeTo (m := m) hne
  have heq : cache = t.cache := Except.ok.inj (hcache.symm.trans h)
  subst heq
  have hextend : t.cache.extendTo m (TxMerkle.source t.hashes) t.hashes.length = .ok t.cache := by
    rw [MerkleCache.extendTo, MerkleCache.extendRequest, if_pos hlength.ge]
    rfl
  rw [TxMerkle.afterBranch, hextend]
  split
  · rfl
  · rfl

/-- A branch over the txids of the active chain leaves fresh entries. -/
theorem Current.merkleBranch (h : s.Current m) {height : Nat} {txHashes : List Bytes}
    (hx : ¬s.Pending → s.chain[height]? = some txHashes) (txPos : Nat) :
    (s.merkleBranch m height txHashes txPos).Current m := by
  rw [TxCaches.merkleBranch]
  split
  · next hmany =>
    refine ⟨h.counts, h.txids, fun hp height' t ht ↦ ?_, h.reads⟩
    dsimp only at ht
    by_cases he : height' = height
    · subst he
      rw [Function.update_self] at ht
      have hne : txHashes ≠ [] := by
        rintro rfl
        simp at hmany
      have hentry : ∀ t' : TxMerkle, t'.hashes = txHashes → t'.Built m →
          some (t'.afterBranch m txHashes.length txPos) = some t →
          s.chain[height']? = some t.hashes ∧ t.hashes ≠ [] ∧ t.Built m := by
        rintro t' rfl hbuilt hsome
        rw [afterBranch_eq hbuilt hne] at hsome
        cases hsome
        exact ⟨hx hp, hne, hbuilt⟩
      cases hc : s.merkleTxidCache height' with
      | none =>
        rw [hc] at ht
        exact hentry _ rfl (built_create hne) ht
      | some t' =>
        rw [hc] at ht
        obtain ⟨hchain, -, hbuilt⟩ := h.merkle hp height' t' hc
        exact hentry t' (Option.some.inj (hchain.symm.trans (hx hp))) hbuilt ht
    · rw [Function.update_of_ne he] at ht
      exact h.merkle hp height' t ht
  · exact h

theorem Current.finish (h : s.Current m) (request : TxRequest) {height : Nat}
    {txHashes : List Bytes} (hx : ¬s.Pending → s.chain[height]? = some txHashes) :
    (s.finish m request height txHashes).Current m := by
  rw [TxCaches.finish.eq_def]
  cases request with
  | txHashes => exact h
  | branchForTxHash txHash =>
    dsimp only
    split
    · exact h
    · exact h.merkleBranch hx _
  | branchForTxPos txPos =>
    dsimp only
    split
    · exact h.merkleBranch hx _
    · exact h

private theorem current_request (h : s.Current m) {request : TxRequest} {height : Nat}
    (hs : s.step m (.request request height) = some s') : s'.Current m := by
  simp only [step] at hs
  split at hs
  · next hne =>
    cases hs
    refine h.finish request fun hp ↦ h.txids hp height _ ?_
    cases hc : s.txidsCache height with
    | none => simp [hc] at hne
    | some txHashes => rfl
  · cases hs
    refine ⟨fun call hm ↦ ?_, h.txids, h.merkle, fun hp call hm hcount txHashes hr ↦ ?_⟩
    · rcases List.mem_append.mp hm with hm | hm
      · exact h.counts call hm
      · rw [List.mem_singleton.mp hm]
    · rcases List.mem_append.mp hm with hm | hm
      · exact h.reads hp call hm hcount txHashes hr
      · rw [List.mem_singleton.mp hm] at hr
        cases hr

private theorem current_read (h : s.Current m) {i : Nat}
    (hs : s.step m (.read i) = some s') : s'.Current m := by
  simp only [step] at hs
  obtain ⟨call, hcall, hs⟩ := Option.bind_eq_some_iff.mp hs
  split at hs
  · cases hs
  · cases hs
    refine ⟨fun call' hm ↦ ?_, h.txids, h.merkle, fun hp call' hm hcount txHashes hr ↦ ?_⟩
    · rcases List.mem_or_eq_of_mem_set hm with hm | rfl
      · exact h.counts call' hm
      · exact h.counts call (List.mem_of_getElem? hcall)
    · rcases List.mem_or_eq_of_mem_set hm with hm | rfl
      · exact h.reads hp call' hm hcount txHashes hr
      · have hread : readTxids s.chain call.height = .ok txHashes := Option.some.inj hr
        rw [readTxids] at hread
        split at hread
        · next hget =>
          cases hread
          exact hget
        · cases hread

private theorem current_returned (h : s.Current m) {i : Nat}
    (hs : s.step m (.returned i) = some s') : s'.Current m := by
  simp only [step] at hs
  obtain ⟨call, hcall, hs⟩ := Option.bind_eq_some_iff.mp hs
  obtain ⟨result, hresult, hs⟩ := Option.bind_eq_some_iff.mp hs
  have hmem := List.mem_of_getElem? hcall
  have herase : ∀ call' ∈ s.reads.eraseIdx i, call' ∈ s.reads :=
    fun _ hm ↦ List.mem_of_mem_eraseIdx hm
  split at hs
  · cases hs
    exact ⟨fun call' hm ↦ h.counts call' (herase call' hm), h.txids, h.merkle,
      fun hp call' hm ↦ h.reads hp call' (herase call' hm)⟩
  · next txHashes =>
    split at hs
    · cases hs
      refine ⟨fun call' hm ↦ ?_, h.txids, h.merkle, fun hp call' hm hcount txHashes' hr ↦ ?_⟩
      · rcases List.mem_or_eq_of_mem_set hm with hm | rfl
        · exact h.counts call' hm
        · exact le_rfl
      · rcases List.mem_or_eq_of_mem_set hm with hm | rfl
        · exact h.reads hp call' hm hcount txHashes' hr
        · cases hr
    · next hcount =>
      cases hs
      have hx : ¬s.Pending → s.chain[call.height]? = some txHashes := fun hp ↦
        h.reads hp call hmem (not_not.mp hcount) txHashes hresult
      refine Current.finish (m := m) ?_ call.request hx
      refine ⟨fun call' hm ↦ h.counts call' (herase call' hm), fun hp height txHashes' hc ↦ ?_,
        h.merkle, fun hp call' hm ↦ h.reads hp call' (herase call' hm)⟩
      dsimp only at hc
      by_cases he : height = call.height
      · subst he
        rw [Function.update_self] at hc
        cases hc
        exact hx hp
      · rw [Function.update_of_ne he] at hc
        exact h.txids hp height txHashes' hc

/-- Every step keeps the caches current. -/
theorem Current.step (h : s.Current m) {e : TxCacheEvent} (hs : s.step m e = some s') :
    s'.Current m := by
  cases e with
  | request request height => exact current_request h hs
  | read i => exact current_read h hs
  | returned i => exact current_returned h hs
  | evictTxids height =>
    cases hs
    refine ⟨h.counts, fun hp height' txHashes hc ↦ ?_, h.merkle, h.reads⟩
    dsimp only at hc
    by_cases he : height' = height
    · subst he
      rw [Function.update_self] at hc
      cases hc
    · rw [Function.update_of_ne he] at hc
      exact h.txids hp height' txHashes hc
  | evictMerkle height =>
    cases hs
    refine ⟨h.counts, h.txids, fun hp height' t hc ↦ ?_, h.reads⟩
    dsimp only at hc
    by_cases he : height' = height
    · subst he
      rw [Function.update_self] at hc
      cases hc
    · rw [Function.update_of_ne he] at hc
      exact h.merkle hp height' t hc
  | backup count =>
    cases hs
    exact ⟨h.counts, fun hp ↦ absurd (.inl rfl) hp, fun hp ↦ absurd (.inl rfl) hp,
      fun hp ↦ absurd (.inl rfl) hp⟩
  | signal =>
    simp only [TxCaches.step] at hs
    split at hs
    · cases hs
      exact ⟨h.counts, fun hp ↦ absurd (.inr rfl) hp, fun hp ↦ absurd (.inr rfl) hp,
        fun hp ↦ absurd (.inr rfl) hp⟩
    · cases hs
  | handle =>
    simp only [TxCaches.step] at hs
    split at hs
    · cases hs
      -- every read in progress was called under an older count
      refine ⟨fun call hm ↦ (h.counts call hm).trans (Nat.le_succ _), fun _ height txHashes hc ↦ ?_,
        fun _ height t hc ↦ ?_, fun _ call hm hcount ↦ ?_⟩
      · cases hc
      · cases hc
      · have := h.counts call hm
        change call.reorgCount = s.reorgCount + 1 at hcount
        omega
    · cases hs
  | extend blocks =>
    cases hs
    have hext {height : Nat} {txHashes : List Bytes} (hc : s.chain[height]? = some txHashes) :
        (s.chain ++ blocks)[height]? = some txHashes := by
      rw [List.getElem?_append_left (List.getElem?_eq_some_iff.mp hc).1, hc]
    exact ⟨h.counts, fun hp height txHashes hc ↦ hext (h.txids hp height txHashes hc),
      fun hp height t hc ↦ (h.merkle hp height t hc).imp_left hext,
      fun hp call hm hcount txHashes hr ↦ hext (h.reads hp call hm hcount txHashes hr)⟩

end Steps

theorem Run.current {m : Merkle} {s : TxCaches} (r : Run m s) : s.Current m := by
  obtain ⟨chain, r⟩ := r
  refine r.invariant ?_ fun _ _ _ h _ hs ↦ h.step hs
  refine ⟨fun _ hm ↦ absurd hm List.not_mem_nil, fun _ _ _ hc ↦ ?_, fun _ _ _ hc ↦ ?_,
    fun _ _ hm ↦ absurd hm List.not_mem_nil⟩
  · cases hc
  · cases hc

/-- In every run, whenever every reorg's handler step has run, the txids cached for a height are
those of the block of the active chain there, and a Merkle cache is the one over exactly these. -/
theorem Run.caches_current {m : Merkle} {s : TxCaches} (r : Run m s) (hq : ¬s.Pending) :
    (∀ height txHashes, s.txidsCache height = some txHashes →
      s.chain[height]? = some txHashes) ∧
    ∀ height t, s.merkleTxidCache height = some t →
      s.chain[height]? = some t.hashes ∧ t.Built m :=
  ⟨r.current.txids hq, fun height t hc ↦
    ⟨(r.current.merkle hq height t hc).1, (r.current.merkle hq height t hc).2.2⟩⟩

/-- The txids of a block are read, the block is replaced, and the request reads them again. -/
def sampleReplaced : Option TxCaches :=
  runEvents (step Merkle.sampleMerkle) (fun _ _ ↦ True) { chain := [[[1]], [[2]]] }
    [.request .txHashes 1, .read 0, .backup 1, .extend [[[3]]], .signal, .handle, .returned 0,
      .read 0, .returned 0]

theorem sampleReplaced_current : ∃ s, sampleReplaced = some s ∧
    ∃ txHashes, s.txidsCache 1 = some txHashes ∧ s.chain[1]? = some txHashes := by
  obtain ⟨s, hs, hb, hsig, txHashes, hc, -⟩ : ∃ s ∈ sampleReplaced, s.backingUp = false ∧
      s.signalled = false ∧ ∃ txHashes ∈ s.txidsCache 1, True := by decide +kernel
  have hq : ¬s.Pending := by simp [Pending, hb, hsig]
  have r : Run Merkle.sampleMerkle s := ⟨_, Reach.refl.runEvents hs⟩
  exact ⟨s, hs, txHashes, hc, (r.caches_current hq).1 1 txHashes hc⟩

end TxCaches
end ElectrumX.Server
