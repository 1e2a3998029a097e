import ElectrumX.Base.OrderedDict
import ElectrumX.Lib.Hex
import ElectrumX.Lib.TxDecred
import ElectrumX.Server.Daemon

/-!
# The Decred daemon

The model of `DecredDaemon.raw_blocks` in `server/daemon.py`. In Decred a block votes on the regular
transactions of the block before it, and a block whose next one rejects it is served without them.
The requests `getblock` and `getblockheader` are parameters, as is the hash of a header.
-/

namespace ElectrumX.Server
open ElectrumX.Base ElectrumX.Lib

/-- How `raw_blocks` fails. -/
inductive DecredError where
  /-- The `DaemonError` of a request. -/
  | daemonError (errs : List RpcErr)
  /-- The `DaemonError` with a message. -/
  | message (text : String)
  | python (e : PyError)
  deriving DecidableEq, Repr

/-- The items of a reply to `getblockheader` that `raw_blocks` reads. -/
structure HeaderReplyDcr where
  nextblockhash : Option String
  votebits : Nat
  deriving DecidableEq, Repr

namespace DecredDaemon

variable (blake256 : Bytes → Hash32)

/-- `prev_hex_hash`, `daemon.py:463–465`. -/
def prevHexHash (rawBlock : Bytes) : String := hashToHexStr (pySlice rawBlock 4 36)

/-- `is_valid_tx_tree`, `daemon.py:467–470`. -/
def isValidTxTree (votebits : Nat) : Bool := votebits &&& (1 <<< 0) ≠ 0

/-- `strip_tx_tree`, `daemon.py:472–478`. -/
def stripTxTree (rawBlock : Bytes) : Except PyError Bytes := do
  let (_, cursor) ← (DeserializerDecred.readTxTree blake256).run rawBlock Decred.basicHeaderSize
  return rawBlock.take Decred.basicHeaderSize ++ ([0] ++ rawBlock.drop cursor)

/-- `unpack_le_uint16_from`, `lib/util.py:327`: the first two bytes. -/
def unpackLeUint16From (b : Bytes) : Except PyError Nat :=
  if 2 ≤ b.length then .ok (unpackLE (b.take 2)) else .error .structError

/-- The exceptions of what `raw_blocks` calls. -/
def raising {α : Type} : Except PyError α → Except DecredError α
  | .ok a => .ok a
  | .error e => .error (.python e)

/-- The body of the first loop of `raw_blocks`, `daemon.py:431–438`. -/
def readBlock (seen : List Bytes × OrderedDict String Bool) (block : String) :
    Except DecredError (List Bytes × OrderedDict String Bool) := do
  let rawBlock ← raising (hexToBytes block)
  let votebits ← raising (unpackLeUint16From (pySlice rawBlock 100 102))
  return (seen.1 ++ [rawBlock], seen.2.set (prevHexHash rawBlock) (isValidTxTree votebits))

section RawBlocks

variable (getblock : List String → Except DecredError (List String))
  (getblockheader : String → Except DecredError HeaderReplyDcr)

/-- Whether the regular transactions of a block are valid, `daemon.py:442–452`. -/
def isValid (validTxTree : OrderedDict String Bool) (hash : String) :
    Except DecredError Bool :=
  match validTxTree.get? hash with
  | some valid => .ok valid
  | none => do
    let header ← getblockheader hash
    match header.nextblockhash with
    | none => .error (.message s!"Could not find next block for {hash}")
    | some nextHash => do
      let nextHeader ← getblockheader nextHash
      return isValidTxTree nextHeader.votebits

/-- The body of the second loop of `raw_blocks`, `daemon.py:441–459`. -/
def processBlock (validTxTree : OrderedDict String Bool) (block : String × Bytes) :
    Except DecredError Bytes := do
  if ← isValid getblockheader validTxTree block.1 then return block.2
  else raising (stripTxTree blake256 block.2)

/-- `raw_blocks`, `daemon.py:423–461`. -/
def rawBlocks (hexHashes : List String) : Except DecredError (List Bytes) := do
  let blocks ← getblock hexHashes
  let (raws, validTxTree) ← blocks.foldlM readBlock ([], .empty)
  (hexHashes.zip raws).mapM (processBlock blake256 getblockheader validTxTree)

end RawBlocks

/-! ### A chain and its daemon -/

/-- The bits with which a block votes on the one before it. -/
def votebits (rawBlock : Bytes) : Nat := unpackLE (pySlice rawBlock 100 102)

/-- Whether a block approves the regular transactions of the one before it. -/
def Approves (next : Bytes) : Prop := isValidTxTree (votebits next) = true

instance (next : Bytes) : Decidable (Approves next) := inferInstanceAs (Decidable (_ = _))

/-- The hash of a block as the daemon displays it. -/
def hexHash (rawBlock : Bytes) : String :=
  hashToHexStr (blake256 (rawBlock.take Decred.basicHeaderSize)).val

/-- A chain of blocks from the genesis block on, whose hashes differ. -/
structure Linked (chain : List Bytes) : Prop where
  length_le : ∀ raw ∈ chain, Decred.basicHeaderSize ≤ raw.length
  hash_inj : ∀ j k (hj : j < chain.length) (hk : k < chain.length),
    hexHash blake256 chain[j] = hexHash blake256 chain[k] → j = k
  prev_eq : ∀ (k : Nat) raw next, chain[k]? = some raw → chain[k + 1]? = some next →
    prevHexHash next = hexHash blake256 raw
  genesis : ∀ genesis, chain[0]? = some genesis → ∀ raw ∈ chain,
    prevHexHash genesis ≠ hexHash blake256 raw

/-- A daemon that answers for the blocks of a chain. -/
structure Serves (getblock : List String → Except DecredError (List String))
    (getblockheader : String → Except DecredError HeaderReplyDcr) (chain : List Bytes) : Prop where
  getblock : ∀ raws : List Bytes, (∀ raw ∈ raws, raw ∈ chain) →
    getblock (raws.map (hexHash blake256)) = .ok (raws.map bytesHex)
  getblockheader : ∀ k (hk : k < chain.length), getblockheader (hexHash blake256 chain[k]) =
    .ok ⟨chain[k + 1]?.map (hexHash blake256), votebits chain[k]⟩

/-- What `raw_blocks` is to return for a block, by the block on top of it. -/
def served (rawBlock : Bytes) : Option Bytes → Except DecredError Bytes
  | some next => if Approves next then .ok rawBlock else raising (stripTxTree blake256 rawBlock)
  | none =>
    let hash := hexHash blake256 rawBlock
    .error (.message s!"Could not find next block for {hash}")

variable {blake256}

theorem mapM_congr_mem {α β ε : Type} {f g : α → Except ε β} {xs : List α}
    (h : ∀ x ∈ xs, f x = g x) : xs.mapM f = xs.mapM g := by
  induction xs with
  | nil => rfl
  | cons x xs ih =>
    obtain ⟨hx, hxs⟩ := List.forall_mem_cons.mp h
    rw [List.mapM_cons, List.mapM_cons, hx, ih hxs]

theorem exists_mapM_ok {α β ε : Type} {f : α → Except ε β} {R : α → β → Prop} {xs : List α}
    (h : ∀ x ∈ xs, ∃ y, f x = .ok y ∧ R x y) : ∃ ys, xs.mapM f = .ok ys ∧ List.Forall₂ R xs ys := by
  induction xs with
  | nil => exact ⟨[], rfl, .nil⟩
  | cons x xs ih =>
    obtain ⟨⟨y, hy, hr⟩, hxs⟩ := List.forall_mem_cons.mp h
    obtain ⟨ys, hys, hrs⟩ := ih hxs
    refine ⟨y :: ys, ?_, .cons hr hrs⟩
    rw [List.mapM_cons, hy, hys]
    rfl

/-- Where the only error is one and the same, it is the error of the whole. -/
theorem mapM_error {α β ε : Type} {f : α → Except ε β} {e : ε} {xs : List α}
    (h : ∀ x ∈ xs, (∃ y, f x = .ok y) ∨ f x = .error e) {x : α} (hx : x ∈ xs)
    (he : f x = .error e) : xs.mapM f = .error e := by
  induction xs with
  | nil => cases hx
  | cons x' xs ih =>
    obtain ⟨hhead, hxs⟩ := List.forall_mem_cons.mp h
    rw [List.mapM_cons]
    rcases hhead with ⟨y, hy⟩ | hy
    · rcases List.mem_cons.mp hx with rfl | hx
      · rw [he] at hy
        cases hy
      · rw [hy, ih hxs hx]
        rfl
    · rw [hy]
      rfl

theorem length_pySlice_of_le {b : Bytes} {i j : Nat} (hij : i ≤ j) (hj : j ≤ b.length) :
    (pySlice b i j).length = j - i := by
  simp only [pySlice, List.length_take, List.length_drop]
  split <;> split <;> omega

theorem readBlock_eq {raw : Bytes} (h : Decred.basicHeaderSize ≤ raw.length)
    (seen : List Bytes × OrderedDict String Bool) :
    readBlock seen (bytesHex raw) = .ok (seen.1 ++ [raw],
      seen.2.set (prevHexHash raw) (isValidTxTree (votebits raw))) := by
  have hlen : (pySlice raw 100 102).length = 2 :=
    length_pySlice_of_le (i := 100) (j := 102) (by omega) (Nat.le_trans (by decide) h)
  have hunpack : unpackLeUint16From (pySlice raw 100 102) = .ok (votebits raw) := by
    rw [unpackLeUint16From, if_pos hlen.ge, List.take_of_length_le hlen.le]
    rfl
  rw [readBlock, hexToBytes_bytesHex]
  change (do
    let votebits ← raising (unpackLeUint16From (pySlice raw 100 102))
    return (seen.1 ++ [raw], seen.2.set (prevHexHash raw) (isValidTxTree votebits))) = _
  rw [hunpack]
  rfl

/-- What the first loop has collected: the blocks, and of each what it says of the one before. -/
theorem foldlM_readBlock {raws : List Bytes} (h : ∀ raw ∈ raws, Decred.basicHeaderSize ≤ raw.length)
    (seen : List Bytes × OrderedDict String Bool) :
    ∃ validTxTree, (raws.map bytesHex).foldlM readBlock seen = .ok (seen.1 ++ raws, validTxTree) ∧
      ∀ hash valid, validTxTree.get? hash = some valid → seen.2.get? hash = some valid ∨
        ∃ raw ∈ raws, prevHexHash raw = hash ∧ isValidTxTree (votebits raw) = valid := by
  induction raws generalizing seen with
  | nil => exact ⟨seen.2, by rw [List.append_nil]; rfl, fun hash valid hv ↦ .inl hv⟩
  | cons raw raws ih =>
    obtain ⟨hraw, hraws⟩ := List.forall_mem_cons.mp h
    obtain ⟨validTxTree, hfold, hget⟩ := ih hraws (seen.1 ++ [raw],
      seen.2.set (prevHexHash raw) (isValidTxTree (votebits raw)))
    refine ⟨validTxTree, ?_, fun hash valid hv ↦ ?_⟩
    · rw [List.map_cons, List.foldlM_cons, readBlock_eq hraw]
      rw [List.append_assoc] at hfold
      exact hfold
    · rcases hget hash valid hv with hseen | ⟨later, hlater, hprev⟩
      · rw [OrderedDict.get?_set] at hseen
        split at hseen
        · next heq =>
          exact .inr ⟨raw, List.mem_cons_self, heq.symm, Option.some.inj hseen⟩
        · exact .inl hseen
      · exact .inr ⟨later, List.mem_cons_of_mem _ hlater, hprev⟩

section Chain

variable {getblock : List String → Except DecredError (List String)}
  {getblockheader : String → Except DecredError HeaderReplyDcr} {chain : List Bytes}

/-- A block of the chain that names another as the one before it stands on top of it. -/
theorem Linked.next_eq (hl : Linked blake256 chain) {raw : Bytes} (hraw : raw ∈ chain) {k : Nat}
    (hk : k < chain.length) (hprev : prevHexHash raw = hexHash blake256 chain[k]) :
    chain[k + 1]? = some raw := by
  obtain ⟨j, hj, rfl⟩ := List.getElem_of_mem hraw
  cases j with
  | zero =>
    exact absurd hprev (hl.genesis _ (List.getElem?_eq_getElem hj) _ (List.getElem_mem hk))
  | succ j =>
    have hj' : j < chain.length := by omega
    rw [hl.prev_eq j _ _ (List.getElem?_eq_getElem hj') (List.getElem?_eq_getElem hj)] at hprev
    rw [← hl.hash_inj j k hj' hk hprev, List.getElem?_eq_getElem hj]

/-- Each block is processed as the one on top of it says, whether that is among the requested
blocks or not. -/
theorem processBlock_eq (hl : Linked blake256 chain)
    (hs : Serves blake256 getblock getblockheader chain) {validTxTree : OrderedDict String Bool}
    (hget : ∀ hash valid, validTxTree.get? hash = some valid →
      ∃ raw ∈ chain, prevHexHash raw = hash ∧ isValidTxTree (votebits raw) = valid)
    (k : Nat) (hk : k < chain.length) :
    processBlock blake256 getblockheader validTxTree (hexHash blake256 chain[k], chain[k]) =
      served blake256 chain[k] chain[k + 1]? := by
  have hvalid : isValid getblockheader validTxTree (hexHash blake256 chain[k]) =
      match chain[k + 1]? with
      | some next => .ok (isValidTxTree (votebits next))
      | none =>
        let hash := hexHash blake256 chain[k]
        .error (.message s!"Could not find next block for {hash}") := by
    unfold isValid
    split
    · next valid hv =>
      obtain ⟨raw, hraw, hprev, hvotes⟩ := hget _ _ hv
      rw [hl.next_eq hraw hk hprev]
      exact congrArg Except.ok hvotes.symm
    · rw [hs.getblockheader k hk]
      by_cases hnext : k + 1 < chain.length
      · have hreply := hs.getblockheader (k + 1) hnext
        rw [List.getElem?_eq_getElem hnext]
        change (do
          let nextHeader ← getblockheader (hexHash blake256 chain[k + 1])
          return isValidTxTree nextHeader.votebits) = _
        rw [hreply]
        rfl
      · rw [List.getElem?_eq_none (Nat.not_lt.mp hnext)]
        rfl
  rw [processBlock, hvalid]
  cases chain[k + 1]? with
  | none => rfl
  | some next => rfl

/-- The blocks that are requested together do not matter: each is returned as the block on top of
it says. -/
theorem rawBlocks_eq (hl : Linked blake256 chain)
    (hs : Serves blake256 getblock getblockheader chain) (requested : List (Bytes × Option Bytes))
    (hrequested : ∀ p ∈ requested, ∃ k, chain[k]? = some p.1 ∧ chain[k + 1]? = p.2) :
    rawBlocks blake256 getblock getblockheader (requested.map fun p ↦ hexHash blake256 p.1) =
      requested.mapM fun p ↦ served blake256 p.1 p.2 := by
  have hmem : ∀ raw ∈ requested.map Prod.fst, raw ∈ chain := by
    intro raw hraw
    obtain ⟨p, hp, rfl⟩ := List.mem_map.mp hraw
    obtain ⟨k, hk, -⟩ := hrequested p hp
    exact List.mem_of_getElem? hk
  have hblocks := hs.getblock _ hmem
  obtain ⟨validTxTree, hfold, hget⟩ := foldlM_readBlock
    (fun raw hraw ↦ hl.length_le raw (hmem raw hraw)) ([], .empty)
  have hknown : ∀ hash valid, validTxTree.get? hash = some valid →
      ∃ raw ∈ chain, prevHexHash raw = hash ∧ isValidTxTree (votebits raw) = valid := by
    intro hash valid hv
    rcases hget hash valid hv with hempty | ⟨raw, hraw, h⟩
    · cases hempty
    · exact ⟨raw, hmem raw hraw, h⟩
  rw [List.map_map] at hblocks
  have hrun : rawBlocks blake256 getblock getblockheader
      (requested.map fun p ↦ hexHash blake256 p.1) =
      ((requested.map fun p ↦ hexHash blake256 p.1).zip (requested.map Prod.fst)).mapM
        (processBlock blake256 getblockheader validTxTree) := by
    rw [rawBlocks]
    simp only [Function.comp_def] at hblocks
    rw [hblocks]
    change (do
      let (raws, validTxTree) ←
        ((requested.map Prod.fst).map bytesHex).foldlM readBlock ([], .empty)
      ((requested.map fun p : Bytes × Option Bytes ↦ hexHash blake256 p.1).zip raws).mapM
        (processBlock blake256 getblockheader validTxTree)) = _
    rw [hfold]
    rfl
  rw [hrun, List.zip_map', List.mapM_map]
  apply mapM_congr_mem
  intro p hp
  obtain ⟨k, hk, hnext⟩ := hrequested p hp
  obtain ⟨hlt, hget⟩ := List.getElem?_eq_some_iff.mp hk
  have hprocess := processBlock_eq hl hs hknown k hlt
  rwa [hget, hnext] at hprocess

end Chain

/-! ### The transactions of what is returned -/

/-- A block of the wire, with the transactions of its two trees. -/
structure WireBlock where
  header : Bytes
  txs : List TxDcr
  stxs : List TxDcr
  tree : Bytes
  stake : Bytes
  length_header : header.length = Decred.basicHeaderSize
  wellFormed_txs : ∀ tx ∈ txs, tx.WellFormed
  wellFormed_stxs : ∀ tx ∈ stxs, tx.WellFormed
  tree_eq : packCounted TxDcr.encode txs = .ok tree
  stake_eq : packCounted TxDcr.encode stxs = .ok stake

def WireBlock.raw (b : WireBlock) : Bytes := b.header ++ (b.tree ++ b.stake)

/-- The block without its regular transactions. -/
def WireBlock.stripped (b : WireBlock) : WireBlock where
  header := b.header
  txs := []
  stxs := b.stxs
  tree := [0]
  stake := b.stake
  length_header := b.length_header
  wellFormed_txs := List.forall_mem_nil _
  wellFormed_stxs := b.wellFormed_stxs
  tree_eq := rfl
  stake_eq := b.stake_eq

/-- A block is read as a header with some regular transactions, and the transactions of the stake
after them. -/
def ReadsAs (blake256 : Bytes → Hash32) (header : Bytes) (txs stxs : List TxDcr) (raw : Bytes) :
    Prop :=
  ∃ txs' stxs', List.Forall₂ (TxDcr.Parsed blake256) txs txs' ∧
    List.Forall₂ (TxDcr.Parsed blake256) stxs stxs' ∧
    ∀ height : Int, 0 < height → Decred.block blake256 raw height = .ok ⟨raw, header, txs' ++ stxs'⟩

theorem WireBlock.readsAs (b : WireBlock) : ReadsAs blake256 b.header b.txs b.stxs b.raw := by
  obtain ⟨txs', hr, hp⟩ :=
    DeserializerDecred.reads_readTxTree blake256 b.wellFormed_txs b.tree_eq
  obtain ⟨stxs', hrs, hps⟩ :=
    DeserializerDecred.reads_readTxTree blake256 b.wellFormed_stxs b.stake_eq
  refine ⟨txs', stxs', hp, hps, fun height hheight ↦ ?_⟩
  have hblock := Decred.block_of_reads b.length_header (hr.bind (hrs.map _)) hheight []
  rwa [List.append_nil] at hblock

/-- Without its regular transactions a block is read as if it had none. -/
theorem WireBlock.stripTxTree (blake256 : Bytes → Hash32) (b : WireBlock) :
    ∃ raw, DecredDaemon.stripTxTree blake256 b.raw = .ok raw ∧
      ReadsAs blake256 b.header [] b.stxs raw := by
  obtain ⟨txs', hr, hp⟩ :=
    DeserializerDecred.reads_readTxTree blake256 b.wellFormed_txs b.tree_eq
  refine ⟨b.stripped.raw, ?_, b.stripped.readsAs⟩
  have hrun := hr b.header b.stake
  rw [Reader.ReadsAt] at hrun
  rw [DecredDaemon.stripTxTree, ← b.length_header, WireBlock.raw, hrun]
  change Except.ok (_ ++ ([0] ++ _)) = _
  rw [List.take_left, ← List.length_append, ← List.append_assoc b.header b.tree, List.drop_left]
  rfl

section Served

variable {getblock : List String → Except DecredError (List String)}
  {getblockheader : String → Except DecredError HeaderReplyDcr} {blocks : List WireBlock}

theorem served_readsAs (b : WireBlock) (next : Bytes) :
    ∃ raw, served blake256 b.raw (some next) = .ok raw ∧
      ReadsAs blake256 b.header (if Approves next then b.txs else []) b.stxs raw := by
  rw [served]
  split
  · exact ⟨b.raw, rfl, b.readsAs⟩
  · obtain ⟨raw, hstrip, hreads⟩ := b.stripTxTree blake256
    exact ⟨raw, by rw [hstrip]; rfl, hreads⟩

/-- **Decred blocks are served as the next ones approve them**: whichever blocks of a chain are
requested together, and in whatever order, each block below the tip is returned such that its
transactions are those of the stake, and before them the regular ones if and only if the block on
top of it approves them; and a request for the tip is refused. -/
theorem rawBlocks_reads (hl : Linked blake256 (blocks.map WireBlock.raw))
    (hs : Serves blake256 getblock getblockheader (blocks.map WireBlock.raw))
    (heights : List (Fin blocks.length)) :
    ((∀ k ∈ heights, k.val + 1 < blocks.length) → ∃ raws,
      rawBlocks blake256 getblock getblockheader
        (heights.map fun k ↦ hexHash blake256 blocks[k].raw) = .ok raws ∧
      List.Forall₂ (fun k raw ↦ ∃ next, blocks[k.val + 1]? = some next ∧
        ReadsAs blake256 blocks[k].header (if Approves next.raw then blocks[k].txs else [])
          blocks[k].stxs raw) heights raws) ∧
    ∀ tip ∈ heights, tip.val + 1 = blocks.length →
      let hash := hexHash blake256 blocks[tip].raw
      rawBlocks blake256 getblock getblockheader
        (heights.map fun k ↦ hexHash blake256 blocks[k].raw) =
          .error (.message s!"Could not find next block for {hash}") := by
  let requested := heights.map fun k ↦ (blocks[k].raw, blocks[k.val + 1]?.map WireBlock.raw)
  have hrequested : ∀ p ∈ requested, ∃ k, (blocks.map WireBlock.raw)[k]? = some p.1 ∧
      (blocks.map WireBlock.raw)[k + 1]? = p.2 := by
    intro p hp
    obtain ⟨k, -, rfl⟩ := List.mem_map.mp hp
    refine ⟨k, ?_, List.getElem?_map ..⟩
    rw [List.getElem?_map, List.getElem?_eq_getElem k.isLt]
    rfl
  have hraw := rawBlocks_eq hl hs requested hrequested
  rw [List.map_map, List.mapM_map] at hraw
  simp only [Function.comp_def] at hraw
  have hnext {k : Fin blocks.length} {next : WireBlock} (h : blocks[k.val + 1]? = some next) :
      ∃ raw, served blake256 blocks[k].raw (blocks[k.val + 1]?.map WireBlock.raw) = .ok raw ∧
        ReadsAs blake256 blocks[k].header (if Approves next.raw then blocks[k].txs else [])
          blocks[k].stxs raw := by
    rw [h]
    exact served_readsAs blocks[k] next.raw
  constructor
  · intro hbelow
    have hall : ∀ k ∈ heights, ∃ raw,
        served blake256 blocks[k].raw (blocks[k.val + 1]?.map WireBlock.raw) = .ok raw ∧
        ∃ next, blocks[k.val + 1]? = some next ∧
          ReadsAs blake256 blocks[k].header (if Approves next.raw then blocks[k].txs else [])
            blocks[k].stxs raw := by
      intro k hk
      have hsome := List.getElem?_eq_getElem (hbelow k hk)
      obtain ⟨raw, hserved, hreads⟩ := hnext hsome
      exact ⟨raw, hserved, _, hsome, hreads⟩
    obtain ⟨raws, hraws, hreads⟩ := exists_mapM_ok hall
    exact ⟨raws, hraw.trans hraws, hreads⟩
  · intro tip htip heq
    have hnone : blocks[tip.val + 1]? = none := List.getElem?_eq_none heq.ge
    refine hraw.trans (mapM_error ?_ htip ?_)
    · intro k _
      cases hk : blocks[k.val + 1]? with
      | some next =>
        obtain ⟨raw, hserved, -⟩ := hnext hk
        rw [hk] at hserved
        exact .inl ⟨raw, hserved⟩
      | none =>
        have hlast : k = tip := Fin.ext (by
          have := List.getElem?_eq_none_iff.mp hk
          omega)
        subst hlast
        exact .inr rfl
    · rw [hnone]
      rfl

end Served

/-! ### A daemon -/

/-- `getblock` of a daemon with a chain. -/
def chainBlocks (blake256 : Bytes → Hash32) (chain : List Bytes) (hashes : List String) :
    Except DecredError (List String) :=
  .ok (hashes.map fun hash ↦
    bytesHex ((chain.find? fun raw ↦ hexHash blake256 raw = hash).getD []))

/-- `getblockheader` of a daemon with a chain. -/
def chainHeader (blake256 : Bytes → Hash32) (chain : List Bytes) (hash : String) :
    Except DecredError HeaderReplyDcr :=
  match chain.findIdx? fun raw ↦ hexHash blake256 raw = hash with
  | some k => .ok ⟨chain[k + 1]?.map (hexHash blake256), votebits (chain[k]?.getD [])⟩
  | none => .error (.daemonError [])

theorem Linked.serves {chain : List Bytes} (hl : Linked blake256 chain) :
    Serves blake256 (chainBlocks blake256 chain) (chainHeader blake256 chain) chain := by
  have hinj : ∀ raw ∈ chain, ∀ raw' ∈ chain, hexHash blake256 raw' = hexHash blake256 raw →
      raw' = raw := by
    intro raw hraw raw' hraw' heq
    obtain ⟨k, hk, rfl⟩ := List.getElem_of_mem hraw
    obtain ⟨j, hj, rfl⟩ := List.getElem_of_mem hraw'
    have hjk := hl.hash_inj j k hj hk heq
    subst hjk
    rfl
  constructor
  · intro raws hraws
    rw [chainBlocks, List.map_map]
    congr 1
    apply List.map_congr_left
    intro raw hraw
    cases hfind : chain.find? fun raw' ↦ hexHash blake256 raw' = hexHash blake256 raw with
    | none => exact absurd (decide_eq_true rfl) (List.find?_eq_none.mp hfind raw (hraws raw hraw))
    | some raw' =>
      have hsame := hinj raw (hraws raw hraw) raw' (List.mem_of_find?_eq_some hfind)
        (of_decide_eq_true (List.find?_some (p := fun raw' ↦
          decide (hexHash blake256 raw' = hexHash blake256 raw)) hfind))
      simp only [Function.comp, hfind, Option.getD_some, hsame]
  · intro k hk
    have hfind : (chain.findIdx? fun raw ↦ hexHash blake256 raw = hexHash blake256 chain[k]) =
        some k := by
      rw [List.findIdx?_eq_some_iff_getElem]
      refine ⟨hk, decide_eq_true rfl, fun j hj heq ↦ ?_⟩
      exact absurd (hl.hash_inj j k (by omega) hk (of_decide_eq_true heq)) (by omega)
    rw [chainHeader, hfind]
    dsimp only
    rw [List.getElem?_eq_getElem hk]
    rfl

/-- A header on top of the block before it, which it votes on. -/
def sampleHeaderDcr (k vote : UInt8) : Bytes :=
  [k + 1, 0, 0, 0] ++ (List.replicate 32 k ++ (List.replicate 64 0 ++
    ([vote, 0] ++ List.replicate 78 0)))

/-- A block with one transaction in each tree. -/
def sampleWireBlock (k vote : UInt8) : WireBlock where
  header := sampleHeaderDcr k vote
  txs := [Decred.sampleTxDcr]
  stxs := [Decred.sampleTxDcr]
  tree := Decred.sampleTree
  stake := Decred.sampleTree
  length_header := rfl
  wellFormed_txs := List.forall_mem_singleton.mpr rfl
  wellFormed_stxs := List.forall_mem_singleton.mpr rfl
  tree_eq := Decred.sampleTree_eq
  stake_eq := Decred.sampleTree_eq

/-- A chain whose last block rejects the one before it. -/
def sampleWireBlocks : List WireBlock :=
  [sampleWireBlock 0 0, sampleWireBlock 1 1, sampleWireBlock 2 0]

theorem sampleWireBlocks_linked :
    Linked Decred.sampleBlake (sampleWireBlocks.map WireBlock.raw) := by
  have hlength : ∀ raw ∈ sampleWireBlocks.map WireBlock.raw,
      Decred.basicHeaderSize ≤ raw.length := by decide +kernel
  have hinj : ∀ j k : Fin 3, hexHash Decred.sampleBlake (sampleWireBlocks.map WireBlock.raw)[j] =
      hexHash Decred.sampleBlake (sampleWireBlocks.map WireBlock.raw)[k] → j = k := by
    decide +kernel
  have hprev : ∀ k < 3, ∀ raw ∈ (sampleWireBlocks.map WireBlock.raw)[k]?,
      ∀ next ∈ (sampleWireBlocks.map WireBlock.raw)[k + 1]?,
        prevHexHash next = hexHash Decred.sampleBlake raw := by decide +kernel
  have hgenesis : ∀ genesis ∈ (sampleWireBlocks.map WireBlock.raw)[0]?,
      ∀ raw ∈ sampleWireBlocks.map WireBlock.raw,
        prevHexHash genesis ≠ hexHash Decred.sampleBlake raw := by decide +kernel
  refine ⟨hlength, fun j k hj hk heq ↦ ?_, fun k raw next hraw hnext ↦ ?_, hgenesis⟩
  · exact congrArg Fin.val (hinj ⟨j, hj⟩ ⟨k, hk⟩ heq)
  · obtain ⟨hk, -⟩ := List.getElem?_eq_some_iff.mp hraw
    exact hprev k hk raw hraw next hnext

/-- The two blocks below the tip, the later one first. -/
def sampleHeights : List (Fin sampleWireBlocks.length) := [⟨1, by decide⟩, ⟨0, by decide⟩]

theorem sampleWireBlocks_reads : ∃ raws,
    rawBlocks Decred.sampleBlake
      (chainBlocks Decred.sampleBlake (sampleWireBlocks.map WireBlock.raw))
      (chainHeader Decred.sampleBlake (sampleWireBlocks.map WireBlock.raw))
      (sampleHeights.map fun k ↦ hexHash Decred.sampleBlake sampleWireBlocks[k].raw) = .ok raws ∧
    List.Forall₂ (fun k raw ↦ ∃ next, sampleWireBlocks[k.val + 1]? = some next ∧
      ReadsAs Decred.sampleBlake sampleWireBlocks[k].header
        (if Approves next.raw then sampleWireBlocks[k].txs else []) sampleWireBlocks[k].stxs raw)
      sampleHeights raws :=
  (rawBlocks_reads sampleWireBlocks_linked sampleWireBlocks_linked.serves sampleHeights).1
    (List.forall_mem_cons.mpr ⟨by decide, List.forall_mem_singleton.mpr (by decide)⟩)

end DecredDaemon
end ElectrumX.Server
