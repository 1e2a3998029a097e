import ElectrumX.Server.DB
import Std.Data.ExtTreeSet.Lemmas

/-!
# The block processor

The model of the chain processing in `server/block_processor.py`: advancing and backing
up blocks, the UTXO cache and the flushes. The lists of the flush data are the
processor's own, so clearing them in the DB clears them here.
-/

namespace ElectrumX.Server
open ElectrumX.Base ElectrumX.Lib

/-- `BlockProcessor`, `block_processor.py:165–211`, with its DB. -/
structure BlockProcessor where
  db : DB
  height : Int := -1
  tip : Bytes := []
  txCount : Nat := 0
  touched : Std.ExtTreeSet Bytes := ∅
  headers : List Bytes := []
  txHashes : List Bytes := []
  undoInfos : List (List Bytes × Int) := []
  utxoCache : Table := ∅
  dbDeletes : List Bytes := []

/-- `undo_entry_len`, `block_processor.py:534`. -/
def undoEntryLen : Nat := hashXLen + txnumLen + 8

namespace BlockProcessor

variable (env : Env)

/-! ### Spending -/

/-- The loop over the candidates, `block_processor.py:638–656`: the entry with the keys of
its two rows. `many` tells that there is more than one candidate. -/
def findCandidate (db : DB) (txHash : Bytes) (many : Bool) :
    List (Bytes × Bytes) → Except PyError (Option (Bytes × Bytes × Bytes))
  | [] => return none
  | (hdbKey, hashX) :: rest => do
    let txNumPacked := lastN txnumLen hdbKey
    let skip ← if many then do
        let txNum ← unpackLeUint64 (txNumPacked ++ txnumPadding)
        let hash := (db.fsTxHash txNum).1
        if hash ≠ some txHash then
          assertThat (hash ≠ none)
          pure true
        else pure false
      else pure false
    if skip then findCandidate db txHash many rest
    else
      let udbKey := prefixU :: hashX ++ lastN (4 + txnumLen) hdbKey
      match db.utxoDb[udbKey]? with
      | some (b :: bs) => return some (hashX ++ txNumPacked ++ (b :: bs), hdbKey, udbKey)
      | _ => findCandidate db txHash many rest

/-- `spend_utxo`, `block_processor.py:616–659`: the entry, the cache and the pending deletes. -/
def spendUtxo (db : DB) (utxoCache : Table) (dbDeletes : List Bytes) (txHash : Bytes)
    (txIdx : Nat) : Except PyError (Bytes × Table × List Bytes) := do
  let idxPacked ← packLeUint32 txIdx
  let cacheValue := utxoCache[txHash ++ idxPacked]?
  let utxoCache := utxoCache.erase (txHash ++ idxPacked)
  match cacheValue with
  | some (b :: bs) => return (b :: bs, utxoCache, dbDeletes)
  | _ =>
    let candidates := db.utxoDb.iterator (prefixH :: txHash.take compTxidLen ++ idxPacked)
    match ← findCandidate db txHash (candidates.length > 1) candidates with
    | some (entry, hdbKey, udbKey) => return (entry, utxoCache, dbDeletes ++ [hdbKey, udbKey])
    | none => throw (.chainError (.utxoNotFound txHash txIdx))

/-! ### Advancing -/

/-- The inputs loop, `block_processor.py:455–461`: the spent entries in order. -/
def spendInputs (db : DB) :
    Table → List Bytes → List TxInput → Except PyError (List Bytes × Table × List Bytes)
  | utxoCache, dbDeletes, [] => return ([], utxoCache, dbDeletes)
  | utxoCache, dbDeletes, txin :: rest => do
    if txin.isGeneration then spendInputs db utxoCache dbDeletes rest
    else
      let (cacheValue, utxoCache, dbDeletes) ←
        spendUtxo db utxoCache dbDeletes txin.prevHash txin.prevIdx.toNat
      let (spent, utxoCache, dbDeletes) ← spendInputs db utxoCache dbDeletes rest
      return (cacheValue :: spent, utxoCache, dbDeletes)

/-- The outputs loop, `block_processor.py:464–473`: the hashXs paid in order. -/
def addOutputs (isUnspendable : Bytes → Bool) (txHash txNumb : Bytes) :
    Nat → Table → List TxOutput → Except PyError (List Bytes × Table)
  | _, utxoCache, [] => return ([], utxoCache)
  | idx, utxoCache, txout :: rest => do
    if isUnspendable txout.pkScript then
      addOutputs isUnspendable txHash txNumb (idx + 1) utxoCache rest
    else
      let hashX := (env.coin.hashXFromScript txout.pkScript).val
      let key := txHash ++ (← packLeUint32 idx)
      let value := hashX ++ txNumb ++ (← packLeUint64 txout.value)
      let (paid, utxoCache) ←
        addOutputs isUnspendable txHash txNumb (idx + 1) (utxoCache.insert key value) rest
      return (hashX :: paid, utxoCache)

/-- The loop of `advance_txs`, `block_processor.py:448–477`: the undo information, the hashXs
of each transaction, the cache and the pending deletes. -/
def advanceLoop (isUnspendable : Bytes → Bool) (db : DB) :
    Nat → Table → List Bytes → List Tx →
      Except PyError (List Bytes × List (List Bytes) × Table × List Bytes)
  | _, utxoCache, dbDeletes, [] => return ([], [], utxoCache, dbDeletes)
  | txNum, utxoCache, dbDeletes, tx :: rest => do
    let txNumb := (← packLeUint64 txNum).take txnumLen
    let (spent, utxoCache, dbDeletes) ← spendInputs db utxoCache dbDeletes tx.inputs
    let (paid, utxoCache) ←
      addOutputs env isUnspendable tx.txid txNumb 0 utxoCache tx.outputs
    let hashXs := spent.map (·.take hashXLen) ++ paid
    let (undo, hashXsByTx, utxoCache, dbDeletes) ←
      advanceLoop isUnspendable db (txNum + 1) utxoCache dbDeletes rest
    return (spent ++ undo, hashXs :: hashXsByTx, utxoCache, dbDeletes)

/-- `advance_txs`, `block_processor.py:431–486`. -/
def advanceTxs (bp : BlockProcessor) (txs : List Tx) (isUnspendable : Bytes → Bool) :
    Except PyError (List Bytes × BlockProcessor) := do
  let (undoInfo, hashXsByTx, utxoCache, dbDeletes) ←
    advanceLoop env isUnspendable bp.db bp.txCount bp.utxoCache bp.dbDeletes txs
  let history ← bp.db.history.addUnflushed hashXsByTx bp.txCount
  let txCount := bp.txCount + txs.length
  return (undoInfo, { bp with
    txHashes := bp.txHashes ++ [txs.flatMap fun tx ↦ tx.txid.val]
    utxoCache := utxoCache
    dbDeletes := dbDeletes
    touched := hashXsByTx.flatten.foldl (fun t hashX ↦ t.insert hashX) bp.touched
    txCount := txCount
    db := { bp.db with history := history, txCounts := some (bp.db.counts ++ [txCount]) } })

/-- The loop of `advance_blocks`, `block_processor.py:415–422`. -/
def advanceBlocksLoop (minHeight : Int) :
    Int → BlockProcessor → List Block → Except PyError BlockProcessor
  | _, bp, [] => return bp
  | height, bp, block :: rest => do
    let height := height + 1
    let (undoInfo, bp) ←
      bp.advanceTxs env block.transactions (env.coin.isUnspendableAt height)
    let bp := if height ≥ minHeight then
        { bp with
          undoInfos := bp.undoInfos ++ [(undoInfo, height)]
          db := bp.db.writeRawBlock env block.raw height }
      else bp
    advanceBlocksLoop minHeight height bp rest

/-- `advance_blocks`, `block_processor.py:406–429`; `cachedHeight` is the daemon's. -/
def advanceBlocks (bp : BlockProcessor) (cachedHeight : Int) (blocks : List Block) :
    Except PyError BlockProcessor := do
  let headers := blocks.map Block.header
  let bp ← advanceBlocksLoop env (DB.minUndoHeight env cachedHeight) bp.height bp blocks
  match headers.getLast? with
  | none => throw .indexError
  | some header => return { bp with
      height := bp.height + blocks.length
      headers := bp.headers ++ headers
      tip := env.coin.headerHash header }

/-! ### Flushing -/

/-- `flush_data`, `block_processor.py:357–362`. -/
def flushData (bp : BlockProcessor) : FlushData where
  height := bp.height
  txCount := bp.txCount
  headers := bp.headers
  blockTxHashes := bp.txHashes
  undoInfos := bp.undoInfos
  adds := bp.utxoCache
  deletes := bp.dbDeletes
  tip := bp.tip

/-- The processor once the DB has cleared the lists that it shares with the flush data. -/
def afterFlush (bp : BlockProcessor) (fd : FlushData) (db : DB) : BlockProcessor :=
  { bp with
    db := db
    headers := fd.headers
    txHashes := fd.blockTxHashes
    undoInfos := fd.undoInfos
    utxoCache := fd.adds
    dbDeletes := fd.deletes }

/-- `flush`, `block_processor.py:364–368`. -/
def flush (bp : BlockProcessor) (flushUtxos : Bool) : Except PyError BlockProcessor := do
  let (fd, db) ← bp.db.flushDbs env bp.flushData flushUtxos
  return bp.afterFlush fd db

/-! ### Backing up -/

/-- The outputs loop of `backup_txs`, `block_processor.py:538–547`. -/
def spendOutputs (isUnspendable : Bytes → Bool) (db : DB) (txHash : Bytes) :
    Nat → Table → List Bytes → Std.ExtTreeSet Bytes → List TxOutput →
      Except PyError (Table × List Bytes × Std.ExtTreeSet Bytes)
  | _, utxoCache, dbDeletes, touched, [] => return (utxoCache, dbDeletes, touched)
  | idx, utxoCache, dbDeletes, touched, txout :: rest => do
    if isUnspendable txout.pkScript then
      spendOutputs isUnspendable db txHash (idx + 1) utxoCache dbDeletes touched rest
    else
      let (cacheValue, utxoCache, dbDeletes) ← spendUtxo db utxoCache dbDeletes txHash idx
      let touched := touched.insert (cacheValue.take hashXLen)
      spendOutputs isUnspendable db txHash (idx + 1) utxoCache dbDeletes touched rest

/-- The inputs loop of `backup_txs`, `block_processor.py:550–557`, over the reversed inputs. -/
def restoreInputs (undoInfo : Bytes) :
    Int → Table → Std.ExtTreeSet Bytes → List TxInput → Int × Table × Std.ExtTreeSet Bytes
  | n, utxoCache, touched, [] => (n, utxoCache, touched)
  | n, utxoCache, touched, txin :: rest =>
    if txin.isGeneration then restoreInputs undoInfo n utxoCache touched rest
    else
      let n := n - undoEntryLen
      let undoItem := pySlice undoInfo n (n + undoEntryLen)
      restoreInputs undoInfo n
        (utxoCache.insert (txin.prevHash ++ packLE 4 txin.prevIdx.toNat) undoItem)
        (touched.insert (undoItem.take hashXLen)) rest

/-- The loop of `backup_txs`, `block_processor.py:536–557`, over the reversed transactions. -/
def backupLoop (isUnspendable : Bytes → Bool) (db : DB) (undoInfo : Bytes) :
    Int → Table → List Bytes → Std.ExtTreeSet Bytes → List Tx →
      Except PyError (Int × Table × List Bytes × Std.ExtTreeSet Bytes)
  | n, utxoCache, dbDeletes, touched, [] => return (n, utxoCache, dbDeletes, touched)
  | n, utxoCache, dbDeletes, touched, tx :: rest => do
    let (utxoCache, dbDeletes, touched) ←
      spendOutputs isUnspendable db tx.txid 0 utxoCache dbDeletes touched tx.outputs
    let (n, utxoCache, touched) :=
      restoreInputs undoInfo n utxoCache touched tx.inputs.reverse
    backupLoop isUnspendable db undoInfo n utxoCache dbDeletes touched rest

/-- `backup_txs`, `block_processor.py:517–560`. -/
def backupTxs (bp : BlockProcessor) (txs : List Tx) (isUnspendable : Bytes → Bool) :
    Except PyError BlockProcessor := do
  match ← bp.db.readUndoInfo bp.height with
  | none => throw (.chainError (.noUndoInfo bp.height))
  | some undoInfo =>
    let (n, utxoCache, dbDeletes, touched) ← backupLoop isUnspendable bp.db undoInfo
      undoInfo.length bp.utxoCache bp.dbDeletes bp.touched txs.reverse
    assertThat (n = 0)
    return { bp with
      utxoCache := utxoCache
      dbDeletes := dbDeletes
      touched := touched
      txCount := bp.txCount - txs.length }

/-- One block of `backup_blocks`, `block_processor.py:499–513`. -/
def backupBlock (bp : BlockProcessor) (rawBlock : Bytes) : Except PyError BlockProcessor := do
  let block ← env.coin.block rawBlock bp.height
  let headerHash := env.coin.headerHash block.header
  if headerHash ≠ bp.tip then
    throw (.chainError (.notTip headerHash bp.tip bp.height))
  let bp := { bp with tip := env.coin.headerPrevhash block.header }
  let bp ← bp.backupTxs block.transactions (env.coin.isUnspendableAt bp.height)
  if bp.db.counts = [] then throw .indexError
  return { bp with
    height := bp.height - 1
    db := { bp.db with txCounts := some bp.db.counts.dropLast } }

/-- `backup_blocks`, `block_processor.py:488–515`. -/
def backupBlocks (bp : BlockProcessor) (rawBlocks : List Bytes) :
    Except PyError BlockProcessor := do
  bp.db.assertFlushed bp.flushData
  assertThat (bp.height ≥ rawBlocks.length)
  rawBlocks.foldlM (backupBlock env) bp

/-- `flush_backup` of `reorg_chain`, `block_processor.py:281–285`. -/
def flushBackup (bp : BlockProcessor) : Except PyError BlockProcessor := do
  let (fd, db) ← bp.db.flushBackup env bp.flushData bp.touched.toList
  return bp.afterFlush fd db

/-- One chunk of the loop of `reorg_chain`, `block_processor.py:290–294`. -/
def backupChunk (bp : BlockProcessor) (rawBlocks : List Bytes) : Except PyError BlockProcessor := do
  (← bp.backupBlocks env rawBlocks).flushBackup env

/-! ### The range of a reorganisation -/

section ReorgRange

variable (blockHexHashes : Int → Int → Except PyError (List String))
variable (daemonRawBlocks : List String → Except PyError (List Bytes))

/-- `diff_pos`, `block_processor.py:317–323`. -/
def diffPos : List String → List String → Nat
  | [], _ => 0
  | hashes1, [] => hashes1.length
  | hash1 :: hashes1, hash2 :: hashes2 =>
    if hash1 ≠ hash2 then 0 else diffPos hashes1 hashes2 + 1

/-- The loop of `calc_reorg_range`, `block_processor.py:329–338`: the start that it ends with.
The window grows while its first block differs from the daemon's. -/
def searchFork (bp : BlockProcessor) (start count : Int) (hcount : 0 < count) :
    Except PyError Int :=
  if hstart : start > 0 then do
    let hashes ← bp.db.fsBlockHashes env start count
    let dHexHashes ← blockHexHashes start count
    let n := diffPos (hashes.map hashToHexStr) dHexHashes
    if n > 0 then return start + n
    searchFork bp (start - min (count * 2) start) (min (count * 2) start) (by omega)
  else return start
termination_by start.toNat
decreasing_by omega

/-- `calc_reorg_range`, `block_processor.py:314–344`. `blockHexHashes` is the daemon's
`block_hex_hashes`. -/
def calcReorgRange (bp : BlockProcessor) (count : Option Int) : Except PyError (Int × Int) := do
  match count with
  | none =>
    let start ← bp.searchFork env blockHexHashes (bp.height - 1) 1 (by decide)
    return (start, bp.height - start + 1)
  | some count => return (bp.height - count + 1, count)

/-- `reorg_hashes`, `block_processor.py:299–312`. -/
def reorgHashes (bp : BlockProcessor) (count : Option Int) :
    Except PyError (Int × Int × List Bytes) := do
  let (start, count) ← bp.calcReorgRange env blockHexHashes count
  return (start, start + count - 1, ← bp.db.fsBlockHashes env start count)

/-- The hex hashes of the chunks that `reorg_chain` backs up,
`block_processor.py:287–290`. -/
def reorgChunks (hashes : List Bytes) : List (List String) :=
  chunks (hashes.reverse.map hashToHexStr) 50

/-- `get_raw_blocks` of `reorg_chain`, `block_processor.py:272–279`: the blocks on disk, or when
one of them is missing all blocks of the chunk from the daemon, whose `raw_blocks` is
`daemonRawBlocks`. -/
def getRawBlocks (db : DB) (lastHeight : Int) (hexHashes : List String) :
    Except PyError (List Bytes) :=
  let heights := (List.range hexHashes.length).map fun n ↦ lastHeight - (n : Int)
  match heights.mapM db.readRawBlock with
  | some blocks => return blocks
  | none => daemonRawBlocks hexHashes

/-- The loop of `reorg_chain` over its chunks, `block_processor.py:290–294`. `backupChunk` backs up
the blocks of one and flushes. -/
def reorgLoop (backupChunk : BlockProcessor → List Bytes → Except PyError BlockProcessor) :
    Int → BlockProcessor → List (List String) → Except PyError BlockProcessor
  | _, bp, [] => return bp
  | last, bp, hexHashes :: rest => do
    let rawBlocks ← getRawBlocks daemonRawBlocks bp.db last hexHashes
    let bp ← backupChunk bp rawBlocks
    reorgLoop backupChunk (last - rawBlocks.length) bp rest

/-- `reorg_chain`, `block_processor.py:261–297`, of a class with its `backupChunk`. -/
def reorgChainBy (backupChunk : BlockProcessor → List Bytes → Except PyError BlockProcessor)
    (bp : BlockProcessor) (count : Option Int) : Except PyError BlockProcessor := do
  let bp ← bp.flush env true
  let (_, last, hashes) ← bp.reorgHashes env blockHexHashes count
  reorgLoop daemonRawBlocks backupChunk last bp (reorgChunks hashes)

/-- `reorg_chain` of the base class. -/
def reorgChain (bp : BlockProcessor) (count : Option Int) : Except PyError BlockProcessor :=
  bp.reorgChainBy env blockHexHashes daemonRawBlocks (backupChunk env) count

variable {env : Env} {blockHexHashes : Int → Int → Except PyError (List String)}
variable {daemonRawBlocks : List String → Except PyError (List Bytes)}

/-- A reorganisation of one chunk backs up the blocks that it gets for the chunk. -/
theorem reorgChainBy_of_chunk
    {backupChunk : BlockProcessor → List Bytes → Except PyError BlockProcessor}
    {bp flushed : BlockProcessor} {count : Option Int} {range : Int × Int × List Bytes}
    {hexHashes : List String} {rawBlocks : List Bytes} (hflush : bp.flush env true = .ok flushed)
    (hrange : flushed.reorgHashes env blockHexHashes count = .ok range)
    (hchunk : reorgChunks range.2.2 = [hexHashes])
    (hraw : getRawBlocks daemonRawBlocks flushed.db range.2.1 hexHashes = .ok rawBlocks) :
    bp.reorgChainBy env blockHexHashes daemonRawBlocks backupChunk count =
      backupChunk flushed rawBlocks := by
  have hloop : reorgLoop daemonRawBlocks backupChunk range.2.1 flushed (reorgChunks range.2.2) =
      backupChunk flushed rawBlocks := by
    rw [hchunk, reorgLoop, hraw]
    exact bind_pure (backupChunk flushed rawBlocks)
  rw [reorgChainBy, hflush]
  simp only [bind, Except.bind, hrange]
  exact hloop

end ReorgRange

/-! ### Opening -/

/-- `_first_open_dbs`, `block_processor.py:689–693`, in a new process. -/
def firstOpenDbs (disk : Disk) : Except PyError BlockProcessor := do
  let db ← DB.openForSync env disk
  return { db := db, height := db.dbHeight, tip := db.dbTip, txCount := db.dbTxCount }

end BlockProcessor
end ElectrumX.Server
