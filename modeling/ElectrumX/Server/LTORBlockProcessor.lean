import ElectrumX.Server.BlockProcessor

/-!
# Blocks in any transaction order

The model of `LTORBlockProcessor` in `server/block_processor.py`: a block's outputs are all
added before its inputs are spent, and backing up restores all inputs before it removes
the outputs. The other methods are those of the base class, with these two in their place.
-/

namespace ElectrumX.Server
open ElectrumX.Base ElectrumX.Lib

/-- The methods that subclasses of `BlockProcessor` override. -/
structure TxMethods where
  advanceTxs : BlockProcessor → List Tx → (Bytes → Bool) →
    Except PyError (List Bytes × BlockProcessor)
  backupTxs : BlockProcessor → List Tx → (Bytes → Bool) → Except PyError BlockProcessor

namespace TxMethods

variable (env : Env) (m : TxMethods)

/-- The loop of `advance_blocks`, `block_processor.py:415–422`. -/
def advanceBlocksLoop (minHeight : Int) :
    Int → BlockProcessor → List Block → Except PyError BlockProcessor
  | _, bp, [] => return bp
  | height, bp, block :: rest => do
    let height := height + 1
    let (undoInfo, bp) ←
      m.advanceTxs bp block.transactions (env.coin.isUnspendableAt height)
    let bp := if height ≥ minHeight then
        { bp with
          undoInfos := bp.undoInfos ++ [(undoInfo, height)]
          db := bp.db.writeRawBlock env block.raw height }
      else bp
    advanceBlocksLoop minHeight height bp rest

/-- `advance_blocks`, `block_processor.py:406–429`. -/
def advanceBlocks (bp : BlockProcessor) (cachedHeight : Int) (blocks : List Block) :
    Except PyError BlockProcessor := do
  let headers := blocks.map Block.header
  let bp ← m.advanceBlocksLoop env (DB.minUndoHeight env cachedHeight) bp.height bp blocks
  match headers.getLast? with
  | none => throw .indexError
  | some header => return { bp with
      height := bp.height + blocks.length
      headers := bp.headers ++ headers
      tip := env.coin.headerHash header }

/-- One block of `backup_blocks`, `block_processor.py:499–513`. -/
def backupBlock (bp : BlockProcessor) (rawBlock : Bytes) : Except PyError BlockProcessor := do
  let block ← env.coin.block rawBlock bp.height
  let headerHash := env.coin.headerHash block.header
  if headerHash ≠ bp.tip then
    throw (.chainError (.notTip headerHash bp.tip bp.height))
  let bp := { bp with tip := env.coin.headerPrevhash block.header }
  let bp ← m.backupTxs bp block.transactions (env.coin.isUnspendableAt bp.height)
  if bp.db.counts = [] then throw .indexError
  return { bp with
    height := bp.height - 1
    db := { bp.db with txCounts := some bp.db.counts.dropLast } }

/-- `backup_blocks`, `block_processor.py:488–515`. -/
def backupBlocks (bp : BlockProcessor) (rawBlocks : List Bytes) :
    Except PyError BlockProcessor := do
  bp.db.assertFlushed bp.flushData
  assertThat (bp.height ≥ rawBlocks.length)
  rawBlocks.foldlM (m.backupBlock env) bp

/-- One chunk of the loop of `reorg_chain`, `block_processor.py:290–294`. -/
def backupChunk (bp : BlockProcessor) (rawBlocks : List Bytes) :
    Except PyError BlockProcessor := do
  (← m.backupBlocks env bp rawBlocks).flushBackup env

/-- `reorg_chain`, `block_processor.py:261–297`. -/
def reorgChain (blockHexHashes : Int → Int → Except PyError (List String))
    (daemonRawBlocks : List String → Except PyError (List Bytes)) (bp : BlockProcessor)
    (count : Option Int) : Except PyError BlockProcessor :=
  bp.reorgChainBy env blockHexHashes daemonRawBlocks (m.backupChunk env) count

end TxMethods

/-- The methods of the base class. -/
def BlockProcessor.methods (env : Env) : TxMethods where
  advanceTxs := BlockProcessor.advanceTxs env
  backupTxs := BlockProcessor.backupTxs

theorem BlockProcessor.methods_advanceBlocksLoop (env : Env) (minHeight height : Int)
    (bp : BlockProcessor) (blocks : List Block) :
    (methods env).advanceBlocksLoop env minHeight height bp blocks =
      advanceBlocksLoop env minHeight height bp blocks := by
  induction blocks generalizing height bp with
  | nil => rfl
  | cons block rest ih =>
    rw [TxMethods.advanceBlocksLoop, BlockProcessor.advanceBlocksLoop]
    refine bind_congr fun r ↦ ?_
    exact ih _ _

theorem BlockProcessor.methods_advanceBlocks (env : Env) (bp : BlockProcessor)
    (cachedHeight : Int) (blocks : List Block) :
    (methods env).advanceBlocks env bp cachedHeight blocks =
      bp.advanceBlocks env cachedHeight blocks := by
  rw [TxMethods.advanceBlocks, methods_advanceBlocksLoop]
  rfl

theorem BlockProcessor.methods_backupChunk (env : Env) (bp : BlockProcessor)
    (rawBlocks : List Bytes) :
    (methods env).backupChunk env bp rawBlocks = bp.backupChunk env rawBlocks := rfl

namespace LTORBlockProcessor
open BlockProcessor

/-- `hashXs.add` over the entries that the inputs of a transaction spend. -/
def addSpent (hashXs : Std.ExtTreeSet Bytes) (spent : List Bytes) : Std.ExtTreeSet Bytes :=
  spent.foldl (fun t cacheValue ↦ t.insert (cacheValue.take hashXLen)) hashXs

/-- The loop that adds the new UTXOs, `block_processor.py:793–808`: the hashXs that each
transaction pays. -/
def addUtxos (env : Env) (isUnspendable : Bytes → Bool) :
    Nat → Table → List Tx → Except PyError (List (Std.ExtTreeSet Bytes) × Table)
  | _, utxoCache, [] => return ([], utxoCache)
  | txNum, utxoCache, tx :: rest => do
    let txNumb := (← packLeUint64 txNum).take txnumLen
    let (paid, utxoCache) ← addOutputs env isUnspendable tx.txid txNumb 0 utxoCache tx.outputs
    let (hashXsByTx, utxoCache) ← addUtxos env isUnspendable (txNum + 1) utxoCache rest
    return (paid.foldl (fun t hashX ↦ t.insert hashX) ∅ :: hashXsByTx, utxoCache)

/-- The loop that spends the inputs, `block_processor.py:812–819`: the undo information and the
hashXs of each transaction. -/
def spendTxs (db : DB) :
    Table → List Bytes → List (Tx × Std.ExtTreeSet Bytes) →
      Except PyError (List Bytes × List (Std.ExtTreeSet Bytes) × Table × List Bytes)
  | utxoCache, dbDeletes, [] => return ([], [], utxoCache, dbDeletes)
  | utxoCache, dbDeletes, (tx, hashXs) :: rest => do
    let (spent, utxoCache, dbDeletes) ← spendInputs db utxoCache dbDeletes tx.inputs
    let (undo, hashXsByTx, utxoCache, dbDeletes) ← spendTxs db utxoCache dbDeletes rest
    return (spent ++ undo, addSpent hashXs spent :: hashXsByTx, utxoCache, dbDeletes)

/-- `advance_txs`, `block_processor.py:776–830`. -/
def advanceTxs (env : Env) (bp : BlockProcessor) (txs : List Tx)
    (isUnspendable : Bytes → Bool) : Except PyError (List Bytes × BlockProcessor) := do
  let (paidByTx, utxoCache) ← addUtxos env isUnspendable bp.txCount bp.utxoCache txs
  let (undoInfo, hashXsByTx, utxoCache, dbDeletes) ←
    spendTxs bp.db utxoCache bp.dbDeletes (txs.zip paidByTx)
  let history ← bp.db.history.addUnflushed (hashXsByTx.map (·.toList)) bp.txCount
  let txCount := bp.txCount + txs.length
  return (undoInfo, { bp with
    txHashes := bp.txHashes ++ [txs.flatMap fun tx ↦ tx.txid.val]
    utxoCache := utxoCache
    dbDeletes := dbDeletes
    touched := hashXsByTx.foldl (fun t hashXs ↦ t.insertMany hashXs.toList) bp.touched
    txCount := txCount
    db := { bp.db with history := history, txCounts := some (bp.db.counts ++ [txCount]) } })

/-- The loop that restores the coins of a transaction's inputs, `block_processor.py:848–855`. -/
def restoreInputs (undoInfo : Bytes) :
    Int → Table → Std.ExtTreeSet Bytes → List TxInput → Int × Table × Std.ExtTreeSet Bytes
  | n, utxoCache, touched, [] => (n, utxoCache, touched)
  | n, utxoCache, touched, txin :: rest =>
    if txin.isGeneration then restoreInputs undoInfo n utxoCache touched rest
    else
      let undoItem := pySlice undoInfo n (n + undoEntryLen)
      restoreInputs undoInfo (n + undoEntryLen)
        (utxoCache.insert (txin.prevHash ++ packLE 4 txin.prevIdx.toNat) undoItem)
        (touched.insert (undoItem.take hashXLen)) rest

/-- The loop that removes the outputs, `block_processor.py:860–871`. -/
def removeOutputs (isUnspendable : Bytes → Bool) (db : DB) :
    Table → List Bytes → Std.ExtTreeSet Bytes → List Tx →
      Except PyError (Table × List Bytes × Std.ExtTreeSet Bytes)
  | utxoCache, dbDeletes, touched, [] => return (utxoCache, dbDeletes, touched)
  | utxoCache, dbDeletes, touched, tx :: rest => do
    let (utxoCache, dbDeletes, touched) ←
      spendOutputs isUnspendable db tx.txid 0 utxoCache dbDeletes touched tx.outputs
    removeOutputs isUnspendable db utxoCache dbDeletes touched rest

/-- `backup_txs`, `block_processor.py:832–873`. -/
def backupTxs (bp : BlockProcessor) (txs : List Tx) (isUnspendable : Bytes → Bool) :
    Except PyError BlockProcessor := do
  match ← bp.db.readUndoInfo bp.height with
  | none => throw (.chainError (.noUndoInfo bp.height))
  | some undoInfo =>
    let (n, utxoCache, touched) :=
      restoreInputs undoInfo 0 bp.utxoCache bp.touched (txs.flatMap (·.inputs))
    assertThat (n = undoInfo.length)
    let (utxoCache, dbDeletes, touched) ←
      removeOutputs isUnspendable bp.db utxoCache bp.dbDeletes touched txs
    return { bp with
      utxoCache := utxoCache
      dbDeletes := dbDeletes
      touched := touched
      txCount := bp.txCount - txs.length }

/-- The methods of `LTORBlockProcessor`. -/
def methods (env : Env) : TxMethods where
  advanceTxs := advanceTxs env
  backupTxs := backupTxs

end LTORBlockProcessor
end ElectrumX.Server
