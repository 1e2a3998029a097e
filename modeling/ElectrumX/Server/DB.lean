import ElectrumX.Base.FlatFile
import ElectrumX.Lib.Merkle
import ElectrumX.Server.History

/-!
# The blockchain database

The model of `server/db.py`: the flushes, the reads and the opening of the databases.
The UTXO DB maps `b'h' + compressed_tx_hash + idx + tx_num` to a hashX,
`b'u' + hashX + idx + tx_num` to a value, `b'U' + height` to undo information and
`b'state'` to the state record. Logical files are flat byte arrays. `journal` lists the
durable writes since the databases were opened, so that a crash can cut it anywhere.
Wall-clock times and logging are left out.
-/

namespace ElectrumX.Server
open ElectrumX.Base ElectrumX.Lib

/-- The state record of the UTXO DB, `db.py:730–740`. -/
structure UtxoState where
  genesis : Bytes
  height : Int
  txCount : Nat
  tip : Bytes
  utxoFlushCount : Nat
  firstSync : Bool
  dbVersion : Nat
  deriving DecidableEq, Repr

/-- The environment: the coin, the reorg limit and the state codecs. -/
structure Env where
  coin : Coin
  reorgLimit : Int
  utxoCodec : StateCodec UtxoState
  historyCodec : StateCodec HistoryState

/-- `UTXO`, `db.py:38–44`, ordered by its fields; the hash is `None` when it was not found. -/
structure UTXO where
  txNum : Int
  txPos : Nat
  txHash : Option Bytes
  height : Int
  value : Int
  deriving DecidableEq

/-- `FlushData`, `db.py:47–57`. -/
structure FlushData where
  height : Int
  txCount : Nat
  headers : List Bytes
  blockTxHashes : List Bytes
  undoInfos : List (List Bytes × Int)
  adds : Table
  deletes : List Bytes
  tip : Bytes

/-- One durable write: bytes written to a file, or a committed batch with its outcome. -/
inductive DiskWrite where
  | headers (offset : Nat) (b : Bytes)
  | headersOffsets (offset : Nat) (b : Bytes)
  | txCounts (offset : Nat) (b : Bytes)
  | hashes (offset : Nat) (b : Bytes)
  | historyBatch (t : Table)
  | utxoBatch (t : Table)

/-- What lies on disk: the two databases and the logical files, `db.py:128–136`. `created`
tells whether the UTXO DB exists at all. -/
structure Disk where
  created : Bool := true
  utxo : Table := ∅
  history : Table := ∅
  headers : Bytes := []
  headersOffsets : Bytes := []
  txCounts : Bytes := []
  hashes : Bytes := []

/-- `DB`, `db.py:77–136`. -/
structure DB where
  utxoDb : Table := ∅
  history : History := { db := ∅ }
  headersFile : Bytes := []
  headersOffsetsFile : Bytes := []
  txCountsFile : Bytes := []
  hashesFile : Bytes := []
  rawBlocks : Std.ExtTreeMap Int Bytes := ∅
  headerMc : MerkleCache := {}
  journal : List DiskWrite := []
  utxoFlushCount : Nat := 0
  fsHeight : Int := -1
  fsTxCount : Nat := 0
  dbHeight : Int := -1
  dbTxCount : Nat := 0
  dbTip : Bytes := []
  txCounts : Option (List Nat) := none
  firstSync : Bool := true
  dbVersion : Nat := 0

/-- `COMP_TXID_LEN`, `db.py:61`. -/
def compTxidLen : Nat := 4

/-- `max(DB_VERSIONS)`, `db.py:71`. -/
def latestDbVersion : Nat := 8

/-- The table prefixes `b'h'`, `b'u'` and `b'U'`. -/
def prefixH : UInt8 := 0x68
def prefixU : UInt8 := 0x75
def prefixUndo : UInt8 := 0x55

/-- The key `b'state'`. -/
def utxoStateKey : Bytes := [0x73, 0x74, 0x61, 0x74, 0x65]

namespace DB

variable (env : Env)

/-- `self.tx_counts`, once it has been read. -/
def counts (db : DB) : List Nat := db.txCounts.getD []

/-! ### Durable writes -/

/-- What the open databases have on disk. -/
def disk (db : DB) : Disk where
  created := true
  utxo := db.utxoDb
  history := db.history.db
  headers := db.headersFile
  headersOffsets := db.headersOffsetsFile
  txCounts := db.txCountsFile
  hashes := db.hashesFile

/-- `self.headers_file.write`. -/
def writeHeaders (db : DB) (offset : Nat) (b : Bytes) : DB :=
  { db with
    headersFile := FlatFile.write db.headersFile offset b
    journal := db.journal ++ [.headers offset b] }

/-- `self.headers_offsets_file.write`. -/
def writeHeadersOffsets (db : DB) (offset : Nat) (b : Bytes) : DB :=
  { db with
    headersOffsetsFile := FlatFile.write db.headersOffsetsFile offset b
    journal := db.journal ++ [.headersOffsets offset b] }

/-- `self.tx_counts_file.write`. -/
def writeTxCounts (db : DB) (offset : Nat) (b : Bytes) : DB :=
  { db with
    txCountsFile := FlatFile.write db.txCountsFile offset b
    journal := db.journal ++ [.txCounts offset b] }

/-- `self.hashes_file.write`. -/
def writeHashes (db : DB) (offset : Nat) (b : Bytes) : DB :=
  { db with
    hashesFile := FlatFile.write db.hashesFile offset b
    journal := db.journal ++ [.hashes offset b] }

/-- Take over a history DB whose batch has been committed. -/
def commitHistory (db : DB) (history : History) : DB :=
  { db with history := history, journal := db.journal ++ [.historyBatch history.db] }

/-- Commit a batch to the UTXO DB. -/
def commitUtxo (db : DB) (ops : List BatchOp) : DB :=
  { db with
    utxoDb := db.utxoDb.write ops
    journal := db.journal ++ [.utxoBatch (db.utxoDb.write ops)] }

/-! ### Headers -/

/-- `dynamic_header_offset`, `db.py:403–406`. -/
def dynamicHeaderOffset (db : DB) (height : Int) : Except PyError Nat :=
  unpackLeUint64 (FlatFile.read db.headersOffsetsFile (height * 8).toNat 8)

/-- `self.header_offset`, `db.py:82–88`. -/
def headerOffset (db : DB) (height : Int) : Except PyError Nat :=
  if env.coin.staticBlockHeaders then .ok (Coin.staticHeaderOffset height).toNat
  else db.dynamicHeaderOffset height

/-- The offsets of the following headers, `db.py:393–398`. -/
def nextOffsets (offset : Nat) : List Bytes → List Nat
  | [] => []
  | h :: rest => (offset + h.length) :: nextOffsets (offset + h.length) rest

/-- `fs_update_header_offsets`, `db.py:390–401`. -/
def fsUpdateHeaderOffsets (db : DB) (offsetStart : Nat) (heightStart : Int)
    (headers : List Bytes) : Except PyError DB := do
  if env.coin.staticBlockHeaders then return db
  let offsets ← (nextOffsets offsetStart headers).mapM fun (offset : Nat) ↦ packLeUint64 offset
  return db.writeHeadersOffsets ((heightStart + 1) * 8).toNat offsets.flatten

/-- `read_headers`, `db.py:426–448`, without interleaving: the headers and their number. -/
def readHeaders (db : DB) (startHeight count : Int) : Except PyError (Bytes × Nat) := do
  if startHeight < 0 ∨ count < 0 then
    throw (.dbError (.headersNotOnDisk startHeight count))
  let diskCount := max 0 (min count (db.dbHeight + 1 - startHeight))
  if diskCount = 0 then return ([], 0)
  let offset ← db.headerOffset env startHeight
  let size := (← db.headerOffset env (startHeight + diskCount)) - offset
  return (FlatFile.read db.headersFile offset size, diskCount.toNat)

/-- `dynamic_header_len`, `db.py:408–410`. -/
def dynamicHeaderLen (db : DB) (height : Int) : Except PyError Int :=
  return (← db.dynamicHeaderOffset (height + 1) : Nat) - (← db.dynamicHeaderOffset height : Nat)

/-- `self.header_len`, `db.py:82–88`. -/
def headerLen (db : DB) (height : Int) : Except PyError Int :=
  if env.coin.staticBlockHeaders then .ok (Coin.staticHeaderLen height)
  else db.dynamicHeaderLen height

/-- The loop of `fs_block_hashes`, `db.py:485–490`: the headers cut from their
concatenation. -/
def splitHeaders (db : DB) (headersConcat : Bytes) :
    Int → Int → Nat → Except PyError (List Bytes)
  | _, _, 0 => return []
  | offset, height, count + 1 => do
    let hlen ← db.headerLen env height
    let rest ← splitHeaders db headersConcat (offset + hlen) (height + 1) count
    return pySlice headersConcat offset (offset + hlen) :: rest

/-- `fs_block_hashes`, `db.py:480–492`, without interleaving. -/
def fsBlockHashes (db : DB) (height count : Int) : Except PyError (List Bytes) := do
  let (headersConcat, headersCount) ← db.readHeaders env height count
  if (headersCount : Int) ≠ count then
    throw (.dbError (.headersMissing headersCount height count))
  let headers ← db.splitHeaders env headersConcat 0 height count.toNat
  return headers.map env.coin.headerHash

/-! ### Transaction hashes -/

/-- `fs_tx_hash`, `db.py:450–459`. -/
def fsTxHash (db : DB) (txNum : Nat) : Option Bytes × Nat :=
  let txHeight := bisectRight db.counts txNum
  if (txHeight : Int) > db.dbHeight then (none, txHeight)
  else (some (FlatFile.read db.hashesFile (txNum * 32) 32), txHeight)

/-- The UTXO of a row of the `u` table, `db.py:759–764`. -/
def readUtxo (db : DB) (row : Bytes × Bytes) : Except PyError UTXO := do
  let txoutIdx ← unpackLeUint32 ((lastN (4 + txnumLen) row.1).take 4)
  let txNum ← unpackLeUint64 (lastN txnumLen row.1 ++ txnumPadding)
  let value ← unpackLeUint64 row.2
  let (txHash, height) := db.fsTxHash txNum
  return ⟨txNum, txoutIdx, txHash, height, value⟩

/-- `read_utxos` of `all_utxos`, `db.py:751–765`. -/
def readUtxos (db : DB) (hashX : HashX) : Except PyError (List UTXO) :=
  (db.utxoDb.iterator (prefixU :: hashX.val)).mapM db.readUtxo

/-- One round of `all_utxos`, `db.py:767–772`; `none` when a hash was not found and the read is
tried again. -/
def allUtxos (db : DB) (hashX : HashX) : Except PyError (Option (List UTXO)) := do
  let utxos ← db.readUtxos hashX
  return if ∀ utxo ∈ utxos, utxo.txHash ≠ none then some utxos else none

/-- The loop of `lookup_hashX` over the candidates, `db.py:793–799`. -/
def matchCandidate (db : DB) (txHash idxPacked : Bytes) :
    List (Bytes × Bytes) → Except PyError (Option (Bytes × Bytes))
  | [] => return none
  | (dbKey, hashX) :: rest => do
    let txNumPacked := lastN txnumLen dbKey
    let txNum ← unpackLeUint64 (txNumPacked ++ txnumPadding)
    if (db.fsTxHash txNum).1 = some txHash then return some (hashX, idxPacked ++ txNumPacked)
    db.matchCandidate txHash idxPacked rest

/-- `lookup_hashX` of `lookup_utxos`, `db.py:784–799`: the hashX and the suffix of the `u` key. -/
def lookupHashX (db : DB) (prevout : Bytes × Nat) : Except PyError (Option (Bytes × Bytes)) := do
  let idxPacked ← packLeUint32 prevout.2
  db.matchCandidate prevout.1 idxPacked
    (db.utxoDb.iterator (prefixH :: prevout.1.take compTxidLen ++ idxPacked))

/-- `lookup_utxo` of `lookup_utxos`, `db.py:803–818`. -/
def lookupUtxo (db : DB) : Option (Bytes × Bytes) → Except PyError (Option (Bytes × Nat))
  | none => return none
  | some ([], _) => return none
  | some (hashX, suffix) =>
    match db.utxoDb[prefixU :: hashX ++ suffix]? with
    | some (b :: bs) => do
      let value ← unpackLeUint64 (b :: bs)
      return some (hashX, value)
    | _ => return none

/-- `lookup_utxos`, `db.py:774–822`, without a write between its two steps. -/
def lookupUtxos (db : DB) (prevouts : List (Bytes × Nat)) :
    Except PyError (List (Option (Bytes × Nat))) := do
  let hashXPairs ← prevouts.mapM db.lookupHashX
  hashXPairs.mapM db.lookupUtxo

/-- The `first_tx_num` of `fs_tx_hashes_at_blockheight`, `db.py:468–471`. -/
def firstTxNum (db : DB) (blockHeight : Int) : Except PyError Nat :=
  if blockHeight > 0 then getItem db.counts (blockHeight.toNat - 1) else .ok 0

/-- `fs_tx_hashes_at_blockheight`, `db.py:461–475`. -/
def fsTxHashesAtBlockheight (db : DB) (blockHeight : Int) : Except PyError (List Bytes) := do
  if blockHeight > db.dbHeight then
    throw (.dbError (.blockNotOnDisk blockHeight db.dbHeight))
  assertThat (blockHeight ≥ 0)
  let firstTxNum ← db.firstTxNum blockHeight
  let numTxsInBlock := (← getItem db.counts blockHeight.toNat) - firstTxNum
  let txHashes := FlatFile.read db.hashesFile (firstTxNum * 32) (numTxsInBlock * 32)
  assertThat (numTxsInBlock = txHashes.length / 32)
  return (List.range numTxsInBlock).map fun idx ↦ (txHashes.drop (idx * 32)).take 32

/-! ### Undo information -/

/-- `min_undo_height`, `db.py:516`. -/
def minUndoHeight (maxHeight : Int) : Int := maxHeight - env.reorgLimit + 1

/-- `undo_key`, `db.py:520`. -/
def undoKey (height : Int) : Except PyError Bytes :=
  return prefixUndo :: (← packBeUint32 height)

/-- `read_undo_info`, `db.py:524`. -/
def readUndoInfo (db : DB) (height : Int) : Except PyError (Option Bytes) :=
  return db.utxoDb[← undoKey height]?

/-- `flush_undo_infos`, `db.py:528–533`. -/
def flushUndoInfos (undoInfos : List (List Bytes × Int)) : Except PyError (List BatchOp) :=
  undoInfos.mapM fun u ↦ return .put (← undoKey u.2) u.1.flatten

/-- `read_raw_block`, `db.py:541–545`: none when there is no file for the height. -/
def readRawBlock (db : DB) (height : Int) : Option Bytes := db.rawBlocks[height]?

/-- `write_raw_block`, `db.py:547–556`. -/
def writeRawBlock (db : DB) (block : Bytes) (height : Int) : DB :=
  { db with rawBlocks := (db.rawBlocks.insert height block).erase (minUndoHeight env height - 1) }

/-! ### Flushing -/

/-- `assert_flushed`, `db.py:216–226`. -/
def assertFlushed (db : DB) (fd : FlushData) : Except PyError Unit := do
  assertThat (fd.txCount = db.fsTxCount ∧ db.fsTxCount = db.dbTxCount)
  assertThat (fd.height = db.fsHeight ∧ db.fsHeight = db.dbHeight)
  assertThat (fd.tip = db.dbTip)
  assertThat (fd.headers = [])
  assertThat (fd.blockTxHashes = [])
  assertThat (fd.adds.toList = [])
  assertThat (fd.deletes = [])
  assertThat (fd.undoInfos = [])
  db.history.assertFlushed

/-- The `prior_tx_count` of `flush_fs`, `db.py:278`. -/
def priorTxCount (db : DB) : Except PyError Nat :=
  if db.fsHeight ≥ 0 then getItem db.counts db.fsHeight.toNat else .ok 0

/-- `flush_fs`, `db.py:271–309`. The lists of the flush data are cleared in place. -/
def flushFs (db : DB) (fd : FlushData) : Except PyError (FlushData × DB) := do
  let priorTxCount ← db.priorTxCount
  assertThat (fd.blockTxHashes.length = fd.headers.length)
  assertThat (fd.height = db.fsHeight + fd.headers.length)
  assertThat (fd.txCount = db.counts.getLast?.getD 0)
  assertThat (db.counts.length = fd.height + 1)
  let hashes := fd.blockTxHashes.flatten
  assertThat (hashes.length % 32 = 0)
  assertThat (hashes.length / 32 = (fd.txCount : Int) - priorTxCount)
  let heightStart := db.fsHeight + 1
  let offset ← db.headerOffset env heightStart
  let db := db.writeHeaders offset fd.headers.flatten
  let db ← db.fsUpdateHeaderOffsets env offset heightStart fd.headers
  let db := db.writeTxCounts (heightStart * 8).toNat
    ((db.counts.drop heightStart.toNat).flatMap (packLE 8))
  let db := db.writeHashes (priorTxCount * 32) hashes
  return ({ fd with headers := [], blockTxHashes := [] },
    { db with fsHeight := fd.height, fsTxCount := fd.txCount })

/-- `flush_history`, `db.py:311`. -/
def flushHistory (db : DB) : Except PyError DB :=
  return db.commitHistory (← db.history.flush env.historyCodec)

/-- The two rows of an entry of the UTXO cache, `db.py:331–338`. -/
def utxoRows (key value : Bytes) : List BatchOp :=
  let hashX := value.take hashXLen
  let txoutIdx := lastN 4 key
  let txNum := (value.drop hashXLen).take txnumLen
  let valueSats := lastN 8 value
  let suffix := txoutIdx ++ txNum
  [.put (prefixH :: key.take compTxidLen ++ suffix) hashX,
   .put (prefixU :: hashX ++ suffix) valueSats]

/-- `flush_utxo_db`, `db.py:314–358`: the batch, the cleared flush data and the new state.
Deletes come before puts, as the keys may be in common; the cache entries have distinct
keys and are put in key order here. -/
def flushUtxoDb (db : DB) (fd : FlushData) :
    Except PyError (List BatchOp × FlushData × DB) := do
  let deletes := (sorted fd.deletes).map BatchOp.delete
  let adds := fd.adds.toList.flatMap fun e ↦ utxoRows e.1 e.2
  let undos ← flushUndoInfos fd.undoInfos
  return (deletes ++ adds ++ undos, { fd with deletes := [], adds := ∅, undoInfos := [] },
    { db with
      utxoFlushCount := db.history.flushCount
      dbHeight := fd.height
      dbTxCount := fd.txCount
      dbTip := fd.tip })

/-- `write_utxo_state`, `db.py:730–742`: the put that it adds to a batch. -/
def writeUtxoState (db : DB) : BatchOp :=
  .put utxoStateKey (env.utxoCodec.repr {
    genesis := env.coin.genesisHash
    height := db.dbHeight
    txCount := db.dbTxCount
    tip := db.dbTip
    utxoFlushCount := db.utxoFlushCount
    firstSync := db.firstSync
    dbVersion := db.dbVersion })

/-- `flush_dbs`, `db.py:228–269`. -/
def flushDbs (db : DB) (fd : FlushData) (flushUtxos : Bool) : Except PyError (FlushData × DB) := do
  if fd.height = db.dbHeight then
    db.assertFlushed fd
    return (fd, db)
  let (fd, db) ← db.flushFs env fd
  let db ← db.flushHistory env
  let (ops, fd, db) ← if flushUtxos then db.flushUtxoDb fd else pure ([], fd, db)
  let db := db.commitUtxo (ops ++ [db.writeUtxoState env])
  -- The state is put again, for the time that the commit took.
  return (fd, db.commitUtxo [db.writeUtxoState env])

/-- `backup_fs`, `db.py:412–417`. -/
def backupFs (db : DB) (height : Int) (txCount : Nat) : Except PyError DB :=
  return { db with
    fsHeight := height
    fsTxCount := txCount
    headerMc := (← db.headerMc.truncate (height + 1)) }

/-- `flush_backup`, `db.py:368–388`; `touched` in sorted order. -/
def flushBackup (db : DB) (fd : FlushData) (touched : List Bytes) :
    Except PyError (FlushData × DB) := do
  assertThat (fd.headers = [])
  assertThat (fd.blockTxHashes = [])
  assertThat (fd.height < db.dbHeight)
  db.history.assertFlushed
  let db ← db.backupFs fd.height fd.txCount
  let db := db.commitHistory (← db.history.backup env.historyCodec touched fd.txCount)
  let (ops, fd, db) ← db.flushUtxoDb fd
  return (fd, db.commitUtxo (ops ++ [db.writeUtxoState env]))

/-! ### Opening -/

/-- One prefix of `upgrade_db`, `db.py:650–676,684–706`. A prefix whose first row has the new
key length returns `None`, and adding that to the count raises `TypeError`. -/
def upgradePrefix (db : DB) (keyLen idxEnd : Nat) (pre : Bytes) : Except PyError DB := do
  let rows := db.utxoDb.iterator pre
  if rows.head?.any fun e ↦ e.1.length == keyLen then throw .typeError
  let newKey (key : Bytes) : Bytes :=
    if db.dbVersion = 6 then key.take idxEnd ++ [0, 0] ++ key.drop idxEnd ++ [0] else key ++ [0]
  return db.commitUtxo (rows.flatMap fun e ↦ [.delete e.1, .put (newKey e.1) e.2])

/-- The upgrade of the tx_counts file to 64-bit items, `db.py:717–723`. -/
def upgradeTxCounts (db : DB) : DB :=
  let txCounts := FlatFile.read db.txCountsFile 0 ((db.dbHeight + 1) * 8).toNat
  if (txCounts.length : Int) = (db.dbHeight + 1) * 4 then
    db.writeTxCounts 0 ((chunks txCounts 4).flatMap fun item ↦ packLE 8 (unpackLE item))
  else db

/-- `upgrade_db`, `db.py:646–728`. -/
def upgradeDb (db : DB) : Except PyError DB := do
  let db ← (List.range 65536).foldlM
    (fun db cursor ↦ upgradePrefix db 21 14 (prefixU :: packBE 2 cursor)) db
  let db ← (List.range 65536).foldlM
    (fun db cursor ↦ upgradePrefix db 14 7 (prefixH :: packBE 2 cursor)) db
  let db := { db.upgradeTxCounts with dbVersion := latestDbVersion }
  return db.commitUtxo [db.writeUtxoState env]

/-- The state record, or the defaults of a new database, `db.py:590–620`. -/
def loadUtxoState (db : DB) : Except PyError DB := do
  match db.utxoDb[utxoStateKey]? with
  | some (b :: bs) =>
    match env.utxoCodec.literalEval (b :: bs) with
    | none => throw (.dbError .badState)
    | some state =>
      if state.dbVersion ≠ 6 ∧ state.dbVersion ≠ 7 ∧ state.dbVersion ≠ 8 then
        throw (.dbError (.badVersion state.dbVersion))
      if state.genesis ≠ env.coin.genesisHash then
        throw (.dbError (.badGenesis state.genesis))
      return { db with
        dbHeight := state.height
        dbTxCount := state.txCount
        dbTip := state.tip
        dbVersion := state.dbVersion
        utxoFlushCount := state.utxoFlushCount
        firstSync := state.firstSync }
  | _ => return { db with
      dbHeight := -1
      dbTxCount := 0
      dbTip := List.replicate 32 0
      dbVersion := latestDbVersion
      utxoFlushCount := 0
      firstSync := true }

/-- `read_utxo_state`, `db.py:590–630`. -/
def readUtxoState (db : DB) : Except PyError DB := do
  let db ← db.loadUtxoState env
  let db := { db with fsHeight := db.dbHeight, fsTxCount := db.dbTxCount }
  if db.dbVersion ≠ latestDbVersion then db.upgradeDb env else return db

/-- The stale undo keys, `db.py:563–567`: the scan stops at the first height to keep. -/
def staleUndoKeys (minHeight : Int) : List (Bytes × Bytes) → Except PyError (List Bytes)
  | [] => return []
  | e :: rest => do
    let height ← unpackBeUint32 (lastN 4 e.1)
    if (height : Int) ≥ minHeight then return []
    return e.1 :: (← staleUndoKeys minHeight rest)

/-- `clear_excess_undo_info`, `db.py:558–586`. -/
def clearExcessUndoInfo (db : DB) : Except PyError DB := do
  let minHeight := minUndoHeight env db.dbHeight
  let keys ← staleUndoKeys minHeight (db.utxoDb.iterator [prefixUndo])
  let db := if keys = [] then db else db.commitUtxo (keys.map .delete)
  return { db with rawBlocks := db.rawBlocks.filter fun height _ ↦ height ≥ minHeight }

/-- `_read_tx_counts`, `db.py:138–150`. -/
def readTxCounts (db : DB) : Except PyError DB := do
  if db.txCounts.isSome then return db
  let size := (db.dbHeight + 1) * 8
  let txCounts := FlatFile.read db.txCountsFile 0 size.toNat
  assertThat (txCounts.length = size)
  let counts ← arrayQ txCounts
  assertThat (db.dbTxCount = counts.getLast?.getD 0)
  return { db with txCounts := some counts }

/-- The DB object with what lies on disk, `db.py:153–168`. A new UTXO DB gets the offset of
its first header. -/
def load (db : DB) (disk : Disk) : DB :=
  let db := { db with
    utxoDb := disk.utxo
    headersFile := disk.headers
    headersOffsetsFile := disk.headersOffsets
    txCountsFile := disk.txCounts
    hashesFile := disk.hashes }
  if !disk.created && !env.coin.staticBlockHeaders then
    db.writeHeadersOffsets 0 (List.replicate 8 0)
  else db

/-- `_open_dbs`, `db.py:152–177`. -/
def openDbs (db : DB) (disk : Disk) (compacting : Bool) : Except PyError DB := do
  let db ← (db.load env disk).readUtxoState env
  let history ← db.history.openDb env.historyCodec disk.history db.utxoFlushCount compacting
  let db := { db with history := history, utxoFlushCount := history.flushCount }
  let db ← db.clearExcessUndoInfo env
  let db ← db.readTxCounts
  return { db with journal := [] }

/-- `open_for_sync`, `db.py:182`, in a new process. -/
def openForSync (disk : Disk) : Except PyError DB := openDbs env {} disk false

end DB
end ElectrumX.Server
