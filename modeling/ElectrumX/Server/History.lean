import ElectrumX.Base.Table
import ElectrumX.Lib.Coins
import Mathlib.Data.List.Dedup

/-!
# History by script hash

The model of `server/history.py`. A history row lies under `hashX + flush_id`, the flush
id big-endian, and holds the transaction numbers of that flush in `TXNUM_LEN` bytes each.
The state record lies in the same table; `repr` and `ast.literal_eval` of the record are
abstract and inverse to each other.
-/

namespace ElectrumX.Server
open ElectrumX.Base ElectrumX.Lib

/-- `TXNUM_LEN`, `history.py:27`. -/
def txnumLen : Nat := 5

/-- `FLUSHID_LEN`, `history.py:28`. -/
def flushidLen : Nat := 2

/-- `bytes(8 - TXNUM_LEN)`. -/
def txnumPadding : Bytes := List.replicate (8 - txnumLen) 0

/-- `repr(state).encode()` and `ast.literal_eval(state.decode())` for a record type. -/
structure StateCodec (σ : Type) where
  repr : σ → Bytes
  literalEval : Bytes → Option σ
  literalEval_repr : ∀ s, literalEval (repr s) = some s
  repr_ne_nil : ∀ s, repr s ≠ []

/-- The state record of the history DB, `history.py:127`; older records lack fields. -/
structure HistoryState where
  flushCount : Nat
  compFlushCount : Option Int
  compCursor : Option Int
  dbVersion : Option Nat
  upgradeCursor : Option Int
  deriving DecidableEq, Repr

/-- `History`, `history.py:31–51`, with its database. -/
structure History where
  db : Table
  unflushed : Table := ∅
  unflushedCount : Nat := 0
  flushCount : Nat := 0
  compFlushCount : Int := -1
  compCursor : Int := -1
  dbVersion : Nat := 1
  upgradeCursor : Int := -1

namespace History

variable (codec : StateCodec HistoryState)

/-- The key `b'state\0\0'`. -/
def stateKey : Bytes := [0x73, 0x74, 0x61, 0x74, 0x65, 0, 0]

/-- `max(DB_VERSIONS)`, `history.py:33`. -/
def latestVersion : Nat := 1

/-- `write_state`, `history.py:127–138`: the put that it adds to a batch. -/
def writeState (h : History) : BatchOp :=
  .put stateKey (codec.repr ⟨h.flushCount, some h.compFlushCount, some h.compCursor,
    some h.dbVersion, some h.upgradeCursor⟩)

/-- One prefix of `upgrade_db`, `history.py:371–385`: four-byte numbers become five-byte ones. -/
def upgradePrefix (h : History) (cursor : Nat) : History :=
  let puts := (h.db.iterator (packBE 2 cursor)).filterMap fun e ↦
    if e.1.length ≠ hashXLen + 2 then none
    else some (BatchOp.put e.1 ((chunks e.2 4).flatMap (· ++ [0])))
  let h := { h with upgradeCursor := cursor }
  { h with db := h.db.write (puts ++ [h.writeState codec]) }

/-- `upgrade_db`, `history.py:367–404`. -/
def upgradeDb (h : History) : History :=
  let cursors := (List.range 65536).filter fun (cursor : Nat) ↦ h.upgradeCursor + 1 ≤ cursor
  let h := cursors.foldl (upgradePrefix codec) h
  let h := { h with dbVersion := latestVersion, upgradeCursor := -1 }
  { h with db := h.db.write [h.writeState codec] }

/-- The first part of `read_state`, `history.py:75–89`. -/
def loadState (h : History) : Except PyError History :=
  match h.db[stateKey]? with
  | some (b :: bs) =>
    match codec.literalEval (b :: bs) with
    | none => throw .runtimeError
    | some state => pure { h with
        flushCount := state.flushCount
        compFlushCount := state.compFlushCount.getD (-1)
        compCursor := state.compCursor.getD (-1)
        dbVersion := state.dbVersion.getD 0
        upgradeCursor := state.upgradeCursor.getD (-1) }
  | _ => pure { h with
      flushCount := 0
      compFlushCount := -1
      compCursor := -1
      dbVersion := latestVersion
      upgradeCursor := -1 }

/-- `read_state`, `history.py:74–100`. -/
def readState (h : History) : Except PyError History := do
  let h ← loadState codec h
  if h.dbVersion ≠ 0 ∧ h.dbVersion ≠ 1 then throw .runtimeError
  if h.dbVersion ≠ latestVersion then return upgradeDb codec h
  return h

/-- The flush id at the end of a key, `history.py:113`. -/
def flushId (key : Bytes) : Except PyError Nat := unpackBeUint16From (lastN flushidLen key)

/-- The keys that `clear_excess` collects, `history.py:111–115`. -/
def excessKeys (utxoFlushCount : Nat) : List (Bytes × Bytes) → Except PyError (List Bytes)
  | [] => return []
  | e :: rest => do
    let id ← flushId e.1
    let keys ← excessKeys utxoFlushCount rest
    return if id > utxoFlushCount then e.1 :: keys else keys

/-- `clear_excess`, `history.py:102–125`. -/
def clearExcess (h : History) (utxoFlushCount : Nat) : Except PyError History := do
  if h.flushCount ≤ utxoFlushCount then return h
  let keys ← excessKeys utxoFlushCount (h.db.iterator [])
  let h := { h with flushCount := utxoFlushCount }
  return { h with db := h.db.write (keys.map .delete ++ [h.writeState codec]) }

/-- `_cancel_compaction`, `history.py:357–361`. -/
def cancelCompaction (h : History) : History :=
  if h.compCursor ≠ -1 then { h with compFlushCount := -1, compCursor := -1 } else h

/-- `open_db`, `history.py:53–67`, on the opened `db`; it returns the flush count. -/
def openDb (h : History) (db : Table) (utxoFlushCount : Nat) (compacting : Bool) :
    Except PyError History := do
  let h ← readState codec { h with db := db }
  let h ← clearExcess codec h utxoFlushCount
  return if compacting then h else h.cancelCompaction

/-- The rows that one transaction adds to, `history.py:143–148`. -/
def addTx (unflushed : Table) (txNumb : Bytes) (hashXs : List Bytes) : Table :=
  hashXs.foldl (fun t hashX ↦ t.insert hashX ((t[hashX]?).getD [] ++ txNumb)) unflushed

/-- `add_unflushed`, `history.py:140–149`. -/
def addUnflushed (h : History) : List (List Bytes) → Nat → Except PyError History
  | [], _ => return h
  | hashXs :: rest, txNum => do
    let txNumb ← packLeUint64 txNum
    let hashXs := hashXs.dedup
    addUnflushed { h with
      unflushed := addTx h.unflushed (txNumb.take txnumLen) hashXs
      unflushedCount := h.unflushedCount + hashXs.length } rest (txNum + 1)

/-- `assert_flushed`, `history.py:154`. -/
def assertFlushed (h : History) : Except PyError Unit := assertThat (h.unflushed.toList = [])

/-- `flush`, `history.py:157–176`. -/
def flush (h : History) : Except PyError History := do
  let h := { h with flushCount := h.flushCount + 1 }
  let flushId ← packBeUint16 h.flushCount
  let puts := h.unflushed.toList.map fun e ↦ BatchOp.put (e.1 ++ flushId) e.2
  return { h with
    db := h.db.write (puts ++ [h.writeState codec])
    unflushed := ∅
    unflushedCount := 0 }

/-- The deletes and puts of `backup` for one hashX, its rows from the newest to the oldest,
`history.py:189–202`. -/
def backupRows (txCount : Nat) :
    List (Bytes × Bytes) → Except PyError (List BatchOp × List BatchOp)
  | [] => return ([], [])
  | (key, hist) :: rest => do
    let a ← arrayQ ((chunks hist txnumLen).flatMap (· ++ txnumPadding))
    let idx := bisectLeft a txCount
    if idx > 0 then return ([], [.put key (hist.take (txnumLen * idx))])
    let (deletes, puts) ← backupRows txCount rest
    return (.delete key :: deletes, puts)

/-- The batch of `backup`, `history.py:187–206`. -/
def backupOps (db : Table) (txCount : Nat) : List Bytes → Except PyError (List BatchOp)
  | [] => return []
  | hashX :: rest => do
    let (deletes, puts) ← backupRows txCount (db.iterator hashX).reverse
    let ops ← backupOps db txCount rest
    return deletes ++ puts ++ ops

/-- `backup`, `history.py:178–209`; `hashXs` in sorted order. -/
def backup (h : History) (hashXs : List Bytes) (txCount : Nat) : Except PyError History := do
  let h := { h with flushCount := h.flushCount + 1 }
  let ops ← backupOps h.db txCount hashXs
  return { h with db := h.db.write (ops ++ [h.writeState codec]) }

/-- The loops of `get_txnums`, `history.py:219–225`. -/
def yieldTxnums : Int → List Bytes → Except PyError (List Nat)
  | _, [] => return []
  | limit, txNumb :: rest => do
    if limit = 0 then return []
    let txNum ← unpackLeUint64 (txNumb ++ txnumPadding)
    let txNums ← yieldTxnums (limit - 1) rest
    return txNum :: txNums

/-- `get_txnums`, `history.py:211–225`. -/
def getTxnums (h : History) (hashX : Bytes) (limit : Option Int) : Except PyError (List Nat) :=
  yieldTxnums (resolveLimit limit)
    ((h.db.iterator hashX).flatMap fun e ↦ chunks e.2 txnumLen)

end History
end ElectrumX.Server
