import ElectrumX.Base.Reach
import ElectrumX.Server.History
import Std.Data.ExtTreeSet.Lemmas

/-!
# History compaction

The model of the compaction in `server/history.py` and of the tool that runs it,
`cli/electrumx_compact_history.py`. A pass goes over the script hashes by their first two
bytes, cuts the joined history of each into full rows, and commits the changed rows with its
progress in one batch. The tool may be killed between passes.
-/

namespace ElectrumX.Server
open ElectrumX.Base ElectrumX.Lib

/-- What a pass has gathered, `history.py:334–336`, with `self.comp_flush_count`. -/
structure Compaction where
  writeItems : List (Bytes × Bytes) := []
  keysToDelete : Std.ExtTreeSet Bytes := ∅
  writeSize : Nat := 0
  compFlushCount : Int

namespace History

/-- The loop over the new rows of `_compact_hashX`, `history.py:288–294`. -/
def compactChunks (hashX : Bytes) (histMap : List (Bytes × Bytes)) :
    Nat → List Bytes → Compaction → Except PyError Compaction
  | _, [], c => return c
  | n, chunk :: rest, c => do
    let key := hashX ++ (← packBeUint16 n)
    let c := if histMap.lookup key = some chunk then
        { c with keysToDelete := c.keysToDelete.erase key }
      else { c with
        writeItems := c.writeItems ++ [(key, chunk)]
        writeSize := c.writeSize + chunk.length }
    compactChunks hashX histMap (n + 1) rest c

variable (maxHistRowEntries : Nat)

/-- `_compact_hashX`, `history.py:265–299`; `hist` has the rows of `hist_map` and `hist_list`. -/
def compactHashX (hashX : Bytes) (hist : List (Bytes × Bytes)) (c : Compaction) :
    Except PyError Compaction := do
  let maxRowSize := maxHistRowEntries * txnumLen
  let fullHist := hist.flatMap Prod.snd
  let nrows := (fullHist.length + maxRowSize - 1) / maxRowSize
  let rows := chunks fullHist maxRowSize
  let c := { c with keysToDelete := hist.foldl (fun keys e ↦ keys.insert e.1) c.keysToDelete }
  let c ← compactChunks hashX hist 0 rows c
  -- Without a row `n` is not bound.
  if rows = [] then throw .nameError
  let n := rows.length - 1
  assertThat (n + 1 = nrows)
  return { c with compFlushCount := max c.compFlushCount n }

/-- The loop of `_compact_prefix`, `history.py:311–328`; `priorHashX` is empty before the first
row, `hist` has the rows seen of it. -/
def compactRows : List (Bytes × Bytes) → Bytes → List (Bytes × Bytes) → Compaction →
    Except PyError Compaction
  | [], priorHashX, hist, c =>
    if priorHashX = [] then return c else compactHashX maxHistRowEntries priorHashX hist c
  | e :: rest, priorHashX, hist, c => do
    if e.1.length ≠ hashXLen + flushidLen then compactRows rest priorHashX hist c
    else
      let hashX := e.1.take (e.1.length - flushidLen)
      if hashX ≠ priorHashX ∧ priorHashX ≠ [] then
        let c ← compactHashX maxHistRowEntries priorHashX hist c
        compactRows rest hashX [e] c
      else compactRows rest hashX (hist ++ [e]) c

/-- `_compact_prefix`, `history.py:301–328`. -/
def compactPrefix (db : Table) (pre : Bytes) (c : Compaction) : Except PyError Compaction :=
  compactRows maxHistRowEntries (db.iterator pre) [] [] c

/-- The loop of `_compact_history`, `history.py:339–344`, over the cursors that are left: the
cursor at which it stops. -/
def compactLoop (db : Table) (limit : Nat) :
    Nat → Nat → Compaction → Except PyError (Nat × Compaction)
  | 0, cursor, c => return (cursor, c)
  | left + 1, cursor, c => do
    if c.writeSize < limit then
      let c ← compactPrefix maxHistRowEntries db (packBE 2 cursor) c
      compactLoop db limit left (cursor + 1) c
    else return (cursor, c)

variable (codec : StateCodec HistoryState)

/-- `_flush_compaction`, `history.py:246–263`. -/
def flushCompaction (h : History) (cursor : Nat) (c : Compaction) : History :=
  let h := if cursor = 65536 then
      { h with flushCount := c.compFlushCount.toNat, compCursor := -1, compFlushCount := -1 }
    else { h with compCursor := cursor, compFlushCount := c.compFlushCount }
  { h with db := h.db.write (c.keysToDelete.toList.map .delete ++
      c.writeItems.map (fun e ↦ .put e.1 e.2) ++ [h.writeState codec]) }

/-- `_compact_history`, `history.py:330–355`. -/
def compactHistory (h : History) (limit : Nat) : Except PyError History := do
  let cursor := h.compCursor.toNat
  let (cursor, c) ← compactLoop maxHistRowEntries h.db limit (65536 - cursor) cursor
    { compFlushCount := h.compFlushCount }
  return h.flushCompaction codec cursor c

/-- The start of `compact_history`, `electrumx_compact_history.py:56–59`. -/
def beginCompaction (h : History) : History :=
  { h with
    compCursor := if h.compCursor = -1 then 0 else h.compCursor
    compFlushCount := max h.compFlushCount 1 }

end History

/-- The history DB, the flush count that the UTXO DB records, and the tool while it runs. -/
structure Compactor where
  db : Table
  utxoFlushCount : Nat
  process : Option History := none

/-- The steps of the tool, each with at most one batch, and its death between them. -/
inductive CompactEvent where
  /-- The tool opens the DBs. -/
  | start
  | pass (limit : Nat)
  /-- The tool has completed the compaction and records the flush count. -/
  | setFlushCount
  | kill
  deriving DecidableEq, Repr

namespace Compactor

variable (maxHistRowEntries : Nat) (codec : StateCodec HistoryState)

/-- One step, if it can be taken, `electrumx_compact_history.py:44–66`. An exception ends the
tool. -/
def step (s : Compactor) : CompactEvent → Option Compactor
  | .start =>
    match s.process with
    | some _ => none
    | none =>
      match ({ db := ∅ } : History).openDb codec s.db s.utxoFlushCount true with
      | .error _ => some s
      | .ok h => some { s with db := h.db, process := some h.beginCompaction }
  | .pass limit => do
    let h ← s.process
    if h.compCursor = -1 ∨ limit = 0 then none
    else match h.compactHistory maxHistRowEntries codec limit with
      | .error _ => some { s with process := none }
      | .ok h => some { s with db := h.db, process := some h }
  | .setFlushCount => do
    let h ← s.process
    if h.compCursor = -1 then some { s with utxoFlushCount := h.flushCount, process := none }
    else none
  | .kill => some { s with process := none }

end Compactor
end ElectrumX.Server
