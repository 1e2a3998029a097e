import ElectrumX.Base.InvertedIndex
import ElectrumX.Base.Reach
import ElectrumX.Server.DB
import Mathlib.Data.Finset.Union

/-!
# The mempool

The model of `server/mempool.py`: transactions are accepted when all their prevouts are known, a
refresh removes those that the daemon does not list any more and spawns a task for each chunk of
the new ones, and the tasks fetch, look up and accept. Each await is a point where other steps
may come in between; a refresh that is aborted leaves its tasks running. The fee histogram is
left out.
-/

namespace ElectrumX.Server
open ElectrumX.Base ElectrumX.Lib

/-- A `(prev_hash, prev_idx)` pair. -/
abbrev Prevout := Hash32 × Nat

/-- A `(hashX, value)` pair. -/
abbrev Pair := HashX × Int

/-- `MemPoolTx`, `mempool.py:30–37`. -/
structure MemPoolTx where
  prevouts : List Prevout
  inPairs : Option (List Pair) := none
  outPairs : List Pair
  fee : Int := 0
  size : Nat
  deriving DecidableEq

namespace MemPoolTx

/-- The script hashes of the inputs and outputs. -/
def hashXs (tx : MemPoolTx) : List HashX := (tx.inPairs.getD [] ++ tx.outPairs).map Prod.fst

/-- The transaction as it is accepted, with its inputs and its fee, `mempool.py:237–243`. -/
def accepted (tx : MemPoolTx) (inPairs : List Pair) : MemPoolTx :=
  { tx with
    inPairs := some inPairs
    fee := max 0 ((inPairs.map Prod.snd).sum - (tx.outPairs.map Prod.snd).sum) }

/-- The transaction that `deserialize_txs` makes, without the generation-like inputs,
`mempool.py:343–357`. -/
def ofTx (coin : Coin) (tx : Tx) (size : Nat) : MemPoolTx where
  prevouts := (tx.inputs.filter fun txin ↦ ¬ txin.isGeneration).map fun txin ↦
    (txin.prevHash, txin.prevIdx.toNat)
  outPairs := tx.outputs.map fun txout ↦ (coin.hashXFromScript txout.pkScript, txout.value)
  size := size

end MemPoolTx

/-- `MemPoolTxSummary`, `mempool.py:40–44`. -/
structure MemPoolTxSummary where
  hash : Hash32
  fee : Int
  hasUnconfirmedInputs : Bool
  deriving DecidableEq

/-- A `tx_map`, in the order of the dictionary. -/
abbrev TxMap := List (Hash32 × MemPoolTx)

/-- A `utxo_map`; a prevout that was looked up and not found is present with `none`. -/
abbrev UtxoMap := Dict Prevout (Option Pair)

/-- The maps of `MemPool`, and the set of touched script hashes that a call adds to. -/
structure MemPool where
  txs : Dict Hash32 MemPoolTx := ∅
  hashXs : InvertedIndex HashX Hash32 := ∅
  touched : Finset HashX := ∅

namespace MemPool

/-! ### Accepting transactions -/

/-- The value of a prevout in the `utxo_map` or in the mempool, `mempool.py:225–229`. -/
def inPair (pool : MemPool) (utxoMap : UtxoMap) (prevout : Prevout) : Except PyError Pair :=
  match utxoMap.lookup prevout with
  | some (some utxo) => .ok utxo
  | _ =>
    match pool.txs.lookup prevout.1 with
    | none => .error .keyError
    | some tx => getItem tx.outPairs prevout.2

/-- Hold an accepted transaction and file it in the index, `mempool.py:244–248`. -/
def hold (pool : MemPool) (hash : Hash32) (tx : MemPoolTx) : MemPool where
  txs := pool.txs.insert hash tx
  hashXs := pool.hashXs.addAll hash tx.hashXs
  touched := pool.touched ∪ tx.hashXs.toFinset

/-- The mempool in the course of `_accept_transactions`, with the transactions deferred so far
and the map of the UTXOs that are still unspent. -/
structure Acceptance where
  pool : MemPool
  deferred : TxMap := []
  unspent : UtxoMap

/-- Accept a transaction or defer it, `mempool.py:220–248`. -/
def acceptTx (utxoMap : UtxoMap) (a : Acceptance) (e : Hash32 × MemPoolTx) :
    Except PyError Acceptance :=
  match e.2.prevouts.mapM (a.pool.inPair utxoMap) with
  | .error .keyError => .ok { a with deferred := a.deferred ++ [e] }
  | .error error => .error error
  | .ok inPairs => .ok { a with
      pool := a.pool.hold e.1 (e.2.accepted inPairs)
      unspent := e.2.prevouts.foldl (fun unspent prevout ↦ unspent.erase prevout) a.unspent }

/-- `_accept_transactions`, `mempool.py:208–250`. -/
def acceptTransactions (pool : MemPool) (txMap : TxMap) (utxoMap : UtxoMap) :
    Except PyError Acceptance :=
  txMap.foldlM (acceptTx utxoMap) { pool, unspent := utxoMap }

/-- The `while` loop of `_process_mempool`, `mempool.py:313–319`, with the transactions that are
dropped; `none` when the fuel does not suffice. -/
def acceptLoop : Nat → MemPool → TxMap → UtxoMap → Nat → Option (Except PyError (MemPool × TxMap))
  | 0, _, _, _, _ => none
  | fuel + 1, pool, txMap, utxoMap, priorCount =>
    if txMap ≠ [] ∧ txMap.length ≠ priorCount then
      match pool.acceptTransactions txMap utxoMap with
      | .error error => some (.error error)
      | .ok a => acceptLoop fuel a.pool a.deferred a.unspent txMap.length
    else some (.ok (pool, txMap))

/-! ### Removing transactions -/

/-- Pop a transaction and withdraw it from the index, `mempool.py:287–294`. -/
def removeTx (pool : MemPool) (hash : Hash32) : Except PyError MemPool :=
  match pool.txs.lookup hash with
  | none => .error .keyError
  | some tx =>
    match tx.inPairs with
    | none => .error .typeError
    | some inPairs =>
      let txHashXs := ((inPairs ++ tx.outPairs).map Prod.fst).dedup
      match pool.hashXs.removeAll hash txHashXs with
      | none => .error .keyError
      | some hashXs => .ok {
          txs := pool.txs.erase hash
          hashXs := hashXs
          touched := pool.touched ∪ txHashXs.toFinset }

/-- Remove the transactions that have disappeared, `mempool.py:286–294`. -/
def removeTxs (pool : MemPool) (allHashes : Finset Hash32) : Except PyError MemPool :=
  (pool.txs.keys.filter (· ∉ allHashes)).foldlM removeTx pool

/-! ### The external interface -/

/-- `self.txs[hash]`. -/
def getTx (pool : MemPool) (hash : Hash32) : Except PyError MemPoolTx :=
  match pool.txs.lookup hash with
  | none => .error .keyError
  | some tx => .ok tx

/-- The sum of the values that go to a script hash. -/
def valueOf (hashX : HashX) (pairs : List Pair) : Int :=
  ((pairs.filter fun pair ↦ pair.1 = hashX).map Prod.snd).sum

/-- `balance_delta`, `mempool.py:388–399`. -/
def balanceDelta (pool : MemPool) (hashX : HashX) : Except PyError Int :=
  (pool.hashXs.items hashX).foldlM (fun value hash ↦ do
    let tx ← pool.getTx hash
    match tx.inPairs with
    | none => .error .typeError
    | some inPairs => return value - valueOf hashX inPairs + valueOf hashX tx.outPairs) 0

/-- `potential_spends`, `mempool.py:405–416`. -/
def potentialSpends (pool : MemPool) (hashX : HashX) : Except PyError (List Prevout) :=
  (pool.hashXs.items hashX).foldlM (fun result hash ↦ do
    let tx ← pool.getTx hash
    return result ∪ tx.prevouts) []

/-- `transaction_summaries`, `mempool.py:418–425`. -/
def transactionSummaries (pool : MemPool) (hashX : HashX) :
    Except PyError (List MemPoolTxSummary) :=
  (pool.hashXs.items hashX).mapM fun hash ↦ do
    let tx ← pool.getTx hash
    return ⟨hash, tx.fee, tx.prevouts.any fun prevout ↦ (pool.txs.lookup prevout.1).isSome⟩

end MemPool

/-! ### Refreshes and their tasks -/

/-- How far a `_fetch_and_accept` task is. -/
inductive FetchProgress where
  /-- It awaits the raw transactions. -/
  | fetching
  /-- It awaits the UTXOs. -/
  | lookingUp (txMap : TxMap)
  /-- It has returned. -/
  | done (deferred : TxMap) (unspent : UtxoMap)

/-- A `_fetch_and_accept` task, with the refresh that spawned it and the number of `on_mempool`
calls up to then, which says what set of touched script hashes it adds to. -/
structure FetchTask where
  hashes : List Hash32
  allHashes : Finset Hash32
  refresh : Nat
  reports : Nat
  progress : FetchProgress := .fetching

/-- How far a `_process_mempool` call is. -/
inductive RefreshProgress where
  /-- It spawns the tasks of the chunks. -/
  | spawning (chunks : List (List Hash32))
  /-- It collects the results of its tasks. -/
  | collecting (txMap : TxMap) (utxoMap : UtxoMap)

/-- A `_process_mempool` call. -/
structure MempoolRefresh where
  allHashes : Finset Hash32
  height : Int
  progress : RefreshProgress

/-- The mempool with the refresh in progress, the tasks and the DB height. -/
structure MempoolSync where
  pool : MemPool := {}
  dbHeight : Int
  tasks : List FetchTask := []
  current : Option MempoolRefresh := none
  refreshes : Nat := 0
  reports : Nat := 0

/-- What happens between awaits. -/
inductive MempoolEvent where
  /-- The DB height changes. -/
  | dbHeight (height : Int)
  /-- `_process_mempool` is called; the new hashes are split in chunks. -/
  | refresh (allHashes : Finset Hash32) (height : Int) (chunks : List (List Hash32))
  | spawn
  /-- The DB height is checked again once all tasks are spawned. -/
  | check
  /-- A task receives its raw transactions and reads them. -/
  | fetched (i : Nat) (rawTxs : Hash32 → Option (Tx × Nat))
  /-- A task receives its UTXOs and accepts transactions. -/
  | lookedUp (i : Nat) (utxos : Prevout → Option Pair)
  /-- The result of a task is collected. -/
  | collect (i : Nat)
  /-- All results are collected: deferred transactions are tried again, and `on_mempool` is
  called. -/
  | finish

/-- `dict.update` with the entries of another dictionary. -/
def TxMap.update (d e : TxMap) : TxMap :=
  d.map (fun x ↦ (x.1, (e.lookup x.1).getD x.2)) ++ e.filter fun x ↦ x.1 ∉ d.map Prod.fst

/-- `deserialize_txs`, `mempool.py:329–358`. -/
def deserializeTxs (coin : Coin) (hashes : List Hash32) (rawTxs : Hash32 → Option (Tx × Nat)) :
    TxMap :=
  hashes.filterMap fun hash ↦
    (rawTxs hash).map fun raw ↦ (hash, MemPoolTx.ofTx coin raw.1 raw.2)

/-- The prevouts to be looked up in the DB, `mempool.py:368–370`. -/
def dbPrevouts (txMap : TxMap) (allHashes : Finset Hash32) : List Prevout :=
  (txMap.flatMap fun e ↦ e.2.prevouts).filter fun prevout ↦ prevout.1 ∉ allHashes

/-- The `utxo_map` of the looked-up prevouts, `mempool.py:371–372`. -/
def utxoMapOf (prevouts : List Prevout) (utxos : Prevout → Option Pair) : UtxoMap :=
  prevouts.foldl (fun utxoMap prevout ↦ utxoMap.insert prevout (utxos prevout)) ∅

namespace MempoolSync

/-- The new hashes, split in chunks, `mempool.py:297–299`. The code makes chunks of 200. -/
def IsChunking (pool : MemPool) (allHashes : Finset Hash32) (chunks : List (List Hash32)) : Prop :=
  chunks.flatten.Nodup ∧ chunks.flatten.toFinset = allHashes.filter (· ∉ pool.txs)

instance (pool : MemPool) (allHashes : Finset Hash32) (chunks : List (List Hash32)) :
    Decidable (IsChunking pool allHashes chunks) := inferInstanceAs (Decidable (_ ∧ _))

/-- The beginning of `_process_mempool`, `mempool.py:282–299`. -/
def start (s : MempoolSync) (allHashes : Finset Hash32) (height : Int)
    (chunks : List (List Hash32)) : Option MempoolSync :=
  if height ≠ s.dbHeight then some s
  else
    match s.pool.removeTxs allHashes with
    | .error _ => none
    | .ok pool =>
      if IsChunking pool allHashes chunks then some { s with
        pool := pool
        current := some ⟨allHashes, height,
          if chunks = [] then .collecting [] ∅ else .spawning chunks⟩
        refreshes := s.refreshes + 1 }
      else none

/-- A task accepts transactions, `mempool.py:374`. Its set of touched script hashes is the
current one unless `on_mempool` has been called since it was spawned. -/
def accept (s : MempoolSync) (i : Nat) (task : FetchTask) (txMap : TxMap)
    (utxos : Prevout → Option Pair) : Option MempoolSync :=
  let utxoMap := utxoMapOf (dbPrevouts txMap task.allHashes) utxos
  match s.pool.acceptTransactions txMap utxoMap with
  | .error _ => none
  | .ok a => some { s with
      pool := { a.pool with
        touched := if task.reports = s.reports then a.pool.touched else s.pool.touched }
      tasks := s.tasks.set i { task with progress := .done a.deferred a.unspent } }

/-- One step, if it can be taken and raises no exception. -/
def step (coin : Coin) (s : MempoolSync) : MempoolEvent → Option MempoolSync
  | .dbHeight height => some { s with dbHeight := height }
  | .refresh allHashes height chunks =>
    if s.current.isNone then s.start allHashes height chunks else none
  | .spawn =>
    match s.current with
    | some ⟨allHashes, height, .spawning (hashes :: chunks)⟩ => some { s with
        tasks := s.tasks ++ [{ hashes, allHashes, refresh := s.refreshes, reports := s.reports }]
        current := some ⟨allHashes, height, .spawning chunks⟩ }
    | _ => none
  | .check =>
    match s.current with
    | some ⟨allHashes, height, .spawning []⟩ => some { s with
        current := if height ≠ s.dbHeight then none
          else some ⟨allHashes, height, .collecting [] ∅⟩ }
    | _ => none
  | .fetched i rawTxs => do
    let task ← s.tasks[i]?
    match task.progress with
    | .fetching => some { s with
        tasks := s.tasks.set i
          { task with progress := .lookingUp (deserializeTxs coin task.hashes rawTxs) } }
    | _ => none
  | .lookedUp i utxos => do
    let task ← s.tasks[i]?
    match task.progress with
    | .lookingUp txMap => s.accept i task txMap utxos
    | _ => none
  | .collect i => do
    let task ← s.tasks[i]?
    match s.current, task.progress with
    | some ⟨allHashes, height, .collecting txMap utxoMap⟩, .done deferred unspent =>
      if task.refresh = s.refreshes then some { s with
        tasks := s.tasks.eraseIdx i
        current := some ⟨allHashes, height,
          .collecting (txMap.update deferred) (unspent ∪ utxoMap)⟩ }
      else none
    | _, _ => none
  | .finish =>
    match s.current with
    | some ⟨_, _, .collecting txMap utxoMap⟩ =>
      if ∀ task ∈ s.tasks, task.refresh ≠ s.refreshes then
        match s.pool.acceptLoop (txMap.length + 2) txMap utxoMap 0 with
        | some (.ok (pool, _)) => some { s with
            pool := { pool with touched := ∅ }
            current := none
            reports := s.reports + 1 }
        | _ => none
      else none
    | _ => none

end MempoolSync
end ElectrumX.Server
