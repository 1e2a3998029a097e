import ElectrumX.Index.Files
import ElectrumX.Index.HistoryRows
import ElectrumX.Server.LTORBlockProcessor

/-!
# The invariant of the index

A block processor and its DB represent three chains, each a prefix of the next: the one
that the state record of the UTXO DB covers, the one that the flat files and the history
table hold, and the one in memory. Advancing extends the third, a flush brings the second
or both up to it.
-/

namespace ElectrumX.Index
open ElectrumX.Base ElectrumX.Lib ElectrumX.Chain ElectrumX.Server

/-- The state record in the UTXO DB is that of the open DB; a new DB has none. -/
def UtxoStateHeld (env : Env) (db : DB) : Prop :=
  db.utxoDb[utxoStateKey]? = some (env.utxoCodec.repr {
    genesis := env.coin.genesisHash
    height := db.dbHeight
    txCount := db.dbTxCount
    tip := db.dbTip
    utxoFlushCount := db.utxoFlushCount
    firstSync := db.firstSync
    dbVersion := db.dbVersion }) ∨
  db.utxoDb[utxoStateKey]? = none ∧ db.dbHeight = -1 ∧ db.dbTip = List.replicate 32 0 ∧
    db.utxoFlushCount = 0 ∧ db.firstSync = true

/-- The state record in the history table has the flush count; a new table has none. -/
def HistoryStateHeld (codec : StateCodec HistoryState) (h : History) : Prop :=
  (∃ record, h.db[History.stateKey]? = some (codec.repr record) ∧
    record.flushCount = h.flushCount ∧ record.dbVersion = some History.latestVersion) ∨
  h.db[History.stateKey]? = none ∧ h.flushCount = 0

/-- The history table holds the transactions of `stored` that touch each script hash, and the
unflushed ones add those of `chain`; the rows up to `flushCount` are those of `recorded`. -/
structure HistoryHolds (env : Env) (h : History) (flushCount : Nat)
    (rows : HashX → Nat → List Nat) (pend : HashX → List Nat)
    (recorded stored chain : List Block) : Prop where
  table : HistoryRows h.db rows
  upTo : RowsUpTo rows h.flushCount
  unflushed : Unflushed h.unflushed pend
  recordedRows : ∀ hashX,
    numbers (dropRows rows flushCount) hashX = touching env.coin recorded hashX
  storedRows : ∀ hashX, numbers rows hashX = touching env.coin stored hashX
  chainRows : ∀ hashX, numbers rows hashX ++ pend hashX = touching env.coin chain hashX
  flushCount_le : flushCount ≤ h.flushCount
  version : h.dbVersion = History.latestVersion
  state : HistoryStateHeld env.historyCodec h

/-- The DB records a chain and stores another. -/
structure DbHolds (env : Env) (db : DB) (recorded stored : List Block) : Prop where
  dbHeight : db.dbHeight + 1 = recorded.length
  dbTxCount : db.dbTxCount = txCount recorded
  dbTip : db.dbTip = tip env.coin recorded
  dbVersion : db.dbVersion = latestDbVersion
  utxoState : UtxoStateHeld env db
  undoKeys : ∀ k v, db.utxoDb[prefixUndo :: k]? = some v → k.length = 4
  fsHeight : db.fsHeight + 1 = stored.length
  fsTxCount : db.fsTxCount = txCount stored
  files : FilesHold env db.disk stored

/-- The part of the invariant that holds between the transactions of two blocks. -/
structure IndexedCore (env : Env) (s : BlockProcessor) (recorded stored chain : List Block) :
    Prop where
  valid : ValidChain env.coin chain
  recorded_prefix : recorded <+: stored
  stored_prefix : stored <+: chain
  db : DbHolds env s.db recorded stored
  history : ∃ rows pend, HistoryHolds env s.db.history s.db.utxoFlushCount rows pend recorded
    stored chain
  utxo : UtxoRep (Ledger.created (ledger env.coin chain)) s.db.utxoDb s.utxoCache s.dbDeletes
    (unspent env.coin recorded) (unspent env.coin chain)
  counts_eq : s.db.txCounts = some (counts chain)
  txCount_eq : s.txCount = txCount chain
  txHashes_eq : s.txHashes = (chain.drop stored.length).map fun b ↦
    b.transactions.flatMap (·.txid.val)
  touched : ∀ x ∈ s.touched, x.length = hashXLen
  undoHeights : ∀ u ∈ s.undoInfos, (recorded.length : Int) ≤ u.2 ∧ u.2 < chain.length

/-- The history table holds the numbers that `stored` gives each script hash, and the unflushed
ones add those of `chain`; the rows up to `flushCount` are those of `recorded`. -/
structure HistoryTells (env : Env) (h : History) (flushCount : Nat)
    (rows : HashX → Nat → List Nat) (pend recorded stored chain : HashX → List Nat) : Prop where
  table : HistoryRows h.db rows
  upTo : RowsUpTo rows h.flushCount
  unflushed : Unflushed h.unflushed pend
  recordedRows : ∀ hashX, numbers (dropRows rows flushCount) hashX = recorded hashX
  storedRows : ∀ hashX, numbers rows hashX = stored hashX
  chainRows : ∀ hashX, numbers rows hashX ++ pend hashX = chain hashX
  flushCount_le : flushCount ≤ h.flushCount
  version : h.dbVersion = History.latestVersion
  state : HistoryStateHeld env.historyCodec h

/-- What the invariant says whatever the blocks do with the outputs, between the transactions of
two blocks: `tells` is what a chain puts into the history. -/
structure HeldCore (env : Env) (tells : List Block → HashX → List Nat) (s : BlockProcessor)
    (recorded stored chain : List Block) : Prop where
  headersFit : HeadersFit env.coin chain
  numbered : Numbered (Ledger.created (ledger env.coin chain))
  recorded_prefix : recorded <+: stored
  stored_prefix : stored <+: chain
  db : DbHolds env s.db recorded stored
  history : ∃ rows pend, HistoryTells env s.db.history s.db.utxoFlushCount rows pend
    (tells recorded) (tells stored) (tells chain)
  utxo : UtxoRep (Ledger.created (ledger env.coin chain)) s.db.utxoDb s.utxoCache s.dbDeletes
    (unspent env.coin recorded) (unspent env.coin chain)
  counts_eq : s.db.txCounts = some (counts chain)
  txCount_eq : s.txCount = txCount chain
  txHashes_eq : s.txHashes = (chain.drop stored.length).map fun b ↦
    b.transactions.flatMap (·.txid.val)
  touched : ∀ x ∈ s.touched, x.length = hashXLen
  undoHeights : ∀ u ∈ s.undoInfos, (recorded.length : Int) ≤ u.2 ∧ u.2 < chain.length

/-- What the invariant says whatever the blocks do with the outputs. -/
structure Held (env : Env) (tells : List Block → HashX → List Nat) (s : BlockProcessor)
    (recorded stored chain : List Block) : Prop
    extends HeldCore env tells s recorded stored chain where
  height_eq : s.height + 1 = chain.length
  tip_eq : s.tip = tip env.coin chain
  headers_eq : s.headers = (chain.drop stored.length).map (·.header)

/-- The processor has `chain` in memory, its DB stores `stored` and records `recorded`. -/
structure Indexed (env : Env) (s : BlockProcessor) (recorded stored chain : List Block) : Prop
    extends IndexedCore env s recorded stored chain where
  height_eq : s.height + 1 = chain.length
  tip_eq : s.tip = tip env.coin chain
  headers_eq : s.headers = (chain.drop stored.length).map (·.header)

section Generic

variable {env : Env} {h : History} {flushCount : Nat} {rows : HashX → Nat → List Nat}
variable {pend : HashX → List Nat} {recorded stored chain : List Block}

theorem HistoryHolds.tells (hist : HistoryHolds env h flushCount rows pend recorded stored chain) :
    HistoryTells env h flushCount rows pend (touching env.coin recorded) (touching env.coin stored)
      (touching env.coin chain) := { hist with }

theorem HistoryTells.holds (hist : HistoryTells env h flushCount rows pend
    (touching env.coin recorded) (touching env.coin stored) (touching env.coin chain)) :
    HistoryHolds env h flushCount rows pend recorded stored chain := { hist with }

theorem Indexed.held {s : BlockProcessor} (h : Indexed env s recorded stored chain) :
    Held env (touching env.coin) s recorded stored chain :=
  { h with
    headersFit := h.valid.headersFit
    numbered := Index.numbered h.valid
    db := h.db
    history := h.history.imp fun _ hr ↦ hr.imp fun _ hist ↦ hist.tells
    utxo := h.utxo
    touched := h.touched
    undoHeights := h.undoHeights }

theorem Held.indexed {s : BlockProcessor} (h : Held env (touching env.coin) s recorded stored chain)
    (hv : ValidChain env.coin chain) : Indexed env s recorded stored chain :=
  { h with
    valid := hv
    db := h.db
    history := h.history.imp fun _ hr ↦ hr.imp fun _ hist ↦ hist.holds
    utxo := h.utxo
    touched := h.touched
    undoHeights := h.undoHeights }

end Generic

/-! ### Touching transactions -/

section Touching

variable {coin : Coin}

theorem touching_pairwise (chain : List Block) (hashX : HashX) :
    (touching coin chain hashX).Pairwise (· < ·) :=
  List.pairwise_lt_range.filter _

theorem touching_lt {chain : List Block} {hashX : HashX} {n : Nat}
    (h : n ∈ touching coin chain hashX) : n < txCount chain :=
  List.mem_range.mp (List.mem_of_mem_filter h)

theorem touches_append {a b : List Block} (hv : Ledger.Closed (ledger coin a)) {n : Nat}
    (hn : n < txCount a) (hashX : HashX) :
    Touches coin (a ++ b) n hashX ↔ Touches coin a n hashX := by
  unfold Touches
  rw [ledger_append, List.getElem?_append_left (by rwa [length_ledger])]
  refine exists_congr fun e ↦ and_congr_right fun he ↦ ?_
  rw [hashXsOf_append hv (List.mem_of_getElem? he)]

/-- Cutting at the transaction count of a prefix leaves the transactions of the prefix. -/
theorem touching_filter {a b : List Block} (hv : Ledger.Closed (ledger coin a)) (hashX : HashX) :
    (touching coin (a ++ b) hashX).filter (· < txCount a) = touching coin a hashX := by
  rw [touching, touching, List.filter_filter, txCount_append, List.range_add, List.filter_append]
  have hl : (List.range (txCount a)).filter
      (fun n ↦ decide (n < txCount a) && decide (Touches coin (a ++ b) n hashX)) =
        (List.range (txCount a)).filter fun n ↦ Touches coin a n hashX := by
    apply List.filter_congr
    intro n hn
    have hlt := List.mem_range.mp hn
    simp [hlt, touches_append hv hlt]
  have hr : ((List.range (txCount b)).map (txCount a + ·)).filter
      (fun n ↦ decide (n < txCount a) && decide (Touches coin (a ++ b) n hashX)) = [] := by
    rw [List.filter_eq_nil_iff]
    intro n hn
    obtain ⟨k, -, rfl⟩ := List.mem_map.mp hn
    simp
  rw [hl, hr, List.append_nil]

private theorem filter_range' {α : Type} (xs : List α) (q : α → Bool) (m : Nat) :
    (List.range' m xs.length).filter (fun n ↦ xs[n - m]?.any q) =
      (xs.zipIdx m).filterMap fun t ↦ if q t.1 then some t.2 else none := by
  induction xs generalizing m with
  | nil => rfl
  | cons x xs ih =>
    have ht : (List.range' (m + 1) xs.length).filter (fun n ↦ (x :: xs)[n - m]?.any q) =
        (List.range' (m + 1) xs.length).filter fun n ↦ xs[n - (m + 1)]?.any q := by
      apply List.filter_congr
      intro n hn
      have hm := (List.mem_range'_1.mp hn).1
      have hs : n - m = n - (m + 1) + 1 := by omega
      rw [hs, List.getElem?_cons_succ]
    rw [List.length_cons, List.range'_succ, List.filter_cons, ht, ih, List.zipIdx_cons,
      List.filterMap_cons, Nat.sub_self, List.getElem?_cons_zero]
    by_cases hq : q x <;> simp [hq]

/-- A block adds the numbers of its transactions that touch the script hash. -/
theorem touching_concat {a : List Block} {b : Block}
    (hva : Ledger.Closed (ledger coin a)) (hashX : HashX) :
    touching coin (a ++ [b]) hashX = touching coin a hashX ++ numbersFrom (txCount a)
      ((entries coin (coin.isUnspendableAt a.length) (txCount a) b.transactions).map
        (hashXsOf (ledger coin (a ++ [b])))) hashX := by
  set es := entries coin (coin.isUnspendableAt a.length) (txCount a) b.transactions with hes
  set L := ledger coin (a ++ [b]) with hL
  have hcat : L = ledger coin a ++ es := ledger_concat coin a b
  have hlen : txCount (a ++ [b]) = txCount a + es.length := by
    rw [txCount_concat, hes, length_entries]
  have hnum : numbersFrom (txCount a) (es.map (hashXsOf L)) hashX =
      (es.zipIdx (txCount a)).filterMap fun t ↦
        if decide (hashX ∈ hashXsOf L t.1) then some t.2 else none := by
    rw [numbersFrom, List.zipIdx_map, List.filterMap_map]
    apply List.filterMap_congr
    intro t _
    simp
  rw [hnum, ← filter_range' es (fun e ↦ decide (hashX ∈ hashXsOf L e)) (txCount a), touching,
    touching, hlen, List.range_eq_range', ← List.range'_append_1, List.filter_append,
    ← List.range_eq_range', Nat.zero_add]
  congr 1
  · apply List.filter_congr
    intro n hn
    simp only [touches_append hva (List.mem_range.mp hn)]
  · apply List.filter_congr
    intro n hn
    have hle : (ledger coin a).length ≤ n := by
      rw [length_ledger]
      exact (List.mem_range'_1.mp hn).1
    have hget : (ledger coin (a ++ [b]))[n]? = es[n - txCount a]? := by
      rw [← hL, hcat, List.getElem?_append_right hle, length_ledger]
    have hiff : Touches coin (a ++ [b]) n hashX ↔
        es[n - txCount a]?.any (fun e ↦ decide (hashX ∈ hashXsOf L e)) = true := by
      unfold Touches
      rw [hget, ← hL]
      cases es[n - txCount a]? with
      | none => simp
      | some e => simp
    exact Bool.eq_iff_iff.mpr (decide_eq_true_iff.trans hiff)

end Touching

/-! ### Advancing -/

section Advancing

variable {env : Env} {m : TxMethods} {tells : List Block → HashX → List Nat}
variable {valid : List Block → Prop} {s s' : BlockProcessor} {recorded stored chain : List Block}

theorem UtxoRep.mono {P P' : List (OutPoint × Utxo)} {utxoDb utxoCache : Table}
    {dbDeletes : List Bytes} {base view : OutPoint → Option Utxo} (hP : P ⊆ P')
    (h : UtxoRep P utxoDb utxoCache dbDeletes base view) :
    UtxoRep P' utxoDb utxoCache dbDeletes base view :=
  { h with
    base_mem := fun op u hb ↦ hP (h.base_mem op u hb)
    view_mem := fun op u hv ↦ hP (h.view_mem op u hv) }

/-- The DB finds the txids of the recorded outputs. -/
theorem DbHolds.hashesFound {db : DB} {chain : List Block} (h : DbHolds env db recorded stored)
    (hp : recorded <+: stored)
    (hk : ((Ledger.created (ledger env.coin recorded)).map Prod.fst).Nodup)
    (hc : db.txCounts = some (counts chain))
    (hcmp : recorded <+: chain ∨ chain.length < recorded.length) :
    HashesFound db (unspent env.coin recorded) := by
  obtain ⟨rest, rfl⟩ := hp
  exact Index.hashesFound h.files.left.hashes h.dbHeight hc hcmp fun op u hu ↦
    ((Ledger.live_eq_some_iff_of_nodup hk).mp hu).1

theorem mem_foldl_insert (xs : List Bytes) (t : Std.ExtTreeSet Bytes) (x : Bytes) :
    x ∈ xs.foldl (fun t hashX ↦ t.insert hashX) t ↔ x ∈ t ∨ x ∈ xs := by
  induction xs generalizing t with
  | nil => simp
  | cons y ys ih =>
    rw [List.foldl_cons, ih, Std.ExtTreeSet.mem_insert, Std.LawfulEqCmp.compare_eq_iff_eq,
      List.mem_cons]
    grind

/-- The processor once the transactions of a block have been advanced. -/
def afterTxs (s : BlockProcessor) (b : Block) (unflushed : Table) (unflushedCount : Nat)
    (utxoCache : Table) (dbDeletes : List Bytes) (touched : Std.ExtTreeSet Bytes) :
    BlockProcessor :=
  { s with
    txHashes := s.txHashes ++ [b.transactions.flatMap fun tx ↦ tx.txid.val]
    utxoCache := utxoCache
    dbDeletes := dbDeletes
    touched := touched
    txCount := s.txCount + b.transactions.length
    db := { s.db with
      history := { s.db.history with unflushed := unflushed, unflushedCount := unflushedCount }
      txCounts := some (s.db.counts ++ [s.txCount + b.transactions.length]) } }

/-- Adding the transactions of a block to the history. -/
theorem HistoryTells.addUnflushed {h : History} {flushCount : Nat} {rows : HashX → Nat → List Nat}
    {pend recorded stored chain : HashX → List Nat}
    (hist : HistoryTells env h flushCount rows pend recorded stored chain)
    (hss : List (List HashX)) (n : Nat) (hn : n + hss.length ≤ 2 ^ 40) :
    ∃ t k pend', h.addUnflushed (hss.map (·.map (·.val))) n =
        .ok { h with unflushed := t, unflushedCount := k } ∧
      HistoryTells env { h with unflushed := t, unflushedCount := k } flushCount rows pend' recorded
        stored fun hashX ↦ chain hashX ++ numbersFrom n hss hashX := by
  obtain ⟨t, k, ha, ht⟩ := hist.unflushed.addUnflushed hss n hn
  refine ⟨t, k, _, ha, { hist with unflushed := ht, chainRows := fun hashX ↦ ?_ }⟩
  rw [← List.append_assoc, hist.chainRows]

/-- The invariant after the transactions of a block, from its parts. -/
theorem HeldCore.afterTxs {b : Block}
    {t : Table} {k : Nat} {c : Table} {d : List Bytes} {touched : Std.ExtTreeSet Bytes}
    (h : HeldCore env tells s recorded stored chain) (hf : HeadersFit env.coin (chain ++ [b]))
    (hN : Numbered (Ledger.created (ledger env.coin (chain ++ [b]))))
    (hu : UtxoRep (Ledger.created (ledger env.coin (chain ++ [b]))) s.db.utxoDb c d
      (unspent env.coin recorded) (unspent env.coin (chain ++ [b])))
    (hist : ∃ rows pend, HistoryTells env
      { s.db.history with unflushed := t, unflushedCount := k } s.db.utxoFlushCount rows pend
      (tells recorded) (tells stored) (tells (chain ++ [b])))
    (ht : ∀ x : Bytes, x ∈ touched → x.length = hashXLen) :
    HeldCore env tells (Index.afterTxs s b t k c d touched) recorded stored (chain ++ [b]) := by
  have hcount : txCount (chain ++ [b]) = txCount chain + b.transactions.length :=
    txCount_concat ..
  have hcounts : s.db.counts = counts chain := by rw [DB.counts, h.counts_eq, Option.getD_some]
  refine
    { headersFit := hf
      numbered := hN
      recorded_prefix := h.recorded_prefix
      stored_prefix := h.stored_prefix.trans (List.prefix_append _ _)
      db := { h.db with }
      history := hist
      utxo := hu
      counts_eq := ?_
      txCount_eq := ?_
      txHashes_eq := ?_
      touched := ht
      undoHeights := fun u hm ↦ ?_ }
  · change some (s.db.counts ++ [s.txCount + b.transactions.length]) = _
    rw [hcounts, h.txCount_eq, counts_concat, hcount]
  · change s.txCount + b.transactions.length = _
    rw [h.txCount_eq, hcount]
  · change s.txHashes ++ _ = _
    rw [h.txHashes_eq, List.drop_append_of_le_length h.stored_prefix.length_le, List.map_append]
    rfl
  · have := h.undoHeights u hm
    rw [List.length_append, List.length_singleton]
    omega

/-- Advancing the transactions of the next valid block returns the outputs that the block spends,
and adds to the history the transactions that touch a script hash. -/
theorem HeldCore.advanceTxs (h : HeldCore env tells s recorded stored chain) {b : Block}
    (hv : ValidChain env.coin (chain ++ [b])) :
    ∃ t k c d touched, s.advanceTxs env b.transactions (env.coin.isUnspendableAt chain.length) =
        .ok ((spentBy env.coin chain b).map packed, Index.afterTxs s b t k c d touched) ∧
      UtxoRep (Ledger.created (ledger env.coin (chain ++ [b]))) s.db.utxoDb c d
        (unspent env.coin recorded) (unspent env.coin (chain ++ [b])) ∧
      (∃ rows pend, HistoryTells env { s.db.history with unflushed := t, unflushedCount := k }
        s.db.utxoFlushCount rows pend (tells recorded) (tells stored) fun hashX ↦
          tells chain hashX ++ numbersFrom (txCount chain)
            ((entries env.coin (env.coin.isUnspendableAt chain.length) (txCount chain)
              b.transactions).map (hashXsOf (ledger env.coin (chain ++ [b])))) hashX) ∧
      ∀ x : Bytes, x ∈ touched → x.length = hashXLen := by
  set es := entries env.coin (env.coin.isUnspendableAt chain.length) (txCount chain)
    b.transactions with hes
  have hL : ledger env.coin (chain ++ [b]) = ledger env.coin chain ++ es := ledger_concat ..
  have hvL := hv.ledger
  rw [hL] at hvL
  have hN := Index.numbered hv
  have hsub : Ledger.created (ledger env.coin chain) ⊆
      Ledger.created (ledger env.coin (chain ++ [b])) := by
    rw [hL, Ledger.created_append]
    exact List.subset_append_left _ _
  have hrv : ValidChain env.coin recorded := by
    obtain ⟨rest, hr⟩ := h.recorded_prefix.trans h.stored_prefix
    rw [← hr] at hv
    exact hv.left.left
  have hh := h.db.hashesFound h.recorded_prefix hrv.ledger.keys_nodup h.counts_eq
    (.inl (h.recorded_prefix.trans h.stored_prefix))
  have hcount : txCount (chain ++ [b]) = txCount chain + b.transactions.length :=
    txCount_concat ..
  have htxs : ∀ tx ∈ b.transactions, tx ∈ txs (chain ++ [b]) := by
    intro tx htx
    rw [txs_append, txs_singleton]
    exact List.mem_append_right _ htx
  have hlt := hv.txCount
  -- The UTXOs.
  obtain ⟨c, d, hr, hu⟩ := (h.utxo.mono hsub).advanceLoop env b.transactions hN hh
    (L := ledger env.coin chain) (n := txCount chain) hvL
    (fun p hp ↦ by
      rw [hL, Ledger.created_append]
      exact List.mem_append_right _ hp)
    (fun op u hb ↦ List.mem_map.mpr ⟨_, h.utxo.base_mem op u hb, rfl⟩)
    (by omega) (fun tx htx ↦ hv.outputs tx (htxs tx htx))
    (fun tx htx ↦ hv.values tx (htxs tx htx))
  rw [← hes, ← hL] at hr hu
  -- The history.
  obtain ⟨rows, pend, hist⟩ := h.history
  obtain ⟨t, k, pend', ha, hist'⟩ := hist.addUnflushed
    (es.map (hashXsOf (ledger env.coin (chain ++ [b])))) (txCount chain)
    (by rw [List.length_map, hes, length_entries]; omega)
  rw [List.map_map] at ha
  set hashXs := es.map fun e ↦ (hashXsOf (ledger env.coin (chain ++ [b])) e).map (·.val)
    with hhashXs
  change s.db.history.addUnflushed hashXs (Chain.txCount chain) = _ at ha
  refine ⟨t, k, c, d, hashXs.flatten.foldl (fun t hashX ↦ t.insert hashX) s.touched, ?_, hu,
    ⟨rows, pend', hist'⟩, fun x hx ↦ ?_⟩
  · rw [BlockProcessor.advanceTxs, h.txCount_eq]
    simp only [hr, bind, Except.bind, pure, Except.pure, ha, Index.afterTxs, h.txCount_eq]
    rfl
  · rcases (mem_foldl_insert _ _ _).mp hx with hx | hx
    · exact h.touched x hx
    · obtain ⟨xs, hxs, hx⟩ := List.mem_flatten.mp hx
      obtain ⟨e, -, rfl⟩ := List.mem_map.mp hxs
      obtain ⟨hashX, -, rfl⟩ := List.mem_map.mp hx
      exact hashX.property

/-- The undo information that is kept of blocks on top of a chain. -/
def undosFrom (env : Env) (minHeight : Int) : List Block → List Block → List (List Bytes × Int)
  | _, [] => []
  | chain, b :: rest =>
    (if (chain.length : Int) ≥ minHeight then
      [((spentBy env.coin chain b).map packed, (chain.length : Int))] else []) ++
      undosFrom env minHeight (chain ++ [b]) rest

/-- What lies on disk is the same, and so is what the DB knows of the last flush. -/
structure SameDisk (s s' : BlockProcessor) : Prop where
  disk : s'.db.disk = s.db.disk
  journal : s'.db.journal = s.db.journal
  utxoFlushCount : s'.db.utxoFlushCount = s.db.utxoFlushCount

/-- What `advance_txs` leaves alone. -/
structure KeepsRest (s s' : BlockProcessor) : Prop where
  disk : SameDisk s s'
  height : s'.height = s.height
  headers : s'.headers = s.headers
  undoInfos : s'.undoInfos = s.undoInfos

/-- What `advance_txs` of a processor does with the next block: `tells` is what a chain puts into
the history. -/
abbrev Advances (env : Env) (m : TxMethods) (tells : List Block → HashX → List Nat)
    (valid : List Block → Prop) : Prop :=
  ∀ {s recorded stored chain b}, HeldCore env tells s recorded stored chain →
    valid (chain ++ [b]) →
    ∃ s', m.advanceTxs s b.transactions (env.coin.isUnspendableAt chain.length) =
        .ok ((spentBy env.coin chain b).map packed, s') ∧
      HeldCore env tells s' recorded stored (chain ++ [b]) ∧ KeepsRest s s'

theorem HeldCore.storeUndo (h : HeldCore env tells s recorded stored chain)
    (undoInfo : List Bytes) {height : Int} (raw : Bytes) (h1 : (recorded.length : Int) ≤ height)
    (h2 : height < chain.length) :
    HeldCore env tells { s with
      undoInfos := s.undoInfos ++ [(undoInfo, height)]
      db := s.db.writeRawBlock env raw height } recorded stored chain :=
  { h with
    db := { h.db with }
    history := h.history
    utxo := h.utxo
    undoHeights := fun u hm ↦ by
      rcases List.mem_append.mp hm with hm | hm
      · exact h.undoHeights u hm
      · rw [List.mem_singleton.mp hm]
        exact ⟨h1, h2⟩ }

/-- The loop over the blocks keeps the invariant. -/
theorem HeldCore.advanceBlocksLoop (h : HeldCore env tells s recorded stored chain)
    (left : ∀ {a b}, valid (a ++ b) → valid a) (advance : Advances env m tells valid)
    {blocks : List Block}
    (hv : valid (chain ++ blocks)) (minHeight : Int) {height : Int}
    (hh : height + 1 = chain.length) :
    ∃ s', m.advanceBlocksLoop env minHeight height s blocks = .ok s' ∧
      HeldCore env tells s' recorded stored (chain ++ blocks) ∧ SameDisk s s' ∧
      s'.height = s.height ∧ s'.headers = s.headers ∧
      s'.undoInfos = s.undoInfos ++ undosFrom env minHeight chain blocks := by
  induction blocks generalizing s chain height with
  | nil =>
    rw [List.append_nil]
    exact ⟨s, rfl, h, ⟨rfl, rfl, rfl⟩, rfl, rfl, by rw [undosFrom, List.append_nil]⟩
  | cons b rest ih =>
    rw [List.append_cons] at hv ⊢
    obtain ⟨s1, hr, h1, hd1, he1, hs1, hu1⟩ := advance h (left hv)
    have hr' : m.advanceTxs s b.transactions (env.coin.isUnspendableAt (height + 1)) = _ :=
      hh ▸ hr
    have hlen : (chain.length : Int) < (chain ++ [b]).length := by
      rw [List.length_append, List.length_singleton]
      omega
    have hle : (recorded.length : Int) ≤ chain.length := by
      have := (h.recorded_prefix.trans h.stored_prefix).length_le
      omega
    have hh' : height + 1 + 1 = (chain ++ [b]).length := by
      rw [List.length_append, List.length_singleton]
      omega
    have htrans {s2 : BlockProcessor} (hd : SameDisk s1 s2) : SameDisk s s2 :=
      ⟨hd.disk.trans hd1.disk, hd.journal.trans hd1.journal,
        hd.utxoFlushCount.trans hd1.utxoFlushCount⟩
    unfold TxMethods.advanceBlocksLoop
    simp only [hr', bind, Except.bind]
    by_cases hm : (chain.length : Int) ≥ minHeight
    · obtain ⟨s', hs', h', hd, h3, h4, h5⟩ :=
        ih (h1.storeUndo ((spentBy env.coin chain b).map packed) b.raw hle hlen) hv hh'
      refine ⟨s', ?_, h', htrans ⟨hd.disk, hd.journal, hd.utxoFlushCount⟩, h3.trans he1,
        h4.trans hs1, ?_⟩
      · rw [if_pos (by omega), hh]
        rw [hh] at hs'
        exact hs'
      · change _ = (s1.undoInfos ++ _) ++ _ at h5
        rw [h5, hu1, undosFrom, if_pos hm, List.append_assoc]
    · obtain ⟨s', hs', h', hd, h3, h4, h5⟩ := ih h1 hv hh'
      refine ⟨s', ?_, h', htrans hd, h3.trans he1, h4.trans hs1, ?_⟩
      · rw [if_neg (by omega)]
        exact hs'
      · rw [h5, hu1, undosFrom, if_neg hm, List.nil_append]

/-- `advance_blocks` extends the chain by valid blocks. -/
theorem Held.advanceBlocks (h : Held env tells s recorded stored chain)
    (left : ∀ {a b}, valid (a ++ b) → valid a) (advance : Advances env m tells valid)
    {blocks : List Block} (hne : blocks ≠ [])
    (hv : valid (chain ++ blocks)) (cachedHeight : Int) :
    ∃ s', m.advanceBlocks env s cachedHeight blocks = .ok s' ∧
      Held env tells s' recorded stored (chain ++ blocks) ∧ SameDisk s s' ∧
      s'.undoInfos = s.undoInfos ++
        undosFrom env (DB.minUndoHeight env cachedHeight) chain blocks := by
  obtain ⟨s1, hr, h1, hd, hheight, hheaders, hundo⟩ := h.toHeldCore.advanceBlocksLoop left advance hv
    (DB.minUndoHeight env cachedHeight) h.height_eq
  obtain ⟨init, last, rfl⟩ := (List.eq_nil_or_concat' blocks).resolve_left hne
  have hlast : ((init ++ [last]).map Block.header).getLast? = some last.header := by
    rw [List.map_append, List.map_singleton, List.getLast?_concat]
  refine ⟨{ s1 with
    height := s1.height + ((init ++ [last]).length : Nat)
    headers := s1.headers ++ (init ++ [last]).map Block.header
    tip := env.coin.headerHash last.header }, ?_,
    { toHeldCore := { h1 with
        db := h1.db
        history := h1.history
        utxo := h1.utxo
        touched := h1.touched
        undoHeights := h1.undoHeights }
      height_eq := ?_
      tip_eq := ?_
      headers_eq := ?_ }, ⟨hd.disk, hd.journal, hd.utxoFlushCount⟩, hundo⟩
  · rw [TxMethods.advanceBlocks]
    simp only [hr, bind, Except.bind, hlast, pure, Except.pure]
  · have := h.height_eq
    have hl : (chain ++ (init ++ [last])).length = chain.length + (init ++ [last]).length :=
      List.length_append
    change s1.height + ((init ++ [last]).length : Nat) + 1 = _
    omega
  · rw [← List.append_assoc, tip_concat]
  · have hs : s1.headers = (chain.drop stored.length).map (·.header) :=
      hheaders.trans h.headers_eq
    rw [List.drop_append_of_le_length h.stored_prefix.length_le]
    exact (congrArg (· ++ _) hs).trans List.map_append.symm

/-- The base class advances the transactions of the next valid block. -/
theorem HeldCore.advanceValid (h : HeldCore env (touching env.coin) s recorded stored chain)
    {b : Block} (hv : ValidChain env.coin (chain ++ [b])) :
    ∃ s', s.advanceTxs env b.transactions (env.coin.isUnspendableAt chain.length) =
        .ok ((spentBy env.coin chain b).map packed, s') ∧
      HeldCore env (touching env.coin) s' recorded stored (chain ++ [b]) ∧ KeepsRest s s' := by
  obtain ⟨t, k, c, d, touched, hr, hu, ⟨rows, pend, hist⟩, ht⟩ := h.advanceTxs hv
  refine ⟨_, hr, h.afterTxs hv.headersFit (Index.numbered hv) hu
    ⟨rows, pend, { hist with chainRows := fun hashX ↦ ?_ }⟩ ht, ⟨⟨rfl, rfl, rfl⟩, rfl, rfl, rfl⟩⟩
  rw [hist.chainRows, touching_concat hv.left.ledger.closed]

/-- `advance_blocks` extends the chain by valid blocks. -/
theorem Indexed.advanceBlocks (h : Indexed env s recorded stored chain) {blocks : List Block}
    (hne : blocks ≠ []) (hv : ValidChain env.coin (chain ++ blocks)) (cachedHeight : Int) :
    ∃ s', s.advanceBlocks env cachedHeight blocks = .ok s' ∧
      Indexed env s' recorded stored (chain ++ blocks) ∧ SameDisk s s' ∧
      s'.undoInfos = s.undoInfos ++
        undosFrom env (DB.minUndoHeight env cachedHeight) chain blocks := by
  have advance : Advances env (BlockProcessor.methods env) (touching env.coin)
      (ValidChain env.coin) := fun h hv ↦ h.advanceValid hv
  obtain ⟨s', hs', h', hd, hundo⟩ := h.held.advanceBlocks ValidChain.left advance hne hv cachedHeight
  rw [BlockProcessor.methods_advanceBlocks] at hs'
  exact ⟨s', hs', h'.indexed hv, hd, hundo⟩

end Advancing
end ElectrumX.Index
