import ElectrumX.Index.Flush

/-!
# Opening the databases

What may lie on disk so that the databases open as an index of a chain: files that start
with its data, UTXO tables that represent it, and history rows whose flush ids up to the
recorded one make up its history. Opening drops the other history rows and the stale undo
rows, and a new disk opens as the empty chain.
-/

namespace ElectrumX.Index
open ElectrumX.Base ElectrumX.Lib ElectrumX.Chain ElectrumX.Server

/-- What lies on disk records a chain at a flush count; the history table may be ahead of it,
with rows up to the flush count `historyCount`. -/
structure Recoverable (env : Env) (disk : Disk) (flushCount historyCount : Nat)
    (rows : HashX → Nat → List Nat) (recorded : List Block) : Prop where
  valid : ValidChain env.coin recorded
  files : FilesHold env (DB.load env {} disk).disk recorded
  utxo : UtxoRep (Ledger.created (ledger env.coin recorded)) disk.utxo ∅ []
    (unspent env.coin recorded) (unspent env.coin recorded)
  undoKeys : ∀ k v, disk.utxo[prefixUndo :: k]? = some v → k.length = 4
  utxoState : (∃ firstSync, disk.utxo[utxoStateKey]? = some (env.utxoCodec.repr {
      genesis := env.coin.genesisHash
      height := recorded.length - 1
      txCount := txCount recorded
      tip := tip env.coin recorded
      utxoFlushCount := flushCount
      firstSync := firstSync
      dbVersion := latestDbVersion })) ∨
    disk.utxo[utxoStateKey]? = none ∧ recorded = [] ∧ flushCount = 0
  table : HistoryRows disk.history rows
  upTo : RowsUpTo rows historyCount
  recordedRows : ∀ hashX,
    numbers (dropRows rows flushCount) hashX = touching env.coin recorded hashX
  flushCount_le : flushCount ≤ historyCount
  historyState : (∃ record, disk.history[History.stateKey]? =
      some (env.historyCodec.repr record) ∧ record.flushCount = historyCount ∧
      record.dbVersion = some History.latestVersion) ∨
    disk.history[History.stateKey]? = none ∧ historyCount = 0

section Opening

variable {env : Env} {disk : Disk} {flushCount historyCount : Nat}
variable {rows : HashX → Nat → List Nat} {recorded : List Block}

/-- `read_utxo_state` takes over the recorded chain. -/
theorem Recoverable.readUtxoState (h : Recoverable env disk flushCount historyCount rows recorded)
    {db : DB} (hdb : db.utxoDb = disk.utxo) :
    ∃ firstSync, db.readUtxoState env = .ok { db with
        dbHeight := recorded.length - 1
        dbTxCount := txCount recorded
        dbTip := tip env.coin recorded
        dbVersion := latestDbVersion
        utxoFlushCount := flushCount
        firstSync := firstSync
        fsHeight := recorded.length - 1
        fsTxCount := txCount recorded } ∧
      (disk.utxo[utxoStateKey]? = some (env.utxoCodec.repr {
          genesis := env.coin.genesisHash
          height := recorded.length - 1
          txCount := txCount recorded
          tip := tip env.coin recorded
          utxoFlushCount := flushCount
          firstSync := firstSync
          dbVersion := latestDbVersion }) ∨
        disk.utxo[utxoStateKey]? = none ∧ recorded = [] ∧ flushCount = 0 ∧ firstSync = true) := by
  rcases h.utxoState with ⟨firstSync, hs⟩ | ⟨hs, rfl, rfl⟩
  · refine ⟨firstSync, ?_, .inl hs⟩
    set record : UtxoState := {
      genesis := env.coin.genesisHash
      height := recorded.length - 1
      txCount := txCount recorded
      tip := tip env.coin recorded
      utxoFlushCount := flushCount
      firstSync := firstSync
      dbVersion := latestDbVersion } with hrecord
    obtain ⟨b, bs, hc⟩ := List.exists_cons_of_ne_nil (env.utxoCodec.repr_ne_nil record)
    have he := env.utxoCodec.literalEval_repr record
    rw [hc] at hs he
    rw [DB.readUtxoState, DB.loadUtxoState, hdb, hs]
    simp [he, hrecord, latestDbVersion, bind, Except.bind, pure, Except.pure]
  · refine ⟨true, ?_, .inr ⟨hs, rfl, rfl, rfl⟩⟩
    rw [DB.readUtxoState, DB.loadUtxoState, hdb, hs]
    rfl

/-- `open_db` drops the history rows above the flush count of the UTXO DB. -/
theorem HistoryRows.openDb {codec : StateCodec HistoryState} {t : Table}
    (ht : HistoryRows t rows) (hu : RowsUpTo rows historyCount) (hle : flushCount ≤ historyCount)
    (hstate : (∃ record, t[History.stateKey]? = some (codec.repr record) ∧
        record.flushCount = historyCount ∧ record.dbVersion = some History.latestVersion) ∨
      t[History.stateKey]? = none ∧ historyCount = 0) :
    ∃ hist, ({ db := ∅ } : History).openDb codec t flushCount false = .ok hist ∧
      HistoryRows hist.db (dropRows rows flushCount) ∧ hist.flushCount = flushCount ∧
      hist.unflushed = ∅ ∧ hist.dbVersion = History.latestVersion ∧
      HistoryStateHeld codec hist := by
  rcases hstate with ⟨record, hs, hcount, hver⟩ | ⟨hs, rfl⟩
  · obtain ⟨b, bs, hc⟩ := List.exists_cons_of_ne_nil (codec.repr_ne_nil record)
    have he := codec.literalEval_repr record
    set hist : History := {
      db := t
      flushCount := historyCount
      compFlushCount := record.compFlushCount.getD (-1)
      compCursor := record.compCursor.getD (-1)
      dbVersion := History.latestVersion
      upgradeCursor := record.upgradeCursor.getD (-1) } with hhist
    have hread : ({ db := t } : History).readState codec = .ok hist := by
      rw [hc] at hs he
      rw [History.readState, History.loadState]
      simp [hs, he, hcount, hver, hhist, History.latestVersion, bind, Except.bind, pure,
        Except.pure]
    obtain ⟨db, hclear, hrows, record', hstate, hc', hv'⟩ :=
      HistoryRows.clearExcess codec (h := hist) ht hu hle rfl hs hcount hver
    refine ⟨History.cancelCompaction { hist with db := db, flushCount := flushCount }, ?_, ?_, ?_,
      ?_, ?_, ?_⟩
    · rw [History.openDb]
      simp only [hread, hclear, bind, Except.bind, pure, Except.pure, Bool.false_eq_true, if_false]
    all_goals
      unfold History.cancelCompaction
    · split <;> exact hrows
    · split <;> rfl
    · split <;> rfl
    · split <;> rfl
    · split <;> exact .inl ⟨record', hstate, hc', hv'⟩
  · obtain rfl : flushCount = 0 := Nat.le_zero.mp hle
    refine ⟨{ db := t }, ?_, ?_, rfl, rfl, rfl, .inr ⟨hs, rfl⟩⟩
    · rw [History.openDb, History.readState, History.loadState]
      simp [hs, History.clearExcess, History.cancelCompaction, History.latestVersion, bind,
        Except.bind, pure, Except.pure]
    · rwa [dropRows_eq_self hu]

/-- `open_db` drops the history rows that the UTXO DB does not know. -/
theorem Recoverable.openHistory (h : Recoverable env disk flushCount historyCount rows recorded) :
    ∃ hist, ({ db := ∅ } : History).openDb env.historyCodec disk.history flushCount false =
        .ok hist ∧
      HistoryRows hist.db (dropRows rows flushCount) ∧ hist.flushCount = flushCount ∧
      hist.unflushed = ∅ ∧ hist.dbVersion = History.latestVersion ∧
      HistoryStateHeld env.historyCodec hist :=
  h.table.openDb h.upTo h.flushCount_le h.historyState

/-- The stale undo keys are those of undo rows below the height to keep. -/
private theorem staleUndoKeys_eq (minHeight : Int) (es : List (Bytes × Bytes))
    (hes : ∀ e ∈ es, ∃ k : Bytes, k.length = 4 ∧ e.1 = prefixUndo :: k) :
    ∃ keys, DB.staleUndoKeys minHeight es = .ok keys ∧
      ∀ k ∈ keys, ∃ n : Nat, n < minHeight ∧ n < 256 ^ 4 ∧ k = prefixUndo :: packBE 4 n := by
  induction es with
  | nil => exact ⟨[], rfl, by simp⟩
  | cons e es ih =>
    obtain ⟨keys, hk, hm⟩ := ih fun x hx ↦ hes x (List.mem_cons_of_mem _ hx)
    obtain ⟨k, hl, he⟩ := hes e List.mem_cons_self
    have hlast : lastN 4 e.1 = k := by
      rw [he]
      exact lastN_append_of_length [prefixUndo] hl
    have hu : unpackBeUint32 (lastN 4 e.1) = .ok (unpackBE k) := by
      rw [hlast, unpackBeUint32, if_pos hl]
    rw [DB.staleUndoKeys]
    simp only [hu, bind, Except.bind]
    by_cases hmin : (unpackBE k : Int) ≥ minHeight
    · rw [if_pos hmin]
      exact ⟨[], rfl, by simp⟩
    · rw [if_neg hmin, hk]
      refine ⟨e.1 :: keys, rfl, fun x hx ↦ ?_⟩
      rcases List.mem_cons.mp hx with rfl | hx
      · have hlt := unpackBE_lt k
        have hpack := packBE_unpackBE k
        rw [hl] at hlt hpack
        exact ⟨unpackBE k, by omega, hlt, by rw [he, hpack]⟩
      · exact hm x hx

/-- The UTXO DB without some undo rows below a height. -/
structure PrunedBelow (minHeight : Int) (utxoDb utxoDb' : Table) : Prop where
  others : ∀ k : Bytes, (∀ t, k ≠ prefixUndo :: t) → utxoDb'[k]? = utxoDb[k]?
  kept : ∀ n : Nat, minHeight ≤ n → n < 2 ^ 32 →
    utxoDb'[prefixUndo :: packBE 4 n]? = utxoDb[prefixUndo :: packBE 4 n]?
  subset : ∀ k v : Bytes, utxoDb'[k]? = some v → utxoDb[k]? = some v

/-- `clear_excess_undo_info` drops undo rows below the height to keep. -/
theorem clearExcessUndoInfo_eq (env : Env) (db : DB)
    (hkeys : ∀ k v, db.utxoDb[prefixUndo :: k]? = some v → k.length = 4) :
    ∃ utxoDb journal rawBlocks, db.clearExcessUndoInfo env =
        .ok { db with utxoDb := utxoDb, journal := journal, rawBlocks := rawBlocks } ∧
      PrunedBelow (DB.minUndoHeight env db.dbHeight) db.utxoDb utxoDb := by
  obtain ⟨keys, hk, hm⟩ := staleUndoKeys_eq (DB.minUndoHeight env db.dbHeight)
    (db.utxoDb.iterator [prefixUndo]) fun e he ↦ by
      obtain ⟨hv, k, hk⟩ := Table.mem_iterator.mp he
      have hk' : e.1 = prefixUndo :: k := hk.symm
      exact ⟨k, hkeys k e.2 (hk' ▸ hv), hk'⟩
  refine ⟨db.utxoDb.write (keys.map .delete), if keys = [] then db.journal
    else db.journal ++ [.utxoBatch (db.utxoDb.write (keys.map .delete))],
    db.rawBlocks.filter fun height _ ↦ height ≥ DB.minUndoHeight env db.dbHeight, ?_, ?_⟩
  · rw [DB.clearExcessUndoInfo]
    simp only [hk, bind, Except.bind, pure, Except.pure]
    split
    · next he => rw [he]; rfl
    · rfl
  · refine ⟨fun k hne ↦ ?_, fun n hmin hn ↦ ?_, fun k v hkv ↦ ?_⟩
    · rw [Table.getElem?_write_deletes, if_neg]
      intro hmem
      obtain ⟨n, -, -, rfl⟩ := hm k hmem
      exact hne _ rfl
    · rw [Table.getElem?_write_deletes, if_neg]
      intro hmem
      obtain ⟨m, hlt, hm4, he⟩ := hm _ hmem
      have := (packBE_inj (w := 4) (by simpa using hn) hm4).mp (List.cons.inj he).2
      omega
    · rw [Table.getElem?_write_deletes] at hkv
      split at hkv
      · cases hkv
      · exact hkv

/-- `_read_tx_counts` reads the running totals of the recorded chain. -/
theorem readTxCounts_eq {db : DB} (hv : ValidChain env.coin recorded)
    (hfiles : FilesHold env db.disk recorded) (hnone : db.txCounts = none)
    (hheight : db.dbHeight + 1 = recorded.length) (hcount : db.dbTxCount = txCount recorded) :
    db.readTxCounts = .ok { db with txCounts := some (counts recorded) } := by
  have hsize : ((db.dbHeight + 1) * 8).toNat = ((counts recorded).flatMap (packLE 8)).length := by
    rw [length_packed_items, length_counts]
    omega
  have hread : FlatFile.read db.txCountsFile 0 ((db.dbHeight + 1) * 8).toNat =
      (counts recorded).flatMap (packLE 8) := by
    rw [hsize]
    exact FlatFile.read_all hfiles.txCounts
  have hlt : ∀ n ∈ counts recorded, n < 2 ^ 64 := by
    intro n hn
    have := le_of_mem_counts hn
    have := hv.txCount
    omega
  rw [DB.readTxCounts, hnone]
  simp only [Option.isSome_none, Bool.false_eq_true, if_false, hread]
  rw [assertThat_of (by rw [length_packed_items, length_counts]; omega), arrayQ_flatMap hlt]
  simp only [bind, Except.bind]
  rw [assertThat_of (by rw [getLast?_counts, hcount])]
  rfl

theorem UtxoRep.congr {P : List (OutPoint × Utxo)} {utxoDb utxoDb' cache : Table}
    {deletes : List Bytes} {base view : OutPoint → Option Utxo}
    (h : UtxoRep P utxoDb cache deletes base view)
    (hh : ∀ k, utxoDb'[prefixH :: k]? = utxoDb[prefixH :: k]?)
    (hu : ∀ k, utxoDb'[prefixU :: k]? = utxoDb[prefixU :: k]?) :
    UtxoRep P utxoDb' cache deletes base view :=
  { h with
    hRow := fun k v ↦ by rw [hh, h.hRow]
    uRow := fun k v ↦ by rw [hu, h.uRow] }

/-- The databases open as an index of the recorded chain. -/
theorem Recoverable.open (h : Recoverable env disk flushCount historyCount rows recorded) :
    ∃ s, BlockProcessor.firstOpenDbs env disk = .ok s ∧
      Indexed env s recorded recorded recorded ∧ s.db.journal = [] ∧
      PrunedBelow (DB.minUndoHeight env (recorded.length - 1)) disk.utxo s.db.utxoDb ∧
      HistoryRows s.db.history.db (dropRows rows flushCount) ∧
      s.db.history.flushCount = flushCount ∧ s.db.utxoFlushCount = flushCount := by
  have hload : (DB.load env {} disk).utxoDb = disk.utxo := by
    unfold DB.load
    split <;> rfl
  have hblank : (DB.load env {} disk).history = { db := ∅ } ∧
      (DB.load env {} disk).txCounts = none := by
    unfold DB.load
    split <;> exact ⟨rfl, rfl⟩
  obtain ⟨firstSync, hread, hstate⟩ := h.readUtxoState hload
  obtain ⟨hist, hopen, hrows, hcount, hunfl, hver, hheld⟩ := h.openHistory
  set db1 : DB := { DB.load env {} disk with
    dbHeight := recorded.length - 1
    dbTxCount := txCount recorded
    dbTip := tip env.coin recorded
    dbVersion := latestDbVersion
    utxoFlushCount := flushCount
    firstSync := firstSync
    fsHeight := recorded.length - 1
    fsTxCount := txCount recorded } with hdb1
  set db2 : DB := { db1 with history := hist, utxoFlushCount := hist.flushCount } with hdb2
  have hutxo2 : db2.utxoDb = disk.utxo := hload
  obtain ⟨utxoDb, journal, rawBlocks, hclear, hpruned⟩ :=
    clearExcessUndoInfo_eq env db2 fun k v hk ↦ h.undoKeys k v (hutxo2 ▸ hk)
  set db3 : DB := { db2 with utxoDb := utxoDb, journal := journal, rawBlocks := rawBlocks }
    with hdb3
  have hfiles3 : FilesHold env db3.disk recorded :=
    ⟨h.files.headers, h.files.offsets, h.files.txCounts, h.files.hashes⟩
  have hcounts := readTxCounts_eq h.valid hfiles3 hblank.2
    (by change (recorded.length : Int) - 1 + 1 = _; omega) rfl
  set db4 : DB := { db3 with txCounts := some (counts recorded), journal := [] } with hdb4
  rw [hutxo2] at hpruned
  have hpruned' : PrunedBelow (DB.minUndoHeight env (recorded.length - 1)) disk.utxo utxoDb :=
    hpruned
  refine ⟨{ db := db4, height := db4.dbHeight, tip := db4.dbTip, txCount := db4.dbTxCount },
    ?_, ?_, rfl, hpruned', hrows, hcount, hcount⟩
  · rw [BlockProcessor.firstOpenDbs, DB.openForSync, DB.openDbs]
    have hopen' : db1.history.openDb env.historyCodec disk.history db1.utxoFlushCount false = _ :=
      hblank.1 ▸ hopen
    have hclear' : DB.clearExcessUndoInfo env
        { db1 with history := hist, utxoFlushCount := hist.flushCount } = .ok db3 := hclear
    simp only [hread, hopen', hclear', hcounts, bind, Except.bind, pure, Except.pure]
    rfl
  · have hother (c : UInt8) (hc : c ≠ prefixUndo) (k : Bytes) :
        utxoDb[c :: k]? = disk.utxo[c :: k]? :=
      hpruned'.others _ fun t he ↦ hc (List.cons.inj he).1
    have hcard : (recorded.length : Int) - 1 + 1 = recorded.length := Int.sub_add_cancel _ _
    exact
      { valid := h.valid
        recorded_prefix := List.prefix_rfl
        stored_prefix := List.prefix_rfl
        db :=
          { dbHeight := hcard
            dbTxCount := rfl
            dbTip := rfl
            dbVersion := rfl
            utxoState := by
              change utxoDb[utxoStateKey]? = some _ ∨ utxoDb[utxoStateKey]? = none ∧ _
              have hsame : utxoDb[utxoStateKey]? = disk.utxo[utxoStateKey]? := hother 0x73 (by decide) _
              rw [hsame]
              rcases hstate with hs | ⟨hs, rfl, rfl, rfl⟩
              · rw [← hcount] at hs
                exact .inl hs
              · exact .inr ⟨hs, rfl, rfl, hcount, rfl⟩
            undoKeys := fun k v hk ↦ h.undoKeys k v (hpruned'.subset _ _ hk)
            fsHeight := hcard
            fsTxCount := rfl
            files := hfiles3 }
        history := by
          refine ⟨dropRows rows flushCount, fun _ ↦ [],
            { table := hrows
              upTo := ?_
              unflushed := ?_
              recordedRows := fun hashX ↦ ?_
              storedRows := h.recordedRows
              chainRows := fun hashX ↦ by rw [List.append_nil, h.recordedRows]
              flushCount_le := Nat.le_refl _
              version := hver
              state := hheld }⟩
          · change RowsUpTo _ hist.flushCount
            rw [hcount]
            exact rowsUpTo_dropRows _ _
          · change Unflushed hist.unflushed _
            rw [hunfl]
            exact Unflushed.empty
          · change numbers (dropRows _ hist.flushCount) hashX = _
            rw [hcount, dropRows_eq_self (rowsUpTo_dropRows _ _), h.recordedRows]
        utxo := h.utxo.congr (hother _ (by decide)) (hother _ (by decide))
        counts_eq := rfl
        txCount_eq := rfl
        txHashes_eq := by rw [List.drop_length]; rfl
        touched := fun x hx ↦ by simp at hx
        undoHeights := fun u hu ↦ by cases hu
        height_eq := hcard
        tip_eq := rfl
        headers_eq := by rw [List.drop_length]; rfl }

end Opening

private theorem clearExcessUndoInfo_history {env : Env} {db db' : DB}
    (h : db.clearExcessUndoInfo env = .ok db') (hist : History) :
    DB.clearExcessUndoInfo env { db with history := hist } =
      .ok { db' with history := hist } := by
  obtain ⟨keys, hk, h⟩ := bind_eq_ok.mp h
  have hk' : DB.staleUndoKeys (DB.minUndoHeight env ({ db with history := hist } : DB).dbHeight)
      (({ db with history := hist } : DB).utxoDb.iterator [prefixUndo]) = .ok keys := hk
  rw [DB.clearExcessUndoInfo, hk']
  dsimp only [bind, Except.bind, pure, Except.pure] at h ⊢
  cases h
  by_cases h0 : keys = []
  · rw [if_pos h0, if_pos h0]
  · rw [if_neg h0, if_neg h0]
    rfl

private theorem readTxCounts_history {db db' : DB} (h : db.readTxCounts = .ok db')
    (hist : History) :
    DB.readTxCounts { db with history := hist } = .ok { db' with history := hist } := by
  rw [DB.readTxCounts] at h ⊢
  dsimp only at h ⊢
  by_cases hs : db.txCounts.isSome = true
  · rw [if_pos hs] at h ⊢
    cases h
    rfl
  · rw [if_neg hs] at h ⊢
    obtain ⟨_, h1, h⟩ := bind_eq_ok.mp h
    obtain ⟨cs, h2, h⟩ := bind_eq_ok.mp h
    obtain ⟨_, h3, h⟩ := bind_eq_ok.mp h
    cases h
    rw [h1]
    dsimp only [bind, Except.bind]
    rw [h2]
    dsimp only
    rw [h3]
    rfl

/-- The history DB that is opened has no effect on the rest of the DB. -/
theorem openDbs_history {env : Env} {disk : Disk} {r : DB}
    (h : DB.openDbs env {} disk false = .ok r) {t : Table} {hist : History} {compacting : Bool}
    (hopen : ∀ db, (DB.load env {} disk).readUtxoState env = .ok db →
      db.history.openDb env.historyCodec t db.utxoFlushCount compacting = .ok hist)
    (hcount : hist.flushCount = r.history.flushCount) :
    DB.openDbs env {} { disk with history := t } compacting = .ok { r with history := hist } := by
  obtain ⟨db1, hread, h⟩ := bind_eq_ok.mp h
  obtain ⟨hist1, hopen1, h⟩ := bind_eq_ok.mp h
  obtain ⟨db3, hclear, h⟩ := bind_eq_ok.mp h
  obtain ⟨db4, hcounts, h⟩ := bind_eq_ok.mp h
  cases h
  have h3 : db3 = { db3 with history := hist1 } :=
    Except.ok.inj (hclear.symm.trans (clearExcessUndoInfo_history hclear hist1))
  have hcounts' : db3.readTxCounts = .ok { db4 with history := hist1 } := by
    have hc := readTxCounts_history hcounts hist1
    rwa [← h3] at hc
  have h4 : db4.history = hist1 :=
    congrArg DB.history (Except.ok.inj (hcounts.symm.trans hcounts'))
  have hcount' : hist.flushCount = hist1.flushCount := by
    rw [← h4]
    exact hcount
  have hload : (DB.load env {} { disk with history := t }).readUtxoState env = .ok db1 := hread
  have hclear' : DB.clearExcessUndoInfo env
      { db1 with history := hist, utxoFlushCount := hist.flushCount } =
        .ok { db3 with history := hist } := by
    rw [hcount']
    exact clearExcessUndoInfo_history hclear hist
  rw [DB.openDbs]
  simp only [hload, hopen db1 hread, hclear', readTxCounts_history hcounts hist, bind, Except.bind,
    pure, Except.pure]

/-- The history DB that is opened has no effect on the rest of the processor. -/
theorem firstOpenDbs_history {env : Env} {disk : Disk} {r : BlockProcessor}
    (h : BlockProcessor.firstOpenDbs env disk = .ok r) {t : Table} {hist : History}
    (hopen : ∀ db, (DB.load env {} disk).readUtxoState env = .ok db →
      db.history.openDb env.historyCodec t db.utxoFlushCount false = .ok hist)
    (hcount : hist.flushCount = r.db.history.flushCount) :
    BlockProcessor.firstOpenDbs env { disk with history := t } =
      .ok { r with db := { r.db with history := hist } } := by
  obtain ⟨db, h1, h⟩ := bind_eq_ok.mp h
  cases h
  rw [BlockProcessor.firstOpenDbs, DB.openForSync, openDbs_history h1 hopen hcount]
  rfl

/-- A new disk records the empty chain. -/
theorem Recoverable.fresh (env : Env) :
    Recoverable env { created := false } 0 0 (fun _ _ ↦ []) [] := by
  have hlookup (k : Bytes) : (∅ : Table)[k]? = none := Std.ExtTreeMap.getElem?_empty
  have hempty : unspent env.coin [] = fun _ ↦ none := rfl
  refine
    { valid := ValidChain.nil
      files := ?_
      utxo := ?_
      undoKeys := fun k v hk ↦ by cases (hlookup _).symm.trans hk
      utxoState := .inr ⟨hlookup _, rfl, rfl⟩
      table := ?_
      upTo := fun _ _ _ ↦ rfl
      recordedRows := fun hashX ↦ ?_
      flushCount_le := Nat.le_refl _
      historyState := .inr ⟨hlookup _, rfl⟩ }
  · refine ⟨List.nil_prefix, fun hs ↦ ?_, List.nil_prefix, List.nil_prefix⟩
    have hzeros : (offsets []).flatMap (packLE 8) = List.replicate 8 0 := rfl
    rw [DB.load, hs, hzeros]
    exact List.prefix_rfl
  · rw [hempty]
    exact
      { base_mem := by simp
        view_mem := by simp
        hRow := fun k v ↦ by simp
        uRow := fun k v ↦ by simp
        cached := fun k v ↦ by simp
        pending := fun k ↦ by simp }
  · refine ⟨fun _ _ _ ↦ hlookup _, fun k v hk ↦ ?_, fun _ _ n hn ↦ ?_⟩
    · cases (hlookup k).symm.trans hk
    · cases hn
  · rw [dropRows_eq_self fun _ _ _ ↦ rfl, numbers]
    simp [touching, txCount, txs]

end ElectrumX.Index
