import ElectrumX.Index.Crash

/-!
# Crashes in a flush

A flush writes the files, commits the history batch and then the batch of the UTXO DB, twice
its state record. Until the first of the UTXO batches the disk still records the chain of the
last flush of the UTXOs: the files only grew behind it, and the rows of later history flushes
have larger flush ids. From then on the disk is that of the finished flush.
-/

namespace ElectrumX.Index
open ElectrumX.Base ElectrumX.Lib ElectrumX.Chain ElectrumX.Server

/-! ### The points of a flush -/

/-- The DB at the points between the steps of `flush_dbs`, `db.py:228–269`. -/
inductive FlushPoint (env : Env) (s : BlockProcessor) (flushUtxos : Bool) : DB → Prop
  | start : FlushPoint env s flushUtxos s.db
  | files {fd : FlushData} {db : DB} (hne : s.height ≠ s.db.dbHeight)
      (hf : s.db.flushFs env s.flushData = .ok (fd, db)) : FlushPoint env s flushUtxos db
  | history {fd : FlushData} {db db' : DB} (hne : s.height ≠ s.db.dbHeight)
      (hf : s.db.flushFs env s.flushData = .ok (fd, db)) (hh : db.flushHistory env = .ok db') :
      FlushPoint env s flushUtxos db'
  | done {s' : BlockProcessor} (h : s.flush env flushUtxos = .ok s') :
      FlushPoint env s flushUtxos s'.db

/-- The history table once a flush has committed its rows. -/
structure HistoryFlushed (env : Env) (s : BlockProcessor) (recorded stored chain : List Block)
    (rows : HashX → Nat → List Nat) (pend : HashX → List Nat) (hdb : Table) : Prop where
  before : HistoryHolds env s.db.history s.db.utxoFlushCount rows pend recorded stored chain
  flushCount_lt : s.db.history.flushCount + 1 < flushIds
  after : HistoryRows hdb (addRows rows (s.db.history.flushCount + 1) pend)
  state : ∃ record, hdb[History.stateKey]? = some (env.historyCodec.repr record) ∧
    record.flushCount = s.db.history.flushCount + 1 ∧
    record.dbVersion = some History.latestVersion

section Points

variable {env : Env} {s : BlockProcessor} {recorded stored rest : List Block}

/-- What a flush puts in the journal, and what lies on disk after these writes. -/
theorem journal_flushedDb (env : Env) (s : BlockProcessor) (stored rest : List Block)
    (hdb : Table) (flushUtxos : Bool) :
    ∃ t, (flushedDb env s stored rest hdb flushUtxos).journal = s.db.journal ++
        (fsWrites env stored rest ++ [.historyBatch hdb, .utxoBatch t, .utxoBatch t]) ∧
      (flushedDb env s stored rest hdb flushUtxos).disk =
        { (afterFs env s.db stored rest).disk with history := hdb, utxo := t } := by
  have hw : ∃ ops : List BatchOp, ∃ v : Bytes,
      (flushedDb env s stored rest hdb flushUtxos).journal = s.db.journal ++
        fsWrites env stored rest ++ [.historyBatch hdb] ++
        [.utxoBatch (s.db.utxoDb.write (ops ++ [.put utxoStateKey v]))] ++
        [.utxoBatch ((s.db.utxoDb.write (ops ++ [.put utxoStateKey v])).write
          [.put utxoStateKey v])] ∧
      (flushedDb env s stored rest hdb flushUtxos).disk =
        { (afterFs env s.db stored rest).disk with
          history := hdb
          utxo := (s.db.utxoDb.write (ops ++ [.put utxoStateKey v])).write
            [.put utxoStateKey v] } := by
    cases flushUtxos with
    | true => exact ⟨flushOps s, _, rfl, rfl⟩
    | false => exact ⟨[], _, rfl, rfl⟩
  obtain ⟨ops, v, hj, hd⟩ := hw
  rw [Table.write_put_again] at hj hd
  refine ⟨_, ?_, hd⟩
  rw [hj]
  simp only [List.append_assoc, List.cons_append, List.nil_append]

/-- What a flush that is not at the recorded height does to the disk. -/
structure Written (env : Env) (s s' : BlockProcessor) (recorded stored rest : List Block)
    (rows : HashX → Nat → List Nat) (pend : HashX → List Nat) (hdb t : Table) : Prop
    extends HistoryFlushed env s recorded stored (stored ++ rest) rows pend hdb where
  journal : s'.db.journal = s.db.journal ++
    (fsWrites env stored rest ++ [.historyBatch hdb, .utxoBatch t, .utxoBatch t])
  disk : s'.db.disk = { (afterFs env s.db stored rest).disk with history := hdb, utxo := t }

/-- A flush either does nothing or all of it. -/
theorem Indexed.flush_written (h : Indexed env s recorded stored (stored ++ rest))
    {flushUtxos : Bool} {s' : BlockProcessor} (hf : s.flush env flushUtxos = .ok s') :
    (recorded = stored ++ rest ∧ s' = s) ∨ ∃ rows pend hdb t,
      Written env s s' recorded stored rest rows pend hdb t ∧ (flushUtxos = false →
        s'.db.utxoFlushCount = s.db.utxoFlushCount ∧
        ∀ k ≠ utxoStateKey, t[k]? = s.db.utxoDb[k]?) ∧ (flushUtxos = true →
        s'.db.utxoFlushCount = s'.db.history.flushCount) := by
  rcases h.flush_cases hf with ⟨rfl, rfl, rfl⟩ | ⟨rows, pend, hdb, hold, rfl, hid, -, hrows, hrec⟩
  · exact .inl ⟨rfl, rfl⟩
  · obtain ⟨t, hj, hd⟩ := journal_flushedDb env s stored rest hdb flushUtxos
    have ht : (flushedDb env s stored rest hdb flushUtxos).utxoDb = t := congrArg Disk.utxo hd
    refine .inr ⟨rows, pend, hdb, t, ?_, ?_, ?_⟩
    · cases flushUtxos <;> exact ⟨⟨hold, hid, hrows, hrec⟩, hj, hd⟩
    · rintro rfl
      exact ⟨rfl, fun k hk ↦ ht ▸ getElem?_flushedDb_false env s stored rest hdb hk⟩
    · rintro rfl
      rfl

/-- At a point of a flush the journal has the file writes, at most, or those and the history
batch, or all of the flush. -/
theorem FlushPoint.cases (h : Indexed env s recorded stored (stored ++ rest)) {flushUtxos : Bool}
    {db : DB} (hp : FlushPoint env s flushUtxos db) :
    db.journal <+: s.db.journal ++ fsWrites env stored rest ∨
    (∃ rows pend hdb, HistoryFlushed env s recorded stored (stored ++ rest) rows pend hdb ∧
      db.journal = s.db.journal ++ (fsWrites env stored rest ++ [.historyBatch hdb])) ∨
    ∃ s' rows pend hdb t, s.flush env flushUtxos = .ok s' ∧
      Written env s s' recorded stored rest rows pend hdb t ∧ db = s'.db := by
  cases hp with
  | start => exact .inl (List.prefix_append _ _)
  | files hne hf =>
    cases h.flushFs_eq.symm.trans hf
    exact .inl List.prefix_rfl
  | history hne hf hh =>
    cases h.flushFs_eq.symm.trans hf
    obtain ⟨hist, hfl, he⟩ := bind_eq_ok.mp hh
    cases he
    have hfl' : s.db.history.flush env.historyCodec = .ok hist := hfl
    have hid := flushCount_lt_of_flush hfl'
    obtain ⟨rows, pend, hold⟩ := h.history
    obtain ⟨hdb, hfl'', hrows, hstate⟩ :=
      hold.table.flush env.historyCodec hold.unflushed hold.upTo hid
    cases hfl''.symm.trans hfl'
    exact .inr (.inl ⟨rows, pend, hdb, ⟨hold, hid, hrows, _, hstate, rfl,
      congrArg some hold.version⟩, List.append_assoc ..⟩)
  | done hd =>
    rcases h.flush_written hd with ⟨-, rfl⟩ | ⟨rows, pend, hdb, t, hw, -⟩
    · exact .inl (List.prefix_append _ _)
    · exact .inr (.inr ⟨_, rows, pend, hdb, t, hd, hw, rfl⟩)

/-- The new rows leave those of earlier flushes alone. -/
theorem HistoryFlushed.row {chain : List Block} {rows : HashX → Nat → List Nat}
    {pend : HashX → List Nat} {hdb : Table}
    (h : HistoryFlushed env s recorded stored chain rows pend hdb) {hashX : HashX} {id : Nat}
    (hle : id ≤ s.db.utxoFlushCount) (hid : id < flushIds) :
    hdb[rowKey hashX id]? = s.db.history.db[rowKey hashX id]? := by
  have hc := h.before.flushCount_le
  rw [h.after.row hashX id hid, h.before.table.row hashX id hid, addRows,
    Function.update_of_ne (by omega)]

end Points
/-! ### Reopening -/

/-- The representation without what is pending. -/
theorem UtxoRep.atBase {P P' : List (OutPoint × Utxo)} {utxoDb utxoCache : Table}
    {dbDeletes : List Bytes} {base view : OutPoint → Option Utxo}
    (h : UtxoRep P utxoDb utxoCache dbDeletes base view)
    (hb : ∀ op u, base op = some u → (op, u) ∈ P') : UtxoRep P' utxoDb ∅ [] base base where
  base_mem := hb
  view_mem := hb
  hRow := h.hRow
  uRow := h.uRow
  cached k v := by
    constructor
    · intro hk
      cases Std.ExtTreeMap.getElem?_empty.symm.trans hk
    · rintro ⟨op, u, h1, h2, -⟩
      cases h2.symm.trans h1
  pending k := by
    constructor
    · intro hk
      cases hk
    · rintro ⟨op, u, h1, h2, -⟩
      cases h2.symm.trans h1

section Reopening

variable {env : Env} {s : BlockProcessor} {recorded stored chain : List Block} {disk : Disk}
variable {rows : HashX → Nat → List Nat} {historyCount : Nat}

/-- A disk with the UTXO DB of an indexed processor, the data of the stored chain in its files
and at least the recorded rows in its history table is recoverable. -/
theorem Indexed.recoverable (h : Indexed env s recorded stored chain)
    (hcreated : disk.created = true) (hfiles : FilesHold env disk stored)
    (hutxo : disk.utxo = s.db.utxoDb) (hrows : HistoryRows disk.history rows)
    (hup : RowsUpTo rows historyCount)
    (hnum : ∀ hashX, numbers (dropRows rows s.db.utxoFlushCount) hashX =
      touching env.coin recorded hashX)
    (hle : s.db.utxoFlushCount ≤ historyCount)
    (hstate : (∃ record, disk.history[History.stateKey]? =
        some (env.historyCodec.repr record) ∧ record.flushCount = historyCount ∧
        record.dbVersion = some History.latestVersion) ∨
      disk.history[History.stateKey]? = none ∧ historyCount = 0) :
    Recoverable env disk s.db.utxoFlushCount historyCount rows recorded := by
  have hv : ValidChain env.coin recorded := by
    obtain ⟨_, hr⟩ := h.recorded_prefix.trans h.stored_prefix
    exact (hr ▸ h.valid).left
  have hheight : s.db.dbHeight = recorded.length - 1 := by
    have := h.db.dbHeight
    omega
  refine
    { valid := hv
      files := ?_
      utxo := ?_
      undoKeys := fun k v hk ↦ h.db.undoKeys k v (hutxo ▸ hk)
      utxoState := ?_
      table := hrows
      upTo := hup
      recordedRows := hnum
      flushCount_le := hle
      historyState := hstate }
  · obtain ⟨more, rfl⟩ := h.recorded_prefix
    obtain ⟨h1, h2, h3, h4⟩ := hfiles.left
    rw [DB.load, hcreated]
    exact ⟨h1, h2, h3, h4⟩
  · rw [hutxo]
    exact h.utxo.atBase fun op u hu ↦ ((Ledger.live_eq_some_iff hv.ledger).mp hu).1
  · rw [hutxo]
    rcases h.db.utxoState with hs | ⟨hs, h1, -, h2, -⟩
    · rw [hheight, h.db.dbTxCount, h.db.dbTip, h.db.dbVersion] at hs
      exact .inl ⟨_, hs⟩
    · refine .inr ⟨hs, List.eq_nil_of_length_eq_zero ?_, h2⟩
      omega

/-- What reopening a disk gives back of a state. -/
structure Reopened (env : Env) (disk : Disk) (s r : BlockProcessor) : Prop where
  agree : Agree env s r
  utxo : ∀ k ≠ utxoStateKey, disk.utxo[k]? = s.db.utxoDb[k]?
  pruned : PrunedBelow (DB.minUndoHeight env s.db.dbHeight) disk.utxo r.db.utxoDb
  history : ∀ k ≠ History.stateKey, r.db.history.db[k]? = s.db.history.db[k]?
  utxoFlushCount : r.db.utxoFlushCount = s.db.utxoFlushCount
  flushCount : r.db.history.flushCount = s.db.history.flushCount

/-- The history rows up to the flush count of the UTXO DB and the UTXO DB, the state records
aside, are those of a snapshot. -/
structure Keeps (snap : BlockProcessor) (utxo history : Table) : Prop where
  utxo : ∀ k ≠ utxoStateKey, utxo[k]? = snap.db.utxoDb[k]?
  rows : ∀ hashX id, id ≤ snap.db.utxoFlushCount → id < flushIds →
    history[rowKey hashX id]? = snap.db.history.db[rowKey hashX id]?

/-- A recoverable disk that keeps a snapshot opens as the snapshot. -/
theorem Recoverable.reopened {snap : BlockProcessor} {c : List Block}
    (h : Recoverable env disk snap.db.utxoFlushCount historyCount rows c)
    (hs : Indexed env snap c c c) (hcount : snap.db.utxoFlushCount = snap.db.history.flushCount)
    (hk : Keeps snap disk.utxo disk.history) :
    ∃ r, BlockProcessor.firstOpenDbs env disk = .ok r ∧ Indexed env r c c c ∧
      Reopened env disk snap r := by
  obtain ⟨r, hr, hi, -, hpruned, hrows, hc, huc⟩ := h.open
  have hheight : (c.length : Int) - 1 = snap.db.dbHeight := by
    have := hs.db.dbHeight
    omega
  obtain ⟨rows', pend, hist⟩ := hs.history
  -- Both tables have the rows of the snapshot.
  have hrows' : HistoryRows r.db.history.db rows' := by
    refine ⟨fun hashX id hid ↦ ?_, hrows.shape, hist.table.num_lt⟩
    rw [← hist.table.row hashX id hid, hrows.row hashX id hid]
    by_cases hle : id ≤ snap.db.utxoFlushCount
    · rw [← hk.rows hashX id hle hid, h.table.row hashX id hid, dropRows, if_neg (by omega)]
    · rw [dropRows, if_pos (by omega), hist.table.row hashX id hid,
        hist.upTo hashX id (by omega)]
  exact ⟨r, hr, hi, hs.agree hi, hk.utxo, hheight ▸ hpruned,
    fun k hne ↦ hrows'.ext hist.table hne, huc, hc.trans hcount⟩

/-- The rows above a flush count hold no number below `n`. -/
def LaterRows (rows : HashX → Nat → List Nat) (flushCount n : Nat) : Prop :=
  ∀ hashX id, id < flushIds → flushCount < id → ∀ m ∈ rows hashX id, n ≤ m

/-- When the rows up to a flush count are those of the recorded chain, the others hold later
numbers, since the numbers of all rows increase. -/
theorem laterRows_of_recorded {recorded : List Block} {flushCount : Nat}
    (hv : ValidChain env.coin chain) (hp : recorded <+: chain)
    (hrec : ∀ hashX, numbers (dropRows rows flushCount) hashX = touching env.coin recorded hashX)
    (hall : ∀ hashX, numbers rows hashX = touching env.coin chain hashX) :
    LaterRows rows flushCount (txCount recorded) := by
  obtain ⟨rest, rfl⟩ := hp
  intro hashX id hid hlt n hn
  by_contra hcon
  have hmem : n ∈ touching env.coin (recorded ++ rest) hashX := by
    rw [← hall, numbers, List.mem_flatMap]
    exact ⟨id, List.mem_range.mpr hid, hn⟩
  -- A number of the recorded chain is in a row of its own as well.
  have hold : n ∈ numbers (dropRows rows flushCount) hashX := by
    rw [hrec, ← touching_filter hv.left.ledger.closed, List.mem_filter, decide_eq_true_iff]
    exact ⟨hmem, Nat.lt_of_not_le hcon⟩
  obtain ⟨id', hid', hn'⟩ := List.mem_flatMap.mp hold
  rw [dropRows] at hn'
  split at hn'
  · cases hn'
  · have hpair : (touching env.coin (recorded ++ rest) hashX).Pairwise (· < ·) :=
      touching_pairwise _ hashX
    rw [← hall, numbers, List.pairwise_flatMap] at hpair
    have hrow := List.pairwise_iff_getElem.mp hpair.2 id' id
      (by simpa using List.mem_range.mp hid') (by simpa using hid) (by omega)
    rw [List.getElem_range, List.getElem_range] at hrow
    exact Nat.lt_irrefl n (hrow n hn' n hn)

/-- A disk records the chain of a snapshot and keeps its rows; what its history table has beyond
them is of later blocks. -/
structure Retains (env : Env) (disk : Disk) (snap : BlockProcessor) (chain : List Block) :
    Prop where
  recoverable : ∃ rows historyCount, Recoverable env disk snap.db.utxoFlushCount historyCount
    rows chain ∧ LaterRows rows snap.db.utxoFlushCount (txCount chain)
  keeps : Keeps snap disk.utxo disk.history

end Reopening

/-! ### Runs of flushes -/

/-- The states of a run of batches and flushes from `s₀`, each with the state that the last flush
of the UTXOs left. -/
inductive FlushRun (env : Env) (s₀ : BlockProcessor) (chain₀ : List Block) :
    BlockProcessor → List Block → BlockProcessor → List Block → Prop
  | start : FlushRun env s₀ chain₀ s₀ chain₀ s₀ chain₀
  | advanced {snap s s' : BlockProcessor} {snapChain chain blocks : List Block}
      (cachedHeight : Int) (r : FlushRun env s₀ chain₀ snap snapChain s chain)
      (hv : ValidChain env.coin (chain ++ blocks))
      (h : s.advanceBlocks env cachedHeight blocks = .ok s') :
      FlushRun env s₀ chain₀ snap snapChain s' (chain ++ blocks)
  | historyFlushed {snap s s' : BlockProcessor} {snapChain chain : List Block}
      (r : FlushRun env s₀ chain₀ snap snapChain s chain) (h : s.flush env false = .ok s') :
      FlushRun env s₀ chain₀ snap snapChain s' chain
  | utxosFlushed {snap s s' : BlockProcessor} {snapChain chain : List Block}
      (r : FlushRun env s₀ chain₀ snap snapChain s chain) (h : s.flush env true = .ok s') :
      FlushRun env s₀ chain₀ s' chain s' chain

/-- What a run has done since the last flush of the UTXOs. -/
structure Behind (env : Env) (s₀ snap : BlockProcessor) (snapChain : List Block)
    (s : BlockProcessor) (chain : List Block) : Prop where
  snapIndexed : Indexed env snap snapChain snapChain snapChain
  flushCounts : snap.db.utxoFlushCount = snap.db.history.flushCount
  indexed : ∃ stored, Indexed env s snapChain stored chain
  utxoFlushCount : s.db.utxoFlushCount = snap.db.utxoFlushCount
  unadvanced : chain = snapChain → s.db.utxoFlushCount = s.db.history.flushCount
  keeps : Keeps snap s.db.utxoDb s.db.history.db
  written : ∃ ws, s.db.journal = s₀.db.journal ++ ws ∧
    s.db.disk = ws.foldl applyWrite s₀.db.disk ∧ ∀ w ∈ ws.getLast?, isBatch w = true

section Runs

variable {env : Env} {s₀ snap s s' : BlockProcessor} {chain₀ snapChain chain : List Block}

/-- The writes of a flush extend those of the run. -/
private theorem written_flush {recorded stored rest : List Block} {rows : HashX → Nat → List Nat}
    {pend : HashX → List Nat} {hdb t : Table}
    (hw : Written env s s' recorded stored rest rows pend hdb t)
    (h : ∃ ws, s.db.journal = s₀.db.journal ++ ws ∧ s.db.disk = ws.foldl applyWrite s₀.db.disk ∧
      ∀ w ∈ ws.getLast?, isBatch w = true) :
    ∃ ws, s'.db.journal = s₀.db.journal ++ ws ∧ s'.db.disk = ws.foldl applyWrite s₀.db.disk ∧
      ∀ w ∈ ws.getLast?, isBatch w = true := by
  obtain ⟨ws, hj, hd, -⟩ := h
  refine ⟨ws ++ (fsWrites env stored rest ++ [.historyBatch hdb, .utxoBatch t, .utxoBatch t]),
    ?_, ?_, ?_⟩
  · rw [hw.journal, hj, List.append_assoc]
  · rw [List.foldl_append, ← hd, List.foldl_append, applyWrites_fsWrites, hw.disk]
    rfl
  · intro w hm
    have he : w = .utxoBatch t := by
      simpa [List.getLast?_append] using hm.symm
    rw [he]
    rfl

/-- Advancing leaves the snapshot on disk. -/
theorem Behind.advanced (h : Behind env s₀ snap snapChain s chain) {blocks : List Block}
    (hv : ValidChain env.coin (chain ++ blocks)) {cachedHeight : Int}
    (hs : s.advanceBlocks env cachedHeight blocks = .ok s') :
    Behind env s₀ snap snapChain s' (chain ++ blocks) := by
  obtain ⟨stored, hi⟩ := h.indexed
  obtain ⟨s'', hs'', hi', hd, -⟩ := hi.advanceBlocks (ne_nil_of_advanceBlocks hs) hv cachedHeight
  cases hs''.symm.trans hs
  have hu : s'.db.utxoDb = s.db.utxoDb := congrArg Disk.utxo hd.disk
  have hh : s'.db.history.db = s.db.history.db := congrArg Disk.history hd.disk
  refine { h with
    indexed := ⟨stored, hi'⟩
    utxoFlushCount := hd.utxoFlushCount.trans h.utxoFlushCount
    unadvanced := fun he ↦ ?_
    keeps := ?_
    written := ?_ }
  · have h1 := (hi.recorded_prefix.trans hi.stored_prefix).length_le
    have h2 := List.length_pos_of_ne_nil (ne_nil_of_advanceBlocks hs)
    rw [← he, List.length_append] at h1
    omega
  · rw [hu, hh]
    exact h.keeps
  · rw [hd.journal, hd.disk]
    exact h.written

/-- A flush of the history leaves the snapshot on disk. -/
theorem Behind.historyFlushed (h : Behind env s₀ snap snapChain s chain)
    (hs : s.flush env false = .ok s') : Behind env s₀ snap snapChain s' chain := by
  obtain ⟨stored, hi⟩ := h.indexed
  have hi' := hi.flush hs
  obtain ⟨rest, rfl⟩ := hi.stored_prefix
  rcases hi.flush_written hs with ⟨-, rfl⟩ | ⟨rows, pend, hdb, t, hw, hfalse, -⟩
  · exact h
  · obtain ⟨hcount, hutxo⟩ := hfalse rfl
    have hu : s'.db.utxoDb = t := congrArg Disk.utxo hw.disk
    have hh : s'.db.history.db = hdb := congrArg Disk.history hw.disk
    refine { h with
      indexed := ⟨_, hi'⟩
      utxoFlushCount := hcount.trans h.utxoFlushCount
      unadvanced := fun he ↦ ?_
      keeps := ⟨fun k hk ↦ ?_, fun hashX id hle hid ↦ ?_⟩
      written := written_flush hw h.written }
    · subst he
      have hstored : stored = stored ++ rest :=
        hi.stored_prefix.eq_of_length_le hi.recorded_prefix.length_le
      rw [← hstored] at hi
      cases (hi.flush_self false).symm.trans hs
      exact h.unadvanced rfl
    · rw [hu, hutxo k hk, h.keeps.utxo k hk]
    · rw [hh, hw.row (h.utxoFlushCount ▸ hle) hid, h.keeps.rows hashX id hle hid]

/-- A flush of the UTXOs is the new snapshot. -/
theorem Behind.utxosFlushed (h : Behind env s₀ snap snapChain s chain)
    (hs : s.flush env true = .ok s') : Behind env s₀ s' chain s' chain := by
  obtain ⟨stored, hi⟩ := h.indexed
  have hi' : Indexed env s' chain chain chain := hi.flush hs
  obtain ⟨rest, rfl⟩ := hi.stored_prefix
  have hself : Keeps s' s'.db.utxoDb s'.db.history.db := ⟨fun _ _ ↦ rfl, fun _ _ _ _ ↦ rfl⟩
  rcases hi.flush_written hs with ⟨rfl, rfl⟩ | ⟨rows, pend, hdb, t, hw, -, htrue⟩
  · exact ⟨hi', h.unadvanced rfl, ⟨_, hi'⟩, rfl, fun _ ↦ h.unadvanced rfl, hself, h.written⟩
  · exact ⟨hi', htrue rfl, ⟨_, hi'⟩, rfl, fun _ ↦ htrue rfl, hself, written_flush hw h.written⟩

/-- Throughout a run the snapshot lies on disk. -/
theorem FlushRun.behind (r : FlushRun env s₀ chain₀ snap snapChain s chain)
    (h₀ : Indexed env s₀ chain₀ chain₀ chain₀)
    (hcount : s₀.db.utxoFlushCount = s₀.db.history.flushCount) :
    Behind env s₀ snap snapChain s chain := by
  induction r with
  | start =>
    exact ⟨h₀, hcount, ⟨_, h₀⟩, rfl, fun _ ↦ hcount, ⟨fun _ _ ↦ rfl, fun _ _ _ _ ↦ rfl⟩, [],
      by simp, rfl, by simp⟩
  | advanced cachedHeight _ hv hs ih => exact ih.advanced hv hs
  | historyFlushed _ hs ih => exact ih.historyFlushed hs
  | utxosFlushed _ hs ih => exact ih.utxosFlushed hs

/-! ### Crashing -/

/-- The databases open as an index of a chain that gives back a state. -/
def Reopens (env : Env) (disk : Disk) (s : BlockProcessor) (chain : List Block) : Prop :=
  ∃ r, BlockProcessor.firstOpenDbs env disk = .ok r ∧ Indexed env r chain chain chain ∧
    Reopened env disk s r

variable {disk : Disk}

/-- The disk of a run records the snapshot, with whatever lies behind the data of the stored
chain in the files. -/
private theorem Behind.retains (h : Behind env s₀ snap snapChain s chain) {stored : List Block}
    (hi : Indexed env s snapChain stored chain) (hcreated : disk.created = true)
    (hutxo : disk.utxo = s.db.utxoDb) (hhist : disk.history = s.db.history.db)
    (hfiles : FilesHold env disk stored) : Retains env disk snap snapChain := by
  obtain ⟨rows, pend, hist⟩ := hi.history
  have hr := hi.recoverable hcreated hfiles hutxo (hhist ▸ hist.table) hist.upTo hist.recordedRows
    hist.flushCount_le (by rw [hhist]; exact hist.state)
  have hv : ValidChain env.coin stored := by
    obtain ⟨_, hr⟩ := hi.stored_prefix
    exact (hr ▸ hi.valid).left
  have hlater := laterRows_of_recorded hv hi.recorded_prefix hist.recordedRows hist.storedRows
  rw [h.utxoFlushCount] at hr hlater
  refine ⟨⟨_, _, hr, hlater⟩, ?_⟩
  rw [hutxo, hhist]
  exact h.keeps

/-- With the history batch of a flush on top the disk still records the snapshot. -/
private theorem Behind.retains_history (h : Behind env s₀ snap snapChain s chain)
    {stored : List Block} (hi : Indexed env s snapChain stored chain)
    {rows : HashX → Nat → List Nat} {pend : HashX → List Nat} {hdb : Table}
    (hh : HistoryFlushed env s snapChain stored chain rows pend hdb)
    (hcreated : disk.created = true) (hutxo : disk.utxo = s.db.utxoDb) (hhist : disk.history = hdb)
    (hfiles : FilesHold env disk stored) : Retains env disk snap snapChain := by
  have hle := hh.before.flushCount_le
  have hrec (hashX : HashX) : numbers (dropRows (addRows rows (s.db.history.flushCount + 1) pend)
      s.db.utxoFlushCount) hashX = touching env.coin snapChain hashX := by
    rw [dropRows_addRows (by omega), hh.before.recordedRows]
  have hall (hashX : HashX) : numbers (addRows rows (s.db.history.flushCount + 1) pend) hashX =
      touching env.coin chain hashX := by
    rw [numbers_addRows hh.before.upTo hh.flushCount_lt, hh.before.chainRows]
  have hr := hi.recoverable hcreated hfiles hutxo (hhist ▸ hh.after)
    (rowsUpTo_addRows hh.before.upTo) hrec (by omega) (.inl (by rw [hhist]; exact hh.state))
  have hlater := laterRows_of_recorded hi.valid (hi.recorded_prefix.trans hi.stored_prefix) hrec hall
  rw [h.utxoFlushCount] at hr hlater
  refine ⟨⟨_, _, hr, hlater⟩, ⟨fun k hk ↦ ?_, fun hashX id hid hlt ↦ ?_⟩⟩
  · rw [hutxo, h.keeps.utxo k hk]
  · rw [hhist, hh.row (h.utxoFlushCount ▸ hid) hlt, h.keeps.rows hashX id hid hlt]

/-- A disk that records a fully flushed state opens as that state. -/
theorem Retains.reopens (h : Retains env disk snap chain) (hs : Indexed env snap chain chain chain)
    (hcount : snap.db.utxoFlushCount = snap.db.history.flushCount) :
    Reopens env disk snap chain := by
  obtain ⟨_, _, hr, -⟩ := h.recoverable
  exact hr.reopened hs hcount h.keeps

/-- The state of the last flush of the UTXOs that is on disk when some writes of another flush
are: that of this flush as soon as a batch with its UTXOs is among them. -/
inductive LastFlush (env : Env) (snap : BlockProcessor) (snapChain : List Block)
    (s : BlockProcessor) (chain : List Block) (flushUtxos : Bool) (writes : List DiskWrite) :
    BlockProcessor → List Block → Prop
  | before (h : flushUtxos = true → ∀ t, DiskWrite.utxoBatch t ∉ writes) :
      LastFlush env snap snapChain s chain flushUtxos writes snap snapChain
  | committed {s' : BlockProcessor} {t : Table} (hu : flushUtxos = true)
      (hm : DiskWrite.utxoBatch t ∈ writes) (h : s.flush env true = .ok s') :
      LastFlush env snap snapChain s chain flushUtxos writes s' chain


variable {flushUtxos : Bool} {writes : List DiskWrite} {e : BlockProcessor} {ce : List Block}

private theorem LastFlush.eq_before
    (h : LastFlush env snap snapChain s chain flushUtxos writes e ce)
    (hn : ∀ t, DiskWrite.utxoBatch t ∉ writes) : e = snap ∧ ce = snapChain := by
  cases h with
  | before _ => exact ⟨rfl, rfl⟩
  | committed _ hm _ => exact absurd hm (hn _)

private theorem utxoBatch_notMem_fsWrites (stored rest : List Block) (t : Table) :
    DiskWrite.utxoBatch t ∉ fsWrites env stored rest := by
  intro hm
  cases isBatch_fsWrites hm

/-- The last flush of the UTXOs left a fully flushed state. -/
theorem Behind.last (h : Behind env s₀ snap snapChain s chain)
    (he : LastFlush env snap snapChain s chain flushUtxos writes e ce) :
    Indexed env e ce ce ce ∧ e.db.utxoFlushCount = e.db.history.flushCount := by
  cases he with
  | before _ => exact ⟨h.snapIndexed, h.flushCounts⟩
  | committed _ _ hf => exact ⟨(h.utxosFlushed hf).snapIndexed, (h.utxosFlushed hf).flushCounts⟩

/-- Before the history batch, whatever became of the file writes. -/
private theorem Behind.retains_files {stored rest : List Block}
    (h : Behind env s₀ snap snapChain s (stored ++ rest))
    (hi : Indexed env s snapChain stored (stored ++ rest)) {done pending : List DiskWrite}
    (hw : done ++ pending <+: fsWrites env stored rest)
    (ht : TornDisk (done.foldl applyWrite s.db.disk) pending disk) :
    Retains env disk snap snapChain := by
  have hd : ∀ w ∈ done, w ∈ fsWrites env stored rest :=
    fun w hm ↦ hw.subset (List.mem_append_left _ hm)
  have hp : ∀ w ∈ pending, w ∈ fsWrites env stored rest :=
    fun w hm ↦ hw.subset (List.mem_append_right _ hm)
  obtain ⟨h1, h2, h3⟩ := applyWrites_databases (fun w hm ↦ isBatch_fsWrites (hd w hm)) s.db.disk
  have hfiles := hi.db.files.applyWrites fun w hm ↦ writesBehind_fsWrites (hd w hm)
  exact h.retains hi (ht.created.trans h1) (ht.utxo.trans h2) (ht.history.trans h3)
    (hfiles.torn (fun w hm ↦ writesBehind_fsWrites (hp w hm)) ht)

/-- Between the history batch and the first UTXO batch. -/
private theorem Behind.retains_historyBatch {stored rest : List Block}
    (h : Behind env s₀ snap snapChain s (stored ++ rest))
    (hi : Indexed env s snapChain stored (stored ++ rest)) {rows : HashX → Nat → List Nat}
    {pend : HashX → List Nat} {hdb : Table}
    (hh : HistoryFlushed env s snapChain stored (stored ++ rest) rows pend hdb) :
    Retains env ((fsWrites env stored rest ++ [DiskWrite.historyBatch hdb]).foldl applyWrite
      s.db.disk) snap snapChain := by
  have hfiles : FilesHold env (afterFs env s.db stored rest).disk (stored ++ rest) :=
    hi.db.files.afterFs
  obtain ⟨h1, h2, h3, h4⟩ := hfiles.left
  rw [List.foldl_append, applyWrites_fsWrites]
  exact h.retains_history hi hh rfl rfl rfl ⟨h1, h2, h3, h4⟩

/-- From the first UTXO batch on. -/
private theorem Behind.retains_flushed (h : Behind env s₀ snap snapChain s chain)
    (hf : s.flush env flushUtxos = .ok s') {t : Table} (hm : DiskWrite.utxoBatch t ∈ writes)
    (he : LastFlush env snap snapChain s chain flushUtxos writes e ce) :
    Retains env s'.db.disk e ce := by
  cases flushUtxos with
  | true =>
    have h' := h.utxosFlushed hf
    obtain ⟨stored, hi⟩ := h.indexed
    have hi' : Indexed env s' chain chain chain := hi.flush hf
    cases he with
    | before hn => exact absurd hm (hn rfl t)
    | committed _ _ hf' =>
      cases hf.symm.trans hf'
      exact h'.retains hi' rfl rfl rfl hi'.db.files
  | false =>
    have h' := h.historyFlushed hf
    obtain ⟨stored, hi⟩ := h.indexed
    have hi' : Indexed env s' snapChain chain chain := hi.flush hf
    cases he with
    | before _ => exact h'.retains hi' rfl rfl rfl hi'.db.files
    | committed hu _ _ => cases hu

/-- A crash in a flush leaves a disk that records the last committed flush of the UTXOs. -/
theorem Behind.crash (h : Behind env s₀ snap snapChain s chain) {db : DB}
    (hp : FlushPoint env s flushUtxos db) (hw : s.db.journal ++ writes <+: db.journal)
    (hc : Crashed s.db.disk writes disk)
    (he : LastFlush env snap snapChain s chain flushUtxos writes e ce) :
    Retains env disk e ce := by
  obtain ⟨stored, hi⟩ := h.indexed
  obtain ⟨rest, rfl⟩ := hi.stored_prefix
  have hfs : writes <+: fsWrites env stored rest → Retains env disk e ce := by
    intro hpre
    obtain ⟨rfl, rfl⟩ := he.eq_before fun t hm ↦ utxoBatch_notMem_fsWrites _ _ t (hpre.subset hm)
    obtain ⟨done, pending, rfl, -, ht⟩ := hc
    exact h.retains_files hi hpre ht
  rcases hp.cases hi with hj | ⟨rows, pend, hdb, hh, hj⟩ | ⟨s', rows, pend, hdb, t, hf, hwr, rfl⟩
  · exact hfs ((List.prefix_append_right_inj _).mp (hw.trans hj))
  · rw [hj, List.prefix_append_right_inj] at hw
    rcases hc.cases hw (by simp [isBatch]) with ⟨-, -, -, hpre, -⟩ | ⟨bs, hne, hbs, rfl, rfl⟩
    · exact hfs hpre
    · obtain ⟨bs, rfl, hbs1⟩ := (List.prefix_cons_iff.mp hbs).resolve_left hne
      obtain rfl := List.prefix_nil.mp hbs1
      obtain ⟨rfl, rfl⟩ := he.eq_before fun t hm ↦ by
        rcases List.mem_append.mp hm with hm | hm
        · exact utxoBatch_notMem_fsWrites _ _ t hm
        · simp at hm
      exact h.retains_historyBatch hi hh
  · rw [hwr.journal, List.prefix_append_right_inj] at hw
    rcases hc.cases hw (by simp [isBatch]) with ⟨-, -, -, hpre, -⟩ | ⟨bs, hne, hbs, rfl, rfl⟩
    · exact hfs hpre
    · obtain ⟨bs, rfl, hbs1⟩ := (List.prefix_cons_iff.mp hbs).resolve_left hne
      rcases List.prefix_cons_iff.mp hbs1 with rfl | ⟨bs', rfl, hbs'⟩
      · obtain ⟨rfl, rfl⟩ := he.eq_before fun t hm ↦ by
          rcases List.mem_append.mp hm with hm | hm
          · exact utxoBatch_notMem_fsWrites _ _ t hm
          · simp at hm
        exact h.retains_historyBatch hi hwr.toHistoryFlushed
      · -- The second UTXO batch repeats the first.
        have hdisk : (fsWrites env stored rest ++
            (DiskWrite.historyBatch hdb :: .utxoBatch t :: bs')).foldl applyWrite s.db.disk =
              s'.db.disk := by
          rw [List.foldl_append, applyWrites_fsWrites, hwr.disk]
          rcases List.prefix_cons_iff.mp hbs' with rfl | ⟨bs'', rfl, hbs''⟩
          · rfl
          · obtain rfl := List.prefix_nil.mp hbs''
            rfl
        rw [hdisk]
        exact h.retains_flushed hf (t := t) (by simp) he

end Runs

/-- Whatever a crash in a flush does to the writes that no batch has followed, the databases
open as the last committed flush of the UTXOs left them, and go on from there to the same
answers as a run without the crash. -/
theorem FlushRun.crash_reopens {env : Env} {s₀ snap s e : BlockProcessor}
    {chain₀ snapChain chain ce : List Block} {flushUtxos : Bool} {db : DB}
    {before writes : List DiskWrite} {disk : Disk}
    (h₀ : Indexed env s₀ chain₀ chain₀ chain₀)
    (hcount : s₀.db.utxoFlushCount = s₀.db.history.flushCount)
    (r : FlushRun env s₀ chain₀ snap snapChain s chain) (hp : FlushPoint env s flushUtxos db)
    (hb : s.db.journal = s₀.db.journal ++ before) (hw : s.db.journal ++ writes <+: db.journal)
    (hc : Crashed s₀.db.disk (before ++ writes) disk)
    (he : LastFlush env snap snapChain s chain flushUtxos writes e ce) :
    ∃ s', BlockProcessor.firstOpenDbs env disk = .ok s' ∧ Indexed env s' ce ce ce ∧
      Reopened env disk e s' ∧
      (∀ hashX : HashX, s'.db.history.getTxnums hashX.val none = .ok (touching env.coin ce hashX)) ∧
      ∀ t t' chain', Forward env (fun _ _ ↦ True) s' ce t chain' → FullyFlushed t →
        Forward env (fun _ _ ↦ True) s₀ chain₀ t' chain' → FullyFlushed t' → Agree env t' t := by
  have hbehind := r.behind h₀ hcount
  obtain ⟨ws, hj, hdisk, hlast⟩ := hbehind.written
  obtain rfl : before = ws := List.append_cancel_left (hb.symm.trans hj)
  have hc' := hc.of_append hlast
  rw [← hdisk] at hc'
  obtain ⟨he₁, he₂⟩ := hbehind.last he
  obtain ⟨s', hs', hi, hr⟩ := (hbehind.crash hp hw hc' he).reopens he₁ he₂
  refine ⟨s', hs', hi, hr, fun hashX ↦ ?_, fun t t' chain' h1 hf1 h2 hf2 ↦ ?_⟩
  · obtain ⟨rows, pend, hist⟩ := hi.history
    rw [hist.table.getTxnums_none, hist.storedRows]
  · obtain ⟨_, _, ht⟩ := h1.indexed hi
    obtain ⟨_, _, ht'⟩ := h2.indexed h₀
    exact (ht'.of_fullyFlushed hf2).agree (ht.of_fullyFlushed hf1)

/-- The steps of a flush up to the history batch. -/
def sampleHistoryBatch (s : BlockProcessor) : Except PyError DB := do
  let (_, db) ← s.db.flushFs sampleEnv s.flushData
  db.flushHistory sampleEnv

/-- A crash behind the history batch of block `a`. -/
theorem sampleFlush_reopens : ∃ s₀ s db disk s', sampleStart = .ok s₀ ∧
    s₀.advanceBlocks sampleEnv 1 [sampleA] = .ok s ∧ sampleHistoryBatch s = .ok db ∧
    disk.history = db.history.db ∧ BlockProcessor.firstOpenDbs sampleEnv disk = .ok s' ∧
    s'.height = s₀.height ∧
    s'.db.history.getTxnums (sampleCoin.hashXFromScript [1]).val none = .ok [] := by
  obtain ⟨s₀, h₀, hf₀, hcount, s, hs, db, hdb, -⟩ : ∃ s₀, sampleStart = .ok s₀ ∧ FullyFlushed s₀ ∧
    s₀.db.utxoFlushCount = s₀.db.history.flushCount ∧
    ∃ s, s₀.advanceBlocks sampleEnv 1 [sampleA] = .ok s ∧
    ∃ db, sampleHistoryBatch s = .ok db ∧ True := by decide +kernel
  have hv : ValidChain sampleCoin [sampleGenesis, sampleA] := by decide +kernel
  have r₀ : Run sampleEnv (OwnUndos sampleEnv) s₀ [sampleGenesis] := sampleStart_run h₀
  obtain ⟨_, _, hi₀⟩ := r₀.indexed
  have hi := hi₀.of_fullyFlushed hf₀
  obtain ⟨s1, hs1, hi1, hd, -⟩ := hi.advanceBlocks (List.cons_ne_nil sampleA []) hv 1
  cases hs1.symm.trans hs
  obtain ⟨⟨fd, db1⟩, hfs, hh⟩ := bind_eq_ok.mp hdb
  have hne : s.height ≠ s.db.dbHeight := by
    have h1 := hi1.height_eq
    have h2 := hi1.db.dbHeight
    rw [List.length_append] at h1
    simp only [List.length_singleton] at h1 h2
    omega
  have hp : FlushPoint sampleEnv s true db := .history hne hfs hh
  obtain ⟨hist, -, he⟩ := bind_eq_ok.mp hh
  cases hi1.flushFs_eq.symm.trans hfs
  cases he
  set writes := fsWrites sampleEnv [sampleGenesis] [sampleA] ++ [.historyBatch hist.db] with hw
  have r : FlushRun sampleEnv s₀ [sampleGenesis] s₀ [sampleGenesis] s [sampleGenesis, sampleA] :=
    .advanced 1 .start hv hs
  have hlast : LastFlush sampleEnv s₀ [sampleGenesis] s [sampleGenesis, sampleA] true writes s₀
      [sampleGenesis] := by
    refine .before fun _ t hm ↦ ?_
    rcases List.mem_append.mp hm with hm | hm
    · cases isBatch_fsWrites hm
    · simp at hm
  have hb : s.db.journal = s₀.db.journal ++ [] := by rw [hd.journal, List.append_nil]
  obtain ⟨s', hs', -, hr, ht, -⟩ := FlushRun.crash_reopens hi hcount r hp hb
    (by rw [hw, ← List.append_assoc]; exact List.prefix_rfl)
    ⟨writes, [], by simp, by simp, rfl, rfl, rfl, FlatFile.torn_self _ _, FlatFile.torn_self _ _,
      FlatFile.torn_self _ _, FlatFile.torn_self _ _⟩ hlast
  refine ⟨s₀, s, _, writes.foldl applyWrite s₀.db.disk, s', h₀, hs, hdb, ?_, hs', hr.agree.height.1, ?_⟩
  · rw [hw, List.foldl_append]
    rfl
  · have h1 : touching sampleCoin [sampleGenesis] (sampleCoin.hashXFromScript [1]) = [] := by
      decide +kernel
    rw [← h1]
    exact ht _

end ElectrumX.Index
