import ElectrumX.Index.FlushCrash

/-!
# Crashes in a back-up

A back-up commits the cut history and then the batch of the UTXO DB. Between the two the disk
records the chain from which the back-up started, but its history table has lost the
transactions of the blocks that were backed up; as no flush id tells them from others, opening
the databases does not find out.
-/

namespace ElectrumX.Index
open ElectrumX.Base ElectrumX.Lib ElectrumX.Chain ElectrumX.Server

/-- The points of `flush_backup` at which the disk differs, `db.py:368–388`. -/
inductive BackupCrash
  | start
  | between
  | done
  deriving DecidableEq, Repr

namespace BackupCrash

/-- The DB at a point of `flush_backup`: before the batch of the history, between the two batches,
and after the batch of the UTXO DB. -/
def db (env : Env) (s : BlockProcessor) : BackupCrash → Except PyError DB
  | .start => return s.db
  | .between => do
    let db ← s.db.backupFs s.height s.txCount
    let history ← db.history.backup env.historyCodec s.touched.toList s.txCount
    return db.commitHistory history
  | .done => return (← s.flushBackup env).db

/-- The chain at the height that the UTXO DB records, when a back-up removes `bs`. -/
def recorded (c bs : List Block) : BackupCrash → List Block
  | .done => c
  | _ => c ++ bs

end BackupCrash

/-! ### Reopening -/

/-- The processor is an index of a chain at the height that its DB records. -/
structure Consistent (env : Env) (s : BlockProcessor) (chain : List Block) : Prop where
  dbHeight : s.db.dbHeight + 1 = chain.length
  dbTxCount : s.db.dbTxCount = txCount chain
  utxos : TablesShow s.db.utxoDb s.utxoCache s.dbDeletes (unspent env.coin chain)
  txnums : ∀ hashX : HashX,
    s.db.history.getTxnums hashX.val none = .ok (touching env.coin chain hashX)

section Reopening

variable {env : Env} {s : BlockProcessor} {chain : List Block}

theorem Indexed.consistent (h : Indexed env s chain chain chain) : Consistent env s chain where
  dbHeight := h.db.dbHeight
  dbTxCount := h.db.dbTxCount
  utxos := h.utxo.tablesShow (numbered h.valid)
  txnums hashX := by
    obtain ⟨rows, pend, hist⟩ := h.history
    rw [hist.table.getTxnums_none, hist.storedRows]

/-- The disk of a fully flushed processor is recoverable. -/
theorem Indexed.recoverable_disk (h : Indexed env s chain chain chain)
    {rows : HashX → Nat → List Nat} {pend : HashX → List Nat}
    (hist : HistoryHolds env s.db.history s.db.utxoFlushCount rows pend chain chain chain) :
    Recoverable env s.db.disk s.db.utxoFlushCount s.db.history.flushCount rows chain :=
  h.recoverable rfl h.db.files rfl hist.table hist.upTo hist.recordedRows hist.flushCount_le
    hist.state

/-- With a history table that has been cut the databases open as before, less what was cut. -/
theorem Indexed.reopens_cut (h : Indexed env s chain chain chain) {rows : HashX → Nat → List Nat}
    {pend : HashX → List Nat}
    (hist : HistoryHolds env s.db.history s.db.utxoFlushCount rows pend chain chain chain)
    {hdb : Table} {n : Nat} (hrows : HistoryRows hdb (cutRows rows n))
    (hstate : ∃ record, hdb[History.stateKey]? = some (env.historyCodec.repr record) ∧
      record.flushCount = s.db.history.flushCount + 1 ∧
      record.dbVersion = some History.latestVersion) :
    ∃ r, BlockProcessor.firstOpenDbs env { s.db.disk with history := hdb } = .ok r ∧
      r.db.dbHeight + 1 = chain.length ∧ r.db.dbTxCount = txCount chain ∧
      TablesShow r.db.utxoDb r.utxoCache r.dbDeletes (unspent env.coin chain) ∧
      ∀ hashX : HashX, r.db.history.getTxnums hashX.val none =
        .ok ((touching env.coin chain hashX).filter (· < n)) := by
  have hrec := h.recoverable_disk hist
  obtain ⟨r, hr, hi, -, -, -, hcount, -⟩ := hrec.open
  have hup : RowsUpTo (cutRows rows n) (s.db.history.flushCount + 1) := by
    intro hashX id hid
    rw [cutRows, hist.upTo hashX id (by omega)]
    rfl
  have hle := hist.flushCount_le
  obtain ⟨hist', hopen, hrows', hcount', -⟩ :=
    hrows.openDb hup (by omega : s.db.utxoFlushCount ≤ _) (.inl hstate)
  have hload : (DB.load env {} s.db.disk).utxoDb = s.db.disk.utxo := rfl
  obtain ⟨firstSync, hread, -⟩ := hrec.readUtxoState hload
  have hreads : ∀ db, (DB.load env {} s.db.disk).readUtxoState env = .ok db →
      db.history.openDb env.historyCodec hdb db.utxoFlushCount false = .ok hist' := by
    intro db hdb'
    cases hread.symm.trans hdb'
    exact hopen
  have hopens := firstOpenDbs_history hr hreads (hcount'.trans hcount.symm)
  refine ⟨_, hopens, hi.db.dbHeight, hi.db.dbTxCount, hi.utxo.tablesShow (numbered hi.valid),
    fun hashX ↦ ?_⟩
  have hcut : dropRows (cutRows rows n) s.db.utxoFlushCount =
      cutRows (dropRows rows s.db.utxoFlushCount) n := by
    funext hashX id
    simp only [dropRows, cutRows]
    split <;> rfl
  rw [hrows'.getTxnums_none, hcut, numbers_cutRows, hist.recordedRows]

/-- Between the batches the history table has been cut and the rest of the disk is as before. -/
theorem Indexed.disk_between {s₁ : BlockProcessor} {c bs : List Block} {db : DB}
    (h : Indexed env s (c ++ bs) (c ++ bs) (c ++ bs)) (hown : OwnUndos env s.db c bs)
    (hb : s.backupBlocks env (bs.map (·.raw)).reverse = .ok s₁)
    (hp : BackupCrash.db env s₁ .between = .ok db) :
    ∃ rows pend hdb,
      HistoryHolds env s.db.history s.db.utxoFlushCount rows pend (c ++ bs) (c ++ bs) (c ++ bs) ∧
      HistoryRows hdb (cutRows rows (txCount c)) ∧
      (∃ record, hdb[History.stateKey]? = some (env.historyCodec.repr record) ∧
        record.flushCount = s.db.history.flushCount + 1 ∧
        record.dbVersion = some History.latestVersion) ∧
      db.disk = { s.db.disk with history := hdb } := by
  obtain ⟨-, h1, hd⟩ := h.of_backupBlocks hown hb
  obtain ⟨rows, hist⟩ := h1.history
  obtain ⟨hdb, hbackup, hrows, hstate⟩ := h1.rewound.backupHistory h1.cuttable hist.tells
  have hhist : s₁.db.history = s.db.history := by rw [hd]
  have hcount : s₁.db.utxoFlushCount = s.db.utxoFlushCount := by rw [hd]
  have hdisk : s₁.db.disk = s.db.disk := by
    rw [hd]
    rfl
  obtain ⟨db1, hfs, hp⟩ := bind_eq_ok.mp hp
  obtain ⟨history, hh, hp⟩ := bind_eq_ok.mp hp
  obtain ⟨mc, -, hfs⟩ := bind_eq_ok.mp hfs
  cases hfs
  cases hp
  have hh' : s₁.db.history.backup env.historyCodec s₁.touched.toList s₁.txCount = .ok history := hh
  cases hbackup.symm.trans hh'
  rw [hhist, hcount] at hist
  rw [hhist] at hstate
  exact ⟨rows, _, hdb, hist, hrows, hstate, by rw [← hdisk]; rfl⟩

/-- Between the batches the disk has lost the history of the blocks that are backed up. -/
theorem Indexed.reopens_between {s₁ : BlockProcessor} {c bs : List Block} {db : DB}
    (h : Indexed env s (c ++ bs) (c ++ bs) (c ++ bs)) (hown : OwnUndos env s.db c bs)
    (hb : s.backupBlocks env (bs.map (·.raw)).reverse = .ok s₁)
    (hp : BackupCrash.db env s₁ .between = .ok db) :
    ∃ r, BlockProcessor.firstOpenDbs env db.disk = .ok r ∧
      r.db.dbHeight + 1 = (c ++ bs).length ∧ r.db.dbTxCount = txCount (c ++ bs) ∧
      TablesShow r.db.utxoDb r.utxoCache r.dbDeletes (unspent env.coin (c ++ bs)) ∧
      ∀ hashX : HashX, r.db.history.getTxnums hashX.val none =
        .ok ((touching env.coin (c ++ bs) hashX).filter (· < txCount c)) := by
  obtain ⟨rows, pend, hdb, hist, hrows, hstate, hdisk⟩ := h.disk_between hown hb hp
  rw [hdisk]
  exact h.reopens_cut hist hrows hstate

/-- A fully flushed processor is found again on its disk. -/
theorem Indexed.reopens (h : Indexed env s chain chain chain) :
    ∃ r, BlockProcessor.firstOpenDbs env s.db.disk = .ok r ∧ Consistent env r chain := by
  obtain ⟨_, _, hist⟩ := h.history
  obtain ⟨r, hr, hi, -⟩ := (h.recoverable_disk hist).open
  exact ⟨r, hr, hi.consistent⟩

end Reopening

/-! ### Crashes -/

/-- Of a crash in the flush of a back-up the databases recover exactly when it does not fall
between the two batches, or no transaction of the blocks backed up touches a script hash. -/
theorem Run.backup_crash_consistent {env : Env} {s s₁ : BlockProcessor} {c bs : List Block}
    (r : Run env (OwnUndos env) s (c ++ bs)) (hf : FullyFlushed s) (hbs : bs ≠ [])
    (hown : OwnUndos env s.db c bs)
    (hb : s.backupBlocks env (bs.map (·.raw)).reverse = .ok s₁) {p : BackupCrash} {db : DB}
    (hp : p.db env s₁ = .ok db) :
    (∃ s', BlockProcessor.firstOpenDbs env db.disk = .ok s' ∧
      Consistent env s' (p.recorded c bs)) ↔
    (p = .between → ∀ hashX, ∀ n ∈ touching env.coin (c ++ bs) hashX, n < txCount c) := by
  obtain ⟨_, _, hi⟩ := r.indexed
  have hi := hi.of_fullyFlushed hf
  cases p with
  | start =>
    obtain ⟨-, -, hd⟩ := hi.of_backupBlocks hown hb
    have hdisk : s₁.db.disk = s.db.disk := by
      rw [hd]
      rfl
    cases hp
    rw [hdisk]
    exact iff_of_true hi.reopens fun hp ↦ by cases hp
  | between =>
    obtain ⟨r, hr, hheight, htxs, hutxos, htxnums⟩ := hi.reopens_between hown hb hp
    constructor
    · rintro ⟨r', hr', hcons⟩ - hashX n hn
      cases hr.symm.trans hr'
      have he := Except.ok.inj ((htxnums hashX).symm.trans (hcons.txnums hashX))
      have hm : n ∈ (touching env.coin (c ++ bs) hashX).filter (· < txCount c) := by
        rw [he]
        exact hn
      simpa using (List.mem_filter.mp hm).2
    · intro hall
      refine ⟨r, hr, hheight, htxs, hutxos, fun hashX ↦ ?_⟩
      have hself := List.filter_eq_self.mpr fun n hn ↦
        decide_eq_true (hall rfl hashX n hn)
      rw [htxnums, hself]
      rfl
  | done =>
    obtain ⟨s', hfl, he⟩ := bind_eq_ok.mp hp
    cases he
    obtain ⟨s'', hs'', hi', -⟩ := hi.backupChunk (hi.of_backupBlocks hown hb).1 hbs hown
    have hs' : s.backupChunk env (bs.map (·.raw)).reverse = .ok s' := bind_eq_ok.mpr ⟨s₁, hb, hfl⟩
    cases hs''.symm.trans hs'
    exact iff_of_true hi'.reopens fun hp ↦ by cases hp

/-- A crash behind the second batch. -/
theorem sampleBackup_consistent : ∃ s s₁ db s', sampleAdvance = .ok s ∧
    s.backupBlocks sampleEnv [sampleA.raw] = .ok s₁ ∧
    BackupCrash.db sampleEnv s₁ .done = .ok db ∧
    BlockProcessor.firstOpenDbs sampleEnv db.disk = .ok s' ∧
    Consistent sampleEnv s' [sampleGenesis] := by
  obtain ⟨s, hs, hf, hown, s₁, hs₁, db, hdb, -⟩ : ∃ s, sampleAdvance = .ok s ∧ FullyFlushed s ∧
    OwnUndos sampleEnv s.db [sampleGenesis] [sampleA] ∧
    ∃ s₁, s.backupBlocks sampleEnv [sampleA.raw] = .ok s₁ ∧
    ∃ db, BackupCrash.db sampleEnv s₁ .done = .ok db ∧ True := by decide +kernel
  have r : Run sampleEnv (OwnUndos sampleEnv) s ([sampleGenesis] ++ [sampleA]) :=
    sampleAdvance_run hs
  have hb : s.backupBlocks sampleEnv ([sampleA].map (·.raw)).reverse = .ok s₁ := hs₁
  obtain ⟨s', hs', hc⟩ := (r.backup_crash_consistent hf (by simp) hown hb hdb).mpr
    fun hp ↦ by cases hp
  exact ⟨s, s₁, db, s', hs, hs₁, hdb, hs', hc⟩

/-- A crash between the two batches, whether the daemon keeps block `a` or not. -/
theorem not_backup_crash_consistent : ¬ ∀ (env : Env) (s s₁ : BlockProcessor) (c bs : List Block)
    (p : BackupCrash) (db : DB), Run env (fun _ _ _ ↦ True) s (c ++ bs) → FullyFlushed s →
    bs ≠ [] → s.backupBlocks env (bs.map (·.raw)).reverse = .ok s₁ → p.db env s₁ = .ok db →
    ∃ s', BlockProcessor.firstOpenDbs env db.disk = .ok s' ∧
      Consistent env s' (p.recorded c bs) := by
  intro hall
  obtain ⟨s, hs, hf, hown, s₁, hs₁, db, hdb, -⟩ : ∃ s, sampleAdvance = .ok s ∧ FullyFlushed s ∧
    OwnUndos sampleEnv s.db [sampleGenesis] [sampleA] ∧
    ∃ s₁, s.backupBlocks sampleEnv [sampleA.raw] = .ok s₁ ∧
    ∃ db, BackupCrash.db sampleEnv s₁ .between = .ok db ∧ True := by decide +kernel
  have hb : s.backupBlocks sampleEnv ([sampleA].map (·.raw)).reverse = .ok s₁ := hs₁
  have r : Run sampleEnv (OwnUndos sampleEnv) s ([sampleGenesis] ++ [sampleA]) :=
    sampleAdvance_run hs
  obtain ⟨_, _, hi⟩ := r.indexed
  obtain ⟨t, ht, -, -, -, htxnums⟩ :=
    (hi.of_fullyFlushed hf).reopens_between hown hb hdb
  obtain ⟨t', ht', hc⟩ := hall sampleEnv s s₁ [sampleGenesis] [sampleA] .between db
    (sampleAdvance_run hs) hf (by simp) hb hdb
  cases ht.symm.trans ht'
  have he := Except.ok.inj ((htxnums (sampleCoin.hashXFromScript [1])).symm.trans (hc.txnums _))
  exact absurd he (by decide +kernel)

end ElectrumX.Index
