import ElectrumX.Index.BackupCrash

/-!
# Runs of the server

The server opens its databases, advances and backs up blocks and flushes, until it is killed
and opens what is left on disk; it may be killed while it opens. As long as the disk that it opens
first records a chain, every disk that it opens does, no flush meets a row under its flush id, and
no row with recorded numbers is taken for an excess one.
-/

namespace ElectrumX.Index
open ElectrumX.Base ElectrumX.Lib ElectrumX.Chain ElectrumX.Server

/-! ### The runs -/

/-- The states of the server since it opened its databases in `s₀`, each with the state that the
last flush of the UTXOs or back-up left. Back-ups find the undo rows of their own blocks. -/
inductive ServerRun (env : Env) (s₀ : BlockProcessor) (chain₀ : List Block) :
    BlockProcessor → List Block → BlockProcessor → List Block → Prop
  | opened : ServerRun env s₀ chain₀ s₀ chain₀ s₀ chain₀
  | advanced {snap s s' : BlockProcessor} {snapChain chain blocks : List Block}
      (cachedHeight : Int) (r : ServerRun env s₀ chain₀ snap snapChain s chain)
      (hv : ValidChain env.coin (chain ++ blocks))
      (h : s.advanceBlocks env cachedHeight blocks = .ok s') :
      ServerRun env s₀ chain₀ snap snapChain s' (chain ++ blocks)
  | historyFlushed {snap s s' : BlockProcessor} {snapChain chain : List Block}
      (r : ServerRun env s₀ chain₀ snap snapChain s chain) (h : s.flush env false = .ok s') :
      ServerRun env s₀ chain₀ snap snapChain s' chain
  | utxosFlushed {snap s s' : BlockProcessor} {snapChain chain : List Block}
      (r : ServerRun env s₀ chain₀ snap snapChain s chain) (h : s.flush env true = .ok s') :
      ServerRun env s₀ chain₀ s' chain s' chain
  | notified {snap s : BlockProcessor} {snapChain chain : List Block}
      (r : ServerRun env s₀ chain₀ snap snapChain s chain) :
      ServerRun env s₀ chain₀ snap snapChain { s with touched := ∅ } chain
  | backedUp {snap s s' : BlockProcessor} {snapChain chain blocks : List Block}
      (r : ServerRun env s₀ chain₀ snap snapChain s (chain ++ blocks))
      (hown : OwnUndos env s.db chain blocks)
      (h : s.backupChunk env (blocks.map (·.raw)).reverse = .ok s') :
      ServerRun env s₀ chain₀ s' chain s' chain

/-- What an opening has on disk between its two batches: the history DB is without its excess rows,
and the UTXO DB still has its stale undo rows. -/
def CutOpening (env : Env) (compacting : Bool) (disk disk' : Disk) : Prop :=
  ∃ (db : DB) (hist : History), (DB.load env {} disk).readUtxoState env = .ok db ∧
    db.history.openDb env.historyCodec disk.history db.utxoFlushCount compacting = .ok hist ∧
    disk' = ({ db with history := hist } : DB).disk

/-- The disks on which the server is started, the first one and those that it is killed on, with
the chains that they record. What a completed flush has written is durable, as it ends in a batch.
A kill between the two batches of a back-up cuts no history of the blocks. -/
inductive ServerDisk (env : Env) (disk₀ : Disk) (chain₀ : List Block) : Disk → List Block → Prop
  | start : ServerDisk env disk₀ chain₀ disk₀ chain₀
  | opening {disk disk' : Disk} {c : List Block} (d : ServerDisk env disk₀ chain₀ disk c)
      (h : CutOpening env false disk disk') : ServerDisk env disk₀ chain₀ disk' c
  | flush {disk disk' : Disk} {s₀ snap s e : BlockProcessor} {c snapChain chain ce : List Block}
      {flushUtxos : Bool} {db : DB} {writes : List DiskWrite}
      (d : ServerDisk env disk₀ chain₀ disk c)
      (ho : BlockProcessor.firstOpenDbs env disk = .ok s₀)
      (r : ServerRun env s₀ c snap snapChain s chain) (hp : FlushPoint env s flushUtxos db)
      (hw : s.db.journal ++ writes <+: db.journal) (hc : Crashed s.db.disk writes disk')
      (he : LastFlush env snap snapChain s chain flushUtxos writes e ce) :
      ServerDisk env disk₀ chain₀ disk' ce
  | backup {disk : Disk} {s₀ snap s s₁ : BlockProcessor} {c snapChain chain blocks : List Block}
      {p : BackupCrash} {db : DB} (d : ServerDisk env disk₀ chain₀ disk c)
      (ho : BlockProcessor.firstOpenDbs env disk = .ok s₀)
      (r : ServerRun env s₀ c snap snapChain s (chain ++ blocks)) (hne : blocks ≠ [])
      (hown : OwnUndos env s.db chain blocks)
      (hb : s.backupBlocks env (blocks.map (·.raw)).reverse = .ok s₁)
      (hp : p.db env s₁ = .ok db) (hkept : p = .between →
        ∀ hashX, ∀ n ∈ touching env.coin (chain ++ blocks) hashX, n < txCount chain) :
      ServerDisk env disk₀ chain₀ db.disk (p.recorded chain blocks)

/-! ### What they keep -/

/-- `get_txnums` gives the transactions that touch a script hash, in increasing order. -/
def TellsHistory (env : Env) (s : BlockProcessor) (chain : List Block) : Prop :=
  ∀ hashX : HashX,
    s.db.history.getTxnums hashX.val none = .ok (touching env.coin chain hashX) ∧
      (touching env.coin chain hashX).Pairwise (· < ·)

/-- Opening a disk deletes only history rows without numbers below `db_tx_count`. -/
def DropsLater (disk : Disk) (s : BlockProcessor) : Prop :=
  ∀ (hashX : HashX) id, id < flushIds → ∀ v, disk.history[rowKey hashX id]? = some v →
    s.db.history.db[rowKey hashX id]? = none →
      ∀ txNumb ∈ chunks v txnumLen, s.db.dbTxCount ≤ unpackLE txNumb

/-- A flush of the history writes under new keys, and behind every flush and back-up the history
is that of the chain. -/
structure FlushesWell (env : Env) (s : BlockProcessor) (chain : List Block) : Prop where
  freshKeys : ∀ h, s.db.history.flush env.historyCodec = .ok h →
    ∀ hashX : HashX, s.db.history.db[rowKey hashX h.flushCount]? = none
  flushed : ∀ flushUtxos s', s.flush env flushUtxos = .ok s' → TellsHistory env s' chain
  backedUp : ∀ c blocks s', chain = c ++ blocks → OwnUndos env s.db c blocks →
    s.backupChunk env (blocks.map (·.raw)).reverse = .ok s' → TellsHistory env s' c

/-- A disk records a chain, and its excess history rows are of later blocks. -/
def RecordsChain (env : Env) (disk : Disk) (chain : List Block) : Prop :=
  ∃ flushCount historyCount rows, Recoverable env disk flushCount historyCount rows chain ∧
    LaterRows rows flushCount (txCount chain)

section Runs

variable {env : Env} {disk disk₀ : Disk} {s₀ snap s s' : BlockProcessor}
variable {chain₀ snapChain recorded stored chain : List Block}

/-- What the tool and the server write at the opening of the history DB is the same. -/
private theorem openDb_db {codec : StateCodec HistoryState} {h hist hist' : History} {t : Table}
    {n : Nat} {compacting : Bool} (ho : h.openDb codec t n compacting = .ok hist)
    (ho' : h.openDb codec t n false = .ok hist') :
    hist.db = hist'.db ∧ hist.flushCount = hist'.flushCount := by
  obtain ⟨h₁, hread, ho⟩ := bind_eq_ok.mp ho
  obtain ⟨h₂, hclear, ho⟩ := bind_eq_ok.mp ho
  obtain ⟨_, hread', ho'⟩ := bind_eq_ok.mp ho'
  cases hread.symm.trans hread'
  obtain ⟨_, hclear', ho'⟩ := bind_eq_ok.mp ho'
  cases hclear.symm.trans hclear'
  have hcancel : h₂.cancelCompaction.db = h₂.db ∧
      h₂.cancelCompaction.flushCount = h₂.flushCount := by
    unfold History.cancelCompaction
    split <;> exact ⟨rfl, rfl⟩
  cases ho
  cases ho'
  cases compacting with
  | false => exact ⟨rfl, rfl⟩
  | true => exact ⟨hcancel.1.symm, hcancel.2.symm⟩

/-- Between the batches of an opening the disk records the chain without excess rows. -/
private theorem Recoverable.cutOpening {flushCount historyCount : Nat}
    {rows : HashX → Nat → List Nat}
    (h : Recoverable env disk flushCount historyCount rows chain) {compacting : Bool}
    {disk' : Disk} (hcut : CutOpening env compacting disk disk') :
    Recoverable env disk' flushCount flushCount (dropRows rows flushCount) chain := by
  obtain ⟨db, hist, hdb, ho, rfl⟩ := hcut
  have hload : (DB.load env {} disk).utxoDb = disk.utxo := by
    unfold DB.load
    split <;> rfl
  have hblank : (DB.load env {} disk).history = { db := ∅ } := by
    unfold DB.load
    split <;> rfl
  obtain ⟨firstSync, hread, -⟩ := h.readUtxoState hload
  cases hread.symm.trans hdb
  obtain ⟨hist', hopen, hrows, hcount, -, -, hheld⟩ := h.openHistory
  obtain ⟨hdb', hcount'⟩ := openDb_db ho (hblank ▸ hopen)
  have hup := rowsUpTo_dropRows rows flushCount
  obtain ⟨h1, h2, h3, h4⟩ := h.files
  rw [HistoryStateHeld, ← hdb', hcount] at hheld
  rw [← hdb'] at hrows
  exact
    { valid := h.valid
      files := ⟨h1, h2, h3, h4⟩
      utxo := hload.symm ▸ h.utxo
      undoKeys := fun k v hk ↦ h.undoKeys k v (hload ▸ hk)
      utxoState := hload.symm ▸ h.utxoState
      table := hrows
      upTo := hup
      recordedRows := fun hashX ↦ by rw [dropRows_eq_self hup, h.recordedRows]
      flushCount_le := le_rfl
      historyState := hheld }

/-- An opening that is cut between its batches loses nothing. -/
theorem RecordsChain.cutOpening (h : RecordsChain env disk chain) {compacting : Bool}
    {disk' : Disk} (hcut : CutOpening env compacting disk disk') :
    RecordsChain env disk' chain := by
  obtain ⟨flushCount, historyCount, rows, hr, -⟩ := h
  refine ⟨_, _, _, hr.cutOpening hcut, fun hashX id _ hlt n hn ↦ ?_⟩
  rw [rowsUpTo_dropRows rows flushCount hashX id hlt] at hn
  cases hn

/-- Once its history is flushed, the history of a processor is that of its chain. -/
theorem Indexed.tellsHistory (h : Indexed env s recorded chain chain) :
    TellsHistory env s chain := by
  obtain ⟨rows, pend, hist⟩ := h.history
  intro hashX
  rw [hist.table.getTxnums_none, hist.storedRows]
  exact ⟨rfl, touching_pairwise chain hashX⟩

/-- The disk of a fully flushed processor records its chain. -/
theorem Indexed.recordsChain (h : Indexed env s chain chain chain) :
    RecordsChain env s.db.disk chain := by
  obtain ⟨rows, pend, hist⟩ := h.history
  exact ⟨_, _, rows, h.recoverable_disk hist,
    laterRows_of_recorded h.valid List.prefix_rfl hist.recordedRows hist.storedRows⟩

/-- A disk that records a chain opens as an index of it. -/
theorem RecordsChain.open (h : RecordsChain env disk chain) :
    ∃ s, BlockProcessor.firstOpenDbs env disk = .ok s ∧ Indexed env s chain chain chain ∧
      s.db.utxoFlushCount = s.db.history.flushCount ∧ DropsLater disk s := by
  obtain ⟨flushCount, historyCount, rows, hr, hlater⟩ := h
  obtain ⟨s, hs, hi, -, -, hrows, hcount, hutxo⟩ := hr.open
  refine ⟨s, hs, hi, hutxo.trans hcount.symm, fun hashX id hid v hv hnone txNumb htx ↦ ?_⟩
  rw [hr.table.row hashX id hid, storedRow_eq_some] at hv
  obtain ⟨hne, rfl⟩ := hv
  rw [chunks_flatMap (by decide) _ _ fun n _ ↦ length_packLE txnumLen n] at htx
  obtain ⟨n, hn, rfl⟩ := List.mem_map.mp htx
  -- A row that is gone was above the recorded flush count.
  have hlt : flushCount < id := by
    by_contra hle
    rw [hrows.row hashX id hid, dropRows, if_neg hle, storedRow, if_neg hne] at hnone
    cases hnone
  rw [hi.db.dbTxCount, unpackLE_packLE_of_lt (by simpa [txnumLen] using hr.table.num_lt _ _ n hn)]
  exact hlater hashX id hid hlt n hn

/-- After a back-up both DBs have the same flush count. -/
private theorem flushCounts_of_backupChunk {rawBlocks : List Bytes}
    (h : s.backupChunk env rawBlocks = .ok s') :
    s'.db.utxoFlushCount = s'.db.history.flushCount := by
  obtain ⟨s₁, -, hf⟩ := bind_eq_ok.mp h
  obtain ⟨⟨fd, db⟩, hb, he⟩ := bind_eq_ok.mp hf
  obtain ⟨_, -, hb⟩ := bind_eq_ok.mp hb
  obtain ⟨_, -, hb⟩ := bind_eq_ok.mp hb
  obtain ⟨_, -, hb⟩ := bind_eq_ok.mp hb
  obtain ⟨_, -, hb⟩ := bind_eq_ok.mp hb
  obtain ⟨db₁, -, hb⟩ := bind_eq_ok.mp hb
  obtain ⟨hist, -, hb⟩ := bind_eq_ok.mp hb
  obtain ⟨⟨ops, fd', db₂⟩, hu, hb⟩ := bind_eq_ok.mp hb
  obtain ⟨undos, -, hu⟩ := bind_eq_ok.mp hu
  cases hu
  cases hb
  cases he
  rfl

/-- Throughout a run the snapshot lies on disk. -/
theorem ServerRun.behind (r : ServerRun env s₀ chain₀ snap snapChain s chain)
    (h₀ : Indexed env s₀ chain₀ chain₀ chain₀)
    (hcount : s₀.db.utxoFlushCount = s₀.db.history.flushCount) :
    ∃ base, Behind env base snap snapChain s chain := by
  have hstart {t : BlockProcessor} {c : List Block} (ht : Indexed env t c c c)
      (hc : t.db.utxoFlushCount = t.db.history.flushCount) : Behind env t t c t c :=
    FlushRun.start.behind ht hc
  induction r with
  | opened => exact ⟨s₀, hstart h₀ hcount⟩
  | advanced cachedHeight _ hv h ih =>
    obtain ⟨base, hb⟩ := ih
    exact ⟨base, hb.advanced hv h⟩
  | historyFlushed _ h ih =>
    obtain ⟨base, hb⟩ := ih
    exact ⟨base, hb.historyFlushed h⟩
  | utxosFlushed _ h ih =>
    obtain ⟨base, hb⟩ := ih
    exact ⟨base, hb.utxosFlushed h⟩
  | notified _ ih =>
    obtain ⟨base, hb⟩ := ih
    obtain ⟨stored, hi⟩ := hb.indexed
    exact ⟨base, { hb with indexed := ⟨stored, hi.notified⟩ }⟩
  | backedUp _ hown h ih =>
    obtain ⟨base, hb⟩ := ih
    obtain ⟨stored, hi⟩ := hb.indexed
    obtain ⟨hi, hc, hbs⟩ := hi.of_backupChunk h
    obtain ⟨s', h', hi', -⟩ := hi.backupChunk hc hbs hown
    cases h'.symm.trans h
    exact ⟨_, hstart hi' (flushCounts_of_backupChunk h)⟩

/-- In every state of a run the next flush or back-up goes well. -/
theorem Indexed.flushesWell (h : Indexed env s recorded stored chain) :
    FlushesWell env s chain where
  freshKeys hist hf hashX := by
    obtain ⟨rows, pend, hold⟩ := h.history
    have hid := flushCount_lt_of_flush hf
    obtain ⟨hdb, hf', -⟩ := hold.table.flush env.historyCodec hold.unflushed hold.upTo hid
    cases hf'.symm.trans hf
    exact (hold.table.row hashX _ hid).trans
      (by rw [hold.upTo hashX _ (Nat.lt_succ_self _)]; rfl)
  flushed flushUtxos s' hf := (h.flush hf).tellsHistory
  backedUp c blocks s' he hown hf := by
    subst he
    obtain ⟨hi, hc, hbs⟩ := h.of_backupChunk hf
    obtain ⟨s'', hs'', hi', -⟩ := hi.backupChunk hc hbs hown
    cases hs''.symm.trans hf
    exact hi'.tellsHistory

/-- Between the batches of a back-up that cuts nothing the disk still records the chain. -/
private theorem Indexed.recordsChain_between {s₁ : BlockProcessor} {c blocks : List Block} {db : DB}
    (h : Indexed env s (c ++ blocks) (c ++ blocks) (c ++ blocks))
    (hown : OwnUndos env s.db c blocks)
    (hb : s.backupBlocks env (blocks.map (·.raw)).reverse = .ok s₁)
    (hp : BackupCrash.db env s₁ .between = .ok db)
    (hkept : ∀ hashX, ∀ n ∈ touching env.coin (c ++ blocks) hashX, n < txCount c) :
    RecordsChain env db.disk (c ++ blocks) := by
  obtain ⟨rows, pend, hdb, hist, hrows, hstate, hdisk⟩ := h.disk_between hown hb hp
  have hcut : HistoryRows hdb rows := by
    refine ⟨fun hashX id hid ↦ ?_, hrows.shape, hist.table.num_lt⟩
    have hsame : cutRows rows (txCount c) hashX id = rows hashX id := by
      apply List.filter_eq_self.mpr
      intro n hn
      rw [decide_eq_true_iff]
      apply hkept hashX
      rw [← hist.storedRows, numbers, List.mem_flatMap]
      exact ⟨id, List.mem_range.mpr hid, hn⟩
    rw [hrows.row hashX id hid, hsame]
  have hle := hist.flushCount_le
  refine ⟨s.db.utxoFlushCount, s.db.history.flushCount + 1, rows, ?_,
    laterRows_of_recorded h.valid List.prefix_rfl hist.recordedRows hist.storedRows⟩
  obtain ⟨h1, h2, h3, h4⟩ := h.db.files
  rw [hdisk]
  exact h.recoverable rfl ⟨h1, h2, h3, h4⟩ rfl hcut (fun hashX id hid ↦ hist.upTo hashX id (by omega))
    hist.recordedRows (by omega) (.inl hstate)

/-- Every disk that the server is started on records its chain. -/
theorem ServerDisk.recordsChain (d : ServerDisk env disk₀ chain₀ disk chain)
    (h₀ : RecordsChain env disk₀ chain₀) : RecordsChain env disk chain := by
  induction d with
  | start => exact h₀
  | opening _ hcut ih => exact ih.cutOpening hcut
  | flush _ ho r hp hw hc he ih =>
    obtain ⟨s₀, hs₀, hi, hcount, -⟩ := ih.open
    cases hs₀.symm.trans ho
    obtain ⟨base, hb⟩ := r.behind hi hcount
    obtain ⟨rows, historyCount, hr⟩ := (hb.crash hp hw hc he).recoverable
    exact ⟨_, historyCount, rows, hr⟩
  | @backup _ _ _ s _ _ _ _ _ p _ _ ho r hne hown hb hp hkept ih =>
    obtain ⟨s₀, hs₀, hi, hcount, -⟩ := ih.open
    cases hs₀.symm.trans ho
    obtain ⟨base, hbehind⟩ := r.behind hi hcount
    obtain ⟨stored, hs⟩ := hbehind.indexed
    obtain ⟨_, hflushed, -⟩ := bind_eq_ok.mp hb
    have hflushed' : FullyFlushed s := hflushed
    have hs := hs.of_fullyFlushed hflushed'
    cases p with
    | start =>
      obtain ⟨-, -, hd⟩ := hs.of_backupBlocks hown hb
      cases hp
      rw [hd]
      exact hs.recordsChain
    | between => exact hs.recordsChain_between hown hb hp (hkept rfl)
    | done =>
      obtain ⟨s', hf, he⟩ := bind_eq_ok.mp hp
      cases he
      obtain ⟨s'', hs'', hi', -⟩ := hs.backupChunk (hs.of_backupBlocks hown hb).1 hne hown
      cases hs''.symm.trans (bind_eq_ok.mpr ⟨_, hb, hf⟩)
      exact hi'.recordsChain

/-- A server that is started on a disk that records a chain goes on with it, however often it is
killed. -/
theorem RecordsChain.keepsHistory (h₀ : RecordsChain env disk₀ chain₀)
    (d : ServerDisk env disk₀ chain₀ disk chain) :
    ∃ s₀, BlockProcessor.firstOpenDbs env disk = .ok s₀ ∧ TellsHistory env s₀ chain ∧
      DropsLater disk s₀ ∧ ∀ snap snapChain s chain',
        ServerRun env s₀ chain snap snapChain s chain' → FlushesWell env s chain' := by
  obtain ⟨s₀, hs₀, hi, hcount, hdrops⟩ := (d.recordsChain h₀).open
  refine ⟨s₀, hs₀, hi.tellsHistory, hdrops, fun snap snapChain s chain' r ↦ ?_⟩
  obtain ⟨base, hb⟩ := r.behind hi hcount
  obtain ⟨stored, hs⟩ := hb.indexed
  exact hs.flushesWell

end Runs
end ElectrumX.Index
