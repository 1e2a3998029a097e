import ElectrumX.Index.Compaction
import ElectrumX.Index.ServerRun

/-!
# An interrupted compaction

The compaction tool may be killed behind any of its batches, those of its opening included, and the
server started on what it leaves. The two DBs then agree as long as the history DB is not behind
the flush count of the UTXO DB and has no row above it: if the compaction did not complete, no
script hash that it went over needs more rows, and if it did, it ended with this flush count.
-/

namespace ElectrumX.Index
open ElectrumX.Base ElectrumX.Lib ElectrumX.Chain ElectrumX.Server

/-- The tool once it has opened the DBs, `electrumx_compact_history.py:49–59`. -/
def beganCompaction (db : DB) : Compactor :=
  ⟨db.history.db, db.utxoFlushCount, some db.history.beginCompaction⟩

/-- What lies on disk of the DBs that the tool has opened once it has come to a state. -/
def handedOver (db : DB) (t : Compactor) : Disk := { db.disk with history := t.db }

/-- The history DB is not behind the flush count of the UTXO DB and has no row above it. -/
def InStep (codec : StateCodec HistoryState) (t : Compactor) : Prop :=
  (∀ flushCount compFlushCount compCursor,
    StateRead codec t.db flushCount compFlushCount compCursor → t.utxoFlushCount ≤ flushCount) ∧
  ∀ (hashX : HashX) id, id < flushIds → t.utxoFlushCount < id → t.db[rowKey hashX id]? = none

/-- What an interrupted compaction leaves on disk where the DBs are in step: the tool is killed
between the two batches of its opening, or behind any batch later on. A tool that is started again
finds no excess rows. -/
inductive InterruptedCompaction (env : Env) (size : Nat) (disk : Disk) : Disk → Prop
  | opening {disk' : Disk} (h : CutOpening env true disk disk') :
      InterruptedCompaction env size disk disk'
  | running {db : DB} {t : Compactor} (ho : DB.openDbs env {} disk true = .ok db)
      (hrun : Reach (Compactor.step size env.historyCodec)
        (fun t e ↦ e ≠ .setFlushCount ∧ (e = .start → NoExcess env.historyCodec t))
        (beganCompaction db) t)
      (hstep : InStep env.historyCodec t) :
      InterruptedCompaction env size disk (handedOver db t)

/-! ### The state record -/

section Record

variable {codec : StateCodec HistoryState} {size : Nat} {t t' : Compactor}

/-- The state record is there, or the history DB is new. -/
def RecordHeld (codec : StateCodec HistoryState) (db : Table) (flushCount : Nat) : Prop :=
  HistoryStateHeld codec { db := db, flushCount := flushCount }

theorem RecordHeld.stateRead {db : Table} {flushCount : Nat}
    (h : RecordHeld codec db flushCount) : ∃ compFlushCount compCursor,
      StateRead codec db flushCount compFlushCount compCursor := by
  rcases h with ⟨record, hs, rfl, hv⟩ | ⟨hs, rfl⟩
  · exact ⟨_, _, stateRead_of_record hs hv⟩
  · refine ⟨-1, -1, -1, ?_⟩
    have hs' : db[History.stateKey]? = none := hs
    rw [History.readState, History.loadState]
    simp [hs', History.latestVersion, bind, Except.bind, pure, Except.pure]

theorem recordHeld_write (codec : StateCodec HistoryState) (db : Table) (ops : List BatchOp)
    {h : History} (hv : h.dbVersion = History.latestVersion) :
    RecordHeld codec (db.write (ops ++ [h.writeState codec])) h.flushCount := by
  refine .inl ⟨⟨h.flushCount, some h.compFlushCount, some h.compCursor, some h.dbVersion,
    some h.upgradeCursor⟩, ?_, rfl, congrArg some hv⟩
  change (db.write (ops ++ [h.writeState codec]))[History.stateKey]? = _
  rw [Table.write_append, History.writeState, Table.getElem?_write_put, if_pos rfl]

/-- The tool keeps a state record of the current version. -/
structure KeepsRecord (codec : StateCodec HistoryState) (utxoFlushCount : Nat) (t : Compactor) :
    Prop where
  held : ∃ flushCount, RecordHeld codec t.db flushCount
  process : ∀ h, t.process = some h → h.db = t.db ∧ h.dbVersion = History.latestVersion
  utxoFlushCount_eq : t.utxoFlushCount = utxoFlushCount

private theorem recordHeld_clearExcess {h h' : History} {flushCount utxoFlushCount : Nat}
    (hh : RecordHeld codec h.db flushCount) (hv : h.dbVersion = History.latestVersion)
    (hc : h.clearExcess codec utxoFlushCount = .ok h') :
    (∃ flushCount, RecordHeld codec h'.db flushCount) ∧
      h'.dbVersion = History.latestVersion := by
  rw [History.clearExcess] at hc
  split at hc
  · cases hc
    exact ⟨⟨_, hh⟩, hv⟩
  · obtain ⟨keys, -, hc⟩ := bind_eq_ok.mp hc
    cases hc
    exact ⟨⟨_, recordHeld_write codec h.db _ (h := { h with flushCount := utxoFlushCount }) hv⟩, hv⟩

theorem KeepsRecord.step {utxoFlushCount : Nat} (hk : KeepsRecord codec utxoFlushCount t)
    {e : CompactEvent} (he : e ≠ .setFlushCount) (h : t.step size codec e = some t') :
    KeepsRecord codec utxoFlushCount t' := by
  cases e with
  | start =>
    rw [Compactor.step] at h
    split at h
    · cases h
    · split at h
      · cases h
        exact hk
      · next h₁ hopen =>
        cases h
        obtain ⟨flushCount, hheld⟩ := hk.held
        obtain ⟨_, _, upgradeCursor, hread⟩ := hheld.stateRead
        obtain ⟨_, hread', hopen⟩ := bind_eq_ok.mp hopen
        cases hread.symm.trans hread'
        obtain ⟨h₃, hclear, hopen⟩ := bind_eq_ok.mp hopen
        cases hopen
        obtain ⟨hheld', hv⟩ := recordHeld_clearExcess hheld rfl hclear
        refine ⟨hheld', fun h' hp ↦ ?_, hk.utxoFlushCount_eq⟩
        cases hp
        exact ⟨rfl, hv⟩
  | pass limit =>
    obtain ⟨h₁, hp, h⟩ := Option.bind_eq_some_iff.mp h
    obtain ⟨hdb, hv⟩ := hk.process h₁ hp
    split at h
    · cases h
    · split at h
      · cases h
        exact ⟨hk.held, fun h' hp ↦ (by cases hp), hk.utxoFlushCount_eq⟩
      · next h₂ hpass =>
        cases h
        obtain ⟨⟨cursor, c⟩, -, hpass⟩ := bind_eq_ok.mp hpass
        cases hpass
        have hv' : (h₁.flushCompaction codec cursor c).dbVersion = History.latestVersion := by
          rw [History.flushCompaction]
          split
          · exact hv
          · exact hv
        refine ⟨?_, fun h' hp ↦ ?_, hk.utxoFlushCount_eq⟩
        · rw [History.flushCompaction]
          split
          · exact ⟨_, recordHeld_write codec _ _ hv⟩
          · exact ⟨_, recordHeld_write codec _ _ hv⟩
        · cases hp
          exact ⟨rfl, hv'⟩
  | setFlushCount => exact absurd rfl he
  | kill =>
    cases h
    exact ⟨hk.held, fun h' hp ↦ (by cases hp), hk.utxoFlushCount_eq⟩

end Record

/-! ### The start of the tool -/

section Start

variable {env : Env} {size : Nat} {disk : Disk} {flushCount historyCount : Nat}
variable {rows : HashX → Nat → List Nat} {chain : List Block} {db : DB} {t : Compactor}

/-- The tool opens the history DB without the rows that the UTXO DB does not know. -/
private theorem openDb_compacting {codec : StateCodec HistoryState} {table : Table} {n : Nat}
    (ht : HistoryRows table rows) (hu : RowsUpTo rows historyCount)
    (hle : flushCount ≤ historyCount) (hheld : RecordHeld codec table historyCount)
    (hidle : StateRead codec table n (-1) (-1)) :
    ∃ h, ({ db := ∅ } : History).openDb codec table flushCount true = .ok h ∧
      HistoryRows h.db (dropRows rows flushCount) ∧ h.flushCount = flushCount ∧
      h.compFlushCount = -1 ∧ h.compCursor = -1 ∧ h.dbVersion = History.latestVersion ∧
      RecordHeld codec h.db flushCount ∧ StateRead codec h.db flushCount (-1) (-1) := by
  obtain ⟨_, _, hstate⟩ := hheld.stateRead
  obtain rfl := hidle.flushCount_eq hstate
  obtain ⟨upgradeCursor, hread⟩ := hidle
  set h : History := {
    db := table
    flushCount := n
    compFlushCount := -1
    compCursor := -1
    upgradeCursor := upgradeCursor } with hh
  by_cases hcount : n ≤ flushCount
  · obtain rfl : n = flushCount := by omega
    have hclear : h.clearExcess codec n = .ok h := if_pos hcount
    refine ⟨h, ?_, ?_, rfl, rfl, rfl, rfl, hheld, upgradeCursor, hread⟩
    · rw [History.openDb, hread]
      simp only [bind, Except.bind, hclear, pure, Except.pure, if_true]
    · rwa [dropRows_eq_self hu]
  · obtain ⟨table', hclear, hrows, hrec⟩ :=
      ht.clearExcess_of_lt codec (h := h) (Nat.lt_of_not_le hcount)
    refine ⟨{ h with db := table', flushCount := flushCount }, ?_, hrows, rfl, rfl, rfl, rfl,
      .inl ⟨_, hrec, rfl, rfl⟩, stateRead_of_record hrec rfl⟩
    rw [History.openDb, hread]
    simp only [bind, Except.bind, hclear, pure, Except.pure, if_true]

/-- The tool opens the DBs as the server does, the history DB aside; the disk still records the
chain, and the histories can be compacted. -/
private theorem Recoverable.openCompacting
    (h : Recoverable env disk flushCount historyCount rows chain) (size : Nat) {n : Nat}
    (hidle : StateRead env.historyCodec disk.history n (-1) (-1)) :
    ∃ r hist, BlockProcessor.firstOpenDbs env disk = .ok r ∧
      DB.openDbs env {} disk true = .ok { r.db with history := hist } ∧
      Recoverable env { r.db with history := hist }.disk flushCount flushCount
        (dropRows rows flushCount) chain ∧
      KeepsRecord env.historyCodec flushCount
        (beganCompaction { r.db with history := hist }) ∧
      CompactorKept env.historyCodec size (touching env.coin chain)
        (beganCompaction { r.db with history := hist }) := by
  have hload : (DB.load env {} disk).utxoDb = disk.utxo := by
    unfold DB.load
    split <;> rfl
  have hblank : (DB.load env {} disk).history = { db := ∅ } := by
    unfold DB.load
    split <;> rfl
  obtain ⟨firstSync, hread, -⟩ := h.readUtxoState hload
  obtain ⟨r, hr, hi, -, -, -, hrcount, hutxo⟩ := h.open
  obtain ⟨hist, hopen, hrows, hcount, hcomp, hcursor, hver, hheld, hstate⟩ :=
    openDb_compacting h.table h.upTo h.flushCount_le h.historyState hidle
  have hopens : ∀ db, (DB.load env {} disk).readUtxoState env = .ok db →
      db.history.openDb env.historyCodec disk.history db.utxoFlushCount true = .ok hist := by
    intro db hdb
    cases hread.symm.trans hdb
    change (DB.load env {} disk).history.openDb env.historyCodec disk.history flushCount true = _
    rw [hblank, hopen]
  obtain ⟨db, ho, he⟩ := bind_eq_ok.mp hr
  cases he
  have hnums (hashX : HashX) : numbers (dropRows rows flushCount) hashX =
      touching env.coin chain hashX := h.recordedRows hashX
  have hup := rowsUpTo_dropRows rows flushCount
  obtain ⟨h1, h2, h3, h4⟩ := hi.db.files
  refine ⟨_, hist, hr, openDbs_history ho hopens (hcount.trans hrcount.symm), ?_,
    ⟨⟨flushCount, hheld⟩, fun h' hp ↦ ?_, hutxo⟩, ?_, fun h' hp ↦ ?_⟩
  · rw [← hutxo] at hrows hup hheld hnums ⊢
    exact hi.recoverable rfl ⟨h1, h2, h3, h4⟩ rfl hrows hup
      (fun hashX ↦ by rw [dropRows_eq_self hup, hnums]) le_rfl hheld
  · cases hp
    exact ⟨rfl, hver⟩
  · exact ⟨_, _, _, _, hrows, hnums, hstate, .inl rfl⟩
  · cases hp
    refine ⟨rfl, dropRows rows flushCount, .inl ⟨hrows, hnums, hver, ?_, ?_, ?_, ?_, ?_⟩⟩
    all_goals simp only [History.beginCompaction, hcursor, hcomp, if_true]
    · exact le_rfl
    · decide
    · decide
    · exact (hcount.trans hutxo.symm).le
    · intro x hx
      cases hx

end Start

/-! ### The end of the tool -/

section Interrupted

variable {env : Env} {size flushCount : Nat} {disk : Disk} {rows : HashX → Nat → List Nat}
variable {chain : List Block} {db : DB} {t : Compactor}

/-- A compaction that is interrupted where the DBs are in step leaves a disk that records the
chain. -/
private theorem recordsChain_handedOver
    (h : Recoverable env db.disk flushCount flushCount rows chain)
    (hrec : KeepsRecord env.historyCodec flushCount t)
    (hkept : CompactorKept env.historyCodec size (touching env.coin chain) t)
    (hstep : InStep env.historyCodec t) : RecordsChain env (handedOver db t) chain := by
  obtain ⟨rows', _, _, _, ht, hnums, -⟩ := hkept.resumable
  obtain ⟨historyCount, hheld⟩ := hrec.held
  obtain ⟨_, _, hread⟩ := hheld.stateRead
  obtain ⟨hcount, hnone⟩ := hstep
  have hle := hcount _ _ _ hread
  rw [hrec.utxoFlushCount_eq] at hle hnone
  obtain ⟨ht', hnums'⟩ := ht.dropRows_of_none hnone
  have hup := rowsUpTo_dropRows rows' flushCount
  obtain ⟨h1, h2, h3, h4⟩ := h.files
  refine ⟨flushCount, historyCount, dropRows rows' flushCount, ?_, fun hashX id _ hlt n hn ↦ ?_⟩
  · exact
      { h with
        files := ⟨h1, h2, h3, h4⟩
        table := ht'
        upTo := fun hashX id hid ↦ hup hashX id (hle.trans_lt hid)
        recordedRows := fun hashX ↦ by rw [dropRows_eq_self hup, hnums', hnums]
        flushCount_le := hle
        historyState := hheld }
  · rw [hup hashX id hlt] at hn
    cases hn

end Interrupted

/-! ### Compactions that complete -/

section Samples

variable {env : Env} {size flushCount historyCount : Nat} {disk : Disk}
variable {rows : HashX → Nat → List Nat} {recorded stored chain : List Block}
variable {s s' : BlockProcessor} {db : DB}

/-- A flush of the history leaves its state record. -/
private theorem stateRead_of_historyFlush {codec : StateCodec HistoryState} {h h' : History}
    (hv : h.dbVersion = History.latestVersion) (hf : h.flush codec = .ok h') :
    StateRead codec h'.db h'.flushCount h'.compFlushCount h'.compCursor := by
  obtain ⟨id, -, hf⟩ := bind_eq_ok.mp hf
  cases hf
  exact stateRead_write codec h.db _ (h := { h with flushCount := h.flushCount + 1 }) hv

/-- A flush above the recorded height leaves the state record of the history. -/
private theorem Indexed.stateRead_of_flush (h : Indexed env s recorded stored chain)
    (hne : s.height ≠ s.db.dbHeight) (hf : s.flush env true = .ok s') :
    StateRead env.historyCodec s'.db.history.db s'.db.history.flushCount
      s'.db.history.compFlushCount s'.db.history.compCursor := by
  obtain ⟨rest, rfl⟩ := h.stored_prefix
  obtain ⟨rows, pend, hist⟩ := h.history
  obtain ⟨⟨fd, db⟩, hdbs, he⟩ := bind_eq_ok.mp hf
  cases he
  have hne' : ¬ s.flushData.height = s.db.dbHeight := hne
  rw [DB.flushDbs, if_neg hne'] at hdbs
  obtain ⟨⟨fd₁, db₁⟩, hfs, hdbs⟩ := bind_eq_ok.mp hdbs
  cases h.flushFs_eq.symm.trans hfs
  obtain ⟨db₂, hh, hdbs⟩ := bind_eq_ok.mp hdbs
  obtain ⟨hist', hfl, he⟩ := bind_eq_ok.mp hh
  cases he
  obtain ⟨⟨ops, fd₂, db₃⟩, hu, hdbs⟩ := bind_eq_ok.mp hdbs
  cases hdbs
  obtain ⟨undos, -, hu⟩ := bind_eq_ok.mp hu
  cases hu
  exact stateRead_of_historyFlush hist.version hfl

/-- From a disk that records a chain the tool can come to the end of its passes. -/
private theorem Recoverable.exists_compaction
    (h : Recoverable env disk flushCount historyCount rows chain) (hs : 0 < size)
    (hl : ∀ hashX, (touching env.coin chain hashX).length ≤ flushIds * size) {n : Nat}
    (hidle : StateRead env.historyCodec disk.history n (-1) (-1)) :
    ∃ r db h' rows', BlockProcessor.firstOpenDbs env disk = .ok r ∧
      DB.openDbs env {} disk true = .ok db ∧ db.firstSync = r.db.firstSync ∧
      Recoverable env db.disk flushCount flushCount (dropRows rows flushCount) chain ∧
      Completed env.historyCodec size (touching env.coin chain) h' rows' ∧
      RecordHeld env.historyCodec h'.db h'.flushCount ∧
      Reach (Compactor.step size env.historyCodec) (fun _ e ↦ ∃ limit, e = .pass limit)
        (beganCompaction db) ⟨h'.db, flushCount, some h'⟩ := by
  obtain ⟨r, hist, hr, ho, hr', hrec, hkept⟩ := h.openCompacting size hidle
  obtain ⟨-, rows₁, hm⟩ := hkept.process _ rfl
  have hm := hm.resolve_right fun hc ↦ by
    have hcur : (beganCompaction { r.db with history := hist }).process = some _ := rfl
    have := hc.cursor
    unfold History.beginCompaction at this
    dsimp only at this
    split at this
    · cases this
    · contradiction
  obtain ⟨h', rows', hc, hreach⟩ := exists_completed env.historyCodec
    (fun _ e ↦ ∃ limit, e = .pass limit) hs hl Nat.one_pos (fun _ ↦ ⟨1, rfl⟩) rfl hm
  obtain ⟨n, hheld⟩ := (hreach.invariant hrec fun t t' e hk hg ht ↦ hk.step (by
    obtain ⟨limit, rfl⟩ := hg
    simp) ht).held
  obtain ⟨_, _, hread⟩ := hheld.stateRead
  refine ⟨r, _, h', rows', hr, ho, rfl, hr', hc, hread.flushCount_eq hc.record ▸ hheld, ?_⟩
  rw [hrec.utxoFlushCount_eq] at hreach
  exact hreach

private theorem Completed.rowsUpTo {codec : StateCodec HistoryState} {nums : HashX → List Nat}
    {h : History} (hc : Completed codec size nums h rows) : RowsUpTo rows h.flushCount := by
  intro x id hid
  by_contra hnil
  exact Nat.not_le_of_lt hid (Int.ofNat_le.mp ((hc.compacted x (prefixOf_lt x) id).2 hnil))

/-- The server opens what a compaction hands over. -/
private theorem Recoverable.open_handedOver
    (h : Recoverable env db.disk flushCount flushCount rows chain) {t : Compactor} {hist : History}
    (hopen : ({ db := ∅ } : History).openDb env.historyCodec t.db flushCount false = .ok hist)
    (hcount : hist.flushCount = flushCount) :
    ∃ s, BlockProcessor.firstOpenDbs env (handedOver db t) = .ok s ∧ s.db.history = hist := by
  have hload : (DB.load env {} db.disk).utxoDb = db.disk.utxo := rfl
  obtain ⟨firstSync, hread, -⟩ := h.readUtxoState hload
  obtain ⟨r, hr, -, -, -, -, hrcount, -⟩ := h.open
  refine ⟨_, firstOpenDbs_history hr (fun db' hdb' ↦ ?_) (hcount.trans hrcount.symm), rfl⟩
  cases hread.symm.trans hdb'
  exact hopen

/-- The disk of a fully flushed processor once its DB has recorded the end of the first sync. -/
def syncedDisk (env : Env) (s : BlockProcessor) : Disk :=
  { s.db.disk with
    utxo := s.db.utxoDb.write [({ s.db with firstSync := false } : DB).writeUtxoState env] }

private theorem getElem?_syncedDisk (env : Env) (s : BlockProcessor) {k : Bytes}
    (hk : k ≠ utxoStateKey) : (syncedDisk env s).utxo[k]? = s.db.utxoDb[k]? :=
  (Table.getElem?_write_put _ _ _ _).trans (if_neg (Ne.symm hk))

private theorem Indexed.syncedDisk (h : Indexed env s chain chain chain)
    {pend : HashX → List Nat}
    (hist : HistoryHolds env s.db.history s.db.utxoFlushCount rows pend chain chain chain) :
    Recoverable env (syncedDisk env s) s.db.utxoFlushCount s.db.history.flushCount rows chain := by
  have hr := h.recoverable_disk hist
  have hkey (b : UInt8) (hb : b ≠ 0x73) (k : Bytes) : (b :: k : Bytes) ≠ utxoStateKey :=
    fun he ↦ hb (List.cons.inj he).1
  have hheight : s.db.dbHeight = chain.length - 1 := by
    have := h.db.dbHeight
    omega
  obtain ⟨h1, h2, h3, h4⟩ := hr.files
  exact
    { hr with
      files := ⟨h1, h2, h3, h4⟩
      utxo := hr.utxo.congr (fun k ↦ getElem?_syncedDisk env s (hkey _ (by decide) k))
        (fun k ↦ getElem?_syncedDisk env s (hkey _ (by decide) k))
      undoKeys := fun k v hk ↦ hr.undoKeys k v
        ((getElem?_syncedDisk env s (hkey _ (by decide) k)).symm.trans hk)
      utxoState := by
        refine .inl ⟨false, (Table.getElem?_write_put _ _ _ _).trans ((if_pos rfl).trans ?_)⟩
        rw [← hheight, ← h.db.dbTxCount, ← h.db.dbTip, ← h.db.dbVersion] }

/-- A DB that has recorded the end of the first sync opens so. -/
private theorem firstSync_of_syncedDisk {r : BlockProcessor}
    (hr : Recoverable env (Index.syncedDisk env s) flushCount historyCount rows chain)
    (ho : BlockProcessor.firstOpenDbs env (Index.syncedDisk env s) = .ok r) :
    r.db.firstSync = false := by
  obtain ⟨r', hr', hi, -, hpruned, -⟩ := hr.open
  cases hr'.symm.trans ho
  have hsame : r.db.utxoDb[utxoStateKey]? = (Index.syncedDisk env s).utxo[utxoStateKey]? :=
    hpruned.others _ fun t he ↦ by cases (List.cons.inj he).1
  have hrecord : (Index.syncedDisk env s).utxo[utxoStateKey]? = some _ :=
    (Table.getElem?_write_put _ _ _ _).trans (if_pos rfl)
  rw [hrecord] at hsame
  rcases hi.db.utxoState with hheld | ⟨hnone, -⟩
  · have he := congrArg env.utxoCodec.literalEval (Option.some.inj (hsame.symm.trans hheld))
    rw [env.utxoCodec.literalEval_repr, env.utxoCodec.literalEval_repr] at he
    exact (congrArg UtxoState.firstSync (Option.some.inj he)).symm
  · cases hnone.symm.trans hsame

end Samples

/-! ### A sample -/

def sampleBusyTxs : List Tx := [10, 11, 12].map fun (id : UInt8) ↦ samplePayment [id] 5 [1]

def sampleBusyEnv : Env where
  coin := { sampleCoin with deserializer := fun _ _ ↦ .ok sampleBusyTxs }
  reorgLimit := 10
  utxoCodec := StateCodec.unary UtxoState
  historyCodec := StateCodec.unary HistoryState

def sampleBusyBlock : Block := { sampleGenesis with transactions := sampleBusyTxs }

/-- A block with three payments to one script, advanced on a new disk. -/
def sampleBusy : Except PyError BlockProcessor := do
  let s ← BlockProcessor.firstOpenDbs sampleBusyEnv { created := false }
  s.advanceBlocks sampleBusyEnv 1 [sampleBusyBlock]

private theorem sampleBusy_run {s : BlockProcessor} (h : sampleBusy = .ok s) :
    Run sampleBusyEnv (OwnUndos sampleBusyEnv) s [sampleBusyBlock] := by
  obtain ⟨s₁, h₁, h⟩ := bind_eq_ok.mp h
  exact .advanced 1 (.opened h₁) (by decide +kernel) h

/-- Flushed, and at the end of the first sync, its disk records the block at flush count 1. -/
private theorem sampleBusy_recoverable : ∃ disk rows,
    Recoverable sampleBusyEnv disk 1 1 rows [sampleBusyBlock] ∧
    LaterRows rows 1 (txCount [sampleBusyBlock]) ∧
    StateRead sampleBusyEnv.historyCodec disk.history 1 (-1) (-1) ∧
    ∀ r, BlockProcessor.firstOpenDbs sampleBusyEnv disk = .ok r → r.db.firstSync = false := by
  obtain ⟨s₁, h₁, hne, s, hf, hflushed, hcount, hutxo, hcomp, hcursor, -⟩ : ∃ s₁,
      sampleBusy = .ok s₁ ∧ s₁.height ≠ s₁.db.dbHeight ∧
      ∃ s, s₁.flush sampleBusyEnv true = .ok s ∧ FullyFlushed s ∧
        s.db.history.flushCount = 1 ∧ s.db.utxoFlushCount = 1 ∧
        s.db.history.compFlushCount = -1 ∧ s.db.history.compCursor = -1 ∧ True := by
    decide +kernel
  obtain ⟨_, _, hi₁⟩ := (sampleBusy_run h₁).indexed
  obtain ⟨_, _, hi⟩ := (Run.flushed true (sampleBusy_run h₁) hf).indexed
  have hi := hi.of_fullyFlushed hflushed
  obtain ⟨rows, pend, hist⟩ := hi.history
  have hidle := hi₁.stateRead_of_flush hne hf
  rw [hcount, hcomp, hcursor] at hidle
  have hr := hi.syncedDisk hist
  have hlater := laterRows_of_recorded hi.valid List.prefix_rfl hist.recordedRows hist.storedRows
  rw [hutxo, hcount] at hr
  rw [hutxo] at hlater
  exact ⟨_, rows, hr, hlater, hidle, fun r ho ↦ firstSync_of_syncedDisk hr ho⟩

private theorem length_touching_sampleBusy (x : HashX) :
    (touching sampleBusyEnv.coin [sampleBusyBlock] x).length ≤ 3 :=
  (List.length_filter_le _ _).trans (by rw [List.length_range]; decide +kernel)

/-- The script that the block pays. -/
def sampleBusyHashX : HashX := sampleBusyEnv.coin.hashXFromScript [1]

private theorem touching_sampleBusy :
    touching sampleBusyEnv.coin [sampleBusyBlock] sampleBusyHashX = [0, 1, 2] := by decide +kernel

/-- A completed compaction of the sample has the numbers in full rows. -/
private theorem row_sampleBusy {size : Nat} {h : History} {rows : HashX → Nat → List Nat}
    (hc : Completed sampleBusyEnv.historyCodec size
      (touching sampleBusyEnv.coin [sampleBusyBlock]) h rows) (id : Nat) :
    rows sampleBusyHashX id = (chunks [0, 1, 2] size)[id]?.getD [] := by
  rw [(hc.compacted _ (prefixOf_lt _) id).1, compactedRow, hc.numbers_eq, touching_sampleBusy]

/-! ### Harmless interruptions -/

/-- A compaction that is interrupted where the history DB is in step with the UTXO DB does not harm
the server: the databases open whenever it is started again, the history is that of the chain
behind every opening, flush and back-up, flushes write under new keys, and no row with recorded
numbers is deleted as an excess one. -/
theorem interrupted_compaction_harmless {env : Env} {size : Nat} {disk disk₁ disk' : Disk}
    {chain chain' : List Block} (hs : 0 < size) (h : RecordsChain env disk chain)
    (hidle : ∃ n, StateRead env.historyCodec disk.history n (-1) (-1))
    (hl : ∀ hashX, (touching env.coin chain hashX).length ≤ flushIds * size)
    (hi : InterruptedCompaction env size disk disk₁)
    (d : ServerDisk env disk₁ chain disk' chain') :
    ∃ s₀, BlockProcessor.firstOpenDbs env disk' = .ok s₀ ∧ TellsHistory env s₀ chain' ∧
      DropsLater disk' s₀ ∧ ∀ snap snapChain s c,
        ServerRun env s₀ chain' snap snapChain s c → FlushesWell env s c := by
  refine RecordsChain.keepsHistory ?_ d
  cases hi with
  | opening hcut => exact h.cutOpening hcut
  | running ho hrun hstep =>
    obtain ⟨flushCount, historyCount, rows, hr, -⟩ := h
    obtain ⟨n, hidle⟩ := hidle
    obtain ⟨_, hist, -, ho', hr', hrec, hkept⟩ := hr.openCompacting size hidle
    cases ho'.symm.trans ho
    obtain ⟨hrec, hkept⟩ := hrun.invariant
      (P := fun t ↦ KeepsRecord env.historyCodec flushCount t ∧
        CompactorKept env.historyCodec size (touching env.coin chain) t) ⟨hrec, hkept⟩
      fun t t' e hk hg ht ↦ ⟨hk.1.step hg.1 ht, hk.2.step hs hl hg.2 ht⟩
    exact recordsChain_handedOver hr' hrec hkept hstep

/-- A compaction into rows of two numbers that dies before the UTXO DB is told. -/
theorem sampleBusy_harmless : ∃ disk db h s, DB.openDbs sampleBusyEnv {} disk true = .ok db ∧
    h.compCursor = -1 ∧
    BlockProcessor.firstOpenDbs sampleBusyEnv (handedOver db ⟨h.db, 1, some h⟩) = .ok s ∧
    s.db.history.getTxnums sampleBusyHashX.val none = .ok [0, 1, 2] := by
  obtain ⟨disk, rows, hr, hlater, hidle, -⟩ := sampleBusy_recoverable
  have hl (x : HashX) : (touching sampleBusyEnv.coin [sampleBusyBlock] x).length ≤ flushIds * 2 :=
    (length_touching_sampleBusy x).trans (by decide)
  obtain ⟨r, db, h, rows', -, ho, -, -, hc, -, hreach⟩ :=
    hr.exists_compaction (by decide : 0 < 2) hl hidle
  have hle : 1 ≤ h.flushCount := Int.ofNat_le.mp
    ((hc.compacted _ (prefixOf_lt _) 1).2 (by rw [row_sampleBusy hc]; decide))
  have hstep : InStep sampleBusyEnv.historyCodec ⟨h.db, 1, some h⟩ := by
    refine ⟨fun _ _ _ hread ↦ ?_, fun x id hid hlt ↦ ?_⟩
    · rw [hread.flushCount_eq hc.record]
      exact hle
    · have hnil : rows' x id = [] := by
        have := length_touching_sampleBusy x
        rw [(hc.compacted x (prefixOf_lt x) id).1, compactedRow_eq_nil, hc.numbers_eq,
          length_chunks]
        change 1 < id at hlt
        omega
      exact (hc.table.row x id hid).trans (if_pos hnil)
  have hrun : Reach (Compactor.step 2 sampleBusyEnv.historyCodec)
      (fun t e ↦ e ≠ .setFlushCount ∧ (e = .start → NoExcess sampleBusyEnv.historyCodec t))
      (beganCompaction db) ⟨h.db, 1, some h⟩ := by
    refine hreach.mono fun t e he ↦ ?_
    obtain ⟨limit, rfl⟩ := he
    simp
  obtain ⟨s, hs, htells, -⟩ := interrupted_compaction_harmless (by decide) ⟨1, 1, rows, hr, hlater⟩
    ⟨_, hidle⟩ hl (.running ho hrun hstep) .start
  have htxnums := (htells sampleBusyHashX).1
  rw [touching_sampleBusy] at htxnums
  exact ⟨disk, db, h, s, ho, hc.cursor, hs, htxnums⟩

/-- A compaction into rows of one number that dies before the UTXO DB is told loses a number when
the server is started again. -/
theorem not_interrupted_compaction_harmless : ¬ ∀ (env : Env) (size : Nat) (disk : Disk)
    (chain : List Block) (db : DB) (t : Compactor) (s : BlockProcessor), 0 < size →
    RecordsChain env disk chain → (∃ n, StateRead env.historyCodec disk.history n (-1) (-1)) →
    (∀ hashX, (touching env.coin chain hashX).length ≤ flushIds * size) →
    DB.openDbs env {} disk true = .ok db → db.firstSync = false →
    Reach (Compactor.step size env.historyCodec) (fun _ e ↦ ∃ limit, e = .pass limit)
      (beganCompaction db) t →
    BlockProcessor.firstOpenDbs env (handedOver db t) = .ok s → TellsHistory env s chain := by
  intro hall
  obtain ⟨disk, rows, hr, hlater, hidle, hsynced⟩ := sampleBusy_recoverable
  have hl (x : HashX) : (touching sampleBusyEnv.coin [sampleBusyBlock] x).length ≤ flushIds * 1 :=
    (length_touching_sampleBusy x).trans (by decide)
  obtain ⟨r, db, h', rows', ho, hoc, hsync, hr', hc, hheld, hreach⟩ :=
    hr.exists_compaction Nat.one_pos hl hidle
  -- The three numbers are in rows of their own, the last one under the id 2.
  have hrow := row_sampleBusy hc
  have hle : 2 ≤ h'.flushCount := Int.ofNat_le.mp
    ((hc.compacted _ (prefixOf_lt _) 2).2 (by rw [hrow]; decide))
  obtain ⟨hist₂, hopen, hrows, hcount₂, -⟩ :=
    hc.table.openDb hc.rowsUpTo (by omega : 1 ≤ h'.flushCount) hheld
  obtain ⟨s₂, hs₂, rfl⟩ :=
    hr'.open_handedOver (t := ⟨h'.db, 1, some h'⟩) hopen hcount₂
  have htells := (hall sampleBusyEnv 1 _ _ _ _ _ Nat.one_pos ⟨1, 1, rows, hr, hlater⟩
    ⟨_, hidle⟩ hl hoc (hsync.trans (hsynced r ho)) hreach hs₂ sampleBusyHashX).1
  rw [HistoryRows.getTxnums_none hrows, touching_sampleBusy, Except.ok.injEq] at htells
  have hmem : 2 ∈ numbers (dropRows rows' 1) sampleBusyHashX := by
    rw [htells]
    decide
  obtain ⟨id, -, hmem⟩ := List.mem_flatMap.mp hmem
  rw [dropRows] at hmem
  split at hmem
  · cases hmem
  · rw [hrow] at hmem
    obtain rfl | rfl : id = 0 ∨ id = 1 := by omega
    all_goals
      revert hmem
      decide

end ElectrumX.Index
