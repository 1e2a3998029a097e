import ElectrumX.Index.BackupCrash

/-!
# Shutdown

A cancelled block processor flushes everything before it exits. Shielded work in a thread ends
first, so the flush finds a state between two pieces of such work. It is the forward flush, and
can only complete when the blocks in memory are on top of those in the DB: not when the
cancellation came between `backup_blocks` and `flush_backup`.
-/

namespace ElectrumX.Index
open ElectrumX.Base ElectrumX.Lib ElectrumX.Chain ElectrumX.Server

/-- The work in a thread that was the last to end before the handler of `CancelledError` runs. -/
inductive CancelPoint
  /-- None, or `advance_blocks`, a flush or `flush_backup`. -/
  | flushable
  /-- `backup_blocks`, `block_processor.py:292`. -/
  | backedUp
  deriving DecidableEq, Repr

/-- The states in which the handler of `CancelledError` flushes, `block_processor.py:717–719`,
and the chain of each. -/
inductive CancelledRun (env : Env) (guard : DB → List Block → List Block → Prop) :
    CancelPoint → BlockProcessor → List Block → Prop
  | flushable {s : BlockProcessor} {chain : List Block} (r : Run env guard s chain) :
      CancelledRun env guard .flushable s chain
  | backedUp {s s' : BlockProcessor} {chain blocks : List Block}
      (r : Run env guard s (chain ++ blocks)) (hg : guard s.db chain blocks) (hne : blocks ≠ [])
      (h : s.backupBlocks env (blocks.map (·.raw)).reverse = .ok s') :
      CancelledRun env guard .backedUp s' chain

/-- The DBs have been flushed up to the end of a chain, and are found so again. -/
structure FlushedAt (env : Env) (s : BlockProcessor) (chain : List Block) : Prop where
  flushed : FullyFlushed s
  height : s.height + 1 = chain.length
  dbHeight : s.db.dbHeight = s.height
  dbTip : s.db.dbTip = tip env.coin chain
  txCounts : s.db.txCounts = some (counts chain)
  files : FilesHold env s.db.disk chain
  utxos : TablesShow s.db.utxoDb ∅ [] (unspent env.coin chain)
  txnums : ∀ hashX : HashX,
    s.db.history.getTxnums hashX.val none = .ok (touching env.coin chain hashX)
  reopens : ∃ r, BlockProcessor.firstOpenDbs env s.db.disk = .ok r ∧ Consistent env r chain

instance (undoInfos : List (List Bytes × Int)) : Decidable (UndoKeysFit undoInfos) :=
  inferInstanceAs (Decidable (∀ u ∈ undoInfos, _))

section Flushing

variable {env : Env} {s s' : BlockProcessor} {recorded stored chain : List Block}

theorem Indexed.flushedAt (h : Indexed env s chain chain chain) : FlushedAt env s chain := by
  obtain ⟨hcache, hdeletes, -⟩ := h.nothing_pending
  have hcons := h.consistent
  have hheight := h.height_eq
  have hdb := h.db.dbHeight
  refine ⟨h.assertFlushed, hheight, by omega, h.db.dbTip, h.counts_eq, h.db.files, ?_,
    hcons.txnums, h.reopens⟩
  rw [← hcache, ← hdeletes]
  exact hcons.utxos

/-- The flush of everything succeeds exactly when there is nothing to flush or the next flush id
and the heights with undo information fit their keys. -/
theorem Indexed.flush_iff (h : Indexed env s recorded stored chain) :
    (∃ s', s.flush env true = .ok s') ↔
      (s.height ≠ s.db.dbHeight →
        s.db.history.flushCount + 1 < flushIds ∧ UndoKeysFit s.undoInfos) := by
  obtain ⟨rest, rfl⟩ := h.stored_prefix
  by_cases he : s.height = s.db.dbHeight
  · obtain ⟨rfl, hs⟩ := h.eq_of_height he
    rw [← hs] at h
    exact iff_of_true ⟨s, h.flush_self true⟩ fun hne ↦ absurd he hne
  · constructor
    · rintro ⟨s', hf⟩ -
      rcases h.flush_cases hf with ⟨hrec, rfl, rfl⟩ | ⟨_, _, _, -, -, hid, hundo, -⟩
      · have hheight := h.height_eq
        have hdb := h.db.dbHeight
        rw [hrec] at hdb
        omega
      · exact ⟨hid, hundo rfl⟩
    · intro hfits
      obtain ⟨hid, hundo⟩ := hfits he
      obtain ⟨rows, pend, hist⟩ := h.held.history
      obtain ⟨hdb, hf, -⟩ := h.held.flush_eq hist true he hid fun _ ↦ hundo
      exact ⟨_, hf⟩

/-- The forward flush refuses blocks that have been backed up in memory only. -/
theorem Unwinding.not_flush {top : List Block} (h : Unwinding env s top chain)
    (hlt : chain.length < top.length) (flushUtxos : Bool) :
    ¬∃ s', s.flush env flushUtxos = .ok s' := by
  rintro ⟨s', hf⟩
  have hheight := h.height_eq
  have hdb := h.db.dbHeight
  have hfs := h.db.fsHeight
  have hne : ¬s.flushData.height = s.db.dbHeight := by
    change ¬s.height = s.db.dbHeight
    omega
  obtain ⟨_, hf, -⟩ := bind_eq_ok.mp hf
  rw [DB.flushDbs, if_neg hne] at hf
  obtain ⟨_, hf, -⟩ := bind_eq_ok.mp hf
  obtain ⟨_, -, hf⟩ := bind_eq_ok.mp hf
  obtain ⟨_, -, hf⟩ := bind_eq_ok.mp hf
  obtain ⟨_, hasserted, -⟩ := bind_eq_ok.mp hf
  have heq : s.height = s.db.fsHeight + s.headers.length := assertThat_eq_ok.mp hasserted
  rw [h.headers_eq, List.length_nil] at heq
  omega

end Flushing

/-- The flush of the handler of `CancelledError` completes and leaves the DBs fully flushed at the
processor's height exactly when the cancellation did not fall between `backup_blocks` and
`flush_backup`, and what is to be flushed fits its keys. -/
theorem CancelledRun.flushes_iff {env : Env} {p : CancelPoint} {s : BlockProcessor}
    {chain : List Block} (r : CancelledRun env (OwnUndos env) p s chain) :
    (∃ s', s.flush env true = .ok s' ∧ s'.height = s.height ∧ FlushedAt env s' chain) ↔
      p = .flushable ∧ (s.height ≠ s.db.dbHeight →
        s.db.history.flushCount + 1 < flushIds ∧ UndoKeysFit s.undoInfos) := by
  cases r with
  | flushable r =>
    obtain ⟨recorded, stored, h⟩ := r.indexed
    rw [and_iff_right rfl, ← h.flush_iff]
    constructor
    · rintro ⟨s', hf, -⟩
      exact ⟨s', hf⟩
    · rintro ⟨s', hf⟩
      have h' : Indexed env s' chain chain chain := h.flush hf
      have hheight := h.height_eq
      have hheight' := h'.height_eq
      exact ⟨s', hf, by omega, h'.flushedAt⟩
  | @backedUp t _ _ blocks r hown hne hb =>
    obtain ⟨recorded, stored, h⟩ := r.indexed
    obtain ⟨_, hflushed, -⟩ := bind_eq_ok.mp hb
    have hflushed' : FullyFlushed t := hflushed
    obtain ⟨-, hu, -⟩ := (h.of_fullyFlushed hflushed').of_backupBlocks hown hb
    have hlt : chain.length < (chain ++ blocks).length := by
      rw [List.length_append]
      have := List.length_pos_of_ne_nil hne
      omega
    constructor
    · rintro ⟨s', hf, -⟩
      exact absurd ⟨s', hf⟩ (hu.not_flush hlt true)
    · rintro ⟨hp, -⟩
      cases hp

/-- A cancellation in the advance of block `a`. -/
theorem sampleCancelled_flushes : ∃ s₀ s s', sampleStart = .ok s₀ ∧
    s₀.advanceBlocks sampleEnv 1 [sampleA] = .ok s ∧ s.flush sampleEnv true = .ok s' ∧
    FlushedAt sampleEnv s' [sampleGenesis, sampleA] := by
  obtain ⟨s₀, h₀, s, hs, hid, hundo⟩ : ∃ s₀, sampleStart = .ok s₀ ∧
    ∃ s, s₀.advanceBlocks sampleEnv 1 [sampleA] = .ok s ∧
    s.db.history.flushCount + 1 < flushIds ∧ UndoKeysFit s.undoInfos := by decide +kernel
  have hv : ValidChain sampleCoin [sampleGenesis, sampleA] := by decide +kernel
  have r : Run sampleEnv (OwnUndos sampleEnv) s ([sampleGenesis] ++ [sampleA]) :=
    .advanced 1 (sampleStart_run h₀) hv hs
  obtain ⟨s', hf, -, h'⟩ := (CancelledRun.flushable r).flushes_iff.mpr
    ⟨rfl, fun _ ↦ ⟨hid, hundo⟩⟩
  exact ⟨s₀, s, s', h₀, hs, hf, h'⟩

/-- A cancellation in the back-up of block `a`. -/
theorem not_cancelled_flushes : ¬ ∀ (env : Env) (p : CancelPoint) (s : BlockProcessor)
    (chain : List Block), CancelledRun env (fun _ _ _ ↦ True) p s chain →
    ∃ s', s.flush env true = .ok s' ∧ s'.height = s.height ∧ FlushedAt env s' chain := by
  intro hall
  obtain ⟨s, hs, hf, hown, s₁, hs₁, -⟩ : ∃ s, sampleAdvance = .ok s ∧ FullyFlushed s ∧
    OwnUndos sampleEnv s.db [sampleGenesis] [sampleA] ∧
    ∃ s₁, s.backupBlocks sampleEnv [sampleA.raw] = .ok s₁ ∧ True := by decide +kernel
  have hb : s.backupBlocks sampleEnv ([sampleA].map (·.raw)).reverse = .ok s₁ := hs₁
  have r : Run sampleEnv (OwnUndos sampleEnv) s ([sampleGenesis] ++ [sampleA]) :=
    sampleAdvance_run hs
  obtain ⟨_, _, hi⟩ := r.indexed
  obtain ⟨-, hu, -⟩ := (hi.of_fullyFlushed hf).of_backupBlocks hown hb
  obtain ⟨s', hf', -⟩ := hall sampleEnv .backedUp s₁ [sampleGenesis]
    (.backedUp (sampleAdvance_run hs) trivial (by simp) hb)
  exact hu.not_flush (by simp) true ⟨s', hf'⟩

end ElectrumX.Index
