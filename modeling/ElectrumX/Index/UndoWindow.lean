import ElectrumX.Index.Reorg

/-!
# The undo window

Undo information is kept of the blocks that lie within the reorg limit of the daemon's height
when they are advanced. Whatever else a run does, and whatever its blocks are, the undo rows
within the reorg limit of that height are those of the blocks of the chain: a row that an orphaned
block left behind is overwritten when its height comes within the limit again.
-/

namespace ElectrumX.Index
open ElectrumX.Base ElectrumX.Lib ElectrumX.Chain ElectrumX.Server

/-- The undo entries that `advance_txs` returns for each block in the loop of `advance_blocks`. -/
def blockUndos (env : Env) (minHeight : Int) :
    Int → BlockProcessor → List Block → Except PyError (List (List Bytes))
  | _, _, [] => return []
  | height, bp, block :: rest => do
    let height := height + 1
    let (undoInfo, bp) ←
      bp.advanceTxs env block.transactions (env.coin.isUnspendableAt height)
    let bp := if height ≥ minHeight then
        { bp with
          undoInfos := bp.undoInfos ++ [(undoInfo, height)]
          db := bp.db.writeRawBlock env block.raw height }
      else bp
    return undoInfo :: (← blockUndos env minHeight height bp rest)

/-- The states that a processor reaches when the daemon's height never decreases and is at least
that of every block that is advanced, with the blocks of the chain and their undo entries. A
restart goes on with what lies on disk. -/
inductive UndoRun (env : Env) : Int → BlockProcessor → List (Block × List Bytes) → Prop
  | opened {s : BlockProcessor} (cachedHeight : Int)
      (h : BlockProcessor.firstOpenDbs env { created := false } = .ok s) :
      UndoRun env cachedHeight s []
  | polled {s : BlockProcessor} {chain : List (Block × List Bytes)} {cachedHeight higher : Int}
      (r : UndoRun env cachedHeight s chain) (hc : cachedHeight ≤ higher) :
      UndoRun env higher s chain
  | advanced {s s' : BlockProcessor} {chain : List (Block × List Bytes)} {cachedHeight : Int}
      {blocks : List Block} {undos : List (List Bytes)} (r : UndoRun env cachedHeight s chain)
      (hc : (chain.length + blocks.length : Int) ≤ cachedHeight + 1)
      (hu : blockUndos env (DB.minUndoHeight env cachedHeight) s.height s blocks = .ok undos)
      (h : s.advanceBlocks env cachedHeight blocks = .ok s') :
      UndoRun env cachedHeight s' (chain ++ blocks.zip undos)
  | flushed {s s' : BlockProcessor} {chain : List (Block × List Bytes)} {cachedHeight : Int}
      (flushUtxos : Bool) (r : UndoRun env cachedHeight s chain)
      (h : s.flush env flushUtxos = .ok s') : UndoRun env cachedHeight s' chain
  | backedUp {s s' : BlockProcessor} {chain : List (Block × List Bytes)} {cachedHeight : Int}
      {rawBlocks : List Bytes} (r : UndoRun env cachedHeight s chain)
      (h : s.backupChunk env rawBlocks = .ok s') :
      UndoRun env cachedHeight s' (chain.take (chain.length - rawBlocks.length))
  | notified {s : BlockProcessor} {chain : List (Block × List Bytes)} {cachedHeight : Int}
      (r : UndoRun env cachedHeight s chain) :
      UndoRun env cachedHeight { s with touched := ∅ } chain
  | restarted {s s' : BlockProcessor} {chain : List (Block × List Bytes)} {cachedHeight : Int}
      (r : UndoRun env cachedHeight s chain)
      (h : BlockProcessor.firstOpenDbs env s.db.disk = .ok s') :
      UndoRun env cachedHeight s' (chain.take (s'.height + 1).toNat)

/-! ### Keys of the UTXO tables -/

/-- Keys of the `h` and `u` tables. -/
def RowKeys (keys : List Bytes) : Prop :=
  ∀ k ∈ keys, ∃ t, k = prefixH :: t ∨ k = prefixU :: t

theorem RowKeys.nil : RowKeys [] := nofun

theorem RowKeys.append {a b : List Bytes} (ha : RowKeys a) (hb : RowKeys b) : RowKeys (a ++ b) :=
  fun k hk ↦ (List.mem_append.mp hk).elim (ha k) (hb k)

/-- The row of an entry that is found is one of the candidates. -/
theorem findCandidate_keys {db : DB} {txHash : Bytes} {many : Bool}
    {candidates : List (Bytes × Bytes)} {entry hdbKey udbKey : Bytes}
    (h : BlockProcessor.findCandidate db txHash many candidates =
      .ok (some (entry, hdbKey, udbKey))) :
    (∃ e ∈ candidates, hdbKey = e.1) ∧ ∃ t, udbKey = prefixU :: t := by
  induction candidates with
  | nil => cases h
  | cons e rest ih =>
    have hrest (h : BlockProcessor.findCandidate db txHash many rest =
        .ok (some (entry, hdbKey, udbKey))) :
        (∃ x ∈ e :: rest, hdbKey = x.1) ∧ ∃ t, udbKey = prefixU :: t := by
      obtain ⟨⟨x, hx, he⟩, ht⟩ := ih h
      exact ⟨⟨x, List.mem_cons_of_mem _ hx, he⟩, ht⟩
    rw [BlockProcessor.findCandidate] at h
    simp only [pure_bind, Bool.false_eq_true, if_false, if_true] at h
    split at h
    · obtain ⟨txNum, -, h⟩ := bind_eq_ok.mp h
      split at h
      · obtain ⟨_, -, h⟩ := bind_eq_ok.mp h
        exact hrest h
      split at h
      · cases h
        exact ⟨⟨e, List.mem_cons_self, rfl⟩, _, rfl⟩
      · exact hrest h
    split at h
    · cases h
      exact ⟨⟨e, List.mem_cons_self, rfl⟩, _, rfl⟩
    · exact hrest h

theorem spendUtxo_keys {db : DB} {utxoCache utxoCache' : Table} {dbDeletes dbDeletes' : List Bytes}
    {txHash entry : Bytes} {txIdx : Nat} (hk : RowKeys dbDeletes)
    (h : BlockProcessor.spendUtxo db utxoCache dbDeletes txHash txIdx =
      .ok (entry, utxoCache', dbDeletes')) : RowKeys dbDeletes' := by
  rw [BlockProcessor.spendUtxo] at h
  obtain ⟨idxPacked, -, h⟩ := bind_eq_ok.mp h
  dsimp only at h
  split at h
  · cases h
    exact hk
  · obtain ⟨found, hf, h⟩ := bind_eq_ok.mp h
    split at h
    · cases h
      obtain ⟨⟨e, he, rfl⟩, t, rfl⟩ := findCandidate_keys hf
      obtain ⟨t', ht'⟩ := (Table.mem_iterator.mp he).2
      refine hk.append fun k hm ↦ ?_
      rcases List.mem_pair.mp hm with rfl | rfl
      · exact ⟨_, .inl ht'.symm⟩
      · exact ⟨t, .inr rfl⟩
    · cases h

theorem spendInputs_keys {db : DB} {txins : List TxInput} {utxoCache utxoCache' : Table}
    {dbDeletes dbDeletes' spent : List Bytes} (hk : RowKeys dbDeletes)
    (h : BlockProcessor.spendInputs db utxoCache dbDeletes txins =
      .ok (spent, utxoCache', dbDeletes')) : RowKeys dbDeletes' := by
  induction txins generalizing utxoCache dbDeletes spent with
  | nil =>
    cases h
    exact hk
  | cons txin rest ih =>
    rw [BlockProcessor.spendInputs] at h
    split at h
    · exact ih hk h
    · obtain ⟨⟨e, cache, deletes⟩, hs, h⟩ := bind_eq_ok.mp h
      obtain ⟨⟨es, cache', deletes'⟩, hr, h⟩ := bind_eq_ok.mp h
      cases h
      exact ih (spendUtxo_keys hk hs) hr

theorem advanceLoop_keys {env : Env} {isUnspendable : Bytes → Bool} {db : DB} {txs : List Tx}
    {txNum : Nat} {utxoCache utxoCache' : Table} {dbDeletes dbDeletes' undo : List Bytes}
    {hashXs : List (List Bytes)} (hk : RowKeys dbDeletes)
    (h : BlockProcessor.advanceLoop env isUnspendable db txNum utxoCache dbDeletes txs =
      .ok (undo, hashXs, utxoCache', dbDeletes')) : RowKeys dbDeletes' := by
  induction txs generalizing txNum utxoCache dbDeletes undo hashXs with
  | nil =>
    cases h
    exact hk
  | cons tx rest ih =>
    rw [BlockProcessor.advanceLoop] at h
    obtain ⟨txNumb, -, h⟩ := bind_eq_ok.mp h
    obtain ⟨⟨spent, cache, deletes⟩, hs, h⟩ := bind_eq_ok.mp h
    obtain ⟨⟨paid, cache'⟩, -, h⟩ := bind_eq_ok.mp h
    obtain ⟨⟨undo', xs, cache'', deletes'⟩, hr, h⟩ := bind_eq_ok.mp h
    cases h
    exact ih (spendInputs_keys hk hs) hr

theorem spendOutputs_keys {isUnspendable : Bytes → Bool} {db : DB} {txHash : Bytes}
    {txouts : List TxOutput} {idx : Nat} {utxoCache utxoCache' : Table}
    {dbDeletes dbDeletes' : List Bytes} {touched touched' : Std.ExtTreeSet Bytes}
    (hk : RowKeys dbDeletes)
    (h : BlockProcessor.spendOutputs isUnspendable db txHash idx utxoCache dbDeletes touched
      txouts = .ok (utxoCache', dbDeletes', touched')) : RowKeys dbDeletes' := by
  induction txouts generalizing idx utxoCache dbDeletes touched with
  | nil =>
    cases h
    exact hk
  | cons txout rest ih =>
    rw [BlockProcessor.spendOutputs] at h
    split at h
    · exact ih hk h
    · obtain ⟨⟨e, cache, deletes⟩, hs, h⟩ := bind_eq_ok.mp h
      exact ih (spendUtxo_keys hk hs) h

theorem backupLoop_keys {isUnspendable : Bytes → Bool} {db : DB} {undoInfo : Bytes} {txs : List Tx}
    {n n' : Int} {utxoCache utxoCache' : Table} {dbDeletes dbDeletes' : List Bytes}
    {touched touched' : Std.ExtTreeSet Bytes} (hk : RowKeys dbDeletes)
    (h : BlockProcessor.backupLoop isUnspendable db undoInfo n utxoCache dbDeletes touched txs =
      .ok (n', utxoCache', dbDeletes', touched')) : RowKeys dbDeletes' := by
  induction txs generalizing n utxoCache dbDeletes touched with
  | nil =>
    cases h
    exact hk
  | cons tx rest ih =>
    rw [BlockProcessor.backupLoop] at h
    obtain ⟨⟨cache, deletes, t⟩, hs, h⟩ := bind_eq_ok.mp h
    exact ih (spendOutputs_keys hk hs) h

/-! ### Advancing and backing up -/

/-- The UTXO DB stays as it is, with its height, and only row keys are to be deleted. -/
structure KeepsDb (s s' : BlockProcessor) : Prop where
  utxoDb : s'.db.utxoDb = s.db.utxoDb
  dbHeight : s'.db.dbHeight = s.db.dbHeight
  dbVersion : s'.db.dbVersion = s.db.dbVersion
  deletes : RowKeys s.dbDeletes → RowKeys s'.dbDeletes

theorem KeepsDb.refl (s : BlockProcessor) : KeepsDb s s := ⟨rfl, rfl, rfl, id⟩

theorem KeepsDb.trans {s s' s'' : BlockProcessor} (h : KeepsDb s s') (h' : KeepsDb s' s'') :
    KeepsDb s s'' :=
  ⟨h'.utxoDb.trans h.utxoDb, h'.dbHeight.trans h.dbHeight, h'.dbVersion.trans h.dbVersion,
    h'.deletes ∘ h.deletes⟩

section Steps

variable {env : Env} {s s' : BlockProcessor}

theorem advanceTxs_keeps {txs : List Tx} {isUnspendable : Bytes → Bool} {undoInfo : List Bytes}
    (h : s.advanceTxs env txs isUnspendable = .ok (undoInfo, s')) :
    KeepsDb s s' ∧ s'.height = s.height ∧ s'.undoInfos = s.undoInfos := by
  obtain ⟨⟨undo, hashXs, cache, deletes⟩, hl, h⟩ := bind_eq_ok.mp h
  obtain ⟨history, -, h⟩ := bind_eq_ok.mp h
  cases h
  exact ⟨⟨rfl, rfl, rfl, fun hk ↦ advanceLoop_keys hk hl⟩, rfl, rfl⟩

/-- The loop over the blocks keeps the undo entries of those from the minimum height on. -/
theorem advanceBlocksLoop_keeps {minHeight height : Int} {blocks : List Block}
    {undos : List (List Bytes)} (hu : blockUndos env minHeight height s blocks = .ok undos)
    (h : BlockProcessor.advanceBlocksLoop env minHeight height s blocks = .ok s') :
    KeepsDb s s' ∧ s'.height = s.height ∧ undos.length = blocks.length ∧
      ∀ w, w ∈ s'.undoInfos ↔ w ∈ s.undoInfos ∨
        ∃ (j : Nat) (u : List Bytes), undos[j]? = some u ∧ w = (u, height + 1 + j) ∧
          minHeight ≤ height + 1 + j := by
  induction blocks generalizing s height undos with
  | nil =>
    cases hu
    cases h
    exact ⟨.refl _, rfl, rfl, fun w ↦ by simp⟩
  | cons b rest ih =>
    obtain ⟨⟨undoInfo, s1⟩, h1, h⟩ := bind_eq_ok.mp h
    obtain ⟨p, h1', hu⟩ := bind_eq_ok.mp hu
    cases h1.symm.trans h1'
    obtain ⟨undos, hr, hu⟩ := bind_eq_ok.mp hu
    cases hu
    obtain ⟨hk1, hh1, hu1⟩ := advanceTxs_keeps h1
    obtain ⟨hk, hh, hl, hw⟩ := ih hr h
    have hk2 : KeepsDb s1 (if height + 1 ≥ minHeight then
        { s1 with
          undoInfos := s1.undoInfos ++ [(undoInfo, height + 1)]
          db := s1.db.writeRawBlock env b.raw (height + 1) }
        else s1) := by
      split
      · exact ⟨rfl, rfl, rfl, id⟩
      · exact .refl _
    refine ⟨(hk1.trans hk2).trans hk, ?_, by simp [hl], fun w ↦ ?_⟩
    · rw [hh, ← hh1]
      split <;> rfl
    · rw [hw]
      have hhead : w ∈ (if height + 1 ≥ minHeight then
          { s1 with
            undoInfos := s1.undoInfos ++ [(undoInfo, height + 1)]
            db := s1.db.writeRawBlock env b.raw (height + 1) }
          else s1).undoInfos ↔
          w ∈ s.undoInfos ∨ w = (undoInfo, height + 1) ∧ minHeight ≤ height + 1 := by
        rw [← hu1]
        split
        · next hm => simp [hm]
        · next hm => simp [hm]
      rw [hhead, or_assoc]
      refine or_congr_right ⟨?_, ?_⟩
      · rintro (⟨rfl, hm⟩ | ⟨j, u, hj, rfl, hm⟩)
        · exact ⟨0, undoInfo, rfl, by simp, by simpa using hm⟩
        · refine ⟨j + 1, u, hj, ?_, ?_⟩
          · push_cast
            rw [Int.add_right_comm (height + 1) 1 j, Int.add_assoc (height + 1)]
          · push_cast
            omega
      · rintro ⟨j, u, hj, rfl, hm⟩
        cases j with
        | zero =>
          cases hj
          exact .inl ⟨by simp, by simpa using hm⟩
        | succ j =>
          refine .inr ⟨j, u, hj, ?_, ?_⟩
          · push_cast
            rw [Int.add_right_comm (height + 1) 1 j, Int.add_assoc (height + 1)]
          · push_cast at hm
            omega

/-- Blocks that are advanced have undo entries. -/
theorem exists_blockUndos {minHeight height : Int} {blocks : List Block}
    (h : BlockProcessor.advanceBlocksLoop env minHeight height s blocks = .ok s') :
    ∃ undos, blockUndos env minHeight height s blocks = .ok undos := by
  induction blocks generalizing s height with
  | nil => exact ⟨[], rfl⟩
  | cons b rest ih =>
    obtain ⟨⟨undoInfo, s1⟩, h1, h⟩ := bind_eq_ok.mp h
    obtain ⟨undos, hu⟩ := ih h
    exact ⟨undoInfo :: undos, bind_eq_ok.mpr ⟨_, h1, bind_eq_ok.mpr ⟨undos, hu, rfl⟩⟩⟩

theorem exists_undos_of_advanceBlocks {cachedHeight : Int} {blocks : List Block}
    (h : s.advanceBlocks env cachedHeight blocks = .ok s') :
    ∃ undos, blockUndos env (DB.minUndoHeight env cachedHeight) s.height s blocks = .ok undos :=
  let ⟨_, hl, _⟩ := bind_eq_ok.mp h
  exists_blockUndos hl

/-- On top of its chain a processor records for each valid block the outputs that it spends. -/
theorem HeldCore.blockUndos_eq {recorded stored chain blocks : List Block}
    (h : HeldCore env (touching env.coin) s recorded stored chain)
    (hv : ValidChain env.coin (chain ++ blocks)) (minHeight : Int) {height : Int}
    (hh : height + 1 = chain.length) :
    blockUndos env minHeight height s blocks = .ok ((undos env chain blocks).map Prod.fst) := by
  induction blocks generalizing s chain height with
  | nil => rfl
  | cons b rest ih =>
    rw [List.append_cons] at hv
    obtain ⟨s1, hr, h1, -⟩ := h.advanceValid hv.left
    have hlen : (chain ++ [b]).length = chain.length + 1 := by simp
    have hle := (h.recorded_prefix.trans h.stored_prefix).length_le
    have hh' : height + 1 + 1 = (chain ++ [b]).length := by omega
    have hrest : blockUndos env minHeight (height + 1) (if height + 1 ≥ minHeight then
        { s1 with
          undoInfos := s1.undoInfos ++ [((spentBy env.coin chain b).map packed, height + 1)]
          db := s1.db.writeRawBlock env b.raw (height + 1) }
        else s1) rest = .ok ((undos env (chain ++ [b]) rest).map Prod.fst) := by
      split
      · exact ih (h1.storeUndo _ b.raw (by omega) (by omega)) hv hh'
      · exact ih h1 hv hh'
    rw [undos_cons, List.map_cons]
    exact bind_eq_ok.mpr ⟨_, hh ▸ hr, bind_eq_ok.mpr ⟨_, hrest, rfl⟩⟩

theorem Indexed.blockUndos_eq {recorded stored chain blocks : List Block}
    (h : Indexed env s recorded stored chain) (hv : ValidChain env.coin (chain ++ blocks))
    (minHeight : Int) :
    blockUndos env minHeight s.height s blocks = .ok ((undos env chain blocks).map Prod.fst) :=
  h.held.toHeldCore.blockUndos_eq hv minHeight h.height_eq

theorem advanceBlocks_keeps {cachedHeight : Int} {blocks : List Block}
    {undos : List (List Bytes)}
    (hu : blockUndos env (DB.minUndoHeight env cachedHeight) s.height s blocks = .ok undos)
    (h : s.advanceBlocks env cachedHeight blocks = .ok s') :
    KeepsDb s s' ∧ s'.height = s.height + blocks.length ∧ undos.length = blocks.length ∧
      ∀ w, w ∈ s'.undoInfos ↔ w ∈ s.undoInfos ∨
        ∃ (j : Nat) (u : List Bytes), undos[j]? = some u ∧ w = (u, s.height + 1 + j) ∧
          DB.minUndoHeight env cachedHeight ≤ s.height + 1 + j := by
  obtain ⟨s1, hl, h⟩ := bind_eq_ok.mp h
  obtain ⟨hk, hh, hlen, hw⟩ := advanceBlocksLoop_keeps hu hl
  split at h
  · cases h
  · cases h
    exact ⟨⟨hk.utxoDb, hk.dbHeight, hk.dbVersion, hk.deletes⟩, by rw [← hh], hlen, hw⟩

theorem backupBlock_keeps {rawBlock : Bytes} (h : s.backupBlock env rawBlock = .ok s') :
    KeepsDb s s' ∧ s'.height = s.height - 1 ∧ s'.undoInfos = s.undoInfos := by
  obtain ⟨block, -, h⟩ := bind_eq_ok.mp h
  dsimp only at h
  split at h
  · cases h
  · obtain ⟨s1, h1, h⟩ := bind_eq_ok.mp h
    split at h
    · cases h
    · cases h
      obtain ⟨info, -, h1⟩ := bind_eq_ok.mp h1
      split at h1
      · cases h1
      · obtain ⟨⟨n, cache, deletes, touched⟩, hl, h1⟩ := bind_eq_ok.mp h1
        obtain ⟨_, -, h1⟩ := bind_eq_ok.mp h1
        cases h1
        exact ⟨⟨rfl, rfl, rfl, fun hk ↦ backupLoop_keys hk hl⟩, rfl, rfl⟩

theorem backupBlocks_keeps {rawBlocks : List Bytes}
    (h : rawBlocks.foldlM (BlockProcessor.backupBlock env) s = .ok s') :
    KeepsDb s s' ∧ s'.height = s.height - rawBlocks.length ∧ s'.undoInfos = s.undoInfos := by
  induction rawBlocks generalizing s with
  | nil =>
    cases h
    exact ⟨.refl _, by simp, rfl⟩
  | cons rawBlock rest ih =>
    rw [List.foldlM_cons] at h
    obtain ⟨s1, h1, h⟩ := bind_eq_ok.mp h
    obtain ⟨hk1, hh1, hu1⟩ := backupBlock_keeps h1
    obtain ⟨hk, hh, hu⟩ := ih h
    refine ⟨hk1.trans hk, ?_, hu.trans hu1⟩
    rw [hh, hh1, List.length_cons]
    omega

end Steps

/-! ### Commits to the UTXO DB -/

/-- The DB on disk has the height of the open DB. -/
def HeightRecorded (env : Env) (db : DB) : Prop :=
  (∃ record, db.utxoDb[utxoStateKey]? = some (env.utxoCodec.repr record) ∧
    record.height = db.dbHeight ∧ record.dbVersion = latestDbVersion) ∨
  db.utxoDb[utxoStateKey]? = none ∧ db.dbHeight = -1

/-- Undo information is written to its rows, and the state record. -/
structure CommitsUndos (env : Env) (s s' : BlockProcessor) (undoInfos : List (List Bytes × Int)) :
    Prop where
  fit : UndoKeysFit undoInfos
  rows : ∀ k, s'.db.utxoDb[prefixUndo :: k]? =
    (s.db.utxoDb.write ((undoPairs undoInfos).map fun p ↦ .put p.1 p.2))[prefixUndo :: k]?
  recorded : HeightRecorded env s'.db
  dbVersion : s'.db.dbVersion = latestDbVersion

section Commits

variable {env : Env} {s s' : BlockProcessor}

/-- A batch without undo keys leaves the undo rows alone. -/
theorem getElem?_write_noUndo {ops : List BatchOp} (t : Table)
    (h : ∀ op ∈ ops, ∀ k, op.key ≠ prefixUndo :: k) (k : Bytes) :
    (t.write ops)[prefixUndo :: k]? = t[prefixUndo :: k]? :=
  Table.getElem?_write_of_ne fun op hm ↦ h op hm k

theorem writeUtxoState_noUndo (db : DB) :
    ∀ op ∈ [db.writeUtxoState env], ∀ k, op.key ≠ prefixUndo :: k := by
  intro op hm k
  rw [List.mem_singleton.mp hm]
  exact fun he ↦ absurd (List.cons.inj he).1 (by decide)

variable (env) in
/-- The batch of `flush_utxo_db` writes the undo information and no other undo row. -/
theorem flushUtxoDb_rows {db db' : DB} {fd fd' : FlushData} {ops : List BatchOp}
    (h : db.flushUtxoDb fd = .ok (ops, fd', db')) (hk : RowKeys fd.deletes) (k : Bytes) :
    UndoKeysFit fd.undoInfos ∧
      (db'.utxoDb.write (ops ++ [db'.writeUtxoState env]))[prefixUndo :: k]? =
        (db.utxoDb.write ((undoPairs fd.undoInfos).map fun p ↦ .put p.1 p.2))[prefixUndo :: k]? := by
  obtain ⟨undos, hu, h⟩ := bind_eq_ok.mp h
  have hfit := undoKeysFit_of_ok hu
  rw [flushUndoInfos_eq hfit] at hu
  cases hu
  cases h
  refine ⟨hfit, ?_⟩
  have hrows (op : BatchOp) (hm : op ∈ (sorted fd.deletes).map BatchOp.delete ++
      fd.adds.toList.flatMap fun e ↦ DB.utxoRows e.1 e.2) (k : Bytes) :
      op.key ≠ prefixUndo :: k := by
    rcases List.mem_append.mp hm with hm | hm
    · obtain ⟨key, hkey, rfl⟩ := List.mem_map.mp hm
      obtain ⟨t, rfl | rfl⟩ := hk key (mem_sorted.mp hkey)
      · exact fun he ↦ absurd (List.cons.inj he).1 (by decide)
      · exact fun he ↦ absurd (List.cons.inj he).1 (by decide)
    · obtain ⟨e, -, hm⟩ := List.mem_flatMap.mp hm
      rcases List.mem_pair.mp hm with rfl | rfl
      · exact fun he ↦ absurd (List.cons.inj he).1 (by decide)
      · exact fun he ↦ absurd (List.cons.inj he).1 (by decide)
  rw [Table.write_append, getElem?_write_noUndo _ (writeUtxoState_noUndo _), Table.write_append]
  exact Table.getElem?_write_congr (getElem?_write_noUndo db.utxoDb hrows k) _

theorem flushUtxoDb_keeps {db db' : DB} {fd fd' : FlushData} {ops : List BatchOp}
    (h : db.flushUtxoDb fd = .ok (ops, fd', db')) :
    db'.dbHeight = fd.height ∧ db'.dbVersion = db.dbVersion ∧ fd'.undoInfos = [] ∧
      fd'.deletes = [] := by
  obtain ⟨undos, -, h⟩ := bind_eq_ok.mp h
  cases h
  exact ⟨rfl, rfl, rfl, rfl⟩

theorem flushFs_keeps {db db' : DB} {fd fd' : FlushData}
    (h : db.flushFs env fd = .ok (fd', db')) :
    fd' = { fd with headers := [], blockTxHashes := [] } ∧ db'.utxoDb = db.utxoDb ∧
      db'.dbHeight = db.dbHeight ∧ db'.dbVersion = db.dbVersion := by
  obtain ⟨prior, -, h⟩ := bind_eq_ok.mp h
  obtain ⟨_, -, h⟩ := bind_eq_ok.mp h
  obtain ⟨_, -, h⟩ := bind_eq_ok.mp h
  obtain ⟨_, -, h⟩ := bind_eq_ok.mp h
  obtain ⟨_, -, h⟩ := bind_eq_ok.mp h
  obtain ⟨_, -, h⟩ := bind_eq_ok.mp h
  obtain ⟨_, -, h⟩ := bind_eq_ok.mp h
  obtain ⟨offset, -, h⟩ := bind_eq_ok.mp h
  obtain ⟨db1, h1, h⟩ := bind_eq_ok.mp h
  cases h
  rw [DB.fsUpdateHeaderOffsets] at h1
  split at h1
  · cases h1
    exact ⟨rfl, rfl, rfl, rfl⟩
  · obtain ⟨offsets, -, h1⟩ := bind_eq_ok.mp h1
    cases h1
    exact ⟨rfl, rfl, rfl, rfl⟩

/-- The state record that is put last is the one on disk. -/
theorem heightRecorded_commit {db : DB} (hv : db.dbVersion = latestDbVersion)
    (ops : List BatchOp) : HeightRecorded env (db.commitUtxo (ops ++ [db.writeUtxoState env])) := by
  refine .inl ⟨{
    genesis := env.coin.genesisHash
    height := db.dbHeight
    txCount := db.dbTxCount
    tip := db.dbTip
    utxoFlushCount := db.utxoFlushCount
    firstSync := db.firstSync
    dbVersion := db.dbVersion }, ?_, rfl, hv⟩
  change (db.utxoDb.write (ops ++ [db.writeUtxoState env]))[utxoStateKey]? = _
  rw [Table.write_append]
  exact (Table.getElem?_write_put ..).trans (if_pos rfl)

/-- A flush does nothing, or commits the undo information when it flushes the UTXOs. -/
theorem flush_cases {flushUtxos : Bool} (hk : RowKeys s.dbDeletes)
    (hv : s.db.dbVersion = latestDbVersion) (h : s.flush env flushUtxos = .ok s') :
    s' = s ∨ CommitsUndos env s s' (if flushUtxos then s.undoInfos else []) ∧
      s'.height = s.height ∧ s'.db.dbHeight = (if flushUtxos then s.height else s.db.dbHeight) ∧
      s'.undoInfos = (if flushUtxos then [] else s.undoInfos) ∧ RowKeys s'.dbDeletes := by
  obtain ⟨⟨fd, db⟩, h1, h⟩ := bind_eq_ok.mp h
  cases h
  rw [DB.flushDbs] at h1
  split at h1
  · obtain ⟨_, -, h1⟩ := bind_eq_ok.mp h1
    cases h1
    exact .inl rfl
  · obtain ⟨⟨fd1, db1⟩, hfs, h1⟩ := bind_eq_ok.mp h1
    obtain ⟨rfl, hu1, hh1, hv1⟩ := flushFs_keeps hfs
    obtain ⟨db2, hhist, h1⟩ := bind_eq_ok.mp h1
    obtain ⟨history, -, hhist⟩ := bind_eq_ok.mp hhist
    cases hhist
    refine .inr ?_
    cases flushUtxos with
    | false =>
      cases h1
      refine ⟨⟨by simp [UndoKeysFit], fun k ↦ ?_, ?_, hv1.trans hv⟩, rfl, hh1, rfl, hk⟩
      · refine (getElem?_write_noUndo _ (writeUtxoState_noUndo _) k).trans ?_
        refine (getElem?_write_noUndo _ (writeUtxoState_noUndo (db1.commitHistory history)) k).trans ?_
        rw [← hu1]
        rfl
      · have hv' : ((db1.commitHistory history).commitUtxo ([] ++
            [(db1.commitHistory history).writeUtxoState env])).dbVersion = latestDbVersion :=
          hv1.trans hv
        exact heightRecorded_commit hv' []
    | true =>
      obtain ⟨⟨ops, fd3, db3⟩, h3, h1⟩ := bind_eq_ok.mp h1
      cases h1
      have hrows (k : Bytes) := flushUtxoDb_rows env h3 hk k
      obtain ⟨hh3, hv3, hu3, hd3⟩ := flushUtxoDb_keeps h3
      have hv : db3.dbVersion = latestDbVersion := hv3.trans (hv1.trans hv)
      refine ⟨⟨(hrows []).1, fun k ↦ ?_, ?_, hv⟩, rfl, hh3, hu3, ?_⟩
      · refine (getElem?_write_noUndo _ (writeUtxoState_noUndo _) k).trans ((hrows k).2.trans ?_)
        change (db1.utxoDb.write _)[prefixUndo :: k]? = _
        rw [hu1]
        rfl
      · have hv' : (db3.commitUtxo (ops ++ [db3.writeUtxoState env])).dbVersion =
            latestDbVersion := hv
        exact heightRecorded_commit hv' []
      · change RowKeys fd.deletes
        rw [hd3]
        exact .nil

/-- Backing up starts from a fully flushed state and commits no undo information. -/
theorem backupChunk_keeps {rawBlocks : List Bytes} (hk : RowKeys s.dbDeletes)
    (hv : s.db.dbVersion = latestDbVersion) (h : s.backupChunk env rawBlocks = .ok s') :
    CommitsUndos env s s' [] ∧ s.undoInfos = [] ∧ s.height = s.db.dbHeight ∧
      rawBlocks.length ≤ s.height ∧ s'.height = s.height - rawBlocks.length ∧
      s'.db.dbHeight = s'.height ∧ s'.undoInfos = [] ∧ RowKeys s'.dbDeletes := by
  obtain ⟨s1, h1, h2⟩ := bind_eq_ok.mp h
  obtain ⟨_, hfl, h1⟩ := bind_eq_ok.mp h1
  obtain ⟨_, hge, h1⟩ := bind_eq_ok.mp h1
  have hge := assertThat_eq_ok.mp hge
  obtain ⟨hk1, hh1, hu1⟩ := backupBlocks_keeps h1
  obtain ⟨_, -, hfl⟩ := bind_eq_ok.mp hfl
  obtain ⟨_, hheights, hfl⟩ := bind_eq_ok.mp hfl
  obtain ⟨_, -, hfl⟩ := bind_eq_ok.mp hfl
  obtain ⟨_, -, hfl⟩ := bind_eq_ok.mp hfl
  obtain ⟨_, -, hfl⟩ := bind_eq_ok.mp hfl
  obtain ⟨_, -, hfl⟩ := bind_eq_ok.mp hfl
  obtain ⟨_, -, hfl⟩ := bind_eq_ok.mp hfl
  obtain ⟨_, hundos, -⟩ := bind_eq_ok.mp hfl
  have hheights : s.height = s.db.fsHeight ∧ s.db.fsHeight = s.db.dbHeight :=
    assertThat_eq_ok.mp hheights
  have hundos : s.undoInfos = [] := assertThat_eq_ok.mp hundos
  obtain ⟨⟨fd, db⟩, hf, h3⟩ := bind_eq_ok.mp h2
  cases h3
  obtain ⟨_, -, hf⟩ := bind_eq_ok.mp hf
  obtain ⟨_, -, hf⟩ := bind_eq_ok.mp hf
  obtain ⟨_, -, hf⟩ := bind_eq_ok.mp hf
  obtain ⟨_, -, hf⟩ := bind_eq_ok.mp hf
  obtain ⟨db1, hfs, hf⟩ := bind_eq_ok.mp hf
  obtain ⟨headerMc, -, hfs⟩ := bind_eq_ok.mp hfs
  cases hfs
  obtain ⟨history, -, hf⟩ := bind_eq_ok.mp hf
  obtain ⟨⟨ops, fd2, db2⟩, h4, hf⟩ := bind_eq_ok.mp hf
  cases hf
  have hrows (k : Bytes) := flushUtxoDb_rows env h4 (hk1.deletes hk) k
  obtain ⟨hh4, hv4, hu4, hd4⟩ := flushUtxoDb_keeps h4
  have hv : db2.dbVersion = latestDbVersion := hv4.trans (hk1.dbVersion.trans hv)
  refine ⟨⟨nofun, fun k ↦ ?_, heightRecorded_commit hv ops, hv⟩, hundos,
    hheights.1.trans hheights.2, hge, hh1, hh4, hu4, ?_⟩
  · refine (hrows k).2.trans ?_
    have hnone : s1.flushData.undoInfos = [] := hu1.trans hundos
    rw [hnone]
    change (s1.db.utxoDb.write _)[prefixUndo :: k]? = _
    rw [hk1.utxoDb]
  · change RowKeys fd.deletes
    rw [hd4]
    exact .nil

/-- The state that is read is the one that was recorded. -/
theorem readUtxoState_keeps {db db₀ db' : DB} (hr : HeightRecorded env db)
    (hdb : db₀.utxoDb = db.utxoDb) (h : db₀.readUtxoState env = .ok db') :
    db'.utxoDb = db.utxoDb ∧ db'.dbHeight = db.dbHeight ∧ db'.dbVersion = latestDbVersion := by
  obtain ⟨db1, h1, h⟩ := bind_eq_ok.mp h
  have hload : db1.utxoDb = db.utxoDb ∧ db1.dbHeight = db.dbHeight ∧
      db1.dbVersion = latestDbVersion := by
    rw [DB.loadUtxoState, hdb] at h1
    rcases hr with ⟨record, hs, hh, hv⟩ | ⟨hs, hh⟩
    · obtain ⟨b, bs, hc⟩ := List.exists_cons_of_ne_nil (env.utxoCodec.repr_ne_nil record)
      have he := env.utxoCodec.literalEval_repr record
      rw [hc] at hs he
      rw [hs] at h1
      simp only [he] at h1
      split at h1
      · cases h1
      split at h1
      · cases h1
      · cases h1
        exact ⟨rfl, hh, hv⟩
    · rw [hs] at h1
      cases h1
      exact ⟨rfl, hh.symm, rfl⟩
  dsimp only at h
  split at h
  · next hne => exact absurd hload.2.2 hne
  · cases h
    exact hload

/-- A restart goes on from the recorded height, without the undo rows below the limit there. -/
theorem firstOpenDbs_keeps (hr : HeightRecorded env s.db)
    (hkeys : ∀ k v, s.db.utxoDb[prefixUndo :: k]? = some v → k.length = 4)
    (h : BlockProcessor.firstOpenDbs env s.db.disk = .ok s') :
    s'.height = s.db.dbHeight ∧ s'.db.dbHeight = s.db.dbHeight ∧
      s'.db.dbVersion = latestDbVersion ∧ s'.undoInfos = [] ∧ s'.dbDeletes = [] ∧
      PrunedBelow (DB.minUndoHeight env s.db.dbHeight) s.db.utxoDb s'.db.utxoDb := by
  obtain ⟨db, ho, h⟩ := bind_eq_ok.mp h
  cases h
  obtain ⟨db1, h1, ho⟩ := bind_eq_ok.mp ho
  have hload : (DB.load env {} s.db.disk).utxoDb = s.db.utxoDb := by
    unfold DB.load
    split <;> rfl
  obtain ⟨hu1, hh1, hv1⟩ := readUtxoState_keeps hr hload h1
  obtain ⟨history, -, ho⟩ := bind_eq_ok.mp ho
  obtain ⟨utxoDb, journal, rawBlocks, hclear, hpruned⟩ := clearExcessUndoInfo_eq env
    { db1 with history := history, utxoFlushCount := history.flushCount }
    fun k v hk ↦ hkeys k v (hu1 ▸ hk)
  obtain ⟨db2, h2, ho⟩ := bind_eq_ok.mp ho
  cases hclear.symm.trans h2
  obtain ⟨db3, h3, ho⟩ := bind_eq_ok.mp ho
  cases ho
  have hsame : db3.utxoDb = utxoDb ∧ db3.dbHeight = db1.dbHeight ∧
      db3.dbVersion = db1.dbVersion := by
    rw [DB.readTxCounts] at h3
    split at h3
    · cases h3
      exact ⟨rfl, rfl, rfl⟩
    · obtain ⟨_, -, h3⟩ := bind_eq_ok.mp h3
      obtain ⟨counts, -, h3⟩ := bind_eq_ok.mp h3
      obtain ⟨_, -, h3⟩ := bind_eq_ok.mp h3
      cases h3
      exact ⟨rfl, rfl, rfl⟩
  obtain ⟨hu3, hh3, hv3⟩ := hsame
  have hheight : db3.dbHeight = s.db.dbHeight := hh3.trans hh1
  refine ⟨hheight, hheight, hv3.trans hv1, rfl, rfl, ?_⟩
  change PrunedBelow _ _ db3.utxoDb
  rw [hu3, ← hu1, ← hh1]
  exact hpruned

section CommitsUndos

variable {undoInfos : List (List Bytes × Int)}

theorem CommitsUndos.row_of_notMem (h : CommitsUndos env s s' undoInfos) {n : Nat}
    (hn : n < 2 ^ 32) (hno : ∀ u ∈ undoInfos, u.2 ≠ n) :
    s'.db.utxoDb[prefixUndo :: packBE 4 n]? = s.db.utxoDb[prefixUndo :: packBE 4 n]? := by
  rw [h.rows]
  refine Table.getElem?_write_puts_of_notMem _ _ _ fun v hm ↦ ?_
  obtain ⟨u, hu, he⟩ := List.mem_map.mp hm
  have hfit := h.fit u hu
  have hne := hno u hu
  have hn' := (packBE_inj (w := 4) (by omega) (by omega)).mp
    (List.cons.inj (Prod.mk.inj he).1).2
  omega

theorem CommitsUndos.row_of_mem (h : CommitsUndos env s s' undoInfos) {n : Nat} {undo : List Bytes}
    (hm : (undo, (n : Int)) ∈ undoInfos) (hu : ∀ u ∈ undoInfos, u.2 = n → u.1 = undo) :
    n < 2 ^ 32 ∧ s'.db.utxoDb[prefixUndo :: packBE 4 n]? = some undo.flatten := by
  have hfit := (h.fit _ hm).2
  refine ⟨by omega, ?_⟩
  rw [h.rows]
  refine Table.getElem?_write_puts_of_mem _ _ _ _ (List.mem_map.mpr ⟨_, hm, rfl⟩) fun v hv ↦ ?_
  obtain ⟨u, hu', he⟩ := List.mem_map.mp hv
  have hfit' := h.fit u hu'
  have hn := (packBE_inj (w := 4) (by omega) (by omega)).mp
    (List.cons.inj (Prod.mk.inj he).1).2
  rw [← (Prod.mk.inj he).2, hu u hu' (by omega)]

theorem CommitsUndos.undoKeys (h : CommitsUndos env s s' undoInfos)
    (hk : ∀ k v, s.db.utxoDb[prefixUndo :: k]? = some v → k.length = 4) (k v : Bytes)
    (hv : s'.db.utxoDb[prefixUndo :: k]? = some v) : k.length = 4 := by
  rw [h.rows] at hv
  by_cases hm : ∃ w, (prefixUndo :: k, w) ∈ undoPairs undoInfos
  · obtain ⟨w, hw⟩ := hm
    obtain ⟨u, -, he⟩ := List.mem_map.mp hw
    rw [← (List.cons.inj (Prod.mk.inj he).1).2, length_packBE]
  · rw [Table.getElem?_write_puts_of_notMem _ _ _ fun w hw ↦ hm ⟨w, hw⟩] at hv
    exact hk k v hv

end CommitsUndos
end Commits

/-! ### The window -/

/-- From the minimum height on, the undo entries of the blocks of the chain are in their rows up to
the height of the DB, and pending above it. -/
structure UndoWindow (env : Env) (cachedHeight : Int) (s : BlockProcessor)
    (chain : List (Block × List Bytes)) : Prop where
  height_eq : s.height + 1 = chain.length
  cached : ∀ i < chain.length, (i : Int) ≤ cachedHeight
  dbHeight_ge : -1 ≤ s.db.dbHeight
  dbHeight_le : s.db.dbHeight ≤ s.height
  dbVersion : s.db.dbVersion = latestDbVersion
  recorded : HeightRecorded env s.db
  undoKeys : ∀ k v, s.db.utxoDb[prefixUndo :: k]? = some v → k.length = 4
  deletes : RowKeys s.dbDeletes
  rows : ∀ (i : Nat) e, chain[i]? = some e → (i : Int) ≤ s.db.dbHeight →
    DB.minUndoHeight env cachedHeight ≤ i →
      i < 2 ^ 32 ∧ s.db.utxoDb[prefixUndo :: packBE 4 i]? = some e.2.flatten
  pending : ∀ (i : Nat) e, chain[i]? = some e → s.db.dbHeight < i →
    DB.minUndoHeight env cachedHeight ≤ i → (e.2, (i : Int)) ∈ s.undoInfos
  own : ∀ u ∈ s.undoInfos, ∃ (i : Nat) (e : Block × List Bytes), chain[i]? = some e ∧
    u = (e.2, (i : Int)) ∧ s.db.dbHeight < i

section Window

variable {env : Env} {s s' : BlockProcessor} {chain : List (Block × List Bytes)}
variable {cachedHeight : Int}

theorem UndoWindow.polled (h : UndoWindow env cachedHeight s chain) {higher : Int}
    (hc : cachedHeight ≤ higher) : UndoWindow env higher s chain := by
  have hmin : DB.minUndoHeight env cachedHeight ≤ DB.minUndoHeight env higher := by
    simp only [DB.minUndoHeight]
    omega
  exact
    { h with
      cached := fun i hi ↦ (h.cached i hi).trans hc
      rows := fun i e he hi hm ↦ h.rows i e he hi (hmin.trans hm)
      pending := fun i e he hi hm ↦ h.pending i e he hi (hmin.trans hm) }

theorem UndoWindow.advanced (h : UndoWindow env cachedHeight s chain) {blocks : List Block}
    {undos : List (List Bytes)} (hc : (chain.length + blocks.length : Int) ≤ cachedHeight + 1)
    (hu : blockUndos env (DB.minUndoHeight env cachedHeight) s.height s blocks = .ok undos)
    (hs : s.advanceBlocks env cachedHeight blocks = .ok s') :
    UndoWindow env cachedHeight s' (chain ++ blocks.zip undos) := by
  obtain ⟨hk, hheight, hlen, hw⟩ := advanceBlocks_keeps hu hs
  have hzip : (blocks.zip undos).length = blocks.length := by
    rw [List.length_zip, hlen, Nat.min_self]
  have hh := h.height_eq
  have hle := h.dbHeight_le
  have hleft (i : Nat) (hi : (i : Int) ≤ s.height) :
      (chain ++ blocks.zip undos)[i]? = chain[i]? := List.getElem?_append_left (by omega)
  refine
    { height_eq := by rw [hheight, List.length_append, hzip]; omega
      cached := fun i hi ↦ by rw [List.length_append, hzip] at hi; omega
      dbHeight_ge := hk.dbHeight ▸ h.dbHeight_ge
      dbHeight_le := by rw [hk.dbHeight, hheight]; omega
      dbVersion := hk.dbVersion.trans h.dbVersion
      recorded := by
        rw [HeightRecorded, hk.utxoDb, hk.dbHeight]
        exact h.recorded
      undoKeys := fun k v hv ↦ h.undoKeys k v (hk.utxoDb ▸ hv)
      deletes := hk.deletes h.deletes
      rows := fun i e he hi hm ↦ ?_
      pending := fun i e he hi hm ↦ ?_
      own := fun u hu ↦ ?_ }
  · rw [hk.dbHeight] at hi
    rw [hleft i (by omega)] at he
    rw [hk.utxoDb]
    exact h.rows i e he hi hm
  · rw [hk.dbHeight] at hi
    rw [hw]
    by_cases hi' : i < chain.length
    · rw [hleft i (by omega)] at he
      exact .inl (h.pending i e he hi hm)
    · rw [List.getElem?_append_right (by omega)] at he
      have he' := (List.getElem?_zip_eq_some.mp he).2
      exact .inr ⟨i - chain.length, e.2, he', Prod.ext rfl (by omega), by omega⟩
  · rw [hk.dbHeight]
    rcases (hw u).mp hu with hu | ⟨j, undo, hj, rfl, -⟩
    · obtain ⟨i, e, he, rfl, hi⟩ := h.own u hu
      have hi' := (List.getElem?_eq_some_iff.mp he).1
      exact ⟨i, e, by rw [hleft i (by omega), he], rfl, hi⟩
    · have hj' := (List.getElem?_eq_some_iff.mp hj).1
      obtain ⟨b, hb⟩ : ∃ b, blocks[j]? = some b :=
        ⟨_, List.getElem?_eq_getElem (by omega)⟩
      refine ⟨chain.length + j, (b, undo), ?_, Prod.ext rfl (by push_cast; omega), by
        push_cast; omega⟩
      rw [List.getElem?_append_right (by omega), Nat.add_sub_cancel_left]
      exact List.getElem?_zip_eq_some.mpr ⟨hb, hj⟩

/-- A commit of all undo information brings the rows up to the height, one of none leaves them. -/
theorem UndoWindow.committed (h : UndoWindow env cachedHeight s chain) {flushUtxos : Bool}
    (hc : CommitsUndos env s s' (if flushUtxos then s.undoInfos else []))
    (hheight : s'.height = s.height)
    (hdb : s'.db.dbHeight = if flushUtxos then s.height else s.db.dbHeight)
    (hu : s'.undoInfos = if flushUtxos then [] else s.undoInfos) (hk : RowKeys s'.dbDeletes) :
    UndoWindow env cachedHeight s' chain := by
  have hle := h.dbHeight_le
  have hge := h.dbHeight_ge
  have hlen := h.height_eq
  have hbounds : -1 ≤ s'.db.dbHeight ∧ s'.db.dbHeight ≤ s'.height := by
    rw [hdb, hheight]
    split <;> omega
  refine
    { height_eq := by rw [hheight, hlen]
      cached := h.cached
      dbHeight_ge := hbounds.1
      dbHeight_le := hbounds.2
      dbVersion := hc.dbVersion
      recorded := hc.recorded
      undoKeys := hc.undoKeys h.undoKeys
      deletes := hk
      rows := fun i e he hi hm ↦ ?_
      pending := fun i e he hi hm ↦ ?_
      own := fun u hm ↦ ?_ }
  · by_cases hi' : (i : Int) ≤ s.db.dbHeight
    · obtain ⟨hlt, hrow⟩ := h.rows i e he hi' hm
      refine ⟨hlt, (hc.row_of_notMem hlt fun u hm ↦ ?_).trans hrow⟩
      cases flushUtxos with
      | false => cases hm
      | true =>
        obtain ⟨j, e', -, rfl, hj⟩ := h.own u hm
        dsimp only
        omega
    · cases flushUtxos with
      | false =>
        have hdb' : s'.db.dbHeight = s.db.dbHeight := hdb
        omega
      | true =>
        refine hc.row_of_mem (h.pending i e he (by omega) hm) fun u hm hn ↦ ?_
        obtain ⟨j, e', he', rfl, -⟩ := h.own u hm
        obtain rfl : j = i := Int.ofNat_inj.mp hn
        cases he.symm.trans he'
        rfl
  · cases flushUtxos with
    | false =>
      have hdb' : s'.db.dbHeight = s.db.dbHeight := hdb
      rw [hu]
      exact h.pending i e he (by omega) hm
    | true =>
      have hi' := (List.getElem?_eq_some_iff.mp he).1
      rw [hdb, if_pos rfl] at hi
      omega
  · cases flushUtxos with
    | false =>
      rw [hu] at hm
      rw [hdb]
      exact h.own u hm
    | true =>
      rw [hu] at hm
      cases hm

theorem UndoWindow.flushed (h : UndoWindow env cachedHeight s chain) {flushUtxos : Bool}
    (hs : s.flush env flushUtxos = .ok s') : UndoWindow env cachedHeight s' chain := by
  rcases flush_cases h.deletes h.dbVersion hs with rfl | ⟨hc, hheight, hdb, hu, hk⟩
  · exact h
  · exact h.committed hc hheight hdb hu hk

theorem UndoWindow.backedUp (h : UndoWindow env cachedHeight s chain) {rawBlocks : List Bytes}
    (hs : s.backupChunk env rawBlocks = .ok s') :
    UndoWindow env cachedHeight s' (chain.take (chain.length - rawBlocks.length)) := by
  obtain ⟨hc, hu, hflushed, hge, hheight, hdb, hu', hk⟩ :=
    backupChunk_keeps h.deletes h.dbVersion hs
  have hlen := h.height_eq
  have htake (i : Nat) (e : Block × List Bytes)
      (he : (chain.take (chain.length - rawBlocks.length))[i]? = some e) :
      chain[i]? = some e ∧ i < chain.length - rawBlocks.length := by
    have hi := (List.getElem?_eq_some_iff.mp he).1
    rw [List.length_take] at hi
    rw [List.getElem?_take_of_lt (by omega)] at he
    exact ⟨he, by omega⟩
  refine
    { height_eq := by rw [hheight, List.length_take]; omega
      cached := fun i hi ↦ h.cached i (by rw [List.length_take] at hi; omega)
      dbHeight_ge := by omega
      dbHeight_le := by omega
      dbVersion := hc.dbVersion
      recorded := hc.recorded
      undoKeys := hc.undoKeys h.undoKeys
      deletes := hk
      rows := fun i e he hi hm ↦ ?_
      pending := fun i e he hi hm ↦ ?_
      own := fun u hm ↦ by rw [hu'] at hm; cases hm }
  · obtain ⟨he, hlt⟩ := htake i e he
    obtain ⟨h32, hrow⟩ := h.rows i e he (by omega) hm
    exact ⟨h32, (hc.row_of_notMem h32 nofun).trans hrow⟩
  · obtain ⟨-, hlt⟩ := htake i e he
    omega

theorem UndoWindow.restarted (h : UndoWindow env cachedHeight s chain)
    (hs : BlockProcessor.firstOpenDbs env s.db.disk = .ok s') :
    UndoWindow env cachedHeight s' (chain.take (s'.height + 1).toNat) := by
  obtain ⟨hheight, hdb, hv, hu, hd, hpruned⟩ := firstOpenDbs_keeps h.recorded h.undoKeys hs
  have hlen := h.height_eq
  have hle := h.dbHeight_le
  have hge := h.dbHeight_ge
  have htake (i : Nat) (e : Block × List Bytes)
      (he : (chain.take (s'.height + 1).toNat)[i]? = some e) :
      chain[i]? = some e ∧ (i : Int) ≤ s.db.dbHeight := by
    have hi := (List.getElem?_eq_some_iff.mp he).1
    rw [List.length_take] at hi
    rw [List.getElem?_take_of_lt (by omega)] at he
    exact ⟨he, by omega⟩
  refine
    { height_eq := by rw [List.length_take]; omega
      cached := fun i hi ↦ h.cached i (by rw [List.length_take] at hi; omega)
      dbHeight_ge := by omega
      dbHeight_le := by omega
      dbVersion := hv
      recorded := ?_
      undoKeys := fun k v hk ↦ h.undoKeys k v (hpruned.subset _ _ hk)
      deletes := hd ▸ .nil
      rows := fun i e he hi hm ↦ ?_
      pending := fun i e he hi hm ↦ ?_
      own := fun u hm ↦ by rw [hu] at hm; cases hm }
  · have hstate : s'.db.utxoDb[utxoStateKey]? = s.db.utxoDb[utxoStateKey]? :=
      hpruned.others utxoStateKey fun t he ↦ absurd (List.cons.inj he).1 (by decide)
    rw [HeightRecorded, hdb, hstate]
    exact h.recorded
  · obtain ⟨he, hi⟩ := htake i e he
    obtain ⟨h32, hrow⟩ := h.rows i e he hi hm
    have hcached := h.cached i (List.getElem?_eq_some_iff.mp he).1
    refine ⟨h32, (hpruned.kept i ?_ h32).trans hrow⟩
    -- What is cleared lies below the limit at the recorded height, which is not above the daemon's.
    have hmax : s.db.dbHeight ≤ cachedHeight := by
      have hpos : s.db.dbHeight.toNat < chain.length := by omega
      have := h.cached _ hpos
      omega
    simp only [DB.minUndoHeight] at hm ⊢
    omega
  · obtain ⟨-, hi'⟩ := htake i e he
    omega

end Window

theorem UndoRun.window {env : Env} {cachedHeight : Int} {s : BlockProcessor}
    {chain : List (Block × List Bytes)} (r : UndoRun env cachedHeight s chain) :
    UndoWindow env cachedHeight s chain := by
  induction r with
  | opened cachedHeight h =>
    obtain ⟨s', hs', hi, -⟩ := (Recoverable.fresh env).open
    cases hs'.symm.trans h
    have hdb := hi.db.dbHeight
    have hheight := hi.height_eq
    obtain ⟨-, hdel, hu⟩ := hi.nothing_pending
    rw [List.length_nil] at hdb hheight
    refine
      { height_eq := hheight
        cached := nofun
        dbHeight_ge := by omega
        dbHeight_le := by omega
        dbVersion := hi.db.dbVersion
        recorded := ?_
        undoKeys := hi.db.undoKeys
        deletes := hdel ▸ .nil
        rows := nofun
        pending := nofun
        own := fun u hm ↦ by rw [hu] at hm; cases hm }
    rcases hi.db.utxoState with hs | ⟨hs, hh, -⟩
    · exact .inl ⟨_, hs, rfl, hi.db.dbVersion⟩
    · exact .inr ⟨hs, hh⟩
  | polled _ hc ih => exact ih.polled hc
  | advanced _ hc hu h ih => exact ih.advanced hc hu h
  | flushed flushUtxos _ h ih => exact ih.flushed h
  | backedUp _ h ih => exact ih.backedUp h
  | notified _ ih => exact { ih with }
  | restarted _ h ih => exact ih.restarted h

/-- In every state whose DB is at the daemon's height, the undo row of every block within the reorg
limit has the undo entries of the block of the chain. -/
theorem UndoRun.undo_kept {env : Env} {cachedHeight : Int} {s : BlockProcessor}
    {chain : List (Block × List Bytes)} (r : UndoRun env cachedHeight s chain)
    (hdb : s.db.dbHeight = cachedHeight) {height : Nat}
    (hlow : cachedHeight - env.reorgLimit < height) (hhigh : height ≤ cachedHeight) :
    ∃ block undo, chain[height]? = some (block, undo) ∧
      s.db.readUndoInfo height = .ok (some undo.flatten) := by
  have h := r.window
  have hlen := h.height_eq
  have hle := h.dbHeight_le
  obtain ⟨⟨block, undo⟩, he⟩ : ∃ e, chain[height]? = some e :=
    ⟨_, List.getElem?_eq_getElem (by omega)⟩
  obtain ⟨h32, hrow⟩ := h.rows height _ he (by omega) (by simp only [DB.minUndoHeight]; omega)
  refine ⟨block, undo, he, ?_⟩
  rw [DB.readUndoInfo, DB.undoKey, packBeUint32_of_lt h32]
  exact congrArg Except.ok hrow

/-- Block `a` is backed up again, and block `b` is advanced at the same height. -/
def sampleOrphan : Except PyError BlockProcessor := do
  let s ← sampleAdvance
  let s ← s.backupChunk sampleEnv [sampleA.raw]
  let s ← s.advanceBlocks sampleEnv 1 [sampleB]
  s.flush sampleEnv true

/-- The undo row that block `a` left behind is that of block `b`. -/
theorem sampleOrphan_undo : ∃ s chain, sampleOrphan = .ok s ∧ UndoRun sampleEnv 1 s chain ∧
    chain.map Prod.fst = [sampleGenesis, sampleB] ∧
    chain[1]? = some (sampleB, (spentBy sampleCoin [sampleGenesis] sampleB).map packed) ∧
    ∃ block undo, chain[1]? = some (block, undo) ∧
      s.db.readUndoInfo 1 = .ok (some undo.flatten) := by
  obtain ⟨s, hs, hdb⟩ : ∃ s, sampleOrphan = .ok s ∧ s.db.dbHeight = 1 := by decide +kernel
  obtain ⟨s3, ha, h⟩ := bind_eq_ok.mp hs
  obtain ⟨s3', ha', hown⟩ : ∃ s, sampleAdvance = .ok s ∧
      OwnUndos sampleEnv s.db [sampleGenesis] [sampleA] := by decide +kernel
  cases ha'.symm.trans ha
  have i3 : Run sampleEnv (OwnUndos sampleEnv) s3 ([sampleGenesis] ++ [sampleA]) :=
    sampleAdvance_run ha
  obtain ⟨s0, h0, ha⟩ := bind_eq_ok.mp ha
  obtain ⟨s1, h1, ha⟩ := bind_eq_ok.mp ha
  obtain ⟨s2, h2, h3⟩ := bind_eq_ok.mp ha
  obtain ⟨s4, h4, h⟩ := bind_eq_ok.mp h
  obtain ⟨s5, h5, h6⟩ := bind_eq_ok.mp h
  obtain ⟨undos1, hu1⟩ := exists_undos_of_advanceBlocks h1
  obtain ⟨undos2, hu2⟩ := exists_undos_of_advanceBlocks h2
  obtain ⟨u1, rfl⟩ := List.length_eq_one_iff.mp (advanceBlocks_keeps hu1 h1).2.2.1
  obtain ⟨u2, rfl⟩ := List.length_eq_one_iff.mp (advanceBlocks_keeps hu2 h2).2.2.1
  have r2 := UndoRun.advanced (.advanced (.opened 1 h0) (by decide) hu1 h1) (by simp) hu2 h2
  have r4 : UndoRun sampleEnv 1 s4 [(sampleGenesis, u1)] := .backedUp (.flushed true r2 h3) h4
  -- Back at the first block the processor indexes it, so that the entries of `b` are known.
  obtain ⟨_, _, i4⟩ := (Run.backedUp i3 hown h4).indexed
  have hv : ValidChain sampleCoin ([sampleGenesis] ++ [sampleB]) := by decide +kernel
  have r := UndoRun.flushed true (.advanced r4 (by simp) (i4.blockUndos_eq hv _) h5) h6
  exact ⟨s, _, hs, r, rfl, rfl, r.undo_kept hdb (by decide) (by decide)⟩

end ElectrumX.Index
