import ElectrumX.Index.Invariant

/-!
# Flushing

A flush writes the files, commits the history batch and then one or both of the UTXO
changes and the state record. It fails only when a flush id or a height is out of range
of its field. Afterwards the DB stores the whole chain, and records it when the UTXOs
were flushed.
-/

namespace ElectrumX.Index
open ElectrumX.Base ElectrumX.Lib ElectrumX.Chain ElectrumX.Server

/-- The undo rows of undo information. -/
def undoPairs (undoInfos : List (List Bytes × Int)) : List (Bytes × Bytes) :=
  undoInfos.map fun u ↦ (prefixUndo :: packBE 4 u.2.toNat, u.1.flatten)

/-- Every height of the undo information has an undo key. -/
def UndoKeysFit (undoInfos : List (List Bytes × Int)) : Prop :=
  ∀ u ∈ undoInfos, 0 ≤ u.2 ∧ u.2 < 2 ^ 32

theorem flushUndoInfos_eq {undoInfos : List (List Bytes × Int)} (h : UndoKeysFit undoInfos) :
    DB.flushUndoInfos undoInfos = .ok ((undoPairs undoInfos).map fun p ↦ .put p.1 p.2) := by
  rw [DB.flushUndoInfos]
  induction undoInfos with
  | nil => rfl
  | cons u us ih =>
    rw [List.mapM_cons, ih fun x hx ↦ h x (List.mem_cons_of_mem _ hx), DB.undoKey, packBeUint32,
      if_pos (h u List.mem_cons_self)]
    rfl

theorem undoKeysFit_of_ok {undoInfos : List (List Bytes × Int)} {ops : List BatchOp}
    (h : DB.flushUndoInfos undoInfos = .ok ops) : UndoKeysFit undoInfos := by
  rw [DB.flushUndoInfos] at h
  induction undoInfos generalizing ops with
  | nil => simp [UndoKeysFit]
  | cons u us ih =>
    rw [List.mapM_cons] at h
    by_cases hu : 0 ≤ u.2 ∧ u.2 < 2 ^ 32
    · cases hr : us.mapM (fun u ↦ do return BatchOp.put (← DB.undoKey u.2) u.1.flatten) with
      | error e =>
        rw [hr, DB.undoKey, packBeUint32, if_pos hu] at h
        simp [bind, Except.bind, pure, Except.pure] at h
      | ok rest =>
        intro x hx
        rcases List.mem_cons.mp hx with rfl | hx
        · exact hu
        · exact ih hr x hx
    · rw [DB.undoKey, packBeUint32, if_neg hu] at h
      simp [bind, Except.bind] at h

/-- The deletes and puts of a UTXO flush. -/
def flushOps (s : BlockProcessor) : List BatchOp :=
  (sorted s.dbDeletes).map BatchOp.delete ++
    s.utxoCache.toList.flatMap (fun e ↦ DB.utxoRows e.1 e.2) ++
    (undoPairs s.undoInfos).map fun p ↦ .put p.1 p.2

/-- The DB after a flush that left `hdb` as the history table. -/
def flushedDb (env : Env) (s : BlockProcessor) (stored rest : List Block) (hdb : Table)
    (flushUtxos : Bool) : DB :=
  let db := (afterFs env s.db stored rest).commitHistory { s.db.history with
    db := hdb, unflushed := ∅, unflushedCount := 0, flushCount := s.db.history.flushCount + 1 }
  let db := if flushUtxos then { db with
      utxoFlushCount := s.db.history.flushCount + 1
      dbHeight := s.height
      dbTxCount := s.txCount
      dbTip := s.tip }
    else db
  let db := db.commitUtxo ((if flushUtxos then flushOps s else []) ++ [db.writeUtxoState env])
  db.commitUtxo [db.writeUtxoState env]

/-- The processor after a flush. -/
def flushed (s : BlockProcessor) (flushUtxos : Bool) (db : DB) : BlockProcessor :=
  if flushUtxos then
    { s with
      db := db
      headers := []
      txHashes := []
      undoInfos := []
      utxoCache := ∅
      dbDeletes := [] }
  else { s with db := db, headers := [], txHashes := [] }

section Flushing

variable {env : Env} {tells : List Block → HashX → List Nat} {s : BlockProcessor}
variable {recorded stored rest chain : List Block}

theorem Held.flushFs_eq (h : Held env tells s recorded stored (stored ++ rest)) :
    s.db.flushFs env s.flushData = .ok ({ s.flushData with headers := [], blockTxHashes := [] },
      afterFs env s.db stored rest) :=
  Index.flushFs_eq h.headersFit h.db.files h.db.fsHeight h.counts_eq h.height_eq h.txCount_eq
    (h.headers_eq.trans (by rw [List.drop_left])) (h.txHashes_eq.trans (by rw [List.drop_left]))

/-- A flush succeeds when the flush id and the heights fit their fields. -/
theorem Held.flush_eq (h : Held env tells s recorded stored (stored ++ rest))
    {rows : HashX → Nat → List Nat} {pend : HashX → List Nat}
    (hist : HistoryTells env s.db.history s.db.utxoFlushCount rows pend (tells recorded)
      (tells stored) (tells (stored ++ rest)))
    (flushUtxos : Bool) (hne : s.height ≠ s.db.dbHeight)
    (hid : s.db.history.flushCount + 1 < flushIds)
    (hundo : flushUtxos = true → UndoKeysFit s.undoInfos) :
    ∃ hdb, s.flush env flushUtxos =
        .ok (flushed s flushUtxos (flushedDb env s stored rest hdb flushUtxos)) ∧
      HistoryRows hdb (addRows rows (s.db.history.flushCount + 1) pend) ∧
      ∃ record, hdb[History.stateKey]? = some (env.historyCodec.repr record) ∧
        record.flushCount = s.db.history.flushCount + 1 ∧
        record.dbVersion = some History.latestVersion := by
  obtain ⟨hdb, hf, hrows, hstate⟩ := hist.table.flush env.historyCodec hist.unflushed hist.upTo hid
  refine ⟨hdb, ?_, hrows, _, hstate, rfl, congrArg some hist.version⟩
  have hf' : (afterFs env s.db stored rest).history.flush env.historyCodec = _ := hf
  have hne' : ¬ s.flushData.height = s.db.dbHeight := hne
  rw [BlockProcessor.flush, DB.flushDbs, if_neg hne']
  simp only [h.flushFs_eq, bind, Except.bind, DB.flushHistory, hf', pure, Except.pure]
  cases flushUtxos with
  | false => rfl
  | true =>
    have hu := flushUndoInfos_eq (hundo rfl)
    have hu' : DB.flushUndoInfos s.flushData.undoInfos = _ := hu
    simp only [if_true, DB.flushUtxoDb, hu', bind, Except.bind]
    rfl

/-- Undo rows and the state record lie outside the `h` and `u` tables. -/
theorem others_disjoint (undoInfos : List (List Bytes × Int)) (states : List Bytes)
    (k w : Bytes) :
    (prefixH :: k, w) ∉ undoPairs undoInfos ++ states.map (utxoStateKey, ·) ∧
      (prefixU :: k, w) ∉ undoPairs undoInfos ++ states.map (utxoStateKey, ·) := by
  have hout (c : UInt8) (hu : c ≠ prefixUndo) (hs : c ≠ 0x73) :
      (c :: k, w) ∉ undoPairs undoInfos ++ states.map (utxoStateKey, ·) := by
    intro hm
    rcases List.mem_append.mp hm with hm | hm
    · obtain ⟨u, -, he⟩ := List.mem_map.mp hm
      exact hu (List.cons.inj (Prod.mk.inj he).1).1.symm
    · obtain ⟨v, -, he⟩ := List.mem_map.mp hm
      exact hs (List.cons.inj (Prod.mk.inj he).1).1.symm
  exact ⟨hout _ (by decide) (by decide), hout _ (by decide) (by decide)⟩

private theorem utxoDb_flushed_false (env : Env) (s : BlockProcessor) (stored rest : List Block)
    (hdb : Table) :
    ∃ v : Bytes, (flushedDb env s stored rest hdb false).utxoDb =
      s.db.utxoDb.write ((undoPairs [] ++ [v, v].map (utxoStateKey, ·)).map
        fun p ↦ .put p.1 p.2) := ⟨_, rfl⟩

/-- Without the UTXOs a flush changes nothing but the state record in the UTXO DB. -/
theorem getElem?_flushedDb_false (env : Env) (s : BlockProcessor) (stored rest : List Block)
    (hdb : Table) {k : Bytes} (hk : k ≠ utxoStateKey) :
    (flushedDb env s stored rest hdb false).utxoDb[k]? = s.db.utxoDb[k]? := by
  obtain ⟨v, hv⟩ := utxoDb_flushed_false env s stored rest hdb
  rw [hv, Table.getElem?_write_puts_of_notMem]
  intro w hm
  rcases List.mem_pair.mp hm with he | he
  · exact hk (Prod.mk.inj he).1
  · exact hk (Prod.mk.inj he).1

private theorem utxoDb_flushed_true (env : Env) (s : BlockProcessor) (stored rest : List Block)
    (hdb : Table) :
    ∃ v : Bytes, (flushedDb env s stored rest hdb true).utxoDb = s.db.utxoDb.write
      ((sorted s.dbDeletes).map BatchOp.delete ++
        s.utxoCache.toList.flatMap (fun e ↦ DB.utxoRows e.1 e.2) ++
        (undoPairs s.undoInfos ++ [v, v].map (utxoStateKey, ·)).map
          fun p ↦ .put p.1 p.2) := by
  have hw : ∃ v : Bytes, (flushedDb env s stored rest hdb true).utxoDb =
      (s.db.utxoDb.write (flushOps s ++ [.put utxoStateKey v])).write [.put utxoStateKey v] :=
    ⟨_, rfl⟩
  obtain ⟨v, hv⟩ := hw
  refine ⟨v, ?_⟩
  rw [hv, ← Table.write_append, flushOps, List.map_append]
  simp only [List.append_assoc]
  rfl

/-- Of the undo rows a flush changes those of the undo information that it flushes. -/
theorem getElem?_flushedDb_undo (h : Held env tells s recorded stored (stored ++ rest))
    (hdb : Table) (flushUtxos : Bool) (k : Bytes) :
    (flushedDb env s stored rest hdb flushUtxos).utxoDb[prefixUndo :: k]? =
      (s.db.utxoDb.write ((undoPairs (if flushUtxos then s.undoInfos else [])).map
        fun p ↦ .put p.1 p.2))[prefixUndo :: k]? := by
  have hstate (v w : Bytes) : (prefixUndo :: k, w) ∉ [v, v].map (utxoStateKey, ·) := by
    intro hm
    have he : prefixUndo :: k = utxoStateKey := by
      rcases List.mem_pair.mp hm with he | he
      · exact (Prod.mk.inj he).1
      · exact (Prod.mk.inj he).1
    exact absurd (List.cons.inj he).1 (by decide)
  cases flushUtxos with
  | false =>
    obtain ⟨v, hv⟩ := utxoDb_flushed_false env s stored rest hdb
    rw [hv, List.map_append, Table.write_append,
      Table.getElem?_write_puts_of_notMem _ _ _ (hstate v)]
    rfl
  | true =>
    obtain ⟨v, hv⟩ := utxoDb_flushed_true env s stored rest hdb
    rw [hv, List.map_append, Table.write_append, Table.write_append,
      Table.getElem?_write_puts_of_notMem _ _ _ (hstate v)]
    apply Table.getElem?_write_congr
    apply h.utxo.getElem?_write_flush fun k ↦ mem_sorted
    intro t
    exact ⟨fun he ↦ absurd (List.cons.inj he).1 (by decide),
      fun he ↦ absurd (List.cons.inj he).1 (by decide)⟩

private theorem undoKeys_flushedDb (h : Held env tells s recorded stored (stored ++ rest))
    (hdb : Table) (flushUtxos : Bool) (k v : Bytes)
    (hk : (flushedDb env s stored rest hdb flushUtxos).utxoDb[prefixUndo :: k]? = some v) :
    k.length = 4 := by
  rw [getElem?_flushedDb_undo h] at hk
  by_cases hm : ∃ w, (prefixUndo :: k, w) ∈ undoPairs (if flushUtxos then s.undoInfos else [])
  · obtain ⟨w, hw⟩ := hm
    obtain ⟨u, -, he⟩ := List.mem_map.mp hw
    rw [← (List.cons.inj (Prod.mk.inj he).1).2, length_packBE]
  · rw [Table.getElem?_write_puts_of_notMem _ _ _ fun w hw ↦ hm ⟨w, hw⟩] at hk
    exact h.db.undoKeys k v hk

theorem dropRows_addRows {rows : HashX → Nat → List Nat} {pend : HashX → List Nat} {c id : Nat}
    (hc : c < id) : dropRows (addRows rows id pend) c = dropRows rows c := by
  funext hashX i
  rw [dropRows, dropRows]
  split
  · rfl
  · next hi => exact Function.update_of_ne (by omega) _ _

theorem rowsUpTo_addRows {rows : HashX → Nat → List Nat} {pend : HashX → List Nat} {c : Nat}
    (h : RowsUpTo rows c) : RowsUpTo (addRows rows (c + 1) pend) (c + 1) := by
  intro hashX id hid
  exact (Function.update_of_ne (by omega) _ _).trans (h hashX id (by omega))

/-- The history after a flush. -/
private theorem HistoryTells.flushed {rows : HashX → Nat → List Nat} {pend : HashX → List Nat}
    (hist : HistoryTells env s.db.history s.db.utxoFlushCount rows pend (tells recorded)
      (tells stored) (tells (stored ++ rest)))
    (hid : s.db.history.flushCount + 1 < flushIds) {hdb : Table}
    (hrows : HistoryRows hdb (addRows rows (s.db.history.flushCount + 1) pend))
    (hrec : ∃ record, hdb[History.stateKey]? = some (env.historyCodec.repr record) ∧
      record.flushCount = s.db.history.flushCount + 1 ∧
      record.dbVersion = some History.latestVersion) (flushUtxos : Bool) :
    HistoryTells env { s.db.history with
        db := hdb, unflushed := ∅, unflushedCount := 0, flushCount := s.db.history.flushCount + 1 }
      (if flushUtxos then s.db.history.flushCount + 1 else s.db.utxoFlushCount)
      (addRows rows (s.db.history.flushCount + 1) pend) (fun _ ↦ [])
      (tells (if flushUtxos then stored ++ rest else recorded)) (tells (stored ++ rest))
      (tells (stored ++ rest)) := by
  have hup : RowsUpTo (addRows rows (s.db.history.flushCount + 1) pend) _ :=
    rowsUpTo_addRows hist.upTo
  have hnum : ∀ hashX, numbers (addRows rows (s.db.history.flushCount + 1) pend) hashX =
      tells (stored ++ rest) hashX := by
    intro hashX
    rw [numbers_addRows hist.upTo hid, hist.chainRows]
  refine
    { table := hrows
      upTo := hup
      unflushed := Unflushed.empty
      recordedRows := fun hashX ↦ ?_
      storedRows := hnum
      chainRows := fun hashX ↦ by rw [List.append_nil, hnum]
      flushCount_le := ?_
      version := hist.version
      state := .inl hrec }
  · cases flushUtxos with
    | true =>
      change numbers (dropRows _ (s.db.history.flushCount + 1)) hashX = tells _ hashX
      rw [dropRows_eq_self hup, hnum]
      rfl
    | false =>
      change numbers (dropRows _ s.db.utxoFlushCount) hashX = tells recorded hashX
      rw [dropRows_addRows (Nat.lt_succ_of_le hist.flushCount_le), hist.recordedRows]
  · cases flushUtxos with
    | true => exact Nat.le_refl _
    | false => exact Nat.le_succ_of_le hist.flushCount_le

/-- The invariant after a flush. -/
theorem Held.flushed (h : Held env tells s recorded stored (stored ++ rest))
    {rows : HashX → Nat → List Nat} {pend : HashX → List Nat}
    (hist : HistoryTells env s.db.history s.db.utxoFlushCount rows pend (tells recorded)
      (tells stored) (tells (stored ++ rest)))
    (hid : s.db.history.flushCount + 1 < flushIds) {hdb : Table}
    (hrows : HistoryRows hdb (addRows rows (s.db.history.flushCount + 1) pend))
    (hrec : ∃ record, hdb[History.stateKey]? = some (env.historyCodec.repr record) ∧
      record.flushCount = s.db.history.flushCount + 1 ∧
      record.dbVersion = some History.latestVersion) (flushUtxos : Bool) :
    Held env tells (Index.flushed s flushUtxos (flushedDb env s stored rest hdb flushUtxos))
      (if flushUtxos then stored ++ rest else recorded) (stored ++ rest) (stored ++ rest) := by
  have hfiles : FilesHold env (afterFs env s.db stored rest).disk (stored ++ rest) :=
    h.db.files.afterFs
  have hhist := hist.flushed hid hrows hrec flushUtxos
  have hdrop : (stored ++ rest).drop (stored ++ rest).length = [] := List.drop_length
  cases flushUtxos with
  | false =>
    exact
      { headersFit := h.headersFit
        numbered := h.numbered
        recorded_prefix := h.recorded_prefix.trans h.stored_prefix
        stored_prefix := List.prefix_rfl
        db :=
          { dbHeight := h.db.dbHeight
            dbTxCount := h.db.dbTxCount
            dbTip := h.db.dbTip
            dbVersion := h.db.dbVersion
            utxoState := .inl (by
              rw [flushedDb]
              exact (Table.getElem?_write_put ..).trans (if_pos rfl))
            undoKeys := undoKeys_flushedDb h hdb _
            fsHeight := Int.sub_add_cancel _ _
            fsTxCount := rfl
            files := ⟨hfiles.headers, hfiles.offsets, hfiles.txCounts, hfiles.hashes⟩ }
        history := ⟨_, _, hhist⟩
        utxo := by
          obtain ⟨v, hv⟩ := utxoDb_flushed_false env s stored rest hdb
          have hu := h.utxo.write_others (others_disjoint [] [v, v])
          rwa [← hv] at hu
        counts_eq := h.counts_eq
        txCount_eq := h.txCount_eq
        txHashes_eq := by rw [hdrop]; rfl
        touched := h.touched
        undoHeights := h.undoHeights
        height_eq := h.height_eq
        tip_eq := h.tip_eq
        headers_eq := by rw [hdrop]; rfl }
  | true =>
    exact
      { headersFit := h.headersFit
        numbered := h.numbered
        recorded_prefix := List.prefix_rfl
        stored_prefix := List.prefix_rfl
        db :=
          { dbHeight := h.height_eq
            dbTxCount := h.txCount_eq
            dbTip := h.tip_eq
            dbVersion := h.db.dbVersion
            utxoState := .inl (by
              rw [flushedDb]
              exact (Table.getElem?_write_put ..).trans (if_pos rfl))
            undoKeys := undoKeys_flushedDb h hdb _
            fsHeight := Int.sub_add_cancel _ _
            fsTxCount := rfl
            files := ⟨hfiles.headers, hfiles.offsets, hfiles.txCounts, hfiles.hashes⟩ }
        history := ⟨_, _, hhist⟩
        utxo := by
          obtain ⟨v, hv⟩ := utxoDb_flushed_true env s stored rest hdb
          rw [Index.flushed, if_pos rfl, hv]
          exact h.utxo.write_flush h.numbered (fun k ↦ mem_sorted)
            (others_disjoint s.undoInfos [v, v])
        counts_eq := h.counts_eq
        txCount_eq := h.txCount_eq
        txHashes_eq := by rw [hdrop]; rfl
        touched := h.touched
        undoHeights := fun u hu ↦ by cases hu
        height_eq := h.height_eq
        tip_eq := h.tip_eq
        headers_eq := by rw [hdrop]; rfl }

/-- A flush that succeeds had a flush id and heights that fit their fields. -/
private theorem Held.flush_bounds (h : Held env tells s recorded stored (stored ++ rest))
    {flushUtxos : Bool} {s' : BlockProcessor} (hne : s.height ≠ s.db.dbHeight)
    (hf : s.flush env flushUtxos = .ok s') :
    s.db.history.flushCount + 1 < flushIds ∧ (flushUtxos = true → UndoKeysFit s.undoInfos) := by
  have hne' : ¬ s.flushData.height = s.db.dbHeight := hne
  rw [BlockProcessor.flush, DB.flushDbs, if_neg hne'] at hf
  simp only [h.flushFs_eq, bind, Except.bind, DB.flushHistory, pure, Except.pure] at hf
  cases hh : (afterFs env s.db stored rest).history.flush env.historyCodec with
  | error e =>
    rw [hh] at hf
    cases hf
  | ok hist =>
    refine ⟨flushCount_lt_of_flush hh, fun hflag ↦ ?_⟩
    subst hflag
    cases hu : DB.flushUndoInfos s.undoInfos with
    | ok ops => exact undoKeysFit_of_ok hu
    | error e =>
      have hu' : DB.flushUndoInfos s.flushData.undoInfos = .error e := hu
      rw [hh] at hf
      simp only [if_true, DB.flushUtxoDb, hu', bind, Except.bind] at hf
      cases hf

/-- At the recorded height nothing is left to flush. -/
theorem Held.eq_of_height (h : Held env tells s recorded stored chain)
    (he : s.height = s.db.dbHeight) : recorded = chain ∧ stored = chain := by
  have hl : recorded.length = chain.length := by
    have h1 := h.height_eq
    have h2 := h.db.dbHeight
    omega
  have hs : stored.length = chain.length := by
    have h1 := h.recorded_prefix.length_le
    have h2 := h.stored_prefix.length_le
    omega
  exact ⟨(h.recorded_prefix.trans h.stored_prefix).eq_of_length hl,
    h.stored_prefix.eq_of_length hs⟩

private theorem eq_empty {t : Table} (h : ∀ k v : Bytes, t[k]? ≠ some v) : t = ∅ := by
  rw [← Std.ExtTreeMap.toList_eq_nil_iff, List.eq_nil_iff_forall_not_mem]
  rintro ⟨k, v⟩ hm
  exact h k v (Std.ExtTreeMap.mem_toList_iff_getElem?_eq_some.mp hm)

/-- A processor whose DB records its whole chain has nothing pending. -/
theorem Held.nothing_pending (h : Held env tells s chain chain chain) :
    s.utxoCache = ∅ ∧ s.dbDeletes = [] ∧ s.undoInfos = [] := by
  refine ⟨eq_empty fun k v hk ↦ ?_, List.eq_nil_iff_forall_not_mem.mpr fun k hk ↦ ?_,
    List.eq_nil_iff_forall_not_mem.mpr fun u hu ↦ ?_⟩
  · obtain ⟨op, u, hv, hb, -⟩ := (h.utxo.cached k v).mp hk
    cases hb.symm.trans hv
  · obtain ⟨op, u, hb, hv, -⟩ := (h.utxo.pending k).mp hk
    cases hb.symm.trans hv
  · have := h.undoHeights u hu
    omega

/-- Without unflushed numbers the history is flushed. -/
theorem Unflushed.assertFlushed {h : History} {pend : HashX → List Nat}
    (hu : Unflushed h.unflushed pend) (hp : ∀ hashX, pend hashX = []) :
    h.assertFlushed = .ok () := by
  have hempty : h.unflushed = ∅ := by
    apply eq_empty
    intro k v hk
    obtain ⟨hashX, rfl⟩ := hu.shape k v hk
    rw [hu.row, hp] at hk
    cases hk
  rw [History.assertFlushed, assertThat_of (Std.ExtTreeMap.toList_eq_nil_iff.mpr hempty)]

/-- A processor whose DB records its whole chain is fully flushed, as `assert_flushed` checks. -/
theorem Held.assertFlushed (h : Held env tells s chain chain chain) :
    s.db.assertFlushed s.flushData = .ok () := by
  obtain ⟨rows, pend, hist⟩ := h.history
  have hpend : ∀ hashX, pend hashX = [] := by
    intro hashX
    have hl := congrArg List.length ((hist.chainRows hashX).trans (hist.storedRows hashX).symm)
    rw [List.length_append] at hl
    exact List.eq_nil_of_length_eq_zero (by omega)
  obtain ⟨hadds, hdel, hundo⟩ := h.nothing_pending
  have h1 := h.height_eq
  have h2 := h.db.dbHeight
  have h3 := h.db.fsHeight
  have a1 : s.flushData.txCount = s.db.fsTxCount ∧ s.db.fsTxCount = s.db.dbTxCount :=
    ⟨h.txCount_eq.trans h.db.fsTxCount.symm, h.db.fsTxCount.trans h.db.dbTxCount.symm⟩
  have a2 : s.flushData.height = s.db.fsHeight ∧ s.db.fsHeight = s.db.dbHeight := by
    change s.height = s.db.fsHeight ∧ s.db.fsHeight = s.db.dbHeight
    omega
  have a3 : s.flushData.tip = s.db.dbTip := h.tip_eq.trans h.db.dbTip.symm
  have a4 : s.flushData.headers = [] := h.headers_eq.trans (by rw [List.drop_length, List.map_nil])
  have a5 : s.flushData.blockTxHashes = [] :=
    h.txHashes_eq.trans (by rw [List.drop_length, List.map_nil])
  have a6 : s.flushData.adds.toList = [] := Std.ExtTreeMap.toList_eq_nil_iff.mpr hadds
  have a7 : s.flushData.deletes = [] := hdel
  have a8 : s.flushData.undoInfos = [] := hundo
  rw [DB.assertFlushed, assertThat_of a1, assertThat_of a2, assertThat_of a3, assertThat_of a4,
    assertThat_of a5, assertThat_of a6, assertThat_of a7, assertThat_of a8]
  exact hist.unflushed.assertFlushed hpend

/-- A flush at the recorded height does nothing. -/
theorem Held.flush_self (h : Held env tells s chain chain chain) (flushUtxos : Bool) :
    s.flush env flushUtxos = .ok s := by
  have he : s.flushData.height = s.db.dbHeight := by
    have h1 := h.height_eq
    have h2 := h.db.dbHeight
    change s.height = _
    omega
  rw [BlockProcessor.flush, DB.flushDbs, if_pos he, h.assertFlushed]
  rfl

/-- What a flush does: nothing at the recorded height, else all of it. -/
theorem Held.flush_cases (h : Held env tells s recorded stored (stored ++ rest))
    {flushUtxos : Bool} {s' : BlockProcessor} (hf : s.flush env flushUtxos = .ok s') :
    (recorded = stored ++ rest ∧ rest = [] ∧ s' = s) ∨
    ∃ rows pend hdb,
      HistoryTells env s.db.history s.db.utxoFlushCount rows pend (tells recorded)
        (tells stored) (tells (stored ++ rest)) ∧
      s' = Index.flushed s flushUtxos (flushedDb env s stored rest hdb flushUtxos) ∧
      s.db.history.flushCount + 1 < flushIds ∧ (flushUtxos = true → UndoKeysFit s.undoInfos) ∧
      HistoryRows hdb (addRows rows (s.db.history.flushCount + 1) pend) ∧
      ∃ record, hdb[History.stateKey]? = some (env.historyCodec.repr record) ∧
        record.flushCount = s.db.history.flushCount + 1 ∧
        record.dbVersion = some History.latestVersion := by
  by_cases he : s.height = s.db.dbHeight
  · obtain ⟨rfl, hs⟩ := h.eq_of_height he
    obtain rfl : rest = [] := List.self_eq_append_right.mp hs
    rw [List.append_nil] at h ⊢
    cases (h.flush_self flushUtxos).symm.trans hf
    exact .inl ⟨rfl, rfl, rfl⟩
  · obtain ⟨hid, hundo⟩ := h.flush_bounds he hf
    obtain ⟨rows, pend, hist⟩ := h.history
    obtain ⟨hdb, hf', hrows, hrec⟩ := h.flush_eq hist flushUtxos he hid hundo
    exact .inr ⟨rows, pend, hdb, hist, Except.ok.inj (hf.symm.trans hf'), hid, hundo, hrows, hrec⟩

/-- A flush keeps the invariant: the DB stores the whole chain, and records it when the UTXOs
are flushed. -/
theorem Held.flush (h : Held env tells s recorded stored chain) {flushUtxos : Bool}
    {s' : BlockProcessor} (hf : s.flush env flushUtxos = .ok s') :
    Held env tells s' (if flushUtxos then chain else recorded) chain chain := by
  obtain ⟨rest, rfl⟩ := h.stored_prefix
  rcases h.flush_cases hf with ⟨rfl, rfl, rfl⟩ | ⟨rows, pend, hdb, hist, rfl, hid, -, hrows, hrec⟩
  · rw [ite_self]
    rw [List.append_nil] at h ⊢
    exact h
  · exact h.flushed hist hid hrows hrec flushUtxos

end Flushing

/-! ### The index of a valid chain -/

section Indexed

variable {env : Env} {s : BlockProcessor} {recorded stored rest chain : List Block}

theorem Indexed.flushFs_eq (h : Indexed env s recorded stored (stored ++ rest)) :
    s.db.flushFs env s.flushData = .ok ({ s.flushData with headers := [], blockTxHashes := [] },
      afterFs env s.db stored rest) := h.held.flushFs_eq

theorem Indexed.eq_of_height (h : Indexed env s recorded stored chain)
    (he : s.height = s.db.dbHeight) : recorded = chain ∧ stored = chain := h.held.eq_of_height he

theorem Indexed.nothing_pending (h : Indexed env s chain chain chain) :
    s.utxoCache = ∅ ∧ s.dbDeletes = [] ∧ s.undoInfos = [] := h.held.nothing_pending

theorem Indexed.assertFlushed (h : Indexed env s chain chain chain) :
    s.db.assertFlushed s.flushData = .ok () := h.held.assertFlushed

theorem Indexed.flush_self (h : Indexed env s chain chain chain) (flushUtxos : Bool) :
    s.flush env flushUtxos = .ok s := h.held.flush_self flushUtxos

/-- What a flush does: nothing at the recorded height, else all of it. -/
theorem Indexed.flush_cases (h : Indexed env s recorded stored (stored ++ rest))
    {flushUtxos : Bool} {s' : BlockProcessor} (hf : s.flush env flushUtxos = .ok s') :
    (recorded = stored ++ rest ∧ rest = [] ∧ s' = s) ∨
    ∃ rows pend hdb,
      HistoryHolds env s.db.history s.db.utxoFlushCount rows pend recorded stored
        (stored ++ rest) ∧
      s' = Index.flushed s flushUtxos (flushedDb env s stored rest hdb flushUtxos) ∧
      s.db.history.flushCount + 1 < flushIds ∧ (flushUtxos = true → UndoKeysFit s.undoInfos) ∧
      HistoryRows hdb (addRows rows (s.db.history.flushCount + 1) pend) ∧
      ∃ record, hdb[History.stateKey]? = some (env.historyCodec.repr record) ∧
        record.flushCount = s.db.history.flushCount + 1 ∧
        record.dbVersion = some History.latestVersion := by
  rcases h.held.flush_cases hf with hsame | ⟨rows, pend, hdb, hist, hrest⟩
  · exact .inl hsame
  · exact .inr ⟨rows, pend, hdb, hist.holds, hrest⟩

/-- A flush keeps the invariant: the DB stores the whole chain, and records it when the UTXOs
are flushed. -/
theorem Indexed.flush (h : Indexed env s recorded stored chain) {flushUtxos : Bool}
    {s' : BlockProcessor} (hf : s.flush env flushUtxos = .ok s') :
    Indexed env s' (if flushUtxos then chain else recorded) chain chain :=
  (h.held.flush hf).indexed h.valid

end Indexed
end ElectrumX.Index
