import ElectrumX.Index.Flush

/-!
# Backing up

Backing up a block of a fully flushed processor turns the UTXOs back into those of the chain
below it, as long as the undo row at its height is the one of this block. Several blocks are
backed up before the changes are flushed; until then the tables, the files and the history
are still those of the chain that the backup started from.
-/

namespace ElectrumX.Index
open ElectrumX.Base ElectrumX.Lib ElectrumX.Chain ElectrumX.Server

/-- The undo row at the height of a block on top of a chain is the one of this block. -/
def OwnUndo (env : Env) (db : DB) (chain : List Block) (b : Block) : Prop :=
  db.readUndoInfo chain.length = .ok (some ((spentBy env.coin chain b).flatMap packed))

/-- The undo rows at the heights of blocks on top of a chain are those of these blocks. -/
def OwnUndos (env : Env) (db : DB) : List Block → List Block → Prop
  | _, [] => True
  | chain, b :: rest => OwnUndo env db chain b ∧ OwnUndos env db (chain ++ [b]) rest

instance (env : Env) (db : DB) (chain : List Block) (b : Block) :
    Decidable (OwnUndo env db chain b) := inferInstanceAs (Decidable (_ = _))

instance OwnUndos.decidable (env : Env) (db : DB) :
    (chain blocks : List Block) → Decidable (OwnUndos env db chain blocks)
  | _, [] => isTrue trivial
  | chain, b :: rest =>
    have := OwnUndos.decidable env db (chain ++ [b]) rest
    inferInstanceAs (Decidable (_ ∧ _))

/-- Blocks of the recorded chain `top` have been backed up down to `chain`. -/
structure Unwinding (env : Env) (s : BlockProcessor) (top chain : List Block) : Prop where
  valid : ValidChain env.coin top
  chain_prefix : chain <+: top
  db : DbHolds env s.db top top
  history : ∃ rows, HistoryHolds env s.db.history s.db.utxoFlushCount rows (fun _ ↦ []) top top top
  utxo : UtxoRep (Ledger.created (ledger env.coin top)) s.db.utxoDb s.utxoCache s.dbDeletes
    (unspent env.coin top) (unspent env.coin chain)
  counts_eq : s.db.txCounts = some (counts chain)
  txCount_eq : s.txCount = txCount chain
  txHashes_eq : s.txHashes = []
  headers_eq : s.headers = []
  undoInfos_eq : s.undoInfos = []
  touched : ∀ x ∈ s.touched, x.length = hashXLen
  touched_of_touching : ∀ hashX, ∀ n ∈ touching env.coin top hashX, txCount chain ≤ n →
    hashX.val ∈ s.touched
  height_eq : s.height + 1 = chain.length
  tip_eq : s.tip = tip env.coin chain

/-- What the back-up of blocks of the recorded chain `top` down to `chain` leaves, whatever the
blocks do with the outputs: `tells` is what a chain puts into the history. -/
structure Rewound (env : Env) (tells : List Block → HashX → List Nat) (s : BlockProcessor)
    (top chain : List Block) : Prop where
  headersFit : HeadersFit env.coin top
  numbered : Numbered (Ledger.created (ledger env.coin top))
  chain_prefix : chain <+: top
  db : DbHolds env s.db top top
  history : ∃ rows, HistoryTells env s.db.history s.db.utxoFlushCount rows (fun _ ↦ [])
    (tells top) (tells top) (tells top)
  utxo : UtxoRep (Ledger.created (ledger env.coin top)) s.db.utxoDb s.utxoCache s.dbDeletes
    (unspent env.coin top) (unspent env.coin chain)
  counts_eq : s.db.txCounts = some (counts chain)
  txCount_eq : s.txCount = txCount chain
  txHashes_eq : s.txHashes = []
  headers_eq : s.headers = []
  undoInfos_eq : s.undoInfos = []
  touched : ∀ x ∈ s.touched, x.length = hashXLen
  height_eq : s.height + 1 = chain.length
  tip_eq : s.tip = tip env.coin chain

/-- The history of `top` can be cut back to that of `chain`: it is sorted, and the script hashes
to cut are known. -/
structure Cuttable (tells : List Block → HashX → List Nat) (touched : Std.ExtTreeSet Bytes)
    (top chain : List Block) : Prop where
  sorted : ∀ hashX, (tells top hashX).Pairwise (· < ·)
  cut : ∀ hashX, (tells top hashX).filter (· < txCount chain) = tells chain hashX
  told : ∀ hashX, ∀ n ∈ tells top hashX, txCount chain ≤ n → hashX.val ∈ touched

section Backup

variable {env : Env} {tells : List Block → HashX → List Nat} {s : BlockProcessor}
variable {top chain : List Block}

/-- A fully flushed processor can start to back up, whatever the history tells. -/
theorem Held.rewound (h : Held env tells s chain chain chain) : Rewound env tells s chain chain := by
  obtain ⟨rows, pend, hist⟩ := h.history
  have hpend : pend = fun _ ↦ [] := by
    funext hashX
    have hl := congrArg List.length ((hist.chainRows hashX).trans (hist.storedRows hashX).symm)
    rw [List.length_append] at hl
    exact List.eq_nil_of_length_eq_zero (by omega)
  exact
    { headersFit := h.headersFit
      numbered := h.numbered
      chain_prefix := List.prefix_rfl
      db := h.db
      history := ⟨rows, hpend ▸ hist⟩
      utxo := h.utxo
      counts_eq := h.counts_eq
      txCount_eq := h.txCount_eq
      txHashes_eq := h.txHashes_eq.trans (by rw [List.drop_length, List.map_nil])
      headers_eq := h.headers_eq.trans (by rw [List.drop_length, List.map_nil])
      undoInfos_eq := h.nothing_pending.2.2
      touched := h.touched
      height_eq := h.height_eq
      tip_eq := h.tip_eq }

/-- The script hashes of the transactions that have been backed up are in `touched`. -/
def TouchedCovers (env : Env) (s : BlockProcessor) (top chain : List Block) : Prop :=
  ∀ hashX, ∀ n ∈ touching env.coin top hashX, txCount chain ≤ n → hashX.val ∈ s.touched

private theorem exists_touching_entry {c rest : List Block} {b : Block}
    (hv : AnyOrderChain env.coin (c ++ [b] ++ rest)) {hashX : HashX} {n : Nat}
    (hn : n ∈ touching env.coin (c ++ [b] ++ rest) hashX) (h1 : txCount c ≤ n)
    (h2 : n < txCount (c ++ [b])) :
    ∃ e ∈ entries env.coin (env.coin.isUnspendableAt c.length) (txCount c) b.transactions,
      hashX ∈ hashXsOf (ledger env.coin (c ++ [b])) e := by
  have ht : n ∈ (touching env.coin (c ++ [b] ++ rest) hashX).filter (· < txCount (c ++ [b])) :=
    List.mem_filter.mpr ⟨hn, by simpa using h2⟩
  rw [touching_filter (hv.closed _ _ rfl)] at ht
  obtain ⟨e, he, hx⟩ : Touches env.coin (c ++ [b]) n hashX := by
    simpa using (List.mem_filter.mp ht).2
  rw [ledger_concat, List.getElem?_append_right (by rwa [length_ledger])] at he
  exact ⟨e, List.mem_of_getElem? he, hx⟩

theorem Unwinding.rewound (h : Unwinding env s top chain) :
    Rewound env (touching env.coin) s top chain :=
  { h with
    headersFit := h.valid.headersFit
    numbered := numbered h.valid
    db := h.db
    history := h.history.imp fun _ hist ↦ hist.tells
    utxo := h.utxo
    touched := h.touched }

theorem Rewound.unwinding (h : Rewound env (touching env.coin) s top chain)
    (hv : ValidChain env.coin top) (ht : TouchedCovers env s top chain) :
    Unwinding env s top chain :=
  { h with
    valid := hv
    db := h.db
    history := h.history.imp fun _ hist ↦ hist.holds
    utxo := h.utxo
    touched := h.touched
    touched_of_touching := ht }

/-- Nothing has been backed up yet. -/
theorem TouchedCovers.start : TouchedCovers env s chain chain :=
  fun _ _ hn hle ↦ absurd (touching_lt hn) (by omega)

/-- A fully flushed processor can start to back up. -/
theorem Indexed.unwinding (h : Indexed env s chain chain chain) : Unwinding env s chain chain :=
  h.held.rewound.unwinding h.valid .start

/-- Backing up the transactions of a valid block turns the UTXOs back, and adds to `touched` the
script hashes that the transactions touch. -/
theorem Rewound.backupTxs {c : List Block} {b : Block} (h : Rewound env tells s top (c ++ [b]))
    (hv : ValidChain env.coin top) (hp : c ++ [b] <+: top) (hown : OwnUndo env s.db c b) :
    ∃ utxoCache dbDeletes touched,
      (∀ tip, BlockProcessor.backupTxs { s with tip := tip } b.transactions
        (env.coin.isUnspendableAt c.length) = .ok { s with
          tip := tip
          utxoCache := utxoCache
          dbDeletes := dbDeletes
          touched := touched
          txCount := s.txCount - b.transactions.length }) ∧
      UtxoRep (Ledger.created (ledger env.coin top)) s.db.utxoDb utxoCache dbDeletes
        (unspent env.coin top) (unspent env.coin c) ∧
      ∀ x, x ∈ touched ↔ x ∈ s.touched ∨
        ∃ e ∈ entries env.coin (env.coin.isUnspendableAt c.length) (txCount c) b.transactions,
          ∃ hashX ∈ hashXsOf (ledger env.coin (c ++ [b])) e, x = hashX.val := by
  obtain ⟨rest, rfl⟩ := hp
  set es := entries env.coin (env.coin.isUnspendableAt c.length) (txCount c) b.transactions
    with hes
  have hvb := hv.left
  have hL : ledger env.coin (c ++ [b]) = ledger env.coin c ++ es := ledger_concat ..
  have hheight : s.height = c.length := by
    have := h.height_eq
    rw [List.length_append, List.length_singleton] at this
    omega
  have hN := Index.numbered hv
  have hh := h.db.hashesFound List.prefix_rfl hv.ledger.keys_nodup h.counts_eq (by
    rcases rest with _ | ⟨x, xs⟩
    · exact .inl (by simp)
    · exact .inr (by simp only [List.length_append, List.length_cons]; omega))
  have hsub : Ledger.created (ledger env.coin c ++ es) ⊆
      Ledger.created (ledger env.coin (c ++ [b] ++ rest)) := by
    rw [← hL, ledger_append env.coin (c ++ [b]), Ledger.created_append]
    exact List.subset_append_left _ _
  have hspent : ∀ op ∈ es.flatMap (·.spends), unspent env.coin (c ++ [b] ++ rest) op = none := by
    intro op hop
    apply Ledger.live_eq_none_of_spent
    rw [ledger_append, hL, Ledger.spent_append, Ledger.spent_append]
    exact List.mem_append_left _ (List.mem_append_right _ hop)
  have hu := h.utxo
  have hview : unspent env.coin (c ++ [b]) = Ledger.live (ledger env.coin c ++ es) := by
    rw [unspent, hL]
  rw [hview] at hu
  obtain ⟨cache, deletes, touched, hr, hu', ht⟩ := hu.backupLoop env.coin s.touched hN hh
    (hL ▸ hvb.ledger) (fun p hp ↦ hsub hp) hspent (List.append_nil _).symm
  have hundo : (es.flatMap (·.spends)).filterMap (origin (ledger env.coin c ++ es)) =
      spentBy env.coin c b := by
    rw [spentBy, hL]
  rw [← hes, hundo] at hr
  rw [OwnUndo] at hown
  refine ⟨cache, deletes, touched, fun tip ↦ ?_, hu', fun x ↦ by rw [ht, ← hL]⟩
  rw [BlockProcessor.backupTxs]
  simp only [hheight, hown, bind, Except.bind, hr, assertThat_of, pure, Except.pure]

/-- Backing up a block goes back to the chain below it when `backup_txs` turns the UTXOs back. -/
theorem Rewound.backupBlock {m : TxMethods} {c : List Block} {b : Block}
    (h : Rewound env tells s top (c ++ [b])) (hchain : AnyOrderChain env.coin top)
    (ht : TouchedCovers env s top (c ++ [b])) (hne : c ≠ [])
    (hback : ∃ utxoCache dbDeletes touched,
      (∀ tip, m.backupTxs { s with tip := tip } b.transactions
        (env.coin.isUnspendableAt c.length) = .ok { s with
          tip := tip
          utxoCache := utxoCache
          dbDeletes := dbDeletes
          touched := touched
          txCount := s.txCount - b.transactions.length }) ∧
      UtxoRep (Ledger.created (ledger env.coin top)) s.db.utxoDb utxoCache dbDeletes
        (unspent env.coin top) (unspent env.coin c) ∧
      ∀ x, x ∈ touched ↔ x ∈ s.touched ∨
        ∃ e ∈ entries env.coin (env.coin.isUnspendableAt c.length) (txCount c) b.transactions,
          ∃ hashX ∈ hashXsOf (ledger env.coin (c ++ [b])) e, x = hashX.val) :
    ∃ s', m.backupBlock env s b.raw = .ok s' ∧ Rewound env tells s' top c ∧
      TouchedCovers env s' top c ∧ (∀ x ∈ s.touched, x ∈ s'.touched) ∧
      s'.db = { s.db with txCounts := some (counts c) } := by
  obtain ⟨utxoCache, dbDeletes, touched, hr, hu, hx⟩ := hback
  obtain ⟨rest, rfl⟩ := h.chain_prefix
  have hvb := hchain.left
  have hheight : s.height = c.length := by
    have := h.height_eq
    rw [List.length_append, List.length_singleton] at this
    omega
  have hraw : env.coin.block b.raw s.height = .ok b := by
    rw [hheight]
    exact hvb.parsed c.length b (by simp)
  have htip : env.coin.headerHash b.header = s.tip := by rw [h.tip_eq, tip_concat]
  have hcount : txCount (c ++ [b]) = txCount c + b.transactions.length := txCount_concat ..
  have hcounts : s.db.counts = counts c ++ [txCount (c ++ [b])] := by
    rw [DB.counts, h.counts_eq, Option.getD_some, counts_concat]
  have hprev : env.coin.headerPrevhash b.header = tip env.coin c := by
    obtain ⟨init, last, rfl⟩ := (List.eq_nil_or_concat' c).resolve_left hne
    rw [tip_concat]
    exact (List.isChain_append.mp hvb.linked).2.2 last (by simp) b (by simp)
  have hr' := hr (env.coin.headerPrevhash b.header)
  rw [← hheight] at hr'
  refine ⟨{ s with
    height := s.height - 1
    tip := env.coin.headerPrevhash b.header
    utxoCache := utxoCache
    dbDeletes := dbDeletes
    touched := touched
    txCount := s.txCount - b.transactions.length
    db := { s.db with txCounts := some (counts c) } }, ?_, ?_, fun hashX n hn hle ↦ ?_,
    fun x hm ↦ (hx x).mpr (.inl hm), rfl⟩
  · have hne' : ¬ (counts c ++ [txCount (c ++ [b])] = []) := by simp
    have hc (db : DB) (hdb : db = s.db) : db.counts = counts c ++ [txCount (c ++ [b])] :=
      hdb ▸ hcounts
    rw [TxMethods.backupBlock]
    simp only [hraw, bind, Except.bind, htip, ne_eq, not_true, if_false, hr', pure, Except.pure]
    rw [hc _ rfl, if_neg hne', List.dropLast_concat]
  · exact
      { headersFit := h.headersFit
        numbered := h.numbered
        chain_prefix := (List.prefix_append _ _).trans (List.prefix_append _ _)
        db := { h.db with }
        history := h.history
        utxo := hu
        counts_eq := rfl
        txCount_eq := by
          change s.txCount - b.transactions.length = _
          rw [h.txCount_eq, hcount, Nat.add_sub_cancel]
        txHashes_eq := h.txHashes_eq
        headers_eq := h.headers_eq
        undoInfos_eq := h.undoInfos_eq
        touched := fun x hm ↦ by
          rcases (hx x).mp hm with hm | ⟨e, -, hashX, -, rfl⟩
          · exact h.touched x hm
          · exact hashX.property
        height_eq := by
          change s.height - 1 + 1 = _
          omega
        tip_eq := hprev }
  · apply (hx _).mpr
    by_cases hlt : n < txCount (c ++ [b])
    · obtain ⟨e, he, hm⟩ := exists_touching_entry hchain hn hle hlt
      exact .inr ⟨e, he, hashX, hm, rfl⟩
    · exact .inl (ht hashX n hn (by omega))

/-- Backing up a block whose undo row is its own goes back to the chain below it. -/
theorem Unwinding.backupBlock {c : List Block} {b : Block}
    (h : Unwinding env s top (c ++ [b])) (hne : c ≠ []) (hown : OwnUndo env s.db c b) :
    ∃ s', s.backupBlock env b.raw = .ok s' ∧ Unwinding env s' top c ∧
      s'.db = { s.db with txCounts := some (counts c) } := by
  have hback := h.rewound.backupTxs h.valid h.chain_prefix hown
  obtain ⟨s', hs', h', ht, -, hdb⟩ := Rewound.backupBlock (m := BlockProcessor.methods env) h.rewound
    h.valid.anyOrder h.touched_of_touching hne hback
  exact ⟨s', hs', h'.unwinding h.valid ht, hdb⟩

theorem ownUndos_append {db : DB} {c a b : List Block} :
    OwnUndos env db c (a ++ b) ↔ OwnUndos env db c a ∧ OwnUndos env db (c ++ a) b := by
  induction a generalizing c with
  | nil => simp [OwnUndos]
  | cons x xs ih => rw [List.cons_append, OwnUndos, ih, OwnUndos, ← List.append_cons, and_assoc]

/-- Own undo rows stay so while the rows below the height behind them do. -/
theorem OwnUndos.congr {db db' : DB} {c bs : List Block} (h : OwnUndos env db c bs)
    (hrow : ∀ n : Nat, n < (c ++ bs).length → n < 2 ^ 32 →
      db'.utxoDb[prefixUndo :: packBE 4 n]? = db.utxoDb[prefixUndo :: packBE 4 n]?) :
    OwnUndos env db' c bs := by
  induction bs generalizing c with
  | nil => trivial
  | cons x xs ih =>
    obtain ⟨hx, hxs⟩ := h
    refine ⟨?_, ih hxs fun n hn ↦ hrow n (by rwa [List.append_cons])⟩
    obtain ⟨k, hk, hv⟩ := bind_eq_ok.mp hx
    rw [DB.undoKey, packBeUint32] at hk
    split at hk
    · next hlt =>
      cases hk
      have hs := hrow c.length (by simp) (by omega)
      rw [OwnUndo, DB.readUndoInfo, DB.undoKey, packBeUint32, if_pos hlt]
      exact (congrArg Except.ok hs).trans hv
    · cases hk

/-- Backing up blocks from the top down goes back to the chain below them. -/
theorem Unwinding.backupBlocks {c bs : List Block} (h : Unwinding env s top (c ++ bs))
    (hne : c ≠ []) (hown : OwnUndos env s.db c bs) :
    ∃ s', (bs.map (·.raw)).reverse.foldlM (BlockProcessor.backupBlock env) s = .ok s' ∧
      Unwinding env s' top c ∧ s'.db = { s.db with txCounts := s'.db.txCounts } := by
  induction bs using List.reverseRecOn generalizing s with
  | nil => exact ⟨s, rfl, by rwa [List.append_nil] at h, rfl⟩
  | append_singleton bs b ih =>
    rw [← List.append_assoc] at h
    obtain ⟨hown, hb, -⟩ := ownUndos_append.mp hown
    obtain ⟨s1, hr, h1, hdb⟩ := h.backupBlock (by simp [hne]) hb
    obtain ⟨s', hs', h', hd⟩ := ih h1 (hown.congr fun n _ _ ↦ by rw [hdb])
    refine ⟨s', ?_, h', ?_⟩
    · rw [List.map_append, List.map_singleton, List.reverse_append, List.reverse_singleton,
        List.singleton_append, List.foldlM_cons]
      simp only [hr, bind, Except.bind]
      exact hs'
    · rw [hdb] at hd
      exact hd

/-- A fully flushed processor that has backed up blocks had at least one more. -/
theorem Indexed.of_backupBlocks {c bs : List Block} {s' : BlockProcessor}
    (h : Indexed env s (c ++ bs) (c ++ bs) (c ++ bs)) (hown : OwnUndos env s.db c bs)
    (hb : s.backupBlocks env (bs.map (·.raw)).reverse = .ok s') :
    c ≠ [] ∧ Unwinding env s' (c ++ bs) c ∧ s'.db = { s.db with txCounts := s'.db.txCounts } := by
  obtain ⟨_, -, hb⟩ := bind_eq_ok.mp hb
  obtain ⟨_, hge, hb⟩ := bind_eq_ok.mp hb
  have hge := assertThat_eq_ok.mp hge
  rw [List.length_reverse, List.length_map] at hge
  have hlen := h.height_eq
  rw [List.length_append] at hlen
  have hne : c ≠ [] := by
    rintro rfl
    rw [List.length_nil] at hlen
    omega
  obtain ⟨s1, hs1, h1, hd⟩ := h.unwinding.backupBlocks hne hown
  cases hs1.symm.trans hb
  exact ⟨hne, h1, hd⟩

/-! ### Flushing the backup -/

theorem Unwinding.cuttable (h : Unwinding env s top chain) :
    Cuttable (touching env.coin) s.touched top chain where
  sorted := touching_pairwise top
  cut hashX := by
    obtain ⟨rest, rfl⟩ := h.chain_prefix
    exact touching_filter h.valid.left.ledger.closed hashX
  told := h.touched_of_touching

/-- The DB after the backup of the files and the history. -/
def backedUpHistory (s : BlockProcessor) (headerMc : MerkleCache) (hdb : Table) : DB :=
  { s.db with
    fsHeight := s.height
    fsTxCount := s.txCount
    headerMc := headerMc }.commitHistory
      { s.db.history with db := hdb, flushCount := s.db.history.flushCount + 1 }

/-- The DB after a backup that left `hdb` as the history table. -/
def backedUpDb (env : Env) (s : BlockProcessor) (headerMc : MerkleCache) (hdb : Table) : DB :=
  let db := { backedUpHistory s headerMc hdb with
    utxoFlushCount := s.db.history.flushCount + 1
    dbHeight := s.height
    dbTxCount := s.txCount
    dbTip := s.tip }
  db.commitUtxo (flushOps s ++ [db.writeUtxoState env])

/-- The header Merkle cache is truncated to a positive length. -/
private theorem exists_truncate (mc : MerkleCache) {length : Int} (h : 0 < length) :
    ∃ mc', mc.truncate length = .ok mc' := by
  rw [MerkleCache.truncate, if_neg (by omega)]
  split
  · exact ⟨_, rfl⟩
  · exact ⟨_, rfl⟩

/-- `backup` cuts the history at the transaction count of the chain below. -/
theorem Rewound.backupHistory (h : Rewound env tells s top chain)
    (hc : Cuttable tells s.touched top chain) {rows : HashX → Nat → List Nat}
    (hist : HistoryTells env s.db.history s.db.utxoFlushCount rows (fun _ ↦ []) (tells top)
      (tells top) (tells top)) :
    ∃ hdb, s.db.history.backup env.historyCodec s.touched.toList s.txCount = .ok { s.db.history with
        db := hdb, flushCount := s.db.history.flushCount + 1 } ∧
      HistoryRows hdb (cutRows rows (txCount chain)) ∧
      ∃ record, hdb[History.stateKey]? = some (env.historyCodec.repr record) ∧
        record.flushCount = s.db.history.flushCount + 1 ∧
        record.dbVersion = some History.latestVersion := by
  have hsorted : ∀ hashX, (numbers rows hashX).Pairwise (· < ·) := by
    intro hashX
    rw [hist.storedRows]
    exact hc.sorted hashX
  have hall : ∀ hashX : HashX, hashX.val ∉ s.touched.toList →
      ∀ n ∈ numbers rows hashX, n < txCount chain := by
    intro hashX hx n hn
    rw [hist.storedRows] at hn
    by_contra hle
    exact hx (Std.ExtTreeSet.mem_toList.mpr (hc.told hashX n hn (by omega)))
  have hnodup : s.touched.toList.Nodup := by
    apply s.touched.distinct_toList.imp
    rintro a b hab rfl
    exact hab Std.ReflCmp.compare_self
  obtain ⟨hdb, hb, hrows, hstate⟩ := hist.table.backup env.historyCodec hsorted
    (fun x hx ↦ h.touched x (Std.ExtTreeSet.mem_toList.mp hx)) hnodup hall
  rw [← h.txCount_eq] at hb
  exact ⟨hdb, hb, hrows, _, hstate, rfl, congrArg some hist.version⟩

/-- `flush_backup` succeeds. -/
theorem Rewound.flushBackup_eq (h : Rewound env tells s top chain)
    (hc : Cuttable tells s.touched top chain) (hne : chain ≠ [])
    (hlt : chain.length < top.length) {rows : HashX → Nat → List Nat}
    (hist : HistoryTells env s.db.history s.db.utxoFlushCount rows (fun _ ↦ []) (tells top)
      (tells top) (tells top)) :
    ∃ headerMc hdb, s.flushBackup env =
        .ok (flushed s true (backedUpDb env s headerMc hdb)) ∧
      s.db.history.backup env.historyCodec s.touched.toList s.txCount = .ok { s.db.history with
        db := hdb, flushCount := s.db.history.flushCount + 1 } ∧
      HistoryRows hdb (cutRows rows (txCount chain)) ∧
      ∃ record, hdb[History.stateKey]? = some (env.historyCodec.repr record) ∧
        record.flushCount = s.db.history.flushCount + 1 ∧
        record.dbVersion = some History.latestVersion := by
  have hlen := List.length_pos_of_ne_nil hne
  have hheight := h.height_eq
  have hdbHeight := h.db.dbHeight
  have hpos : 0 < s.height + 1 := by omega
  obtain ⟨headerMc, hmc⟩ := exists_truncate s.db.headerMc hpos
  obtain ⟨hdb, hb, hrows, hrec⟩ := h.backupHistory hc hist
  refine ⟨headerMc, hdb, ?_, hb, hrows, hrec⟩
  have a1 : s.flushData.headers = [] := h.headers_eq
  have a2 : s.flushData.blockTxHashes = [] := h.txHashes_eq
  have a3 : s.flushData.height < s.db.dbHeight := by
    change s.height < _
    omega
  have a4 : s.db.history.assertFlushed = .ok () := hist.unflushed.assertFlushed fun _ ↦ rfl
  have hundo : DB.flushUndoInfos s.flushData.undoInfos =
      .ok ((undoPairs s.undoInfos).map fun p ↦ .put p.1 p.2) := by
    change DB.flushUndoInfos s.undoInfos = _
    rw [h.undoInfos_eq]
    rfl
  have hb' : ({ s.db with
      fsHeight := s.height, fsTxCount := s.txCount, headerMc := headerMc } : DB).history.backup
        env.historyCodec s.touched.toList s.flushData.txCount = _ := hb
  have hmc' : s.db.headerMc.truncate (s.flushData.height + 1) = _ := hmc
  rw [BlockProcessor.flushBackup, DB.flushBackup, assertThat_of a1, assertThat_of a2,
    assertThat_of a3, a4, DB.backupFs]
  simp only [hmc', bind, Except.bind, pure, Except.pure]
  rw [hb']
  simp only [DB.flushUtxoDb, hundo, bind, Except.bind, pure, Except.pure]
  have hflushed : flushed s true (backedUpDb env s headerMc hdb) = { s with
      db := backedUpDb env s headerMc hdb
      undoInfos := []
      utxoCache := ∅
      dbDeletes := [] } := by
    simp only [flushed, if_true, h.headers_eq, h.txHashes_eq]
  rw [hflushed]
  rfl

private theorem utxoDb_backedUpDb (h : Rewound env tells s top chain) (headerMc : MerkleCache)
    (hdb : Table) :
    ∃ v : Bytes, (backedUpDb env s headerMc hdb).utxoDb = s.db.utxoDb.write
      ((sorted s.dbDeletes).map BatchOp.delete ++
        s.utxoCache.toList.flatMap (fun e ↦ DB.utxoRows e.1 e.2) ++
        (undoPairs [] ++ [v].map (utxoStateKey, ·)).map fun p ↦ .put p.1 p.2) := by
  have hw : ∃ v : Bytes, (backedUpDb env s headerMc hdb).utxoDb =
      s.db.utxoDb.write (flushOps s ++ [.put utxoStateKey v]) := ⟨_, rfl⟩
  obtain ⟨v, hv⟩ := hw
  refine ⟨v, ?_⟩
  rw [hv, flushOps, h.undoInfos_eq, List.append_assoc]
  rfl

/-- A backup leaves the undo rows alone. -/
theorem Rewound.getElem?_backedUpDb_undo (h : Rewound env tells s top chain)
    (headerMc : MerkleCache) (hdb : Table) (k : Bytes) :
    (backedUpDb env s headerMc hdb).utxoDb[prefixUndo :: k]? = s.db.utxoDb[prefixUndo :: k]? := by
  obtain ⟨v, hv⟩ := utxoDb_backedUpDb h headerMc hdb
  rw [hv, Table.write_append, Table.getElem?_write_puts_of_notMem, h.utxo.getElem?_write_flush]
  · exact fun k ↦ mem_sorted
  · exact fun t ↦ ⟨fun he ↦ absurd (List.cons.inj he).1 (by decide),
      fun he ↦ absurd (List.cons.inj he).1 (by decide)⟩
  · intro w hm
    have he : prefixUndo :: k = utxoStateKey := (Prod.mk.inj (List.mem_singleton.mp hm)).1
    exact absurd (List.cons.inj he).1 (by decide)

/-- The invariant after a backup. -/
theorem Rewound.flushed (h : Rewound env tells s top chain)
    (hc : Cuttable tells s.touched top chain) {rows : HashX → Nat → List Nat}
    (hist : HistoryTells env s.db.history s.db.utxoFlushCount rows (fun _ ↦ []) (tells top)
      (tells top) (tells top))
    (headerMc : MerkleCache) {hdb : Table} (hrows : HistoryRows hdb (cutRows rows (txCount chain)))
    (hrec : ∃ record, hdb[History.stateKey]? = some (env.historyCodec.repr record) ∧
      record.flushCount = s.db.history.flushCount + 1 ∧
      record.dbVersion = some History.latestVersion) :
    Held env tells (Index.flushed s true (backedUpDb env s headerMc hdb)) chain chain chain := by
  obtain ⟨rest, rfl⟩ := h.chain_prefix
  have hN : Numbered (Ledger.created (ledger env.coin chain)) := by
    have hN := h.numbered
    rw [ledger_append, Ledger.created_append] at hN
    exact hN.left
  have hdrop : chain.drop chain.length = [] := List.drop_length
  have hfiles := h.db.files.left
  have hup : RowsUpTo (cutRows rows (txCount chain)) (s.db.history.flushCount + 1) := by
    intro hashX id hid
    rw [cutRows, hist.upTo hashX id (by omega)]
    rfl
  have hnum : ∀ hashX, numbers (cutRows rows (txCount chain)) hashX =
      tells chain hashX := by
    intro hashX
    rw [numbers_cutRows, hist.storedRows, hc.cut]
  exact
    { headersFit := h.headersFit.left
      numbered := hN
      recorded_prefix := List.prefix_rfl
      stored_prefix := List.prefix_rfl
      db :=
        { dbHeight := h.height_eq
          dbTxCount := h.txCount_eq
          dbTip := h.tip_eq
          dbVersion := h.db.dbVersion
          utxoState := .inl (by
            change (Table.write _ (_ ++ [_]))[utxoStateKey]? = _
            rw [Table.write_append]
            exact (Table.getElem?_write_put ..).trans (if_pos rfl))
          undoKeys := fun k v hk ↦ by
            have hk' : (backedUpDb env s headerMc hdb).utxoDb[prefixUndo :: k]? = some v := hk
            rw [h.getElem?_backedUpDb_undo] at hk'
            exact h.db.undoKeys k v hk'
          fsHeight := h.height_eq
          fsTxCount := h.txCount_eq
          files := ⟨hfiles.headers, hfiles.offsets, hfiles.txCounts, hfiles.hashes⟩ }
      history := ⟨cutRows rows (txCount chain), fun _ ↦ [],
        { table := hrows
          upTo := hup
          unflushed := hist.unflushed
          recordedRows := fun hashX ↦ by
            change numbers (dropRows _ (s.db.history.flushCount + 1)) hashX = _
            rw [dropRows_eq_self hup, hnum]
          storedRows := hnum
          chainRows := fun hashX ↦ by rw [List.append_nil, hnum]
          flushCount_le := Nat.le_refl _
          version := hist.version
          state := .inl hrec }⟩
      utxo := by
        have hmem : ∀ op u, unspent env.coin chain op = some u →
            (op, u) ∈ Ledger.created (ledger env.coin chain) :=
          fun op u hu ↦ ((Ledger.live_eq_some_iff_of_nodup hN.keys).mp hu).1
        obtain ⟨v, hv⟩ := utxoDb_backedUpDb h headerMc hdb
        have hu := h.utxo.write_flush h.numbered (fun k ↦ mem_sorted)
          (others_disjoint [] [v])
        rw [← hv] at hu
        exact { hu with base_mem := hmem, view_mem := hmem }
      counts_eq := h.counts_eq
      txCount_eq := h.txCount_eq
      txHashes_eq := by rw [hdrop]; rfl
      touched := h.touched
      undoHeights := fun u hu ↦ by cases hu
      height_eq := h.height_eq
      tip_eq := h.tip_eq
      headers_eq := by rw [hdrop]; rfl }

/-- `flush_backup` completes a back-up. -/
theorem Rewound.flushBackup (h : Rewound env tells s top chain)
    (hc : Cuttable tells s.touched top chain) (hne : chain ≠ [])
    (hlt : chain.length < top.length) :
    ∃ s', s.flushBackup env = .ok s' ∧ Held env tells s' chain chain chain ∧
      s'.utxoCache = ∅ ∧ s'.dbDeletes = [] ∧ s'.undoInfos = [] ∧
      s'.touched = s.touched ∧
      ∀ k : Bytes, s'.db.utxoDb[prefixUndo :: k]? = s.db.utxoDb[prefixUndo :: k]? := by
  obtain ⟨rows, hist⟩ := h.history
  obtain ⟨headerMc, hdb, hf, -, hrows, hrec⟩ := h.flushBackup_eq hc hne hlt hist
  exact ⟨_, hf, h.flushed hc hist headerMc hrows hrec, rfl, rfl, rfl, rfl,
    h.getElem?_backedUpDb_undo headerMc hdb⟩

theorem Unwinding.validChain (h : Unwinding env s top chain) : ValidChain env.coin chain := by
  obtain ⟨rest, rfl⟩ := h.chain_prefix
  exact h.valid.left

/-- One chunk of a reorganisation backs up its blocks and flushes. -/
theorem Indexed.backupChunk {c bs : List Block} (h : Indexed env s (c ++ bs) (c ++ bs) (c ++ bs))
    (hne : c ≠ []) (hbs : bs ≠ []) (hown : OwnUndos env s.db c bs) :
    ∃ s', s.backupChunk env (bs.map (·.raw)).reverse = .ok s' ∧ Indexed env s' c c c ∧
      s'.utxoCache = ∅ ∧ s'.dbDeletes = [] ∧ s'.undoInfos = [] ∧
      ∀ k : Bytes, s'.db.utxoDb[prefixUndo :: k]? = s.db.utxoDb[prefixUndo :: k]? := by
  have hlen := List.length_pos_of_ne_nil hne
  have hheight := h.height_eq
  rw [List.length_append] at hheight
  have hge : s.height ≥ ((bs.map (·.raw)).reverse.length : Nat) := by
    rw [List.length_reverse, List.length_map]
    omega
  obtain ⟨s1, hr, h1, hd⟩ := h.unwinding.backupBlocks hne hown
  obtain ⟨s', hf, h', hcache, hdel, hundo, -, hrows⟩ := h1.rewound.flushBackup h1.cuttable hne (by
    have := List.length_pos_of_ne_nil hbs
    rw [List.length_append]
    omega)
  refine ⟨s', ?_, h'.indexed h1.validChain, hcache, hdel, hundo, fun k ↦ ?_⟩
  · rw [BlockProcessor.backupChunk, BlockProcessor.backupBlocks, h.assertFlushed,
      assertThat_of hge]
    simp only [bind, Except.bind]
    rw [hr]
    exact hf
  · have hsame : s1.db.utxoDb = s.db.utxoDb := by rw [hd]
    rw [hrows, hsame]

end Backup
end ElectrumX.Index
