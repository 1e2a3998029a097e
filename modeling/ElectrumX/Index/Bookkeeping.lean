import ElectrumX.Index.Reorg

/-!
# The bookkeeping of heights and transaction numbers

The processor counts the blocks in memory, the DB those in the flat files and those that its
state record covers; each counts the transactions with them. The counters are moved by
advancing, by either kind of flush and by backing up, and the assertions tie them together.
They hold whatever the undo rows are and whatever the transactions spend.
-/

namespace ElectrumX.Index
open ElectrumX.Base ElectrumX.Lib ElectrumX.Chain ElectrumX.Server

/-- The blocks of raw blocks from the daemon link onto the tip, `block_processor.py:230–238`. -/
structure LinksOnto (env : Env) (s : BlockProcessor) (blocks : List Block) : Prop where
  parsed : ∀ (n : Nat) block, blocks[n]? = some block →
    env.coin.block block.raw (s.height + 1 + n) = .ok block
  hprevs : blocks.map (fun b ↦ env.coin.headerPrevhash b.header) =
    s.tip :: blocks.dropLast.map fun b ↦ env.coin.headerHash b.header
  header_length : env.coin.staticBlockHeaders = true → ∀ b ∈ blocks,
    b.header.length = basicHeaderSize

/-- The states that a processor reaches from opened databases, new or consistent, with the
blocks of its chain. Nothing is asked of the undo rows or of what the transactions spend. -/
inductive LinkedRun (env : Env) : BlockProcessor → List Block → Prop
  | opened {disk : Disk} {flushCount historyCount : Nat} {rows : HashX → Nat → List Nat}
      {chain : List Block} {s : BlockProcessor}
      (hd : Recoverable env disk flushCount historyCount rows chain)
      (h : BlockProcessor.firstOpenDbs env disk = .ok s) : LinkedRun env s chain
  | advanced {s s' : BlockProcessor} {chain blocks : List Block} (cachedHeight : Int)
      (r : LinkedRun env s chain) (hb : LinksOnto env s blocks)
      (h : s.advanceBlocks env cachedHeight blocks = .ok s') : LinkedRun env s' (chain ++ blocks)
  | flushed {s s' : BlockProcessor} {chain : List Block} (flushUtxos : Bool)
      (r : LinkedRun env s chain) (h : s.flush env flushUtxos = .ok s') : LinkedRun env s' chain
  | backedUp {s s' : BlockProcessor} {chain blocks : List Block}
      (r : LinkedRun env s (chain ++ blocks))
      (h : s.backupChunk env (blocks.map (·.raw)).reverse = .ok s') : LinkedRun env s' chain
  | notified {s : BlockProcessor} {chain : List Block} (r : LinkedRun env s chain) :
      LinkedRun env { s with touched := ∅ } chain

/-- The blocks of a chain link and parse at their heights, with headers of one length where
offsets are static. -/
structure LinkedChain (coin : Coin) (chain : List Block) : Prop where
  parsed : ∀ (i : Nat) block, chain[i]? = some block → coin.block block.raw i = .ok block
  linked : chain.IsChain fun a b ↦ coin.headerPrevhash b.header = coin.headerHash a.header
  header_length : coin.staticBlockHeaders = true → ∀ block ∈ chain,
    block.header.length = basicHeaderSize

/-- The processor has `chain` in memory and its DB stores `stored`. What the state record covers
is known only by its height. -/
structure Kept (env : Env) (s : BlockProcessor) (stored chain : List Block) : Prop where
  linked : LinkedChain env.coin chain
  stored_prefix : stored <+: chain
  fit : HeadersFit env.coin stored
  files : FilesHold env s.db.disk stored
  height_eq : s.height + 1 = chain.length
  tip_eq : s.tip = tip env.coin chain
  counts_eq : s.db.txCounts = some (counts chain)
  txCount_eq : s.txCount = txCount chain
  headers_eq : s.headers = (chain.drop stored.length).map (·.header)
  txHashes_eq : s.txHashes = (chain.drop stored.length).map fun b ↦
    b.transactions.flatMap (·.txid.val)
  fsHeight : s.db.fsHeight + 1 = stored.length
  fsTxCount : s.db.fsTxCount = txCount stored
  dbHeight_ge : -1 ≤ s.db.dbHeight
  dbHeight_le : s.db.dbHeight ≤ s.db.fsHeight
  settled : s.height = s.db.dbHeight → FullyFlushed s

/-! ### Linking -/

section Linking

variable {coin : Coin}

theorem LinkedChain.left {a b : List Block} (h : LinkedChain coin (a ++ b)) :
    LinkedChain coin a where
  parsed i block hi := h.parsed i block (by
    rw [List.getElem?_append_left (List.getElem?_eq_some_iff.mp hi).1, hi])
  linked := (List.isChain_append.mp h.linked).1
  header_length hs block hb := h.header_length hs block (List.mem_append_left _ hb)

private theorem linked_append {chain blocks : List Block}
    (hc : chain.IsChain fun a b ↦ coin.headerPrevhash b.header = coin.headerHash a.header)
    (h : blocks.map (fun b ↦ coin.headerPrevhash b.header) =
      tip coin chain :: blocks.dropLast.map fun b ↦ coin.headerHash b.header) :
    (chain ++ blocks).IsChain fun a b ↦
      coin.headerPrevhash b.header = coin.headerHash a.header := by
  induction blocks generalizing chain with
  | nil => simpa using hc
  | cons b rest ih =>
    obtain ⟨hb, hrest⟩ := List.cons.inj h
    have hb' : (chain ++ [b]).IsChain fun a b ↦
        coin.headerPrevhash b.header = coin.headerHash a.header := by
      refine List.isChain_append.mpr ⟨hc, List.isChain_singleton b, fun x hx y hy ↦ ?_⟩
      obtain rfl : b = y := by simpa using hy
      exact hb.trans (by rw [tip, Option.mem_def.mp hx])
    cases rest with
    | nil => exact hb'
    | cons b' rest =>
      rw [List.append_cons]
      refine ih hb' ?_
      rw [tip_concat]
      exact hrest

theorem LinkedChain.append {env : Env} {s : BlockProcessor} {chain blocks : List Block}
    (h : LinkedChain env.coin chain) (hh : s.height + 1 = chain.length)
    (ht : s.tip = tip env.coin chain) (hb : LinksOnto env s blocks) :
    LinkedChain env.coin (chain ++ blocks) where
  parsed i block hi := by
    by_cases hlt : i < chain.length
    · rw [List.getElem?_append_left hlt] at hi
      exact h.parsed i block hi
    · rw [List.getElem?_append_right (by omega)] at hi
      have hp := hb.parsed _ block hi
      have hi' : s.height + 1 + (i - chain.length : Nat) = i := by omega
      rwa [hi'] at hp
  linked := linked_append h.linked (ht ▸ hb.hprevs)
  header_length hs block hm := by
    rcases List.mem_append.mp hm with hm | hm
    · exact h.header_length hs block hm
    · exact hb.header_length hs block hm

end Linking

/-! ### Advancing -/

section Steps

variable {env : Env} {s s' : BlockProcessor} {stored rest chain : List Block}

/-- The loop over the blocks extends the counts and the pending hashes. -/
theorem advanceBlocksLoop_counts {minHeight height : Int} {blocks : List Block}
    (hc : s.db.txCounts = some (counts chain)) (ht : s.txCount = txCount chain)
    (h : BlockProcessor.advanceBlocksLoop env minHeight height s blocks = .ok s') :
    ∃ history rawBlocks,
      s'.db = { s.db with
        history := history
        rawBlocks := rawBlocks
        txCounts := some (counts (chain ++ blocks)) } ∧
      s'.txCount = txCount (chain ++ blocks) ∧ s'.height = s.height ∧ s'.headers = s.headers ∧
      s'.txHashes = s.txHashes ++ blocks.map fun b ↦ b.transactions.flatMap (·.txid.val) := by
  induction blocks generalizing s height chain with
  | nil =>
    cases h
    rw [List.append_nil, ← hc]
    exact ⟨_, _, rfl, ht, rfl, rfl, by simp⟩
  | cons b blocks ih =>
    obtain ⟨⟨undoInfo, s1⟩, h1, h⟩ := bind_eq_ok.mp h
    obtain ⟨⟨undo, hashXs, cache, deletes⟩, -, h1⟩ := bind_eq_ok.mp h1
    obtain ⟨history, -, h1⟩ := bind_eq_ok.mp h1
    cases h1
    have hcount : s.txCount + b.transactions.length = txCount (chain ++ [b]) := by
      rw [txCount_concat, ht]
    have hcounts : some (s.db.counts ++ [s.txCount + b.transactions.length]) =
        some (counts (chain ++ [b])) := by
      rw [DB.counts, hc, Option.getD_some, hcount, counts_concat]
    rw [List.append_cons]
    dsimp only at h
    split at h
    · obtain ⟨history', rawBlocks, hdb, htx, hh, hhd, hhs⟩ := ih hcounts hcount h
      refine ⟨history', rawBlocks, hdb, htx, hh, hhd, ?_⟩
      rw [hhs, List.append_assoc]
      rfl
    · obtain ⟨history', rawBlocks, hdb, htx, hh, hhd, hhs⟩ := ih hcounts hcount h
      refine ⟨history', rawBlocks, hdb, htx, hh, hhd, ?_⟩
      rw [hhs, List.append_assoc]
      rfl

theorem Kept.advanced (h : Kept env s stored chain) {cachedHeight : Int} {blocks : List Block}
    (hb : LinksOnto env s blocks) (hs : s.advanceBlocks env cachedHeight blocks = .ok s') :
    Kept env s' stored (chain ++ blocks) := by
  obtain ⟨s1, hl, hs⟩ := bind_eq_ok.mp hs
  obtain ⟨history, rawBlocks, hdb, htx, hheight, hhd, hhs⟩ :=
    advanceBlocksLoop_counts h.counts_eq h.txCount_eq hl
  split at hs
  · cases hs
  · next header hlast =>
    cases hs
    obtain ⟨last, hlast', rfl⟩ : ∃ last, blocks.getLast? = some last ∧ last.header = header := by
      rw [List.getLast?_map] at hlast
      exact Option.map_eq_some_iff.mp hlast
    have hne : blocks ≠ [] := by
      rintro rfl
      cases hlast'
    have hpos := List.length_pos_of_ne_nil hne
    have hdrop : (chain ++ blocks).drop stored.length = chain.drop stored.length ++ blocks :=
      List.drop_append_of_le_length h.stored_prefix.length_le
    have hlen := h.height_eq
    have hfs := h.fsHeight
    have hle := h.dbHeight_le
    have hpre := h.stored_prefix.length_le
    exact
      { linked := h.linked.append h.height_eq h.tip_eq hb
        stored_prefix := h.stored_prefix.trans (List.prefix_append _ _)
        fit := h.fit
        files := by
          rw [hdb]
          exact ⟨h.files.headers, h.files.offsets, h.files.txCounts, h.files.hashes⟩
        height_eq := by
          rw [List.length_append, hheight]
          push_cast
          omega
        tip_eq := by rw [tip, List.getLast?_append_of_ne_nil _ hne, hlast']
        counts_eq := by rw [hdb]
        txCount_eq := htx
        headers_eq := by rw [hhd, h.headers_eq, hdrop, List.map_append]
        txHashes_eq := by rw [hhs, h.txHashes_eq, hdrop, List.map_append]
        fsHeight := by rw [hdb]; exact h.fsHeight
        fsTxCount := by rw [hdb]; exact h.fsTxCount
        dbHeight_ge := by rw [hdb]; exact h.dbHeight_ge
        dbHeight_le := by rw [hdb]; exact h.dbHeight_le
        settled := fun he ↦ by
          rw [hdb, hheight] at he
          dsimp only at he
          omega }

/-! ### Flushing -/

theorem fullyFlushed_iff : FullyFlushed s ↔
    (s.txCount = s.db.fsTxCount ∧ s.db.fsTxCount = s.db.dbTxCount) ∧
    (s.height = s.db.fsHeight ∧ s.db.fsHeight = s.db.dbHeight) ∧ s.tip = s.db.dbTip ∧
    s.headers = [] ∧ s.txHashes = [] ∧ s.utxoCache.toList = [] ∧ s.dbDeletes = [] ∧
    s.undoInfos = [] ∧ s.db.history.unflushed.toList = [] := by
  simp only [FullyFlushed, DB.assertFlushed, History.assertFlushed, assertThat_bind_eq_ok,
    assertThat_eq_ok]
  rfl

/-- The file writes of a flush are made, unless an offset does not fit. -/
theorem Kept.flushFs (h : Kept env s stored (stored ++ rest)) :
    HeadersFit env.coin (stored ++ rest) ∧
      s.db.flushFs env s.flushData = .ok ({ s.flushData with headers := [], blockTxHashes := [] },
        afterFs env s.db stored rest) ∨
    s.db.flushFs env s.flushData = .error .structError := by
  have hhd : s.flushData.headers = rest.map (·.header) :=
    h.headers_eq.trans (by rw [List.drop_left])
  have hhs : s.flushData.blockTxHashes = rest.map fun b ↦ b.transactions.flatMap (·.txid.val) :=
    h.txHashes_eq.trans (by rw [List.drop_left])
  by_cases hfit : HeadersFit env.coin (stored ++ rest)
  · exact .inl ⟨hfit, flushFs_eq hfit h.files h.fsHeight h.counts_eq h.height_eq h.txCount_eq
      hhd hhs⟩
  · have hs : env.coin.staticBlockHeaders = false := by
      by_contra hs
      exact hfit ⟨h.linked.header_length, fun hs' ↦ absurd hs' hs⟩
    have hlt : ¬ (headers (stored ++ rest)).length < 2 ^ 64 := fun hlt ↦
      hfit ⟨h.linked.header_length, fun _ ↦ hlt⟩
    exact .inr (flushFs_eq_error h.fit hs hlt h.files h.fsHeight h.counts_eq h.height_eq
      h.txCount_eq hhd hhs)

/-- Behind the file writes a flush commits its batches, and takes the counters of the flush data
over when it flushes the UTXOs. -/
theorem flushDbs_counts {db db1 db' : DB} {fd fd1 fd' : FlushData} {flushUtxos : Bool}
    (hne : fd.height ≠ db.dbHeight) (hfs : db.flushFs env fd = .ok (fd1, db1))
    (h : db.flushDbs env fd flushUtxos = .ok (fd', db')) :
    ∃ history utxoDb journal, history.unflushed = ∅ ∧
      if flushUtxos then fd' = { fd1 with deletes := [], adds := ∅, undoInfos := [] } ∧
        db' = { db1 with
          history := history
          utxoDb := utxoDb
          journal := journal
          utxoFlushCount := history.flushCount
          dbHeight := fd1.height
          dbTxCount := fd1.txCount
          dbTip := fd1.tip }
      else fd' = fd1 ∧ db' = { db1 with
        history := history
        utxoDb := utxoDb
        journal := journal } := by
  rw [DB.flushDbs, if_neg hne] at h
  obtain ⟨_, hfs', h⟩ := bind_eq_ok.mp h
  cases hfs.symm.trans hfs'
  obtain ⟨_, hh, h⟩ := bind_eq_ok.mp h
  obtain ⟨history, hhist, hh⟩ := bind_eq_ok.mp hh
  cases hh
  have hempty : history.unflushed = ∅ := by
    obtain ⟨_, -, hhist⟩ := bind_eq_ok.mp hhist
    cases hhist
    rfl
  cases flushUtxos with
  | false =>
    cases h
    exact ⟨history, _, _, hempty, rfl, rfl⟩
  | true =>
    obtain ⟨_, hu, h⟩ := bind_eq_ok.mp h
    obtain ⟨undos, -, hu⟩ := bind_eq_ok.mp hu
    cases hu
    cases h
    exact ⟨history, _, _, hempty, rfl, rfl⟩

/-- A flush stores the whole chain, and a full one settles the state record too. -/
theorem Kept.flushed (h : Kept env s stored chain) {flushUtxos : Bool}
    (hs : s.flush env flushUtxos = .ok s') :
    (∃ stored', Kept env s' stored' chain) ∧
      (flushUtxos = true → s'.height = s'.db.dbHeight) := by
  obtain ⟨rest, rfl⟩ := h.stored_prefix
  obtain ⟨⟨fd, db⟩, hf, hs⟩ := bind_eq_ok.mp hs
  cases hs
  by_cases hne : s.height = s.db.dbHeight
  · rw [DB.flushDbs, if_pos (show s.flushData.height = s.db.dbHeight from hne)] at hf
    obtain ⟨_, -, hf⟩ := bind_eq_ok.mp hf
    cases hf
    exact ⟨⟨stored, h⟩, fun _ ↦ hne⟩
  rcases h.flushFs with ⟨hfit, hfs⟩ | hfs
  · obtain ⟨history, utxoDb, journal, hempty, heq⟩ := flushDbs_counts hne hfs hf
    have hlen := h.height_eq
    have hdb := h.dbHeight_le
    have hge' : -1 ≤ s.height := by omega
    have hfsH := h.fsHeight
    have hheight : s.height = ((stored ++ rest).length : Int) - 1 := by omega
    have hfiles : FilesHold env (afterFs env s.db stored rest).disk (stored ++ rest) :=
      h.files.afterFs
    have hhist : history.unflushed.toList = [] := by rw [hempty]; rfl
    rw [List.length_append] at hlen
    have hle : s.db.dbHeight ≤ ((stored ++ rest).length : Int) - 1 := by
      rw [List.length_append]
      omega
    cases flushUtxos with
    | false =>
      obtain ⟨rfl, rfl⟩ := heq
      refine ⟨⟨stored ++ rest, ?_⟩, fun hf ↦ absurd hf (by decide)⟩
      exact
        { h with
          stored_prefix := List.prefix_rfl
          fit := hfit
          files := ⟨hfiles.headers, hfiles.offsets, hfiles.txCounts, hfiles.hashes⟩
          headers_eq := by rw [List.drop_length]; rfl
          txHashes_eq := by rw [List.drop_length]; rfl
          fsHeight := Int.sub_add_cancel _ _
          fsTxCount := rfl
          dbHeight_le := hle
          settled := fun he ↦ absurd he hne }
    | true =>
      obtain ⟨rfl, rfl⟩ := heq
      refine ⟨⟨stored ++ rest, ?_⟩, fun _ ↦ rfl⟩
      exact
        { h with
          stored_prefix := List.prefix_rfl
          fit := hfit
          files := ⟨hfiles.headers, hfiles.offsets, hfiles.txCounts, hfiles.hashes⟩
          headers_eq := by rw [List.drop_length]; rfl
          txHashes_eq := by rw [List.drop_length]; rfl
          fsHeight := Int.sub_add_cancel _ _
          fsTxCount := rfl
          dbHeight_ge := hge'
          dbHeight_le := hheight.le
          settled := fun _ ↦ fullyFlushed_iff.mpr ⟨⟨h.txCount_eq, h.txCount_eq.symm⟩,
            ⟨hheight, hheight.symm⟩, rfl, rfl, rfl, rfl, rfl, rfl, hhist⟩ }
  · rw [DB.flushDbs, if_neg (show ¬ s.flushData.height = s.db.dbHeight from hne), hfs] at hf
    cases hf

/-! ### Backing up -/

/-- Backing up the block on top of a chain takes its counts back. -/
theorem backupBlock_counts {b : Block} (hchain : LinkedChain env.coin (chain ++ [b]))
    (hne : chain ≠ []) (hheight : s.height = chain.length)
    (hc : s.db.txCounts = some (counts (chain ++ [b])))
    (ht : s.txCount = txCount (chain ++ [b])) (h : s.backupBlock env b.raw = .ok s') :
    s'.db = { s.db with txCounts := some (counts chain) } ∧ s'.txCount = txCount chain ∧
      s'.height + 1 = chain.length ∧ s'.tip = tip env.coin chain ∧ s'.headers = s.headers ∧
      s'.txHashes = s.txHashes := by
  obtain ⟨block, hb, h⟩ := bind_eq_ok.mp h
  have hparsed := hchain.parsed chain.length b List.getElem?_concat_length
  rw [hheight, hparsed] at hb
  cases hb
  dsimp only at h
  split at h
  · cases h
  obtain ⟨s1, h1, h⟩ := bind_eq_ok.mp h
  split at h
  · cases h
  cases h
  obtain ⟨info, -, h1⟩ := bind_eq_ok.mp h1
  split at h1
  · cases h1
  obtain ⟨⟨n, cache, deletes, touched⟩, -, h1⟩ := bind_eq_ok.mp h1
  obtain ⟨_, -, h1⟩ := bind_eq_ok.mp h1
  cases h1
  obtain ⟨last, hlast⟩ := Option.ne_none_iff_exists'.mp
    (fun hn ↦ hne (List.getLast?_eq_none_iff.mp hn))
  have hlink := (List.isChain_append.mp hchain.linked).2.2 last hlast b rfl
  refine ⟨?_, ?_, ?_, ?_, rfl, rfl⟩
  · have hcounts : s.db.counts.dropLast = counts chain := by
      rw [DB.counts, hc, Option.getD_some, counts_concat, List.dropLast_concat]
    exact congrArg (fun c ↦ { s.db with txCounts := some c }) hcounts
  · change s.txCount - b.transactions.length = txCount chain
    rw [ht, txCount_concat, Nat.add_sub_cancel]
  · change s.height - 1 + 1 = (chain.length : Int)
    omega
  · rw [tip, hlast]
    exact hlink

theorem backupBlocks_counts {blocks : List Block}
    (hchain : LinkedChain env.coin (chain ++ blocks)) (hne : chain ≠ [])
    (hheight : s.height + 1 = (chain ++ blocks).length) (htip : s.tip = tip env.coin (chain ++ blocks))
    (hc : s.db.txCounts = some (counts (chain ++ blocks)))
    (ht : s.txCount = txCount (chain ++ blocks))
    (h : (blocks.map (·.raw)).reverse.foldlM (BlockProcessor.backupBlock env) s = .ok s') :
    s'.db = { s.db with txCounts := some (counts chain) } ∧ s'.txCount = txCount chain ∧
      s'.height + 1 = chain.length ∧ s'.tip = tip env.coin chain ∧ s'.headers = s.headers ∧
      s'.txHashes = s.txHashes := by
  induction blocks using List.reverseRecOn generalizing s with
  | nil =>
    cases h
    rw [List.append_nil] at hc ht hheight htip
    exact ⟨by rw [← hc], ht, hheight, htip, rfl, rfl⟩
  | append_singleton blocks b ih =>
    rw [List.map_append, List.map_singleton, List.reverse_concat, List.foldlM_cons] at h
    obtain ⟨s1, h1, h⟩ := bind_eq_ok.mp h
    rw [← List.append_assoc] at hchain hc ht hheight
    rw [List.length_append, List.length_singleton] at hheight
    obtain ⟨hdb1, htx1, hh1, htip1, hhd1, hhs1⟩ :=
      backupBlock_counts hchain (by simp [hne]) (by omega) hc ht h1
    obtain ⟨hdb, htx, hh, htip', hhd, hhs⟩ :=
      ih hchain.left hh1 htip1 (by rw [hdb1]) htx1 h
    exact ⟨by rw [hdb, hdb1], htx, hh, htip', hhd.trans hhd1, hhs.trans hhs1⟩

/-- `flush_backup` takes over the counters of the flush data. -/
theorem flushBackup_counts {db db' : DB} {fd fd' : FlushData} {touched : List Bytes}
    (h : db.flushBackup env fd touched = .ok (fd', db')) :
    db.history.unflushed.toList = [] ∧ fd.height < db.dbHeight ∧
    ∃ history utxoDb journal headerMc, history.unflushed = db.history.unflushed ∧
      fd' = { fd with deletes := [], adds := ∅, undoInfos := [] } ∧
      db' = { db with
        history := history
        utxoDb := utxoDb
        journal := journal
        headerMc := headerMc
        utxoFlushCount := history.flushCount
        fsHeight := fd.height
        fsTxCount := fd.txCount
        dbHeight := fd.height
        dbTxCount := fd.txCount
        dbTip := fd.tip } := by
  obtain ⟨_, -, h⟩ := bind_eq_ok.mp h
  obtain ⟨_, -, h⟩ := bind_eq_ok.mp h
  obtain ⟨_, hlt, h⟩ := bind_eq_ok.mp h
  obtain ⟨_, hflushed, h⟩ := bind_eq_ok.mp h
  obtain ⟨_, hfs, h⟩ := bind_eq_ok.mp h
  obtain ⟨headerMc, -, hfs⟩ := bind_eq_ok.mp hfs
  cases hfs
  obtain ⟨history, hhist, h⟩ := bind_eq_ok.mp h
  have hunflushed : history.unflushed = db.history.unflushed := by
    obtain ⟨ops, -, hhist⟩ := bind_eq_ok.mp hhist
    cases hhist
    rfl
  obtain ⟨_, hu, h⟩ := bind_eq_ok.mp h
  obtain ⟨undos, -, hu⟩ := bind_eq_ok.mp hu
  cases hu
  cases h
  exact ⟨assertThat_eq_ok.mp hflushed, assertThat_eq_ok.mp hlt, history, _, _, headerMc,
    hunflushed, rfl, rfl⟩

/-- A chunk that is backed up leaves a settled processor. -/
theorem Kept.backedUp {blocks : List Block} (h : Kept env s stored (chain ++ blocks))
    (hs : s.backupChunk env (blocks.map (·.raw)).reverse = .ok s') :
    Kept env s' chain chain ∧ s'.height = s'.db.dbHeight := by
  obtain ⟨s1, h1, h2⟩ := bind_eq_ok.mp hs
  obtain ⟨_, hflushed, h1⟩ := bind_eq_ok.mp h1
  obtain ⟨_, hge, h1⟩ := bind_eq_ok.mp h1
  have hge := assertThat_eq_ok.mp hge
  rw [List.length_reverse, List.length_map] at hge
  have hlen := h.height_eq
  rw [List.length_append] at hlen
  obtain ⟨-, ⟨hfs, -⟩, -, hhd, hhs, -⟩ := fullyFlushed_iff.mp hflushed
  have hfs' := h.fsHeight
  have hne : chain ≠ [] := by
    rintro rfl
    rw [List.length_nil] at hlen
    omega
  obtain rfl : stored = chain ++ blocks := h.stored_prefix.eq_of_length (by
    rw [List.length_append]
    omega)
  obtain ⟨hdb1, htx1, hh1, htip1, hhd1, hhs1⟩ := backupBlocks_counts h.linked hne h.height_eq
    h.tip_eq h.counts_eq h.txCount_eq h1
  obtain ⟨⟨fd, db⟩, hf, h2⟩ := bind_eq_ok.mp h2
  cases h2
  obtain ⟨hunflushed, -, history, utxoDb, journal, headerMc, hu, rfl, rfl⟩ := flushBackup_counts hf
  have hfiles := h.files.left
  have hpos := List.length_pos_of_ne_nil hne
  have hhist : history.unflushed.toList = [] := by rw [hu, hunflushed]
  refine ⟨?_, rfl⟩
  exact
    { linked := h.linked.left
      stored_prefix := List.prefix_rfl
      fit := h.fit.left
      files := by
        rw [hdb1]
        exact ⟨hfiles.headers, hfiles.offsets, hfiles.txCounts, hfiles.hashes⟩
      height_eq := hh1
      tip_eq := htip1
      counts_eq := by rw [hdb1]; rfl
      txCount_eq := htx1
      headers_eq := by rw [List.drop_length]; exact hhd1.trans hhd
      txHashes_eq := by rw [List.drop_length]; exact hhs1.trans hhs
      fsHeight := hh1
      fsTxCount := htx1
      dbHeight_ge := by
        change -1 ≤ s1.height
        omega
      dbHeight_le := le_refl s1.height
      settled := fun _ ↦ fullyFlushed_iff.mpr ⟨⟨rfl, rfl⟩, ⟨rfl, rfl⟩, rfl, hhd1.trans hhd,
        hhs1.trans hhs, rfl, rfl, rfl, hhist⟩ }

/-! ### Assertions -/

theorem assertionsHold_packBeUint16 (n : Nat) : AssertionsHold (packBeUint16 n) := by
  rw [packBeUint16]
  split <;> simp [AssertionsHold]

theorem assertionsHold_flushUtxoDb (db : DB) (fd : FlushData) :
    AssertionsHold (db.flushUtxoDb fd) := by
  refine .bind (.mapM fun u _ ↦ .bind (.bind ?_ fun _ _ ↦ .ok _) fun _ _ ↦ .ok _) fun _ _ ↦ .ok _
  rw [packBeUint32]
  split <;> simp [AssertionsHold]

theorem assertionsHold_backupRows (txCount : Nat) (rows : List (Bytes × Bytes)) :
    AssertionsHold (History.backupRows txCount rows) := by
  induction rows with
  | nil => exact .ok _
  | cons row rows ih =>
    refine .bind ?_ fun a _ ↦ ?_
    · rw [arrayQ]
      split <;> simp [AssertionsHold]
    · dsimp only
      split
      · exact .ok _
      · exact .bind ih fun _ _ ↦ .ok _

theorem assertionsHold_backupOps (db : Table) (txCount : Nat) (hashXs : List Bytes) :
    AssertionsHold (History.backupOps db txCount hashXs) := by
  induction hashXs with
  | nil => exact .ok _
  | cons hashX rest ih =>
    exact .bind (assertionsHold_backupRows _ _) fun _ _ ↦ .bind ih fun _ _ ↦ .ok _

theorem assertionsHold_truncate (mc : MerkleCache) (length : Int) :
    AssertionsHold (mc.truncate length) := by
  rw [MerkleCache.truncate]
  split
  · simp [AssertionsHold, throw, throwThe, MonadExceptOf.throw, bind, Except.bind]
  · change AssertionsHold (if length ≥ mc.length then .ok mc else _)
    split <;> exact .ok _

/-- No assertion of a flush fails. -/
theorem Kept.flush_asserts (h : Kept env s stored chain) (flushUtxos : Bool) :
    AssertionsHold (s.flush env flushUtxos) := by
  refine .bind ?_ fun _ _ ↦ .ok _
  rw [DB.flushDbs]
  split
  · next he =>
    have hf : s.db.assertFlushed s.flushData = .ok () := h.settled he
    rw [hf]
    exact .ok _
  · obtain ⟨rest, rfl⟩ := h.stored_prefix
    refine .bind ?_ fun _ _ ↦ .bind (.bind (.bind ?_ fun _ _ ↦ .ok _) fun _ _ ↦ .ok _) fun _ _ ↦ ?_
    · rcases h.flushFs with ⟨-, hfs⟩ | hfs
      · rw [hfs]
        exact .ok _
      · rw [hfs]
        simp [AssertionsHold]
    · exact assertionsHold_packBeUint16 _
    · cases flushUtxos with
      | false => exact .ok _
      | true => exact .bind (assertionsHold_flushUtxoDb _ _) fun _ _ ↦ .ok _

/-- No assertion fails in the flush that follows blocks that have been backed up. -/
theorem Kept.flushBackup_asserts {blocks : List Block} (h : Kept env s stored (chain ++ blocks))
    (hne : blocks ≠ []) (hs : s.backupBlocks env (blocks.map (·.raw)).reverse = .ok s') :
    AssertionsHold (s'.flushBackup env) := by
  obtain ⟨_, hflushed, hs⟩ := bind_eq_ok.mp hs
  obtain ⟨_, hge, hs⟩ := bind_eq_ok.mp hs
  have hge := assertThat_eq_ok.mp hge
  rw [List.length_reverse, List.length_map] at hge
  have hlen := h.height_eq
  rw [List.length_append] at hlen
  obtain ⟨-, ⟨hfs, hdb⟩, -, hhd, hhs, -, -, -, hhist⟩ := fullyFlushed_iff.mp hflushed
  have hpos := List.length_pos_of_ne_nil hne
  have hchain : chain ≠ [] := by
    rintro rfl
    rw [List.length_nil] at hlen
    omega
  obtain ⟨hdb1, -, hh1, -, hhd1, hhs1⟩ := backupBlocks_counts h.linked hchain h.height_eq
    h.tip_eq h.counts_eq h.txCount_eq hs
  have hlt : s'.height < s'.db.dbHeight := by
    rw [hdb1]
    change s'.height < s.db.dbHeight
    omega
  have hunflushed : s'.db.history.unflushed.toList = [] := by
    rw [hdb1]
    exact hhist
  refine .bind ?_ fun _ _ ↦ .ok _
  rw [DB.flushBackup, History.assertFlushed,
    assertThat_of (show s'.flushData.headers = [] from hhd1.trans hhd),
    assertThat_of (show s'.flushData.blockTxHashes = [] from hhs1.trans hhs),
    assertThat_of (show s'.flushData.height < s'.db.dbHeight from hlt), assertThat_of hunflushed]
  refine .bind (.ok _) fun _ _ ↦ .bind (.ok _) fun _ _ ↦ .bind (.ok _) fun _ _ ↦
    .bind (.ok _) fun _ _ ↦ .bind (.bind ?_ fun _ _ ↦ .ok _) fun _ _ ↦
    .bind (.bind ?_ fun _ _ ↦ .ok _) fun _ _ ↦ .bind ?_ fun _ _ ↦ .ok _
  · exact assertionsHold_truncate _ _
  · exact assertionsHold_backupOps _ _ _
  · exact assertionsHold_flushUtxoDb _ _

end Steps

/-! ### Runs -/

/-- A processor that indexes a chain keeps its books. -/
theorem Indexed.kept {env : Env} {s : BlockProcessor} {chain : List Block}
    (h : Indexed env s chain chain chain) : Kept env s chain chain where
  linked := ⟨h.valid.parsed, h.valid.linked, h.valid.header_length⟩
  stored_prefix := List.prefix_rfl
  fit := h.valid.headersFit
  files := h.db.files
  height_eq := h.height_eq
  tip_eq := h.tip_eq
  counts_eq := h.counts_eq
  txCount_eq := h.txCount_eq
  headers_eq := h.headers_eq
  txHashes_eq := h.txHashes_eq
  fsHeight := h.db.fsHeight
  fsTxCount := h.db.fsTxCount
  dbHeight_ge := by
    have := h.db.dbHeight
    omega
  dbHeight_le := by
    have h1 := h.db.dbHeight
    have h2 := h.db.fsHeight
    omega
  settled _ := h.assertFlushed

theorem LinkedRun.kept {env : Env} {s : BlockProcessor} {chain : List Block}
    (r : LinkedRun env s chain) : ∃ stored, Kept env s stored chain := by
  induction r with
  | opened hd h =>
    obtain ⟨s', hs', hi, -⟩ := hd.open
    cases hs'.symm.trans h
    exact ⟨_, hi.kept⟩
  | advanced cachedHeight _ hb h ih =>
    obtain ⟨stored, hk⟩ := ih
    exact ⟨stored, hk.advanced hb h⟩
  | flushed flushUtxos _ h ih =>
    obtain ⟨stored, hk⟩ := ih
    exact (hk.flushed h).1
  | backedUp _ h ih =>
    obtain ⟨stored, hk⟩ := ih
    exact ⟨_, (hk.backedUp h).1⟩
  | notified _ ih =>
    obtain ⟨stored, hk⟩ := ih
    exact ⟨stored, { hk with }⟩

/-- A stored header, found as in `read_headers`. -/
def storedHeader (env : Env) (db : DB) (height : Nat) : Except PyError Bytes := do
  let offset ← db.headerOffset env height
  let size := (← db.headerOffset env (height + 1 : Nat)) - offset
  return FlatFile.read db.headersFile offset size

theorem Kept.storedHeader {env : Env} {s : BlockProcessor} {stored chain : List Block}
    (h : Kept env s stored chain) {i : Nat} {b : Block} (hi : stored[i]? = some b) :
    storedHeader env s.db i = .ok b.header := by
  have hlt := (List.getElem?_eq_some_iff.mp hi).1
  have htake : stored.take (i + 1) = stored.take i ++ [b] := by
    rw [List.take_add_one, hi, Option.toList_some]
  have hsplit : headers (stored.take (i + 1)) = headers (stored.take i) ++ b.header := by
    rw [htake, headers_append]
    simp [headers]
  have hpre : headers (stored.take (i + 1)) <+: s.db.headersFile := by
    have hf := h.files
    rw [← List.take_append_drop (i + 1) stored] at hf
    exact hf.left.headers
  rw [Index.storedHeader, headerOffset_of_le h.files h.fit hlt.le,
    headerOffset_of_le h.files h.fit hlt]
  simp only [bind, Except.bind, pure, Except.pure, hsplit, List.length_append,
    Nat.add_sub_cancel_left]
  rw [FlatFile.read_contents hpre (by rw [hsplit, List.length_append]), hsplit, List.drop_left,
    List.take_length]

/-- The books of a processor and its DB: the stored and pending headers with the tip, the counts,
the heights and the pending hashes. -/
structure Bookkept (env : Env) (s : BlockProcessor) : Prop where
  headers : ∃ stored : List Bytes, s.db.fsHeight + 1 = stored.length ∧
    (∀ (i : Nat) header, stored[i]? = some header → storedHeader env s.db i = .ok header) ∧
    ((stored ++ s.headers).IsChain fun a b ↦
      env.coin.headerPrevhash b = env.coin.headerHash a) ∧
    s.tip = ((stored ++ s.headers).getLast?.map env.coin.headerHash).getD (List.replicate 32 0)
  counts_length : (s.db.counts.length : Int) = s.height + 1
  counts_sorted : s.db.counts.Pairwise (· ≤ ·)
  counts_last : s.db.counts.getLast?.getD 0 = s.txCount
  dbHeight_le : s.db.dbHeight ≤ s.db.fsHeight
  heights : s.db.fsHeight + s.headers.length = s.height
  hashes : 32 * s.db.fsTxCount + s.txHashes.flatten.length = 32 * s.txCount

private theorem counts_pairwise (chain : List Block) : (counts chain).Pairwise (· ≤ ·) := by
  induction chain using List.reverseRecOn with
  | nil => exact List.Pairwise.nil
  | append_singleton a b ih =>
    rw [counts_concat, List.pairwise_append]
    refine ⟨ih, List.pairwise_singleton _ _, fun n hn m hm ↦ ?_⟩
    rw [List.mem_singleton.mp hm]
    exact (le_of_mem_counts hn).trans (txCount_mono (List.prefix_append a [b]))

theorem Kept.bookkept {env : Env} {s : BlockProcessor} {stored chain : List Block}
    (h : Kept env s stored chain) : Bookkept env s := by
  have hcounts : s.db.counts = counts chain := by rw [DB.counts, h.counts_eq, Option.getD_some]
  obtain ⟨rest, rfl⟩ := h.stored_prefix
  have hhd := h.headers_eq
  have hhs := h.txHashes_eq
  rw [List.drop_left] at hhd hhs
  have hall : stored.map (·.header) ++ s.headers = (stored ++ rest).map (·.header) := by
    rw [hhd, List.map_append]
  have hheight := h.height_eq
  have hfs := h.fsHeight
  rw [List.length_append] at hheight
  refine
    { headers := ⟨stored.map (·.header), ?_, fun i header hi ↦ ?_, ?_, ?_⟩
      counts_length := by rw [hcounts, length_counts, h.height_eq]
      counts_sorted := hcounts ▸ counts_pairwise _
      counts_last := by rw [hcounts, getLast?_counts, h.txCount_eq]
      dbHeight_le := h.dbHeight_le
      heights := ?_
      hashes := ?_ }
  · rw [List.length_map, hfs]
  · rw [List.getElem?_map] at hi
    obtain ⟨b, hb, rfl⟩ := Option.map_eq_some_iff.mp hi
    exact h.storedHeader hb
  · rw [hall, List.isChain_map]
    exact h.linked.linked
  · rw [hall, List.getLast?_map, h.tip_eq, tip]
    cases (stored ++ rest).getLast? <;> rfl
  · rw [hhd, List.length_map]
    omega
  · have hflat : s.txHashes.flatten = Chain.hashes rest := by
      rw [hhs, ← List.flatMap_def, Chain.hashes, txs, List.flatMap_assoc]
    rw [hflat, length_hashes, h.fsTxCount, h.txCount_eq, txCount_append]
    omega

/-- In the chunks of a reorg, the assertions of `backup_blocks` and of the flush that follows
hold. -/
def ChunksAssert (env : Env) : BlockProcessor → List (List Block) → Prop
  | _, [] => True
  | s, blocks :: rest =>
    s.db.assertFlushed s.flushData = .ok () ∧ s.height ≥ (blocks.map (·.raw)).reverse.length ∧
    ∀ s1, s.backupBlocks env (blocks.map (·.raw)).reverse = .ok s1 →
      AssertionsHold (s1.flushBackup env) ∧
      ∀ s2, s1.flushBackup env = .ok s2 → ChunksAssert env s2 rest

theorem Kept.chunksAssert {env : Env} {s : BlockProcessor} {stored base : List Block}
    {chunks : List (List Block)} (h : Kept env s stored (base ++ chunks.reverse.flatten))
    (hs : s.height = s.db.dbHeight) (hc : ∀ blocks ∈ chunks, blocks ≠ [])
    (hd : (chunks.flatten.length : Int) ≤ s.height) : ChunksAssert env s chunks := by
  induction chunks generalizing s stored with
  | nil => trivial
  | cons blocks rest ih =>
    rw [List.flatten_cons, List.length_append] at hd
    have hchain : base ++ (blocks :: rest).reverse.flatten =
        base ++ rest.reverse.flatten ++ blocks := by simp
    rw [hchain] at h
    refine ⟨h.settled hs, ?_, fun s1 h1 ↦ ⟨h.flushBackup_asserts (hc blocks List.mem_cons_self) h1,
      fun s2 h2 ↦ ?_⟩⟩
    · rw [List.length_reverse, List.length_map]
      omega
    · have hchunk : s.backupChunk env (blocks.map (·.raw)).reverse = .ok s2 :=
        bind_eq_ok.mpr ⟨s1, h1, h2⟩
      obtain ⟨hk, hs2⟩ := h.backedUp hchunk
      have hl := h.height_eq
      have hl2 := hk.height_eq
      rw [List.length_append] at hl
      exact ih hk hs2 (fun c hm ↦ hc c (List.mem_cons_of_mem _ hm)) (by omega)

/-- The books are kept in every state of a run, and no assertion of a flush or of a reorg of depth
at most the height fails. -/
theorem LinkedRun.assertions_hold {env : Env} {s : BlockProcessor} {chain : List Block}
    (r : LinkedRun env s chain) :
    Bookkept env s ∧ (∀ flushUtxos, AssertionsHold (s.flush env flushUtxos)) ∧
    ∀ base chunks, chain = base ++ chunks.reverse.flatten → (∀ blocks ∈ chunks, blocks ≠ []) →
      (chunks.flatten.length : Int) ≤ s.height →
      ∀ s1, s.flush env true = .ok s1 → ChunksAssert env s1 chunks := by
  obtain ⟨stored, h⟩ := r.kept
  refine ⟨h.bookkept, h.flush_asserts, fun base chunks hchain hne hd s1 h1 ↦ ?_⟩
  obtain ⟨⟨stored', h'⟩, hs⟩ := h.flushed h1
  have hl := h.height_eq
  have hl' := h'.height_eq
  subst hchain
  exact h'.chunksAssert (hs rfl) hne (by omega)

/-- A block with the right parent links onto the tip. -/
theorem Kept.linksOnto {env : Env} {s : BlockProcessor} {stored chain : List Block} {b : Block}
    (h : Kept env s stored chain) (hb : env.coin.block b.raw chain.length = .ok b)
    (hp : env.coin.headerPrevhash b.header = tip env.coin chain)
    (hl : env.coin.staticBlockHeaders = true → b.header.length = basicHeaderSize) :
    LinksOnto env s [b] where
  parsed n block hn := by
    obtain ⟨rfl, rfl⟩ : n = 0 ∧ b = block := by
      cases n with
      | zero => exact ⟨rfl, Option.some.inj hn⟩
      | succ n => cases hn
    have hh := h.height_eq
    rwa [hh, Int.natCast_zero, Int.add_zero]
  hprevs := by
    rw [h.tip_eq, ← hp]
    rfl
  header_length hs block hm := by
    rw [List.mem_singleton.mp hm]
    exact hl hs

/-- The sample chain is advanced in a run. -/
theorem sampleAdvance_linkedRun {s : BlockProcessor} (h : sampleAdvance = .ok s) :
    LinkedRun sampleEnv s [sampleGenesis, sampleA] := by
  obtain ⟨s0, h0, h⟩ := bind_eq_ok.mp h
  obtain ⟨s1, h1, h⟩ := bind_eq_ok.mp h
  obtain ⟨s2, h2, h3⟩ := bind_eq_ok.mp h
  have r0 : LinkedRun sampleEnv s0 [] := .opened (Recoverable.fresh sampleEnv) h0
  obtain ⟨_, k0⟩ := r0.kept
  have r1 := LinkedRun.advanced 1 r0 (k0.linksOnto (b := sampleGenesis) rfl (by decide) nofun) h1
  obtain ⟨_, k1⟩ := r1.kept
  have r2 := LinkedRun.advanced 1 r1 (k1.linksOnto (b := sampleA) rfl (by decide) nofun) h2
  exact .flushed true r2 h3

/-- The books of two blocks, of which the upper one may be backed up. -/
theorem sampleAdvance_bookkept : ∃ s, sampleAdvance = .ok s ∧ Bookkept sampleEnv s ∧
    (∀ flushUtxos, AssertionsHold (s.flush sampleEnv flushUtxos)) ∧
    ∀ s1, s.flush sampleEnv true = .ok s1 → ChunksAssert sampleEnv s1 [[sampleA]] := by
  obtain ⟨s, hs, hheight⟩ : ∃ s, sampleAdvance = .ok s ∧ 1 ≤ s.height := by decide +kernel
  obtain ⟨hb, hf, hr⟩ := (sampleAdvance_linkedRun hs).assertions_hold
  exact ⟨s, hs, hb, hf, hr [sampleGenesis] [[sampleA]] rfl (by simp) hheight⟩

end ElectrumX.Index
