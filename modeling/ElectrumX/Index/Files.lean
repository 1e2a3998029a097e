import ElectrumX.Index.Blocks

/-!
# The flat files and the running totals

The headers, their offsets, the transaction counts and the transaction hashes lie in flat
files, in chain order. A flush appends to each of them what the blocks since the last one
add, whatever older blocks had left behind there. From the counts and the hashes the DB
finds the txid of a transaction number.
-/

namespace ElectrumX.Index
open ElectrumX.Base ElectrumX.Lib ElectrumX.Chain ElectrumX.Server

/-- The flat files start with the data of a chain. -/
structure FilesHold (env : Env) (disk : Disk) (stored : List Block) : Prop where
  headers : headers stored <+: disk.headers
  offsets : env.coin.staticBlockHeaders = false →
    (offsets stored).flatMap (packLE 8) <+: disk.headersOffsets
  txCounts : (counts stored).flatMap (packLE 8) <+: disk.txCounts
  hashes : hashes stored <+: disk.hashes

/-! ### The data of a longer chain -/

theorem offsets_append (a b : List Block) :
    offsets (a ++ b) = offsets a ++ DB.nextOffsets (headers a).length (b.map (·.header)) := by
  induction b generalizing a with
  | nil => simp [DB.nextOffsets]
  | cons x b ih =>
    have hl : (headers (a ++ [x])).length = (headers a).length + x.header.length := by
      simp [headers]
    rw [List.append_cons, ih, offsets_concat, hl, List.map_cons, DB.nextOffsets,
      List.append_assoc, List.singleton_append]

private theorem prefix_flatMap {α β : Type} {xs ys : List α} (h : xs <+: ys) (f : α → List β) :
    xs.flatMap f <+: ys.flatMap f := by
  obtain ⟨zs, rfl⟩ := h
  rw [List.flatMap_append]
  exact List.prefix_append _ _

/-- The data of a shorter chain lie in the files too. -/
theorem FilesHold.left {env : Env} {disk : Disk} {a b : List Block}
    (h : FilesHold env disk (a ++ b)) : FilesHold env disk a where
  headers := (List.prefix_append _ _).trans (headers_append a b ▸ h.headers)
  offsets hs := by
    refine List.IsPrefix.trans (prefix_flatMap ?_ _) (h.offsets hs)
    rw [offsets_append]
    exact List.prefix_append _ _
  txCounts := (prefix_flatMap (counts_prefix_append a b) _).trans h.txCounts
  hashes := (List.prefix_append _ _).trans (hashes_append a b ▸ h.hashes)

theorem length_hashes (chain : List Block) : (hashes chain).length = 32 * txCount chain :=
  length_flatMap_of_width _ _ fun tx _ ↦ tx.txid.property

theorem length_packed_items (ns : List Nat) : (ns.flatMap (packLE 8)).length = 8 * ns.length :=
  length_flatMap_of_width _ _ fun n _ ↦ length_packLE 8 n

@[simp] theorem length_offsets (chain : List Block) :
    (offsets chain).length = chain.length + 1 := by
  simp [offsets]

theorem getElem?_offsets {chain : List Block} {i : Nat} (h : i ≤ chain.length) :
    (offsets chain)[i]? = some (headers (chain.take i)).length := by
  rw [offsets, List.getElem?_map, List.getElem?_range (by omega)]
  rfl

theorem getElem?_counts {chain : List Block} {i : Nat} (h : i < chain.length) :
    (counts chain)[i]? = some (txCount (chain.take (i + 1))) := by
  rw [counts, List.getElem?_map, List.getElem?_range h]
  rfl

theorem getLast?_counts (chain : List Block) :
    (counts chain).getLast?.getD 0 = txCount chain := by
  induction chain using List.reverseRecOn with
  | nil => rfl
  | append_singleton a b => rw [counts_concat, List.getLast?_concat, Option.getD_some]

theorem le_of_mem_counts {chain : List Block} {n : Nat} (h : n ∈ counts chain) :
    n ≤ txCount chain := by
  obtain ⟨i, -, rfl⟩ := List.mem_map.mp h
  exact txCount_mono (List.take_prefix _ _)

/-- Where the headers after a chain begin, for either kind of header. -/
theorem headerOffset_eq {env : Env} {db : DB} {stored : List Block}
    (hf : FilesHold env db.disk stored) (hv : HeadersFit env.coin stored) :
    db.headerOffset env stored.length = .ok (headers stored).length := by
  unfold DB.headerOffset
  split
  · next hs =>
    rw [headers, length_flatMap_of_width _ _ (hv.static hs), Coin.staticHeaderOffset]
    congr 1
    rw [Nat.mul_comm]
    omega
  · next hs =>
    have hs' : env.coin.staticBlockHeaders = false := by simpa using hs
    have hi : (offsets stored)[stored.length]? = some (headers stored).length := by
      rw [getElem?_offsets (Nat.le_refl _), List.take_length]
    have hr := FlatFile.read_row (hf.offsets hs') (fun n _ ↦ length_packLE 8 n) hi
    have hn : ((stored.length : Int) * 8).toNat = stored.length * 8 := by omega
    change FlatFile.read db.headersOffsetsFile (stored.length * 8) 8 = _ at hr
    rw [DB.dynamicHeaderOffset, hn, hr, unpackLeUint64_of_length (length_packLE 8 _),
      unpackLE_packLE_of_lt (hv.dynamic hs')]

/-- The offset of a header of the stored chain, or behind its last one. -/
theorem headerOffset_of_le {env : Env} {db : DB} {stored : List Block}
    (hf : FilesHold env db.disk stored) (hv : HeadersFit env.coin stored) {n : Nat}
    (hn : n ≤ stored.length) :
    db.headerOffset env n = .ok (headers (stored.take n)).length := by
  have hl : (stored.take n).length = n := by rw [List.length_take]; omega
  rw [← List.take_append_drop n stored] at hv hf
  have ho := headerOffset_eq hf.left hv.left
  rwa [hl] at ho

/-- Packing the offsets of the following headers, all in range. -/
private theorem mapM_packLeUint64 {ns : List Nat} (h : ∀ n ∈ ns, n < 2 ^ 64) :
    (ns.mapM fun n : Nat ↦ packLeUint64 n) = .ok (ns.map (packLE 8)) := by
  induction ns with
  | nil => rfl
  | cons n ns ih =>
    rw [List.mapM_cons, packLeUint64_of_lt (h n List.mem_cons_self),
      ih fun m hm ↦ h m (List.mem_cons_of_mem _ hm)]
    rfl

/-- An offset that is out of range is not packed. -/
private theorem mapM_nextOffsets_error {offset : Nat} {hs : List Bytes} (ho : offset < 2 ^ 64)
    (h : ¬ offset + hs.flatten.length < 2 ^ 64) :
    ((DB.nextOffsets offset hs).mapM fun n : Nat ↦ packLeUint64 n) = .error .structError := by
  induction hs generalizing offset with
  | nil => exact absurd (by simpa using ho) h
  | cons x xs ih =>
    rw [List.flatten_cons, List.length_append, ← Nat.add_assoc] at h
    rw [DB.nextOffsets, List.mapM_cons]
    by_cases hx : offset + x.length < 2 ^ 64
    · rw [packLeUint64_of_lt hx, ih hx h]
      rfl
    · rw [packLeUint64, if_neg (by omega)]
      rfl

private theorem nextOffsets_le (offset : Nat) (hs : List Bytes) :
    ∀ n ∈ DB.nextOffsets offset hs, n ≤ offset + hs.flatten.length := by
  induction hs generalizing offset with
  | nil => simp [DB.nextOffsets]
  | cons h hs ih =>
    intro n hn
    rw [List.flatten_cons, List.length_append]
    rcases List.mem_cons.mp hn with rfl | hn
    · omega
    · have := ih _ n hn
      omega

/-! ### Flushing -/

/-- The file writes of a flush of the blocks `rest` behind `stored`. -/
def fsWrites (env : Env) (stored rest : List Block) : List DiskWrite :=
  [.headers (headers stored).length (headers rest)] ++
  (if env.coin.staticBlockHeaders then []
    else [.headersOffsets ((stored.length + 1) * 8)
      ((DB.nextOffsets (headers stored).length (rest.map (·.header))).flatMap (packLE 8))]) ++
  [.txCounts (stored.length * 8)
    (((counts (stored ++ rest)).drop stored.length).flatMap (packLE 8)),
   .hashes (txCount stored * 32) (hashes rest)]

/-- The DB once the file writes are done. -/
def afterFs (env : Env) (db : DB) (stored rest : List Block) : DB :=
  { db with
    headersFile := FlatFile.write db.headersFile (headers stored).length (headers rest)
    headersOffsetsFile := if env.coin.staticBlockHeaders then db.headersOffsetsFile
      else FlatFile.write db.headersOffsetsFile ((stored.length + 1) * 8)
        ((DB.nextOffsets (headers stored).length (rest.map (·.header))).flatMap (packLE 8))
    txCountsFile := FlatFile.write db.txCountsFile (stored.length * 8)
      (((counts (stored ++ rest)).drop stored.length).flatMap (packLE 8))
    hashesFile := FlatFile.write db.hashesFile (txCount stored * 32) (hashes rest)
    journal := db.journal ++ fsWrites env stored rest
    fsHeight := (stored ++ rest).length - 1
    fsTxCount := txCount (stored ++ rest) }

/-- The file writes extend the data that the files hold. -/
theorem FilesHold.afterFs {env : Env} {db : DB} {stored rest : List Block}
    (h : FilesHold env db.disk stored) :
    FilesHold env (afterFs env db stored rest).disk (stored ++ rest) where
  headers := by
    rw [headers_append]
    exact FlatFile.prefix_write_append h.headers _
  offsets hs := by
    have hl : (stored.length + 1) * 8 = ((Chain.offsets stored).flatMap (packLE 8)).length := by
      rw [length_packed_items, length_offsets, Nat.mul_comm]
    rw [offsets_append, List.flatMap_append]
    change _ <+: if env.coin.staticBlockHeaders then _ else _
    rw [hs, if_neg Bool.false_ne_true, hl]
    exact FlatFile.prefix_write_append (h.offsets hs) _
  txCounts := by
    have hl : stored.length * 8 = ((counts stored).flatMap (packLE 8)).length := by
      rw [length_packed_items, length_counts, Nat.mul_comm]
    obtain ⟨more, hm⟩ := counts_prefix_append stored rest
    change _ <+: FlatFile.write _ _ _
    rw [← hm, List.drop_left' (length_counts stored), List.flatMap_append, hl]
    exact FlatFile.prefix_write_append h.txCounts _
  hashes := by
    have hl : txCount stored * 32 = (Chain.hashes stored).length := by
      rw [length_hashes, Nat.mul_comm]
    change _ <+: FlatFile.write _ _ _
    rw [hashes_append, hl]
    exact FlatFile.prefix_write_append h.hashes _

section FlushFs

variable {env : Env} {db : DB} {fd : FlushData} {stored rest : List Block}

/-- The checks of `flush_fs` pass, and what is left are its writes. -/
private theorem flushFs_checks (hv : HeadersFit env.coin stored)
    (hf : FilesHold env db.disk stored) (hfs : db.fsHeight + 1 = stored.length)
    (hc : db.txCounts = some (counts (stored ++ rest)))
    (hh : fd.height + 1 = (stored ++ rest).length) (ht : fd.txCount = txCount (stored ++ rest))
    (hhd : fd.headers = rest.map (·.header))
    (hhs : fd.blockTxHashes = rest.map fun b ↦ b.transactions.flatMap (·.txid.val)) :
    db.flushFs env fd = (do
      let db ← (db.writeHeaders (headers stored).length (headers rest)).fsUpdateHeaderOffsets env
        (headers stored).length stored.length (rest.map (·.header))
      let db := db.writeTxCounts (stored.length * 8)
        ((db.counts.drop stored.length).flatMap (packLE 8))
      let db := db.writeHashes (txCount stored * 32) (hashes rest)
      return ({ fd with headers := [], blockTxHashes := [] },
        { db with fsHeight := fd.height, fsTxCount := fd.txCount })) := by
  have hcounts : db.counts = counts (stored ++ rest) := by rw [DB.counts, hc, Option.getD_some]
  have hprior : db.priorTxCount = .ok (txCount stored) := by
    unfold DB.priorTxCount
    split
    · next h0 =>
      have hi : db.fsHeight.toNat + 1 = stored.length := by omega
      have hlt : db.fsHeight.toNat < (stored ++ rest).length := by
        rw [List.length_append]
        omega
      rw [hcounts, getItem_of_some (getElem?_counts hlt), hi, List.take_left]
    · next h0 =>
      obtain rfl : stored = [] := List.eq_nil_of_length_eq_zero (by omega)
      rfl
  have hflat : fd.blockTxHashes.flatten = hashes rest := by
    rw [hhs, ← List.flatMap_def, hashes, txs, List.flatMap_assoc]
  have hlen : (hashes rest).length = 32 * txCount rest := length_hashes rest
  have hsum : txCount (stored ++ rest) = txCount stored + txCount rest := txCount_append _ _
  have hoff : db.headerOffset env (db.fsHeight + 1) = .ok (headers stored).length := by
    rw [hfs]
    exact headerOffset_eq hf hv
  have hheaders : fd.headers.flatten = headers rest := by rw [hhd, ← List.flatMap_def, headers]
  have hn : ((stored.length : Int) * 8).toNat = stored.length * 8 := by omega
  unfold DB.flushFs
  simp only [hprior, bind, Except.bind, hflat, hoff, hheaders]
  rw [assertThat_of (by rw [hhs, hhd, List.length_map, List.length_map]),
    assertThat_of (by
      rw [hhd, List.length_map]
      rw [List.length_append] at hh
      omega),
    assertThat_of (by rw [hcounts, getLast?_counts, ht]),
    assertThat_of (by rw [hcounts, length_counts]; omega),
    assertThat_of (by omega), assertThat_of (by omega)]
  simp only [hfs, hn, Int.toNat_natCast, hhd]

/-- `flush_fs` writes what the blocks behind those stored add. -/
theorem flushFs_eq (hv : HeadersFit env.coin (stored ++ rest))
    (hf : FilesHold env db.disk stored) (hfs : db.fsHeight + 1 = stored.length)
    (hc : db.txCounts = some (counts (stored ++ rest)))
    (hh : fd.height + 1 = (stored ++ rest).length) (ht : fd.txCount = txCount (stored ++ rest))
    (hhd : fd.headers = rest.map (·.header))
    (hhs : fd.blockTxHashes = rest.map fun b ↦ b.transactions.flatMap (·.txid.val)) :
    db.flushFs env fd =
      .ok ({ fd with headers := [], blockTxHashes := [] }, afterFs env db stored rest) := by
  have hcounts : db.counts = counts (stored ++ rest) := by rw [DB.counts, hc, Option.getD_some]
  have hheight : fd.height = (stored ++ rest).length - 1 := by omega
  have hn3 : (((stored.length : Int) + 1) * 8).toNat = (stored.length + 1) * 8 := by omega
  have hc1 : (db.writeHeaders (headers stored).length (headers rest)).counts =
      counts (stored ++ rest) := hcounts
  have hc2 (o : Nat) (b : Bytes) : ((db.writeHeaders (headers stored).length
      (headers rest)).writeHeadersOffsets o b).counts = counts (stored ++ rest) := hcounts
  rw [flushFs_checks hv.left hf hfs hc hh ht hhd hhs]
  unfold DB.fsUpdateHeaderOffsets afterFs fsWrites
  by_cases hs : env.coin.staticBlockHeaders
  · simp only [hs, if_true, pure, Except.pure, bind, Except.bind, hc1, hheight, ht]
    simp [DB.writeHeaders, DB.writeTxCounts, DB.writeHashes]
  · have hnext : ∀ n ∈ DB.nextOffsets (headers stored).length (rest.map (·.header)),
        n < 2 ^ 64 := by
      intro n hn
      have h1 := nextOffsets_le _ _ n hn
      have h2 := hv.dynamic (by simpa using hs)
      rw [headers_append, List.length_append] at h2
      rw [← List.flatMap_def, ← headers] at h1
      omega
    simp only [hs, Bool.false_eq_true, if_false, pure, Except.pure, bind, Except.bind,
      mapM_packLeUint64 hnext, hn3, hc2, hheight, ht, ← List.flatMap_def]
    simp [DB.writeHeaders, DB.writeHeadersOffsets, DB.writeTxCounts, DB.writeHashes]

/-- Offsets that do not fit make `flush_fs` raise `struct.error`. -/
theorem flushFs_eq_error (hv : HeadersFit env.coin stored) (hs : env.coin.staticBlockHeaders = false)
    (hlt : ¬ (headers (stored ++ rest)).length < 2 ^ 64)
    (hf : FilesHold env db.disk stored) (hfs : db.fsHeight + 1 = stored.length)
    (hc : db.txCounts = some (counts (stored ++ rest)))
    (hh : fd.height + 1 = (stored ++ rest).length) (ht : fd.txCount = txCount (stored ++ rest))
    (hhd : fd.headers = rest.map (·.header))
    (hhs : fd.blockTxHashes = rest.map fun b ↦ b.transactions.flatMap (·.txid.val)) :
    db.flushFs env fd = .error .structError := by
  have hheaders : (rest.map (·.header)).flatten = headers rest := by
    rw [← List.flatMap_def, headers]
  rw [headers_append, List.length_append, ← hheaders] at hlt
  rw [flushFs_checks hv hf hfs hc hh ht hhd hhs, DB.fsUpdateHeaderOffsets, hs,
    if_neg Bool.false_ne_true, mapM_nextOffsets_error (hv.dynamic hs) hlt]
  rfl

end FlushFs

/-! ### Transaction numbers and txids -/

/-- The outputs of a chain are numbered by transaction. -/
theorem numbered_of_anyOrder {coin : Coin} {chain : List Block} (hv : AnyOrderChain coin chain) :
    Numbered (Ledger.created (ledger coin chain)) where
  keys := hv.keys
  txid := by
    rintro ⟨op, u⟩ hp ⟨op', u'⟩ hq hn
    obtain ⟨tx, -, htx, ht, -⟩ := mem_created coin hp
    obtain ⟨tx', -, htx', ht', -⟩ := mem_created coin hq
    rw [hn, htx'] at htx
    cases htx
    rw [ht, ht']
  idx_lt := by
    rintro ⟨op, u⟩ hp
    obtain ⟨tx, txout, htx, -, ho, -⟩ := mem_created coin hp
    have hl := hv.outputs tx (List.mem_of_getElem? htx)
    exact (List.getElem?_eq_some_iff.mp ho).1.trans_le hl
  txNum_lt := by
    rintro ⟨op, u⟩ hp
    obtain ⟨tx, txout, htx, -⟩ := mem_created coin hp
    have hl := (List.getElem?_eq_some_iff.mp htx).1
    have ht := hv.txCount
    rw [Chain.txCount] at ht
    exact hl.trans ht
  value_lt := by
    rintro ⟨op, u⟩ hp
    obtain ⟨tx, txout, htx, -, ho, hu, -⟩ := mem_created coin hp
    have := hv.values tx (List.mem_of_getElem? htx) txout (List.mem_of_getElem? ho)
    change u.value < 2 ^ 63
    omega

/-- The outputs of a valid chain are numbered by transaction. -/
theorem numbered {coin : Coin} {chain : List Block} (hv : ValidChain coin chain) :
    Numbered (Ledger.created (ledger coin chain)) := numbered_of_anyOrder hv.anyOrder

/-- An element above the bound stops the bisection. -/
theorem bisectRight_le {a : List Nat} {i x y : Nat} (h : a[i]? = some y) (hx : x < y) :
    bisectRight a x ≤ i := by
  rw [bisectRight]
  induction a generalizing i with
  | nil => simp
  | cons z zs ih =>
    cases i with
    | zero =>
      cases h
      simp [hx]
    | succ i =>
      rw [List.takeWhile_cons]
      split
      · exact Nat.succ_le_succ (ih h)
      · simp

/-- The DB finds the txid of every output that its state record covers, also while the counts
are being backed up. -/
theorem hashesFound {coin : Coin} {db : DB} {recorded chain : List Block}
    (hf : hashes recorded <+: db.hashesFile) (hd : db.dbHeight + 1 = recorded.length)
    (hc : db.txCounts = some (counts chain))
    (hcmp : recorded <+: chain ∨ chain.length < recorded.length)
    (hm : ∀ op u, unspent coin recorded op = some u →
      (op, u) ∈ Ledger.created (ledger coin recorded)) :
    HashesFound db (unspent coin recorded) := by
  intro op u hu
  obtain ⟨tx, -, htx, ht, -⟩ := mem_created coin (hm op u hu)
  have hn : u.txNum < txCount recorded := (List.getElem?_eq_some_iff.mp htx).1
  have hb : bisectRight db.counts u.txNum ≤ db.dbHeight := by
    rw [DB.counts, hc, Option.getD_some]
    rcases hcmp with ⟨more, rfl⟩ | hlt
    · cases hr : recorded with
      | nil =>
        rw [hr] at hn
        cases hn
      | cons b bs =>
        have hl : 0 < recorded.length := by rw [hr, List.length_cons]; omega
        have hg : (counts (recorded ++ more))[recorded.length - 1]? = some (txCount recorded) := by
          rw [getElem?_counts (by rw [List.length_append]; omega), Nat.sub_add_cancel hl,
            List.take_left]
        have := bisectRight_le hg hn
        rw [← hr]
        omega
    · have h1 : bisectRight (counts chain) u.txNum ≤ (counts chain).length :=
        (List.takeWhile_prefix _).length_le
      rw [length_counts] at h1
      omega
  have hr := FlatFile.read_row (g := fun tx : Tx ↦ tx.txid.val) hf
    (fun tx _ ↦ tx.txid.property) htx
  rw [DB.fsTxHash, if_neg (by omega), hr, ht]

end ElectrumX.Index
