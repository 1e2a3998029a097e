import ElectrumX.Index.Invariant
import Mathlib.Data.List.TakeWhile

/-!
# What the index answers

The headers, the transaction hashes, the rows of the UTXO tables and the histories that a
fully flushed index answers with are those of its chain. Two indexes of one chain therefore
answer alike, however they came about.
-/

namespace ElectrumX.Index
open ElectrumX.Base ElectrumX.Lib ElectrumX.Chain ElectrumX.Server

section Reads

variable {env : Env} {db : DB} {recorded : List Block}

/-- `read_headers` returns the recorded headers in the range asked for. -/
theorem readHeaders_eq (hf : FilesHold env db.disk recorded) (hv : HeadersFit env.coin recorded)
    (hheight : db.dbHeight + 1 = recorded.length) (start count : Nat) :
    db.readHeaders env start count = .ok (headers ((recorded.drop start).take count),
      ((recorded.drop start).take count).length) := by
  have hlen : ((recorded.drop start).take count).length = min count (recorded.length - start) := by
    rw [List.length_take, List.length_drop]
  rw [DB.readHeaders, if_neg (by omega), hlen]
  by_cases h0 : min count (recorded.length - start) = 0
  · have hnil : (recorded.drop start).take count = [] :=
      List.eq_nil_of_length_eq_zero (hlen.trans h0)
    rw [if_pos (by omega), h0, hnil]
    rfl
  · set k := min count (recorded.length - start) with hk
    have hd : max 0 (min (count : Int) (db.dbHeight + 1 - start)) = (k : Nat) := by omega
    have hend : (start : Int) + (k : Nat) = (start + k : Nat) := by omega
    have htake : (recorded.drop start).take count = (recorded.drop start).take k := by
      rw [← List.length_drop, Nat.min_comm] at hk
      rw [hk, List.take_eq_take_iff]
      omega
    -- The headers in front of the range, those in it, and the file.
    have hsplit : headers (recorded.take (start + k)) =
        headers (recorded.take start) ++ headers ((recorded.drop start).take k) := by
      rw [List.take_add, headers_append]
    have hpre : headers (recorded.take (start + k)) <+: db.headersFile := by
      have hf' := hf
      rw [← List.take_append_drop (start + k) recorded] at hf'
      exact hf'.left.headers
    have hsub : (headers (recorded.take (start + k))).length -
        (headers (recorded.take start)).length =
          (headers ((recorded.drop start).take k)).length := by
      rw [hsplit, List.length_append, Nat.add_sub_cancel_left]
    rw [hd, if_neg (by omega), hend, headerOffset_of_le hf hv (by omega),
      headerOffset_of_le hf hv (by omega)]
    simp only [bind, Except.bind, pure, Except.pure, hsub, htake, Int.toNat_natCast]
    rw [FlatFile.read_contents hpre (by rw [hsplit, List.length_append]), hsplit, List.drop_left,
      List.take_length]

/-- `fs_tx_hash` returns the txid of a recorded transaction number, and no other. -/
theorem fsTxHash_eq (hf : FilesHold env db.disk recorded)
    (hheight : db.dbHeight + 1 = recorded.length) (hc : db.counts = counts recorded) (n : Nat) :
    db.fsTxHash n =
      (((txs recorded)[n]?).map (·.txid.val), bisectRight (counts recorded) n) := by
  rw [DB.fsTxHash, hc]
  cases hn : (txs recorded)[n]? with
  | none =>
    have hle : txCount recorded ≤ n := List.getElem?_eq_none_iff.mp hn
    have hall : bisectRight (counts recorded) n = (counts recorded).length := by
      rw [bisectRight, List.takeWhile_eq_self_iff.mpr]
      intro m hm
      have := le_of_mem_counts hm
      simpa using this.trans hle
    rw [hall, length_counts, if_pos (by omega)]
    rfl
  | some tx =>
    have hlt : n < txCount recorded := (List.getElem?_eq_some_iff.mp hn).1
    have hpos : 0 < recorded.length := by
      rw [List.length_pos_iff]
      rintro rfl
      cases hlt
    have hlast : (counts recorded)[recorded.length - 1]? = some (txCount recorded) := by
      rw [getElem?_counts (by omega), Nat.sub_add_cancel hpos, List.take_length]
    have hb := bisectRight_le hlast hlt
    have hr := FlatFile.read_row (g := fun tx : Tx ↦ tx.txid.val) hf.hashes
      (fun tx _ ↦ tx.txid.property) hn
    rw [if_neg (by omega)]
    exact Prod.ext (congrArg some hr) rfl

/-- `fs_tx_hashes_at_blockheight` returns the txids of a recorded block. -/
theorem fsTxHashesAtBlockheight_eq (hf : FilesHold env db.disk recorded)
    (hheight : db.dbHeight + 1 = recorded.length) (hc : db.counts = counts recorded) {i : Nat}
    {b : Block} (hb : recorded[i]? = some b) :
    db.fsTxHashesAtBlockheight i = .ok (b.transactions.map (·.txid.val)) := by
  have hi : i < recorded.length := (List.getElem?_eq_some_iff.mp hb).1
  have htake : recorded.take (i + 1) = recorded.take i ++ [b] := by
    rw [List.take_add_one, hb]
    rfl
  have hfirst : db.firstTxNum i = .ok (txCount (recorded.take i)) := by
    unfold DB.firstTxNum
    split
    · next h0 =>
      have hs : (i : Int).toNat - 1 + 1 = i := by omega
      rw [hc, getItem_of_some (getElem?_counts (by omega)), hs]
    · next h0 =>
      obtain rfl : i = 0 := by omega
      rfl
  have hlast : getItem db.counts (i : Int).toNat =
      .ok (txCount (recorded.take i) + b.transactions.length) := by
    rw [hc, Int.toNat_natCast, getItem_of_some (getElem?_counts hi), htake, txCount_concat]
  have hread : FlatFile.read db.hashesFile (txCount (recorded.take i) * 32)
      (b.transactions.length * 32) = b.transactions.flatMap (·.txid.val) := by
    have hl := length_hashes (recorded.take i)
    have hlb : (b.transactions.flatMap (·.txid.val)).length = 32 * b.transactions.length :=
      length_flatMap_of_width _ _ fun tx _ ↦ tx.txid.property
    have hpre : hashes (recorded.take i ++ [b]) <+: db.hashesFile := by
      have hf' := hf
      rw [← List.take_append_drop (i + 1) recorded, htake] at hf'
      exact hf'.left.hashes
    have hcat : hashes (recorded.take i ++ [b]) =
        hashes (recorded.take i) ++ b.transactions.flatMap (·.txid.val) := by
      rw [hashes_append, hashes, hashes, txs_singleton]
    rw [hcat] at hpre
    rw [FlatFile.read_contents hpre (by rw [List.length_append]; omega),
      List.drop_left' (by omega), List.take_of_length_le (by omega)]
  have hlen : (b.transactions.flatMap (·.txid.val)).length / 32 = b.transactions.length := by
    rw [length_flatMap_of_width _ _ fun tx _ ↦ tx.txid.property]
    omega
  rw [DB.fsTxHashesAtBlockheight, if_neg (by omega), assertThat_of (by omega)]
  simp only [bind, Except.bind, hfirst, hlast, Nat.add_sub_cancel_left, hread, hlen,
    assertThat_of, pure, Except.pure]
  congr 1
  apply List.ext_getElem?
  intro k
  rw [List.getElem?_map, List.getElem?_map]
  by_cases hk : k < b.transactions.length
  · rw [List.getElem?_range hk, List.getElem?_eq_getElem hk]
    exact congrArg some (FlatFile.read_row (g := fun tx : Tx ↦ tx.txid.val) List.prefix_rfl
      (fun tx _ ↦ tx.txid.property) (List.getElem?_eq_getElem hk))
  · rw [List.getElem?_eq_none (by simpa using hk), List.getElem?_eq_none (by omega)]
    rfl

/-- An output as `all_utxos` lists it. -/
def utxoOf (db : DB) (op : OutPoint) (u : Utxo) : UTXO :=
  ⟨u.txNum, op.idx, some op.txid.val, (db.fsTxHash u.txNum).2, u.value⟩

/-- The rows of a script hash in the `u` table are those of its unspent outputs. -/
theorem mem_uRows {P : List (OutPoint × Utxo)} {utxoCache : Table} {dbDeletes : List Bytes}
    {base view : OutPoint → Option Utxo}
    (h : UtxoRep P db.utxoDb utxoCache dbDeletes base view) (hashX : HashX) (row : Bytes × Bytes) :
    row ∈ db.utxoDb.iterator (prefixU :: hashX.val) ↔
      ∃ op u, base op = some u ∧ u.hashX = hashX ∧ row = (uKey op u, packLE 8 u.value) := by
  rw [Table.mem_iterator]
  constructor
  · rintro ⟨hget, hpre⟩
    obtain ⟨key, value⟩ := row
    obtain ⟨rest, rfl⟩ := hpre
    obtain ⟨op, u, hb, hk, rfl⟩ := (h.uRow (hashX.val ++ rest) value).mp hget
    refine ⟨op, u, hb, ?_, Prod.ext hk rfl⟩
    have hl : (prefixU :: hashX.val).length = (prefixU :: u.hashX.val).length := by
      rw [List.length_cons, List.length_cons, hashX.property, u.hashX.property]
    have hk' : (prefixU :: hashX.val) ++ rest = (prefixU :: u.hashX.val) ++ suffix op u := hk
    obtain ⟨he, -⟩ := List.append_inj hk' hl
    exact Subtype.ext (List.cons.inj he).2.symm
  · rintro ⟨op, u, hb, rfl, rfl⟩
    exact ⟨(h.uRow _ _).mpr ⟨op, u, hb, rfl, rfl⟩, List.prefix_append _ _⟩

/-- The row of an output is read back. -/
theorem readUtxo_eq {P : List (OutPoint × Utxo)} (hN : Numbered P) {op : OutPoint} {u : Utxo}
    (hm : (op, u) ∈ P) (hh : (db.fsTxHash u.txNum).1 = some op.txid.val) :
    db.readUtxo (uKey op u, packLE 8 u.value) = .ok (utxoOf db op u) := by
  have hsuffix : lastN (4 + txnumLen) (uKey op u) = suffix op u :=
    lastN_append_of_length (prefixU :: u.hashX.val) (length_suffix op u)
  have htx : lastN txnumLen (uKey op u) = packLE txnumLen u.txNum := by
    rw [uKey, suffix, ← List.append_assoc]
    exact lastN_append_of_length _ (length_packLE _ _)
  have hidx : (suffix op u).take 4 = packLE 4 op.idx := List.take_left' (length_packLE 4 _)
  have hvalue : u.value < 256 ^ 8 := (hN.value_lt _ hm).trans (by norm_num)
  rw [DB.readUtxo, hsuffix, htx, hidx, unpackLeUint32_of_length (length_packLE 4 _),
    unpackLE_packLE_of_lt (by simpa using hN.idx_lt _ hm), unpack_txNum (hN.txNum_lt _ hm),
    unpackLeUint64_of_length (length_packLE 8 _), unpackLE_packLE_of_lt hvalue]
  simp only [bind, Except.bind, pure, Except.pure, hh, utxoOf]

/-- `all_utxos` lists the unspent outputs of a script hash, each once. -/
theorem allUtxos_eq {P : List (OutPoint × Utxo)} {utxoCache : Table} {dbDeletes : List Bytes}
    {base view : OutPoint → Option Utxo} (hN : Numbered P)
    (h : UtxoRep P db.utxoDb utxoCache dbDeletes base view) (hh : HashesFound db base)
    (hashX : HashX) : ∃ utxos, db.allUtxos hashX = .ok (some utxos) ∧ utxos.Nodup ∧
      ∀ utxo, utxo ∈ utxos ↔ ∃ op u, base op = some u ∧ u.hashX = hashX ∧ utxo = utxoOf db op u := by
  have hrow (op : OutPoint) (u : Utxo) (hb : base op = some u) :
      db.readUtxo (uKey op u, packLE 8 u.value) = .ok (utxoOf db op u) :=
    readUtxo_eq hN (h.base_mem op u hb) (hh op u hb)
  obtain ⟨utxos, hutxos⟩ : ∃ utxos, db.readUtxos hashX = .ok utxos := by
    refine exists_mapM_eq_ok fun row hm ↦ ?_
    obtain ⟨op, u, hb, -, rfl⟩ := (mem_uRows h hashX row).mp hm
    exact ⟨_, hrow op u hb⟩
  have hmem (utxo : UTXO) : utxo ∈ utxos ↔
      ∃ op u, base op = some u ∧ u.hashX = hashX ∧ utxo = utxoOf db op u := by
    rw [mem_of_mapM_eq_ok hutxos]
    constructor
    · rintro ⟨row, hm, hr⟩
      obtain ⟨op, u, hb, hx, rfl⟩ := (mem_uRows h hashX row).mp hm
      exact ⟨op, u, hb, hx, Except.ok.inj (hr.symm.trans (hrow op u hb))⟩
    · rintro ⟨op, u, hb, hx, rfl⟩
      exact ⟨_, (mem_uRows h hashX _).mpr ⟨op, u, hb, hx, rfl⟩, hrow op u hb⟩
  have hrows : (db.utxoDb.iterator (prefixU :: hashX.val)).Nodup := by
    refine (Table.iterator_pairwise _ _).imp ?_
    rintro a b hab rfl
    have hself : compare a.1 a.1 = .eq := Std.ReflCmp.compare_self
    rw [hself] at hab
    cases hab
  have hnodup : utxos.Nodup := by
    refine pairwise_of_mapM_eq_ok hutxos (List.Pairwise.and_mem.mp hrows) ?_
    rintro row row' utxo utxo' hr hr' ⟨hm, hm', hne⟩ rfl
    obtain ⟨op, u, hb, -, rfl⟩ := (mem_uRows h hashX row).mp hm
    obtain ⟨op', u', hb', -, rfl⟩ := (mem_uRows h hashX row').mp hm'
    have he := Except.ok.inj ((hrow op u hb).symm.trans (hr.trans (hr'.symm.trans (hrow op' u' hb'))))
    have hop : op = op' := by
      cases op
      cases op'
      cases Subtype.ext (Option.some.inj (congrArg UTXO.txHash he))
      cases congrArg UTXO.txPos he
      rfl
    subst hop
    cases hb.symm.trans hb'
    exact hne rfl
  have hfound : ∀ utxo ∈ utxos, utxo.txHash ≠ none := by
    intro utxo hm
    obtain ⟨op, u, -, -, rfl⟩ := (hmem utxo).mp hm
    exact nofun
  refine ⟨utxos, ?_, hnodup, hmem⟩
  rw [DB.allUtxos, hutxos]
  change Except.ok (if ∀ utxo ∈ utxos, utxo.txHash ≠ none then some utxos else none) = _
  rw [if_pos hfound]

end Reads

/-- Two processors answer alike. -/
structure Agree (env : Env) (s s' : BlockProcessor) : Prop where
  height : s'.height = s.height ∧ s'.db.dbHeight = s.db.dbHeight
  tip : s'.tip = s.tip ∧ s'.db.dbTip = s.db.dbTip
  txCount : s'.txCount = s.txCount ∧ s'.db.dbTxCount = s.db.dbTxCount
  txCounts : s'.db.txCounts = s.db.txCounts
  readHeaders : ∀ start count, s'.db.readHeaders env start count = s.db.readHeaders env start count
  fsTxHash : ∀ n, s'.db.fsTxHash n = s.db.fsTxHash n
  txHashesAtBlockheight : ∀ blockHeight,
    s'.db.fsTxHashesAtBlockheight blockHeight = s.db.fsTxHashesAtBlockheight blockHeight
  hRows : ∀ k, s'.db.utxoDb[prefixH :: k]? = s.db.utxoDb[prefixH :: k]?
  uRows : ∀ k, s'.db.utxoDb[prefixU :: k]? = s.db.utxoDb[prefixU :: k]?
  txnums : ∀ (hashX : HashX) limit,
    s'.db.history.getTxnums hashX.val limit = s.db.history.getTxnums hashX.val limit

/-- Fully flushed indexes of one chain answer alike. -/
theorem Indexed.agree {env : Env} {s s' : BlockProcessor} {chain : List Block}
    (h : Indexed env s chain chain chain) (h' : Indexed env s' chain chain chain) :
    Agree env s s' := by
  have hcounts : s.db.counts = counts chain := by rw [DB.counts, h.counts_eq, Option.getD_some]
  have hcounts' : s'.db.counts = counts chain := by rw [DB.counts, h'.counts_eq, Option.getD_some]
  have hheight : s'.db.dbHeight = s.db.dbHeight := by
    have h1 := h.db.dbHeight
    have h2 := h'.db.dbHeight
    omega
  obtain ⟨rows, pend, hist⟩ := h.history
  obtain ⟨rows', pend', hist'⟩ := h'.history
  refine
    { height := ⟨?_, hheight⟩
      tip := ⟨h'.tip_eq.trans h.tip_eq.symm, h'.db.dbTip.trans h.db.dbTip.symm⟩
      txCount := ⟨h'.txCount_eq.trans h.txCount_eq.symm, h'.db.dbTxCount.trans h.db.dbTxCount.symm⟩
      txCounts := h'.counts_eq.trans h.counts_eq.symm
      readHeaders := fun start count ↦ ?_
      fsTxHash := fun n ↦ ?_
      txHashesAtBlockheight := fun blockHeight ↦ ?_
      hRows := fun k ↦ Option.ext fun v ↦ (h'.utxo.hRow k v).trans (h.utxo.hRow k v).symm
      uRows := fun k ↦ Option.ext fun v ↦ (h'.utxo.uRow k v).trans (h.utxo.uRow k v).symm
      txnums := fun hashX limit ↦ ?_ }
  · have h1 := h.height_eq
    have h2 := h'.height_eq
    omega
  · by_cases hneg : start < 0 ∨ count < 0
    · rw [DB.readHeaders, DB.readHeaders, if_pos hneg, if_pos hneg]
      rfl
    · lift start to Nat using by omega
      lift count to Nat using by omega
      rw [readHeaders_eq h.db.files h.valid.headersFit h.db.dbHeight,
        readHeaders_eq h'.db.files h.valid.headersFit h'.db.dbHeight]
  · rw [fsTxHash_eq h.db.files h.db.dbHeight hcounts, fsTxHash_eq h'.db.files h'.db.dbHeight hcounts']
  · by_cases hgt : blockHeight > s.db.dbHeight
    · rw [DB.fsTxHashesAtBlockheight, DB.fsTxHashesAtBlockheight, if_pos hgt, hheight, if_pos hgt]
      rfl
    · by_cases hneg : blockHeight < 0
      · rw [DB.fsTxHashesAtBlockheight, DB.fsTxHashesAtBlockheight, if_neg hgt, hheight, if_neg hgt,
          assertThat, if_neg (by omega)]
        rfl
      · lift blockHeight to Nat using by omega
        have hlt : blockHeight < chain.length := by
          have := h.db.dbHeight
          omega
        have hb := List.getElem?_eq_getElem hlt
        rw [fsTxHashesAtBlockheight_eq h.db.files h.db.dbHeight hcounts hb,
          fsTxHashesAtBlockheight_eq h'.db.files h'.db.dbHeight hcounts' hb]
  · rw [hist.table.getTxnums_eq, hist'.table.getTxnums_eq, hist.storedRows, hist'.storedRows]

end ElectrumX.Index
