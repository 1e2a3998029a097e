import ElectrumX.Index.Bookkeeping

/-!
# The numbers of transactions

Transaction numbers are the positions in the chain. The height of a number is found by a
bisection over the counts, which repeat for blocks without transactions, and its hash in a file
that keeps the hashes of abandoned blocks at its end. While blocks are backed up in memory the
counts are those of a shorter chain than the height of the DB says, and the numbers of the
abandoned blocks are still found.
-/

namespace ElectrumX.Index
open ElectrumX.Base ElectrumX.Lib ElectrumX.Chain ElectrumX.Server

/-- Transaction `n` of the chain is one of the block at a height. -/
def PlacedAt (chain : List Block) (n height : Nat) (tx : Tx) : Prop :=
  ∃ block k, chain[height]? = some block ∧ block.transactions[k]? = some tx ∧
    n = txCount (chain.take height) + k

/-! ### The bisection -/

/-- What stands before the point of bisection is not above the bound. -/
theorem exists_of_lt_bisectRight {a : List Nat} {x i : Nat} (h : i < bisectRight a x) :
    ∃ y, a[i]? = some y ∧ y ≤ x := by
  induction a generalizing i with
  | nil => cases h
  | cons z zs ih =>
    rw [bisectRight, List.takeWhile_cons] at h
    split at h
    · next hz =>
      cases i with
      | zero => exact ⟨z, rfl, of_decide_eq_true hz⟩
      | succ i => exact ih (Nat.lt_of_succ_lt_succ h)
    · cases h

/-- What stands at the point of bisection is above the bound. -/
theorem lt_of_getElem?_bisectRight {a : List Nat} {x y : Nat}
    (h : a[bisectRight a x]? = some y) : x < y := by
  induction a with
  | nil => cases h
  | cons z zs ih =>
    rw [bisectRight, List.takeWhile_cons] at h
    split at h
    · exact ih h
    · next hz =>
      cases h
      exact Nat.lt_of_not_le fun hle ↦ hz (decide_eq_true hle)

/-- The bisection over the counts finds the block of a transaction, past the blocks that have
none. -/
theorem exists_placedAt {chain : List Block} {n : Nat} (hn : n < txCount chain) :
    ∃ tx, (txs chain)[n]? = some tx ∧ PlacedAt chain n (bisectRight (counts chain) n) tx := by
  set height := bisectRight (counts chain) n with hheight
  have hpos : 0 < chain.length := by
    rw [List.length_pos_iff]
    rintro rfl
    cases hn
  have hlt : height < chain.length := by
    have hlast : (counts chain)[chain.length - 1]? = some (txCount chain) := by
      rw [getElem?_counts (by omega), Nat.sub_add_cancel hpos, List.take_length]
    have := bisectRight_le hlast hn
    omega
  have hafter : n < txCount (chain.take (height + 1)) :=
    lt_of_getElem?_bisectRight (getElem?_counts hlt)
  have hbefore : txCount (chain.take height) ≤ n := by
    rcases Nat.eq_zero_or_pos height with h0 | h0
    · rw [h0]
      exact Nat.zero_le n
    · obtain ⟨y, hy, hle⟩ := exists_of_lt_bisectRight (a := counts chain) (x := n)
        (i := height - 1) (by omega)
      rw [getElem?_counts (by omega), Nat.sub_add_cancel h0] at hy
      cases hy
      exact hle
  have hblock := List.getElem?_eq_getElem hlt
  have htake : chain.take (height + 1) = chain.take height ++ [chain[height]] := by
    rw [List.take_add_one, hblock]
    rfl
  rw [htake, txCount_concat] at hafter
  have hk : n - txCount (chain.take height) < chain[height].transactions.length := by omega
  refine ⟨_, ?_, chain[height], n - txCount (chain.take height), hblock,
    List.getElem?_eq_getElem hk, by omega⟩
  have hsplit : txs chain = txs (chain.take height) ++
      (chain[height].transactions ++ txs (chain.drop (height + 1))) := by
    rw [← txs_singleton chain[height], ← txs_append, ← txs_append, ← List.append_assoc, ← htake,
      List.take_append_drop]
  rw [hsplit, List.getElem?_append_right hbefore]
  exact (List.getElem?_append_left hk).trans (List.getElem?_eq_getElem hk)

/-- A number belongs to one block. -/
theorem PlacedAt.height_eq {chain : List Block} {n height height' : Nat} {tx tx' : Tx}
    (h : PlacedAt chain n height tx) (h' : PlacedAt chain n height' tx') : height = height' := by
  have hbounds : ∀ {height : Nat} {tx : Tx}, PlacedAt chain n height tx →
      txCount (chain.take height) ≤ n ∧ n < txCount (chain.take (height + 1)) := by
    rintro height tx ⟨block, k, hb, hk, rfl⟩
    have hlt := (List.getElem?_eq_some_iff.mp hk).1
    rw [List.take_add_one, hb, Option.toList_some, txCount_concat]
    omega
  have hmono : ∀ {i j : Nat}, i ≤ j → txCount (chain.take i) ≤ txCount (chain.take j) :=
    fun hij ↦ txCount_mono (List.take_prefix_take_left hij)
  obtain ⟨hle, hlt⟩ := hbounds h
  obtain ⟨hle', hlt'⟩ := hbounds h'
  rcases Nat.lt_trichotomy height height' with hh | hh | hh
  · have := hmono (show height + 1 ≤ height' from hh)
    omega
  · exact hh
  · have := hmono (show height' + 1 ≤ height from hh)
    omega

/-! ### Fully flushed states -/

/-- The DB numbers the transactions of a chain in its order. -/
structure NumbersChain (db : DB) (chain : List Block) : Prop where
  dbHeight : db.dbHeight + 1 = chain.length
  dbTxCount : db.dbTxCount = txCount chain
  fsTxHash : ∀ n < db.dbTxCount, ∃ tx height, (txs chain)[n]? = some tx ∧
    PlacedAt chain n height tx ∧ db.fsTxHash n = (some tx.txid.val, height)
  atBlockheight : ∀ height : Nat, height ≤ db.dbHeight → ∃ block, chain[height]? = some block ∧
    db.fsTxHashesAtBlockheight height = .ok (block.transactions.map (·.txid.val))
  concat : ∃ hashes, (List.range (db.dbHeight + 1).toNat).mapM
      (fun height : Nat ↦ db.fsTxHashesAtBlockheight height) = .ok hashes ∧
    hashes.flatten.map some = (List.range db.dbTxCount).map fun n ↦ (db.fsTxHash n).1

section Reads

variable {env : Env} {db : DB} {chain : List Block}

/-- The files and the counts of a chain number its transactions. -/
theorem numbersChain (hf : FilesHold env db.disk chain) (hheight : db.dbHeight + 1 = chain.length)
    (hcount : db.dbTxCount = txCount chain) (hc : db.counts = counts chain) :
    NumbersChain db chain := by
  have hhash : ∀ n, db.fsTxHash n =
      (((txs chain)[n]?).map (·.txid.val), bisectRight (counts chain) n) :=
    fsTxHash_eq hf hheight hc
  have hblock : ∀ (height : Nat) (h : height < chain.length),
      db.fsTxHashesAtBlockheight height = .ok (chain[height].transactions.map (·.txid.val)) :=
    fun height h ↦ fsTxHashesAtBlockheight_eq hf hheight hc (List.getElem?_eq_getElem h)
  refine ⟨hheight, hcount, ?_, ?_, ?_⟩
  · intro n hn
    rw [hcount] at hn
    obtain ⟨tx, htx, hplaced⟩ := exists_placedAt hn
    exact ⟨tx, _, htx, hplaced, by rw [hhash, htx]; rfl⟩
  · intro height hle
    have hlt : height < chain.length := by omega
    exact ⟨chain[height], List.getElem?_eq_getElem hlt, hblock height hlt⟩
  · refine ⟨chain.map fun b ↦ b.transactions.map (·.txid.val), ?_, ?_⟩
    · have hlen : (db.dbHeight + 1).toNat = chain.length := by omega
      have hmap : (List.range chain.length).map
          (fun height ↦ ((chain[height]?).map fun b ↦ b.transactions.map (·.txid.val)).getD []) =
            chain.map fun b ↦ b.transactions.map (·.txid.val) := by
        apply List.ext_getElem?
        intro i
        rw [List.getElem?_map, List.getElem?_map]
        by_cases hi : i < chain.length
        · rw [List.getElem?_range hi, List.getElem?_eq_getElem hi]
          simp [hi]
        · rw [List.getElem?_eq_none (by simpa using hi), List.getElem?_eq_none (by omega)]
          rfl
      rw [hlen, ← hmap]
      apply mapM_of_ok
      intro height hm
      have hlt := List.mem_range.mp hm
      rw [hblock height hlt, List.getElem?_eq_getElem hlt]
      rfl
    · have htxs : (chain.map fun b ↦ b.transactions.map (·.txid.val)).flatten =
          (txs chain).map (·.txid.val) := by
        rw [← List.flatMap_def, txs, List.map_flatMap]
      rw [hcount, htxs]
      apply List.ext_getElem?
      intro n
      rw [List.getElem?_map, List.getElem?_map, List.getElem?_map]
      by_cases hn : n < txCount chain
      · rw [List.getElem?_range hn, Option.map_some, hhash]
        have htx := List.getElem?_eq_getElem (show n < (txs chain).length from hn)
        rw [htx]
        rfl
      · rw [List.getElem?_eq_none (show (txs chain).length ≤ n from Nat.le_of_not_lt hn),
          List.getElem?_eq_none (by simpa using hn)]
        rfl

end Reads

/-- In every fully flushed state of a run from a consistent disk, the numbers are those of the
chain. -/
theorem LinkedRun.numbersChain {env : Env} {s : BlockProcessor} {chain : List Block}
    (r : LinkedRun env s chain) (hf : FullyFlushed s) : NumbersChain s.db chain := by
  obtain ⟨stored, hk⟩ := r.kept
  obtain ⟨⟨htx, hfs⟩, ⟨hh, hdb⟩, -⟩ := fullyFlushed_iff.mp hf
  have hlen := hk.height_eq
  have hlen' := hk.fsHeight
  obtain rfl : stored = chain := hk.stored_prefix.eq_of_length (by omega)
  apply Index.numbersChain hk.files (by omega)
  · rw [← hfs, hk.fsTxCount]
  · rw [DB.counts, hk.counts_eq, Option.getD_some]

/-! ### Blocks that are backed up in memory -/

/-- The number at the end of the key of a row. -/
def rowTxNum (key : Bytes) : Nat := unpackLE (lastN txnumLen key)

/-- The number of every row of an output is found, with the txid that it has in the chain. -/
def RowsFound (db : DB) (chain : List Block) : Prop :=
  ∀ key value, db.utxoDb[key]? = some value → key.head? = some prefixH ∨ key.head? = some prefixU →
    ∃ tx, (txs chain)[rowTxNum key]? = some tx ∧
      (db.fsTxHash (rowTxNum key)).1 = some tx.txid.val

/-- In memory, the numbers of the blocks that are backed up are found until the flush. -/
theorem Kept.fsTxHash_of_backupBlocks {env : Env} {s s' : BlockProcessor}
    {stored c bs : List Block} (h : Kept env s stored (c ++ bs)) (hne : bs ≠ [])
    (hs : s.backupBlocks env (bs.map (·.raw)).reverse = .ok s') :
    s'.db.utxoDb = s.db.utxoDb ∧ s'.db.dbHeight = s.db.dbHeight ∧
      ∀ n tx, (txs (c ++ bs))[n]? = some tx → (s'.db.fsTxHash n).1 = some tx.txid.val := by
  obtain ⟨_, hflushed, hs⟩ := bind_eq_ok.mp hs
  obtain ⟨_, hge, hs⟩ := bind_eq_ok.mp hs
  have hge := assertThat_eq_ok.mp hge
  rw [List.length_reverse, List.length_map] at hge
  have hlen := h.height_eq
  have hpos := List.length_pos_of_ne_nil hne
  obtain ⟨-, ⟨hfs, hdb⟩, -⟩ := fullyFlushed_iff.mp hflushed
  have hfs' := h.fsHeight
  obtain rfl : stored = c ++ bs := h.stored_prefix.eq_of_length (by omega)
  rw [List.length_append] at hlen
  have hc : c ≠ [] := by
    rintro rfl
    rw [List.length_nil] at hlen
    omega
  obtain ⟨hdb1, -⟩ := backupBlocks_counts h.linked hc h.height_eq h.tip_eq h.counts_eq h.txCount_eq
    hs
  refine ⟨by rw [hdb1], by rw [hdb1], ?_⟩
  intro n tx hn
  have hb : bisectRight (counts c) n ≤ c.length := by
    rw [← length_counts c]
    exact (List.takeWhile_sublist _).length_le
  have hr := FlatFile.read_row (g := fun tx : Tx ↦ tx.txid.val) h.files.hashes
    (fun tx _ ↦ tx.txid.property) hn
  have hnot : ¬((bisectRight (counts c) n : Int) > s.db.dbHeight) := by omega
  rw [hdb1, DB.fsTxHash]
  change (if (bisectRight (counts c) n : Int) > s.db.dbHeight then
    ((none : Option Bytes), bisectRight (counts c) n) else _).1 = _
  rw [if_neg hnot]
  exact congrArg some hr

/-- The rows of the unspent outputs of a chain have numbers of the chain. -/
theorem exists_of_row {env : Env} {utxoDb utxoCache : Table} {dbDeletes : List Bytes}
    {chain : List Block} {view : OutPoint → Option Utxo} (hv : ValidChain env.coin chain)
    (h : UtxoRep (Ledger.created (ledger env.coin chain)) utxoDb utxoCache dbDeletes
      (unspent env.coin chain) view) {key value : Bytes} (hr : utxoDb[key]? = some value)
    (hkey : key.head? = some prefixH ∨ key.head? = some prefixU) :
    ∃ op u tx, unspent env.coin chain op = some u ∧ (key = hKey op u ∨ key = uKey op u) ∧
      rowTxNum key = u.txNum ∧ (txs chain)[u.txNum]? = some tx ∧ op.txid = tx.txid := by
  have hN := numbered hv
  have hfound : ∃ op u, unspent env.coin chain op = some u ∧
      (key = hKey op u ∨ key = uKey op u) := by
    rcases hkey with hkey | hkey
    · obtain ⟨k, rfl⟩ := List.head?_eq_some_iff.mp hkey
      obtain ⟨op, u, hb, hk, -⟩ := (h.hRow k value).mp hr
      exact ⟨op, u, hb, .inl hk⟩
    · obtain ⟨k, rfl⟩ := List.head?_eq_some_iff.mp hkey
      obtain ⟨op, u, hb, hk, -⟩ := (h.uRow k value).mp hr
      exact ⟨op, u, hb, .inr hk⟩
  obtain ⟨op, u, hb, hk⟩ := hfound
  have hm := h.base_mem op u hb
  have hlt : u.txNum < 256 ^ txnumLen := by
    have := hN.txNum_lt _ hm
    simpa [txnumLen] using this
  have hnum : rowTxNum key = u.txNum := by
    have hlast : lastN txnumLen key = packLE txnumLen u.txNum := by
      rcases hk with rfl | rfl
      · exact lastN_txNum_hKey op u
      · rw [uKey, suffix, ← List.append_assoc]
        exact lastN_append_of_length _ (length_packLE _ _)
    rw [rowTxNum, hlast, unpackLE_packLE_of_lt hlt]
  obtain ⟨tx, -, htx, ht, -⟩ := mem_created env.coin hm
  exact ⟨op, u, tx, hb, hk, hnum, htx, ht⟩

/-- In a run whose back-ups find the undo rows of their own blocks, the numbers are those of the
chain in every fully flushed state; and while blocks are backed up in memory, the number of every
row of an output is still found. -/
theorem Run.numbers_chain {env : Env} {s : BlockProcessor} {chain : List Block}
    (r : Run env (OwnUndos env) s chain) :
    (FullyFlushed s → NumbersChain s.db chain) ∧
      ∀ c bs s', chain = c ++ bs → bs ≠ [] →
        s.backupBlocks env (bs.map (·.raw)).reverse = .ok s' → RowsFound s'.db chain := by
  obtain ⟨recorded, stored, hi⟩ := r.indexed
  constructor
  · intro hf
    have hi := hi.of_fullyFlushed hf
    apply Index.numbersChain hi.db.files hi.db.dbHeight hi.db.dbTxCount
    rw [DB.counts, hi.counts_eq, Option.getD_some]
  · rintro c bs s' rfl hne hs
    obtain ⟨_, hf, -⟩ := bind_eq_ok.mp hs
    have hi := hi.of_fullyFlushed hf
    intro key value hr hkey
    obtain ⟨hutxo, -, hfound⟩ := hi.kept.fsTxHash_of_backupBlocks hne hs
    rw [hutxo] at hr
    obtain ⟨op, u, tx, -, -, hnum, htx, -⟩ := exists_of_row hi.valid hi.utxo hr hkey
    rw [hnum]
    exact ⟨tx, htx, hfound _ tx htx⟩

theorem sampleAdvance_numbers_chain : ∃ s, sampleAdvance = .ok s ∧
    NumbersChain s.db [sampleGenesis, sampleA] ∧
    ∃ s', s.backupBlocks sampleEnv [sampleA.raw] = .ok s' ∧
      RowsFound s'.db [sampleGenesis, sampleA] := by
  obtain ⟨s, hs, hf, s', hb, -⟩ : ∃ s, sampleAdvance = .ok s ∧ FullyFlushed s ∧
    ∃ s', s.backupBlocks sampleEnv [sampleA.raw] = .ok s' ∧ True := by decide +kernel
  have r : Run sampleEnv (OwnUndos sampleEnv) s _ := sampleAdvance_run hs
  have h := r.numbers_chain
  exact ⟨s, hs, h.1 hf, s', hb, h.2 [sampleGenesis] [sampleA] s' rfl (List.cons_ne_nil _ _) hb⟩

/-! ### A row that no transaction of the chain has made -/

/-- Block `a` with a payment before its transactions. -/
def sampleLongA : Block :=
  { sampleBlock 4 (sampleCoin.headerHash sampleGenesis.header) with transactions := staleTxs 4 }

/-- A block in their place with one transaction. -/
def sampleD : Block :=
  { sampleBlock 5 (sampleCoin.headerHash sampleGenesis.header) with transactions := staleTxs 5 }

/-- The row of the longer block that block `b` brings back is left when `d` is advanced. -/
def sampleLeftover : Except PyError BlockProcessor := do
  sampleBatch (← sampleUndone sampleLongA) 1 [sampleD]

theorem sampleLeftover_row : ∃ s, sampleLeftover = .ok s ∧
    Received staleEnv s.db [sampleGenesis] [sampleD] ∧
    ∃ s', s.backupBlocks staleEnv [sampleD.raw] = .ok s' ∧
      (s'.db.utxoDb.toList.any fun e ↦ e.1.head? = some prefixU ∧ rowTxNum e.1 = 2) = true := by
  decide +kernel

theorem sampleLeftover_run {s : BlockProcessor} (h : sampleLeftover = .ok s) :
    Run staleEnv (Received staleEnv) s ([sampleGenesis] ++ [sampleD]) := by
  have hf : SampleFork sampleLongA := ⟨by decide +kernel, by decide +kernel, by decide +kernel⟩
  obtain ⟨s0, h0, h⟩ := bind_eq_ok.mp h
  exact sampleBatch_run (sampleUndone_run hf h0) (by decide +kernel) h

/-- The row has number 2, and the chain has only transactions 0 and 1, although every block that is
backed up is one that `get_raw_blocks` has got. -/
theorem not_numbers_chain : ¬ ∀ (env : Env) (s : BlockProcessor) (chain : List Block),
    Run env (Received env) s chain → ∀ c bs s', chain = c ++ bs → bs ≠ [] →
      Received env s.db c bs → s.backupBlocks env (bs.map (·.raw)).reverse = .ok s' →
      RowsFound s'.db chain := by
  intro h
  obtain ⟨s, hs, hreceived, s', hb, hrow⟩ := sampleLeftover_row
  have hfound := h _ _ _ (sampleLeftover_run hs) [sampleGenesis] [sampleD] s' rfl
    (List.cons_ne_nil _ _) hreceived hb
  obtain ⟨e, he, hkey⟩ := List.any_eq_true.mp hrow
  obtain ⟨hu, hnum⟩ := of_decide_eq_true hkey
  obtain ⟨tx, htx, -⟩ := hfound e.1 e.2
    (Std.ExtTreeMap.mem_toList_iff_getElem?_eq_some.mp he) (.inr hu)
  rw [hnum] at htx
  cases htx

end ElectrumX.Index
