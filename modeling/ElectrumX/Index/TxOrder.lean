import ElectrumX.Index.Reorg
import ElectrumX.Server.LTORBlockProcessor

/-!
# Two ways to advance

`LTORBlockProcessor` adds all outputs of a block before it spends the inputs. When no
transaction spends an output of its own or of a later one, each spend commutes with the
puts behind it, and the result is that of the base class in every state.
-/

namespace ElectrumX.Index
open ElectrumX.Base ElectrumX.Lib ElectrumX.Chain ElectrumX.Server

/-! ### Puts into the cache -/

/-- The cache with the rows of outputs put into it. -/
def putAll (utxoCache : Table) (ps : List (OutPoint × Utxo)) : Table :=
  ps.foldl (fun t p ↦ t.insert (cacheKey p.1) (packed p.2)) utxoCache

theorem putAll_cons (utxoCache : Table) (p : OutPoint × Utxo) (ps : List (OutPoint × Utxo)) :
    putAll utxoCache (p :: ps) = putAll (utxoCache.insert (cacheKey p.1) (packed p.2)) ps := rfl

theorem putAll_append (utxoCache : Table) (ps qs : List (OutPoint × Utxo)) :
    putAll utxoCache (ps ++ qs) = putAll (putAll utxoCache ps) qs := List.foldl_append

private theorem erase_insert {t : Table} {k k' v : Bytes} (h : k ≠ k') :
    (t.insert k v).erase k' = (t.erase k').insert k v := by
  apply Std.ExtTreeMap.ext_getElem?
  intro x
  rw [Table.getElem?_erase, Table.getElem?_insert, Table.getElem?_insert, Table.getElem?_erase]
  by_cases hx : k = x
  · subst hx
    rw [if_pos rfl, if_pos rfl, if_neg (Ne.symm h)]
  · rw [if_neg hx, if_neg hx]

/-- Spending an output commutes with putting another one. -/
private theorem spendUtxo_insert (db : DB) (utxoCache : Table) (dbDeletes : List Bytes)
    {op op' : OutPoint} (v : Bytes) (h : op.idx < 2 ^ 32) (h' : op'.idx < 2 ^ 32)
    (hne : op ≠ op') :
    BlockProcessor.spendUtxo db (utxoCache.insert (cacheKey op') v) dbDeletes op.txid.val op.idx =
      (BlockProcessor.spendUtxo db utxoCache dbDeletes op.txid.val op.idx).map
        fun r ↦ (r.1, r.2.1.insert (cacheKey op') v, r.2.2) := by
  have hk : cacheKey op' ≠ cacheKey op := fun he ↦ hne (cacheKey_inj h h' he.symm)
  have hget : (utxoCache.insert (cacheKey op') v)[cacheKey op]? = utxoCache[cacheKey op]? := by
    rw [Table.getElem?_insert, if_neg hk]
  unfold BlockProcessor.spendUtxo
  rw [packLeUint32_of_lt h]
  simp only [bind, Except.bind, pure, Except.pure]
  rw [← cacheKey, erase_insert hk, hget]
  cases utxoCache[cacheKey op]? with
  | some e =>
    cases e with
    | cons b bs => rfl
    | nil =>
      dsimp only
      cases BlockProcessor.findCandidate db op.txid.val _ _ with
      | error e => rfl
      | ok r => cases r <;> rfl
  | none =>
    dsimp only
    cases BlockProcessor.findCandidate db op.txid.val _ _ with
    | error e => rfl
    | ok r => cases r <;> rfl

/-- Spending an output commutes with putting others. -/
private theorem spendUtxo_putAll (db : DB) (utxoCache : Table) (dbDeletes : List Bytes)
    {op : OutPoint} {ps : List (OutPoint × Utxo)} (h : op.idx < 2 ^ 32)
    (hps : ∀ p ∈ ps, p.1.idx < 2 ^ 32) (hne : op ∉ ps.map Prod.fst) :
    BlockProcessor.spendUtxo db (putAll utxoCache ps) dbDeletes op.txid.val op.idx =
      (BlockProcessor.spendUtxo db utxoCache dbDeletes op.txid.val op.idx).map
        fun r ↦ (r.1, putAll r.2.1 ps, r.2.2) := by
  induction ps generalizing utxoCache with
  | nil =>
    rw [putAll, List.foldl_nil]
    cases BlockProcessor.spendUtxo db utxoCache dbDeletes op.txid.val op.idx <;> rfl
  | cons p ps ih =>
    rw [List.map_cons, List.mem_cons, not_or] at hne
    rw [putAll_cons, ih _ (fun q hq ↦ hps q (List.mem_cons_of_mem _ hq)) hne.2,
      spendUtxo_insert db utxoCache dbDeletes _ h (hps p List.mem_cons_self) hne.1]
    cases BlockProcessor.spendUtxo db utxoCache dbDeletes op.txid.val op.idx <;> rfl

/-- Spending the inputs of a transaction commutes with putting outputs that they do not spend. -/
private theorem spendInputs_putAll (db : DB) (utxoCache : Table) (dbDeletes : List Bytes)
    {txins : List TxInput} {ps : List (OutPoint × Utxo)} (hps : ∀ p ∈ ps, p.1.idx < 2 ^ 32)
    (hne : ∀ op ∈ spends txins, op ∉ ps.map Prod.fst) :
    BlockProcessor.spendInputs db (putAll utxoCache ps) dbDeletes txins =
      (BlockProcessor.spendInputs db utxoCache dbDeletes txins).map
        fun r ↦ (r.1, putAll r.2.1 ps, r.2.2) := by
  induction txins generalizing utxoCache dbDeletes with
  | nil => rfl
  | cons txin rest ih =>
    rw [spends_cons] at hne
    unfold BlockProcessor.spendInputs
    by_cases hg : txin.isGeneration
    · rw [if_pos hg] at hne
      simp only [if_pos hg]
      exact ih utxoCache dbDeletes hne
    · rw [if_neg hg] at hne
      have hidx : (outpoint txin).idx < 2 ^ 32 := txin.prevIdx.toNat_lt
      have hs := spendUtxo_putAll db utxoCache dbDeletes hidx hps (hne _ List.mem_cons_self)
      change BlockProcessor.spendUtxo db (putAll utxoCache ps) dbDeletes txin.prevHash.val
        txin.prevIdx.toNat = (BlockProcessor.spendUtxo db utxoCache dbDeletes txin.prevHash.val
          txin.prevIdx.toNat).map _ at hs
      simp only [if_neg hg, hs]
      cases BlockProcessor.spendUtxo db utxoCache dbDeletes txin.prevHash.val
        txin.prevIdx.toNat with
      | error e => rfl
      | ok r =>
        have hr := ih r.2.1 r.2.2 fun op hop ↦ hne op (List.mem_cons_of_mem _ hop)
        simp only [Except.map, bind, Except.bind, hr]
        cases BlockProcessor.spendInputs db r.2.1 r.2.2 rest <;> rfl

/-- The outputs loop puts the spendable outputs. -/
theorem addOutputs_eq (env : Env) (isUnspendable : Bytes → Bool) (txid : Hash32) (n idx : Nat)
    (utxoCache : Table) {txouts : List TxOutput} (hi : idx + txouts.length ≤ 2 ^ 32)
    (hv : ∀ txout ∈ txouts, 0 ≤ txout.value ∧ txout.value < 2 ^ 63) :
    BlockProcessor.addOutputs env isUnspendable txid.val (packLE txnumLen n) idx utxoCache txouts =
      .ok ((pays env.coin isUnspendable txid n idx txouts).map (·.2.hashX.val),
        putAll utxoCache (pays env.coin isUnspendable txid n idx txouts)) := by
  induction txouts generalizing utxoCache idx with
  | nil => rfl
  | cons txout rest ih =>
    rw [List.length_cons] at hi
    have hvr := fun o ho ↦ hv o (List.mem_cons_of_mem _ ho)
    rw [pays_cons]
    unfold BlockProcessor.addOutputs
    by_cases hg : isUnspendable txout.pkScript
    · simp only [if_pos hg]
      exact ih (idx + 1) utxoCache (by omega) hvr
    · obtain ⟨h0, h63⟩ := hv txout List.mem_cons_self
      have hpack : packLeUint64 txout.value = .ok (packLE 8 txout.value.toNat) := by
        rw [packLeUint64, if_pos ⟨h0, by omega⟩]
      simp only [if_neg hg]
      rw [packLeUint32_of_lt (by omega), hpack]
      simp only [bind, Except.bind, pure, Except.pure]
      rw [ih (idx + 1) _ (by omega) hvr]
      rfl

/-! ### Sets of script hashes -/

/-- The set of the elements of a list. -/
def toSet (xs : List Bytes) : Std.ExtTreeSet Bytes := xs.foldl (fun t x ↦ t.insert x) ∅

theorem mem_toSet {xs : List Bytes} {x : Bytes} : x ∈ toSet xs ↔ x ∈ xs := by
  rw [toSet, mem_foldl_insert]
  simp

theorem addSpent_toSet (paid spent : List Bytes) :
    LTORBlockProcessor.addSpent (toSet paid) spent =
      toSet (spent.map (·.take hashXLen) ++ paid) := by
  have hfold : LTORBlockProcessor.addSpent (toSet paid) spent =
      (spent.map (·.take hashXLen)).foldl (fun t x ↦ t.insert x) (toSet paid) := by
    rw [LTORBlockProcessor.addSpent, List.foldl_map]
  apply Std.ExtTreeSet.ext_mem
  intro x
  rw [hfold, mem_foldl_insert, mem_toSet, mem_toSet, List.mem_append, or_comm]

private theorem getElem?_addTx (t : Table) (txNumb : Bytes) {xs : List Bytes} (hn : xs.Nodup)
    (k : Bytes) : (History.addTx t txNumb xs)[k]? =
      if k ∈ xs then some ((t[k]?).getD [] ++ txNumb) else t[k]? := by
  induction xs generalizing t with
  | nil => rfl
  | cons x xs ih =>
    rw [List.nodup_cons] at hn
    change (History.addTx (t.insert x ((t[x]?).getD [] ++ txNumb)) txNumb xs)[k]? = _
    rw [ih _ hn.2, Table.getElem?_insert]
    by_cases hx : x = k
    · subst hx
      simp [hn.1]
    · have hx' : ¬ k = x := fun he ↦ hx he.symm
      simp [hx, hx']

/-- The history counts the transactions of a set of script hashes, in whatever order a list
names them. -/
theorem addUnflushed_toSet (h : History) (hss : List (List Bytes)) (n : Nat) :
    h.addUnflushed ((hss.map toSet).map (·.toList)) n = h.addUnflushed hss n := by
  induction hss generalizing h n with
  | nil => rfl
  | cons xs rest ih =>
    have hnodup : (toSet xs).toList.Nodup := by
      apply (toSet xs).distinct_toList.imp
      rintro a b hab rfl
      exact hab Std.ReflCmp.compare_self
    have hmem (x : Bytes) : x ∈ (toSet xs).toList ↔ x ∈ xs.dedup := by
      rw [Std.ExtTreeSet.mem_toList, mem_toSet, List.mem_dedup]
    have hperm := (List.perm_ext_iff_of_nodup hnodup xs.nodup_dedup).mpr hmem
    have hadd (b : Bytes) : History.addTx h.unflushed b (toSet xs).toList =
        History.addTx h.unflushed b xs.dedup := by
      apply Std.ExtTreeMap.ext_getElem?
      intro k
      simp only [getElem?_addTx _ _ hnodup, getElem?_addTx _ _ xs.nodup_dedup, hmem]
    rw [List.map_cons, List.map_cons, History.addUnflushed, History.addUnflushed,
      List.dedup_eq_self.mpr hnodup]
    refine bind_congr fun b ↦ ?_
    dsimp only
    rw [hadd, hperm.length_eq]
    exact ih _ _

/-! ### The loops -/

/-- The transactions of a block whose outputs have positions, numbers and values that fit. -/
structure OutputsFit (n : Nat) (ts : List Tx) : Prop where
  txNum : n + ts.length ≤ 2 ^ 40
  outputs : ∀ tx ∈ ts, tx.outputs.length ≤ 2 ^ 32
  values : ∀ tx ∈ ts, ∀ txout ∈ tx.outputs, 0 ≤ txout.value ∧ txout.value < 2 ^ 63

theorem OutputsFit.tail {n : Nat} {tx : Tx} {ts : List Tx} (h : OutputsFit n (tx :: ts)) :
    OutputsFit (n + 1) ts where
  txNum := by
    have := h.txNum
    rw [List.length_cons] at this
    omega
  outputs t ht := h.outputs t (List.mem_cons_of_mem _ ht)
  values t ht := h.values t (List.mem_cons_of_mem _ ht)

/-- No entry spends what it creates itself or what a later one creates. -/
def TopologicallyOrdered : List Entry → Prop
  | [] => True
  | e :: rest =>
    (∀ op ∈ e.spends, op ∉ (Ledger.created (e :: rest)).map Prod.fst) ∧ TopologicallyOrdered rest

section Loops

variable (env : Env) (isUnspendable : Bytes → Bool)

private theorem idx_lt_of_mem_created {n : Nat} {ts : List Tx} (h : OutputsFit n ts)
    {p : OutPoint × Utxo} (hp : p ∈ Ledger.created (entries env.coin isUnspendable n ts)) :
    p.1.idx < 2 ^ 32 := by
  induction ts generalizing n with
  | nil => cases hp
  | cons tx ts ih =>
    rw [entries_cons] at hp
    rcases List.mem_append.mp hp with hp | hp
    · obtain ⟨i, txout, hi, rfl⟩ := mem_pays _ hp
      have hlt := (List.getElem?_eq_some_iff.mp hi).1
      have hle := h.outputs tx List.mem_cons_self
      change 0 + i < _
      omega
    · exact ih h.tail hp

/-- The loop that adds the new UTXOs puts all outputs of the block. -/
theorem addUtxos_eq {n : Nat} {ts : List Tx} (h : OutputsFit n ts) (utxoCache : Table) :
    LTORBlockProcessor.addUtxos env isUnspendable n utxoCache ts =
      .ok ((entries env.coin isUnspendable n ts).map fun e ↦
          toSet (e.creates.map (·.2.hashX.val)),
        putAll utxoCache (Ledger.created (entries env.coin isUnspendable n ts))) := by
  induction ts generalizing n utxoCache with
  | nil => rfl
  | cons tx rest ih =>
    have hn := h.txNum
    have ho := h.outputs tx List.mem_cons_self
    rw [List.length_cons] at hn
    have hnum : packLeUint64 (n : Int) = .ok (packLE 8 n) := packLeUint64_of_lt (by omega)
    rw [LTORBlockProcessor.addUtxos, hnum]
    simp only [bind, Except.bind, pure, Except.pure, take_packLE n (by decide : txnumLen ≤ 8)]
    rw [addOutputs_eq env isUnspendable tx.txid n 0 utxoCache (by omega)
      (h.values tx List.mem_cons_self)]
    dsimp only
    rw [ih h.tail, entries_cons]
    dsimp only
    rw [← putAll_append]
    rfl

/-- Adding all outputs first and then spending the inputs does what spending and adding
transaction by transaction does. -/
theorem spendTxs_eq (db : DB) {n : Nat} {ts : List Tx} (h : OutputsFit n ts)
    (ho : TopologicallyOrdered (entries env.coin isUnspendable n ts)) (utxoCache : Table)
    (dbDeletes : List Bytes) :
    LTORBlockProcessor.spendTxs db
        (putAll utxoCache (Ledger.created (entries env.coin isUnspendable n ts))) dbDeletes
        (ts.zip ((entries env.coin isUnspendable n ts).map fun e ↦
          toSet (e.creates.map (·.2.hashX.val)))) =
      (BlockProcessor.advanceLoop env isUnspendable db n utxoCache dbDeletes ts).map
        fun r ↦ (r.1, r.2.1.map toSet, r.2.2.1, r.2.2.2) := by
  induction ts generalizing n utxoCache dbDeletes with
  | nil => rfl
  | cons tx rest ih =>
    have hn := h.txNum
    have hout := h.outputs tx List.mem_cons_self
    rw [List.length_cons] at hn
    have hnum : packLeUint64 (n : Int) = .ok (packLE 8 n) := packLeUint64_of_lt (by omega)
    have hidx := fun p ↦ @idx_lt_of_mem_created env isUnspendable n (tx :: rest) h p
    rw [entries_cons] at ho hidx ⊢
    set e := entry env.coin isUnspendable n tx with he
    set es := entries env.coin isUnspendable (n + 1) rest with hes
    -- this transaction's spends commute with all puts
    have hspend := spendInputs_putAll db utxoCache dbDeletes hidx ho.1
    rw [List.map_cons, List.zip_cons_cons, LTORBlockProcessor.spendTxs,
      BlockProcessor.advanceLoop, hnum]
    simp only [bind, Except.bind, pure, Except.pure, take_packLE n (by decide : txnumLen ≤ 8)]
    rw [hspend]
    cases BlockProcessor.spendInputs db utxoCache dbDeletes tx.inputs with
    | error err => rfl
    | ok r =>
      obtain ⟨spent, cache, deletes⟩ := r
      have hput : putAll cache (Ledger.created (e :: es)) =
          putAll (putAll cache e.creates) (Ledger.created es) := by
        rw [← putAll_append]
        rfl
      have hadd : BlockProcessor.addOutputs env isUnspendable tx.txid (packLE txnumLen n) 0 cache
          tx.outputs = .ok (e.creates.map (·.2.hashX.val), putAll cache e.creates) :=
        addOutputs_eq env isUnspendable tx.txid n 0 cache (by omega)
          (h.values tx List.mem_cons_self)
      have hrest := ih h.tail ho.2 (putAll cache e.creates) deletes
      simp only [Except.map]
      rw [hput, hrest, hadd]
      dsimp only
      cases BlockProcessor.advanceLoop env isUnspendable db (n + 1)
          (putAll cache e.creates) deletes rest with
      | error err => rfl
      | ok r =>
        simp only [Except.map, addSpent_toSet]
        rfl

end Loops

/-! ### Blocks -/

theorem mem_foldl_insertMany (hss : List (List Bytes)) (t : Std.ExtTreeSet Bytes)
    (x : Bytes) : x ∈ (hss.map toSet).foldl (fun t hashXs ↦ t.insertMany hashXs.toList) t ↔
      x ∈ t ∨ x ∈ hss.flatten := by
  induction hss generalizing t with
  | nil => simp
  | cons xs rest ih =>
    rw [List.map_cons, List.foldl_cons, ih, Std.ExtTreeSet.mem_insertMany_list,
      List.contains_iff_mem, Std.ExtTreeSet.mem_toList, mem_toSet, List.flatten_cons,
      List.mem_append, or_assoc]

/-- The two ways to advance the transactions of a block agree in every state. -/
theorem advanceTxs_eq (env : Env) (isUnspendable : Bytes → Bool) (s : BlockProcessor)
    {ts : List Tx} (h : OutputsFit s.txCount ts)
    (ho : TopologicallyOrdered (entries env.coin isUnspendable s.txCount ts)) :
    LTORBlockProcessor.advanceTxs env s ts isUnspendable = s.advanceTxs env ts isUnspendable := by
  have hloop := spendTxs_eq env isUnspendable s.db h ho s.utxoCache s.dbDeletes
  rw [LTORBlockProcessor.advanceTxs, addUtxos_eq env isUnspendable h, BlockProcessor.advanceTxs]
  simp only [bind, Except.bind]
  rw [hloop]
  cases BlockProcessor.advanceLoop env isUnspendable s.db s.txCount s.utxoCache s.dbDeletes ts with
  | error e => rfl
  | ok r =>
    obtain ⟨undoInfo, hss, utxoCache, dbDeletes⟩ := r
    have htouched : (hss.map toSet).foldl (fun t hashXs ↦ t.insertMany hashXs.toList) s.touched =
        hss.flatten.foldl (fun t hashX ↦ t.insert hashX) s.touched := by
      apply Std.ExtTreeSet.ext_mem
      intro x
      rw [mem_foldl_insertMany, mem_foldl_insert]
    simp only [Except.map, addUnflushed_toSet, htouched]

/-- In a valid chain no transaction of a block spends an output of its own or of a later one. -/
theorem topologicallyOrdered_of_valid {L es : List Entry} (h : Ledger.Valid (L ++ es)) :
    TopologicallyOrdered es := by
  induction es generalizing L with
  | nil => trivial
  | cons e rest ih =>
    refine ⟨fun op hop hc ↦ ?_, ih (L := L ++ [e]) (by rwa [List.append_assoc])⟩
    have hn := h.keys_nodup
    rw [Ledger.created_append, List.map_append] at hn
    exact List.disjoint_of_nodup_append hn (h.spends_earlier L e rest rfl op hop) hc

/-- In every state, and for every block in topological order whose outputs fit their fields, the
two processors return the same undo information and reach the same state, or fail alike; on
the states of a run both advance each valid block. -/
theorem advance_paths_agree {env : Env} {isUnspendable : Bytes → Bool} {s : BlockProcessor}
    {ts : List Tx} (h : OutputsFit s.txCount ts)
    (ho : TopologicallyOrdered (entries env.coin isUnspendable s.txCount ts)) :
    LTORBlockProcessor.advanceTxs env s ts isUnspendable = s.advanceTxs env ts isUnspendable ∧
    ∀ chain b, Run env (OwnUndos env) s chain → ValidChain env.coin (chain ++ [b]) →
      b.transactions = ts → env.coin.isUnspendableAt chain.length = isUnspendable →
      ∃ undoInfo s', LTORBlockProcessor.advanceTxs env s ts isUnspendable = .ok (undoInfo, s') ∧
        s.advanceTxs env ts isUnspendable = .ok (undoInfo, s') := by
  have heq := advanceTxs_eq env isUnspendable s h ho
  refine ⟨heq, ?_⟩
  rintro chain b r hv rfl rfl
  obtain ⟨recorded, stored, hi⟩ := r.indexed
  obtain ⟨s', hr, -⟩ := hi.held.toHeldCore.advanceValid hv
  exact ⟨_, _, heq.trans hr, hr⟩

/-- The transactions of block `a`, of which the second spends the output of the first. -/
theorem sampleA_paths_agree : ∃ s, sampleStart = .ok s ∧
    LTORBlockProcessor.advanceTxs sampleEnv s sampleA.transactions isUnspendableLegacy =
      s.advanceTxs sampleEnv sampleA.transactions isUnspendableLegacy := by
  obtain ⟨s, hs, hn⟩ : ∃ s, sampleStart = .ok s ∧ s.txCount = 1 := by decide +kernel
  have hv : Ledger.Valid ([] ++ entries sampleCoin isUnspendableLegacy 1 sampleA.transactions) := by
    decide +kernel
  have hfit : OutputsFit s.txCount sampleA.transactions := by
    rw [hn]
    exact ⟨by decide, by decide, by decide⟩
  refine ⟨s, hs, (advance_paths_agree hfit ?_).1⟩
  rw [hn]
  exact topologicallyOrdered_of_valid hv

end ElectrumX.Index
