import ElectrumX.Server.Mempool

/-!
# The index of the mempool

The index by script hash mirrors the transactions of the mempool in every state that refreshes
and tasks reach, whatever the order of the tasks and however many refreshes are aborted. What the
daemon and the DB answer is relied on to be the same each time.
-/

namespace ElectrumX.Mempool
open ElectrumX.Base ElectrumX.Lib ElectrumX.Server

/-- What the daemon and the DB answer: one transaction for a txid and one output for a prevout,
which is that of the parent when the parent is a transaction of the daemon's. -/
structure Source (coin : Coin) where
  tx : Hash32 → Option (Tx × Nat)
  utxo : Prevout → Pair
  utxo_eq : ∀ hash raw parent prevout, tx hash = some raw →
    prevout ∈ (MemPoolTx.ofTx coin raw.1 raw.2).prevouts → tx prevout.1 = some parent →
    (MemPoolTx.ofTx coin parent.1 parent.2).outPairs[prevout.2]? = some (utxo prevout)

/-- The value of a prevout is known. -/
def Available (pool : MemPool) (utxoMap : UtxoMap) (prevout : Prevout) : Prop :=
  (∃ utxo, utxoMap.lookup prevout = some (some utxo)) ∨ prevout.1 ∈ pool.txs

/-- A transaction of the mempool has a script hash among its inputs and outputs. -/
def Mentions (pool : MemPool) (hashX : HashX) (hash : Hash32) : Prop :=
  ∃ tx, pool.txs.lookup hash = some tx ∧ hashX ∈ tx.hashXs

/-! ### One step of acceptance -/

theorem inPair_eq_keyError {pool : MemPool} {utxoMap : UtxoMap} {prevout : Prevout} :
    pool.inPair utxoMap prevout = .error .keyError ↔ ¬ Available pool utxoMap prevout := by
  rw [Available, ← AList.lookup_isSome, MemPool.inPair]
  split
  · next utxo hu => simp [hu]
  · next hu =>
    have hnone : ¬ ∃ utxo, utxoMap.lookup prevout = some (some utxo) := by
      rintro ⟨u, h⟩
      exact hu u h
    cases ht : pool.txs.lookup prevout.1 with
    | none => simpa using hnone
    | some tx =>
      simp only [Option.isSome_some, or_true, not_true_eq_false, iff_false]
      rw [getItem]
      split <;> simp

/-- A transaction is accepted when all its prevouts have a value, and deferred when one is not
known. -/
theorem acceptTx_cases {utxoMap : UtxoMap} {a a' : MemPool.Acceptance} {e : Hash32 × MemPoolTx}
    (h : MemPool.acceptTx utxoMap a e = .ok a') :
    (∃ inPairs, List.Forall₂ (fun prevout pair ↦ a.pool.inPair utxoMap prevout = .ok pair)
        e.2.prevouts inPairs ∧
      a' = { a with
        pool := a.pool.hold e.1 (e.2.accepted inPairs)
        unspent := e.2.prevouts.foldl (fun unspent prevout ↦ unspent.erase prevout) a.unspent }) ∨
    (∃ prevout ∈ e.2.prevouts, ¬ Available a.pool utxoMap prevout) ∧
      a' = { a with deferred := a.deferred ++ [e] } := by
  simp only [MemPool.acceptTx] at h
  split at h
  · next hm =>
    cases h
    obtain ⟨prevout, hmem, he⟩ := exists_of_mapM_eq_error hm
    exact .inr ⟨⟨prevout, hmem, inPair_eq_keyError.mp he⟩, rfl⟩
  · cases h
  · next inPairs hm =>
    cases h
    exact .inl ⟨inPairs, mapM_eq_ok.mp hm, rfl⟩

theorem lookup_eraseAll {prevouts : List Prevout} {unspent : UtxoMap} {prevout : Prevout} :
    (prevouts.foldl (fun unspent p ↦ unspent.erase p) unspent).lookup prevout =
      if prevout ∈ prevouts then none else unspent.lookup prevout := by
  induction prevouts generalizing unspent with
  | nil => rfl
  | cons p prevouts ih =>
    rw [List.foldl_cons, ih]
    by_cases he : prevout = p
    · subst he
      simp
    · simp [he]

/-- The deferred transactions are some of those that were to be accepted, in their order. -/
theorem deferred_sublist {pool : MemPool} {txMap : TxMap} {utxoMap : UtxoMap}
    {a : MemPool.Acceptance} (h : pool.acceptTransactions txMap utxoMap = .ok a) :
    a.deferred.Sublist txMap := by
  have hloop : ∀ (txMap : TxMap) (a a' : MemPool.Acceptance),
      txMap.foldlM (MemPool.acceptTx utxoMap) a = .ok a' →
      ∃ deferred, a'.deferred = a.deferred ++ deferred ∧ deferred.Sublist txMap := by
    intro txMap
    induction txMap with
    | nil =>
      intro a a' h
      cases h
      exact ⟨[], (List.append_nil _).symm, List.Sublist.slnil⟩
    | cons e txMap ih =>
      intro a a' h
      rw [List.foldlM_cons, bind_eq_ok] at h
      obtain ⟨a1, h1, h⟩ := h
      obtain ⟨deferred, hd, hsub⟩ := ih a1 a' h
      rcases acceptTx_cases h1 with ⟨inPairs, -, rfl⟩ | ⟨-, rfl⟩
      · exact ⟨deferred, hd, hsub.cons e⟩
      · exact ⟨e :: deferred, by rw [hd, List.append_assoc]; rfl, hsub.cons_cons e⟩
  obtain ⟨deferred, hd, hsub⟩ := hloop txMap _ a h
  rw [hd]
  exact hsub

/-- The loop over the deferred transactions terminates: each round that is followed by another
one accepts a transaction. -/
theorem acceptLoop_terminates {fuel : Nat} (pool : MemPool) (txMap : TxMap) (utxoMap : UtxoMap)
    (priorCount : Nat)
    (h : txMap.length + 2 ≤ fuel ∨ txMap.length = priorCount ∧ 1 ≤ fuel) :
    ∃ result, pool.acceptLoop fuel txMap utxoMap priorCount = some result := by
  induction fuel generalizing pool txMap utxoMap priorCount with
  | zero => omega
  | succ fuel ih =>
    rw [MemPool.acceptLoop]
    split
    · next hc =>
      cases ha : pool.acceptTransactions txMap utxoMap with
      | error e => exact ⟨_, rfl⟩
      | ok a =>
        have hle := (deferred_sublist ha).length_le
        exact ih _ _ _ _ (by omega)
    · exact ⟨_, rfl⟩

/-- Exactly the one transaction is removed. -/
theorem lookup_removeTx {pool pool' : MemPool} {hash : Hash32} (h : pool.removeTx hash = .ok pool')
    (hash' : Hash32) :
    pool'.txs.lookup hash' = if hash' = hash then none else pool.txs.lookup hash' := by
  simp only [MemPool.removeTx] at h
  split at h
  · cases h
  · split at h
    · cases h
    · split at h
      · cases h
      · cases h
        by_cases he : hash' = hash
        · subst he
          rw [if_pos rfl, AList.lookup_erase]
        · rw [if_neg he, AList.lookup_erase_ne he]

/-- Exactly the transactions that are not listed are removed. -/
theorem lookup_removeTxs {pool pool' : MemPool} {allHashes : Finset Hash32}
    (h : pool.removeTxs allHashes = .ok pool') (hash : Hash32) :
    pool'.txs.lookup hash = if hash ∈ allHashes then pool.txs.lookup hash else none := by
  have hloop : ∀ (hashes : List Hash32) (pool : MemPool),
      hashes.foldlM MemPool.removeTx pool = .ok pool' →
      pool'.txs.lookup hash = if hash ∈ hashes then none else pool.txs.lookup hash := by
    intro hashes
    induction hashes with
    | nil =>
      intro pool h
      cases h
      rfl
    | cons hash' hashes ih =>
      intro pool h
      rw [List.foldlM_cons, bind_eq_ok] at h
      obtain ⟨pool1, h1, h⟩ := h
      rw [ih pool1 h, lookup_removeTx h1]
      by_cases he : hash = hash' <;> simp [he]
  rw [hloop _ _ h]
  by_cases hmem : hash ∈ allHashes
  · simp [hmem]
  · cases hlookup : pool.txs.lookup hash with
    | none => simp
    | some tx =>
      have hkey : hash ∈ pool.txs.keys :=
        AList.mem_keys.mp (AList.lookup_isSome.mp (Option.isSome_of_mem hlookup))
      simp [hmem, hkey]

/-- The entries of an updated map are those of the two maps. -/
theorem mem_of_mem_update {txMap deferred : TxMap} {e : Hash32 × MemPoolTx}
    (h : e ∈ txMap.update deferred) : e ∈ txMap ∨ e ∈ deferred := by
  rcases List.mem_append.mp h with h | h
  · obtain ⟨x, hx, rfl⟩ := List.mem_map.mp h
    cases hl : List.lookup x.1 deferred with
    | none => exact .inl hx
    | some tx =>
      obtain ⟨l1, l2, hsplit, -⟩ := List.lookup_eq_some_iff.mp hl
      exact .inr (by rw [hsplit]; simp)
  · exact .inr (List.mem_of_mem_filter h)

/-! ### The end of a refresh -/

/-- The mempool at the start of the `on_mempool` call that ends the refresh in progress, once all
its tasks have been collected. -/
def onMempool (s : MempoolSync) : Option MemPool :=
  match s.current with
  | some ⟨_, _, .collecting txMap utxoMap⟩ =>
    if ∀ task ∈ s.tasks, task.refresh ≠ s.refreshes then
      match s.pool.acceptLoop (txMap.length + 2) txMap utxoMap 0 with
      | some (.ok (pool, _)) => some pool
      | _ => none
    else none
  | _ => none

theorem finish_eq (coin : Coin) (s : MempoolSync) : s.step coin .finish =
    (onMempool s).map fun pool ↦ { s with
      pool := { pool with touched := ∅ }
      current := none
      reports := s.reports + 1 } := by
  simp only [MempoolSync.step, onMempool]
  rcases s.current with - | ⟨allHashes, height, - | ⟨txMap, utxoMap⟩⟩
  · rfl
  · rfl
  · dsimp only
    by_cases ht : ∀ task ∈ s.tasks, task.refresh ≠ s.refreshes
    · rw [if_pos ht, if_pos ht]
      rcases s.pool.acceptLoop (txMap.length + 2) txMap utxoMap 0 with
        - | (- | ⟨pool, dropped⟩) <;> rfl
    · rw [if_neg ht, if_neg ht]
      rfl

theorem onMempool_eq_some {s : MempoolSync} {pool : MemPool} : onMempool s = some pool ↔
    ∃ allHashes height txMap utxoMap dropped,
      s.current = some ⟨allHashes, height, .collecting txMap utxoMap⟩ ∧
      (∀ task ∈ s.tasks, task.refresh ≠ s.refreshes) ∧
      s.pool.acceptLoop (txMap.length + 2) txMap utxoMap 0 = some (.ok (pool, dropped)) := by
  constructor
  · intro h
    rw [onMempool] at h
    split at h
    · next allHashes height txMap utxoMap hc =>
      split at h
      · next htasks =>
        split at h
        · next pool' dropped hloop =>
          cases h
          exact ⟨_, _, _, _, dropped, hc, htasks, hloop⟩
        · cases h
      · cases h
    · cases h
  · rintro ⟨allHashes, height, txMap, utxoMap, dropped, hc, htasks, hloop⟩
    simp only [onMempool, hc]
    rw [if_pos htasks, hloop]

section Sound

variable {coin : Coin} (src : Source coin)

/-- A transaction as the daemon has it, before it is accepted. -/
def Source.memPoolTx (hash : Hash32) : Option MemPoolTx :=
  (src.tx hash).map fun raw ↦ MemPoolTx.ofTx coin raw.1 raw.2

/-- The transactions are the daemon's. -/
def Genuine (txMap : TxMap) : Prop := ∀ e ∈ txMap, src.memPoolTx e.1 = some e.2

/-- The UTXOs that were found are the DB's. -/
def GenuineUtxos (utxoMap : UtxoMap) : Prop :=
  ∀ prevout utxo, utxoMap.lookup prevout = some (some utxo) → utxo = src.utxo prevout

/-- The mempool holds transactions of the daemon's with the DB's inputs, and the index mirrors
them. -/
structure PoolSound (pool : MemPool) : Prop where
  held : ∀ hash tx, pool.txs.lookup hash = some tx → ∃ tx', src.memPoolTx hash = some tx' ∧
    tx = tx'.accepted (tx'.prevouts.map src.utxo)
  mirrors : pool.hashXs.Mirrors (Mentions pool)

variable {src} {pool : MemPool}

/-- A prevout of a transaction of the daemon's has no other value, and is never out of range. -/
theorem PoolSound.inPair_cases (h : PoolSound src pool) {utxoMap : UtxoMap}
    (hu : GenuineUtxos src utxoMap) {hash : Hash32} {tx : MemPoolTx}
    (htx : src.memPoolTx hash = some tx) {prevout : Prevout} (hp : prevout ∈ tx.prevouts) :
    pool.inPair utxoMap prevout = .ok (src.utxo prevout) ∨
      pool.inPair utxoMap prevout = .error .keyError := by
  rw [MemPool.inPair]
  split
  · next utxo he => exact .inl (congrArg _ (hu prevout utxo he))
  · cases ht : pool.txs.lookup prevout.1 with
    | none => exact .inr rfl
    | some parent =>
      left
      obtain ⟨tx', htx', rfl⟩ := h.held _ _ ht
      obtain ⟨raw, hraw, rfl⟩ := Option.map_eq_some_iff.mp htx
      obtain ⟨raw', hraw', rfl⟩ := Option.map_eq_some_iff.mp htx'
      exact getItem_of_some (src.utxo_eq hash raw raw' prevout hraw hp hraw')

theorem PoolSound.inPairs_eq (h : PoolSound src pool) {utxoMap : UtxoMap}
    (hu : GenuineUtxos src utxoMap) {hash : Hash32} {tx : MemPoolTx}
    (htx : src.memPoolTx hash = some tx) {prevouts : List Prevout} {inPairs : List Pair}
    (hsub : prevouts ⊆ tx.prevouts)
    (hin : List.Forall₂ (fun prevout pair ↦ pool.inPair utxoMap prevout = .ok pair)
      prevouts inPairs) : inPairs = prevouts.map src.utxo := by
  induction hin with
  | nil => rfl
  | @cons prevout pair prevouts inPairs hpair hin ih =>
    obtain ⟨hp, hsub⟩ := List.cons_subset.mp hsub
    rw [List.map_cons, ih hsub]
    congr 1
    rcases h.inPair_cases hu htx hp with h | h
    · exact Except.ok.inj (hpair.symm.trans h)
    · cases hpair.symm.trans h

theorem PoolSound.hold (h : PoolSound src pool) {hash : Hash32} {tx : MemPoolTx}
    (htx : src.memPoolTx hash = some tx) :
    PoolSound src (pool.hold hash (tx.accepted (tx.prevouts.map src.utxo))) where
  held hash' tx' ht := by
    by_cases he : hash' = hash
    · subst he
      rw [MemPool.hold, AList.lookup_insert, Option.some_inj] at ht
      exact ⟨tx, htx, ht.symm⟩
    · rw [MemPool.hold, AList.lookup_insert_ne he] at ht
      exact h.held hash' tx' ht
  mirrors := by
    refine (h.mirrors.addAll hash _).congr fun hashX hash' ↦ ?_
    simp only [Mentions, MemPool.hold]
    by_cases he : hash' = hash
    · subst he
      simp only [AList.lookup_insert, Option.some_inj, exists_eq_left', and_true]
      refine or_iff_right_of_imp ?_
      rintro ⟨tx', ht, hx⟩
      obtain ⟨tx0, htx0, rfl⟩ := h.held _ _ ht
      cases htx.symm.trans htx0
      exact hx
    · simp only [AList.lookup_insert_ne he, he, and_false, or_false]

/-- A transaction of the daemon's is accepted or deferred without an exception. -/
theorem acceptTx_sound {utxoMap : UtxoMap} (hu : GenuineUtxos src utxoMap)
    {a : MemPool.Acceptance} {e : Hash32 × MemPoolTx} (he : src.memPoolTx e.1 = some e.2)
    (h : PoolSound src a.pool ∧ Genuine src a.deferred ∧ GenuineUtxos src a.unspent) :
    ∃ a', MemPool.acceptTx utxoMap a e = .ok a' ∧
      PoolSound src a'.pool ∧ Genuine src a'.deferred ∧ GenuineUtxos src a'.unspent := by
  obtain ⟨hpool, hdeferred, hunspent⟩ := h
  have hok : ∃ a', MemPool.acceptTx utxoMap a e = .ok a' := by
    rw [MemPool.acceptTx]
    cases hm : e.2.prevouts.mapM (a.pool.inPair utxoMap) with
    | ok inPairs => exact ⟨_, rfl⟩
    | error error =>
      obtain ⟨prevout, hp, herr⟩ := exists_of_mapM_eq_error hm
      rcases hpool.inPair_cases hu he hp with h | h
      · cases h.symm.trans herr
      · cases h.symm.trans herr
        exact ⟨_, rfl⟩
  obtain ⟨a', ha'⟩ := hok
  refine ⟨a', ha', ?_⟩
  rcases acceptTx_cases ha' with ⟨inPairs, hin, rfl⟩ | ⟨-, rfl⟩
  · cases hpool.inPairs_eq hu he (List.Subset.refl _) hin
    refine ⟨hpool.hold he, hdeferred, fun prevout utxo hl ↦ ?_⟩
    rw [lookup_eraseAll] at hl
    split at hl
    · cases hl
    · exact hunspent prevout utxo hl
  · refine ⟨hpool, fun x hx ↦ ?_, hunspent⟩
    rcases List.mem_append.mp hx with hx | hx
    · exact hdeferred x hx
    · cases List.mem_singleton.mp hx
      exact he

/-- `_accept_transactions` keeps the mempool sound. -/
theorem acceptTransactions_sound (h : PoolSound src pool) {txMap : TxMap}
    (ht : Genuine src txMap) {utxoMap : UtxoMap} (hu : GenuineUtxos src utxoMap) :
    ∃ a, pool.acceptTransactions txMap utxoMap = .ok a ∧
      PoolSound src a.pool ∧ Genuine src a.deferred ∧ GenuineUtxos src a.unspent :=
  foldlM_ok ⟨h, fun _ hx ↦ (List.not_mem_nil hx).elim, hu⟩ fun _ e he hP ↦
    acceptTx_sound hu (ht e he) hP

/-- The loop over the deferred transactions keeps the mempool sound. -/
theorem acceptLoop_sound {fuel : Nat} {txMap : TxMap} {utxoMap : UtxoMap} {priorCount : Nat}
    {result : Except PyError (MemPool × TxMap)} (h : PoolSound src pool) (ht : Genuine src txMap)
    (hu : GenuineUtxos src utxoMap)
    (hr : pool.acceptLoop fuel txMap utxoMap priorCount = some result) :
    ∃ pool' dropped, result = .ok (pool', dropped) ∧ PoolSound src pool' := by
  induction fuel generalizing pool txMap utxoMap priorCount with
  | zero => cases hr
  | succ fuel ih =>
    rw [MemPool.acceptLoop] at hr
    split at hr
    · obtain ⟨a, ha, hs, hd, hun⟩ := acceptTransactions_sound h ht hu
      rw [ha] at hr
      exact ih hs hd hun hr
    · cases hr
      exact ⟨_, _, rfl, h⟩

/-! ### Removal -/

/-- A transaction that the mempool holds is removed without an exception. -/
theorem removeTx_sound (h : PoolSound src pool) {hash : Hash32} (hm : hash ∈ pool.txs) :
    ∃ pool', pool.removeTx hash = .ok pool' ∧ PoolSound src pool' := by
  obtain ⟨tx, ht⟩ := Option.isSome_iff_exists.mp (AList.lookup_isSome.mpr hm)
  obtain ⟨tx', -, rfl⟩ := h.held hash tx ht
  obtain ⟨hashXs, hremove, hmirrors⟩ := h.mirrors.removeAll (i := hash)
    (List.nodup_dedup ((tx'.prevouts.map src.utxo ++ tx'.outPairs).map Prod.fst))
    fun hashX hx ↦ ⟨_, ht, List.mem_dedup.mp hx⟩
  have hok : pool.removeTx hash = .ok {
      txs := pool.txs.erase hash
      hashXs := hashXs
      touched := pool.touched ∪
        ((tx'.prevouts.map src.utxo ++ tx'.outPairs).map Prod.fst).dedup.toFinset } := by
    simp only [MemPool.removeTx, ht, MemPoolTx.accepted, hremove]
  have hlookup := lookup_removeTx hok
  refine ⟨_, hok, fun hash' tx ht' ↦ ?_, ?_⟩
  · rw [hlookup] at ht'
    split at ht'
    · cases ht'
    · exact h.held hash' tx ht'
  · refine hmirrors.congr fun hashX hash' ↦ ?_
    simp only [Mentions, hlookup]
    by_cases he : hash' = hash
    · subst he
      simp only [ht, if_true, and_true, Option.some_inj, exists_eq_left', reduceCtorEq,
        false_and, exists_false, iff_false, not_and_not_right]
      exact fun hx ↦ List.mem_dedup.mpr hx
    · simp only [he, if_false, and_false, not_false_eq_true, and_true]

/-- The transactions that have disappeared are removed without an exception. -/
theorem removeTxs_sound (h : PoolSound src pool) (allHashes : Finset Hash32) :
    ∃ pool', pool.removeTxs allHashes = .ok pool' ∧ PoolSound src pool' := by
  have hloop : ∀ (hashes : List Hash32) {pool : MemPool}, PoolSound src pool → hashes.Nodup →
      (∀ hash ∈ hashes, hash ∈ pool.txs) →
      ∃ pool', hashes.foldlM MemPool.removeTx pool = .ok pool' ∧ PoolSound src pool' := by
    intro hashes
    induction hashes with
    | nil => exact fun h _ _ ↦ ⟨_, rfl, h⟩
    | cons hash hashes ih =>
      intro pool h hnodup hmem
      obtain ⟨hnot, hnodup⟩ := List.nodup_cons.mp hnodup
      obtain ⟨pool1, h1, hs1⟩ := removeTx_sound h (hmem hash List.mem_cons_self)
      have hmem1 : ∀ hash' ∈ hashes, hash' ∈ pool1.txs := by
        intro hash' hm
        have hne : hash' ≠ hash := fun he ↦ hnot (he ▸ hm)
        rw [← AList.lookup_isSome, lookup_removeTx h1, if_neg hne, AList.lookup_isSome]
        exact hmem hash' (List.mem_cons_of_mem _ hm)
      obtain ⟨pool2, h2, hs2⟩ := ih hs1 hnodup hmem1
      exact ⟨pool2, by rw [List.foldlM_cons, h1]; exact h2, hs2⟩
  exact hloop (pool.txs.keys.filter (· ∉ allHashes)) h (pool.txs.keys_nodup.filter _)
    fun hash hm ↦ AList.mem_keys.mpr (List.mem_of_mem_filter hm)

/-! ### The external interface -/

/-- The transactions in the index are held, as the daemon has them. -/
theorem PoolSound.indexed (h : PoolSound src pool) {hashX : HashX} {hash : Hash32}
    (hm : hash ∈ pool.hashXs.items hashX) : ∃ tx, src.memPoolTx hash = some tx ∧
      pool.txs.lookup hash = some (tx.accepted (tx.prevouts.map src.utxo)) := by
  obtain ⟨tx, ht, -⟩ := (h.mirrors.mem hashX hash).mp hm
  obtain ⟨tx', htx, rfl⟩ := h.held hash tx ht
  exact ⟨tx', htx, ht⟩

/-- What a transaction brings to a script hash. -/
def Source.delta (src : Source coin) (hashX : HashX) (hash : Hash32) : Int :=
  (src.memPoolTx hash).elim 0 fun tx ↦
    MemPool.valueOf hashX tx.outPairs - MemPool.valueOf hashX (tx.prevouts.map src.utxo)

/-- The outputs that a transaction spends. -/
def Source.spends (src : Source coin) (hash : Hash32) : List Prevout :=
  (src.memPoolTx hash).elim [] MemPoolTx.prevouts

theorem PoolSound.balanceDelta_eq (h : PoolSound src pool) (hashX : HashX) :
    pool.balanceDelta hashX = .ok ((pool.hashXs.items hashX).map (src.delta hashX)).sum := by
  rw [MemPool.balanceDelta, foldlM_of_ok (g := fun value hash ↦ value + src.delta hashX hash),
    List.sum_eq_foldl, List.foldl_map]
  intro value hash hm
  obtain ⟨tx, htx, ht⟩ := h.indexed hm
  simp only [MemPool.getTx, ht, Source.delta, htx, Option.elim_some]
  change Except.ok (value - _ + _) = Except.ok (value + (_ - _))
  congr 1
  simp only [MemPoolTx.accepted]
  omega

theorem PoolSound.potentialSpends_eq (h : PoolSound src pool) (hashX : HashX) :
    pool.potentialSpends hashX = .ok ((pool.hashXs.items hashX).foldl
      (fun result hash ↦ result ∪ src.spends hash) []) := by
  rw [MemPool.potentialSpends, foldlM_of_ok]
  intro result hash hm
  obtain ⟨tx, htx, ht⟩ := h.indexed hm
  simp only [MemPool.getTx, ht, Source.spends, htx, Option.elim_some]
  rfl

theorem PoolSound.transactionSummaries_ok (h : PoolSound src pool) (hashX : HashX) :
    ∃ summaries, pool.transactionSummaries hashX = .ok summaries := by
  refine ⟨_, mapM_of_ok (g := fun hash ↦ ⟨hash, ((pool.txs.lookup hash).elim 0 (·.fee)),
    (src.spends hash).any fun prevout ↦ (pool.txs.lookup prevout.1).isSome⟩) fun hash hm ↦ ?_⟩
  obtain ⟨tx, htx, ht⟩ := h.indexed hm
  simp only [MemPool.getTx, ht, Source.spends, htx, Option.elim_some]
  rfl

/-! ### Refreshes and tasks -/

theorem PoolSound.withTouched (h : PoolSound src pool) (touched : Finset HashX) :
    PoolSound src { pool with touched } := ⟨h.held, h.mirrors⟩

variable (src) in
/-- The daemon and the DB answer as they are relied on to. -/
def Source.Answers (_ : MempoolSync) : MempoolEvent → Prop
  | .fetched _ rawTxs => ∀ hash raw, rawTxs hash = some raw → src.tx hash = some raw
  | .lookedUp _ utxos => ∀ prevout utxo, utxos prevout = some utxo → utxo = src.utxo prevout
  | _ => True

variable (src) in
/-- What a task has is the daemon's and the DB's. -/
def ProgressSound : FetchProgress → Prop
  | .fetching => True
  | .lookingUp txMap => Genuine src txMap
  | .done deferred unspent => Genuine src deferred ∧ GenuineUtxos src unspent

variable (src) in
/-- The mempool is sound, and so is what the tasks and the refresh in progress have. -/
structure Sound (s : MempoolSync) : Prop where
  pool : PoolSound src s.pool
  tasks : ∀ task ∈ s.tasks, ProgressSound src task.progress
  current : ∀ allHashes height txMap utxoMap,
    s.current = some ⟨allHashes, height, .collecting txMap utxoMap⟩ →
      Genuine src txMap ∧ GenuineUtxos src utxoMap

theorem genuine_deserializeTxs (hashes : List Hash32) {rawTxs : Hash32 → Option (Tx × Nat)}
    (h : ∀ hash raw, rawTxs hash = some raw → src.tx hash = some raw) :
    Genuine src (deserializeTxs coin hashes rawTxs) := by
  intro e he
  obtain ⟨hash, -, hm⟩ := List.mem_filterMap.mp he
  obtain ⟨raw, hraw, rfl⟩ := Option.map_eq_some_iff.mp hm
  rw [Source.memPoolTx, h hash raw hraw]
  rfl

theorem Genuine.update {txMap deferred : TxMap} (h : Genuine src txMap)
    (hd : Genuine src deferred) : Genuine src (txMap.update deferred) :=
  fun e he ↦ (mem_of_mem_update he).elim (h e) (hd e)

theorem lookup_utxoMapOf (prevouts : List Prevout) (utxos : Prevout → Option Pair)
    (prevout : Prevout) : (utxoMapOf prevouts utxos).lookup prevout =
      if prevout ∈ prevouts then some (utxos prevout) else none := by
  have hfold (prevouts : List Prevout) (utxoMap : UtxoMap) :
      (prevouts.foldl (fun m p ↦ m.insert p (utxos p)) utxoMap).lookup prevout =
        if prevout ∈ prevouts then some (utxos prevout) else utxoMap.lookup prevout := by
    induction prevouts generalizing utxoMap with
    | nil => rfl
    | cons p prevouts ih =>
      rw [List.foldl_cons, ih]
      by_cases he : prevout = p
      · subst he
        simp
      · simp [he]
  exact hfold prevouts ∅

theorem genuineUtxos_utxoMapOf (prevouts : List Prevout) {utxos : Prevout → Option Pair}
    (h : ∀ prevout utxo, utxos prevout = some utxo → utxo = src.utxo prevout) :
    GenuineUtxos src (utxoMapOf prevouts utxos) := by
  intro prevout utxo hl
  rw [lookup_utxoMapOf] at hl
  split at hl
  · exact h prevout utxo (Option.some.inj hl)
  · cases hl

theorem GenuineUtxos.union {utxoMap unspent : UtxoMap} (hn : GenuineUtxos src unspent)
    (h : GenuineUtxos src utxoMap) : GenuineUtxos src (unspent ∪ utxoMap) := by
  intro prevout utxo hl
  rcases AList.lookup_union_eq_some.mp hl with hl | ⟨-, hl⟩
  · exact hn prevout utxo hl
  · exact h prevout utxo hl

variable {s s' : MempoolSync}

private theorem sound_start (h : Sound src s) {allHashes : Finset Hash32} {height : Int}
    {chunks : List (List Hash32)} (hs : s.start allHashes height chunks = some s') :
    Sound src s' := by
  obtain ⟨pool, hp, hpool⟩ := removeTxs_sound h.pool allHashes
  rw [MempoolSync.start, hp] at hs
  split at hs
  · cases hs
    exact h
  · simp only at hs
    split at hs
    · cases hs
      refine ⟨hpool, h.tasks, fun allHashes' height' txMap utxoMap hc ↦ ?_⟩
      split at hc
      · cases hc
        exact ⟨nofun, nofun⟩
      · cases hc
    · cases hs

private theorem sound_setTask (h : Sound src s) (i : Nat) {task' : FetchTask}
    (hp : ProgressSound src task'.progress) :
    ∀ task ∈ s.tasks.set i task', ProgressSound src task.progress := by
  intro task hm
  rcases List.mem_or_eq_of_mem_set hm with hm | he
  · exact h.tasks task hm
  · rw [he]
    exact hp

private theorem sound_fetched (h : Sound src s) {i : Nat}
    {rawTxs : Hash32 → Option (Tx × Nat)} (hg : src.Answers s (.fetched i rawTxs))
    (hs : s.step coin (.fetched i rawTxs) = some s') : Sound src s' := by
  simp only [MempoolSync.step] at hs
  obtain ⟨task, ht, hs⟩ := Option.bind_eq_some_iff.mp hs
  split at hs
  · cases hs
    have hp := genuine_deserializeTxs task.hashes hg
    exact ⟨h.pool, sound_setTask h i hp, h.current⟩
  · cases hs

private theorem sound_lookedUp (h : Sound src s) {i : Nat} {utxos : Prevout → Option Pair}
    (hg : src.Answers s (.lookedUp i utxos))
    (hs : s.step coin (.lookedUp i utxos) = some s') : Sound src s' := by
  simp only [MempoolSync.step] at hs
  obtain ⟨task, ht, hs⟩ := Option.bind_eq_some_iff.mp hs
  split at hs
  · next txMap hp =>
    have htask := h.tasks task (List.mem_of_getElem? ht)
    rw [hp] at htask
    obtain ⟨a, ha, hpool, hd, hun⟩ := acceptTransactions_sound h.pool htask
      (genuineUtxos_utxoMapOf (dbPrevouts txMap task.allHashes) hg)
    simp only [MempoolSync.accept, ha] at hs
    cases hs
    have hp : ProgressSound src (.done a.deferred a.unspent) := ⟨hd, hun⟩
    exact ⟨hpool.withTouched _, sound_setTask h i hp, h.current⟩
  · cases hs

private theorem sound_collect (h : Sound src s) {i : Nat}
    (hs : s.step coin (.collect i) = some s') : Sound src s' := by
  simp only [MempoolSync.step] at hs
  obtain ⟨task, ht, hs⟩ := Option.bind_eq_some_iff.mp hs
  split at hs
  · next allHashes height txMap utxoMap deferred unspent hc hp =>
    split at hs
    · cases hs
      have htask := h.tasks task (List.mem_of_getElem? ht)
      rw [hp] at htask
      obtain ⟨htx, hu⟩ := h.current _ _ _ _ hc
      refine ⟨h.pool, fun task' hm ↦ h.tasks task' (List.mem_of_mem_eraseIdx hm), ?_⟩
      intro allHashes' height' txMap' utxoMap' hc'
      cases hc'
      exact ⟨htx.update htask.1, htask.2.union hu⟩
    · cases hs
  · cases hs

private theorem sound_finish (h : Sound src s) (hs : s.step coin .finish = some s') :
    Sound src s' := by
  rw [finish_eq] at hs
  obtain ⟨pool, hp, rfl⟩ := Option.map_eq_some_iff.mp hs
  obtain ⟨_, _, txMap, utxoMap, dropped, hc, -, hr⟩ := onMempool_eq_some.mp hp
  obtain ⟨htx, hu⟩ := h.current _ _ _ _ hc
  obtain ⟨pool', dropped', he, hpool⟩ := acceptLoop_sound h.pool htx hu hr
  cases he
  exact ⟨hpool.withTouched _, h.tasks, nofun⟩

theorem Sound.step (h : Sound src s) {e : MempoolEvent} (hg : src.Answers s e)
    (hs : s.step coin e = some s') : Sound src s' := by
  cases e with
  | dbHeight height =>
    cases hs
    exact ⟨h.pool, h.tasks, h.current⟩
  | refresh allHashes height chunks =>
    simp only [MempoolSync.step] at hs
    split at hs
    · exact sound_start h hs
    · cases hs
  | spawn =>
    simp only [MempoolSync.step] at hs
    split at hs
    · cases hs
      refine ⟨h.pool, fun task hm ↦ ?_, nofun⟩
      rcases List.mem_append.mp hm with hm | hm
      · exact h.tasks task hm
      · cases List.mem_singleton.mp hm
        trivial
    · cases hs
  | check =>
    simp only [MempoolSync.step] at hs
    split at hs
    · cases hs
      refine ⟨h.pool, h.tasks, fun allHashes' height' txMap utxoMap hc ↦ ?_⟩
      split at hc
      · cases hc
      · cases hc
        exact ⟨nofun, nofun⟩
    · cases hs
  | fetched i rawTxs => exact sound_fetched h hg hs
  | lookedUp i utxos => exact sound_lookedUp h hg hs
  | collect i => exact sound_collect h hs
  | finish => exact sound_finish h hs

end Sound

/-- A task that receives its UTXOs accepts transactions without an exception. -/
theorem Sound.lookedUp_succeeds {coin : Coin} {src : Source coin} {s : MempoolSync}
    (h : Sound src s) {i : Nat} {task : FetchTask} {txMap : TxMap}
    (ht : s.tasks[i]? = some task) (hp : task.progress = .lookingUp txMap)
    {utxos : Prevout → Option Pair} (hg : src.Answers s (.lookedUp i utxos)) :
    ∃ s', s.step coin (.lookedUp i utxos) = some s' := by
  have htask := h.tasks task (List.mem_of_getElem? ht)
  rw [hp] at htask
  obtain ⟨a, ha, -⟩ := acceptTransactions_sound h.pool htask
    (genuineUtxos_utxoMapOf (dbPrevouts txMap task.allHashes) hg)
  simp only [MempoolSync.step, ht, Option.bind_eq_bind, Option.bind_some, hp, MempoolSync.accept,
    ha]
  exact ⟨_, rfl⟩

/-- A refresh that has collected all results ends without an exception. -/
theorem Sound.finish_succeeds {coin : Coin} {src : Source coin} {s : MempoolSync}
    (h : Sound src s) {allHashes : Finset Hash32} {height : Int} {txMap : TxMap}
    {utxoMap : UtxoMap} (hc : s.current = some ⟨allHashes, height, .collecting txMap utxoMap⟩)
    (htasks : ∀ task ∈ s.tasks, task.refresh ≠ s.refreshes) :
    ∃ s', s.step coin .finish = some s' := by
  obtain ⟨htx, hu⟩ := h.current _ _ _ _ hc
  obtain ⟨result, hr⟩ := acceptLoop_terminates s.pool txMap utxoMap 0
    (.inl (Nat.le_refl (txMap.length + 2)))
  obtain ⟨pool, dropped, rfl, -⟩ := acceptLoop_sound h.pool htx hu hr
  rw [finish_eq, onMempool_eq_some.mpr ⟨_, _, _, _, _, hc, htasks, hr⟩]
  exact ⟨_, rfl⟩

theorem sound_of_reach {coin : Coin} {src : Source coin} {dbHeight : Int} {s : MempoolSync}
    (r : Reach (MempoolSync.step coin) src.Answers { dbHeight } s) : Sound src s := by
  refine r.invariant ⟨⟨nofun, ?_⟩, nofun, nofun⟩ fun _ _ _ h hg hs ↦ h.step hg hs
  exact InvertedIndex.Mirrors.empty.congr fun hashX hash ↦
    ⟨False.elim, fun ⟨tx, h, _⟩ ↦ by cases h⟩

/-- In every state that is reached, the index holds for each script hash exactly the transactions
that mention it, every transaction has an input pair for each prevout, and neither the removals of
the next refresh nor the lookups of the external interface fail. -/
theorem index_mirrors {coin : Coin} {src : Source coin} {dbHeight : Int} {s : MempoolSync}
    (r : Reach (MempoolSync.step coin) src.Answers { dbHeight } s) :
    s.pool.hashXs.Mirrors (Mentions s.pool) ∧
    (∀ hash tx, s.pool.txs.lookup hash = some tx →
      ∃ inPairs, tx.inPairs = some inPairs ∧ inPairs.length = tx.prevouts.length) ∧
    (∀ allHashes, ∃ pool, s.pool.removeTxs allHashes = .ok pool) ∧
    ∀ hashX, (∃ value, s.pool.balanceDelta hashX = .ok value) ∧
      (∃ spends, s.pool.potentialSpends hashX = .ok spends) ∧
      ∃ summaries, s.pool.transactionSummaries hashX = .ok summaries := by
  have h := (sound_of_reach r).pool
  refine ⟨h.mirrors, fun hash tx ht ↦ ?_, fun allHashes ↦ ?_, fun hashX ↦
    ⟨⟨_, h.balanceDelta_eq hashX⟩, ⟨_, h.potentialSpends_eq hashX⟩,
      h.transactionSummaries_ok hashX⟩⟩
  · obtain ⟨tx', -, rfl⟩ := h.held hash tx ht
    refine ⟨_, rfl, ?_⟩
    rw [List.length_map]
    rfl
  · exact (removeTxs_sound h allHashes).imp fun pool ↦ And.left

/-! ### A sample mempool -/

def sampleHash (b : UInt8) : Hash32 := ⟨List.replicate 32 b, List.length_replicate⟩

private theorem length_padded (b : Bytes) : ((b ++ List.replicate 32 0).take 32).length = 32 := by
  simp

def sampleCoin : Coin where
  sha256 := fun b ↦ ⟨(b ++ List.replicate 32 0).take 32, length_padded b⟩
  genesisHash := []
  deserializer := fun _ _ ↦ .ok []

/-- A transaction that spends the first output of another one. -/
def sampleTx (txid parent : UInt8) : Tx where
  inputs := [{ prevHash := sampleHash parent, prevIdx := 0 }]
  outputs := [{ value := 40, pkScript := [txid] }]
  txid := sampleHash txid

/-- Transaction 2 spends a confirmed output and transaction 3 an output of 2. -/
def sampleRawTxs (hash : Hash32) : Option (Tx × Nat) :=
  if hash = sampleHash 2 then some (sampleTx 2 1, 100)
  else if hash = sampleHash 3 then some (sampleTx 3 2, 100)
  else none

def sampleSource : Source sampleCoin where
  tx := sampleRawTxs
  utxo := fun prevout ↦
    if prevout.1 = sampleHash 2 then (sampleCoin.hashXFromScript [2], 40) else (sampleHashX 1, 50)
  utxo_eq := by
    intro hash raw parent prevout hraw hp hparent
    simp only [sampleRawTxs] at hraw
    split at hraw
    · cases hraw
      have he : prevout = (sampleHash 1, 0) := List.mem_singleton.mp hp
      subst he
      have hnone : sampleRawTxs (sampleHash 1) = none := by decide
      cases hnone.symm.trans hparent
    · split at hraw
      · cases hraw
        have he : prevout = (sampleHash 2, 0) := List.mem_singleton.mp hp
        subst he
        cases hparent
        rfl
      · cases hraw

def sampleUtxos (prevout : Prevout) : Option Pair :=
  if prevout.1 = sampleHash 1 then some (sampleHashX 1, 50) else none

theorem sampleUtxos_genuine (prevout : Prevout) (utxo : Pair)
    (h : sampleUtxos prevout = some utxo) : utxo = sampleSource.utxo prevout := by
  rw [sampleUtxos] at h
  split at h
  · next hp =>
    cases h
    change _ = if prevout.1 = sampleHash 2 then _ else _
    rw [hp]
    rfl
  · cases h

/-- The child is fetched and deferred before its parent is accepted. -/
def sampleTasks : List MempoolEvent :=
  [.spawn, .spawn, .check, .fetched 0 sampleRawTxs, .fetched 1 sampleRawTxs,
    .lookedUp 0 sampleUtxos, .lookedUp 1 sampleUtxos, .collect 0, .collect 0]

def sampleEvents : List MempoolEvent :=
  .refresh {sampleHash 2, sampleHash 3} 7 [[sampleHash 3], [sampleHash 2]] ::
    (sampleTasks ++ [.finish])

theorem sampleEvents_mirror : ∃ s, runEvents (MempoolSync.step sampleCoin) (fun _ _ ↦ True)
      { dbHeight := 7 } sampleEvents = some s ∧ s.pool.txs.keys.length = 2 ∧
    s.pool.hashXs.Mirrors (Mentions s.pool) := by
  obtain ⟨s, hs, hl⟩ : ∃ s ∈ runEvents (MempoolSync.step sampleCoin) (fun _ _ ↦ True)
      { dbHeight := 7 } sampleEvents, s.pool.txs.keys.length = 2 := by decide +kernel
  have r : Reach (MempoolSync.step sampleCoin) sampleSource.Answers { dbHeight := 7 } s := by
    refine Reach.ofEvents hs fun e he t ↦ ?_
    simp only [sampleEvents, sampleTasks, List.cons_append, List.nil_append, List.mem_cons,
      List.not_mem_nil, or_false] at he
    rcases he with rfl | rfl | rfl | rfl | rfl | rfl | rfl | rfl | rfl | rfl | rfl
    all_goals first | exact trivial | exact fun _ _ ↦ id | exact sampleUtxos_genuine
  exact ⟨s, hs, hl, (index_mirrors r).1⟩

end ElectrumX.Mempool
