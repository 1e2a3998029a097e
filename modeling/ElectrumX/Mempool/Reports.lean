import ElectrumX.Mempool.Index

/-!
# What the mempool reports

Each `on_mempool` call is passed the set of script hashes touched since the last one. A change of
the index is in the set of the refresh that made it; the tasks of an aborted refresh keep the set
that they were spawned with, which has been handed over once a later refresh has succeeded.
-/

namespace ElectrumX.Mempool
open ElectrumX.Base ElectrumX.Lib ElectrumX.Server

/-- The states of a run, with the index at the start of the last `on_mempool` call. -/
inductive Reporting (coin : Coin) (guard : MempoolSync → MempoolEvent → Prop) (dbHeight : Int) :
    MempoolSync → InvertedIndex HashX Hash32 → Prop
  | start : Reporting coin guard dbHeight { dbHeight } ∅
  | step {s s' : MempoolSync} {last : InvertedIndex HashX Hash32} {e : MempoolEvent}
      (r : Reporting coin guard dbHeight s last) (hg : guard s e) (he : e ≠ .finish)
      (h : s.step coin e = some s') : Reporting coin guard dbHeight s' last
  | reported {s s' : MempoolSync} {last : InvertedIndex HashX Hash32}
      (r : Reporting coin guard dbHeight s last) (hg : guard s .finish)
      (h : s.step coin .finish = some s') : Reporting coin guard dbHeight s' s'.pool.hashXs

/-- A script hash has the same transactions in two indexes. -/
def SameItems (x y : InvertedIndex HashX Hash32) (hashX : HashX) : Prop :=
  ∀ hash, hash ∈ x.items hashX ↔ hash ∈ y.items hashX

/-- The `on_mempool` call that comes next is passed every script hash whose transactions are not
those of the last call. -/
def ReportsChanges (s : MempoolSync) (last : InvertedIndex HashX Hash32) : Prop :=
  ∀ pool, onMempool s = some pool → ∀ hashX, ¬SameItems pool.hashXs last hashX →
    hashX ∈ pool.touched

/-- A task that completes after an `on_mempool` call began since it was spawned finds held
whatever it can accept. -/
def CompletesInTime (s : MempoolSync) : MempoolEvent → Prop
  | .lookedUp i utxos => ∀ task txMap, s.tasks[i]? = some task →
      task.progress = .lookingUp txMap → task.reports ≠ s.reports →
      ∀ e ∈ txMap, (∀ prevout ∈ e.2.prevouts,
        Available s.pool (utxoMapOf (dbPrevouts txMap task.allHashes) utxos) prevout) →
          e.1 ∈ s.pool.txs
  | _ => True

/-! ### What a step changes -/

/-- The script hashes whose transactions have changed are touched. -/
structure Touches (pool pool' : MemPool) : Prop where
  changed : ∀ hashX, ¬SameItems pool'.hashXs pool.hashXs hashX → hashX ∈ pool'.touched
  subset : pool.touched ⊆ pool'.touched

theorem Touches.refl (pool : MemPool) : Touches pool pool :=
  ⟨fun _ h ↦ absurd (fun _ ↦ Iff.rfl) h, Finset.Subset.refl _⟩

theorem Touches.trans {a b c : MemPool} (h : Touches a b) (h' : Touches b c) : Touches a c where
  changed hashX hne := by
    by_cases hbc : SameItems c.hashXs b.hashXs hashX
    · refine h'.subset (h.changed hashX fun hab ↦ hne fun hash ↦ ?_)
      exact (hbc hash).trans (hab hash)
    · exact h'.changed hashX hbc
  subset := h.subset.trans h'.subset

theorem touches_hold (pool : MemPool) (hash : Hash32) (tx : MemPoolTx) :
    Touches pool (pool.hold hash tx) where
  changed hashX hne := by
    refine Finset.mem_union_right _ (List.mem_toFinset.mpr ?_)
    by_contra hx
    refine hne fun hash' ↦ ?_
    rw [MemPool.hold, InvertedIndex.mem_items_addAll]
    tauto
  subset := Finset.subset_union_left

theorem touches_removeTx {pool pool' : MemPool} {hash : Hash32}
    (h : pool.removeTx hash = .ok pool') : Touches pool pool' := by
  simp only [MemPool.removeTx] at h
  split at h
  · cases h
  · split at h
    · cases h
    · split at h
      · cases h
      · next hashXs hr =>
        cases h
        refine ⟨fun hashX hne ↦ ?_, Finset.subset_union_left⟩
        refine Finset.mem_union_right _ (List.mem_toFinset.mpr ?_)
        by_contra hx
        refine hne fun hash' ↦ ?_
        change hash' ∈ hashXs.items hashX ↔ _
        rw [InvertedIndex.items_removeAll hr hx]

theorem touches_removeTxs {pool pool' : MemPool} {allHashes : Finset Hash32}
    (h : pool.removeTxs allHashes = .ok pool') : Touches pool pool' := by
  rw [MemPool.removeTxs] at h
  generalize pool.txs.keys.filter (· ∉ allHashes) = hashes at h
  induction hashes generalizing pool with
  | nil =>
    cases h
    exact .refl _
  | cons hash rest ih =>
    rw [List.foldlM_cons] at h
    obtain ⟨pool1, h1, h2⟩ := bind_eq_ok.mp h
    exact (touches_removeTx h1).trans (ih h2)

theorem touches_acceptTransactions {pool : MemPool} {txMap : TxMap} {utxoMap : UtxoMap}
    {a : MemPool.Acceptance} (h : pool.acceptTransactions txMap utxoMap = .ok a) :
    Touches pool a.pool := by
  have hloop : ∀ (txMap : TxMap) (a a' : MemPool.Acceptance),
      txMap.foldlM (MemPool.acceptTx utxoMap) a = .ok a' → Touches a.pool a'.pool := by
    intro txMap
    induction txMap with
    | nil =>
      intro a a' h
      cases h
      exact .refl _
    | cons e rest ih =>
      intro a a' h
      rw [List.foldlM_cons] at h
      obtain ⟨a1, h1, h2⟩ := bind_eq_ok.mp h
      refine Touches.trans ?_ (ih a1 a' h2)
      rcases acceptTx_cases h1 with ⟨inPairs, -, rfl⟩ | ⟨-, rfl⟩
      · exact touches_hold _ _ _
      · exact .refl _
  exact hloop txMap _ a h

theorem touches_acceptLoop {fuel : Nat} {pool pool' : MemPool} {txMap dropped : TxMap}
    {utxoMap : UtxoMap} {priorCount : Nat}
    (h : pool.acceptLoop fuel txMap utxoMap priorCount = some (.ok (pool', dropped))) :
    Touches pool pool' := by
  induction fuel generalizing pool txMap utxoMap priorCount with
  | zero => cases h
  | succ fuel ih =>
    rw [MemPool.acceptLoop] at h
    split at h
    · cases ha : pool.acceptTransactions txMap utxoMap with
      | error e =>
        rw [ha] at h
        cases h
      | ok a =>
        rw [ha] at h
        exact (touches_acceptTransactions ha).trans (ih h)
    · cases h
      exact .refl _

theorem touches_onMempool {s : MempoolSync} {pool : MemPool} (h : onMempool s = some pool) :
    Touches s.pool pool := by
  obtain ⟨_, _, _, _, _, -, -, hloop⟩ := onMempool_eq_some.mp h
  exact touches_acceptLoop hloop

section Late

variable {coin : Coin} {src : Source coin}

/-- A transaction that is held already is accepted once more without a change of the index. -/
theorem PoolSound.sameItems_hold {pool : MemPool} (h : PoolSound src pool) {hash : Hash32}
    {tx : MemPoolTx} (htx : src.memPoolTx hash = some tx) (hm : hash ∈ pool.txs) (hashX : HashX) :
    SameItems (pool.hold hash (tx.accepted (tx.prevouts.map src.utxo))).hashXs pool.hashXs
      hashX := by
  obtain ⟨tx', ht⟩ := Option.isSome_iff_exists.mp (AList.lookup_isSome.mpr hm)
  obtain ⟨tx0, htx0, rfl⟩ := h.held hash tx' ht
  cases htx.symm.trans htx0
  intro hash'
  rw [MemPool.hold, InvertedIndex.mem_items_addAll]
  refine or_iff_left_of_imp ?_
  rintro ⟨hx, rfl⟩
  exact (h.mirrors.mem hashX hash').mpr ⟨_, ht, hx⟩

private theorem available_of_inPairs {pool : MemPool} {utxoMap : UtxoMap}
    {prevouts : List Prevout} {inPairs : List Pair}
    (h : List.Forall₂ (fun prevout pair ↦ pool.inPair utxoMap prevout = .ok pair) prevouts
      inPairs) : ∀ prevout ∈ prevouts, Available pool utxoMap prevout := by
  induction h with
  | nil => simp
  | cons hpair _ ih =>
    intro prevout hp
    rcases List.mem_cons.mp hp with rfl | hp
    · by_contra hno
      cases hpair.symm.trans (inPair_eq_keyError.mpr hno)
    · exact ih prevout hp

/-- Acceptance changes nothing when whatever can be accepted is held already. -/
theorem PoolSound.sameItems_acceptTransactions {pool : MemPool} (h : PoolSound src pool)
    {txMap : TxMap} (ht : Genuine src txMap) {utxoMap : UtxoMap} (hu : GenuineUtxos src utxoMap)
    (hheld : ∀ e ∈ txMap, (∀ prevout ∈ e.2.prevouts, Available pool utxoMap prevout) →
      e.1 ∈ pool.txs)
    {a : MemPool.Acceptance} (ha : pool.acceptTransactions txMap utxoMap = .ok a) (hashX : HashX) :
    SameItems a.pool.hashXs pool.hashXs hashX := by
  have hloop : ∀ (rest : TxMap), (∀ e ∈ rest, e ∈ txMap) → ∀ b b' : MemPool.Acceptance,
      PoolSound src b.pool → (∀ hash, hash ∈ b.pool.txs ↔ hash ∈ pool.txs) →
      SameItems b.pool.hashXs pool.hashXs hashX →
      rest.foldlM (MemPool.acceptTx utxoMap) b = .ok b' →
      SameItems b'.pool.hashXs pool.hashXs hashX := by
    intro rest
    induction rest with
    | nil =>
      intro _ b b' _ _ hsame hb
      cases hb
      exact hsame
    | cons e rest ih =>
      intro hsub b b' hb hkeys hsame hrun
      rw [List.foldlM_cons] at hrun
      obtain ⟨b1, h1, h2⟩ := bind_eq_ok.mp hrun
      have he := hsub e List.mem_cons_self
      have hrest : ∀ e ∈ rest, e ∈ txMap := fun x hx ↦ hsub x (List.mem_cons_of_mem _ hx)
      rcases acceptTx_cases h1 with ⟨inPairs, hin, rfl⟩ | ⟨-, rfl⟩
      · have havail : ∀ prevout ∈ e.2.prevouts, Available pool utxoMap prevout :=
          fun prevout hp ↦ (available_of_inPairs hin prevout hp).imp_right (hkeys _).mp
        have hmem := (hkeys e.1).mpr (hheld e he havail)
        cases hb.inPairs_eq hu (ht e he) (List.Subset.refl _) hin
        refine ih hrest _ b' (hb.hold (ht e he)) (fun hash ↦ ?_) (fun hash ↦ ?_) h2
        · rw [MemPool.hold, AList.mem_insert, hkeys]
          refine or_iff_right_of_imp ?_
          rintro rfl
          exact (hkeys _).mp hmem
        · exact (hb.sameItems_hold (ht e he) hmem hashX hash).trans (hsame hash)
      · exact ih hrest { b with deferred := b.deferred ++ [e] } b' hb hkeys hsame h2
  exact hloop txMap (fun _ h ↦ h) _ a h (fun _ ↦ Iff.rfl) (fun _ ↦ Iff.rfl) ha

/-- Between two calls the changes of a step are touched. -/
theorem Sound.touches {s s' : MempoolSync} (h : Sound src s) {e : MempoolEvent}
    (hg : src.Answers s e) (hc : CompletesInTime s e) (he : e ≠ .finish)
    (hs : s.step coin e = some s') : Touches s.pool s'.pool := by
  cases e with
  | dbHeight height =>
    cases hs
    exact .refl _
  | refresh allHashes height chunks =>
    simp only [MempoolSync.step] at hs
    split at hs
    · rw [MempoolSync.start] at hs
      split at hs
      · cases hs
        exact .refl _
      · split at hs
        · cases hs
        · next pool hp =>
          split at hs
          · cases hs
            exact touches_removeTxs hp
          · cases hs
    · cases hs
  | spawn =>
    simp only [MempoolSync.step] at hs
    split at hs
    · cases hs
      exact .refl _
    · cases hs
  | check =>
    simp only [MempoolSync.step] at hs
    split at hs
    · cases hs
      exact .refl _
    · cases hs
  | fetched i rawTxs =>
    simp only [MempoolSync.step] at hs
    obtain ⟨task, -, hs⟩ := Option.bind_eq_some_iff.mp hs
    split at hs
    · cases hs
      exact .refl _
    · cases hs
  | lookedUp i utxos =>
    simp only [MempoolSync.step] at hs
    obtain ⟨task, htask, hs⟩ := Option.bind_eq_some_iff.mp hs
    split at hs
    · next txMap hp =>
      have hgenuine := h.tasks task (List.mem_of_getElem? htask)
      rw [hp] at hgenuine
      have hutxos := genuineUtxos_utxoMapOf (dbPrevouts txMap task.allHashes) hg
      simp only [MempoolSync.accept] at hs
      split at hs
      · cases hs
      · next a ha =>
        cases hs
        have ht := touches_acceptTransactions ha
        by_cases hlate : task.reports = s.reports
        · rw [if_pos hlate]
          exact ht
        · rw [if_neg hlate]
          refine ⟨fun hashX hne ↦ absurd ?_ hne, Finset.Subset.refl _⟩
          exact h.pool.sameItems_acceptTransactions hgenuine hutxos
            (hc task txMap htask hp hlate) ha hashX
    · cases hs
  | collect i =>
    simp only [MempoolSync.step] at hs
    obtain ⟨task, -, hs⟩ := Option.bind_eq_some_iff.mp hs
    split at hs
    · split at hs
      · cases hs
        exact .refl _
      · cases hs
    · cases hs
  | finish => exact absurd rfl he

/-- What has changed since the last call is touched. -/
def Pending (last : InvertedIndex HashX Hash32) (pool : MemPool) : Prop :=
  ∀ hashX, ¬SameItems pool.hashXs last hashX → hashX ∈ pool.touched

theorem Pending.touches {last : InvertedIndex HashX Hash32} {pool pool' : MemPool}
    (h : Pending last pool) (ht : Touches pool pool') : Pending last pool' := by
  intro hashX hne
  by_cases hsame : SameItems pool'.hashXs pool.hashXs hashX
  · refine ht.subset (h hashX fun hp ↦ hne fun hash ↦ ?_)
    exact (hsame hash).trans (hp hash)
  · exact ht.changed hashX hsame

theorem Reporting.pending {dbHeight : Int} {s : MempoolSync} {last : InvertedIndex HashX Hash32}
    (r : Reporting coin (fun s e ↦ src.Answers s e ∧ CompletesInTime s e) dbHeight s last) :
    Sound src s ∧ Pending last s.pool := by
  induction r with
  | start =>
    exact ⟨sound_of_reach .refl, fun hashX hne ↦ absurd (fun _ ↦ Iff.rfl) hne⟩
  | step _ hg he h ih =>
    exact ⟨ih.1.step hg.1 h, ih.2.touches (ih.1.touches hg.1 hg.2 he h)⟩
  | reported _ hg h ih =>
    exact ⟨ih.1.step hg.1 h, fun hashX hne ↦ absurd (fun _ ↦ Iff.rfl) hne⟩

end Late

/-- In a run in which the tasks of an aborted refresh that complete after an `on_mempool` call find
held whatever they can accept, every call is passed the script hashes whose transactions have
changed since the last one. -/
theorem changes_reported {coin : Coin} {src : Source coin} {dbHeight : Int} {s : MempoolSync}
    {last : InvertedIndex HashX Hash32}
    (r : Reporting coin (fun s e ↦ src.Answers s e ∧ CompletesInTime s e) dbHeight s last) :
    ReportsChanges s last :=
  fun _ hpool ↦ r.pending.2.touches (touches_onMempool hpool)

/-! ### Samples -/

/-- Events other than `finish` that meet a guard continue a run. -/
theorem Reporting.ofEvents {coin : Coin} {guard P : MempoolSync → MempoolEvent → Prop}
    [∀ s, DecidablePred (P s)] {dbHeight : Int} {s s' : MempoolSync}
    {last : InvertedIndex HashX Hash32} {es : List MempoolEvent}
    (hP : ∀ e ∈ es, e ≠ .finish ∧ ∀ t, P t e → guard t e)
    (r : Reporting coin guard dbHeight s last)
    (h : runEvents (MempoolSync.step coin) P s es = some s') :
    Reporting coin guard dbHeight s' last := by
  induction es generalizing s with
  | nil =>
    cases h
    exact r
  | cons e es ih =>
    rw [runEvents, List.foldlM_cons] at h
    obtain ⟨t, ht, h⟩ := Option.bind_eq_some_iff.mp h
    split at ht
    · next hg =>
      obtain ⟨hne, he⟩ := hP e List.mem_cons_self
      exact ih (fun x hx ↦ hP x (List.mem_cons_of_mem _ hx)) (r.step (he s hg) hne ht) h
    · cases ht

/-- All tasks have been spawned since the last call. -/
def AllInTime (s : MempoolSync) (_ : MempoolEvent) : Prop :=
  ∀ task ∈ s.tasks, task.reports = s.reports

instance (s : MempoolSync) : DecidablePred (AllInTime s) :=
  fun _ ↦ inferInstanceAs (Decidable (∀ task ∈ s.tasks, task.reports = s.reports))

theorem AllInTime.completesInTime {s : MempoolSync} {e : MempoolEvent} (h : AllInTime s e) :
    CompletesInTime s e := by
  cases e with
  | lookedUp i utxos =>
    intro task txMap ht _ hlate
    exact absurd (h task (List.mem_of_getElem? ht)) hlate
  | _ => trivial

/-- A refresh that accepts a transaction and is about to report it. -/
def sampleRefresh : List MempoolEvent :=
  [.refresh {sampleHash 2} 7 [[sampleHash 2]], .spawn, .check, .fetched 0 sampleRawTxs,
    .lookedUp 0 sampleUtxos, .collect 0]

theorem sampleRefresh_reports : ∃ s, runEvents (MempoolSync.step sampleCoin) AllInTime
      { dbHeight := 7 } sampleRefresh = some s ∧ ReportsChanges s ∅ ∧
    ∃ pool, onMempool s = some pool ∧ sampleHashX 1 ∈ pool.touched := by
  obtain ⟨s, hs, pool, hp, hitems⟩ : ∃ s ∈ runEvents (MempoolSync.step sampleCoin) AllInTime
      { dbHeight := 7 } sampleRefresh, ∃ pool ∈ onMempool s,
        sampleHash 2 ∈ pool.hashXs.items (sampleHashX 1) := by decide +kernel
  have r : Reporting sampleCoin (fun s e ↦ sampleSource.Answers s e ∧ CompletesInTime s e) 7 s
      ∅ := by
    refine Reporting.ofEvents (fun e he ↦ ?_) .start hs
    simp only [sampleRefresh, List.mem_cons, List.not_mem_nil, or_false] at he
    rcases he with rfl | rfl | rfl | rfl | rfl | rfl
    all_goals refine ⟨nofun, fun t ht ↦ ⟨?_, ht.completesInTime⟩⟩
    all_goals first | exact trivial | exact fun _ _ ↦ id | exact sampleUtxos_genuine
  have hreports := changes_reported r
  refine ⟨s, hs, hreports, pool, hp, hreports pool hp _ fun hsame ↦ ?_⟩
  have := (hsame (sampleHash 2)).mp hitems
  simp [InvertedIndex.items] at this

/-- A refresh is aborted and leaves a task; the next one lists no transaction. -/
def sampleAborted : List MempoolEvent :=
  [.refresh {sampleHash 2} 7 [[sampleHash 2]], .spawn, .dbHeight 8, .check, .refresh ∅ 8 []]

/-- The task completes after the call of that refresh; the one after it lists the transaction,
which is held by then. -/
def sampleLate : List MempoolEvent :=
  [.fetched 0 sampleRawTxs, .lookedUp 0 sampleUtxos, .refresh {sampleHash 2} 8 []]

/-- The states before and after the call, and before the next one. -/
def sampleLateRun : Option (MempoolSync × MempoolSync × MempoolSync) := do
  let s1 ← runEvents (MempoolSync.step sampleCoin) (fun _ _ ↦ True) { dbHeight := 7 } sampleAborted
  let s2 ← s1.step sampleCoin .finish
  let s3 ← runEvents (MempoolSync.step sampleCoin) (fun _ _ ↦ True) s2 sampleLate
  return (s1, s2, s3)

theorem not_changes_reported : ¬∀ (coin : Coin) (src : Source coin) (dbHeight : Int)
    (s : MempoolSync) (last : InvertedIndex HashX Hash32),
    Reporting coin src.Answers dbHeight s last → ReportsChanges s last := by
  intro hall
  obtain ⟨t, ht, hlast, pool, hp, hitems, htouched⟩ : ∃ t ∈ sampleLateRun,
      t.2.1.pool.hashXs.items (sampleHashX 1) = [] ∧ ∃ pool ∈ onMempool t.2.2,
        sampleHash 2 ∈ pool.hashXs.items (sampleHashX 1) ∧ sampleHashX 1 ∉ pool.touched := by
    decide +kernel
  rw [Option.mem_def, sampleLateRun] at ht
  obtain ⟨s1, h1, ht⟩ := Option.bind_eq_some_iff.mp ht
  obtain ⟨s2, h2, ht⟩ := Option.bind_eq_some_iff.mp ht
  obtain ⟨s3, h3, ht⟩ := Option.bind_eq_some_iff.mp ht
  cases ht
  have r1 : Reporting sampleCoin sampleSource.Answers 7 s1 ∅ := by
    refine Reporting.ofEvents (fun e he ↦ ?_) .start h1
    simp only [sampleAborted, List.mem_cons, List.not_mem_nil, or_false] at he
    rcases he with rfl | rfl | rfl | rfl | rfl
    all_goals exact ⟨nofun, fun _ _ ↦ trivial⟩
  have r3 : Reporting sampleCoin sampleSource.Answers 7 s3 s2.pool.hashXs := by
    refine Reporting.ofEvents (fun e he ↦ ?_) (r1.reported trivial h2) h3
    simp only [sampleLate, List.mem_cons, List.not_mem_nil, or_false] at he
    rcases he with rfl | rfl | rfl
    all_goals refine ⟨nofun, fun t _ ↦ ?_⟩
    all_goals first | exact trivial | exact fun _ _ ↦ id | exact sampleUtxos_genuine
  refine htouched (hall _ _ _ _ _ r3 pool hp _ fun hsame ↦ ?_)
  have hmem := (hsame (sampleHash 2)).mp hitems
  rw [hlast] at hmem
  exact List.not_mem_nil hmem

end ElectrumX.Mempool
