import ElectrumX.Mempool.Index

/-!
# What a refresh accepts

A refresh that is not aborted leaves the transactions that were held and are still listed, and
the least set of new ones whose prevouts are all known. Neither the chunks nor the order in which
their tasks complete matters: a task hands back the UTXOs that it did not spend together with the
transactions that wait for a parent in another chunk.
-/

namespace ElectrumX.Mempool
open ElectrumX.Base ElectrumX.Lib ElectrumX.Server

/-- What a refresh works on: the listed hashes, the transactions held before, what the daemon
returns for a hash, and what the DB finds for a prevout. -/
structure Listing where
  coin : Coin
  allHashes : Finset Hash32
  before : Dict Hash32 MemPoolTx
  fetch : Hash32 → Option (Tx × Nat)
  db : Prevout → Option Pair

namespace Listing

variable (L : Listing)

/-- A transaction that was held and is still listed. -/
def held (hash : Hash32) : Option MemPoolTx :=
  if hash ∈ L.allHashes then L.before.lookup hash else none

/-- A hash that is listed and was not held. -/
def New (hash : Hash32) : Prop := hash ∈ L.allHashes ∧ L.before.lookup hash = none

instance (hash : Hash32) : Decidable (L.New hash) := inferInstanceAs (Decidable (_ ∧ _))

/-- A new transaction, as it is fetched. -/
def fresh (hash : Hash32) : Option MemPoolTx :=
  if L.New hash then (L.fetch hash).map fun raw ↦ MemPoolTx.ofTx L.coin raw.1 raw.2 else none

/-- The outputs of a listed transaction. -/
def outPairs (hash : Hash32) : List Pair :=
  match L.held hash, L.fresh hash with
  | some tx, _ | none, some tx => tx.outPairs
  | none, none => []

/-- The value of a prevout: the output of its transaction if that is listed, and else what the DB
finds. -/
def pairOf (prevout : Prevout) : Option Pair :=
  if prevout.1 ∈ L.allHashes then (L.outPairs prevout.1)[prevout.2]? else L.db prevout

/-- The least set of new transactions each of whose prevouts has a value and, if its transaction
is listed, is an output of one that is held or in the set. -/
inductive Accepted : Hash32 → Prop
  | intro {hash : Hash32} {tx : MemPoolTx} (h : L.fresh hash = some tx)
      (hpair : ∀ prevout ∈ tx.prevouts, (L.pairOf prevout).isSome)
      (hparent : ∀ prevout ∈ tx.prevouts, prevout.1 ∈ L.allHashes → L.held prevout.1 = none →
        Accepted prevout.1) : Accepted hash

/-- A transaction of the mempool after the refresh: one that was held, or an accepted one with the
values of its prevouts in order and its fee. -/
def Final (hash : Hash32) (tx : MemPoolTx) : Prop :=
  L.held hash = some tx ∨ L.Accepted hash ∧ ∃ tx' inPairs, L.fresh hash = some tx' ∧
    List.Forall₂ (fun prevout pair ↦ L.pairOf prevout = some pair) tx'.prevouts inPairs ∧
    tx = { tx' with
      inPairs := some inPairs
      fee := max 0 ((inPairs.map Prod.snd).sum - (tx'.outPairs.map Prod.snd).sum) }

/-- No two new transactions spend the same output. -/
def NoDoubleSpends : Prop := ∀ hash hash' tx tx' prevout, L.fresh hash = some tx →
  L.fresh hash' = some tx' → prevout ∈ tx.prevouts → prevout ∈ tx'.prevouts → hash = hash'

/-! ### Invariants -/

/-- The mempool in the course of the refresh. -/
structure PoolSpec (pool : MemPool) : Prop where
  final : ∀ hash tx, pool.txs.lookup hash = some tx → L.Final hash tx
  held : ∀ hash tx, L.held hash = some tx → pool.txs.lookup hash = some tx

/-- The transactions are new ones as they are fetched. -/
def Fresh (txMap : TxMap) : Prop := ∀ e ∈ txMap, L.fresh e.1 = some e.2

/-- The UTXOs are what the DB finds. -/
def Utxos (utxoMap : UtxoMap) : Prop :=
  ∀ prevout utxo, utxoMap.lookup prevout = some utxo →
    prevout.1 ∉ L.allHashes ∧ utxo = L.db prevout

/-- Each transaction comes with the UTXOs that it spends, or is accepted already. -/
def Ready (pool : MemPool) (txMap : TxMap) (utxoMap : UtxoMap) : Prop :=
  ∀ e ∈ txMap, e.1 ∈ pool.txs ∨ ∀ prevout ∈ e.2.prevouts, prevout.1 ∉ L.allHashes →
    utxoMap.lookup prevout = some (L.db prevout)

/-- Each transaction has a prevout that is not known. -/
def Stuck (pool : MemPool) (txMap : TxMap) (utxoMap : UtxoMap) : Prop :=
  ∀ e ∈ txMap, ∃ prevout ∈ e.2.prevouts, ¬ Available pool utxoMap prevout

variable {L} {pool : MemPool} {utxoMap : UtxoMap}

theorem held_eq_none_of_fresh {hash : Hash32} {tx : MemPoolTx} (h : L.fresh hash = some tx) :
    L.held hash = none := by
  rw [fresh] at h
  split at h
  · next hnew => rw [held, if_pos hnew.1, hnew.2]
  · cases h

theorem mem_of_fresh {hash : Hash32} {tx : MemPoolTx} (h : L.fresh hash = some tx) :
    hash ∈ L.allHashes := by
  rw [fresh] at h
  split at h
  · next hnew => exact hnew.1
  · cases h

theorem mem_of_held {hash : Hash32} {tx : MemPoolTx} (h : L.held hash = some tx) :
    hash ∈ L.allHashes := by
  rw [held] at h
  split at h
  · assumption
  · cases h

theorem Final.outPairs_eq {hash : Hash32} {tx : MemPoolTx} (h : L.Final hash tx) :
    L.outPairs hash = tx.outPairs := by
  rcases h with h | ⟨-, tx', inPairs, h, -, rfl⟩
  · rw [outPairs, h]
  · rw [outPairs, held_eq_none_of_fresh h, h]

theorem Final.unique {hash : Hash32} {tx tx' : MemPoolTx} (h : L.Final hash tx)
    (h' : L.Final hash tx') : tx = tx' := by
  have hpairs {prevouts : List Prevout} {inPairs inPairs' : List Pair}
      (h : List.Forall₂ (fun prevout pair ↦ L.pairOf prevout = some pair) prevouts inPairs)
      (h' : List.Forall₂ (fun prevout pair ↦ L.pairOf prevout = some pair) prevouts inPairs') :
      inPairs = inPairs' := by
    induction h generalizing inPairs' with
    | nil =>
      cases h'
      rfl
    | cons hp _ ih =>
      cases h' with
      | cons hp' h' => rw [Option.some.inj (hp.symm.trans hp'), ih h']
  rcases h with h | ⟨-, tx₁, inPairs, hf, hp, rfl⟩
  · rcases h' with h' | ⟨-, tx₂, inPairs', hf', -⟩
    · exact Option.some.inj (h.symm.trans h')
    · cases h.symm.trans (held_eq_none_of_fresh hf')
  · rcases h' with h' | ⟨-, tx₂, inPairs', hf', hp', rfl⟩
    · cases h'.symm.trans (held_eq_none_of_fresh hf)
    · cases hf.symm.trans hf'
      rw [hpairs hp hp']

theorem Final.mem {hash : Hash32} {tx : MemPoolTx} (h : L.Final hash tx) :
    hash ∈ L.allHashes := by
  rcases h with h | ⟨-, tx', inPairs, h, -⟩
  · exact mem_of_held h
  · exact mem_of_fresh h

/-- A value that the code finds is that of the prevout. -/
theorem PoolSpec.pairOf_eq (h : L.PoolSpec pool) (hu : L.Utxos utxoMap) {prevout : Prevout}
    {pair : Pair} (hp : pool.inPair utxoMap prevout = .ok pair) :
    L.pairOf prevout = some pair ∧
      (prevout.1 ∈ L.allHashes → prevout.1 ∈ pool.txs) := by
  rw [MemPool.inPair] at hp
  split at hp
  · next utxo hl =>
    cases hp
    obtain ⟨hnot, he⟩ := hu prevout _ hl
    exact ⟨by rw [pairOf, if_neg hnot, he], fun hm ↦ absurd hm hnot⟩
  · split at hp
    · cases hp
    · next tx ht =>
      have hf := h.final _ _ ht
      rw [getItem] at hp
      split at hp
      · next pair' hget =>
        cases hp
        rw [pairOf, if_pos hf.mem, hf.outPairs_eq]
        exact ⟨hget, fun _ ↦ AList.lookup_isSome.mp (Option.isSome_of_mem ht)⟩
      · cases hp

/-- A transaction that is accepted belongs to the set. -/
theorem PoolSpec.hold (h : L.PoolSpec pool) (hu : L.Utxos utxoMap) {hash : Hash32}
    {tx : MemPoolTx} (htx : L.fresh hash = some tx) {inPairs : List Pair}
    (hin : List.Forall₂ (fun prevout pair ↦ pool.inPair utxoMap prevout = .ok pair)
      tx.prevouts inPairs) : L.PoolSpec (pool.hold hash (tx.accepted inPairs)) := by
  have hpairs : List.Forall₂ (fun prevout pair ↦ L.pairOf prevout = some pair)
      tx.prevouts inPairs := hin.imp fun _ _ hp ↦ (h.pairOf_eq hu hp).1
  have hacc : L.Accepted hash := by
    have hmem (prevout : Prevout) (hp : prevout ∈ tx.prevouts) :
        ∃ pair, pool.inPair utxoMap prevout = .ok pair := by
      obtain ⟨i, hi, rfl⟩ := List.mem_iff_getElem.mp hp
      exact ⟨_, hin.get hi (by rwa [← hin.length_eq])⟩
    refine .intro htx (fun prevout hp ↦ ?_) fun prevout hp hlisted hnone ↦ ?_
    · obtain ⟨pair, hpair⟩ := hmem prevout hp
      rw [(h.pairOf_eq hu hpair).1]
      rfl
    · obtain ⟨pair, hpair⟩ := hmem prevout hp
      have hin := (h.pairOf_eq hu hpair).2 hlisted
      obtain ⟨tx', ht⟩ := Option.isSome_iff_exists.mp (AList.lookup_isSome.mpr hin)
      rcases h.final _ _ ht with hheld | ⟨hacc, -⟩
      · cases hnone.symm.trans hheld
      · exact hacc
  refine ⟨fun hash' tx' ht ↦ ?_, fun hash' tx' hheld ↦ ?_⟩
  · by_cases he : hash' = hash
    · subst he
      rw [MemPool.hold, AList.lookup_insert, Option.some_inj] at ht
      exact .inr ⟨hacc, tx, inPairs, htx, hpairs, ht.symm⟩
    · rw [MemPool.hold, AList.lookup_insert_ne he] at ht
      exact h.final hash' tx' ht
  · have hne : hash' ≠ hash := by
      rintro rfl
      cases (held_eq_none_of_fresh htx).symm.trans hheld
    rw [MemPool.hold, AList.lookup_insert_ne hne]
    exact h.held hash' tx' hheld

/-! ### One pass over the transactions -/

theorem mem_hold {hash hash' : Hash32} {tx : MemPoolTx} :
    hash ∈ (pool.hold hash' tx).txs ↔ hash = hash' ∨ hash ∈ pool.txs := AList.mem_insert _

theorem mem_acceptTx {a a' : MemPool.Acceptance} {e : Hash32 × MemPoolTx}
    (h : MemPool.acceptTx utxoMap a e = .ok a') {hash : Hash32} (hm : hash ∈ a.pool.txs) :
    hash ∈ a'.pool.txs := by
  rcases acceptTx_cases h with ⟨inPairs, -, rfl⟩ | ⟨-, rfl⟩
  · exact mem_hold.mpr (.inr hm)
  · exact hm

/-- Transactions stay in the mempool while others are accepted. -/
theorem mem_acceptTransactions {txMap : TxMap} {a : MemPool.Acceptance}
    (h : pool.acceptTransactions txMap utxoMap = .ok a) {hash : Hash32} (hm : hash ∈ pool.txs) :
    hash ∈ a.pool.txs :=
  foldlM_invariant (P := fun t ↦ hash ∈ t.pool.txs) h hm fun _ _ _ _ ht hs ↦ mem_acceptTx hs ht

/-- A transaction is accepted or deferred. -/
theorem mem_or_deferred {txMap : TxMap} {a : MemPool.Acceptance}
    (h : pool.acceptTransactions txMap utxoMap = .ok a) {e : Hash32 × MemPoolTx}
    (he : e ∈ txMap) : e.1 ∈ a.pool.txs ∨ e ∈ a.deferred := by
  obtain ⟨before, after, rfl⟩ := List.append_of_mem he
  rw [MemPool.acceptTransactions, List.foldlM_append, bind_eq_ok] at h
  obtain ⟨a1, -, h⟩ := h
  rw [List.foldlM_cons, bind_eq_ok] at h
  obtain ⟨a2, h2, h⟩ := h
  refine foldlM_invariant (P := fun t ↦ e.1 ∈ t.pool.txs ∨ e ∈ t.deferred) h ?_ ?_
  · rcases acceptTx_cases h2 with ⟨inPairs, -, rfl⟩ | ⟨-, rfl⟩
    · exact .inl (mem_hold.mpr (.inl rfl))
    · exact .inr (List.mem_append_right _ List.mem_cons_self)
  · intro t t' x _ ht hs
    rcases ht with ht | ht
    · exact .inl (mem_acceptTx hs ht)
    · right
      rcases acceptTx_cases hs with ⟨inPairs, -, rfl⟩ | ⟨-, rfl⟩
      · exact ht
      · exact List.mem_append_left _ ht

/-- A pass that defers everything changes nothing, and no transaction has all its prevouts
known. -/
theorem stuck_of_length_eq {txMap : TxMap} {a : MemPool.Acceptance}
    (h : pool.acceptTransactions txMap utxoMap = .ok a)
    (hlen : a.deferred.length = txMap.length) : Stuck a.pool a.deferred a.unspent := by
  have hall : a.pool = pool ∧ a.unspent = utxoMap ∧ a.deferred = txMap ∧
      Stuck pool txMap utxoMap := by
    have hloop : ∀ (txMap : TxMap) (t a : MemPool.Acceptance),
        txMap.foldlM (MemPool.acceptTx utxoMap) t = .ok a →
        a.deferred.length ≤ t.deferred.length + txMap.length ∧
        (a.deferred.length = t.deferred.length + txMap.length → a.pool = t.pool ∧
          a.unspent = t.unspent ∧ Stuck t.pool txMap utxoMap) := by
      intro txMap
      induction txMap with
      | nil =>
        intro t a h
        cases h
        exact ⟨Nat.le_refl _, fun _ ↦ ⟨rfl, rfl, nofun⟩⟩
      | cons e txMap ih =>
        intro t a h
        rw [List.foldlM_cons, bind_eq_ok] at h
        obtain ⟨t1, h1, h⟩ := h
        obtain ⟨hle, heq⟩ := ih t1 a h
        rw [List.length_cons]
        rcases acceptTx_cases h1 with ⟨inPairs, -, rfl⟩ | ⟨hstuck, rfl⟩
        · simp only at hle
          exact ⟨by omega, fun hl ↦ by omega⟩
        · simp only [List.length_append, List.length_singleton] at hle heq
          refine ⟨by omega, fun hl ↦ ?_⟩
          obtain ⟨hpool, hunspent, hs⟩ := heq (by omega)
          refine ⟨hpool, hunspent, fun x hx ↦ ?_⟩
          rcases List.mem_cons.mp hx with rfl | hx
          · exact hstuck
          · exact hs x hx
    obtain ⟨hpool, hunspent, hs⟩ := (hloop txMap _ a h).2 (by simpa using hlen)
    exact ⟨hpool, hunspent, (deferred_sublist h).eq_of_length hlen, hs⟩
  obtain ⟨hpool, hunspent, hdeferred, hs⟩ := hall
  rw [hpool, hunspent, hdeferred]
  exact hs

/-- A pass keeps the mempool as specified, and each deferred transaction with the UTXOs that it
spends. -/
theorem acceptTransactions_spec (hds : L.NoDoubleSpends) (h : L.PoolSpec pool) {txMap : TxMap}
    (hf : L.Fresh txMap) (hu : L.Utxos utxoMap) (hr : L.Ready pool txMap utxoMap)
    {a : MemPool.Acceptance} (ha : pool.acceptTransactions txMap utxoMap = .ok a) :
    L.PoolSpec a.pool ∧ L.Fresh a.deferred ∧ L.Utxos a.unspent ∧
      L.Ready a.pool a.deferred a.unspent := by
  have hsub := (deferred_sublist ha).subset
  obtain ⟨hpool, hunspent, hready⟩ := foldlM_invariant
    (P := fun t ↦ L.PoolSpec t.pool ∧ L.Utxos t.unspent ∧ L.Ready t.pool txMap t.unspent)
    ha ⟨h, hu, hr⟩ fun t t' e he ⟨hpool, hunspent, hready⟩ hs ↦ by
      rcases acceptTx_cases hs with ⟨inPairs, hin, rfl⟩ | ⟨-, rfl⟩
      · refine ⟨hpool.hold hu (hf e he) hin, fun prevout utxo hl ↦ ?_, fun x hx ↦ ?_⟩
        · rw [lookup_eraseAll] at hl
          split at hl
          · cases hl
          · exact hunspent prevout utxo hl
        · rcases hready x hx with hm | hready
          · exact .inl (mem_hold.mpr (.inr hm))
          · by_cases hne : x.1 = e.1
            · exact .inl (mem_hold.mpr (.inl hne))
            · refine .inr fun prevout hp hnot ↦ ?_
              rw [lookup_eraseAll, if_neg fun hp' ↦
                hne (hds _ _ _ _ prevout (hf x hx) (hf e he) hp hp')]
              exact hready prevout hp hnot
      · exact ⟨hpool, hunspent, hready⟩
  exact ⟨hpool, fun e he ↦ hf e (hsub he), hunspent, fun e he ↦ hready e (hsub he)⟩

/-- The loop over the deferred transactions ends with those that lack a prevout. -/
theorem acceptLoop_spec (hds : L.NoDoubleSpends) {fuel : Nat} {txMap dropped : TxMap}
    {priorCount : Nat} {pool' : MemPool} (h : L.PoolSpec pool) (hf : L.Fresh txMap)
    (hu : L.Utxos utxoMap) (hr : L.Ready pool txMap utxoMap)
    (hs : txMap.length = priorCount → Stuck pool txMap utxoMap)
    (hloop : pool.acceptLoop fuel txMap utxoMap priorCount = some (.ok (pool', dropped))) :
    L.PoolSpec pool' ∧ (∀ hash ∈ pool.txs, hash ∈ pool'.txs) ∧
      (∀ e ∈ txMap, e.1 ∈ pool'.txs ∨ e ∈ dropped) ∧
      ∃ utxoMap', L.Ready pool' dropped utxoMap' ∧ Stuck pool' dropped utxoMap' := by
  induction fuel generalizing pool txMap utxoMap priorCount with
  | zero => cases hloop
  | succ fuel ih =>
    rw [MemPool.acceptLoop] at hloop
    split at hloop
    · cases ha : pool.acceptTransactions txMap utxoMap with
      | error e =>
        rw [ha] at hloop
        cases hloop
      | ok a =>
        rw [ha] at hloop
        obtain ⟨h', hf', hu', hr'⟩ := acceptTransactions_spec hds h hf hu hr ha
        obtain ⟨hspec, hmono, hcover, hend⟩ := ih h' hf' hu' hr' (stuck_of_length_eq ha) hloop
        refine ⟨hspec, fun hash hm ↦ hmono hash (mem_acceptTransactions ha hm), fun e he ↦ ?_,
          hend⟩
        rcases mem_or_deferred ha he with hm | hm
        · exact .inl (hmono _ hm)
        · exact hcover e hm
    · next hc =>
      cases hloop
      refine ⟨h, fun _ ↦ id, fun e ↦ .inr, utxoMap, hr, ?_⟩
      by_cases hnil : dropped = []
      · rw [hnil]
        simp [Stuck]
      · exact hs (by tauto)

/-- When the transactions that lack a prevout are all that is left, every transaction of the set
has been accepted. -/
theorem mem_of_accepted {dropped : TxMap} (h : L.PoolSpec pool)
    (hcover : ∀ hash tx, L.fresh hash = some tx → hash ∈ pool.txs ∨ (hash, tx) ∈ dropped)
    (hr : L.Ready pool dropped utxoMap) (hs : Stuck pool dropped utxoMap) {hash : Hash32}
    (ha : L.Accepted hash) : hash ∈ pool.txs := by
  induction ha with
  | @intro hash tx htx hpair hparent ih =>
    by_contra hnot
    have hd := (hcover hash tx htx).resolve_left hnot
    obtain ⟨prevout, hp, hav⟩ := hs _ hd
    apply hav
    by_cases hlisted : prevout.1 ∈ L.allHashes
    · right
      cases hheld : L.held prevout.1 with
      | none => exact ih prevout hp hlisted hheld
      | some tx' => exact AList.lookup_isSome.mp (Option.isSome_of_mem (h.held _ _ hheld))
    · left
      obtain ⟨pair, hpair⟩ := Option.isSome_iff_exists.mp (hpair prevout hp)
      rw [pairOf, if_neg hlisted] at hpair
      exact ⟨pair, by rw [(hr _ hd).resolve_left hnot prevout hp hlisted, hpair]⟩

/-! ### The refresh and its tasks -/

/-- The hashes whose transactions a task has, or is to fetch. -/
def taskHashes (task : FetchTask) : List Hash32 :=
  match task.progress with
  | .fetching => task.hashes
  | .lookingUp txMap => txMap.map Prod.fst
  | .done deferred _ => deferred.map Prod.fst

/-- The hashes that a refresh has not spawned tasks for, or whose deferred transactions it has
collected. -/
def refreshHashes : RefreshProgress → List Hash32
  | .spawning chunks => chunks.flatten
  | .collecting txMap _ => txMap.map Prod.fst

variable (L) in
/-- A task of the refresh. -/
structure TaskSpec (refresh : Nat) (pool : MemPool) (task : FetchTask) : Prop where
  refresh : task.refresh = refresh
  allHashes : task.allHashes = L.allHashes
  new : ∀ hash ∈ task.hashes, L.New hash
  progress : match task.progress with
    | .fetching => True
    | .lookingUp txMap => L.Fresh txMap
    | .done deferred unspent => L.Fresh deferred ∧ L.Utxos unspent ∧ L.Ready pool deferred unspent

variable (L) in
/-- The refresh in progress. -/
def RefreshSpec (pool : MemPool) : RefreshProgress → Prop
  | .spawning chunks => ∀ hash ∈ chunks.flatten, L.New hash
  | .collecting txMap utxoMap => L.Fresh txMap ∧ L.Utxos utxoMap ∧ L.Ready pool txMap utxoMap

variable (L) in
/-- The refresh is in progress, and no new transaction has been forgotten. -/
structure Running (refresh : Nat) (s : MempoolSync) (height : Int) (progress : RefreshProgress) :
    Prop where
  current : s.current = some ⟨L.allHashes, height, progress⟩
  refreshes : s.refreshes = refresh
  pool : L.PoolSpec s.pool
  tasks : ∀ task ∈ s.tasks, L.TaskSpec refresh s.pool task
  spec : L.RefreshSpec s.pool progress
  cover : ∀ hash tx, L.fresh hash = some tx → hash ∈ s.pool.txs ∨ hash ∈ refreshHashes progress ∨
    ∃ task ∈ s.tasks, hash ∈ taskHashes task

variable (L) in
/-- The refresh is in progress or has been aborted. -/
def InRun (refresh : Nat) (s : MempoolSync) : Prop :=
  s.current = none ∨ ∃ height progress, L.Running refresh s height progress

variable (L) in
/-- No other refresh begins, and the daemon and the DB answer as listed. -/
def Fixed (_ : MempoolSync) : MempoolEvent → Prop
  | .refresh _ _ _ => False
  | .fetched _ rawTxs => rawTxs = L.fetch
  | .lookedUp _ utxos => utxos = L.db
  | _ => True

variable {refresh : Nat} {s s' : MempoolSync}

theorem Ready.mono {txMap : TxMap} {pool' : MemPool} (h : L.Ready pool txMap utxoMap)
    (hm : ∀ hash ∈ pool.txs, hash ∈ pool'.txs) : L.Ready pool' txMap utxoMap :=
  fun e he ↦ (h e he).imp (hm e.1) id

theorem TaskSpec.mono {pool' : MemPool} {task : FetchTask} (h : L.TaskSpec refresh pool task)
    (hm : ∀ hash ∈ pool.txs, hash ∈ pool'.txs) : L.TaskSpec refresh pool' task where
  refresh := h.refresh
  allHashes := h.allHashes
  new := h.new
  progress := by
    have hp := h.progress
    split at hp
    · trivial
    · exact hp
    · exact ⟨hp.1, hp.2.1, hp.2.2.mono hm⟩

theorem fresh_deserializeTxs {hashes : List Hash32} (h : ∀ hash ∈ hashes, L.New hash) :
    L.Fresh (deserializeTxs L.coin hashes L.fetch) := by
  intro e he
  obtain ⟨hash, hm, hraw⟩ := List.mem_filterMap.mp he
  obtain ⟨raw, hfetch, rfl⟩ := Option.map_eq_some_iff.mp hraw
  rw [fresh, if_pos (h hash hm), hfetch]
  rfl

theorem mem_deserializeTxs {hashes : List Hash32} {hash : Hash32} {tx : MemPoolTx}
    (h : L.fresh hash = some tx) (hm : hash ∈ hashes) :
    hash ∈ (deserializeTxs L.coin hashes L.fetch).map Prod.fst := by
  rw [fresh] at h
  split at h
  · obtain ⟨raw, hfetch, rfl⟩ := Option.map_eq_some_iff.mp h
    exact List.mem_map.mpr ⟨_, List.mem_filterMap.mpr ⟨hash, hm, by rw [hfetch]; rfl⟩, rfl⟩
  · cases h

/-- The UTXOs that a task receives are those that its transactions spend. -/
theorem utxos_utxoMapOf (prevouts : List Prevout)
    (h : ∀ prevout ∈ prevouts, prevout.1 ∉ L.allHashes) : L.Utxos (utxoMapOf prevouts L.db) := by
  intro prevout utxo hl
  rw [lookup_utxoMapOf] at hl
  split at hl
  · next hm => exact ⟨h prevout hm, (Option.some.inj hl).symm⟩
  · cases hl

theorem ready_utxoMapOf (pool : MemPool) (txMap : TxMap) :
    L.Ready pool txMap (utxoMapOf (dbPrevouts txMap L.allHashes) L.db) := by
  refine fun e he ↦ .inr fun prevout hp hnot ↦ ?_
  rw [lookup_utxoMapOf, if_pos]
  exact List.mem_filter.mpr ⟨List.mem_flatMap.mpr ⟨e, he, hp⟩, by simpa using hnot⟩

theorem mem_update {txMap deferred : TxMap} {hash : Hash32} :
    hash ∈ (txMap.update deferred).map Prod.fst ↔
      hash ∈ txMap.map Prod.fst ∨ hash ∈ deferred.map Prod.fst := by
  simp only [TxMap.update, List.map_append, List.map_map, List.mem_append]
  constructor
  · rintro (h | h)
    · exact .inl h
    · obtain ⟨e, he, rfl⟩ := List.mem_map.mp h
      exact .inr (List.mem_map_of_mem (List.mem_of_mem_filter he))
  · rintro (h | h)
    · exact .inl h
    · by_cases hm : hash ∈ txMap.map Prod.fst
      · exact .inl hm
      · obtain ⟨e, he, rfl⟩ := List.mem_map.mp h
        exact .inr (List.mem_map_of_mem (List.mem_filter.mpr ⟨he, by simpa using hm⟩))

/-- The UTXOs of two chunks go together. -/
theorem Ready.union {txMap : TxMap} {unspent : UtxoMap} (h : L.Ready pool txMap utxoMap)
    (hn : L.Utxos unspent) : L.Ready pool txMap (unspent ∪ utxoMap) := by
  refine fun e he ↦ (h e he).imp id fun hready prevout hp hnot ↦ ?_
  by_cases hm : prevout ∈ unspent
  · obtain ⟨utxo, hl⟩ := Option.isSome_iff_exists.mp (AList.lookup_isSome.mpr hm)
    rw [AList.lookup_union_left hm, hl, (hn prevout utxo hl).2]
  · rw [AList.lookup_union_right hm]
    exact hready prevout hp hnot

theorem Ready.union_left {deferred : TxMap} {unspent : UtxoMap}
    (h : L.Ready pool deferred unspent) : L.Ready pool deferred (unspent ∪ utxoMap) := by
  refine fun e he ↦ (h e he).imp id fun hready prevout hp hnot ↦ ?_
  rw [AList.lookup_union_eq_some]
  exact .inl (hready prevout hp hnot)

theorem Utxos.union {unspent : UtxoMap} (hn : L.Utxos unspent) (h : L.Utxos utxoMap) :
    L.Utxos (unspent ∪ utxoMap) := by
  intro prevout utxo hl
  rcases AList.lookup_union_eq_some.mp hl with hl | ⟨-, hl⟩
  · exact hn prevout utxo hl
  · exact h prevout utxo hl

private theorem start_spec (hcur : s.current = none) (htasks : s.tasks = [])
    (hbefore : L.before = s.pool.txs) {height : Int} {chunks : List (List Hash32)}
    (hs : s.step L.coin (.refresh L.allHashes height chunks) = some s') :
    L.InRun (s.refreshes + 1) s' := by
  simp only [MempoolSync.step, hcur, Option.isNone_none, if_true, MempoolSync.start] at hs
  split at hs
  · cases hs
    exact .inl hcur
  · split at hs
    · cases hs
    · next pool hremove =>
      split at hs
      · next hchunks =>
        cases hs
        have hlookup (hash : Hash32) : pool.txs.lookup hash = L.held hash := by
          rw [lookup_removeTxs hremove, held, hbefore]
        have hnew (hash : Hash32) : hash ∈ chunks.flatten ↔ L.New hash := by
          rw [← List.mem_toFinset, hchunks.2, Finset.mem_filter, New, ← AList.lookup_eq_none,
            lookup_removeTxs hremove, hbefore]
          exact and_congr_right fun hm ↦ by rw [if_pos hm]
        have hfresh {hash : Hash32} {tx : MemPoolTx} (h : L.fresh hash = some tx) :
            hash ∈ chunks.flatten := by
          rw [fresh] at h
          split at h
          · next hn => exact (hnew hash).mpr hn
          · cases h
        have hpool : L.PoolSpec pool :=
          ⟨fun hash tx ht ↦ .inl (by rw [← hlookup, ht]), fun hash tx hh ↦ by rw [hlookup, hh]⟩
        refine .inr ⟨height, _, rfl, rfl, hpool, fun task hm ↦ ?_, ?_, fun hash tx h ↦ .inr (.inl ?_)⟩
        · rw [htasks] at hm
          cases hm
        · split
          · simp [RefreshSpec, Fresh, Utxos, Ready]
          · exact fun hash hm ↦ (hnew hash).mp hm
        · split
          · next hnil =>
            have := hfresh h
            rw [hnil] at this
            cases this
          · exact hfresh h
      · cases hs

private theorem running_spawn {height : Int} {progress : RefreshProgress}
    (h : L.Running refresh s height progress) (hs : s.step L.coin .spawn = some s') :
    L.InRun refresh s' := by
  simp only [MempoolSync.step, h.current] at hs
  split at hs
  · next hashes chunks he =>
    cases he
    cases hs
    have hnew := h.spec
    refine .inr ⟨height, _, rfl, h.refreshes, h.pool, fun task hm ↦ ?_,
      fun hash hm ↦ hnew hash (List.mem_append_right _ hm), fun hash tx hf ↦ ?_⟩
    · rcases List.mem_append.mp hm with hm | hm
      · exact h.tasks task hm
      · cases List.mem_singleton.mp hm
        exact ⟨h.refreshes, rfl, fun hash hm ↦ hnew hash (List.mem_append_left _ hm), trivial⟩
    · rcases h.cover hash tx hf with hm | hm | ⟨task, ht, hm⟩
      · exact .inl hm
      · rcases List.mem_append.mp hm with hm | hm
        · exact .inr (.inr ⟨_, List.mem_append_right _ List.mem_cons_self, hm⟩)
        · exact .inr (.inl hm)
      · exact .inr (.inr ⟨task, List.mem_append_left _ ht, hm⟩)
  · cases hs

private theorem running_check {height : Int} {progress : RefreshProgress}
    (h : L.Running refresh s height progress) (hs : s.step L.coin .check = some s') :
    L.InRun refresh s' := by
  simp only [MempoolSync.step, h.current] at hs
  split at hs
  · next he =>
    cases he
    cases hs
    by_cases hne : height ≠ s.dbHeight
    · exact .inl (if_pos hne)
    · refine .inr ⟨height, .collecting [] ∅, if_neg hne, h.refreshes, h.pool, h.tasks,
        by simp [RefreshSpec, Fresh, Utxos, Ready], fun hash tx hf ↦ ?_⟩
      rcases h.cover hash tx hf with hm | hm | hm
      · exact .inl hm
      · cases hm
      · exact .inr (.inr hm)
  · cases hs

/-- A task that goes on keeps its hashes, but for those of transactions that it accepts. -/
private theorem cover_set {i : Nat} {task task' : FetchTask} (ht : s.tasks[i]? = some task)
    {pool' : MemPool} {hashes : List Hash32} {hash : Hash32}
    (hmono : hash ∈ s.pool.txs → hash ∈ pool'.txs)
    (htask : hash ∈ taskHashes task → hash ∈ pool'.txs ∨ hash ∈ taskHashes task')
    (hc : hash ∈ s.pool.txs ∨ hash ∈ hashes ∨ ∃ task ∈ s.tasks, hash ∈ taskHashes task) :
    hash ∈ pool'.txs ∨ hash ∈ hashes ∨ ∃ task ∈ s.tasks.set i task', hash ∈ taskHashes task := by
  have hlt : i < s.tasks.length := (List.getElem?_eq_some_iff.mp ht).1
  rcases hc with hm | hm | ⟨t, htm, hm⟩
  · exact .inl (hmono hm)
  · exact .inr (.inl hm)
  · obtain ⟨j, hj⟩ := List.mem_iff_getElem?.mp htm
    by_cases hij : i = j
    · subst hij
      cases ht.symm.trans hj
      exact (htask hm).imp id fun hm ↦ .inr ⟨task', List.mem_set hlt task', hm⟩
    · refine .inr (.inr ⟨t, ?_, hm⟩)
      rw [List.mem_iff_getElem?]
      exact ⟨j, by rw [List.getElem?_set_ne hij, hj]⟩

private theorem running_fetched {height : Int} {progress : RefreshProgress}
    (h : L.Running refresh s height progress) {i : Nat}
    (hs : s.step L.coin (.fetched i L.fetch) = some s') : L.InRun refresh s' := by
  simp only [MempoolSync.step] at hs
  obtain ⟨task, ht, hs⟩ := Option.bind_eq_some_iff.mp hs
  split at hs
  · next hp =>
    cases hs
    have htask := h.tasks task (List.mem_of_getElem? ht)
    refine .inr ⟨height, progress, h.current, h.refreshes, h.pool, fun t hm ↦ ?_, h.spec,
      fun hash tx hf ↦ cover_set ht id (fun hm ↦ .inr ?_) (h.cover hash tx hf)⟩
    · rcases List.mem_or_eq_of_mem_set hm with hm | rfl
      · exact h.tasks t hm
      · exact ⟨htask.refresh, htask.allHashes, htask.new, fresh_deserializeTxs htask.new⟩
    · rw [taskHashes, hp] at hm
      exact mem_deserializeTxs hf hm
  · cases hs

private theorem running_lookedUp (hds : L.NoDoubleSpends) {height : Int}
    {progress : RefreshProgress} (h : L.Running refresh s height progress) {i : Nat}
    (hs : s.step L.coin (.lookedUp i L.db) = some s') : L.InRun refresh s' := by
  simp only [MempoolSync.step] at hs
  obtain ⟨task, ht, hs⟩ := Option.bind_eq_some_iff.mp hs
  split at hs
  · next txMap hp =>
    have htask := h.tasks task (List.mem_of_getElem? ht)
    have hfresh := htask.progress
    rw [hp] at hfresh
    rw [MempoolSync.accept, htask.allHashes] at hs
    split at hs
    · cases hs
    · next a ha =>
      cases hs
      have hu : L.Utxos (utxoMapOf (dbPrevouts txMap L.allHashes) L.db) :=
        utxos_utxoMapOf _ fun prevout hm ↦ by simpa using List.of_mem_filter hm
      obtain ⟨hpool, hd, hun, hr⟩ := acceptTransactions_spec hds h.pool hfresh hu
        (ready_utxoMapOf s.pool txMap) ha
      have hmono (hash : Hash32) (hm : hash ∈ s.pool.txs) : hash ∈ a.pool.txs :=
        mem_acceptTransactions ha hm
      refine .inr ⟨height, progress, h.current, h.refreshes, ⟨hpool.final, hpool.held⟩,
        fun t hm ↦ ?_, ?_, fun hash tx hf ↦ cover_set ht (hmono hash) (fun hm ↦ ?_)
          (h.cover hash tx hf)⟩
      · rcases List.mem_or_eq_of_mem_set hm with hm | rfl
        · exact (h.tasks t hm).mono hmono
        · exact ⟨htask.refresh, rfl, htask.new, hd, hun, hr⟩
      · have hspec := h.spec
        cases progress with
        | spawning chunks => exact hspec
        | collecting txMap' utxoMap' => exact ⟨hspec.1, hspec.2.1, hspec.2.2.mono hmono⟩
      · rw [taskHashes, hp] at hm
        obtain ⟨e, he, rfl⟩ := List.mem_map.mp hm
        exact (mem_or_deferred ha he).imp id fun hm ↦ List.mem_map_of_mem hm
  · cases hs

private theorem running_collect {height : Int} {progress : RefreshProgress}
    (h : L.Running refresh s height progress) {i : Nat}
    (hs : s.step L.coin (.collect i) = some s') : L.InRun refresh s' := by
  simp only [MempoolSync.step] at hs
  obtain ⟨task, ht, hs⟩ := Option.bind_eq_some_iff.mp hs
  rw [h.current] at hs
  split at hs
  · next txMap utxoMap deferred unspent hc hp =>
    cases hc
    split at hs
    · cases hs
      have hspec := h.spec
      have htask := (h.tasks task (List.mem_of_getElem? ht)).progress
      rw [hp] at htask
      refine .inr ⟨height, _, rfl, h.refreshes, h.pool,
        fun t hm ↦ h.tasks t (List.mem_of_mem_eraseIdx hm),
        ⟨fun e he ↦ ?_, htask.2.1.union hspec.2.1, fun e he ↦ ?_⟩, fun hash tx hf ↦ ?_⟩
      · rcases mem_of_mem_update he with he | he
        · exact hspec.1 e he
        · exact htask.1 e he
      · rcases mem_of_mem_update he with he | he
        · exact hspec.2.2.union htask.2.1 e he
        · exact htask.2.2.union_left e he
      · rcases h.cover hash tx hf with hm | hm | ⟨t, htm, hm⟩
        · exact .inl hm
        · exact .inr (.inl (mem_update.mpr (.inl hm)))
        · obtain ⟨j, hj⟩ := List.mem_iff_getElem?.mp htm
          by_cases hij : j = i
          · subst hij
            cases ht.symm.trans hj
            rw [taskHashes, hp] at hm
            exact .inr (.inl (mem_update.mpr (.inr hm)))
          · exact .inr (.inr ⟨t, List.mem_eraseIdx_iff_getElem?.mpr ⟨j, hij, hj⟩, hm⟩)
    · cases hs
  · cases hs

/-- Once all results are collected, every transaction of the set has been accepted. -/
private theorem running_finish (hds : L.NoDoubleSpends) {height : Int}
    {progress : RefreshProgress} (h : L.Running refresh s height progress)
    (hs : s.step L.coin .finish = some s') :
    L.PoolSpec s'.pool ∧ ∀ hash, L.Accepted hash → hash ∈ s'.pool.txs := by
  rw [finish_eq] at hs
  obtain ⟨pool, hp, rfl⟩ := Option.map_eq_some_iff.mp hs
  obtain ⟨_, _, txMap, utxoMap, dropped, hc, hdone, hloop⟩ := onMempool_eq_some.mp hp
  cases h.current.symm.trans hc
  obtain ⟨hf, hu, hr⟩ := h.spec
  have hstuck : txMap.length = 0 → Stuck s.pool txMap utxoMap := by
    intro hnil
    rw [List.eq_nil_of_length_eq_zero hnil]
    simp [Stuck]
  obtain ⟨hpool, hmono, hcover, utxoMap', hr', hs'⟩ :=
    acceptLoop_spec hds h.pool hf hu hr hstuck hloop
  have hall (hash : Hash32) (tx : MemPoolTx) (htx : L.fresh hash = some tx) :
      hash ∈ pool.txs ∨ (hash, tx) ∈ dropped := by
    rcases h.cover hash tx htx with hm | hm | ⟨task, ht, -⟩
    · exact .inl (hmono hash hm)
    · obtain ⟨e, he, rfl⟩ := List.mem_map.mp hm
      obtain rfl : e.2 = tx := Option.some.inj ((hf e he).symm.trans htx)
      exact hcover e he
    · exact absurd ((h.tasks task ht).refresh.trans h.refreshes.symm) (hdone task ht)
  exact ⟨⟨hpool.final, hpool.held⟩, fun hash hacc ↦ mem_of_accepted hpool hall hr' hs' hacc⟩

private theorem InRun.step (hds : L.NoDoubleSpends) (h : L.InRun refresh s) {e : MempoolEvent}
    (hg : L.Fixed s e) (hs : s.step L.coin e = some s') : L.InRun refresh s' := by
  rcases h with h | ⟨height, progress, h⟩
  · -- Without a refresh only the DB height changes and stale tasks go on.
    left
    cases e with
    | dbHeight height =>
      cases hs
      exact h
    | refresh allHashes height chunks => exact hg.elim
    | spawn => simp [MempoolSync.step, h] at hs
    | check => simp [MempoolSync.step, h] at hs
    | fetched i rawTxs =>
      simp only [MempoolSync.step] at hs
      obtain ⟨task, -, hs⟩ := Option.bind_eq_some_iff.mp hs
      split at hs
      · cases hs
        exact h
      · cases hs
    | lookedUp i utxos =>
      simp only [MempoolSync.step] at hs
      obtain ⟨task, -, hs⟩ := Option.bind_eq_some_iff.mp hs
      split at hs
      · rw [MempoolSync.accept] at hs
        split at hs
        · cases hs
        · cases hs
          exact h
      · cases hs
    | collect i => simp [MempoolSync.step, h] at hs
    | finish => simp [MempoolSync.step, h] at hs
  · cases e with
    | dbHeight height' =>
      cases hs
      exact .inr ⟨height, progress, h.current, h.refreshes, h.pool, h.tasks, h.spec, h.cover⟩
    | refresh allHashes height chunks => exact hg.elim
    | spawn => exact running_spawn h hs
    | check => exact running_check h hs
    | fetched i rawTxs =>
      cases hg
      exact running_fetched h hs
    | lookedUp i utxos =>
      cases hg
      exact running_lookedUp hds h hs
    | collect i => exact running_collect h hs
    | finish =>
      left
      rw [finish_eq] at hs
      obtain ⟨pool, -, rfl⟩ := Option.map_eq_some_iff.mp hs
      rfl

end Listing

/-- A refresh that no other task disturbs and that is not aborted ends with the transactions that
were held and are listed and with the accepted ones, whatever the chunks and the order of their
tasks; and its last loop terminates. -/
theorem refresh_final (L : Listing) (hds : L.NoDoubleSpends) {s₀ s₁ s s' : MempoolSync}
    (hcur : s₀.current = none) (htasks : s₀.tasks = []) (hbefore : L.before = s₀.pool.txs)
    {height : Int} {chunks : List (List Hash32)}
    (hstart : s₀.step L.coin (.refresh L.allHashes height chunks) = some s₁)
    (r : Reach (MempoolSync.step L.coin) L.Fixed s₁ s)
    (hfinish : s.step L.coin .finish = some s') :
    (∀ hash tx, s'.pool.txs.lookup hash = some tx ↔ L.Final hash tx) ∧
    (∀ hash, hash ∈ s'.pool.txs ↔ (∃ tx, L.held hash = some tx) ∨ L.Accepted hash) ∧
    ∀ pool txMap utxoMap,
      ∃ result, MemPool.acceptLoop (txMap.length + 2) pool txMap utxoMap 0 = some result := by
  have hrun : L.InRun (s₀.refreshes + 1) s :=
    r.invariant (Listing.start_spec hcur htasks hbefore hstart) fun _ _ _ h hg hs ↦ h.step hds hg hs
  obtain ⟨height', progress, h⟩ : ∃ height progress,
      L.Running (s₀.refreshes + 1) s height progress := by
    refine hrun.resolve_left fun hnone ↦ ?_
    simp [MempoolSync.step, hnone] at hfinish
  obtain ⟨hpool, hmem⟩ := Listing.running_finish hds h hfinish
  have hiff (hash : Hash32) : hash ∈ s'.pool.txs ↔
      (∃ tx, L.held hash = some tx) ∨ L.Accepted hash := by
    rw [← AList.lookup_isSome, Option.isSome_iff_exists]
    constructor
    · rintro ⟨tx, ht⟩
      exact (hpool.final hash tx ht).imp (fun h ↦ ⟨tx, h⟩) And.left
    · rintro (⟨tx, hheld⟩ | hacc)
      · exact ⟨tx, hpool.held hash tx hheld⟩
      · exact Option.isSome_iff_exists.mp (AList.lookup_isSome.mpr (hmem hash hacc))
  refine ⟨fun hash tx ↦ ⟨hpool.final hash tx, fun hf ↦ ?_⟩, hiff, fun pool txMap utxoMap ↦
    acceptLoop_terminates pool txMap utxoMap 0 (.inl (Nat.le_refl _))⟩
  have hm : hash ∈ s'.pool.txs := (hiff hash).mpr (hf.imp (fun h ↦ ⟨tx, h⟩) And.left)
  obtain ⟨tx', ht⟩ := Option.isSome_iff_exists.mp (AList.lookup_isSome.mpr hm)
  rw [ht, (hpool.final hash tx' ht).unique hf]

/-! ### A sample refresh -/

/-- Both transactions are new. -/
def sampleListing : Listing where
  coin := sampleCoin
  allHashes := {sampleHash 2, sampleHash 3}
  before := ∅
  fetch := sampleRawTxs
  db := sampleUtxos

theorem sampleListing_noDoubleSpends : sampleListing.NoDoubleSpends := by
  have hcases {hash : Hash32} {tx : MemPoolTx} (h : sampleListing.fresh hash = some tx) :
      hash = sampleHash 2 ∧ tx.prevouts = [(sampleHash 1, 0)] ∨
        hash = sampleHash 3 ∧ tx.prevouts = [(sampleHash 2, 0)] := by
    rw [Listing.fresh] at h
    split at h
    · obtain ⟨raw, hraw, rfl⟩ := Option.map_eq_some_iff.mp h
      change sampleRawTxs hash = some raw at hraw
      rw [sampleRawTxs] at hraw
      split at hraw
      · next he =>
        cases hraw
        exact .inl ⟨he, rfl⟩
      · split at hraw
        · next he =>
          cases hraw
          exact .inr ⟨he, rfl⟩
        · cases hraw
    · cases h
  intro hash hash' tx tx' prevout h h' hp hp'
  rcases hcases h with ⟨rfl, he⟩ | ⟨rfl, he⟩ <;> rcases hcases h' with ⟨rfl, he'⟩ | ⟨rfl, he'⟩
  · rfl
  · rw [he, List.mem_singleton] at hp
    rw [he', List.mem_singleton] at hp'
    exact absurd (hp.symm.trans hp') (by decide)
  · rw [he, List.mem_singleton] at hp
    rw [he', List.mem_singleton] at hp'
    exact absurd (hp.symm.trans hp') (by decide)
  · rfl

/-- The child waits for its parent in another chunk and is accepted in the end. -/
theorem sampleRefresh_accepts : ∃ s s' : MempoolSync, s.step sampleCoin .finish = some s' ∧
    sampleHash 3 ∈ s'.pool.txs ∧ sampleListing.Accepted (sampleHash 3) := by
  obtain ⟨s₁, h₁, s, hs, s', hs', hm⟩ : ∃ s₁ ∈ MempoolSync.step sampleCoin { dbHeight := 7 }
        (.refresh {sampleHash 2, sampleHash 3} 7 [[sampleHash 3], [sampleHash 2]]),
      ∃ s ∈ runEvents (MempoolSync.step sampleCoin) (fun _ _ ↦ True) s₁ sampleTasks,
      ∃ s' ∈ s.step sampleCoin .finish, sampleHash 3 ∈ s'.pool.txs := by decide +kernel
  have r : Reach (MempoolSync.step sampleCoin) sampleListing.Fixed s₁ s := by
    refine Reach.ofEvents hs fun e he t ↦ ?_
    simp only [sampleTasks, List.mem_cons, List.not_mem_nil, or_false] at he
    rcases he with rfl | rfl | rfl | rfl | rfl | rfl | rfl | rfl | rfl
    all_goals first | exact trivial | exact rfl
  refine ⟨s, s', hs', hm, ?_⟩
  obtain ⟨-, hmem, -⟩ := refresh_final sampleListing sampleListing_noDoubleSpends rfl rfl rfl h₁ r
    hs'
  exact ((hmem _).mp hm).resolve_left (by rintro ⟨tx, ⟨⟩⟩)

end ElectrumX.Mempool
