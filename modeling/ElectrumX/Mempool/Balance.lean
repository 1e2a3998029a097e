import ElectrumX.Index.Lookups
import ElectrumX.Mempool.Index
import ElectrumX.Server.Session

/-!
# Balances and unspent lists

The unspent list of a script hash has exactly the outputs of the DB and of the mempool that pay it
and that no transaction of the mempool spends, and adds up to the confirmed and the unconfirmed
balance. The list is a set difference of prevouts and the balance a sum over the indexed
transactions; the index ties them together. The mempool looks its prevouts up in the DB while the
DB goes through the states of a run.
-/

namespace ElectrumX.Mempool
open ElectrumX.Base ElectrumX.Lib ElectrumX.Server ElectrumX.Chain

variable {coin : Coin} {src : Source coin} {pool : MemPool} {hashX : HashX}

/-! ### What the mempool pays and spends -/

/-- The outputs of a transaction that pay a script hash, as `unordered_UTXOs` lists them. -/
def Source.pays (src : Source coin) (hashX : HashX) (hash : Hash32) : List UTXO :=
  (src.memPoolTx hash).elim [] fun tx ↦
    (tx.outPairs.zipIdx.filter fun out ↦ out.1.1 = hashX).map fun out ↦
      ⟨-1, out.2, some hash.val, 0, out.1.2⟩

theorem mem_pays {hash : Hash32} {utxo : UTXO} : utxo ∈ src.pays hashX hash ↔
    ∃ tx pos value, src.memPoolTx hash = some tx ∧ tx.outPairs[pos]? = some (hashX, value) ∧
      utxo = ⟨-1, pos, some hash.val, 0, value⟩ := by
  rw [Source.pays]
  cases htx : src.memPoolTx hash with
  | none => simp
  | some tx =>
    simp only [Option.elim_some, List.mem_map, List.mem_filter, Prod.exists,
      List.mk_mem_zipIdx_iff_getElem?, decide_eq_true_eq, Option.some_inj, exists_and_left,
      exists_eq_left']
    constructor
    · rintro ⟨x, value, pos, ⟨hget, rfl⟩, rfl⟩
      exact ⟨pos, value, hget, rfl⟩
    · rintro ⟨pos, value, hget, rfl⟩
      exact ⟨hashX, value, pos, ⟨hget, rfl⟩, rfl⟩

/-- The outputs of a script hash that the transactions of a list spend. -/
def Source.spent (src : Source coin) (hashX : HashX) (hashes : List Hash32) : List Prevout :=
  (hashes.flatMap src.spends).filter fun prevout ↦ (src.utxo prevout).1 = hashX

/-- The transactions of a chain have the outputs that prevouts are known to have: no other
transaction has one of their txids. -/
def Source.Knows (src : Source coin) (chain : List Block) : Prop :=
  ∀ tx ∈ txs chain, ∀ (idx : Nat) txout, tx.outputs[idx]? = some txout →
    src.utxo (tx.txid, idx) = (coin.hashXFromScript txout.pkScript, txout.value)

/-- What is found for a prevout is what `lookup_utxos` answers. -/
def LooksUp (db : DB) (utxos : Prevout → Option Pair) : Prop :=
  ∀ prevout pair, utxos prevout = some pair → ∃ value : Nat, pair.2 = value ∧
    db.lookupUtxos [(prevout.1.val, prevout.2)] = .ok [some (pair.1.val, value)]

/-- The daemon answers as in `Answers`, and outputs are looked up in the DB of a run. -/
def Source.Served {env : Env} (src : Source env.coin)
    (guard : DB → List Block → List Block → Prop) (s : MempoolSync) : MempoolEvent → Prop
  | .lookedUp _ utxos => ∃ db chain, Index.RunDB env guard db chain ∧ src.Knows chain ∧
      LooksUp db utxos
  | e => src.Answers s e

/-- The mempool goes with the unspent outputs of the DB: no transaction of the mempool is confirmed
at the height of the DB, no output is spent twice in the mempool, and what a transaction of the
mempool spends is unspent in the DB or an output of another one. -/
structure Fits (unspent : OutPoint → Option Utxo) (pool : MemPool) : Prop where
  unconfirmed : ∀ hash ∈ pool.txs, ∀ idx, unspent ⟨hash, idx⟩ = none
  nodup : ∀ hash tx, pool.txs.lookup hash = some tx → tx.prevouts.Nodup
  disjoint : ∀ hash hash' tx tx' prevout, pool.txs.lookup hash = some tx →
    pool.txs.lookup hash' = some tx' → prevout ∈ tx.prevouts → prevout ∈ tx'.prevouts → hash = hash'
  found : ∀ hash tx, pool.txs.lookup hash = some tx → ∀ prevout ∈ tx.prevouts,
    (∃ u, unspent ⟨prevout.1, prevout.2⟩ = some u) ∨
      ∃ parent, pool.txs.lookup prevout.1 = some parent ∧ prevout.2 < parent.outPairs.length

section Fits

variable {unspent : OutPoint → Option Utxo}

/-- A transaction that the mempool holds, as the daemon has it. -/
theorem PoolSound.prevouts_eq (h : PoolSound src pool) {hash : Hash32} {tx : MemPoolTx}
    (ht : pool.txs.lookup hash = some tx) : src.spends hash = tx.prevouts ∧
      ∃ tx', src.memPoolTx hash = some tx' ∧ tx'.prevouts = tx.prevouts ∧
        tx'.outPairs = tx.outPairs := by
  obtain ⟨tx', htx, rfl⟩ := h.held hash tx ht
  refine ⟨?_, tx', htx, rfl, rfl⟩
  rw [Source.spends, htx]
  rfl

/-- An output of a transaction of the mempool that another one spends has the value that is
looked up. -/
theorem PoolSound.utxo_eq (h : PoolSound src pool) {hash : Hash32} {tx parent : MemPoolTx}
    (ht : pool.txs.lookup hash = some tx) {prevout : Prevout} (hp : prevout ∈ tx.prevouts)
    (hparent : pool.txs.lookup prevout.1 = some parent) :
    parent.outPairs[prevout.2]? = some (src.utxo prevout) := by
  obtain ⟨-, tx', htx, hprev, -⟩ := h.prevouts_eq ht
  obtain ⟨-, parent', hparent', -, hout⟩ := h.prevouts_eq hparent
  obtain ⟨raw, hraw, rfl⟩ := Option.map_eq_some_iff.mp htx
  obtain ⟨raw', hraw', rfl⟩ := Option.map_eq_some_iff.mp hparent'
  rw [← hout]
  exact src.utxo_eq hash raw raw' prevout hraw (hprev ▸ hp) hraw'

theorem Fits.spent_nodup (hf : Fits unspent pool) (h : PoolSound src pool) :
    (src.spent hashX (pool.hashXs.items hashX)).Nodup := by
  refine List.Nodup.filter _ (List.nodup_flatMap.mpr ⟨fun hash hm ↦ ?_, ?_⟩)
  · obtain ⟨tx, -, ht⟩ := h.indexed hm
    rw [(h.prevouts_eq ht).1]
    exact hf.nodup hash _ ht
  · refine (List.Pairwise.and_mem.mp (h.mirrors.nodup hashX)).imp ?_
    rintro hash hash' ⟨hm, hm', hne⟩ prevout hp hp'
    obtain ⟨tx, -, ht⟩ := h.indexed hm
    obtain ⟨tx', -, ht'⟩ := h.indexed hm'
    rw [(h.prevouts_eq ht).1] at hp
    rw [(h.prevouts_eq ht').1] at hp'
    exact hne (hf.disjoint hash hash' _ _ prevout ht ht' hp hp')

/-! ### The outputs of a script hash -/

variable {db : DB} {utxos : List UTXO}

end Fits

/-! ### The answers of a session -/

section Fits

variable {unspent : OutPoint → Option Utxo} {db : DB} {utxos : List UTXO}

end Fits

section Served

variable {env : Env} {db : DB} {chain : List Block} {src : Source env.coin}

/-- The unspent outputs that the tables show are those that prevouts are known to have. -/
theorem utxo_eq_of_shown (h : Index.RunDB env (Index.OwnUndos env) db chain) (hk : src.Knows chain)
    {op : OutPoint} {u : Utxo} (hu : unspent env.coin (Index.shownChain db chain) op = some u) :
    src.utxo (op.txid, op.idx) = (u.hashX, (u.value : Int)) := by
  obtain ⟨hv, -, _, _, hrep⟩ := h.shows
  obtain ⟨tx, txout, htx, hid, hout, hvalue, hx⟩ := mem_created env.coin (hrep.base_mem op u hu)
  have hm := List.mem_of_getElem? htx
  obtain ⟨hpos, -⟩ := hv.values tx hm txout (List.mem_of_getElem? hout)
  rw [hid, hk tx hm op.idx txout hout, hx, hvalue, Int.toNat_of_nonneg hpos]

/-- In a run whose back-ups find the undo rows of their own blocks, what is looked up is what
prevouts are known to have. -/
theorem LooksUp.genuine (h : Index.RunDB env (Index.OwnUndos env) db chain) (hk : src.Knows chain)
    {utxos : Prevout → Option Pair} (hl : LooksUp db utxos) {prevout : Prevout} {pair : Pair}
    (hp : utxos prevout = some pair) : pair = src.utxo prevout := by
  obtain ⟨value, hvalue, hlookup⟩ := hl prevout pair hp
  obtain ⟨hv, hh, _, _, hrep⟩ := h.shows
  by_cases hidx : prevout.2 < 2 ^ 32
  · have hall : ∀ op ∈ [(⟨prevout.1, prevout.2⟩ : OutPoint)], op.idx < 2 ^ 32 := by
      intro op hm
      cases List.mem_singleton.mp hm
      exact hidx
    have hanswer := Index.lookupUtxos_eq (Index.numbered hv) hrep hh hall
    have hone := hlookup.symm.trans hanswer
    obtain ⟨u, hu, he⟩ := Option.map_eq_some_iff.mp (List.cons.inj (Except.ok.inj hone)).1.symm
    rw [utxo_eq_of_shown h hk hu]
    obtain ⟨hx, hn⟩ := Prod.mk.inj he
    exact Prod.ext (Subtype.ext hx.symm) (hvalue.trans (congrArg Nat.cast hn.symm))
  · -- The position does not fit the key, so the lookup raises.
    have hpack : packLeUint32 prevout.2 = .error .structError := by
      rw [packLeUint32, if_neg hidx]
    have herror : db.lookupUtxos [(prevout.1.val, prevout.2)] = .error .structError := by
      rw [DB.lookupUtxos, List.mapM_cons, DB.lookupHashX, hpack]
      rfl
    cases herror.symm.trans hlookup

theorem Source.Served.answers {s : MempoolSync} {e : MempoolEvent}
    (h : src.Served (Index.OwnUndos env) s e) : src.Answers s e := by
  cases e with
  | lookedUp i utxos =>
    obtain ⟨db, chain, hdb, hk, hl⟩ := h
    exact fun prevout pair hp ↦ hl.genuine hdb hk hp
  | _ => exact h

end Served

/-- A transaction that spends the output of the first block and pays less to the same script. -/
def sampleChange : Tx where
  inputs := [{ prevHash := Index.sampleHash [10], prevIdx := 0 }]
  outputs := [⟨4, [2]⟩]
  txid := Index.sampleHash [20]

def sampleMempool (hash : Hash32) : Option (Tx × Nat) :=
  if hash = Index.sampleHash [20] then some (sampleChange, 100) else none

/-- The outputs of the two sample blocks. -/
def sampleUtxo (prevout : Prevout) : Pair :=
  if prevout.1 = Index.sampleHash [10] then (Index.sampleCoin.hashXFromScript [2], 5)
  else (Index.sampleCoin.hashXFromScript [1], 7)

def sampleDaemon : Source Index.sampleCoin where
  tx := sampleMempool
  utxo := sampleUtxo
  utxo_eq := by
    intro hash raw parent prevout hraw hp hparent
    simp only [sampleMempool] at hraw
    split at hraw
    · cases hraw
      have he : prevout = (Index.sampleHash [10], 0) := List.mem_singleton.mp hp
      subst he
      have hnone : sampleMempool (Index.sampleHash [10]) = none := by decide
      cases hnone.symm.trans hparent
    · cases hraw

end ElectrumX.Mempool
