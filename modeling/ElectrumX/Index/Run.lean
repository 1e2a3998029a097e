import ElectrumX.Index.Answers
import ElectrumX.Index.Backup
import ElectrumX.Index.Recovery
import Mathlib.Logic.Equiv.List

/-!
# Runs

A block processor on a new disk advances batches of blocks, flushes, and backs up blocks in
any order. Backing up reads the undo row at the height of a block, which need not be the one
of this block: a block that was advanced without undo information may find the row that an
abandoned block left there. As long as that does not happen, the processor indexes its chain
throughout the run.
-/

namespace ElectrumX.Index
open ElectrumX.Base ElectrumX.Lib ElectrumX.Chain ElectrumX.Server

/-- The states that a processor reaches on a new disk, and the chain of each. The guard may
restrict which blocks are backed up. -/
inductive Run (env : Env) (guard : DB → List Block → List Block → Prop) :
    BlockProcessor → List Block → Prop
  | opened {s : BlockProcessor} (h : BlockProcessor.firstOpenDbs env { created := false } = .ok s) :
      Run env guard s []
  | advanced {s s' : BlockProcessor} {chain blocks : List Block} (cachedHeight : Int)
      (r : Run env guard s chain) (hv : ValidChain env.coin (chain ++ blocks))
      (h : s.advanceBlocks env cachedHeight blocks = .ok s') : Run env guard s' (chain ++ blocks)
  | flushed {s s' : BlockProcessor} {chain : List Block} (flushUtxos : Bool)
      (r : Run env guard s chain) (h : s.flush env flushUtxos = .ok s') : Run env guard s' chain
  | backedUp {s s' : BlockProcessor} {chain blocks : List Block}
      (r : Run env guard s (chain ++ blocks)) (hg : guard s.db chain blocks)
      (h : s.backupChunk env (blocks.map (·.raw)).reverse = .ok s') : Run env guard s' chain
  | notified {s : BlockProcessor} {chain : List Block} (r : Run env guard s chain) :
      Run env guard { s with touched := ∅ } chain

section Steps

variable {env : Env} {s s' : BlockProcessor} {recorded stored chain : List Block}

/-- A batch that was advanced had a block. -/
theorem ne_nil_of_advanceBlocks {cachedHeight : Int} {blocks : List Block}
    (h : s.advanceBlocks env cachedHeight blocks = .ok s') : blocks ≠ [] := by
  rintro rfl
  cases h

/-- Only a fully flushed processor backs up, at least one block, and not the first one. -/
theorem Indexed.of_backupChunk {c bs : List Block} (h : Indexed env s recorded stored (c ++ bs))
    (hok : s.backupChunk env (bs.map (·.raw)).reverse = .ok s') :
    Indexed env s (c ++ bs) (c ++ bs) (c ++ bs) ∧ c ≠ [] ∧ bs ≠ [] := by
  obtain ⟨s1, h1, h2⟩ := bind_eq_ok.mp hok
  obtain ⟨_, h3, h4⟩ := bind_eq_ok.mp h1
  obtain ⟨_, h5, h6⟩ := bind_eq_ok.mp h4
  obtain ⟨_, -, h7⟩ := bind_eq_ok.mp h3
  obtain ⟨_, h8, -⟩ := bind_eq_ok.mp h7
  have hheights : s.height = s.db.fsHeight ∧ s.db.fsHeight = s.db.dbHeight := assertThat_eq_ok.mp h8
  have hge := assertThat_eq_ok.mp h5
  rw [List.length_reverse, List.length_map] at hge
  have hlen := h.height_eq
  rw [List.length_append] at hlen
  obtain ⟨rfl, rfl⟩ := h.eq_of_height (hheights.1.trans hheights.2)
  refine ⟨h, ?_, ?_⟩
  · rintro rfl
    rw [List.length_nil] at hlen
    omega
  · rintro rfl
    cases h6
    obtain ⟨⟨fd, db⟩, h9, -⟩ := bind_eq_ok.mp h2
    obtain ⟨_, -, h10⟩ := bind_eq_ok.mp h9
    obtain ⟨_, -, h11⟩ := bind_eq_ok.mp h10
    obtain ⟨_, h12, -⟩ := bind_eq_ok.mp h11
    have hlt : s.height < s.db.dbHeight := assertThat_eq_ok.mp h12
    omega

/-- Resetting `touched` keeps the invariant. -/
theorem Indexed.notified (h : Indexed env s recorded stored chain) :
    Indexed env { s with touched := ∅ } recorded stored chain :=
  { h with
    db := h.db
    history := h.history
    utxo := h.utxo
    touched := fun x hx ↦ by simp at hx
    undoHeights := h.undoHeights }

end Steps

/-- The processor indexes its chain in every state of a run whose back-ups find the undo rows
of their own blocks. -/
theorem Run.indexed {env : Env} {s : BlockProcessor} {chain : List Block}
    (h : Run env (OwnUndos env) s chain) : ∃ recorded stored, Indexed env s recorded stored chain := by
  induction h with
  | opened h =>
    obtain ⟨s', h', hi, -⟩ := (Recoverable.fresh env).open
    cases h'.symm.trans h
    exact ⟨[], [], hi⟩
  | advanced cachedHeight _ hv h ih =>
    obtain ⟨recorded, stored, hi⟩ := ih
    obtain ⟨s', h', hi', -⟩ := hi.advanceBlocks (ne_nil_of_advanceBlocks h) hv cachedHeight
    cases h'.symm.trans h
    exact ⟨recorded, stored, hi'⟩
  | flushed flushUtxos _ h ih =>
    obtain ⟨recorded, stored, hi⟩ := ih
    exact ⟨_, _, hi.flush h⟩
  | backedUp _ hown h ih =>
    obtain ⟨recorded, stored, hi⟩ := ih
    obtain ⟨hi, hc, hbs⟩ := hi.of_backupChunk h
    obtain ⟨s', h', hi', -⟩ := hi.backupChunk hc hbs hown
    cases h'.symm.trans h
    exact ⟨_, _, hi'⟩
  | notified _ ih =>
    obtain ⟨recorded, stored, hi⟩ := ih
    exact ⟨recorded, stored, hi.notified⟩

/-! ### A sample chain

Hashes of at most 32 bytes are the padded preimage, so that they can be told apart. Block `a`
pays a script and spends the output again; `b` spends the output of the first block. -/

/-- Any countable record has a codec. -/
def StateCodec.unary (σ : Type) [Encodable σ] : StateCodec σ where
  repr s := List.replicate (Encodable.encode s + 1) 0
  literalEval b := Encodable.decode (b.length - 1)
  literalEval_repr s := by simp
  repr_ne_nil s := by simp

instance encodableUInt8 : Encodable UInt8 :=
  Encodable.ofLeftInjection UInt8.toNat (fun n ↦ some (UInt8.ofNat n)) (by simp)

instance encodableUtxoState : Encodable UtxoState := Encodable.ofLeftInjection
  (fun s ↦ (s.genesis, s.height, s.txCount, s.tip, s.utxoFlushCount, s.firstSync, s.dbVersion))
  (fun (g, h, n, t, c, f, v) ↦ some ⟨g, h, n, t, c, f, v⟩) fun _ ↦ rfl

instance encodableHistoryState : Encodable HistoryState := Encodable.ofLeftInjection
  (fun s ↦ (s.flushCount, s.compFlushCount, s.compCursor, s.dbVersion, s.upgradeCursor))
  (fun (n, f, c, v, u) ↦ some ⟨n, f, c, v, u⟩) fun _ ↦ rfl

def sampleHash (b : Bytes) : Hash32 := ⟨(b ++ List.replicate 32 0).take 32, by simp⟩

def samplePayment (id : Bytes) (value : Int) (pkScript : Bytes) : Tx where
  inputs := []
  outputs := [⟨value, pkScript⟩]
  txid := sampleHash id

def sampleSpend (id : Bytes) (tx : Tx) : Tx where
  inputs := [{ prevHash := tx.txid, prevIdx := 0 }]
  outputs := []
  txid := sampleHash id

/-- The transactions of the block whose raw bytes start with a number. -/
def sampleTxs : UInt8 → List Tx
  | 0 => [samplePayment [10] 5 [2]]
  | 1 => [samplePayment [11] 7 [1], sampleSpend [12] (samplePayment [11] 7 [1])]
  | 2 => [sampleSpend [13] (samplePayment [10] 5 [2])]
  | _ => [samplePayment [10, 0, 0, 0, 1] 9 [3]]

def sampleCoin : Coin where
  sha256 := sampleHash
  genesisHash := []
  staticBlockHeaders := false
  dynamicBlockHeader raw _ := raw
  deserializer raw _ := .ok (sampleTxs (raw.headD 0))

def sampleEnv : Env where
  coin := sampleCoin
  reorgLimit := 10
  utxoCodec := StateCodec.unary UtxoState
  historyCodec := StateCodec.unary HistoryState

def sampleBlock (id : UInt8) (prevhash : Bytes) : Block where
  raw := [id, 0, 0, 0] ++ prevhash
  header := [id, 0, 0, 0] ++ prevhash
  transactions := sampleTxs id

def sampleGenesis : Block := sampleBlock 0 (List.replicate 32 0)
def sampleA : Block := sampleBlock 1 (sampleCoin.headerHash sampleGenesis.header)
def sampleB : Block := sampleBlock 2 (sampleCoin.headerHash sampleGenesis.header)

/-- Block `a` is advanced on top of the first one, and flushed. -/
def sampleAdvance : Except PyError BlockProcessor := do
  let s ← BlockProcessor.firstOpenDbs sampleEnv { created := false }
  let s ← s.advanceBlocks sampleEnv 1 [sampleGenesis]
  let s ← s.advanceBlocks sampleEnv 1 [sampleA]
  s.flush sampleEnv true

private theorem sampleValid : ValidChain sampleCoin [sampleGenesis, sampleA] := by decide +kernel

theorem sampleAdvance_run {guard : DB → List Block → List Block → Prop} {s : BlockProcessor}
    (h : sampleAdvance = .ok s) : Run sampleEnv guard s [sampleGenesis, sampleA] := by
  obtain ⟨s0, h0, h⟩ := bind_eq_ok.mp h
  obtain ⟨s1, h1, h⟩ := bind_eq_ok.mp h
  obtain ⟨s2, h2, h⟩ := bind_eq_ok.mp h
  exact .flushed true (.advanced 1 (.advanced 1 (.opened h0) sampleValid.left h1)
    sampleValid h2) h

/-! ### The UTXO index -/

/-- In every state of a run the tables, the cache and the pending deletes show exactly the
unspent outputs of the chain; each of them can be spent, and yields its own entry; and every
valid batch of blocks can be advanced, with the outputs that it spends as undo information. -/
theorem Run.shows_unspent {env : Env} {s : BlockProcessor} {chain : List Block}
    (h : Run env (OwnUndos env) s chain) :
    TablesShow s.db.utxoDb s.utxoCache s.dbDeletes (unspent env.coin chain) ∧
    (∀ op u, unspent env.coin chain op = some u → ∃ utxoCache dbDeletes,
      BlockProcessor.spendUtxo s.db s.utxoCache s.dbDeletes op.txid.val op.idx =
        .ok (packed u, utxoCache, dbDeletes) ∧
      TablesShow s.db.utxoDb utxoCache dbDeletes
        (Function.update (unspent env.coin chain) op none)) ∧
    ∀ blocks, blocks ≠ [] → ValidChain env.coin (chain ++ blocks) → ∀ cachedHeight, ∃ s',
      s.advanceBlocks env cachedHeight blocks = .ok s' ∧
      s'.undoInfos = s.undoInfos ++
        undosFrom env (DB.minUndoHeight env cachedHeight) chain blocks := by
  obtain ⟨recorded, stored, hi⟩ := h.indexed
  have hN := numbered hi.valid
  have hr := hi.recorded_prefix.trans hi.stored_prefix
  have hrv : ValidChain env.coin recorded := by
    obtain ⟨_, hc⟩ := hr
    exact (hc ▸ hi.valid).left
  have hh := hi.db.hashesFound hi.recorded_prefix hrv.ledger.keys_nodup hi.counts_eq (.inl hr)
  refine ⟨hi.utxo.tablesShow hN, fun op u hu ↦ ?_, fun blocks hne hv cachedHeight ↦ ?_⟩
  · obtain ⟨utxoCache, dbDeletes, hs, hu'⟩ := hi.utxo.spendUtxo hN hh hu
    exact ⟨utxoCache, dbDeletes, hs, hu'.tablesShow hN⟩
  · obtain ⟨s', hs, -, -, hundo⟩ := hi.advanceBlocks hne hv cachedHeight
    exact ⟨s', hs, hundo⟩

theorem sampleAdvance_shows : ∃ s, sampleAdvance = .ok s ∧
    TablesShow s.db.utxoDb s.utxoCache s.dbDeletes
      (unspent sampleCoin [sampleGenesis, sampleA]) := by
  obtain ⟨s, hs, -⟩ : ∃ s, sampleAdvance = .ok s ∧ True := by decide +kernel
  have r : Run sampleEnv (OwnUndos sampleEnv) s _ := sampleAdvance_run hs
  exact ⟨s, hs, r.shows_unspent.1⟩

/-! ### The histories -/

/-- In every state of a run without unflushed history, `get_txnums` yields the numbers of the
transactions of the chain that touch the script hash, in increasing order. -/
theorem Run.txnums_eq_touching {env : Env} {s : BlockProcessor} {chain : List Block}
    (h : Run env (OwnUndos env) s chain) (hu : s.db.history.unflushed.toList = [])
    (hashX : HashX) :
    s.db.history.getTxnums hashX.val none = .ok (touching env.coin chain hashX) ∧
    (touching env.coin chain hashX).Pairwise (· < ·) ∧
    ∀ limit : Nat, s.db.history.getTxnums hashX.val (some limit) =
      .ok ((touching env.coin chain hashX).take limit) := by
  obtain ⟨recorded, stored, hi⟩ := h.indexed
  obtain ⟨rows, pend, hist⟩ := hi.history
  have hpend : pend hashX = [] := hist.unflushed.eq_nil hu hashX
  have hnum : numbers rows hashX = touching env.coin chain hashX := by
    rw [← hist.chainRows hashX, hpend, List.append_nil]
  refine ⟨?_, touching_pairwise chain hashX, fun limit ↦ ?_⟩
  · rw [hist.table.getTxnums_none, hnum]
  · rw [hist.table.getTxnums_some, hnum]

theorem sampleReorg_txnums : ∃ s, (do
      let s ← sampleAdvance
      s.backupChunk sampleEnv [sampleA.raw]) = .ok s ∧
    s.db.history.getTxnums (sampleCoin.hashXFromScript [1]).val none = .ok [] ∧
    s.db.history.getTxnums (sampleCoin.hashXFromScript [2]).val none = .ok [0] := by
  obtain ⟨s, hs, hu⟩ : ∃ s, (do
      let s ← sampleAdvance
      s.backupChunk sampleEnv [sampleA.raw]) = .ok s ∧
    s.db.history.unflushed.toList = [] := by decide +kernel
  obtain ⟨s0, h0, hown⟩ : ∃ s, sampleAdvance = .ok s ∧
    OwnUndos sampleEnv s.db [sampleGenesis] [sampleA] := by decide +kernel
  obtain ⟨s0', h0', h⟩ := bind_eq_ok.mp hs
  cases h0.symm.trans h0'
  have r0 : Run sampleEnv (OwnUndos sampleEnv) s0 ([sampleGenesis] ++ [sampleA]) :=
    sampleAdvance_run h0
  have r := Run.backedUp r0 hown h
  have h1 : touching sampleCoin [sampleGenesis] (sampleCoin.hashXFromScript [1]) = [] := by
    decide +kernel
  have h2 : touching sampleCoin [sampleGenesis] (sampleCoin.hashXFromScript [2]) = [0] := by
    decide +kernel
  refine ⟨s, hs, ?_, ?_⟩
  · rw [← h1]
    exact (r.txnums_eq_touching hu _).1
  · rw [← h2]
    exact (r.txnums_eq_touching hu _).1

/-! ### A stale undo row

With a reorganisation limit of one, the undo row of `a` outlasts its file. Block `b` is advanced
in `a`'s place together with a block on top of it, which deletes the file. When both are undone,
the file of `b` is missing, the daemon sends the chunk, and `b` is backed up with the undo row of
`a`. -/

/-- The hex hashes of blocks in the order in which they are backed up. -/
def hexHashes (env : Env) (blocks : List Block) : List String :=
  (blocks.map fun b ↦ hashToHexStr (env.coin.headerHash b.header)).reverse

/-- The blocks on top of a chain are those that `get_raw_blocks` gets to back up, from their files
or from the daemon. -/
def Received (env : Env) (db : DB) (chain blocks : List Block) : Prop :=
  BlockProcessor.getRawBlocks (fun _ ↦ .ok (blocks.map (·.raw)).reverse) db
    (chain.length + blocks.length - 1) (hexHashes env blocks) = .ok (blocks.map (·.raw)).reverse

instance (env : Env) (db : DB) (chain blocks : List Block) :
    Decidable (Received env db chain blocks) := inferInstanceAs (Decidable (_ = _))

/-- A reorganisation of one chunk backs up blocks that it receives. -/
theorem Run.reorgChain {env : Env} {guard : DB → List Block → List Block → Prop}
    {blockHexHashes : Int → Int → Except PyError (List String)}
    {daemonRawBlocks : List String → Except PyError (List Bytes)}
    {s flushed s' : BlockProcessor} {chain blocks : List Block} {count : Option Int}
    {range : Int × Int × List Bytes} (r : Run env guard s (chain ++ blocks))
    (hflush : s.flush env true = .ok flushed)
    (hrange : flushed.reorgHashes env blockHexHashes count = .ok range)
    (hchunk : BlockProcessor.reorgChunks range.2.2 = [hexHashes env blocks])
    (hraw : BlockProcessor.getRawBlocks daemonRawBlocks flushed.db range.2.1
      (hexHashes env blocks) = .ok (blocks.map (·.raw)).reverse)
    (hg : guard flushed.db chain blocks)
    (h : s.reorgChain env blockHexHashes daemonRawBlocks count = .ok s') :
    Run env guard s' chain := by
  rw [BlockProcessor.reorgChain,
    BlockProcessor.reorgChainBy_of_chunk hflush hrange hchunk hraw] at h
  exact .backedUp (.flushed true r hflush) hg h

/-- Block 4 has a payment before the transactions of block `a`. -/
def staleTxs : UInt8 → List Tx
  | 4 => samplePayment [14] 1 [4] :: sampleTxs 1
  | 5 => [samplePayment [15] 2 [5]]
  | id => sampleTxs id

/-- Undo information is kept of one block. -/
def staleEnv : Env :=
  { sampleEnv with
    coin := { sampleCoin with deserializer := fun raw _ ↦ .ok (staleTxs (raw.headD 0)) }
    reorgLimit := 1 }

/-- The block on top of `b`. -/
def sampleTop : Block := sampleBlock 3 (sampleCoin.headerHash sampleB.header)

/-- The daemon's `raw_blocks`. -/
def sampleRawBlocks (hexHashes : List String) : Except PyError (List Bytes) :=
  .ok (hexHashes.flatMap fun hexHash ↦ ([sampleA, sampleB, sampleTop].filter fun b ↦
    hashToHexStr (sampleCoin.headerHash b.header) = hexHash).map (·.raw))

/-- Blocks are advanced and flushed, and `touched` is reset. -/
def sampleBatch (s : BlockProcessor) (cachedHeight : Int) (blocks : List Block) :
    Except PyError BlockProcessor := do
  let s ← s.advanceBlocks staleEnv cachedHeight blocks
  let s ← s.flush staleEnv true
  return { s with touched := ∅ }

/-- The chain is reorganised by a number of blocks. -/
def sampleReorg (s : BlockProcessor) (count : Int) : Except PyError BlockProcessor :=
  s.reorgChain staleEnv (fun _ _ ↦ .ok []) sampleRawBlocks (some count)

/-- A block is advanced on top of the first one. -/
def sampleFirst (a : Block) : Except PyError BlockProcessor := do
  let s ← BlockProcessor.firstOpenDbs staleEnv { created := false }
  let s ← sampleBatch s 1 [sampleGenesis]
  sampleBatch s 1 [a]

/-- The block is undone, and `b` is advanced with the block on top of it. -/
def sampleSecond (a : Block) : Except PyError BlockProcessor := do
  sampleBatch (← sampleReorg (← sampleFirst a) 1) 2 [sampleB, sampleTop]

/-- Both blocks are undone. -/
def sampleUndone (a : Block) : Except PyError BlockProcessor := do
  sampleReorg (← sampleSecond a) 2

def sampleStale : Except PyError BlockProcessor := sampleUndone sampleA

theorem sampleBatch_run {guard : DB → List Block → List Block → Prop} {s s' : BlockProcessor}
    {chain blocks : List Block} {cachedHeight : Int} (r : Run staleEnv guard s chain)
    (hv : ValidChain staleEnv.coin (chain ++ blocks))
    (h : sampleBatch s cachedHeight blocks = .ok s') : Run staleEnv guard s' (chain ++ blocks) := by
  obtain ⟨s1, h1, h⟩ := bind_eq_ok.mp h
  obtain ⟨s2, h2, h⟩ := bind_eq_ok.mp h
  cases h
  exact .notified (.flushed true (.advanced cachedHeight r hv h1) h2)

/-- What a sample reorganisation gets are the blocks on top of a chain. -/
def SampleGets (s : BlockProcessor) (chain blocks : List Block) (count : Int) : Prop :=
  ∃ flushed, s.flush staleEnv true = .ok flushed ∧ ∃ range,
    flushed.reorgHashes staleEnv (fun _ _ ↦ .ok []) (some count) = .ok range ∧
    BlockProcessor.reorgChunks range.2.2 = [hexHashes staleEnv blocks] ∧
    BlockProcessor.getRawBlocks sampleRawBlocks flushed.db range.2.1 (hexHashes staleEnv blocks) =
      .ok (blocks.map (·.raw)).reverse ∧ Received staleEnv flushed.db chain blocks

instance (s : BlockProcessor) (chain blocks : List Block) (count : Int) :
    Decidable (SampleGets s chain blocks count) := inferInstanceAs (Decidable (∃ _, _ ∧ _))

theorem sampleReorg_run {s s' : BlockProcessor} {chain blocks : List Block} {count : Int}
    (r : Run staleEnv (Received staleEnv) s (chain ++ blocks))
    (hg : SampleGets s chain blocks count) (h : sampleReorg s count = .ok s') :
    Run staleEnv (Received staleEnv) s' chain := by
  obtain ⟨flushed, hflush, range, hrange, hchunk, hraw, hreceived⟩ := hg
  exact r.reorgChain hflush hrange hchunk hraw hreceived h

/-- The reorganisations of the run get the blocks that they undo. -/
structure SampleFork (a : Block) : Prop where
  valid : ValidChain staleEnv.coin ([sampleGenesis] ++ [a])
  first : ∃ s, sampleFirst a = .ok s ∧ SampleGets s [sampleGenesis] [a] 1
  second : ∃ s, sampleSecond a = .ok s ∧ SampleGets s [sampleGenesis] [sampleB, sampleTop] 2

theorem sampleUndone_run {a : Block} (hf : SampleFork a) {s : BlockProcessor}
    (h : sampleUndone a = .ok s) : Run staleEnv (Received staleEnv) s [sampleGenesis] := by
  have hv : ValidChain staleEnv.coin ([sampleGenesis] ++ [sampleB, sampleTop]) := by decide +kernel
  obtain ⟨s2, h2, h⟩ := bind_eq_ok.mp h
  obtain ⟨s2', h2', hg2⟩ := hf.second
  cases h2.symm.trans h2'
  obtain ⟨s1, h1, h2⟩ := bind_eq_ok.mp h2
  obtain ⟨s1', h1', hg1⟩ := hf.first
  cases h1.symm.trans h1'
  obtain ⟨s0, h0, h1⟩ := bind_eq_ok.mp h1
  obtain ⟨s3, h3, h1⟩ := bind_eq_ok.mp h1
  obtain ⟨s4, h4, h2⟩ := bind_eq_ok.mp h2
  have r1 : Run staleEnv (Received staleEnv) s1 ([sampleGenesis] ++ [a]) :=
    sampleBatch_run (sampleBatch_run (.opened h0) hf.valid.left h3) hf.valid h1
  exact sampleReorg_run (sampleBatch_run (sampleReorg_run r1 hg1 h4) hv h2) hg2 h

theorem sampleStale_run {s : BlockProcessor} (h : sampleStale = .ok s) :
    Run staleEnv (Received staleEnv) s [sampleGenesis] :=
  sampleUndone_run ⟨by decide +kernel, by decide +kernel, by decide +kernel⟩ h

/-- The transaction of block `b` stays in the history of the script whose output it spent. -/
theorem sampleStale_txnums : ∃ s, sampleStale = .ok s ∧ s.db.history.unflushed.toList = [] ∧
    s.db.history.getTxnums (staleEnv.coin.hashXFromScript [2]).val none = .ok [0, 1] := by
  decide +kernel

/-- Also when every block that is backed up is one that `get_raw_blocks` has got, the histories
need not be those of the chain. -/
theorem not_txnums_eq_touching : ¬ ∀ (env : Env) (s : BlockProcessor) (chain : List Block),
    Run env (Received env) s chain → s.db.history.unflushed.toList = [] → ∀ hashX : HashX,
    s.db.history.getTxnums hashX.val none = .ok (touching env.coin chain hashX) := by
  intro h
  obtain ⟨s, hs, hu, ht⟩ := sampleStale_txnums
  have he := (h _ _ _ (sampleStale_run hs) hu (staleEnv.coin.hashXFromScript [2])).symm.trans ht
  exact absurd he (by decide +kernel)

end ElectrumX.Index
