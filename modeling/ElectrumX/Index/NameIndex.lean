import ElectrumX.Index.Methods
import ElectrumX.Index.TxOrder
import ElectrumX.Server.NameIndexBlockProcessor

/-!
# Blocks with names

What `NameIndexBlockProcessor` puts into the history. The numbers of the transactions that
name a script hash follow those of the whole block that spend or pay it, so the history is
that of the chain as long as no transaction names a script hash before the block is done
with it; and it is cut back with the blocks whose names `touched` knows.
-/

namespace ElectrumX.Index
open ElectrumX.Base ElectrumX.Lib ElectrumX.Chain ElectrumX.Server

section Names

variable (coin : Coin) (nameHashX : Bytes → Option HashX)

/-- The script hashes of the names in the outputs of transaction `n` of the chain. -/
def namesAt (chain : List Block) (n : Nat) : List HashX :=
  ((txs chain)[n]?).elim [] (NameIndexBlockProcessor.hashXsOfTx nameHashX)

/-- The numbers of the transactions that spend, pay or name a script hash, in increasing order. -/
def telling (chain : List Block) (hashX : HashX) : List Nat :=
  (List.range (txCount chain)).filter fun n ↦
    Touches coin chain n hashX ∨ hashX ∈ namesAt nameHashX chain n

/-- In every block, a transaction that names a script hash comes after all that spend or pay it. -/
def NamesFollow (chain : List Block) : Prop :=
  ∀ i < chain.length, ∀ n < txCount (chain.take (i + 1)), txCount (chain.take i) ≤ n →
    ∀ hashX ∈ namesAt nameHashX chain n, ∀ m < txCount (chain.take (i + 1)),
      txCount (chain.take i) ≤ m → Touches coin chain m hashX → m < n

instance (chain : List Block) : Decidable (NamesFollow coin nameHashX chain) :=
  inferInstanceAs (Decidable (∀ i < chain.length, _))

/-- The script hashes that the blocks to be backed up name are in `touched` already, or spent or
paid in one of these blocks. -/
def NamesKnown (s : BlockProcessor) (c bs : List Block) : Prop :=
  ∀ n < txCount (c ++ bs), txCount c ≤ n → ∀ hashX ∈ namesAt nameHashX (c ++ bs) n,
    hashX.val ∈ s.touched ∨ ∃ k ∈ touching coin (c ++ bs) hashX, txCount c ≤ k

instance (s : BlockProcessor) (c bs : List Block) :
    Decidable (NamesKnown coin nameHashX s c bs) :=
  inferInstanceAs (Decidable (∀ n < txCount (c ++ bs), _))

variable {coin nameHashX}

theorem namesAt_append {a : List Block} (b : List Block) {n : Nat} (hn : n < txCount a) :
    namesAt nameHashX (a ++ b) n = namesAt nameHashX a n := by
  rw [namesAt, namesAt, txs_append, List.getElem?_append_left hn]

theorem namesAt_concat {a : List Block} (b : Block) {n : Nat} (hn : txCount a ≤ n) :
    namesAt nameHashX (a ++ [b]) n =
      (b.transactions[n - txCount a]?).elim []
        (NameIndexBlockProcessor.hashXsOfTx nameHashX) := by
  rw [namesAt, txs_append, txs_singleton, List.getElem?_append_right hn]
  rfl

theorem telling_pairwise (chain : List Block) (hashX : HashX) :
    (telling coin nameHashX chain hashX).Pairwise (· < ·) :=
  List.pairwise_lt_range.filter _

theorem mem_telling {chain : List Block} {hashX : HashX} {n : Nat} :
    n ∈ telling coin nameHashX chain hashX ↔
      n < txCount chain ∧ (Touches coin chain n hashX ∨ hashX ∈ namesAt nameHashX chain n) := by
  rw [telling, List.mem_filter, List.mem_range, decide_eq_true_iff]

theorem Touches.lt {chain : List Block} {n : Nat} {hashX : HashX}
    (h : Touches coin chain n hashX) : n < txCount chain := by
  obtain ⟨e, he, -⟩ := h
  rw [← length_ledger]
  exact (List.getElem?_eq_some_iff.mp he).1

theorem lt_of_mem_namesAt {chain : List Block} {n : Nat} {hashX : HashX}
    (h : hashX ∈ namesAt nameHashX chain n) : n < txCount chain := by
  by_contra hn
  rw [namesAt, List.getElem?_eq_none (by rw [txCount] at hn; omega)] at h
  cases h

theorem mem_namesAt {chain : List Block} {n : Nat} {hashX : HashX} :
    hashX ∈ namesAt nameHashX chain n ↔
      ∃ tx ∈ (txs chain)[n]?, ∃ txout ∈ tx.outputs, nameHashX txout.pkScript = some hashX := by
  rw [namesAt]
  cases (txs chain)[n]? with
  | none => simp
  | some tx => simp [NameIndexBlockProcessor.hashXsOfTx]

/-- Cutting at the transaction count of a prefix leaves the transactions of the prefix. -/
theorem telling_filter {a : List Block} (b : List Block) (ha : Ledger.Closed (ledger coin a))
    (hashX : HashX) : (telling coin nameHashX (a ++ b) hashX).filter (· < txCount a) =
      telling coin nameHashX a hashX := by
  apply List.Pairwise.eq_of_mem_iff ((telling_pairwise _ _).filter _) (telling_pairwise _ _)
  intro n
  rw [List.mem_filter, mem_telling, mem_telling, decide_eq_true_iff, txCount_append]
  by_cases hn : n < txCount a
  · rw [touches_append ha hn, namesAt_append b hn]
    exact ⟨fun h ↦ ⟨hn, h.1.2⟩, fun h ↦ ⟨⟨by omega, h.2⟩, hn⟩⟩
  · exact ⟨fun h ↦ absurd h.2 hn, fun h ↦ absurd h.1 hn⟩

theorem NamesFollow.left {a b : List Block} (h : NamesFollow coin nameHashX (a ++ b))
    (ha : Ledger.Closed (ledger coin a)) : NamesFollow coin nameHashX a := by
  intro i hi n hn hin hashX hx m hm him ht
  have hle : txCount (a.take (i + 1)) ≤ txCount a := txCount_mono (List.take_prefix _ _)
  have htake : ∀ j ≤ a.length, (a ++ b).take j = a.take j := fun j hj ↦
    List.take_append_of_le_length hj
  have h := h i (by rw [List.length_append]; omega) n
  rw [htake _ hi, htake _ (by omega), namesAt_append b (by omega)] at h
  exact h hn hin hashX hx m hm him ((touches_append ha (by omega) hashX).mpr ht)

/-! ### What a block adds -/

theorem mem_numbersFrom {hss : List (List HashX)} {k n : Nat} {hashX : HashX} :
    n ∈ numbersFrom k hss hashX ↔ k ≤ n ∧ ∃ hs ∈ hss[n - k]?, hashX ∈ hs := by
  rw [numbersFrom, List.mem_filterMap]
  constructor
  · rintro ⟨⟨hs, m⟩, hm, h⟩
    obtain ⟨hk, hs'⟩ := List.mk_mem_zipIdx_iff_le_and_getElem?_sub.mp hm
    split at h
    · next hx =>
      cases h
      exact ⟨hk, hs, hs', hx⟩
    · cases h
  · rintro ⟨hk, hs, hs', hx⟩
    exact ⟨(hs, n), List.mk_mem_zipIdx_iff_le_and_getElem?_sub.mpr ⟨hk, hs'⟩, if_pos hx⟩

theorem numbersFrom_pairwise (k : Nat) (hss : List (List HashX)) (hashX : HashX) :
    (numbersFrom k hss hashX).Pairwise (· < ·) := by
  have hz : (hss.zipIdx k).Pairwise (fun s t ↦ s.2 < t.2) := by
    have h : ((hss.zipIdx k).map Prod.snd).Pairwise (· < ·) := by
      rw [List.zipIdx_map_snd]
      exact List.pairwise_lt_range' ..
    exact List.pairwise_map.mp h
  refine hz.filterMap _ fun s t hst m hm n hn ↦ ?_
  split at hm
  · split at hn
    · cases hm
      cases hn
      exact hst
    · cases hn
  · cases hm

section Block

variable {a : List Block} {b : Block} {hashX : HashX}

private theorem mem_numbersFrom_touches {n : Nat} :
    n ∈ numbersFrom (txCount a) ((entries coin (coin.isUnspendableAt a.length) (txCount a)
      b.transactions).map (hashXsOf (ledger coin (a ++ [b])))) hashX ↔
    txCount a ≤ n ∧ Touches coin (a ++ [b]) n hashX := by
  rw [mem_numbersFrom]
  refine and_congr_right fun hn ↦ ?_
  rw [Touches, ledger_concat, List.getElem?_append_right (by rwa [length_ledger]), length_ledger,
    List.getElem?_map]
  simp only [Option.mem_def, Option.map_eq_some_iff]
  constructor
  · rintro ⟨_, ⟨e, he, rfl⟩, hx⟩
    exact ⟨e, he, hx⟩
  · rintro ⟨e, he, hx⟩
    exact ⟨_, ⟨e, he, rfl⟩, hx⟩

private theorem mem_numbersFrom_names {n : Nat} :
    n ∈ numbersFrom (txCount a)
      (b.transactions.map (NameIndexBlockProcessor.hashXsOfTx nameHashX)) hashX ↔
    txCount a ≤ n ∧ hashX ∈ namesAt nameHashX (a ++ [b]) n := by
  rw [mem_numbersFrom]
  refine and_congr_right fun hn ↦ ?_
  rw [namesAt_concat b hn, List.getElem?_map]
  cases b.transactions[n - txCount a]? with
  | none => simp
  | some tx => simp

/-- The two passes over a block add its transactions in order exactly when no transaction names
the script hash at or before one that spends or pays it. -/
theorem telling_concat_iff (ha : Ledger.Closed (ledger coin a)) :
    telling coin nameHashX (a ++ [b]) hashX = telling coin nameHashX a hashX ++
        numbersFrom (txCount a) ((entries coin (coin.isUnspendableAt a.length) (txCount a)
          b.transactions).map (hashXsOf (ledger coin (a ++ [b])))) hashX ++
        numbersFrom (txCount a)
          (b.transactions.map (NameIndexBlockProcessor.hashXsOfTx nameHashX)) hashX ↔
      ∀ n, txCount a ≤ n → hashX ∈ namesAt nameHashX (a ++ [b]) n →
        ∀ m, txCount a ≤ m → Touches coin (a ++ [b]) m hashX → m < n := by
  constructor
  · intro h n hn hx m hm ht
    have hp : (telling coin nameHashX (a ++ [b]) hashX).Pairwise (· < ·) := telling_pairwise _ _
    rw [h] at hp
    exact (List.pairwise_append.mp hp).2.2 m
      (List.mem_append_right _ (mem_numbersFrom_touches.mpr ⟨hm, ht⟩)) n
      (mem_numbersFrom_names.mpr ⟨hn, hx⟩)
  · intro h
    apply List.Pairwise.eq_of_mem_iff (telling_pairwise _ _)
    · refine List.pairwise_append.mpr ⟨List.pairwise_append.mpr ⟨telling_pairwise _ _,
        numbersFrom_pairwise _ _ _, fun m hm n hn ↦ ?_⟩, numbersFrom_pairwise _ _ _,
        fun m hm n hn ↦ ?_⟩
      · have := (mem_telling.mp hm).1
        have := (mem_numbersFrom_touches.mp hn).1
        omega
      · obtain ⟨hle, hx⟩ := mem_numbersFrom_names.mp hn
        rcases List.mem_append.mp hm with hm | hm
        · have := (mem_telling.mp hm).1
          omega
        · obtain ⟨hm, ht⟩ := mem_numbersFrom_touches.mp hm
          exact h n hle hx m hm ht
    · intro n
      rw [List.mem_append, List.mem_append, mem_numbersFrom_touches, mem_numbersFrom_names,
        mem_telling, mem_telling]
      by_cases hn : n < txCount a
      · have hlt : n < txCount (a ++ [b]) := by
          rw [txCount_append]
          omega
        have hle : ¬ txCount a ≤ n := by omega
        rw [touches_append ha hn, namesAt_append [b] hn]
        simp [hn, hlt, hle]
      · have hle : txCount a ≤ n := by omega
        simp only [hn, hle, false_and, true_and, false_or]
        exact ⟨fun h ↦ h.2, fun h ↦ ⟨h.elim Touches.lt lt_of_mem_namesAt, h⟩⟩

/-- A block whose names follow adds its transactions to the history in order. -/
theorem NamesFollow.telling_concat (h : NamesFollow coin nameHashX (a ++ [b]))
    (ha : Ledger.Closed (ledger coin a)) :
    telling coin nameHashX (a ++ [b]) hashX = telling coin nameHashX a hashX ++
      numbersFrom (txCount a) ((entries coin (coin.isUnspendableAt a.length) (txCount a)
        b.transactions).map (hashXsOf (ledger coin (a ++ [b])))) hashX ++
      numbersFrom (txCount a)
        (b.transactions.map (NameIndexBlockProcessor.hashXsOfTx nameHashX)) hashX := by
  refine (telling_concat_iff ha).mpr fun n hn hx m hm ht ↦ ?_
  have h := h a.length (by simp) n
  rw [List.take_of_length_le (by simp), List.take_left] at h
  exact h (lt_of_mem_namesAt hx) hn hashX hx m (Touches.lt ht) hm ht

end Block
end Names

/-! ### The methods -/

section Methods

variable {env : Env} {nameHashX : Bytes → Option HashX} {s : BlockProcessor}
variable {recorded stored chain : List Block}

/-- Advancing a block whose names follow keeps the invariant. -/
theorem HeldCore.advanceNames (h : HeldCore env (telling env.coin nameHashX) s recorded stored chain)
    {b : Block} (hv : ValidChain env.coin (chain ++ [b]))
    (hn : NamesFollow env.coin nameHashX (chain ++ [b])) :
    ∃ s', NameIndexBlockProcessor.advanceTxs env nameHashX s b.transactions
        (env.coin.isUnspendableAt chain.length) =
          .ok ((spentBy env.coin chain b).map packed, s') ∧
      HeldCore env (telling env.coin nameHashX) s' recorded stored (chain ++ [b]) ∧
      KeepsRest s s' := by
  obtain ⟨t, k, c, d, touched, hr, hu, ⟨rows, pend, hist⟩, ht⟩ := h.advanceTxs hv
  have hlt := hv.txCount
  have hcount : txCount (chain ++ [b]) = txCount chain + b.transactions.length :=
    txCount_concat ..
  set hss := b.transactions.map (NameIndexBlockProcessor.hashXsOfTx nameHashX) with hhss
  obtain ⟨t', k', pend', ha, hist'⟩ := hist.addUnflushed hss (txCount chain)
    (by rw [hhss, List.length_map]; omega)
  refine ⟨Index.afterTxs s b t' k' c d ((hss.map (·.map (·.val))).flatten.foldl
    (fun t hashX ↦ t.insert hashX) touched), ?_, h.afterTxs hv.headersFit (Index.numbered hv) hu
      ⟨rows, pend', { hist' with chainRows := fun hashX ↦ ?_ }⟩ fun x hx ↦ ?_,
    ⟨⟨rfl, rfl, rfl⟩, rfl, rfl, rfl⟩⟩
  · have hsub : (Index.afterTxs s b t k c d touched).txCount - b.transactions.length =
        txCount chain := by
      change s.txCount + b.transactions.length - b.transactions.length = _
      rw [Nat.add_sub_cancel, h.txCount_eq]
    have ha' : (Index.afterTxs s b t k c d touched).db.history.addUnflushed
        (hss.map (·.map (·.val))) (txCount chain) = _ := ha
    rw [NameIndexBlockProcessor.advanceTxs]
    simp only [hr, bind, Except.bind]
    rw [hsub, ← hhss, ha']
    rfl
  · rw [hist'.chainRows, hn.telling_concat hv.left.ledger.closed]
  · rcases (mem_foldl_insert _ _ _).mp hx with hx | hx
    · exact ht x hx
    · obtain ⟨xs, hxs, hx⟩ := List.mem_flatten.mp hx
      obtain ⟨hs, -, rfl⟩ := List.mem_map.mp hxs
      obtain ⟨hashX, -, rfl⟩ := List.mem_map.mp hx
      exact hashX.property

/-- What the processor of blocks with names does. -/
theorem nameIndexLaws (env : Env) (nameHashX : Bytes → Option HashX) :
    MethodLaws env (NameIndexBlockProcessor.methods env nameHashX) (telling env.coin nameHashX)
      fun chain ↦ ValidChain env.coin chain ∧ NamesFollow env.coin nameHashX chain where
  anyOrder h := h.1.anyOrder
  left h := ⟨h.1.left, h.2.left h.1.left.ledger.closed⟩
  tells_nil _ := rfl
  sorted _ := telling_pairwise _
  cut h hashX := telling_filter _ h.1.left.ledger.closed hashX
  advance h hv := h.advanceNames hv.1 hv.2
  backup h hv hp hown := h.backupTxs hv.1 hp hown

/-- The script hashes that the history of the blocks tells of are known when the named ones are. -/
theorem NamesKnown.covered {c bs : List Block} (h : NamesKnown env.coin nameHashX s c bs) :
    Covered env (telling env.coin nameHashX) s c bs := by
  intro hashX n hn hle
  obtain ⟨hlt, ht | hx⟩ := mem_telling.mp hn
  · refine .inr ⟨n, List.mem_filter.mpr ⟨List.mem_range.mpr hlt, ?_⟩, hle⟩
    exact decide_eq_true ht
  · exact h n hlt hle hashX hx

end Methods

/-! ### Histories -/

/-- A run of the processor of blocks with names, on valid chains and whose back-ups satisfy the
guard. -/
abbrev NameRun (env : Env) (nameHashX : Bytes → Option HashX) (valid : List Block → Prop)
    (guard : BlockProcessor → List Block → List Block → Prop) : BlockProcessor → List Block → Prop :=
  MethodRun env (NameIndexBlockProcessor.methods env nameHashX) valid guard

/-- In every state without unflushed history of a run in which no transaction names a script hash
before its block is done with it, and in which back-ups find the undo rows of their blocks and
the names of these blocks are known, `get_txnums` yields in increasing order the numbers of
exactly the transactions of the chain that spend, pay or name the script hash. -/
theorem NameRun.txnums_exact {env : Env} {nameHashX : Bytes → Option HashX} {s : BlockProcessor}
    {chain : List Block}
    (r : NameRun env nameHashX
      (fun chain ↦ ValidChain env.coin chain ∧ NamesFollow env.coin nameHashX chain)
      (fun s c bs ↦ OwnUndos env s.db c bs ∧ NamesKnown env.coin nameHashX s c bs) s chain)
    (hu : s.db.history.unflushed.toList = []) (hashX : HashX) :
    ∃ txNums, s.db.history.getTxnums hashX.val none = .ok txNums ∧ txNums.Pairwise (· < ·) ∧
      ∀ n, n ∈ txNums ↔
        Touches env.coin chain n hashX ∨
        ∃ tx ∈ (txs chain)[n]?, ∃ txout ∈ tx.outputs, nameHashX txout.pkScript = some hashX := by
  have laws := nameIndexLaws env nameHashX
  obtain ⟨-, recorded, stored, hi⟩ := laws.held (r.mono fun s c bs hg ↦ ⟨hg.1, hg.2.covered⟩)
  obtain ⟨rows, pend, hist⟩ := hi.history
  have hpend : pend hashX = [] := hist.unflushed.eq_nil hu hashX
  have hnum : numbers rows hashX = telling env.coin nameHashX chain hashX := by
    rw [← hist.chainRows hashX, hpend, List.append_nil]
  refine ⟨_, hnum ▸ hist.table.getTxnums_none hashX, telling_pairwise chain hashX, fun n ↦ ?_⟩
  rw [mem_telling, mem_namesAt]
  exact ⟨fun h ↦ h.2, fun h ↦ ⟨h.elim Touches.lt fun hx ↦ lt_of_mem_namesAt (mem_namesAt.mpr hx), h⟩⟩

/-! ### Sample runs -/

/-- A script that updates a name, in front of an address script. -/
def sampleUpdate (name addressScript : Bytes) : Bytes :=
  0x53 :: Script.pushData name ++ Script.pushData [1] ++ [0x6d, 0x75] ++ addressScript

/-- The transactions of blocks with names: the last one also pays the script of its name. -/
def namedTxs : UInt8 → List Tx
  | 0 => [samplePayment [10] 5 [2]]
  | 1 => [samplePayment [11] 7 (sampleUpdate [7] [0xac])]
  | _ => [samplePayment [12] 7
      (sampleUpdate [7] (NameCoin.namecoin.buildNameIndexScript [7]))]

def namedBase : Coin :=
  { sampleCoin with deserializer := fun raw _ ↦ .ok (namedTxs (raw.headD 0)) }

def namedEnv : Env := { sampleEnv with coin := NameCoin.namecoin.coin namedBase }

def namedHashX : Bytes → Option HashX := NameCoin.namecoin.nameHashXFromScript namedBase

def namedBlock (id : UInt8) (prevhash : Bytes) : Block :=
  { sampleBlock id prevhash with transactions := namedTxs id }

def namedGenesis : Block := namedBlock 0 (List.replicate 32 0)
def namedA : Block := namedBlock 1 (namedEnv.coin.headerHash namedGenesis.header)
def namedTwice : Block := namedBlock 2 (namedEnv.coin.headerHash namedGenesis.header)

/-- The script hash of the name. -/
def sampleName : HashX :=
  namedBase.hashXFromScript (NameCoin.namecoin.buildNameIndexScript [7])

example : namedHashX (sampleUpdate [7] [0xac]) = some sampleName := by decide +kernel

/-- A block with a name is advanced on top of the first one, and flushed. -/
def sampleNamed (b : Block) : Except PyError BlockProcessor := do
  let s ← BlockProcessor.firstOpenDbs namedEnv { created := false }
  let s ← (NameIndexBlockProcessor.methods namedEnv namedHashX).advanceBlocks namedEnv s 1
    [namedGenesis]
  let s ← (NameIndexBlockProcessor.methods namedEnv namedHashX).advanceBlocks namedEnv s 1 [b]
  s.flush namedEnv true

theorem sampleNamed_run {valid : List Block → Prop}
    {guard : BlockProcessor → List Block → List Block → Prop} {b : Block} {s : BlockProcessor}
    (hv : valid [namedGenesis]) (hb : valid [namedGenesis, b]) (h : sampleNamed b = .ok s) :
    NameRun namedEnv namedHashX valid guard s ([namedGenesis] ++ [b]) := by
  obtain ⟨s0, h0, h⟩ := bind_eq_ok.mp h
  obtain ⟨s1, h1, h⟩ := bind_eq_ok.mp h
  obtain ⟨s2, h2, h⟩ := bind_eq_ok.mp h
  have r0 : NameRun namedEnv namedHashX valid guard s0 [] := .opened h0
  have r1 : NameRun namedEnv namedHashX valid guard s1 ([] ++ [namedGenesis]) :=
    .advanced 1 r0 hv h1
  exact .flushed true (.advanced 1 r1 hb h2) h

/-- A block with a name is backed up before a notification resets `touched`. -/
theorem sampleNamed_txnums : ∃ s, (do
      let s ← sampleNamed namedA
      (NameIndexBlockProcessor.methods namedEnv namedHashX).backupChunk namedEnv s
        [namedA.raw]) = .ok s ∧
    ∃ txNums, s.db.history.getTxnums sampleName.val none = .ok txNums ∧ 1 ∉ txNums := by
  obtain ⟨s, hs, hu⟩ : ∃ s, (do
      let s ← sampleNamed namedA
      (NameIndexBlockProcessor.methods namedEnv namedHashX).backupChunk namedEnv s
        [namedA.raw]) = .ok s ∧ s.db.history.unflushed.toList = [] := by decide +kernel
  obtain ⟨s0, h0, hg⟩ : ∃ s, sampleNamed namedA = .ok s ∧
    OwnUndos namedEnv s.db [namedGenesis] [namedA] ∧
    NamesKnown namedEnv.coin namedHashX s [namedGenesis] [namedA] := by decide +kernel
  have hv : (ValidChain namedEnv.coin [namedGenesis] ∧
      NamesFollow namedEnv.coin namedHashX [namedGenesis]) ∧
      ValidChain namedEnv.coin [namedGenesis, namedA] ∧
      NamesFollow namedEnv.coin namedHashX [namedGenesis, namedA] := by decide +kernel
  obtain ⟨s0', h0', h⟩ := bind_eq_ok.mp hs
  cases h0.symm.trans h0'
  have r : NameRun namedEnv namedHashX
      (fun chain ↦ ValidChain namedEnv.coin chain ∧ NamesFollow namedEnv.coin namedHashX chain)
      (fun s c bs ↦ OwnUndos namedEnv s.db c bs ∧ NamesKnown namedEnv.coin namedHashX s c bs)
      s [namedGenesis] := .backedUp (sampleNamed_run hv.1 hv.2 h0) hg h
  obtain ⟨txNums, ht, -, hm⟩ := r.txnums_exact hu sampleName
  refine ⟨s, hs, txNums, ht, fun h1 ↦ ?_⟩
  have hlt : 1 < txCount [namedGenesis] := (hm 1).mp h1 |>.elim Touches.lt fun hx ↦
    lt_of_mem_namesAt (mem_namesAt.mpr hx)
  exact absurd hlt (by decide)

/-- After a notification `backup_txs` collects the address of the name's output only, so the name
keeps the transaction of the block that was backed up. -/
theorem not_txnums_exact : ¬ ∀ (nc : NameCoin) (base : Coin) (env : Env), env.coin = nc.coin base →
    ∀ (s : BlockProcessor) (chain : List Block),
    NameRun env (nc.nameHashXFromScript base) (ValidChain env.coin) (fun _ _ _ ↦ True) s chain →
    s.db.history.unflushed.toList = [] → ∀ hashX : HashX,
    ∃ txNums, s.db.history.getTxnums hashX.val none = .ok txNums ∧ txNums.Pairwise (· < ·) ∧
      ∀ n, n ∈ txNums ↔
        Touches env.coin chain n hashX ∨
        ∃ tx ∈ (txs chain)[n]?, ∃ txout ∈ tx.outputs,
          nc.nameHashXFromScript base txout.pkScript = some hashX := by
  intro hall
  obtain ⟨s0, h0, s, hs, hu, ht⟩ : ∃ s0, sampleNamed namedA = .ok s0 ∧
    ∃ s, (NameIndexBlockProcessor.methods namedEnv namedHashX).backupChunk namedEnv
      { s0 with touched := ∅ } [namedA.raw] = .ok s ∧ s.db.history.unflushed.toList = [] ∧
    s.db.history.getTxnums sampleName.val none = .ok [1] := by decide +kernel
  have hv : ValidChain namedEnv.coin [namedGenesis, namedA] := by decide +kernel
  have r : NameRun namedEnv namedHashX (ValidChain namedEnv.coin) (fun _ _ _ ↦ True) s
      [namedGenesis] :=
    .backedUp (.notified (sampleNamed_run (ValidChain.left (b := [namedA]) hv) hv h0)) trivial hs
  obtain ⟨txNums, ht', -, hm⟩ := hall NameCoin.namecoin namedBase namedEnv rfl s _ r hu sampleName
  cases ht.symm.trans ht'
  have hlt : 1 < txCount [namedGenesis] := (hm 1).mp (by simp) |>.elim Touches.lt fun hx ↦
    @lt_of_mem_namesAt namedHashX _ _ _ (mem_namesAt.mpr hx)
  exact absurd hlt (by decide)

/-- A transaction that names a script hash and pays it is there twice, without any back-up. -/
theorem not_txnums_increasing : ¬ ∀ (env : Env) (nameHashX : Bytes → Option HashX)
    (s : BlockProcessor) (chain : List Block),
    NameRun env nameHashX (ValidChain env.coin) (fun _ _ _ ↦ False) s chain →
    s.db.history.unflushed.toList = [] → ∀ (hashX : HashX) (txNums : List Nat),
    s.db.history.getTxnums hashX.val none = .ok txNums → txNums.Pairwise (· < ·) := by
  intro hall
  obtain ⟨s, hs, hu, ht⟩ : ∃ s, sampleNamed namedTwice = .ok s ∧
    s.db.history.unflushed.toList = [] ∧
    s.db.history.getTxnums sampleName.val none = .ok [1, 1] := by decide +kernel
  have hv : ValidChain namedEnv.coin [namedGenesis, namedTwice] := by decide +kernel
  have r : NameRun namedEnv namedHashX (ValidChain namedEnv.coin) (fun _ _ _ ↦ False) s
      ([namedGenesis] ++ [namedTwice]) :=
    sampleNamed_run (ValidChain.left (b := [namedTwice]) hv) hv hs
  exact absurd (hall _ _ _ _ r hu sampleName _ ht) (by decide)

end ElectrumX.Index
