import ElectrumX.Base.Ledger
import ElectrumX.Lib.Coins
import Mathlib.Data.List.Chain
import Mathlib.Data.List.Induction

/-!
# What a chain says

The purpose of the index, stated without the index. A chain of blocks is a ledger whose
keys are outpoints and whose entries are its transactions in order; an output that is
unspendable at its height creates no key and a generation input spends none. From the
ledger follow the unspent outputs, the transactions that touch a script hash, the undo
information of a block and the running totals that the files hold.
-/

namespace ElectrumX.Chain
open ElectrumX.Base ElectrumX.Lib

/-- An output of a transaction, by txid and position. -/
structure OutPoint where
  txid : Hash32
  idx : Nat
  deriving DecidableEq, Repr

/-- What the index keeps of an output. -/
structure Utxo where
  hashX : HashX
  txNum : Nat
  value : Nat
  deriving DecidableEq, Repr

/-- A transaction as a ledger entry. -/
abbrev Entry := LedgerEntry OutPoint Utxo

/-- The output that an input spends. -/
def outpoint (txin : TxInput) : OutPoint := ⟨txin.prevHash, txin.prevIdx.toNat⟩

/-- The outputs that a list of inputs spends; generation inputs spend none. -/
def spends (txins : List TxInput) : List OutPoint :=
  (txins.filter fun txin ↦ !txin.isGeneration).map outpoint

variable (coin : Coin)

/-- The spendable ones of a list of outputs, numbered from `idx`. -/
def pays (isUnspendable : Bytes → Bool) (txid : Hash32) (txNum idx : Nat)
    (txouts : List TxOutput) : List (OutPoint × Utxo) :=
  (txouts.zipIdx idx).filterMap fun o ↦
    if isUnspendable o.1.pkScript then none
    else some (⟨txid, o.2⟩, ⟨coin.hashXFromScript o.1.pkScript, txNum, o.1.value.toNat⟩)

/-- The entry of one transaction. -/
def entry (isUnspendable : Bytes → Bool) (txNum : Nat) (tx : Tx) : Entry where
  spends := spends tx.inputs
  creates := pays coin isUnspendable tx.txid txNum 0 tx.outputs

/-- The entries of the transactions of a block, numbered from `txNum`. -/
def entries (isUnspendable : Bytes → Bool) (txNum : Nat) (txs : List Tx) : List Entry :=
  (txs.zipIdx txNum).map fun t ↦ entry coin isUnspendable t.2 t.1

/-- All transactions of a chain in order. -/
def txs (chain : List Block) : List Tx := chain.flatMap (·.transactions)

/-- The number of transactions of a chain. -/
def txCount (chain : List Block) : Nat := (txs chain).length

/-- The entries of blocks that start at a height and a transaction number. -/
def ledgerFrom : Nat → Nat → List Block → List Entry
  | _, _, [] => []
  | height, txNum, block :: rest =>
    entries coin (coin.isUnspendableAt height) txNum block.transactions ++
      ledgerFrom (height + 1) (txNum + block.transactions.length) rest

/-- The ledger of a chain, from the genesis block. -/
def ledger (chain : List Block) : List Entry := ledgerFrom coin 0 0 chain

/-- The unspent spendable outputs of a chain. -/
def unspent (chain : List Block) : OutPoint → Option Utxo := Ledger.live (ledger coin chain)

/-- The output that an outpoint names. -/
def origin (es : List Entry) (op : OutPoint) : Option Utxo := (Ledger.created es).lookup op

/-- The script hashes that the outputs spent by an entry had paid, and those that it pays. -/
def hashXsOf (es : List Entry) (e : Entry) : List HashX :=
  (e.spends.filterMap (origin es)).map (·.hashX) ++ e.creates.map (·.2.hashX)

/-- Transaction `n` of the chain pays the script hash or spends an output that paid it. -/
def Touches (chain : List Block) (n : Nat) (hashX : HashX) : Prop :=
  ∃ e ∈ (ledger coin chain)[n]?, hashX ∈ hashXsOf (ledger coin chain) e

instance (chain : List Block) (n : Nat) (hashX : HashX) :
    Decidable (Touches coin chain n hashX) := by
  unfold Touches
  infer_instance

/-- The numbers of the transactions that touch a script hash, in increasing order. -/
def touching (chain : List Block) (hashX : HashX) : List Nat :=
  (List.range (txCount chain)).filter fun n ↦ Touches coin chain n hashX

/-- The outputs that a block on top of a chain spends, in the order of its inputs. -/
def spentBy (chain : List Block) (block : Block) : List Utxo :=
  ((entries coin (coin.isUnspendableAt chain.length) (txCount chain)
    block.transactions).flatMap (·.spends)).filterMap (origin (ledger coin (chain ++ [block])))

/-- The total number of transactions at the end of each block. -/
def counts (chain : List Block) : List Nat :=
  (List.range chain.length).map fun i ↦ txCount (chain.take (i + 1))

/-- The concatenated headers of a chain. -/
def headers (chain : List Block) : Bytes := chain.flatMap (·.header)

/-- The offset of each header in the concatenation, and the end of the last one. -/
def offsets (chain : List Block) : List Nat :=
  (List.range (chain.length + 1)).map fun i ↦ (headers (chain.take i)).length

/-- The concatenated transaction hashes of a chain. -/
def hashes (chain : List Block) : Bytes := (txs chain).flatMap (·.txid.val)

/-- The hash of the last header, or of no header. -/
def tip (chain : List Block) : Bytes :=
  match chain.getLast? with
  | none => List.replicate 32 0
  | some block => coin.headerHash block.header

/-- A chain of valid blocks. An outpoint has 32 bits for the position of its output. -/
structure ValidChain (chain : List Block) : Prop where
  ledger : Ledger.Valid (ledger coin chain)
  txids : ((txs chain).map (·.txid)).Nodup
  txCount : txCount chain < 2 ^ 40
  outputs : ∀ tx ∈ txs chain, tx.outputs.length ≤ 2 ^ 32
  values : ∀ tx ∈ txs chain, ∀ txout ∈ tx.outputs, 0 ≤ txout.value ∧ txout.value < 2 ^ 63
  parsed : ∀ (i : Nat) block, chain[i]? = some block → coin.block block.raw i = .ok block
  linked : chain.IsChain fun a b ↦ coin.headerPrevhash b.header = coin.headerHash a.header
  header_length : coin.staticBlockHeaders = true → ∀ block ∈ chain,
    block.header.length = basicHeaderSize
  headers_length : (headers chain).length < 2 ^ 64

/-- A chain of blocks whose transactions stand in any order: an input spends an output of an
earlier block or of any transaction of its own, and no output is spent twice. -/
structure AnyOrderChain (chain : List Block) : Prop where
  keys : ((Ledger.created (ledger coin chain)).map Prod.fst).Nodup
  spent : (Ledger.spent (ledger coin chain)).Nodup
  closed : ∀ a b, chain = a ++ b → Ledger.Closed (ledger coin a)
  txids : ((txs chain).map (·.txid)).Nodup
  txCount : txCount chain < 2 ^ 40
  outputs : ∀ tx ∈ txs chain, tx.outputs.length ≤ 2 ^ 32
  values : ∀ tx ∈ txs chain, ∀ txout ∈ tx.outputs, 0 ≤ txout.value ∧ txout.value < 2 ^ 63
  parsed : ∀ (i : Nat) block, chain[i]? = some block → coin.block block.raw i = .ok block
  linked : chain.IsChain fun a b ↦ coin.headerPrevhash b.header = coin.headerHash a.header
  header_length : coin.staticBlockHeaders = true → ∀ block ∈ chain,
    block.header.length = basicHeaderSize
  headers_length : (headers chain).length < 2 ^ 64

/-- Where a header begins can be found: it follows from the height when all have one length, and
else it is kept in 64 bits. -/
structure HeadersFit (chain : List Block) : Prop where
  static : coin.staticBlockHeaders = true → ∀ block ∈ chain, block.header.length = basicHeaderSize
  dynamic : coin.staticBlockHeaders = false → (headers chain).length < 2 ^ 64

/-! ### Extending a chain -/

@[simp] theorem txs_append (a b : List Block) : txs (a ++ b) = txs a ++ txs b :=
  List.flatMap_append

@[simp] theorem txs_singleton (b : Block) : txs [b] = b.transactions := by
  simp [txs]

theorem txCount_append (a b : List Block) : txCount (a ++ b) = txCount a + txCount b := by
  rw [txCount, txs_append, List.length_append]
  rfl

theorem txCount_concat (a : List Block) (b : Block) :
    txCount (a ++ [b]) = txCount a + b.transactions.length := by
  rw [txCount_append, txCount, txCount, txs_singleton]

theorem txCount_mono {a b : List Block} (h : a <+: b) : txCount a ≤ txCount b := by
  obtain ⟨c, rfl⟩ := h
  rw [txCount_append]
  exact Nat.le_add_right _ _

@[simp] theorem length_entries (isUnspendable : Bytes → Bool) (n : Nat) (ts : List Tx) :
    (entries coin isUnspendable n ts).length = ts.length := by
  simp [entries]

theorem entries_cons (isUnspendable : Bytes → Bool) (n : Nat) (tx : Tx) (ts : List Tx) :
    entries coin isUnspendable n (tx :: ts) =
      entry coin isUnspendable n tx :: entries coin isUnspendable (n + 1) ts := by
  simp [entries, List.zipIdx_cons]

theorem ledgerFrom_append (height n : Nat) (a b : List Block) :
    ledgerFrom coin height n (a ++ b) =
      ledgerFrom coin height n a ++ ledgerFrom coin (height + a.length) (n + txCount a) b := by
  induction a generalizing height n with
  | nil => simp [ledgerFrom, txCount, txs]
  | cons x xs ih =>
    have hc : txCount (x :: xs) = x.transactions.length + txCount xs := by simp [txCount, txs]
    have hh : height + 1 + xs.length = height + (x :: xs).length := by
      rw [List.length_cons]
      omega
    rw [List.cons_append, ledgerFrom, ledgerFrom, ih, hc, hh, List.append_assoc, Nat.add_assoc]

theorem ledger_append (a b : List Block) :
    ledger coin (a ++ b) = ledger coin a ++ ledgerFrom coin a.length (txCount a) b := by
  rw [ledger, ledgerFrom_append, Nat.zero_add, Nat.zero_add]
  rfl

theorem ledger_concat (a : List Block) (b : Block) :
    ledger coin (a ++ [b]) = ledger coin a ++
      entries coin (coin.isUnspendableAt a.length) (txCount a) b.transactions := by
  rw [ledger_append, ledgerFrom, ledgerFrom, List.append_nil]

theorem length_ledgerFrom (height n : Nat) (a : List Block) :
    (ledgerFrom coin height n a).length = txCount a := by
  induction a generalizing height n with
  | nil => rfl
  | cons x xs ih => simp [ledgerFrom, ih, txCount, txs]

@[simp] theorem length_ledger (a : List Block) : (ledger coin a).length = txCount a :=
  length_ledgerFrom coin 0 0 a

theorem counts_concat (a : List Block) (b : Block) :
    counts (a ++ [b]) = counts a ++ [txCount (a ++ [b])] := by
  have ht : (a ++ [b]).take (a.length + 1) = a ++ [b] :=
    List.take_of_length_le (by simp)
  have hs : ∀ i ∈ List.range a.length,
      txCount ((a ++ [b]).take (i + 1)) = txCount (a.take (i + 1)) := by
    intro i hi
    have := List.mem_range.mp hi
    rw [List.take_append_of_le_length (by omega)]
  rw [counts, List.length_append, List.length_singleton, List.range_succ, List.map_append,
    List.map_singleton, ht, List.map_congr_left hs]
  rfl

@[simp] theorem length_counts (a : List Block) : (counts a).length = a.length := by
  simp [counts]

theorem counts_prefix_append (a b : List Block) : counts a <+: counts (a ++ b) := by
  induction b using List.reverseRecOn with
  | nil => simp
  | append_singleton b x ih =>
    rw [← List.append_assoc, counts_concat]
    exact ih.trans (List.prefix_append _ _)

theorem headers_append (a b : List Block) : headers (a ++ b) = headers a ++ headers b :=
  List.flatMap_append

theorem hashes_append (a b : List Block) : hashes (a ++ b) = hashes a ++ hashes b := by
  rw [hashes, txs_append, List.flatMap_append]
  rfl

theorem offsets_concat (a : List Block) (b : Block) :
    offsets (a ++ [b]) = offsets a ++ [(headers (a ++ [b])).length] := by
  have ht : (a ++ [b]).take (a.length + 1) = a ++ [b] :=
    List.take_of_length_le (by simp)
  have hs : ∀ i ∈ List.range (a.length + 1),
      (headers ((a ++ [b]).take i)).length = (headers (a.take i)).length := by
    intro i hi
    have := List.mem_range.mp hi
    rw [List.take_append_of_le_length (by omega)]
  rw [offsets, List.length_append, List.length_singleton, List.range_succ, List.map_append,
    List.map_singleton, ht, List.map_congr_left hs]
  rfl

theorem tip_concat (a : List Block) (b : Block) :
    tip coin (a ++ [b]) = coin.headerHash b.header := by
  rw [tip, List.getLast?_concat]

/-! ### Entries and transactions -/

/-- The created outputs of a list, by position. -/
theorem mem_pays {isUnspendable : Bytes → Bool} {txid : Hash32} {n idx : Nat}
    {txouts : List TxOutput} {p : OutPoint × Utxo}
    (h : p ∈ pays coin isUnspendable txid n idx txouts) :
    ∃ i txout, txouts[i]? = some txout ∧ p = (⟨txid, idx + i⟩,
      ⟨coin.hashXFromScript txout.pkScript, n, txout.value.toNat⟩) := by
  obtain ⟨⟨txout, i⟩, hm, hp⟩ := List.mem_filterMap.mp h
  obtain ⟨hi, ho⟩ := List.mk_mem_zipIdx_iff_le_and_getElem?_sub.mp hm
  refine ⟨i - idx, txout, ho, ?_⟩
  split at hp
  · cases hp
  · rw [Nat.add_sub_cancel' hi]
    exact (Option.some.inj hp).symm

/-- Every entry of a ledger is that of the transaction at its position. -/
theorem getElem?_ledgerFrom {height m n : Nat} {chain : List Block} {e : Entry}
    (h : (ledgerFrom coin height m chain)[n]? = some e) :
    ∃ isUnspendable tx, (txs chain)[n]? = some tx ∧ e = entry coin isUnspendable (m + n) tx := by
  induction chain generalizing height m n with
  | nil => simp [ledgerFrom] at h
  | cons x xs ih =>
    have ht : txs (x :: xs) = x.transactions ++ txs xs := by simp [txs]
    rw [ledgerFrom] at h
    by_cases hn : n < x.transactions.length
    · rw [List.getElem?_append_left (by simpa using hn), entries, List.getElem?_map,
        List.getElem?_zipIdx] at h
      obtain ⟨⟨tx, i⟩, ht', rfl⟩ := Option.map_eq_some_iff.mp h
      obtain ⟨tx', htx, he⟩ := Option.map_eq_some_iff.mp ht'
      obtain ⟨rfl, rfl⟩ := Prod.mk.inj he
      refine ⟨_, tx', ?_, rfl⟩
      rw [ht, List.getElem?_append_left hn, htx]
    · rw [List.getElem?_append_right (by simpa using hn), length_entries] at h
      obtain ⟨u, tx, htx, he⟩ := ih h
      refine ⟨u, tx, ?_, ?_⟩
      · rw [ht, List.getElem?_append_right (by omega), htx]
      · rw [he]
        congr 1
        omega

theorem getElem?_ledger {n : Nat} {chain : List Block} {e : Entry}
    (h : (ledger coin chain)[n]? = some e) :
    ∃ isUnspendable tx, (txs chain)[n]? = some tx ∧ e = entry coin isUnspendable n tx := by
  obtain ⟨u, tx, htx, he⟩ := getElem?_ledgerFrom coin h
  exact ⟨u, tx, htx, by rw [he, Nat.zero_add]⟩

/-- The transaction that created an output, and the output's position in it. -/
theorem mem_created {chain : List Block} {op : OutPoint} {u : Utxo}
    (h : (op, u) ∈ Ledger.created (ledger coin chain)) :
    ∃ tx txout, (txs chain)[u.txNum]? = some tx ∧ op.txid = tx.txid ∧
      tx.outputs[op.idx]? = some txout ∧ u.value = txout.value.toNat ∧
      u.hashX = coin.hashXFromScript txout.pkScript := by
  obtain ⟨e, he, hp⟩ := List.mem_flatMap.mp h
  obtain ⟨n, hn⟩ := List.mem_iff_getElem?.mp he
  obtain ⟨isUnspendable, tx, htx, rfl⟩ := getElem?_ledger coin hn
  obtain ⟨i, txout, hi, hpe⟩ := mem_pays coin hp
  obtain ⟨rfl, rfl⟩ := Prod.mk.inj hpe
  exact ⟨tx, txout, htx, rfl, by rwa [Nat.zero_add], rfl, rfl⟩

variable {coin}

private theorem validChain_iff (chain : List Block) :
    ValidChain coin chain ↔ Ledger.Valid (ledger coin chain) ∧
      ((txs chain).map (·.txid)).Nodup ∧ txCount chain < 2 ^ 40 ∧
      (∀ tx ∈ txs chain, tx.outputs.length ≤ 2 ^ 32) ∧
      (∀ tx ∈ txs chain, ∀ txout ∈ tx.outputs, 0 ≤ txout.value ∧ txout.value < 2 ^ 63) ∧
      (∀ i, (hi : i < chain.length) → coin.block chain[i].raw i = .ok chain[i]) ∧
      chain.IsChain (fun a b ↦ coin.headerPrevhash b.header = coin.headerHash a.header) ∧
      (coin.staticBlockHeaders = true → ∀ block ∈ chain,
        block.header.length = basicHeaderSize) ∧ (headers chain).length < 2 ^ 64 := by
  constructor
  · intro h
    exact ⟨h.ledger, h.txids, h.txCount, h.outputs, h.values,
      fun i hi ↦ h.parsed i _ (List.getElem?_eq_getElem hi), h.linked, h.header_length,
      h.headers_length⟩
  · rintro ⟨h1, h2, h3, h4, h5, h6, h7, h8, h9⟩
    refine ⟨h1, h2, h3, h4, h5, fun i block hb ↦ ?_, h7, h8, h9⟩
    obtain ⟨hi, rfl⟩ := List.getElem?_eq_some_iff.mp hb
    exact h6 i hi

instance (chain : List Block) : Decidable (ValidChain coin chain) :=
  decidable_of_iff' _ (validChain_iff chain)

theorem ValidChain.nil : ValidChain coin [] where
  ledger := Ledger.Valid.nil
  txids := List.nodup_nil
  txCount := by decide
  outputs := by simp [txs]
  values := by simp [txs]
  parsed := by simp
  linked := List.isChain_nil
  header_length := by simp
  headers_length := by simp [headers]

/-- The chain below a block of a valid chain is valid. -/
theorem ValidChain.left {a b : List Block} (h : ValidChain coin (a ++ b)) :
    ValidChain coin a where
  ledger := by
    have hl := h.ledger
    rw [ledger_append] at hl
    exact hl.left
  txids := by
    have ht := h.txids
    rw [txs_append, List.map_append] at ht
    exact ht.of_append_left
  txCount := (txCount_mono (List.prefix_append a b)).trans_lt h.txCount
  outputs tx htx := h.outputs tx (by rw [txs_append]; exact List.mem_append_left _ htx)
  values tx htx := h.values tx (by rw [txs_append]; exact List.mem_append_left _ htx)
  parsed i block hi := h.parsed i block (by
    rw [List.getElem?_append_left (List.getElem?_eq_some_iff.mp hi).1, hi])
  linked := (List.isChain_append.mp h.linked).1
  header_length hs block hb := h.header_length hs block (List.mem_append_left _ hb)
  headers_length := by
    have hl := h.headers_length
    rw [headers_append, List.length_append] at hl
    omega

theorem ValidChain.headersFit {chain : List Block} (h : ValidChain coin chain) :
    HeadersFit coin chain :=
  ⟨h.header_length, fun _ ↦ h.headers_length⟩

private theorem anyOrderChain_iff (chain : List Block) :
    AnyOrderChain coin chain ↔ ((Ledger.created (ledger coin chain)).map Prod.fst).Nodup ∧
      (Ledger.spent (ledger coin chain)).Nodup ∧
      (∀ i ≤ chain.length, ∀ op ∈ Ledger.spent (ledger coin (chain.take i)),
        op ∈ (Ledger.created (ledger coin (chain.take i))).map Prod.fst) ∧
      ((txs chain).map (·.txid)).Nodup ∧ txCount chain < 2 ^ 40 ∧
      (∀ tx ∈ txs chain, tx.outputs.length ≤ 2 ^ 32) ∧
      (∀ tx ∈ txs chain, ∀ txout ∈ tx.outputs, 0 ≤ txout.value ∧ txout.value < 2 ^ 63) ∧
      (∀ i, (hi : i < chain.length) → coin.block chain[i].raw i = .ok chain[i]) ∧
      chain.IsChain (fun a b ↦ coin.headerPrevhash b.header = coin.headerHash a.header) ∧
      (coin.staticBlockHeaders = true → ∀ block ∈ chain,
        block.header.length = basicHeaderSize) ∧ (headers chain).length < 2 ^ 64 := by
  constructor
  · intro h
    exact ⟨h.keys, h.spent, fun i _ ↦ h.closed _ _ (List.take_append_drop i chain).symm, h.txids,
      h.txCount, h.outputs, h.values, fun i hi ↦ h.parsed i _ (List.getElem?_eq_getElem hi),
      h.linked, h.header_length, h.headers_length⟩
  · rintro ⟨h1, h2, h3, h4, h5, h6, h7, h8, h9, h10, h11⟩
    refine ⟨h1, h2, ?_, h4, h5, h6, h7, fun i block hb ↦ ?_, h9, h10, h11⟩
    · rintro a b rfl
      have h := h3 a.length (by simp)
      rwa [List.take_left] at h
    · obtain ⟨hi, rfl⟩ := List.getElem?_eq_some_iff.mp hb
      exact h8 i hi

instance (chain : List Block) : Decidable (AnyOrderChain coin chain) :=
  decidable_of_iff' _ (anyOrderChain_iff chain)

/-- Transactions in topological order are in some order. -/
theorem ValidChain.anyOrder {chain : List Block} (h : ValidChain coin chain) :
    AnyOrderChain coin chain :=
  { h with
    keys := h.ledger.keys_nodup
    spent := h.ledger.spent_nodup
    closed := by
      rintro a b rfl
      exact h.left.ledger.closed }

namespace AnyOrderChain

variable {chain a b : List Block}

theorem left (h : AnyOrderChain coin (a ++ b)) : AnyOrderChain coin a where
  keys := by
    have hk := h.keys
    rw [ledger_append, Ledger.created_append, List.map_append] at hk
    exact hk.of_append_left
  spent := by
    have hs := h.spent
    rw [ledger_append, Ledger.spent_append] at hs
    exact hs.of_append_left
  closed c d he := h.closed c (d ++ b) (by rw [he, List.append_assoc])
  txids := by
    have ht := h.txids
    rw [txs_append, List.map_append] at ht
    exact ht.of_append_left
  txCount := (txCount_mono (List.prefix_append a b)).trans_lt h.txCount
  outputs tx htx := h.outputs tx (by rw [txs_append]; exact List.mem_append_left _ htx)
  values tx htx := h.values tx (by rw [txs_append]; exact List.mem_append_left _ htx)
  parsed i block hi := h.parsed i block (by
    rw [List.getElem?_append_left (List.getElem?_eq_some_iff.mp hi).1, hi])
  linked := (List.isChain_append.mp h.linked).1
  header_length hs block hb := h.header_length hs block (List.mem_append_left _ hb)
  headers_length := by
    have hl := h.headers_length
    rw [headers_append, List.length_append] at hl
    omega

theorem headersFit (h : AnyOrderChain coin chain) : HeadersFit coin chain :=
  ⟨h.header_length, fun _ ↦ h.headers_length⟩

end AnyOrderChain

theorem HeadersFit.left {a b : List Block} (h : HeadersFit coin (a ++ b)) : HeadersFit coin a where
  static hs block hb := h.static hs block (List.mem_append_left _ hb)
  dynamic hs := by
    have hl := h.dynamic hs
    rw [headers_append, List.length_append] at hl
    omega

end ElectrumX.Chain
