import ElectrumX.Chain.Spec
import ElectrumX.Server.BlockProcessor

/-!
# The UTXO tables, the cache and the pending deletes

What the rows of the `h` and `u` tables, the UTXO cache and the list of pending deletes
say together: the tables hold the unspent outputs of an earlier chain, the cache those
that are unspent now and were not then, and the deletes the rows of the others. Spending
and adding keep it so, whatever first bytes the txids share.
-/

namespace ElectrumX.Index
open ElectrumX.Base ElectrumX.Lib ElectrumX.Chain ElectrumX.Server

/-- The key of an output in the UTXO cache. -/
def cacheKey (op : OutPoint) : Bytes := op.txid.val ++ packLE 4 op.idx

/-- The value of an output in the UTXO cache and in the undo information. -/
def packed (u : Utxo) : Bytes := u.hashX.val ++ packLE txnumLen u.txNum ++ packLE 8 u.value

/-- What the two rows of an output have in common at the end of their keys. -/
def suffix (op : OutPoint) (u : Utxo) : Bytes := packLE 4 op.idx ++ packLE txnumLen u.txNum

/-- The key of an output in the `h` table. -/
def hKey (op : OutPoint) (u : Utxo) : Bytes :=
  prefixH :: op.txid.val.take compTxidLen ++ suffix op u

/-- The key of an output in the `u` table. -/
def uKey (op : OutPoint) (u : Utxo) : Bytes := prefixU :: u.hashX.val ++ suffix op u

/-- Outputs as a valid chain creates them: distinct, numbered by transaction, and within the
widths of their fields. -/
structure Numbered (P : List (OutPoint × Utxo)) : Prop where
  keys : (P.map Prod.fst).Nodup
  txid : ∀ p ∈ P, ∀ q ∈ P, p.2.txNum = q.2.txNum → p.1.txid = q.1.txid
  idx_lt : ∀ p ∈ P, p.1.idx < 2 ^ 32
  txNum_lt : ∀ p ∈ P, p.2.txNum < 2 ^ 40
  value_lt : ∀ p ∈ P, p.2.value < 2 ^ 63

/-- The tables represent `base`; with the cache and the pending deletes they represent `view`.
All outputs are among `P`. -/
structure UtxoRep (P : List (OutPoint × Utxo)) (utxoDb utxoCache : Table)
    (dbDeletes : List Bytes) (base view : OutPoint → Option Utxo) : Prop where
  base_mem : ∀ op u, base op = some u → (op, u) ∈ P
  view_mem : ∀ op u, view op = some u → (op, u) ∈ P
  hRow : ∀ k v, utxoDb[prefixH :: k]? = some v ↔
    ∃ op u, base op = some u ∧ prefixH :: k = hKey op u ∧ v = u.hashX.val
  uRow : ∀ k v, utxoDb[prefixU :: k]? = some v ↔
    ∃ op u, base op = some u ∧ prefixU :: k = uKey op u ∧ v = packLE 8 u.value
  cached : ∀ k v, utxoCache[k]? = some v ↔
    ∃ op u, view op = some u ∧ base op = none ∧ k = cacheKey op ∧ v = packed u
  pending : ∀ k, k ∈ dbDeletes ↔
    ∃ op u, base op = some u ∧ view op = none ∧ (k = hKey op u ∨ k = uKey op u)

/-! ### Keys -/

theorem length_suffix (op : OutPoint) (u : Utxo) : (suffix op u).length = 4 + txnumLen := by
  rw [suffix, List.length_append, length_packLE, length_packLE]

theorem lastN_hKey (op : OutPoint) (u : Utxo) : lastN (4 + txnumLen) (hKey op u) = suffix op u :=
  lastN_append_of_length _ (length_suffix op u)

theorem lastN_txNum_hKey (op : OutPoint) (u : Utxo) :
    lastN txnumLen (hKey op u) = packLE txnumLen u.txNum := by
  rw [hKey, suffix, ← List.append_assoc]
  exact lastN_append_of_length _ (length_packLE _ _)

theorem length_packed (u : Utxo) : (packed u).length = undoEntryLen := by
  rw [packed, List.length_append, List.length_append, u.hashX.property, length_packLE,
    length_packLE, undoEntryLen]

theorem packed_ne_nil (u : Utxo) : packed u ≠ [] := by
  intro h
  have hl := length_packed u
  rw [h] at hl
  cases hl

theorem take_packed (u : Utxo) : (packed u).take hashXLen = u.hashX.val := by
  rw [packed, List.append_assoc]
  exact List.take_left' u.hashX.property

theorem cacheKey_inj {op op' : OutPoint} (h : op.idx < 2 ^ 32) (h' : op'.idx < 2 ^ 32)
    (he : cacheKey op = cacheKey op') : op = op' := by
  have hl : op.txid.val.length = op'.txid.val.length := by
    rw [op.txid.property, op'.txid.property]
  obtain ⟨ht, hi⟩ := List.append_inj he hl
  have hi' := (packLE_inj (by simpa using h) (by simpa using h')).mp hi
  cases op
  cases op'
  cases Subtype.ext ht
  cases hi'
  rfl

private theorem suffix_inj {op op' : OutPoint} {u u' : Utxo} (h : op.idx < 2 ^ 32)
    (h' : op'.idx < 2 ^ 32) (hn : u.txNum < 2 ^ 40) (hn' : u'.txNum < 2 ^ 40)
    (he : suffix op u = suffix op' u') : op.idx = op'.idx ∧ u.txNum = u'.txNum := by
  obtain ⟨hi, ht⟩ := List.append_inj he (by rw [length_packLE, length_packLE])
  exact ⟨(packLE_inj (by simpa using h) (by simpa using h')).mp hi,
    (packLE_inj (by simpa [txnumLen] using hn) (by simpa [txnumLen] using hn')).mp ht⟩

namespace Numbered

variable {P : List (OutPoint × Utxo)}

/-- An output has one value. -/
theorem eq_of_mem (hN : Numbered P) {op : OutPoint} {u v : Utxo} (hu : (op, u) ∈ P)
    (hv : (op, v) ∈ P) : u = v := by
  have h1 := (Ledger.lookup_eq_some_iff hN.keys).mpr hu
  have h2 := (Ledger.lookup_eq_some_iff hN.keys).mpr hv
  exact Option.some.inj (h1.symm.trans h2)

/-- Fewer outputs are numbered as well. -/
theorem left {Q : List (OutPoint × Utxo)} (hN : Numbered (P ++ Q)) : Numbered P where
  keys := by
    have hn := hN.keys
    rw [List.map_append] at hn
    exact hn.of_append_left
  txid p hp q hq := hN.txid p (List.mem_append_left _ hp) q (List.mem_append_left _ hq)
  idx_lt p hp := hN.idx_lt p (List.mem_append_left _ hp)
  txNum_lt p hp := hN.txNum_lt p (List.mem_append_left _ hp)
  value_lt p hp := hN.value_lt p (List.mem_append_left _ hp)

private theorem eq_of_suffix (hN : Numbered P) {op op' : OutPoint} {u u' : Utxo}
    (h : (op, u) ∈ P) (h' : (op', u') ∈ P) (he : suffix op u = suffix op' u') :
    op = op' ∧ u = u' := by
  obtain ⟨hi, hn⟩ := suffix_inj (hN.idx_lt _ h) (hN.idx_lt _ h') (hN.txNum_lt _ h)
    (hN.txNum_lt _ h') he
  have ht := hN.txid _ h _ h' hn
  obtain ⟨txid, idx⟩ := op
  obtain ⟨txid', idx'⟩ := op'
  cases hi
  cases ht
  exact ⟨rfl, hN.eq_of_mem h h'⟩

/-- The keys of the `h` table tell outputs apart, although they hold four bytes of the txid. -/
theorem hKey_inj (hN : Numbered P) {op op' : OutPoint} {u u' : Utxo} (h : (op, u) ∈ P)
    (h' : (op', u') ∈ P) (he : hKey op u = hKey op' u') : op = op' ∧ u = u' := by
  apply hN.eq_of_suffix h h'
  rw [← lastN_hKey op u, he, lastN_hKey]

/-- The keys of the `u` table tell outputs apart. -/
theorem uKey_inj (hN : Numbered P) {op op' : OutPoint} {u u' : Utxo} (h : (op, u) ∈ P)
    (h' : (op', u') ∈ P) (he : uKey op u = uKey op' u') : op = op' ∧ u = u' := by
  apply hN.eq_of_suffix h h'
  have hl : (prefixU :: u.hashX.val).length = (prefixU :: u'.hashX.val).length := by
    rw [List.length_cons, List.length_cons, u.hashX.property, u'.hashX.property]
  exact (List.append_inj he hl).2

end Numbered

/-! ### Spending -/

theorem unpack_txNum {n : Nat} (h : n < 2 ^ 40) :
    unpackLeUint64 (packLE txnumLen n ++ txnumPadding) = .ok n := by
  have hl : (packLE txnumLen n ++ txnumPadding).length = 8 := by
    rw [List.length_append, length_packLE]
    rfl
  rw [unpackLeUint64_of_length hl, txnumPadding, unpackLE_append_zeros,
    unpackLE_packLE_of_lt (by simpa [txnumLen] using h)]

open BlockProcessor in
private theorem findCandidate_skip {db : DB} {txid : Hash32} {op : OutPoint} {u : Utxo}
    (hn : u.txNum < 2 ^ 40) (hh : (db.fsTxHash u.txNum).1 = some op.txid.val)
    (hne : op.txid ≠ txid) (hashX : Bytes) (rest : List (Bytes × Bytes)) :
    findCandidate db txid.val true ((hKey op u, hashX) :: rest) =
      findCandidate db txid.val true rest := by
  have hv : op.txid.val ≠ txid.val := fun h ↦ hne (Subtype.ext h)
  rw [findCandidate, lastN_txNum_hKey]
  simp [unpack_txNum hn, hh, hv, bind, Except.bind, pure, Except.pure]

open BlockProcessor in
private theorem findCandidate_hit {db : DB} {op : OutPoint} {u : Utxo} (many : Bool)
    (hn : u.txNum < 2 ^ 40) (hh : (db.fsTxHash u.txNum).1 = some op.txid.val)
    (hu : db.utxoDb[uKey op u]? = some (packLE 8 u.value)) (rest : List (Bytes × Bytes)) :
    findCandidate db op.txid.val many ((hKey op u, u.hashX.val) :: rest) =
      .ok (some (packed u, hKey op u, uKey op u)) := by
  have hp : packLE 8 u.value = UInt8.ofNat u.value :: packLE 7 (u.value / 256) := rfl
  rw [findCandidate, lastN_txNum_hKey, lastN_hKey, ← uKey]
  rw [hp] at hu
  cases many <;>
    simp [unpack_txNum hn, hh, hu, bind, Except.bind, pure, Except.pure, packed, hp]

/-- Among candidates that have the position of the wanted output, the search finds the one
with its txid; a single candidate is taken without a look at its txid. -/
private theorem findCandidate_eq {db : DB} {base : OutPoint → Option Utxo} {op : OutPoint}
    {u : Utxo} {many : Bool} {es : List (Bytes × Bytes)}
    (hn : ∀ op u, base op = some u → u.txNum < 2 ^ 40)
    (hh : ∀ op u, base op = some u → (db.fsTxHash u.txNum).1 = some op.txid.val)
    (hb : base op = some u) (hu : db.utxoDb[uKey op u]? = some (packLE 8 u.value))
    (hes : ∀ e ∈ es, ∃ op' u', base op' = some u' ∧ op'.idx = op.idx ∧
      e = (hKey op' u', u'.hashX.val))
    (hm : (hKey op u, u.hashX.val) ∈ es)
    (hone : many = false → ∀ e ∈ es, e = (hKey op u, u.hashX.val)) :
    BlockProcessor.findCandidate db op.txid.val many es =
      .ok (some (packed u, hKey op u, uKey op u)) := by
  induction es with
  | nil => simp at hm
  | cons e rest ih =>
    by_cases he : e = (hKey op u, u.hashX.val)
    · rw [he]
      exact findCandidate_hit many (hn _ _ hb) (hh _ _ hb) hu rest
    · have hmany : many = true := by
        by_contra hf
        exact he (hone (by simpa using hf) e List.mem_cons_self)
      subst hmany
      obtain ⟨op', u', hb', hi, rfl⟩ := hes e List.mem_cons_self
      have hne : op'.txid ≠ op.txid := by
        intro ht
        obtain ⟨txid, idx⟩ := op
        obtain ⟨txid', idx'⟩ := op'
        cases hi
        cases ht
        cases hb.symm.trans hb'
        exact he rfl
      rw [findCandidate_skip (hn _ _ hb') (hh _ _ hb') hne]
      apply ih
      · exact fun e he' ↦ hes e (List.mem_cons_of_mem _ he')
      · rcases List.mem_cons.mp hm with h | h
        · exact absurd h.symm he
        · exact h
      · exact fun hf ↦ by cases hf

namespace UtxoRep

variable {P : List (OutPoint × Utxo)} {utxoDb utxoCache : Table} {dbDeletes : List Bytes}
variable {base view : OutPoint → Option Utxo} {op : OutPoint} {u : Utxo}

/-- An output that leaves the view leaves the cache, and its rows become pending deletes. -/
theorem spent (hN : Numbered P) (h : UtxoRep P utxoDb utxoCache dbDeletes base view)
    (hv : view op = some u) {dbDeletes' : List Bytes}
    (hd : ∀ k, k ∈ dbDeletes' ↔
      k ∈ dbDeletes ∨ base op = some u ∧ (k = hKey op u ∨ k = uKey op u)) :
    UtxoRep P utxoDb (utxoCache.erase (cacheKey op)) dbDeletes' base
      (Function.update view op none) where
  base_mem := h.base_mem
  view_mem op' u' hv' := by
    rw [Function.update_apply] at hv'
    split at hv'
    · cases hv'
    · exact h.view_mem _ _ hv'
  hRow := h.hRow
  uRow := h.uRow
  cached k v := by
    have hi := hN.idx_lt _ (h.view_mem _ _ hv)
    rw [Table.getElem?_erase]
    constructor
    · intro hk
      split at hk
      · cases hk
      · next hne =>
        obtain ⟨op', u', hv', hb', rfl, rfl⟩ := (h.cached _ _).mp hk
        refine ⟨op', u', ?_, hb', rfl, rfl⟩
        rw [Function.update_of_ne, hv']
        rintro rfl
        exact hne rfl
    · rintro ⟨op', u', hv', hb', rfl, rfl⟩
      have hne : op' ≠ op := by
        rintro rfl
        rw [Function.update_self] at hv'
        cases hv'
      rw [Function.update_of_ne hne] at hv'
      have hk : cacheKey op ≠ cacheKey op' := fun he ↦
        hne (cacheKey_inj hi (hN.idx_lt _ (h.view_mem _ _ hv')) he).symm
      rw [if_neg hk]
      exact (h.cached _ _).mpr ⟨op', u', hv', hb', rfl, rfl⟩
  pending k := by
    rw [hd, h.pending]
    constructor
    · rintro (⟨op', u', hb', hv', hk⟩ | ⟨hb, hk⟩)
      · refine ⟨op', u', hb', ?_, hk⟩
        rw [Function.update_apply, hv', ite_self]
      · exact ⟨op, u, hb, Function.update_self .., hk⟩
    · rintro ⟨op', u', hb', hv', hk⟩
      by_cases hop : op' = op
      · subst hop
        cases hN.eq_of_mem (h.base_mem _ _ hb') (h.view_mem _ _ hv)
        exact .inr ⟨hb', hk⟩
      · rw [Function.update_of_ne hop] at hv'
        exact .inl ⟨op', u', hb', hv', hk⟩

/-- An output that joins the view joins the cache. -/
theorem put (hN : Numbered P) (h : UtxoRep P utxoDb utxoCache dbDeletes base view)
    (hm : (op, u) ∈ P) (hb : base op = none) :
    UtxoRep P utxoDb (utxoCache.insert (cacheKey op) (packed u)) dbDeletes base
      (Function.update view op (some u)) where
  base_mem := h.base_mem
  view_mem op' u' hv' := by
    rw [Function.update_apply] at hv'
    split at hv'
    · next ho =>
      cases hv'
      rwa [ho]
    · exact h.view_mem _ _ hv'
  hRow := h.hRow
  uRow := h.uRow
  cached k v := by
    rw [Table.getElem?_insert]
    constructor
    · intro hk
      split at hk
      · next hc =>
        cases hk
        exact ⟨op, u, Function.update_self .., hb, hc.symm, rfl⟩
      · next hne =>
        obtain ⟨op', u', hv', hb', rfl, rfl⟩ := (h.cached _ _).mp hk
        refine ⟨op', u', ?_, hb', rfl, rfl⟩
        rw [Function.update_of_ne, hv']
        rintro rfl
        exact hne rfl
    · rintro ⟨op', u', hv', hb', rfl, rfl⟩
      by_cases hop : op' = op
      · subst hop
        rw [Function.update_self] at hv'
        cases hv'
        rw [if_pos rfl]
      · rw [Function.update_of_ne hop] at hv'
        have hk : cacheKey op ≠ cacheKey op' := fun he ↦
          hop (cacheKey_inj (hN.idx_lt _ hm) (hN.idx_lt _ (h.view_mem _ _ hv')) he).symm
        rw [if_neg hk]
        exact (h.cached _ _).mpr ⟨op', u', hv', hb', rfl, rfl⟩
  pending k := by
    rw [h.pending]
    constructor
    · rintro ⟨op', u', hb', hv', hk⟩
      refine ⟨op', u', hb', ?_, hk⟩
      rw [Function.update_of_ne, hv']
      rintro rfl
      cases hb.symm.trans hb'
    · rintro ⟨op', u', hb', hv', hk⟩
      refine ⟨op', u', hb', ?_, hk⟩
      rwa [Function.update_of_ne] at hv'
      rintro rfl
      cases hb.symm.trans hb'

/-- The candidates for an output are the rows with its position and the first bytes of its txid. -/
theorem mem_candidates (hN : Numbered P)
    (h : UtxoRep P utxoDb utxoCache dbDeletes base view) (hidx : op.idx < 2 ^ 32)
    (e : Bytes × Bytes) :
    e ∈ utxoDb.iterator (prefixH :: op.txid.val.take compTxidLen ++ packLE 4 op.idx) ↔
      ∃ op' u', base op' = some u' ∧ op'.idx = op.idx ∧
        op'.txid.val.take compTxidLen = op.txid.val.take compTxidLen ∧
        e = (hKey op' u', u'.hashX.val) := by
  have hl (op' : OutPoint) : (prefixH :: op'.txid.val.take compTxidLen).length = 5 := by
    rw [List.length_cons, List.length_take, op'.txid.property]
    rfl
  obtain ⟨key, value⟩ := e
  rw [Table.mem_iterator]
  constructor
  · rintro ⟨hv, hp⟩
    obtain ⟨k, rfl⟩ : ∃ k, key = prefixH :: k := by
      obtain ⟨r, rfl⟩ := hp
      exact ⟨_, rfl⟩
    obtain ⟨op', u', hb', hk, rfl⟩ := (h.hRow k value).mp hv
    rw [hk] at hp ⊢
    obtain ⟨r, hr⟩ := hp
    rw [hKey, suffix, List.append_assoc] at hr
    obtain ⟨ht, hs⟩ := List.append_inj hr (by rw [hl, hl])
    obtain ⟨hi, -⟩ := List.append_inj hs (by rw [length_packLE, length_packLE])
    have hi' := (packLE_inj (by simpa using hidx)
      (by simpa using hN.idx_lt _ (h.base_mem _ _ hb'))).mp hi
    exact ⟨op', u', hb', hi'.symm, (List.cons.inj ht).2.symm, rfl⟩
  · rintro ⟨op', u', hb', hi, ht, he⟩
    obtain ⟨rfl, rfl⟩ := Prod.mk.inj he
    refine ⟨(h.hRow _ _).mpr ⟨op', u', hb', rfl, rfl⟩, ?_⟩
    rw [hKey, suffix, ht, hi, ← List.append_assoc]
    exact List.prefix_append _ _

/-- `spend_utxo` returns the entry of exactly the unspent output asked for. -/
theorem spendUtxo {db : DB} (hN : Numbered P)
    (h : UtxoRep P db.utxoDb utxoCache dbDeletes base view)
    (hh : ∀ op u, base op = some u → (db.fsTxHash u.txNum).1 = some op.txid.val)
    (hv : view op = some u) :
    ∃ utxoCache' dbDeletes',
      BlockProcessor.spendUtxo db utxoCache dbDeletes op.txid.val op.idx =
        .ok (packed u, utxoCache', dbDeletes') ∧
      UtxoRep P db.utxoDb utxoCache' dbDeletes' base (Function.update view op none) := by
  have hm := h.view_mem _ _ hv
  have hk : op.txid.val ++ packLE 4 op.idx = cacheKey op := rfl
  obtain ⟨b, bs, hp⟩ := List.exists_cons_of_ne_nil (packed_ne_nil u)
  cases hb : base op with
  | none =>
    have hc : utxoCache[cacheKey op]? = some (b :: bs) := by
      rw [← hp]
      exact (h.cached _ _).mpr ⟨op, u, hv, hb, rfl, rfl⟩
    refine ⟨utxoCache.erase (cacheKey op), dbDeletes, ?_, h.spent hN hv (by simp [hb])⟩
    rw [BlockProcessor.spendUtxo, packLeUint32_of_lt (hN.idx_lt _ hm), hp]
    simp only [bind, Except.bind, pure, Except.pure, hk, hc]
  | some u' =>
    cases hN.eq_of_mem (h.base_mem _ _ hb) hm
    have hc : utxoCache[cacheKey op]? = none := by
      rw [Option.eq_none_iff_forall_ne_some]
      intro v hv'
      obtain ⟨op', u', hv'', hb', he, -⟩ := (h.cached _ _).mp hv'
      cases cacheKey_inj (hN.idx_lt _ hm) (hN.idx_lt _ (h.view_mem _ _ hv'')) he
      cases hb.symm.trans hb'
    have hes := h.mem_candidates hN (hN.idx_lt _ hm)
    have hself := (hes _).mpr ⟨op, u, hb, rfl, rfl, rfl⟩
    set es := db.utxoDb.iterator (prefixH :: op.txid.val.take compTxidLen ++ packLE 4 op.idx)
      with hdef
    have hf : BlockProcessor.findCandidate db op.txid.val (es.length > 1) es =
        .ok (some (packed u, hKey op u, uKey op u)) := by
      apply findCandidate_eq (fun op u hb ↦ hN.txNum_lt _ (h.base_mem op u hb)) hh hb
        ((h.uRow _ _).mpr ⟨op, u, hb, rfl, rfl⟩) _ hself
      · intro hone e he
        have hl : es.length ≤ 1 := by simpa using hone
        match es, hl, hself, he with
        | [x], _, hself, he =>
          rw [List.mem_singleton] at hself he
          rw [he, hself]
      · intro e he
        obtain ⟨op', u', hb', hi, -, rfl⟩ := (hes e).mp he
        exact ⟨op', u', hb', hi, rfl⟩
    refine ⟨utxoCache.erase (cacheKey op), dbDeletes ++ [hKey op u, uKey op u], ?_,
      h.spent hN hv (by simp [hb])⟩
    rw [BlockProcessor.spendUtxo, packLeUint32_of_lt (hN.idx_lt _ hm)]
    simp only [bind, Except.bind, pure, Except.pure, hk, hc, ← hdef, hf]

/-! ### Flushing -/

/-- A batch of deletes and puts turns the rows of one table from `base` to `view`. -/
private theorem write_rows {tab : UInt8} (key : OutPoint → Utxo → Bytes) (value : Utxo → Bytes)
    {deletes : List Bytes} {puts : List (Bytes × Bytes)}
    (h : UtxoRep P utxoDb utxoCache dbDeletes base view) (hN : Numbered P)
    (hinj : ∀ {op u op' u'}, (op, u) ∈ P → (op', u') ∈ P → key op u = key op' u' →
      op = op' ∧ u = u')
    (hrow : ∀ k v, utxoDb[tab :: k]? = some v ↔
      ∃ op u, base op = some u ∧ tab :: k = key op u ∧ v = value u)
    (hdel : ∀ k, tab :: k ∈ deletes ↔
      ∃ op u, base op = some u ∧ view op = none ∧ tab :: k = key op u)
    (hput : ∀ k v, (tab :: k, v) ∈ puts ↔
      ∃ op u, view op = some u ∧ base op = none ∧ tab :: k = key op u ∧ v = value u)
    (k v : Bytes) :
    (utxoDb.write (deletes.map .delete ++ puts.map fun p ↦ .put p.1 p.2))[tab :: k]? = some v ↔
      ∃ op u, view op = some u ∧ tab :: k = key op u ∧ v = value u := by
  rw [Table.write_append]
  by_cases hp : ∃ w, (tab :: k, w) ∈ puts
  · obtain ⟨w, hw⟩ := hp
    obtain ⟨op, u, hv, hb, hk, rfl⟩ := (hput k w).mp hw
    have hone : ∀ op' u', view op' = some u' → tab :: k = key op' u' → u' = u := by
      intro op' u' hv' hk'
      exact (hinj (h.view_mem _ _ hv') (h.view_mem _ _ hv) (hk'.symm.trans hk)).2
    rw [Table.getElem?_write_puts_of_mem _ _ _ _ hw]
    · constructor
      · rintro hs
        exact ⟨op, u, hv, hk, (Option.some.inj hs).symm⟩
      · rintro ⟨op', u', hv', hk', rfl⟩
        rw [hone op' u' hv' hk']
    · intro x hx
      obtain ⟨op', u', hv', -, hk', rfl⟩ := (hput k x).mp hx
      rw [hone op' u' hv' hk']
  · rw [Table.getElem?_write_puts_of_notMem _ _ _ fun w hw ↦ hp ⟨w, hw⟩,
      Table.getElem?_write_deletes]
    constructor
    · intro hs
      split at hs
      · cases hs
      · next hd =>
        obtain ⟨op, u, hb, hk, rfl⟩ := (hrow k v).mp hs
        cases hv : view op with
        | none => exact absurd ((hdel k).mpr ⟨op, u, hb, hv, hk⟩) hd
        | some u' =>
          cases hN.eq_of_mem (h.base_mem _ _ hb) (h.view_mem _ _ hv)
          exact ⟨op, u, hv, hk, rfl⟩
    · rintro ⟨op, u, hv, hk, rfl⟩
      cases hb : base op with
      | none => exact absurd ⟨value u, (hput k _).mpr ⟨op, u, hv, hb, hk, rfl⟩⟩ hp
      | some u' =>
        cases hN.eq_of_mem (h.base_mem _ _ hb) (h.view_mem _ _ hv)
        have hd : tab :: k ∉ deletes := by
          intro hd
          obtain ⟨op', u', hb', hv', hk'⟩ := (hdel k).mp hd
          cases (hinj (h.base_mem _ _ hb') (h.base_mem _ _ hb) (hk'.symm.trans hk)).1
          cases hv.symm.trans hv'
        rw [if_neg hd]
        exact (hrow k _).mpr ⟨op, u, hb, hk, rfl⟩

private def rowPairs (key value : Bytes) : List (Bytes × Bytes) :=
  (DB.utxoRows key value).filterMap fun
    | .put k v => some (k, v)
    | .delete _ => none

private theorem utxoRows_eq (key value : Bytes) :
    DB.utxoRows key value = (rowPairs key value).map fun p ↦ .put p.1 p.2 := rfl

private theorem rowPairs_packed (op : OutPoint) (u : Utxo) :
    rowPairs (cacheKey op) (packed u) =
      [(hKey op u, u.hashX.val), (uKey op u, packLE 8 u.value)] := by
  have h1 : lastN 4 (cacheKey op) = packLE 4 op.idx := lastN_append_of_length _ (length_packLE _ _)
  have h2 : ((packed u).drop hashXLen).take txnumLen = packLE txnumLen u.txNum := by
    rw [packed, List.append_assoc, List.drop_left' u.hashX.property]
    exact List.take_left' (length_packLE _ _)
  have h3 : lastN 8 (packed u) = packLE 8 u.value := lastN_append_of_length _ (length_packLE _ _)
  have h4 : (cacheKey op).take compTxidLen = op.txid.val.take compTxidLen := by
    rw [cacheKey, List.take_append_of_le_length]
    rw [op.txid.property]
    decide
  rw [rowPairs, DB.utxoRows, h1, h2, h3, h4, take_packed]
  rfl

private theorem mem_rowPairs (h : UtxoRep P utxoDb utxoCache dbDeletes base view)
    (k v : Bytes) :
    (k, v) ∈ utxoCache.toList.flatMap (fun e ↦ rowPairs e.1 e.2) ↔
      ∃ op u, view op = some u ∧ base op = none ∧
        (k = hKey op u ∧ v = u.hashX.val ∨ k = uKey op u ∧ v = packLE 8 u.value) := by
  rw [List.mem_flatMap]
  constructor
  · rintro ⟨⟨k', v'⟩, hm, hp⟩
    obtain ⟨op, u, hv, hb, rfl, rfl⟩ :=
      (h.cached _ _).mp (Std.ExtTreeMap.mem_toList_iff_getElem?_eq_some.mp hm)
    rw [rowPairs_packed] at hp
    exact ⟨op, u, hv, hb, by simpa using hp⟩
  · rintro ⟨op, u, hv, hb, hp⟩
    refine ⟨(cacheKey op, packed u), ?_, ?_⟩
    · exact Std.ExtTreeMap.mem_toList_iff_getElem?_eq_some.mpr
        ((h.cached _ _).mpr ⟨op, u, hv, hb, rfl, rfl⟩)
    · rw [rowPairs_packed]
      simpa using hp

/-- Once the deletes and the rows of the cache are written, the tables represent the view. -/
theorem write_flush (hN : Numbered P) (h : UtxoRep P utxoDb utxoCache dbDeletes base view)
    {deletes : List Bytes} (hd : ∀ k, k ∈ deletes ↔ k ∈ dbDeletes)
    {others : List (Bytes × Bytes)}
    (ho : ∀ k v, (prefixH :: k, v) ∉ others ∧ (prefixU :: k, v) ∉ others) :
    UtxoRep P (utxoDb.write (deletes.map .delete ++
      utxoCache.toList.flatMap (fun e ↦ DB.utxoRows e.1 e.2) ++
      others.map fun p ↦ .put p.1 p.2)) ∅ [] view view := by
  have hc : deletes.map BatchOp.delete ++
      utxoCache.toList.flatMap (fun e ↦ DB.utxoRows e.1 e.2) ++
      others.map (fun p ↦ BatchOp.put p.1 p.2) = deletes.map .delete ++
        (utxoCache.toList.flatMap (fun e ↦ rowPairs e.1 e.2) ++ others).map
          fun p ↦ .put p.1 p.2 := by
    simp only [utxoRows_eq, List.map_append, List.map_flatMap, List.append_assoc]
  rw [hc]
  refine ⟨h.view_mem, h.view_mem, ?_, ?_, ?_, ?_⟩
  · apply write_rows hKey (fun u ↦ u.hashX.val) h hN hN.hKey_inj h.hRow
    · intro k
      rw [hd, h.pending]
      refine exists_congr fun op ↦ exists_congr fun u ↦ and_congr_right fun _ ↦
        and_congr_right fun _ ↦ or_iff_left fun he ↦ ?_
      exact absurd (List.cons.inj he).1 (by decide)
    · intro k v
      rw [List.mem_append, or_iff_left (ho k v).1, h.mem_rowPairs]
      refine exists_congr fun op ↦ exists_congr fun u ↦ and_congr_right fun _ ↦
        and_congr_right fun _ ↦ or_iff_left fun he ↦ ?_
      exact absurd (List.cons.inj he.1).1 (by decide)
  · apply write_rows uKey (fun u ↦ packLE 8 u.value) h hN hN.uKey_inj h.uRow
    · intro k
      rw [hd, h.pending]
      refine exists_congr fun op ↦ exists_congr fun u ↦ and_congr_right fun _ ↦
        and_congr_right fun _ ↦ or_iff_right fun he ↦ ?_
      exact absurd (List.cons.inj he).1 (by decide)
    · intro k v
      rw [List.mem_append, or_iff_left (ho k v).2, h.mem_rowPairs]
      refine exists_congr fun op ↦ exists_congr fun u ↦ and_congr_right fun _ ↦
        and_congr_right fun _ ↦ or_iff_right fun he ↦ ?_
      exact absurd (List.cons.inj he.1).1 (by decide)
  · intro k v
    rw [Std.ExtTreeMap.getElem?_empty]
    constructor
    · intro hn
      cases hn
    · rintro ⟨op, u, hv, hn, -⟩
      cases hn.symm.trans hv
  · intro k
    constructor
    · intro hm
      cases hm
    · rintro ⟨op, u, hv, hn, -⟩
      cases hn.symm.trans hv

/-- Puts outside the two tables change nothing. -/
theorem write_others (h : UtxoRep P utxoDb utxoCache dbDeletes base view)
    {others : List (Bytes × Bytes)}
    (ho : ∀ k v, (prefixH :: k, v) ∉ others ∧ (prefixU :: k, v) ∉ others) :
    UtxoRep P (utxoDb.write (others.map fun p ↦ .put p.1 p.2)) utxoCache dbDeletes base view :=
  { h with
    hRow := fun k v ↦ by
      rw [Table.getElem?_write_puts_of_notMem _ _ _ fun w ↦ (ho k w).1, h.hRow]
    uRow := fun k v ↦ by
      rw [Table.getElem?_write_puts_of_notMem _ _ _ fun w ↦ (ho k w).2, h.uRow] }

/-- The deletes and the rows of the cache leave the keys outside the two tables alone. -/
theorem getElem?_write_flush (h : UtxoRep P utxoDb utxoCache dbDeletes base view)
    {deletes : List Bytes} (hd : ∀ k, k ∈ deletes ↔ k ∈ dbDeletes) {k : Bytes}
    (hk : ∀ t, k ≠ prefixH :: t ∧ k ≠ prefixU :: t) :
    (utxoDb.write (deletes.map .delete ++
      utxoCache.toList.flatMap fun e ↦ DB.utxoRows e.1 e.2))[k]? = utxoDb[k]? := by
  simp only [utxoRows_eq, ← List.map_flatMap]
  rw [Table.write_append, Table.getElem?_write_puts_of_notMem, Table.getElem?_write_deletes,
    if_neg]
  · rw [hd, h.pending]
    rintro ⟨op, u, -, -, rfl | rfl⟩
    · exact (hk _).1 rfl
    · exact (hk _).2 rfl
  · intro v hm
    obtain ⟨op, u, -, -, ⟨rfl, -⟩ | ⟨rfl, -⟩⟩ := (h.mem_rowPairs _ _).mp hm
    · exact (hk _).1 rfl
    · exact (hk _).2 rfl

/-- The rows of an output are pending deletion when it was unspent and no longer is. -/
private theorem mem_pending (hN : Numbered P) (h : UtxoRep P utxoDb utxoCache dbDeletes base view)
    (hm : (op, u) ∈ P) :
    (hKey op u ∈ dbDeletes ↔ base op = some u ∧ view op = none) ∧
      (uKey op u ∈ dbDeletes ↔ base op = some u ∧ view op = none) := by
  have hne (op' : OutPoint) (u' : Utxo) : hKey op u ≠ uKey op' u' ∧ uKey op u ≠ hKey op' u' :=
    ⟨fun he ↦ absurd (List.cons.inj he).1 (by decide),
      fun he ↦ absurd (List.cons.inj he).1 (by decide)⟩
  rw [h.pending, h.pending]
  refine ⟨⟨?_, fun hb ↦ ⟨op, u, hb.1, hb.2, .inl rfl⟩⟩, ⟨?_, fun hb ↦ ⟨op, u, hb.1, hb.2, .inr rfl⟩⟩⟩
  · rintro ⟨op', u', hb, hv, he | he⟩
    · obtain ⟨rfl, rfl⟩ := hN.hKey_inj hm (h.base_mem _ _ hb) he
      exact ⟨hb, hv⟩
    · exact absurd he (hne op' u').1
  · rintro ⟨op', u', hb, hv, he | he⟩
    · exact absurd he (hne op' u').2
    · obtain ⟨rfl, rfl⟩ := hN.uKey_inj hm (h.base_mem _ _ hb) he
      exact ⟨hb, hv⟩

end UtxoRep

/-- The rows of the `h` and `u` tables that are not pending deletion, overlaid with the cache,
are those of the outputs of `view`, and the two tables match row by row. -/
structure TablesShow (utxoDb utxoCache : Table) (dbDeletes : List Bytes)
    (view : OutPoint → Option Utxo) : Prop where
  shown : ∀ op u, view op = some u →
    utxoCache[cacheKey op]? = some (packed u) ∨
    utxoDb[hKey op u]? = some u.hashX.val ∧ hKey op u ∉ dbDeletes ∧
      utxoDb[uKey op u]? = some (packLE 8 u.value) ∧ uKey op u ∉ dbDeletes
  of_cache : ∀ k v, utxoCache[k]? = some v →
    ∃ op u, view op = some u ∧ k = cacheKey op ∧ v = packed u
  of_hRow : ∀ k v, utxoDb[prefixH :: k]? = some v → prefixH :: k ∉ dbDeletes →
    ∃ op u, view op = some u ∧ prefixH :: k = hKey op u ∧ v = u.hashX.val
  of_uRow : ∀ k v, utxoDb[prefixU :: k]? = some v → prefixU :: k ∉ dbDeletes →
    ∃ op u, view op = some u ∧ prefixU :: k = uKey op u ∧ v = packLE 8 u.value
  uRow_of_hRow : ∀ k v, utxoDb[prefixH :: k]? = some v →
    ∃ op u, prefixH :: k = hKey op u ∧ v = u.hashX.val ∧
      utxoDb[uKey op u]? = some (packLE 8 u.value) ∧
      (hKey op u ∈ dbDeletes ↔ uKey op u ∈ dbDeletes)
  hRow_of_uRow : ∀ k v, utxoDb[prefixU :: k]? = some v →
    ∃ op u, prefixU :: k = uKey op u ∧ v = packLE 8 u.value ∧
      utxoDb[hKey op u]? = some u.hashX.val ∧
      (hKey op u ∈ dbDeletes ↔ uKey op u ∈ dbDeletes)
  disjoint : ∀ op u, utxoCache[cacheKey op]? = some (packed u) → view op = some u →
    utxoDb[hKey op u]? = none ∧ hKey op u ∉ dbDeletes ∧
      utxoDb[uKey op u]? = none ∧ uKey op u ∉ dbDeletes

theorem UtxoRep.tablesShow {P : List (OutPoint × Utxo)} {utxoDb utxoCache : Table}
    {dbDeletes : List Bytes} {base view : OutPoint → Option Utxo} (hN : Numbered P)
    (h : UtxoRep P utxoDb utxoCache dbDeletes base view) :
    TablesShow utxoDb utxoCache dbDeletes view where
  shown op u hv := by
    have hm := h.view_mem op u hv
    cases hb : base op with
    | none => exact .inl ((h.cached _ _).mpr ⟨op, u, hv, hb, rfl, rfl⟩)
    | some u' =>
      obtain rfl := hN.eq_of_mem hm (h.base_mem op u' hb)
      have hnone : view op ≠ none := by rw [hv]; exact Option.some_ne_none _
      refine .inr ⟨(h.hRow _ _).mpr ⟨op, u, hb, rfl, rfl⟩, ?_,
        (h.uRow _ _).mpr ⟨op, u, hb, rfl, rfl⟩, ?_⟩
      · exact fun hd ↦ hnone ((h.mem_pending hN hm).1.mp hd).2
      · exact fun hd ↦ hnone ((h.mem_pending hN hm).2.mp hd).2
  of_cache k v hk := by
    obtain ⟨op, u, hv, -, h1, h2⟩ := (h.cached k v).mp hk
    exact ⟨op, u, hv, h1, h2⟩
  of_hRow k v hk hd := by
    obtain ⟨op, u, hb, h1, h2⟩ := (h.hRow k v).mp hk
    refine ⟨op, u, ?_, h1, h2⟩
    rw [h1, (h.mem_pending hN (h.base_mem op u hb)).1] at hd
    cases hv : view op with
    | none => exact absurd ⟨hb, hv⟩ hd
    | some u' => rw [hN.eq_of_mem (h.view_mem op u' hv) (h.base_mem op u hb)]
  of_uRow k v hk hd := by
    obtain ⟨op, u, hb, h1, h2⟩ := (h.uRow k v).mp hk
    refine ⟨op, u, ?_, h1, h2⟩
    rw [h1, (h.mem_pending hN (h.base_mem op u hb)).2] at hd
    cases hv : view op with
    | none => exact absurd ⟨hb, hv⟩ hd
    | some u' => rw [hN.eq_of_mem (h.view_mem op u' hv) (h.base_mem op u hb)]
  uRow_of_hRow k v hk := by
    obtain ⟨op, u, hb, h1, h2⟩ := (h.hRow k v).mp hk
    have hp := h.mem_pending hN (h.base_mem op u hb)
    exact ⟨op, u, h1, h2, (h.uRow _ _).mpr ⟨op, u, hb, rfl, rfl⟩, hp.1.trans hp.2.symm⟩
  hRow_of_uRow k v hk := by
    obtain ⟨op, u, hb, h1, h2⟩ := (h.uRow k v).mp hk
    have hp := h.mem_pending hN (h.base_mem op u hb)
    exact ⟨op, u, h1, h2, (h.hRow _ _).mpr ⟨op, u, hb, rfl, rfl⟩, hp.1.trans hp.2.symm⟩
  disjoint op u hc hv := by
    have hm := h.view_mem op u hv
    obtain ⟨op', u', hv', hb', he, -⟩ := (h.cached _ _).mp hc
    obtain rfl := cacheKey_inj (hN.idx_lt _ hm) (hN.idx_lt _ (h.view_mem op' u' hv')) he
    have hb (w : Utxo) : base op ≠ some w := by
      rw [hb']
      exact (Option.some_ne_none w).symm
    refine ⟨?_, fun hd ↦ hb u ((h.mem_pending hN hm).1.mp hd).1, ?_,
      fun hd ↦ hb u ((h.mem_pending hN hm).2.mp hd).1⟩
    · rw [Option.eq_none_iff_forall_ne_some]
      intro w hw
      obtain ⟨op', u', hb', he, -⟩ := (h.hRow _ w).mp hw
      obtain ⟨rfl, rfl⟩ := hN.hKey_inj hm (h.base_mem _ _ hb') he
      exact hb u hb'
    · rw [Option.eq_none_iff_forall_ne_some]
      intro w hw
      obtain ⟨op', u', hb', he, -⟩ := (h.uRow _ w).mp hw
      obtain ⟨rfl, rfl⟩ := hN.uKey_inj hm (h.base_mem _ _ hb') he
      exact hb u hb'

end ElectrumX.Index
