import ElectrumX.Server.History
import Mathlib.Data.Set.List

/-!
# The rows of the history table

What the history operations do to the rows under each script hash and flush id. The
numbers of a script hash are its rows in the order of their flush ids; a flush adds a row
behind them, a back-up cuts them at a transaction count, and the recovery drops the rows
with large flush ids.
-/

namespace ElectrumX.Index
open ElectrumX.Base ElectrumX.Lib ElectrumX.Server

/-- A row of numbers as it is stored; there are no empty rows. -/
def storedRow (ns : List Nat) : Option Bytes :=
  if ns = [] then none else some (ns.flatMap (packLE txnumLen))

/-- The key of the row of a script hash and a flush id. -/
def rowKey (hashX : HashX) (id : Nat) : Bytes := hashX.val ++ packBE flushidLen id

/-- The number of flush ids. -/
def flushIds : Nat := 256 ^ flushidLen

/-- Apart from the state record, the history table consists of these rows. -/
structure HistoryRows (db : Table) (rows : HashX → Nat → List Nat) : Prop where
  row : ∀ hashX id, id < flushIds → db[rowKey hashX id]? = storedRow (rows hashX id)
  shape : ∀ k v, db[k]? = some v →
    k = History.stateKey ∨ ∃ hashX id, id < flushIds ∧ k = rowKey hashX id
  num_lt : ∀ hashX id, ∀ n ∈ rows hashX id, n < 2 ^ 40

/-- All numbers of a script hash, in the order of the flush ids. -/
def numbers (rows : HashX → Nat → List Nat) (hashX : HashX) : List Nat :=
  (List.range flushIds).flatMap (rows hashX)

theorem rowKey_inj {hashX hashX' : HashX} {id id' : Nat} (h : id < flushIds) (h' : id' < flushIds)
    (he : rowKey hashX id = rowKey hashX' id') : hashX = hashX' ∧ id = id' := by
  obtain ⟨hx, hi⟩ := List.append_inj he (by rw [hashX.property, hashX'.property])
  exact ⟨Subtype.ext hx, (packBE_inj h h').mp hi⟩

theorem rowKey_ne_stateKey (hashX : HashX) (id : Nat) : rowKey hashX id ≠ History.stateKey := by
  intro h
  have hl := congrArg List.length h
  rw [rowKey, List.length_append, hashX.property, length_packBE] at hl
  cases hl

theorem prefix_rowKey {hashX hashX' : HashX} {id : Nat} :
    hashX.val <+: rowKey hashX' id ↔ hashX = hashX' := by
  constructor
  · rintro ⟨r, hr⟩
    exact Subtype.ext (List.append_inj hr (by rw [hashX.property, hashX'.property])).1
  · rintro rfl
    exact List.prefix_append _ _

/-! ### Reading -/

namespace HistoryRows

variable {db : Table} {rows : HashX → Nat → List Nat}

/-- Iterating over a script hash visits its rows in the order of the flush ids. -/
theorem iterator_eq (h : HistoryRows db rows) (hashX : HashX) :
    db.iterator hashX.val = (List.range flushIds).filterMap fun id ↦
      (storedRow (rows hashX id)).map fun v ↦ (rowKey hashX id, v) := by
  rw [Table.iterator_eq_counters db hashX.val flushidLen]
  · apply List.filterMap_congr
    intro id hid
    rw [← rowKey, h.row hashX id (List.mem_range.mp hid)]
  · intro k v hk hp
    rcases h.shape k v hk with rfl | ⟨hashX', id, hid, rfl⟩
    · have hl := hp.length_le
      rw [hashX.property] at hl
      exact absurd hl (by decide)
    · rw [prefix_rowKey] at hp
      exact ⟨id, hid, by rw [hp]; rfl⟩

private theorem chunks_row {ns : List Nat} :
    chunks (ns.flatMap (packLE txnumLen)) txnumLen = ns.map (packLE txnumLen) :=
  chunks_flatMap (by decide) _ _ fun n _ ↦ length_packLE txnumLen n

private theorem items_eq (h : HistoryRows db rows) (hashX : HashX) :
    ((db.iterator hashX.val).flatMap fun e ↦ chunks e.2 txnumLen) =
      (numbers rows hashX).map (packLE txnumLen) := by
  rw [h.iterator_eq, numbers, List.map_flatMap]
  induction List.range flushIds with
  | nil => rfl
  | cons id ids ih =>
    rw [List.flatMap_cons, ← ih, List.filterMap_cons, storedRow]
    by_cases hn : rows hashX id = []
    · simp [hn]
    · simp [hn, chunks_row]

private theorem yieldTxnums_map {ns : List Nat} (h : ∀ n ∈ ns, n < 2 ^ 40) (limit : Int) :
    History.yieldTxnums limit (ns.map (packLE txnumLen)) =
      .ok (if limit < 0 then ns else ns.take limit.toNat) := by
  induction ns generalizing limit with
  | nil => simp [History.yieldTxnums, pure, Except.pure]
  | cons n ns ih =>
    have hlt : n < 256 ^ txnumLen := by simpa [txnumLen] using h n List.mem_cons_self
    have hl : (packLE txnumLen n ++ txnumPadding).length = 8 := by
      rw [List.length_append, length_packLE]
      rfl
    rw [List.map_cons, History.yieldTxnums, ih (fun m hm ↦ h m (List.mem_cons_of_mem _ hm)),
      unpackLeUint64_of_length hl, txnumPadding, unpackLE_append_zeros, unpackLE_packLE_of_lt hlt]
    by_cases h0 : limit = 0
    · simp [h0, pure, Except.pure]
    · by_cases hneg : limit < 0
      · have h1 : limit - 1 < 0 := by omega
        simp [h0, hneg, h1, bind, Except.bind, pure, Except.pure]
      · have h1 : ¬ limit - 1 < 0 := by omega
        have h2 : limit.toNat = (limit - 1).toNat + 1 := by omega
        simp only [h0, if_false, hneg, h1, bind, Except.bind, pure, Except.pure, h2,
          List.take_succ_cons]

theorem numbers_lt (h : HistoryRows db rows) (hashX : HashX) :
    ∀ n ∈ numbers rows hashX, n < 2 ^ 40 := by
  intro n hn
  obtain ⟨id, -, hm⟩ := List.mem_flatMap.mp hn
  exact h.num_lt hashX id n hm

/-- `get_txnums` yields the numbers of the script hash up to the limit. -/
theorem getTxnums_eq {h : History} (hr : HistoryRows h.db rows) (hashX : HashX)
    (limit : Option Int) :
    h.getTxnums hashX.val limit = .ok (if resolveLimit limit < 0 then numbers rows hashX
      else (numbers rows hashX).take (resolveLimit limit).toNat) := by
  rw [History.getTxnums, hr.items_eq, yieldTxnums_map (hr.numbers_lt hashX)]

/-- `get_txnums` without a limit yields the numbers of the script hash. -/
theorem getTxnums_none {h : History} (hr : HistoryRows h.db rows) (hashX : HashX) :
    h.getTxnums hashX.val none = .ok (numbers rows hashX) := by
  rw [hr.getTxnums_eq, if_pos (by decide)]

/-- `get_txnums` with a limit yields the first numbers of the script hash. -/
theorem getTxnums_some {h : History} (hr : HistoryRows h.db rows) (hashX : HashX) (limit : Nat) :
    h.getTxnums hashX.val (some limit) = .ok ((numbers rows hashX).take limit) := by
  have hl : ¬ ((limit : Int) < 0) := by omega
  rw [hr.getTxnums_eq, resolveLimit, if_neg hl, if_neg hl, Int.toNat_natCast]

/-- Writing the state record changes no row. -/
theorem write_state (h : HistoryRows db rows) (v : Bytes) :
    HistoryRows (db.write [.put History.stateKey v]) rows where
  row hashX id hid := by
    rw [Table.getElem?_write_put, if_neg (rowKey_ne_stateKey hashX id).symm, h.row hashX id hid]
  shape k w hk := by
    rw [Table.getElem?_write_put] at hk
    split at hk
    · next he => exact .inl he.symm
    · exact h.shape k w hk
  num_lt := h.num_lt

end HistoryRows

/-! ### Adding and flushing -/

/-- What is to be added to the numbers of each script hash. -/
structure Unflushed (t : Table) (pend : HashX → List Nat) : Prop where
  row : ∀ hashX : HashX, t[hashX.val]? = storedRow (pend hashX)
  shape : ∀ k v, t[k]? = some v → ∃ hashX : HashX, k = hashX.val
  num_lt : ∀ hashX, ∀ n ∈ pend hashX, n < 2 ^ 40

/-- The numbers, from `n`, of the lists that contain the script hash. -/
def numbersFrom (n : Nat) (hss : List (List HashX)) (hashX : HashX) : List Nat :=
  (hss.zipIdx n).filterMap fun t ↦ if hashX ∈ t.1 then some t.2 else none

namespace Unflushed

variable {t : Table} {pend : HashX → List Nat}

theorem empty : Unflushed ∅ fun _ ↦ [] where
  row hashX := by rw [Std.ExtTreeMap.getElem?_empty]; rfl
  shape k v h := by
    rw [Std.ExtTreeMap.getElem?_empty] at h
    cases h
  num_lt _ n hn := by cases hn

/-- One transaction is added to each of its script hashes. -/
private theorem addTx (h : Unflushed t pend) {n : Nat} (hn : n < 2 ^ 40) {xs : List HashX}
    (hd : xs.Nodup) :
    Unflushed (History.addTx t (packLE txnumLen n) (xs.map (·.val)))
      fun hashX ↦ if hashX ∈ xs then pend hashX ++ [n] else pend hashX := by
  induction xs generalizing t pend with
  | nil => simpa [History.addTx] using h
  | cons x xs ih =>
    rw [List.nodup_cons] at hd
    have hget : t[x.val]?.getD [] ++ packLE txnumLen n =
        (pend x ++ [n]).flatMap (packLE txnumLen) := by
      rw [h.row x, List.flatMap_append, List.flatMap_singleton, storedRow]
      by_cases hp : pend x = []
      · simp [hp]
      · simp [hp]
    have hx : Unflushed (t.insert x.val (t[x.val]?.getD [] ++ packLE txnumLen n))
        (Function.update pend x (pend x ++ [n])) := by
      refine ⟨fun y ↦ ?_, fun k v hk ↦ ?_, fun y m hm ↦ ?_⟩
      · rw [Table.getElem?_insert, hget]
        by_cases hxy : x = y
        · subst hxy
          rw [if_pos rfl, Function.update_self, storedRow, if_neg (by simp)]
        · rw [if_neg fun he ↦ hxy (Subtype.ext he), Function.update_of_ne (Ne.symm hxy), h.row]
      · rw [Table.getElem?_insert] at hk
        split at hk
        · next he => exact ⟨x, he.symm⟩
        · exact h.shape k v hk
      · rw [Function.update_apply] at hm
        split at hm
        · next hy =>
          rcases List.mem_append.mp hm with hm | hm
          · exact h.num_lt x m hm
          · rwa [List.mem_singleton.mp hm]
        · exact h.num_lt y m hm
    have hr := ih hx hd.2
    change Unflushed (History.addTx _ _ _) _
    refine ⟨fun y ↦ ?_, hr.shape, fun y m hm ↦ ?_⟩
    · rw [List.map_cons]
      refine (hr.row y).trans ?_
      by_cases hy : y = x
      · subst hy
        simp [hd.1]
      · simp [hy]
    · apply hr.num_lt y m
      by_cases hy : y = x
      · subst hy
        simpa [hd.1] using hm
      · simpa [hy] using hm

/-- `add_unflushed` adds the number of each transaction to each of its script hashes. -/
theorem addUnflushed {h : History} (hu : Unflushed h.unflushed pend) (hss : List (List HashX))
    (n : Nat) (hn : n + hss.length ≤ 2 ^ 40) :
    ∃ t c, h.addUnflushed (hss.map fun hs ↦ hs.map (·.val)) n =
        .ok { h with unflushed := t, unflushedCount := c } ∧
      Unflushed t fun hashX ↦ pend hashX ++ numbersFrom n hss hashX := by
  induction hss generalizing h n pend with
  | nil => exact ⟨h.unflushed, h.unflushedCount, rfl, by simpa [numbersFrom] using hu⟩
  | cons hs hss ih =>
    rw [List.length_cons] at hn
    have hd : (hs.map (·.val)).dedup = hs.dedup.map (·.val) :=
      List.dedup_map_of_injective Subtype.val_injective hs
    have h1 := hu.addTx (n := n) (by omega) hs.nodup_dedup
    obtain ⟨t, c, hr, ht⟩ := ih (h := { h with
      unflushed := History.addTx h.unflushed (packLE txnumLen n) (hs.dedup.map (·.val))
      unflushedCount := h.unflushedCount + (hs.dedup.map (·.val)).length }) h1 (n + 1)
      (by omega)
    refine ⟨t, c, ?_, ?_⟩
    · rw [List.map_cons, History.addUnflushed, packLeUint64_of_lt (by omega)]
      simp only [bind, Except.bind, hd, take_packLE n (by decide : txnumLen ≤ 8)]
      exact hr
    · convert ht using 2 with hashX
      rw [numbersFrom, List.zipIdx_cons, List.filterMap_cons]
      by_cases hx : hashX ∈ hs
      · simp [hx, numbersFrom]
      · simp [hx, numbersFrom]

end Unflushed

theorem storedRow_eq_some {ns : List Nat} {v : Bytes} :
    storedRow ns = some v ↔ ns ≠ [] ∧ ns.flatMap (packLE txnumLen) = v := by
  rw [storedRow]
  split
  · next h => simp [h]
  · next h => simp [h]

/-- Nothing is pending in an empty table. -/
theorem Unflushed.eq_nil {t : Table} {pend : HashX → List Nat} (hu : Unflushed t pend)
    (h : t.toList = []) (hashX : HashX) : pend hashX = [] := by
  have hrow := hu.row hashX
  cases hk : t[hashX.val]? with
  | none =>
    by_contra hne
    exact absurd ((storedRow_eq_some.mpr ⟨hne, rfl⟩).symm.trans (hrow.symm.trans hk)) (by simp)
  | some v =>
    have hm := Std.ExtTreeMap.mem_toList_iff_getElem?_eq_some.mpr hk
    rw [h] at hm
    cases hm

/-- The rows once a flush has added the numbers `pend` under a flush id. -/
def addRows (rows : HashX → Nat → List Nat) (id : Nat) (pend : HashX → List Nat) :
    HashX → Nat → List Nat :=
  fun hashX ↦ Function.update (rows hashX) id (pend hashX)

/-- Rows behind the last used flush id are empty. -/
def RowsUpTo (rows : HashX → Nat → List Nat) (flushCount : Nat) : Prop :=
  ∀ hashX id, flushCount < id → rows hashX id = []

private theorem flatMap_range_of_nil {f : Nat → List Nat} {m n : Nat} (hm : m ≤ n)
    (h : ∀ i, m ≤ i → f i = []) : (List.range n).flatMap f = (List.range m).flatMap f := by
  induction n, hm using Nat.le_induction with
  | base => rfl
  | succ n hn ih => rw [List.range_succ, List.flatMap_append, ih, List.flatMap_singleton, h n hn,
      List.append_nil]

/-- The numbers of a later flush come behind the others. -/
theorem numbers_addRows {rows : HashX → Nat → List Nat} {flushCount : Nat}
    (hu : RowsUpTo rows flushCount) (hlt : flushCount + 1 < flushIds) (pend : HashX → List Nat)
    (hashX : HashX) :
    numbers (addRows rows (flushCount + 1) pend) hashX = numbers rows hashX ++ pend hashX := by
  have hold : (List.range (flushCount + 1)).flatMap (addRows rows (flushCount + 1) pend hashX) =
      (List.range (flushCount + 1)).flatMap (rows hashX) := by
    apply List.flatMap_congr
    intro id hid
    exact Function.update_of_ne (List.mem_range.mp hid).ne _ _
  have hnew : addRows rows (flushCount + 1) pend hashX (flushCount + 1) = pend hashX :=
    Function.update_self ..
  have hnil : ∀ i, flushCount + 2 ≤ i → addRows rows (flushCount + 1) pend hashX i = [] :=
    fun i hi ↦ (Function.update_of_ne (by omega) _ _).trans (hu hashX i (by omega))
  rw [numbers, flatMap_range_of_nil hlt hnil, List.range_succ, List.flatMap_append,
    List.flatMap_singleton, hold, hnew, numbers,
    flatMap_range_of_nil (Nat.le_of_succ_le hlt) fun i hi ↦ hu hashX i hi]

/-- `flush` adds the unflushed numbers as rows under the next flush id. -/
theorem HistoryRows.flush (codec : StateCodec HistoryState) {h : History}
    {rows : HashX → Nat → List Nat} {pend : HashX → List Nat} (hr : HistoryRows h.db rows)
    (hp : Unflushed h.unflushed pend) (hu : RowsUpTo rows h.flushCount)
    (hlt : h.flushCount + 1 < flushIds) :
    ∃ db, h.flush codec = .ok { h with
        db := db, unflushed := ∅, unflushedCount := 0, flushCount := h.flushCount + 1 } ∧
      HistoryRows db (addRows rows (h.flushCount + 1) pend) ∧
      db[History.stateKey]? = some (codec.repr ⟨h.flushCount + 1, some h.compFlushCount,
        some h.compCursor, some h.dbVersion, some h.upgradeCursor⟩) := by
  set ps := h.unflushed.toList.map fun e ↦ (e.1 ++ packBE flushidLen (h.flushCount + 1), e.2)
    with hps
  have hmem (a v : Bytes) : (a, v) ∈ ps ↔
      ∃ hashX, a = rowKey hashX (h.flushCount + 1) ∧ storedRow (pend hashX) = some v := by
    rw [hps, List.mem_map]
    constructor
    · rintro ⟨⟨k, w⟩, he, hk⟩
      obtain ⟨rfl, rfl⟩ := Prod.mk.inj hk
      have hk := Std.ExtTreeMap.mem_toList_iff_getElem?_eq_some.mp he
      obtain ⟨hashX, rfl⟩ := hp.shape _ _ hk
      exact ⟨hashX, rfl, by rw [← hp.row, hk]⟩
    · rintro ⟨hashX, rfl, hv⟩
      refine ⟨(hashX.val, v), ?_, rfl⟩
      rw [Std.ExtTreeMap.mem_toList_iff_getElem?_eq_some, hp.row, hv]
  have hputs : h.unflushed.toList.map
      (fun e ↦ BatchOp.put (e.1 ++ packBE flushidLen (h.flushCount + 1)) e.2) =
        ps.map fun p ↦ .put p.1 p.2 := by
    rw [hps, List.map_map]
    rfl
  -- The rows that the batch of puts leaves.
  have hrows : HistoryRows (h.db.write (ps.map fun p ↦ .put p.1 p.2))
      (addRows rows (h.flushCount + 1) pend) := by
    refine ⟨fun hashX id hid ↦ ?_, fun k v hk ↦ ?_, fun hashX id n hn ↦ ?_⟩
    · by_cases hi : id = h.flushCount + 1
      · subst hi
        rw [addRows, Function.update_self]
        cases hs : storedRow (pend hashX) with
        | none =>
          rw [Table.getElem?_write_puts_of_notMem, hr.row _ _ hid, hu _ _ (Nat.lt_succ_self _)]
          · rfl
          · intro v hv
            obtain ⟨hashX', he, hv'⟩ := (hmem _ _).mp hv
            obtain ⟨rfl, -⟩ := rowKey_inj hid hid he
            cases hs.symm.trans hv'
        | some v =>
          apply Table.getElem?_write_puts_of_mem _ _ _ _ ((hmem _ _).mpr ⟨hashX, rfl, hs⟩)
          intro w hw
          obtain ⟨hashX', he, hw'⟩ := (hmem _ _).mp hw
          obtain ⟨rfl, -⟩ := rowKey_inj hid hid he
          exact Option.some.inj (hw'.symm.trans hs)
      · rw [addRows, Function.update_of_ne hi, Table.getElem?_write_puts_of_notMem,
          hr.row _ _ hid]
        intro v hv
        obtain ⟨hashX', he, -⟩ := (hmem _ _).mp hv
        exact hi (rowKey_inj hid hlt he).2
    · by_cases hm : ∃ w, (k, w) ∈ ps
      · obtain ⟨w, hw⟩ := hm
        obtain ⟨hashX, rfl, -⟩ := (hmem _ _).mp hw
        exact .inr ⟨hashX, _, hlt, rfl⟩
      · rw [Table.getElem?_write_puts_of_notMem _ _ _ fun w hw ↦ hm ⟨w, hw⟩] at hk
        exact hr.shape k v hk
    · rw [addRows, Function.update_apply] at hn
      split at hn
      · exact hp.num_lt _ n hn
      · exact hr.num_lt _ _ n hn
  have h16 : h.flushCount + 1 < 2 ^ 16 := by simpa [flushIds, flushidLen] using hlt
  refine ⟨(h.db.write (ps.map fun p ↦ .put p.1 p.2)).write [.put History.stateKey (codec.repr
    ⟨h.flushCount + 1, some h.compFlushCount, some h.compCursor, some h.dbVersion,
      some h.upgradeCursor⟩)], ?_, hrows.write_state _, ?_⟩
  · rw [History.flush, packBeUint16_of_lt h16, ← Table.write_append, ← hputs]
    rfl
  · rw [Table.getElem?_write_put, if_pos rfl]

/-- A flush that succeeds had an id left. -/
theorem flushCount_lt_of_flush {codec : StateCodec HistoryState} {h h' : History}
    (hf : h.flush codec = .ok h') : h.flushCount + 1 < flushIds := by
  by_contra hlt
  have h16 : ¬ h.flushCount + 1 < 2 ^ 16 := by simpa [flushIds, flushidLen] using hlt
  rw [History.flush, packBeUint16, if_neg h16] at hf
  cases hf

/-! ### Backing up -/

private theorem packLE_append_padding {n : Nat} (h : n < 2 ^ 40) :
    packLE txnumLen n ++ txnumPadding = packLE 8 n := by
  have hu : unpackLE (packLE txnumLen n ++ txnumPadding) = n := by
    rw [txnumPadding, unpackLE_append_zeros, unpackLE_packLE_of_lt (by simpa [txnumLen] using h)]
  have hl : (packLE txnumLen n ++ txnumPadding).length = 8 := by
    rw [List.length_append, length_packLE]
    rfl
  have hp := packLE_unpackLE (packLE txnumLen n ++ txnumPadding)
  rw [hu, hl] at hp
  exact hp.symm

private theorem arrayQ_row {ns : List Nat} (h : ∀ n ∈ ns, n < 2 ^ 40) :
    arrayQ ((chunks (ns.flatMap (packLE txnumLen)) txnumLen).flatMap (· ++ txnumPadding)) =
      .ok ns := by
  have hc : chunks (ns.flatMap (packLE txnumLen)) txnumLen = ns.map (packLE txnumLen) :=
    chunks_flatMap (by decide) _ _ fun n _ ↦ length_packLE txnumLen n
  have hm : (ns.map (packLE txnumLen)).flatMap (· ++ txnumPadding) = ns.flatMap (packLE 8) := by
    rw [List.flatMap_map]
    exact List.flatMap_congr fun n hn ↦ packLE_append_padding (h n hn)
  rw [hc, hm]
  apply arrayQ_flatMap
  intro n hn
  have := h n hn
  omega

/-- A row of the table with its flush id. -/
private def item (hashX : HashX) (r : Nat × List Nat) : Bytes × Bytes :=
  (rowKey hashX r.1, r.2.flatMap (packLE txnumLen))

/-- From the newest row to the oldest, `backup` drops the numbers from the transaction count on.
It stops at the first row with a smaller number, as all older numbers are smaller. -/
private theorem backupRows_spec (hashX : HashX) (txCount : Nat) (rs : List (Nat × List Nat))
    (hid : ∀ r ∈ rs, r.1 < flushIds) (hn : (rs.map Prod.fst).Nodup) (hne : ∀ r ∈ rs, r.2 ≠ [])
    (hlt : ∀ r ∈ rs, ∀ n ∈ r.2, n < 2 ^ 40)
    (hs : (rs.reverse.flatMap (·.2)).Pairwise (· < ·)) :
    ∃ deletes puts, History.backupRows txCount (rs.map (item hashX)) = .ok (deletes, puts) ∧
      ∀ t : Table, (∀ r ∈ rs, t[rowKey hashX r.1]? = storedRow r.2) →
        (∀ r ∈ rs, (t.write (deletes ++ puts))[rowKey hashX r.1]? =
          storedRow (r.2.filter (· < txCount))) ∧
        ∀ a, (∀ r ∈ rs, a ≠ rowKey hashX r.1) → (t.write (deletes ++ puts))[a]? = t[a]? := by
  induction rs with
  | nil => exact ⟨[], [], rfl, fun t _ ↦ ⟨by simp, fun a _ ↦ rfl⟩⟩
  | cons r rs ih =>
    rw [List.reverse_cons, List.flatMap_append, List.flatMap_singleton,
      List.pairwise_append] at hs
    obtain ⟨hs1, hs2, hs3⟩ := hs
    rw [List.map_cons, List.nodup_cons] at hn
    have hkey : ∀ r' ∈ rs, rowKey hashX r'.1 ≠ rowKey hashX r.1 := by
      intro r' hr' he
      have hi := (rowKey_inj (hid _ (List.mem_cons_of_mem _ hr')) (hid _ List.mem_cons_self) he).2
      exact hn.1 (List.mem_map.mpr ⟨r', hr', hi⟩)
    have htake := take_bisectLeft hs2 txCount
    have hrow := arrayQ_row (hlt r List.mem_cons_self)
    by_cases hidx : 0 < bisectLeft r.2 txCount
    · -- This row keeps its smaller numbers, and no older number is affected.
      refine ⟨[], [.put (rowKey hashX r.1)
        ((r.2.flatMap (packLE txnumLen)).take (txnumLen * bisectLeft r.2 txCount))], ?_,
        fun t ht ↦ ?_⟩
      · rw [List.map_cons, item, History.backupRows, hrow]
        simp only [bind, Except.bind, pure, Except.pure, gt_iff_lt, if_pos hidx]
      · have hcut : (r.2.flatMap (packLE txnumLen)).take (txnumLen * bisectLeft r.2 txCount) =
            (r.2.filter (· < txCount)).flatMap (packLE txnumLen) := by
          rw [Nat.mul_comm, take_flatMap_of_width _ _ fun n _ ↦ length_packLE txnumLen n, htake]
        have hfirst : ∃ m ∈ r.2, m < txCount := by
          have hl : 0 < (r.2.take (bisectLeft r.2 txCount)).length := by
            rw [List.length_take]
            exact lt_min hidx (List.length_pos_of_ne_nil (hne r List.mem_cons_self))
          rw [htake] at hl
          obtain ⟨m, hm⟩ := List.exists_mem_of_length_pos hl
          have hm' := List.mem_filter.mp hm
          exact ⟨m, hm'.1, by simpa using hm'.2⟩
        obtain ⟨m, hm, hmlt⟩ := hfirst
        refine ⟨fun r' hr' ↦ ?_, fun a ha ↦ ?_⟩
        · rw [List.nil_append, Table.getElem?_write_put, hcut]
          rcases List.mem_cons.mp hr' with rfl | hr'
          · rw [if_pos rfl, storedRow, if_neg]
            exact List.ne_nil_of_mem (List.mem_filter.mpr ⟨hm, by simpa using hmlt⟩)
          · have hall : r'.2.filter (· < txCount) = r'.2 := by
              apply List.filter_eq_self.mpr
              intro n hn'
              have hlt' := hs3 n (List.mem_flatMap.mpr ⟨r', List.mem_reverse.mpr hr', hn'⟩) m hm
              simpa using hlt'.trans hmlt
            rw [if_neg (hkey r' hr').symm, ht r' (List.mem_cons_of_mem _ hr'), hall]
        · rw [List.nil_append, Table.getElem?_write_put, if_neg (ha r List.mem_cons_self).symm]
    · -- This row disappears.
      have h0 : bisectLeft r.2 txCount = 0 := by omega
      have hnil : r.2.filter (· < txCount) = [] := by rw [← htake, h0, List.take_zero]
      obtain ⟨deletes, puts, hb, hw⟩ := ih (fun x hx ↦ hid x (List.mem_cons_of_mem _ hx)) hn.2
        (fun x hx ↦ hne x (List.mem_cons_of_mem _ hx))
        (fun x hx ↦ hlt x (List.mem_cons_of_mem _ hx)) hs1
      refine ⟨.delete (rowKey hashX r.1) :: deletes, puts, ?_, fun t ht ↦ ?_⟩
      · rw [List.map_cons, item, History.backupRows, hrow]
        simp only [bind, Except.bind, pure, Except.pure, gt_iff_lt, if_neg hidx, hb]
      · obtain ⟨hw1, hw2⟩ := hw (t.erase (rowKey hashX r.1)) fun r' hr' ↦ by
          rw [Table.getElem?_erase, if_neg (hkey r' hr').symm, ht r' (List.mem_cons_of_mem _ hr')]
        refine ⟨fun r' hr' ↦ ?_, fun a ha ↦ ?_⟩
        · rcases List.mem_cons.mp hr' with rfl | hr'
          · have he := hw2 (rowKey hashX r'.1) fun x hx he ↦ hkey x hx he.symm
            rw [List.cons_append, Table.write_cons, hnil]
            rw [Table.getElem?_erase, if_pos rfl] at he
            exact he
          · exact hw1 r' hr'
        · have he := hw2 a fun x hx ↦ ha x (List.mem_cons_of_mem _ hx)
          rw [Table.getElem?_erase, if_neg (ha r List.mem_cons_self).symm] at he
          exact he

/-- The non-empty rows of a script hash with their flush ids. -/
private def idRows (rows : HashX → Nat → List Nat) (hashX : HashX) : List (Nat × List Nat) :=
  (List.range flushIds).filterMap fun id ↦
    if rows hashX id = [] then none else some (id, rows hashX id)

private theorem mem_idRows {rows : HashX → Nat → List Nat} {hashX : HashX} {r : Nat × List Nat} :
    r ∈ idRows rows hashX ↔ r.1 < flushIds ∧ r.2 = rows hashX r.1 ∧ r.2 ≠ [] := by
  rw [idRows, List.mem_filterMap]
  constructor
  · rintro ⟨id, hid, h⟩
    split at h
    · cases h
    · next hne =>
      cases h
      exact ⟨List.mem_range.mp hid, rfl, hne⟩
  · rintro ⟨hid, h, hne⟩
    refine ⟨r.1, List.mem_range.mpr hid, ?_⟩
    rw [← h, if_neg hne]

private theorem idRows_nodup (rows : HashX → Nat → List Nat) (hashX : HashX) :
    ((idRows rows hashX).map Prod.fst).Nodup := by
  have hsub : ((idRows rows hashX).map Prod.fst).Sublist (List.range flushIds) := by
    rw [idRows, List.map_filterMap]
    induction List.range flushIds with
    | nil => exact List.Sublist.slnil
    | cons id ids ih =>
      rw [List.filterMap_cons]
      by_cases hr : rows hashX id = []
      · simpa [hr] using ih.cons id
      · simpa [hr] using ih.cons_cons id
  exact hsub.nodup List.nodup_range

private theorem idRows_flatMap (rows : HashX → Nat → List Nat) (hashX : HashX) :
    (idRows rows hashX).flatMap (·.2) = numbers rows hashX := by
  rw [idRows, numbers]
  induction List.range flushIds with
  | nil => rfl
  | cons id ids ih =>
    rw [List.filterMap_cons, List.flatMap_cons, ← ih]
    by_cases hr : rows hashX id = []
    · simp [hr]
    · simp [hr]

private theorem iterator_eq_items {db : Table} {rows : HashX → Nat → List Nat}
    (hr : HistoryRows db rows) (hashX : HashX) :
    db.iterator hashX.val = (idRows rows hashX).map (item hashX) := by
  rw [hr.iterator_eq, idRows, List.map_filterMap]
  apply List.filterMap_congr
  intro id _
  rw [storedRow]
  by_cases hn : rows hashX id = []
  · simp [hn]
  · simp [hn, item]

/-- The rows once the numbers from a transaction count on are gone. -/
def cutRows (rows : HashX → Nat → List Nat) (txCount : Nat) : HashX → Nat → List Nat :=
  fun hashX id ↦ (rows hashX id).filter (· < txCount)

theorem numbers_cutRows (rows : HashX → Nat → List Nat) (txCount : Nat) (hashX : HashX) :
    numbers (cutRows rows txCount) hashX = (numbers rows hashX).filter (· < txCount) := by
  rw [numbers, numbers, List.filter_flatMap]
  rfl

private theorem backupOps_spec {db : Table} {rows : HashX → Nat → List Nat} (txCount : Nat)
    (hr : HistoryRows db rows) (hs : ∀ hashX, (numbers rows hashX).Pairwise (· < ·))
    {xs : List HashX} (hn : xs.Nodup) :
    ∃ ops, History.backupOps db txCount (xs.map (·.val)) = .ok ops ∧
      ∀ t : Table, (∀ hashX ∈ xs, ∀ id < flushIds,
          t[rowKey hashX id]? = storedRow (rows hashX id)) →
        (∀ hashX ∈ xs, ∀ id < flushIds,
          (t.write ops)[rowKey hashX id]? = storedRow (cutRows rows txCount hashX id)) ∧
        ∀ a, (∀ hashX ∈ xs, ∀ id < flushIds, a ≠ rowKey hashX id) →
          (t.write ops)[a]? = t[a]? := by
  induction xs with
  | nil => exact ⟨[], rfl, fun t _ ↦ ⟨by simp, fun a _ ↦ rfl⟩⟩
  | cons x xs ih =>
    rw [List.nodup_cons] at hn
    obtain ⟨ops, hops, hw⟩ := ih hn.2
    obtain ⟨deletes, puts, hb, hw'⟩ := backupRows_spec x txCount (idRows rows x).reverse
      (fun r h ↦ (mem_idRows.mp (List.mem_reverse.mp h)).1)
      (by rw [List.map_reverse, List.nodup_reverse]; exact idRows_nodup rows x)
      (fun r h ↦ (mem_idRows.mp (List.mem_reverse.mp h)).2.2)
      (fun r h n hm ↦ hr.num_lt x r.1 n ((mem_idRows.mp (List.mem_reverse.mp h)).2.1 ▸ hm))
      (by rw [List.reverse_reverse, idRows_flatMap]; exact hs x)
    refine ⟨deletes ++ puts ++ ops, ?_, fun t ht ↦ ?_⟩
    · rw [List.map_cons, History.backupOps, iterator_eq_items hr, ← List.map_reverse, hb]
      simp only [bind, Except.bind, pure, Except.pure, hops]
    · have hrow : ∀ r ∈ (idRows rows x).reverse, t[rowKey x r.1]? = storedRow r.2 := by
        intro r h
        obtain ⟨hid, he, -⟩ := mem_idRows.mp (List.mem_reverse.mp h)
        rw [ht x List.mem_cons_self r.1 hid, he]
      obtain ⟨h1, h2⟩ := hw' t hrow
      have hother : ∀ a, (∀ id < flushIds, a ≠ rowKey x id) →
          (t.write (deletes ++ puts))[a]? = t[a]? := fun a ha ↦
        h2 a fun r h ↦ ha r.1 (mem_idRows.mp (List.mem_reverse.mp h)).1
      have hx : ∀ id < flushIds, (t.write (deletes ++ puts))[rowKey x id]? =
          storedRow (cutRows rows txCount x id) := by
        intro id hid
        by_cases hnil : rows x id = []
        · rw [h2, ht x List.mem_cons_self id hid, cutRows, hnil, List.filter_nil]
          intro r h he
          obtain ⟨hid', hr', hne⟩ := mem_idRows.mp (List.mem_reverse.mp h)
          rw [← (rowKey_inj hid hid' he).2, hnil] at hr'
          exact hne hr'
        · exact h1 (id, rows x id) (List.mem_reverse.mpr (mem_idRows.mpr ⟨hid, rfl, hnil⟩))
      have hne : ∀ hashX ∈ xs, ∀ id < flushIds, ∀ id' < flushIds,
          rowKey hashX id ≠ rowKey x id' := by
        intro hashX hm id hid id' hid' he
        exact hn.1 ((rowKey_inj hid hid' he).1 ▸ hm)
      obtain ⟨h3, h4⟩ := hw (t.write (deletes ++ puts)) fun hashX hm id hid ↦ by
        rw [hother _ (hne hashX hm id hid), ht hashX (List.mem_cons_of_mem _ hm) id hid]
      rw [Table.write_append]
      refine ⟨fun hashX hm id hid ↦ ?_, fun a ha ↦ ?_⟩
      · rcases List.mem_cons.mp hm with rfl | hm
        · rw [h4, hx id hid]
          intro y hy id' hid' he
          exact hne y hy id' hid' id hid he.symm
        · exact h3 hashX hm id hid
      · rw [h4 a fun y hy ↦ ha y (List.mem_cons_of_mem _ hy), hother a (ha x List.mem_cons_self)]

/-- `backup` cuts the numbers of every script hash at the transaction count, when the script
hashes left out have no larger ones. -/
theorem HistoryRows.backup (codec : StateCodec HistoryState) {h : History}
    {rows : HashX → Nat → List Nat} {touched : List Bytes} {txCount : Nat}
    (hr : HistoryRows h.db rows) (hs : ∀ hashX, (numbers rows hashX).Pairwise (· < ·))
    (ht : ∀ x ∈ touched, x.length = hashXLen) (hn : touched.Nodup)
    (hall : ∀ hashX : HashX, hashX.val ∉ touched → ∀ n ∈ numbers rows hashX, n < txCount) :
    ∃ db, h.backup codec touched txCount =
        .ok { h with db := db, flushCount := h.flushCount + 1 } ∧
      HistoryRows db (cutRows rows txCount) ∧
      db[History.stateKey]? = some (codec.repr ⟨h.flushCount + 1, some h.compFlushCount,
        some h.compCursor, some h.dbVersion, some h.upgradeCursor⟩) := by
  lift touched to List HashX using ht
  have hxs : touched.Nodup := hn.of_map _
  obtain ⟨ops, hops, hw⟩ := backupOps_spec txCount hr hs hxs
  obtain ⟨h1, h2⟩ := hw h.db fun hashX _ id hid ↦ hr.row hashX id hid
  have hrows : HistoryRows (h.db.write ops) (cutRows rows txCount) := by
    refine ⟨fun hashX id hid ↦ ?_, fun k v hk ↦ ?_, fun hashX id n hm ↦ ?_⟩
    · by_cases hm : hashX ∈ touched
      · exact h1 hashX hm id hid
      · have hcut : cutRows rows txCount hashX id = rows hashX id := by
          apply List.filter_eq_self.mpr
          intro n hn'
          have hv : hashX.val ∉ touched.map (·.val) := by
            rw [List.mem_map]
            rintro ⟨y, hy, he⟩
            exact hm (Subtype.ext he ▸ hy)
          simpa using hall hashX hv n (List.mem_flatMap.mpr ⟨id, List.mem_range.mpr hid, hn'⟩)
        rw [hcut, h2, hr.row hashX id hid]
        intro y hy id' hid' he
        exact hm ((rowKey_inj hid hid' he).1 ▸ hy)
    · by_cases hm : ∃ hashX ∈ touched, ∃ id < flushIds, k = rowKey hashX id
      · obtain ⟨hashX, -, id, hid, rfl⟩ := hm
        exact .inr ⟨hashX, id, hid, rfl⟩
      · rw [h2 k fun y hy id hid he ↦ hm ⟨y, hy, id, hid, he⟩] at hk
        exact hr.shape k v hk
    · exact hr.num_lt hashX id n (List.mem_of_mem_filter hm)
  refine ⟨(h.db.write ops).write [.put History.stateKey (codec.repr
    ⟨h.flushCount + 1, some h.compFlushCount, some h.compCursor, some h.dbVersion,
      some h.upgradeCursor⟩)], ?_, hrows.write_state _, ?_⟩
  · rw [History.backup]
    simp only [hops, bind, Except.bind, pure, Except.pure]
    rw [← Table.write_append]
    rfl
  · rw [Table.getElem?_write_put, if_pos rfl]

/-! ### Recovering -/

/-- The rows once those with larger flush ids are gone. -/
def dropRows (rows : HashX → Nat → List Nat) (flushCount : Nat) : HashX → Nat → List Nat :=
  fun hashX id ↦ if flushCount < id then [] else rows hashX id

private theorem flushId_rowKey {hashX : HashX} {id : Nat} (h : id < flushIds) :
    History.flushId (rowKey hashX id) = .ok id := by
  have hl : lastN flushidLen (rowKey hashX id) = packBE flushidLen id :=
    lastN_append_of_length _ (length_packBE _ _)
  have ht : (packBE flushidLen id).take 2 = packBE flushidLen id :=
    List.take_of_length_le (by rw [length_packBE]; decide)
  have h2 : 2 ≤ (packBE flushidLen id).length := by rw [length_packBE]; decide
  rw [History.flushId, hl, unpackBeUint16From, if_pos h2, ht, unpackBE_packBE_of_lt h]

private theorem excessKeys_spec (c : Nat) (es : List (Bytes × Bytes))
    (hes : ∀ e ∈ es, e.1 = History.stateKey ∨ ∃ hashX id, id < flushIds ∧ e.1 = rowKey hashX id) :
    ∃ keys, History.excessKeys c es = .ok keys ∧ ∀ k, k ∈ keys ↔
      ∃ hashX id, id < flushIds ∧ c < id ∧ k = rowKey hashX id ∧ k ∈ es.map Prod.fst := by
  induction es with
  | nil => exact ⟨[], rfl, by simp⟩
  | cons e es ih =>
    obtain ⟨keys, hk, hm⟩ := ih fun x hx ↦ hes x (List.mem_cons_of_mem _ hx)
    rcases hes e List.mem_cons_self with he | ⟨hashX, id, hid, he⟩
    · have h0 : History.flushId e.1 = .ok 0 := by rw [he]; decide
      refine ⟨keys, ?_, fun k ↦ ?_⟩
      · rw [History.excessKeys, h0, hk]
        rfl
      · rw [hm, List.map_cons]
        refine exists_congr fun x ↦ exists_congr fun i ↦ and_congr_right fun _ ↦
          and_congr_right fun _ ↦ and_congr_right fun hx ↦ ?_
        rw [List.mem_cons, or_iff_right]
        rw [hx, he]
        exact rowKey_ne_stateKey x i
    · refine ⟨if c < id then e.1 :: keys else keys, ?_, fun k ↦ ?_⟩
      · rw [History.excessKeys, he, flushId_rowKey hid, hk]
        simp only [bind, Except.bind, pure, Except.pure, gt_iff_lt]
      · rw [List.map_cons]
        by_cases hc : c < id
        · rw [if_pos hc, List.mem_cons, hm]
          constructor
          · rintro (rfl | ⟨x, i, hi, hci, rfl, hmem⟩)
            · exact ⟨hashX, id, hid, hc, he, List.mem_cons_self⟩
            · exact ⟨x, i, hi, hci, rfl, List.mem_cons_of_mem _ hmem⟩
          · rintro ⟨x, i, hi, hci, hx, hmem⟩
            rcases List.mem_cons.mp hmem with rfl | hmem
            · exact .inl rfl
            · exact .inr ⟨x, i, hi, hci, hx, hmem⟩
        · rw [if_neg hc, hm]
          refine exists_congr fun x ↦ exists_congr fun i ↦ and_congr_right fun hi ↦
            and_congr_right fun hci ↦ and_congr_right fun hx ↦ ?_
          rw [List.mem_cons, or_iff_right]
          rw [hx, he]
          intro h
          exact hc ((rowKey_inj hi hid h).2 ▸ hci)

/-- Rows that are all within the flush count stay. -/
theorem dropRows_eq_self {rows : HashX → Nat → List Nat} {c : Nat} (h : RowsUpTo rows c) :
    dropRows rows c = rows := by
  funext hashX id
  rw [dropRows]
  split
  · next hc => exact (h hashX id hc).symm
  · rfl

theorem rowsUpTo_dropRows (rows : HashX → Nat → List Nat) (c : Nat) :
    RowsUpTo (dropRows rows c) c :=
  fun _ _ h ↦ if_pos h

/-- `clear_excess` drops the rows with flush ids above a smaller one of the UTXO DB. -/
theorem HistoryRows.clearExcess_of_lt (codec : StateCodec HistoryState) {h : History}
    {rows : HashX → Nat → List Nat} (hr : HistoryRows h.db rows) {c : Nat}
    (hc : c < h.flushCount) :
    ∃ db, h.clearExcess codec c = .ok { h with db := db, flushCount := c } ∧
      HistoryRows db (dropRows rows c) ∧
      db[History.stateKey]? = some (codec.repr ⟨c, some h.compFlushCount, some h.compCursor,
        some h.dbVersion, some h.upgradeCursor⟩) := by
  obtain ⟨keys, hk, hm⟩ := excessKeys_spec c (h.db.iterator []) fun e he ↦
    hr.shape e.1 e.2 (Table.mem_iterator.mp he).1
  have hdel : HistoryRows (h.db.write (keys.map .delete)) (dropRows rows c) := by
    refine ⟨fun hashX id hid ↦ ?_, fun k v hkv ↦ ?_, fun hashX id n hn ↦ ?_⟩
    · rw [Table.getElem?_write_deletes, dropRows]
      by_cases hci : c < id
      · rw [if_pos hci]
        split
        · rfl
        · next hnot =>
          cases hg : h.db[rowKey hashX id]? with
          | none => rfl
          | some v =>
            refine absurd ((hm _).mpr ⟨hashX, id, hid, hci, rfl, ?_⟩) hnot
            exact List.mem_map.mpr ⟨(_, v), Table.mem_iterator.mpr ⟨hg, List.nil_prefix⟩, rfl⟩
      · rw [if_neg hci, if_neg, hr.row hashX id hid]
        intro hmem
        obtain ⟨x, i, hi, hci', he, -⟩ := (hm _).mp hmem
        exact hci ((rowKey_inj hid hi he).2 ▸ hci')
    · rw [Table.getElem?_write_deletes] at hkv
      split at hkv
      · cases hkv
      · exact hr.shape k v hkv
    · rw [dropRows] at hn
      split at hn
      · cases hn
      · exact hr.num_lt hashX id n hn
  set record : HistoryState :=
    ⟨c, some h.compFlushCount, some h.compCursor, some h.dbVersion, some h.upgradeCursor⟩
  refine ⟨(h.db.write (keys.map .delete)).write [.put History.stateKey (codec.repr record)],
    ?_, hdel.write_state _, ?_⟩
  · rw [History.clearExcess, if_neg (Nat.not_le_of_lt hc), ← Table.write_append]
    simp only [hk, bind, Except.bind, pure, Except.pure]
    rfl
  · rw [Table.getElem?_write_put, if_pos rfl]

/-- `clear_excess` drops the rows with flush ids above the one of the UTXO DB. -/
theorem HistoryRows.clearExcess (codec : StateCodec HistoryState) {h : History}
    {rows : HashX → Nat → List Nat} (hr : HistoryRows h.db rows) (hu : RowsUpTo rows h.flushCount)
    {c : Nat} (hc : c ≤ h.flushCount) (hv : h.dbVersion = History.latestVersion)
    {record : HistoryState} (hrec : h.db[History.stateKey]? = some (codec.repr record))
    (hcount : record.flushCount = h.flushCount)
    (hver : record.dbVersion = some History.latestVersion) :
    ∃ db, h.clearExcess codec c = .ok { h with db := db, flushCount := c } ∧
      HistoryRows db (dropRows rows c) ∧
      ∃ record', db[History.stateKey]? = some (codec.repr record') ∧
        record'.flushCount = c ∧ record'.dbVersion = some History.latestVersion := by
  by_cases hle : h.flushCount ≤ c
  · have heq : h.flushCount = c := by omega
    refine ⟨h.db, ?_, ?_, record, hrec, ?_, hver⟩
    · rw [History.clearExcess, if_pos hle, ← heq]
      rfl
    · rwa [dropRows_eq_self (heq ▸ hu)]
    · rw [hcount, heq]
  · obtain ⟨db, hdb, hrows, hrec'⟩ := hr.clearExcess_of_lt codec (Nat.lt_of_not_le hle)
    exact ⟨db, hdb, hrows, _, hrec', rfl, congrArg some hv⟩

/-- Tables with the same rows agree outside the state record. -/
theorem HistoryRows.ext {db db' : Table} {rows : HashX → Nat → List Nat}
    (h : HistoryRows db rows) (h' : HistoryRows db' rows) {k : Bytes}
    (hk : k ≠ History.stateKey) : db[k]? = db'[k]? := by
  by_cases hrow : ∃ hashX id, id < flushIds ∧ k = rowKey hashX id
  · obtain ⟨hashX, id, hid, rfl⟩ := hrow
    rw [h.row hashX id hid, h'.row hashX id hid]
  · have hn (t : Table) (ht : HistoryRows t rows) : t[k]? = none := by
      rw [Option.eq_none_iff_forall_ne_some]
      intro v hv
      rcases ht.shape k v hv with rfl | h
      · exact hk rfl
      · exact hrow h
    rw [hn db h, hn db' h']

end ElectrumX.Index
