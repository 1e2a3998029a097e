import ElectrumX.Index.Run
import ElectrumX.Server.Compaction
import Mathlib.Algebra.Order.BigOperators.Group.List

/-!
# Compaction keeps every history

A pass replaces the rows of the script hashes it goes over by full rows of the same numbers.
A run of the compaction tool, with its deaths and restarts, keeps the numbers of every script
hash as long as no restart finds rows above the flush count of the UTXO DB.
-/

namespace ElectrumX.Index
open ElectrumX.Base ElectrumX.Lib ElectrumX.Server

/-! ### Compacted rows -/

/-- The numbers of a script hash cut into rows of `size`, under the ids from 0. -/
def compactedRow (size : Nat) (rows : HashX → Nat → List Nat) (hashX : HashX) (id : Nat) :
    List Nat :=
  (chunks (numbers rows hashX) size)[id]?.getD []

/-- The rows of which those of some script hashes are compacted. -/
noncomputable def compactRows (size : Nat) (P : HashX → Prop) (rows : HashX → Nat → List Nat) :
    HashX → Nat → List Nat :=
  open Classical in fun hashX ↦ if P hashX then compactedRow size rows hashX else rows hashX

private theorem flatMap_range_getElem? {α : Type} (ls : List (List α)) {n : Nat}
    (h : ls.length ≤ n) : (List.range n).flatMap (fun i ↦ ls[i]?.getD []) = ls.flatten := by
  induction ls generalizing n with
  | nil => simp
  | cons l ls ih =>
    cases n with
    | zero => simp at h
    | succ n =>
      rw [List.range_succ_eq_map, List.flatMap_cons, List.flatMap_map, List.flatten_cons]
      congr 1
      exact ih (Nat.le_of_succ_le_succ h)

section Rows

variable {size : Nat} {rows : HashX → Nat → List Nat} {hashX : HashX}

theorem compactedRow_eq_nil {id : Nat} :
    compactedRow size rows hashX id = [] ↔ (chunks (numbers rows hashX) size).length ≤ id := by
  rw [compactedRow]
  constructor
  · intro h
    by_contra hlt
    rw [List.getElem?_eq_getElem (by omega), Option.getD_some] at h
    exact ne_nil_of_mem_chunks (List.getElem_mem _) h
  · intro h
    rw [List.getElem?_eq_none h, Option.getD_none]

/-- Histories that fit into all rows need no more than all flush ids. -/
theorem length_chunks_le (hs : 0 < size) (h : (numbers rows hashX).length ≤ flushIds * size) :
    (chunks (numbers rows hashX) size).length ≤ flushIds := by
  rw [length_chunks, ← Nat.lt_succ_iff, Nat.div_lt_iff_lt_mul hs, Nat.succ_mul]
  omega

theorem numbers_compactedRow (hs : 0 < size)
    (h : (numbers rows hashX).length ≤ flushIds * size) :
    numbers (compactedRow size rows) hashX = numbers rows hashX :=
  (flatMap_range_getElem? _ (length_chunks_le hs h)).trans (flatten_chunks hs _)

theorem numbers_congr {rows' : HashX → Nat → List Nat} (h : rows hashX = rows' hashX) :
    numbers rows hashX = numbers rows' hashX := by
  rw [numbers, numbers, h]

/-- Compaction keeps the numbers of every script hash. -/
theorem numbers_compactRows (hs : 0 < size) (P : HashX → Prop)
    (h : (numbers rows hashX).length ≤ flushIds * size) :
    numbers (compactRows size P rows) hashX = numbers rows hashX := by
  by_cases hp : P hashX
  · rw [← numbers_compactedRow hs h]
    exact numbers_congr (if_pos hp)
  · exact numbers_congr (if_neg hp)

theorem mem_of_mem_compactedRow {id n : Nat} (h : n ∈ compactedRow size rows hashX id) :
    n ∈ numbers rows hashX := by
  rw [compactedRow] at h
  cases hc : (chunks (numbers rows hashX) size)[id]? with
  | none => simp [hc] at h
  | some chunk =>
    rw [hc, Option.getD_some] at h
    obtain ⟨i, -, rfl⟩ := List.mem_map.mp (List.mem_of_getElem? hc)
    exact List.mem_of_mem_drop (List.mem_of_mem_take h)

end Rows

/-- Rows of numbers in range are stored differently. -/
theorem storedRow_inj {ms ns : List Nat} (hm : ∀ n ∈ ms, n < 2 ^ 40) (hn : ∀ n ∈ ns, n < 2 ^ 40)
    (h : storedRow ms = storedRow ns) : ms = ns := by
  have hinj : ∀ ls : List Nat, (∀ n ∈ ls, n < 2 ^ 40) →
      (chunks ((storedRow ls).getD []) txnumLen).map unpackLE = ls := by
    intro ls hl
    have hg : (storedRow ls).getD [] = ls.flatMap (packLE txnumLen) := by
      rw [storedRow]
      split
      · next he => rw [he]; rfl
      · rfl
    rw [hg, chunks_flatMap (by decide) _ _ fun n _ ↦ length_packLE txnumLen n, List.map_map]
    refine (List.map_congr_left fun n hmem ↦ ?_).trans (List.map_id ls)
    exact unpackLE_packLE_of_lt (by simpa [txnumLen] using hl n hmem)
  rw [← hinj ms hm, h, hinj ns hn]

/-! ### What a pass gathers -/

/-- What a pass has gathered once it has gone over some script hashes: the rows that compaction
changes, those to be put and those to be deleted. -/
structure Gathered (size : Nat) (rows : HashX → Nat → List Nat) (start : Int)
    (P : HashX → Prop) (c : Compaction) : Prop where
  write : ∀ k v, (k, v) ∈ c.writeItems ↔ ∃ hashX id, P hashX ∧ id < flushIds ∧
    k = rowKey hashX id ∧ compactedRow size rows hashX id ≠ rows hashX id ∧
      storedRow (compactedRow size rows hashX id) = some v
  delete : ∀ k, k ∈ c.keysToDelete ↔ ∃ hashX id, P hashX ∧ id < flushIds ∧
    k = rowKey hashX id ∧ compactedRow size rows hashX id ≠ rows hashX id ∧ rows hashX id ≠ []
  start_le : start ≤ c.compFlushCount
  id_le : ∀ hashX id, P hashX → compactedRow size rows hashX id ≠ [] → id ≤ c.compFlushCount

/-- The rows `ls` of a script hash, under the ids from `n`. -/
private def RowAt (hashX : HashX) (n : Nat) (ls : List Bytes) (k v : Bytes) : Prop :=
  ∃ i, ls[i]? = some v ∧ k = rowKey hashX (n + i)

private theorem rowAt_cons {hashX : HashX} {n : Nat} {l : Bytes} {ls : List Bytes} {k v : Bytes} :
    RowAt hashX n (l :: ls) k v ↔ (v = l ∧ k = rowKey hashX n) ∨ RowAt hashX (n + 1) ls k v := by
  constructor
  · rintro ⟨i, hi, hk⟩
    cases i with
    | zero => exact .inl ⟨(Option.some.inj hi).symm, hk⟩
    | succ i => exact .inr ⟨i, hi, by rw [hk, Nat.add_right_comm]; rfl⟩
  · rintro (⟨rfl, hk⟩ | ⟨i, hi, hk⟩)
    · exact ⟨0, rfl, hk⟩
    · exact ⟨i + 1, hi, by rw [hk, Nat.add_right_comm]; rfl⟩

/-- The new rows of a script hash that are not there yet are put; the others stay. -/
private theorem compactChunks_spec (hashX : HashX) (hist : List (Bytes × Bytes)) (n : Nat)
    (ls : List Bytes) (c : Compaction) (hn : n + ls.length ≤ flushIds) :
    ∃ c', History.compactChunks hashX.val hist n ls c = .ok c' ∧
      c'.compFlushCount = c.compFlushCount ∧
      (∀ k v, (k, v) ∈ c'.writeItems ↔ (k, v) ∈ c.writeItems ∨
        (RowAt hashX n ls k v ∧ hist.lookup k ≠ some v)) ∧
      ∀ k, k ∈ c'.keysToDelete ↔ k ∈ c.keysToDelete ∧
        ¬ ∃ v, RowAt hashX n ls k v ∧ hist.lookup k = some v := by
  induction ls generalizing n c with
  | nil => exact ⟨c, rfl, rfl, by simp [RowAt], by simp [RowAt]⟩
  | cons chunk ls ih =>
    rw [List.length_cons] at hn
    have hp : packBeUint16 n = .ok (packBE flushidLen n) := by
      apply packBeUint16_of_lt
      have : flushIds = 2 ^ 16 := by decide
      omega
    have hkey : hashX.val ++ packBE flushidLen n = rowKey hashX n := rfl
    rw [History.compactChunks, hp]
    simp only [bind, Except.bind, hkey, rowAt_cons]
    by_cases hl : hist.lookup (rowKey hashX n) = some chunk
    · rw [if_pos hl]
      obtain ⟨c', hc, hcount, hw, hd⟩ := ih (n + 1)
        { c with keysToDelete := c.keysToDelete.erase (rowKey hashX n) } (by omega)
      refine ⟨c', hc, hcount, fun k v ↦ ?_, fun k ↦ ?_⟩
      · rw [hw]
        grind
      · rw [hd, Std.ExtTreeSet.mem_erase, ne_eq, Std.LawfulEqCmp.compare_eq_iff_eq]
        grind
    · rw [if_neg hl]
      obtain ⟨c', hc, hcount, hw, hd⟩ := ih (n + 1)
        { c with
          writeItems := c.writeItems ++ [(rowKey hashX n, chunk)]
          writeSize := c.writeSize + chunk.length } (by omega)
      refine ⟨c', hc, hcount, fun k v ↦ ?_, fun k ↦ ?_⟩
      · rw [hw, List.mem_append, List.mem_singleton, Prod.mk.injEq]
        grind
      · rw [hd]
        grind

section CompactHashX

variable {size : Nat} {db : Table} {rows : HashX → Nat → List Nat} {hashX : HashX}

private theorem lookup_rowKey (hr : HistoryRows db rows) {id : Nat} (hid : id < flushIds)
    (v : Bytes) : (db.iterator hashX.val).lookup (rowKey hashX id) = some v ↔
      storedRow (rows hashX id) = some v := by
  rw [Table.lookup_iterator, hr.row hashX id hid, and_iff_left (prefix_rowKey.mpr rfl)]

private theorem flatMap_iterator (hr : HistoryRows db rows) :
    (db.iterator hashX.val).flatMap Prod.snd =
      (numbers rows hashX).flatMap (packLE txnumLen) := by
  rw [hr.iterator_eq, numbers, List.flatMap_assoc]
  induction List.range flushIds with
  | nil => rfl
  | cons id ids ih =>
    rw [List.flatMap_cons, ← ih, List.filterMap_cons, storedRow]
    by_cases hn : rows hashX id = []
    · simp [hn]
    · simp [hn]

private theorem chunks_history (hr : HistoryRows db rows) (hs : 0 < size) :
    chunks ((db.iterator hashX.val).flatMap Prod.snd) (size * txnumLen) =
      (chunks (numbers rows hashX) size).map (·.flatMap (packLE txnumLen)) := by
  rw [flatMap_iterator hr]
  exact chunks_flatMap_mul (by decide) hs _ _ fun n _ ↦ length_packLE txnumLen n

/-- The chunks of a history are its compacted rows. -/
private theorem rowAt_chunks (hr : HistoryRows db rows) (hs : 0 < size)
    (hl : (numbers rows hashX).length ≤ flushIds * size) (k v : Bytes) :
    RowAt hashX 0 (chunks ((db.iterator hashX.val).flatMap Prod.snd) (size * txnumLen)) k v ↔
      ∃ id, id < flushIds ∧ k = rowKey hashX id ∧
        storedRow (compactedRow size rows hashX id) = some v := by
  have hle := length_chunks_le hs hl
  rw [chunks_history hr hs, RowAt]
  refine exists_congr fun i ↦ ?_
  rw [List.getElem?_map, Nat.zero_add, storedRow_eq_some, compactedRow]
  cases hc : (chunks (numbers rows hashX) size)[i]? with
  | none => simp
  | some chunk =>
    have hi : i < flushIds := by
      have := (List.getElem?_eq_some_iff.mp hc).1
      omega
    have hne := ne_nil_of_mem_chunks (List.mem_of_getElem? hc)
    rw [Option.map_some, Option.some_inj, Option.getD_some]
    constructor
    · rintro ⟨hv, hk⟩
      exact ⟨hi, hk, hne, hv⟩
    · rintro ⟨-, hk, -, hv⟩
      exact ⟨hv, hk⟩

private theorem mem_insertKeys (hr : HistoryRows db rows) (keys : Std.ExtTreeSet Bytes)
    (k : Bytes) :
    k ∈ (db.iterator hashX.val).foldl (fun keys e ↦ keys.insert e.1) keys ↔
      k ∈ keys ∨ ∃ id, id < flushIds ∧ k = rowKey hashX id ∧ rows hashX id ≠ [] := by
  have hfold : ∀ (es : List (Bytes × Bytes)) (keys : Std.ExtTreeSet Bytes),
      k ∈ es.foldl (fun keys e ↦ keys.insert e.1) keys ↔ k ∈ keys ∨ ∃ v, (k, v) ∈ es := by
    intro es
    induction es with
    | nil => simp
    | cons e es ih =>
      intro keys
      rw [List.foldl_cons, ih, Std.ExtTreeSet.mem_insert, Std.LawfulEqCmp.compare_eq_iff_eq]
      grind
  rw [hfold]
  refine or_congr_right ⟨?_, ?_⟩
  · rintro ⟨v, hv⟩
    rw [hr.iterator_eq] at hv
    obtain ⟨id, hid, hv⟩ := List.mem_filterMap.mp hv
    obtain ⟨w, hw, he⟩ := Option.map_eq_some_iff.mp hv
    exact ⟨id, List.mem_range.mp hid, (Prod.mk.inj he).1.symm, (storedRow_eq_some.mp hw).1⟩
  · rintro ⟨id, hid, rfl, hne⟩
    refine ⟨(rows hashX id).flatMap (packLE txnumLen),
      Table.mem_iterator.mpr ⟨?_, prefix_rowKey.mpr rfl⟩⟩
    exact (hr.row hashX id hid).trans (if_neg hne)

/-- One script hash is gathered. -/
private theorem Gathered.compactHashX {start : Int} {P : HashX → Prop} {c : Compaction}
    (hg : Gathered size rows start P c) (hr : HistoryRows db rows) (hs : 0 < size)
    (hl : (numbers rows hashX).length ≤ flushIds * size) (hne : numbers rows hashX ≠ []) :
    ∃ c', History.compactHashX size hashX.val (db.iterator hashX.val) c = .ok c' ∧
      Gathered size rows start (fun x ↦ P x ∨ x = hashX) c' := by
  set ls := chunks ((db.iterator hashX.val).flatMap Prod.snd) (size * txnumLen) with hls
  have hlen : ls.length = (chunks (numbers rows hashX) size).length := by
    rw [hls, chunks_history hr hs, List.length_map]
  have hle := length_chunks_le hs hl
  have hls0 : ls ≠ [] := by
    intro h0
    rw [h0, List.length_nil, chunks_eq_cons hs hne, List.length_cons] at hlen
    omega
  have hpos := List.length_pos_iff.mpr hls0
  obtain ⟨c', hc, hcount, hw, hd⟩ := compactChunks_spec hashX (db.iterator hashX.val) 0 ls
    { c with
      keysToDelete := (db.iterator hashX.val).foldl (fun keys e ↦ keys.insert e.1)
        c.keysToDelete } (by omega)
  have hat := rowAt_chunks hr hs hl
  -- A row is where it will be exactly if compaction does not change it.
  have hsame {id : Nat} {v : Bytes} (hv : storedRow (compactedRow size rows hashX id) = some v) :
      storedRow (rows hashX id) = some v ↔ compactedRow size rows hashX id = rows hashX id := by
    constructor
    · intro h
      exact storedRow_inj (fun n hn ↦ hr.numbers_lt hashX n (mem_of_mem_compactedRow hn))
        (hr.num_lt hashX id) (hv.trans h.symm)
    · intro h
      rw [← h, hv]
  refine ⟨{ c' with compFlushCount := max c'.compFlushCount (ls.length - 1 : Nat) }, ?_, ?_⟩
  · have hn : ls.length - 1 + 1 =
        (((db.iterator hashX.val).flatMap Prod.snd).length + size * txnumLen - 1) /
          (size * txnumLen) := by
      rw [← length_chunks, ← hls]
      omega
    rw [History.compactHashX]
    simp only [← hls, hc, bind, Except.bind, if_neg hls0, ← hn]
    rfl
  · refine ⟨fun k v ↦ ?_, fun k ↦ ?_, ?_, fun x id hx hnil ↦ ?_⟩
    · rw [hw, hg.write, hat]
      constructor
      · rintro (⟨x, id, hx, hid, hk, hch, hv⟩ | ⟨⟨id, hid, rfl, hv⟩, hno⟩)
        · exact ⟨x, id, .inl hx, hid, hk, hch, hv⟩
        · rw [ne_eq, lookup_rowKey hr hid, hsame hv] at hno
          exact ⟨hashX, id, .inr rfl, hid, rfl, hno, hv⟩
      · rintro ⟨x, id, hx | rfl, hid, rfl, hch, hv⟩
        · exact .inl ⟨x, id, hx, hid, rfl, hch, hv⟩
        · refine .inr ⟨⟨id, hid, rfl, hv⟩, ?_⟩
          rwa [ne_eq, lookup_rowKey hr hid, hsame hv]
    · have hstay {id : Nat} (hid : id < flushIds) (hrow : rows hashX id ≠ []) :
          (∃ v, RowAt hashX 0 ls (rowKey hashX id) v ∧
            (db.iterator hashX.val).lookup (rowKey hashX id) = some v) ↔
              compactedRow size rows hashX id = rows hashX id := by
        constructor
        · rintro ⟨v, hv, hold⟩
          obtain ⟨id', hid', he, hv⟩ := (hat _ _).mp hv
          obtain ⟨-, rfl⟩ := rowKey_inj hid hid' he
          exact (hsame hv).mp ((lookup_rowKey hr hid v).mp hold)
        · intro h
          have hv : storedRow (rows hashX id) = some _ := storedRow_eq_some.mpr ⟨hrow, rfl⟩
          exact ⟨_, (hat _ _).mpr ⟨id, hid, rfl, (congrArg storedRow h).trans hv⟩,
            (lookup_rowKey hr hid _).mpr hv⟩
      rw [hd, mem_insertKeys hr, hg.delete]
      constructor
      · rintro ⟨⟨x, id, hx, hid, hk, hch, hrow⟩ | ⟨id, hid, rfl, hrow⟩, hno⟩
        · exact ⟨x, id, .inl hx, hid, hk, hch, hrow⟩
        · exact ⟨hashX, id, .inr rfl, hid, rfl, fun h ↦ hno ((hstay hid hrow).mpr h), hrow⟩
      · rintro ⟨x, id, hx, hid, rfl, hch, hrow⟩
        refine ⟨?_, fun hno ↦ ?_⟩
        · rcases hx with hx | rfl
          · exact .inl ⟨x, id, hx, hid, rfl, hch, hrow⟩
          · exact .inr ⟨id, hid, rfl, hrow⟩
        · obtain ⟨v, hv, hold⟩ := hno
          obtain ⟨id', hid', he, hv'⟩ := (hat _ _).mp hv
          obtain ⟨rfl, rfl⟩ := rowKey_inj hid hid' he
          exact hch ((hstay hid hrow).mp ⟨v, hv, hold⟩)
    · have := hg.start_le
      have : c.compFlushCount = c'.compFlushCount := hcount.symm
      dsimp only
      omega
    · dsimp only
      rcases hx with hx | rfl
      · have := hg.id_le x id hx hnil
        have : c.compFlushCount = c'.compFlushCount := hcount.symm
        omega
      · rw [ne_eq, compactedRow_eq_nil] at hnil
        omega

/-- A script hash without numbers needs no compaction. -/
private theorem Gathered.skip {start : Int} {P Q : HashX → Prop} {c : Compaction}
    (hg : Gathered size rows start P c) (hs : 0 < size) (hPQ : ∀ x, P x → Q x)
    (hQP : ∀ x, Q x → numbers rows x ≠ [] → P x) : Gathered size rows start Q c := by
  have hold {x : HashX} {id : Nat} (hid : id < flushIds) (hq : Q x) (hn : rows x id ≠ []) :
      P x :=
    hQP x hq fun h0 ↦ hn (List.flatMap_eq_nil_iff.mp h0 id (List.mem_range.mpr hid))
  have hnew {x : HashX} {id : Nat} (hq : Q x) (hn : compactedRow size rows x id ≠ []) : P x := by
    apply hQP x hq
    intro h0
    rw [ne_eq, compactedRow_eq_nil, h0, chunks_nil hs] at hn
    exact hn (Nat.zero_le _)
  refine ⟨fun k v ↦ (hg.write k v).trans ?_, fun k ↦ (hg.delete k).trans ?_, hg.start_le,
    fun x id hx hn ↦ hg.id_le x id (hnew hx hn) hn⟩
  · refine exists_congr fun x ↦ exists_congr fun id ↦ ⟨?_, ?_⟩
    · rintro ⟨hp, h⟩
      exact ⟨hPQ x hp, h⟩
    · rintro ⟨hq, hid, hk, hch, hv⟩
      exact ⟨hnew hq (storedRow_eq_some.mp hv).1, hid, hk, hch, hv⟩
  · refine exists_congr fun x ↦ exists_congr fun id ↦ ⟨?_, ?_⟩
    · rintro ⟨hp, h⟩
      exact ⟨hPQ x hp, h⟩
    · rintro ⟨hq, hid, hk, hch, hn⟩
      exact ⟨hold hid hq hn, hid, hk, hch, hn⟩

end CompactHashX

/-! ### Going over a prefix -/

/-- Keys that are no row keys by their length are passed over. -/
private theorem compactRows_filter (size : Nat) (es : List (Bytes × Bytes)) (prior : Bytes)
    (hist : List (Bytes × Bytes)) (c : Compaction) :
    History.compactRows size es prior hist c =
      History.compactRows size (es.filter fun e ↦ e.1.length = hashXLen + flushidLen)
        prior hist c := by
  induction es generalizing prior hist c with
  | nil => rfl
  | cons e es ih =>
    by_cases he : e.1.length = hashXLen + flushidLen
    · rw [List.filter_cons_of_pos (by simpa using he), History.compactRows,
        History.compactRows]
      simp only [ih]
    · rw [List.filter_cons_of_neg (by simpa using he), History.compactRows, if_pos he, ih]

private theorem length_rowKey (hashX : HashX) (id : Nat) :
    (rowKey hashX id).length = hashXLen + flushidLen := by
  rw [rowKey, List.length_append, hashX.property, length_packBE]

private theorem take_rowKey (hashX : HashX) (id : Nat) :
    (rowKey hashX id).take ((rowKey hashX id).length - flushidLen) = hashX.val := by
  rw [length_rowKey, Nat.add_sub_cancel, rowKey, List.take_left' hashX.property]

/-- The further rows of a script hash join those that were seen. -/
private theorem compactRows_append (size : Nat) (hashX : HashX) (es rest : List (Bytes × Bytes))
    (hes : ∀ e ∈ es, ∃ id, e.1 = rowKey hashX id) (hist : List (Bytes × Bytes))
    (c : Compaction) :
    History.compactRows size (es ++ rest) hashX.val hist c =
      History.compactRows size rest hashX.val (hist ++ es) c := by
  induction es generalizing hist with
  | nil => rw [List.nil_append, List.append_nil]
  | cons e es ih =>
    obtain ⟨id, he⟩ := hes e List.mem_cons_self
    rw [List.cons_append, History.compactRows, he, if_neg (by simp [length_rowKey]), take_rowKey,
      if_neg (by simp), ih (fun x hx ↦ hes x (List.mem_cons_of_mem _ hx)), List.append_assoc]
    rfl

section CompactPrefix

variable {size : Nat} {db : Table} {rows : HashX → Nat → List Nat} {start : Int}
  {P : HashX → Prop} {c : Compaction}

private theorem iterator_rowKey (hr : HistoryRows db rows) (hashX : HashX) :
    ∀ e ∈ db.iterator hashX.val, ∃ id, id < flushIds ∧ e.1 = rowKey hashX id := by
  intro e he
  rw [hr.iterator_eq] at he
  obtain ⟨id, hid, hv⟩ := List.mem_filterMap.mp he
  obtain ⟨w, -, rfl⟩ := Option.map_eq_some_iff.mp hv
  exact ⟨id, List.mem_range.mp hid, rfl⟩

private theorem iterator_eq_nil (hr : HistoryRows db rows) {hashX : HashX} :
    db.iterator hashX.val = [] ↔ numbers rows hashX = [] := by
  rw [hr.iterator_eq, numbers, List.filterMap_eq_nil_iff, List.flatMap_eq_nil_iff]
  refine forall₂_congr fun id _ ↦ ?_
  rw [Option.map_eq_none_iff, storedRow]
  split
  · next h => simp [h]
  · next h => simp [h]

/-- The first row of a script hash starts a new history; the others join it. -/
private theorem compactRows_group (hr : HistoryRows db rows) {x : HashX}
    (hx : db.iterator x.val ≠ []) {prior : Bytes} (hp : x.val ≠ prior)
    (hist rest : List (Bytes × Bytes)) (c : Compaction) :
    History.compactRows size (db.iterator x.val ++ rest) prior hist c =
      if prior = [] then History.compactRows size rest x.val (hist ++ db.iterator x.val) c
      else History.compactHashX size prior hist c >>=
        History.compactRows size rest x.val (db.iterator x.val) := by
  have hkey := iterator_rowKey hr x
  cases hes : db.iterator x.val with
  | nil => exact absurd hes hx
  | cons e es =>
    rw [hes] at hkey
    obtain ⟨id, -, he⟩ := hkey e List.mem_cons_self
    have hjoin := compactRows_append size x es rest fun e' he' ↦
      (hkey e' (List.mem_cons_of_mem _ he')).imp fun _ h ↦ h.2
    rw [List.cons_append, History.compactRows, he, if_neg (by simp [length_rowKey]), take_rowKey]
    by_cases h0 : prior = []
    · rw [if_pos h0, if_neg (fun h ↦ h.2 h0), hjoin, List.append_assoc]
      rfl
    · rw [if_neg h0, if_pos ⟨hp, h0⟩]
      simp only [hjoin]
      rfl

/-- Script hash after script hash is gathered, `y` being the one before. -/
private theorem Gathered.groups (hr : HistoryRows db rows) (hs : 0 < size)
    (hl : ∀ x, (numbers rows x).length ≤ flushIds * size) (xs : List HashX) (y : HashX)
    (hy : numbers rows y ≠ []) (hnd : (y :: xs).Nodup) (hg : Gathered size rows start P c) :
    ∃ c', History.compactRows size (xs.flatMap fun x ↦ db.iterator x.val) y.val
        (db.iterator y.val) c = .ok c' ∧
      Gathered size rows start (fun x ↦ P x ∨ x ∈ y :: xs) c' := by
  induction xs generalizing y P c with
  | nil =>
    obtain ⟨c', hc, hg'⟩ := hg.compactHashX hr hs (hl y) hy
    have hne : y.val ≠ [] := by
      intro h
      have hlen := y.property
      rw [h] at hlen
      cases hlen
    refine ⟨c', ?_, by simpa using hg'⟩
    rw [List.flatMap_nil, History.compactRows, if_neg hne, hc]
  | cons x xs ih =>
    rw [List.nodup_cons, List.mem_cons, not_or, List.nodup_cons] at hnd
    obtain ⟨⟨hyx, hyxs⟩, hx, hxs⟩ := hnd
    rw [List.flatMap_cons]
    by_cases h0 : numbers rows x = []
    · rw [(iterator_eq_nil hr).mpr h0, List.nil_append]
      obtain ⟨c', hc, hg'⟩ := ih y hy (List.nodup_cons.mpr ⟨hyxs, hxs⟩) hg
      refine ⟨c', hc, hg'.skip hs (fun z hz ↦ ?_) fun z hz hn ↦ ?_⟩
      · rw [List.mem_cons] at hz
        rcases hz with hz | rfl | hz
        · exact .inl hz
        · exact .inr List.mem_cons_self
        · exact .inr (List.mem_cons_of_mem _ (List.mem_cons_of_mem _ hz))
      · rw [List.mem_cons, List.mem_cons] at hz
        rw [List.mem_cons]
        rcases hz with hz | hz | rfl | hz
        · exact .inl hz
        · exact .inr (.inl hz)
        · exact absurd h0 hn
        · exact .inr (.inr hz)
    · have hne : y.val ≠ [] := by
        intro h
        have hlen := y.property
        rw [h] at hlen
        cases hlen
      obtain ⟨c₁, hc₁, hg₁⟩ := hg.compactHashX hr hs (hl y) hy
      obtain ⟨c', hc, hg'⟩ := ih x h0 (List.nodup_cons.mpr ⟨hx, hxs⟩) hg₁
      refine ⟨c', ?_, ?_⟩
      · rw [compactRows_group hr (mt (iterator_eq_nil hr).mp h0)
          (fun h ↦ hyx (Subtype.ext h).symm), if_neg hne, hc₁]
        exact hc
      · simpa only [List.mem_cons, or_assoc] using hg'

/-- All script hashes of a list are gathered. -/
private theorem Gathered.list (hr : HistoryRows db rows) (hs : 0 < size)
    (hl : ∀ x, (numbers rows x).length ≤ flushIds * size) (xs : List HashX) (hnd : xs.Nodup)
    (hg : Gathered size rows start P c) :
    ∃ c', History.compactRows size (xs.flatMap fun x ↦ db.iterator x.val) [] [] c = .ok c' ∧
      Gathered size rows start (fun x ↦ P x ∨ x ∈ xs) c' := by
  induction xs with
  | nil => exact ⟨c, rfl, by simpa using hg⟩
  | cons x xs ih =>
    rw [List.flatMap_cons]
    by_cases h0 : numbers rows x = []
    · obtain ⟨c', hc, hg'⟩ := ih (List.nodup_cons.mp hnd).2
      rw [(iterator_eq_nil hr).mpr h0, List.nil_append]
      refine ⟨c', hc, hg'.skip hs (fun z hz ↦ hz.imp_right (List.mem_cons_of_mem _))
        fun z hz hn ↦ hz.imp_right fun hz ↦ (List.mem_cons.mp hz).resolve_left ?_⟩
      rintro rfl
      exact hn h0
    · obtain ⟨c', hc, hg'⟩ := hg.groups hr hs hl xs x h0 hnd
      refine ⟨c', ?_, hg'⟩
      have hne : x.val ≠ [] := by
        intro h
        have hlen := x.property
        rw [h] at hlen
        cases hlen
      rw [compactRows_group hr (mt (iterator_eq_nil hr).mp h0) hne, if_pos rfl]
      exact hc

end CompactPrefix

/-- The first two bytes of a script hash as a number. -/
def prefixOf (hashX : HashX) : Nat := unpackBE (hashX.val.take 2)

theorem prefixOf_lt (hashX : HashX) : prefixOf hashX < 65536 := by
  have hlt := unpackBE_lt (hashX.val.take 2)
  rw [List.length_take, hashX.property] at hlt
  exact hlt

/-- The script hashes that begin with a two-byte number, in their order. -/
private def hashXsFrom (cursor : Nat) : List HashX :=
  (List.range (256 ^ 9)).map fun m ↦
    ⟨packBE 2 cursor ++ packBE 9 m, by rw [List.length_append, length_packBE, length_packBE]; rfl⟩

private theorem take_two (hashX : HashX) : hashX.val.take 2 = packBE 2 (prefixOf hashX) := by
  have hl : (hashX.val.take 2).length = 2 := by
    rw [List.length_take, hashX.property]
    rfl
  have h := packBE_unpackBE (hashX.val.take 2)
  rw [hl] at h
  exact h.symm

private theorem prefix_iff {cursor : Nat} (hc : cursor < 65536) {hashX : HashX} {id : Nat} :
    packBE 2 cursor <+: rowKey hashX id ↔ prefixOf hashX = cursor := by
  have hl : 2 ≤ hashX.val.length := by
    rw [hashX.property]
    decide
  rw [List.prefix_iff_eq_take, length_packBE, rowKey, List.take_append_of_le_length hl, take_two,
    packBE_inj hc (prefixOf_lt hashX), eq_comm]

private theorem mem_hashXsFrom {cursor : Nat} (hc : cursor < 65536) {hashX : HashX} :
    hashX ∈ hashXsFrom cursor ↔ prefixOf hashX = cursor := by
  have hl : (hashX.val.drop 2).length = 9 := by
    rw [List.length_drop, hashX.property]
    rfl
  rw [hashXsFrom, List.mem_map]
  constructor
  · rintro ⟨m, -, rfl⟩
    change unpackBE ((packBE 2 cursor ++ packBE 9 m).take 2) = cursor
    rw [List.take_left' (length_packBE 2 cursor), unpackBE_packBE_of_lt hc]
  · rintro rfl
    have hlt := unpackBE_lt (hashX.val.drop 2)
    have hrest := packBE_unpackBE (hashX.val.drop 2)
    rw [hl] at hlt hrest
    refine ⟨_, List.mem_range.mpr hlt, Subtype.ext ?_⟩
    change packBE 2 (prefixOf hashX) ++ packBE 9 _ = hashX.val
    rw [hrest, ← take_two, List.take_append_drop]

/-- Keys come in the order of their script hashes. -/
private theorem hashXsFrom_pairwise (cursor : Nat) :
    (hashXsFrom cursor).Pairwise fun x y ↦ ∀ id id', id < flushIds → id' < flushIds →
      compare (rowKey x id) (rowKey y id') = .lt := by
  rw [hashXsFrom, List.pairwise_map]
  apply List.pairwise_lt_range.imp_of_mem
  intro m m' hm hm' hlt id id' hid hid'
  rw [List.mem_range] at hm hm'
  have hrange {a b : Nat} (ha : a < 256 ^ 9) (hb : b < flushIds) :
      a * 256 ^ flushidLen + b < 256 ^ (9 + flushidLen) := by
    rw [pow_add]
    change b < 256 ^ flushidLen at hb
    nlinarith
  rw [rowKey, rowKey, List.append_assoc, List.append_assoc, compare_append_left,
    packBE_append _ _ _ _ hid, packBE_append _ _ _ _ hid',
    compare_packBE (hrange hm hid) (hrange hm' hid'), Nat.compare_eq_lt]
  change id < 256 ^ flushidLen at hid
  nlinarith

private theorem filter_iterator {db : Table} {rows : HashX → Nat → List Nat}
    (hr : HistoryRows db rows) {cursor : Nat} (hc : cursor < 65536) :
    (db.iterator (packBE 2 cursor)).filter (fun e ↦ e.1.length = hashXLen + flushidLen) =
      (hashXsFrom cursor).flatMap fun x ↦ db.iterator x.val := by
  apply Table.eq_of_ordered
  · exact (db.iterator_pairwise _).filter _
  · rw [List.pairwise_flatMap]
    refine ⟨fun x _ ↦ db.iterator_pairwise x.val, (hashXsFrom_pairwise cursor).imp ?_⟩
    intro x y hxy e he e' he'
    obtain ⟨id, hid, hk⟩ := iterator_rowKey hr x e he
    obtain ⟨id', hid', hk'⟩ := iterator_rowKey hr y e' he'
    rw [hk, hk']
    exact hxy id id' hid hid'
  · intro e
    rw [List.mem_filter, Table.mem_iterator, List.mem_flatMap, decide_eq_true_iff]
    constructor
    · rintro ⟨⟨hv, hp⟩, hlen⟩
      rcases hr.shape _ _ hv with hk | ⟨x, id, -, hk⟩
      · rw [hk] at hlen
        cases hlen
      · refine ⟨x, ?_, Table.mem_iterator.mpr ⟨hv, hk ▸ prefix_rowKey.mpr rfl⟩⟩
        rw [hk] at hp
        exact (mem_hashXsFrom hc).mpr ((prefix_iff hc).mp hp)
    · rintro ⟨x, hx, he⟩
      obtain ⟨id, -, hk⟩ := iterator_rowKey hr x e he
      refine ⟨⟨(Table.mem_iterator.mp he).1, ?_⟩, by rw [hk, length_rowKey]⟩
      rw [hk]
      exact (prefix_iff hc).mpr ((mem_hashXsFrom hc).mp hx)

/-- A prefix is gathered. -/
private theorem Gathered.compactPrefix {size : Nat} {db : Table} {rows : HashX → Nat → List Nat}
    {start : Int} {P : HashX → Prop} {c : Compaction} (hg : Gathered size rows start P c)
    (hr : HistoryRows db rows) (hs : 0 < size)
    (hl : ∀ x, (numbers rows x).length ≤ flushIds * size) {cursor : Nat} (hc : cursor < 65536) :
    ∃ c', History.compactPrefix size db (packBE 2 cursor) c = .ok c' ∧
      Gathered size rows start (fun x ↦ P x ∨ prefixOf x = cursor) c' := by
  have hnd : (hashXsFrom cursor).Nodup := by
    apply (hashXsFrom_pairwise cursor).imp
    rintro x y hxy rfl
    exact Table.compare_irrefl _ (hxy 0 0 (by decide) (by decide))
  obtain ⟨c', hc', hg'⟩ := hg.list hr hs hl (hashXsFrom cursor) hnd
  refine ⟨c', ?_, by simpa only [mem_hashXsFrom hc] using hg'⟩
  rw [History.compactPrefix, compactRows_filter, filter_iterator hr hc, hc']

/-! ### A pass -/

section Pass

variable {size : Nat} {db : Table} {rows : HashX → Nat → List Nat} {start : Int}
  {P : HashX → Prop} {c : Compaction}

private theorem compactRows_of {hashX : HashX} (h : P hashX) (id : Nat) :
    compactRows size P rows hashX id = compactedRow size rows hashX id :=
  congrFun (if_pos h) id

private theorem compactRows_of_not {hashX : HashX} (h : ¬ P hashX) (id : Nat) :
    compactRows size P rows hashX id = rows hashX id :=
  congrFun (if_neg h) id

/-- Where a row is put, and where none is put but one is deleted. -/
private theorem Gathered.at_row (hg : Gathered size rows start P c) (hashX : HashX) {id : Nat}
    (hid : id < flushIds) :
    (∀ v, (rowKey hashX id, v) ∈ c.writeItems ↔ P hashX ∧
      compactedRow size rows hashX id ≠ rows hashX id ∧
        storedRow (compactedRow size rows hashX id) = some v) ∧
    (rowKey hashX id ∈ c.keysToDelete ↔ P hashX ∧
      compactedRow size rows hashX id ≠ rows hashX id ∧ rows hashX id ≠ []) := by
  constructor
  · intro v
    rw [hg.write]
    constructor
    · rintro ⟨x, i, hx, hi, hk, h⟩
      obtain ⟨rfl, rfl⟩ := rowKey_inj hid hi hk
      exact ⟨hx, h⟩
    · rintro ⟨hx, h⟩
      exact ⟨hashX, id, hx, hid, rfl, h⟩
  · rw [hg.delete]
    constructor
    · rintro ⟨x, i, hx, hi, hk, h⟩
      obtain ⟨rfl, rfl⟩ := rowKey_inj hid hi hk
      exact ⟨hx, h⟩
    · rintro ⟨hx, h⟩
      exact ⟨hashX, id, hx, hid, rfl, h⟩

/-- The batch of a pass compacts the script hashes that were gathered. -/
private theorem Gathered.historyRows (hg : Gathered size rows start P c)
    (hr : HistoryRows db rows) (v : Bytes) :
    HistoryRows (db.write (c.keysToDelete.toList.map .delete ++
      c.writeItems.map (fun e ↦ .put e.1 e.2) ++ [.put History.stateKey v]))
      (compactRows size P rows) := by
  rw [Table.write_append, Table.write_append]
  apply HistoryRows.write_state
  have hdel (k : Bytes) : (db.write (c.keysToDelete.toList.map .delete))[k]? =
      if k ∈ c.keysToDelete then none else db[k]? := by
    rw [Table.getElem?_write_deletes]
    simp only [Std.ExtTreeSet.mem_toList]
  refine ⟨fun hashX id hid ↦ ?_, fun k w hk ↦ ?_, fun hashX id n hn ↦ ?_⟩
  · obtain ⟨hw, hd⟩ := hg.at_row hashX hid
    by_cases hp : P hashX
    · rw [compactRows_of hp]
      by_cases hch : compactedRow size rows hashX id = rows hashX id
      · rw [Table.getElem?_write_puts_of_notMem _ _ _ fun w h ↦ ((hw w).mp h).2.1 hch, hdel,
          if_neg fun h ↦ (hd.mp h).2.1 hch, hr.row hashX id hid, hch]
      · cases hs : storedRow (compactedRow size rows hashX id) with
        | some w =>
          apply Table.getElem?_write_puts_of_mem _ _ _ _ ((hw w).mpr ⟨hp, hch, hs⟩)
          intro w' hw'
          exact Option.some.inj ((((hw w').mp hw').2.2).symm.trans hs)
        | none =>
          have hnil : compactedRow size rows hashX id = [] := by
            by_contra hne
            rw [storedRow, if_neg hne] at hs
            cases hs
          rw [Table.getElem?_write_puts_of_notMem, hdel, if_pos]
          · exact hd.mpr ⟨hp, hch, fun h ↦ hch (hnil.trans h.symm)⟩
          · intro w h
            rw [((hw w).mp h).2.2] at hs
            cases hs
    · rw [compactRows_of_not hp, Table.getElem?_write_puts_of_notMem _ _ _ fun w h ↦
        hp ((hw w).mp h).1, hdel, if_neg fun h ↦ hp (hd.mp h).1, hr.row hashX id hid]
  · by_cases hm : ∃ w', (k, w') ∈ c.writeItems
    · obtain ⟨w', hw'⟩ := hm
      obtain ⟨hashX, id, -, hid, he, -⟩ := (hg.write k w').mp hw'
      exact .inr ⟨hashX, id, hid, he⟩
    · rw [Table.getElem?_write_puts_of_notMem _ _ _ fun w' h ↦ hm ⟨w', h⟩, hdel] at hk
      split at hk
      · cases hk
      · exact hr.shape k w hk
  · by_cases hp : P hashX
    · rw [compactRows_of hp] at hn
      exact hr.numbers_lt hashX n (mem_of_mem_compactedRow hn)
    · rw [compactRows_of_not hp] at hn
      exact hr.num_lt hashX id n hn

/-- The script hashes of some prefixes. -/
private def Between (first cursor : Nat) (hashX : HashX) : Prop :=
  first ≤ prefixOf hashX ∧ prefixOf hashX < cursor

/-- The loop gathers prefix after prefix and comes to an end. -/
private theorem Gathered.compactLoop (hr : HistoryRows db rows) (hs : 0 < size)
    (hl : ∀ x, (numbers rows x).length ≤ flushIds * size) (limit first : Nat) (left cursor : Nat)
    (hsum : left + cursor = 65536) (hle : first ≤ cursor)
    (hg : Gathered size rows start (Between first cursor) c) :
    ∃ cursor' c', History.compactLoop size db limit left cursor c = .ok (cursor', c') ∧
      cursor ≤ cursor' ∧ cursor' ≤ 65536 ∧ (c.writeSize < limit → 0 < left → cursor < cursor') ∧
      Gathered size rows start (Between first cursor') c' := by
  induction left generalizing cursor c with
  | zero => exact ⟨cursor, c, rfl, le_rfl, by omega, by omega, hg⟩
  | succ left ih =>
    rw [History.compactLoop]
    by_cases hlim : c.writeSize < limit
    · obtain ⟨c₁, hc₁, hg₁⟩ := hg.compactPrefix hr hs hl (show cursor < 65536 by omega)
      have hP : (fun x ↦ Between first cursor x ∨ prefixOf x = cursor) =
          Between first (cursor + 1) := by
        funext x
        rw [Between, Between, eq_iff_iff]
        omega
      rw [hP] at hg₁
      obtain ⟨cursor', c', hloop, h1, h2, -, hg'⟩ := ih (cursor + 1) (by omega) (by omega) hg₁
      refine ⟨cursor', c', ?_, by omega, h2, fun _ _ ↦ by omega, hg'⟩
      rw [if_pos hlim, hc₁]
      exact hloop
    · exact ⟨cursor, c, if_neg hlim, le_rfl, by omega, fun h ↦ absurd h hlim, hg⟩

end Pass

/-! ### The state between the passes -/

/-- What `read_state` finds in the history DB. -/
def StateRead (codec : StateCodec HistoryState) (db : Table) (flushCount : Nat)
    (compFlushCount compCursor : Int) : Prop :=
  ∃ upgradeCursor, ({ db := db } : History).readState codec =
    .ok { db := db, flushCount := flushCount, compFlushCount := compFlushCount,
          compCursor := compCursor, upgradeCursor := upgradeCursor }

/-- A record of the current version is read back. -/
theorem stateRead_of_record {codec : StateCodec HistoryState} {db : Table} {record : HistoryState}
    (hs : db[History.stateKey]? = some (codec.repr record))
    (hv : record.dbVersion = some History.latestVersion) :
    StateRead codec db record.flushCount (record.compFlushCount.getD (-1))
      (record.compCursor.getD (-1)) := by
  obtain ⟨b, bs, hc⟩ := List.exists_cons_of_ne_nil (codec.repr_ne_nil record)
  have he := codec.literalEval_repr record
  rw [hc] at hs he
  refine ⟨record.upgradeCursor.getD (-1), ?_⟩
  rw [History.readState, History.loadState]
  simp [hs, he, hv, History.latestVersion, bind, Except.bind, pure, Except.pure]

/-- A batch that ends with the state record is read back. -/
theorem stateRead_write (codec : StateCodec HistoryState) (db : Table) (ops : List BatchOp)
    {h : History} (hv : h.dbVersion = History.latestVersion) :
    StateRead codec (db.write (ops ++ [h.writeState codec])) h.flushCount h.compFlushCount
      h.compCursor := by
  have hs : (db.write (ops ++ [h.writeState codec]))[History.stateKey]? =
      some (codec.repr ⟨h.flushCount, some h.compFlushCount, some h.compCursor,
        some h.dbVersion, some h.upgradeCursor⟩) := by
    rw [Table.write_append, History.writeState, Table.getElem?_write_put, if_pos rfl]
  exact stateRead_of_record hs (congrArg some hv)

theorem StateRead.flushCount_eq {codec : StateCodec HistoryState} {db : Table}
    {flushCount flushCount' : Nat} {count count' cursor cursor' : Int}
    (h : StateRead codec db flushCount count cursor)
    (h' : StateRead codec db flushCount' count' cursor') : flushCount = flushCount' := by
  obtain ⟨upgradeCursor, hs⟩ := h
  obtain ⟨upgradeCursor', hs'⟩ := h'
  exact congrArg History.flushCount (Except.ok.inj (hs.symm.trans hs'))

/-- The script hashes below a prefix are compacted, under ids up to `compFlushCount`. -/
def Compacted (size : Nat) (rows : HashX → Nat → List Nat) (cursor : Nat)
    (compFlushCount : Int) : Prop :=
  ∀ hashX, prefixOf hashX < cursor → ∀ id, rows hashX id = compactedRow size rows hashX id ∧
    (rows hashX id ≠ [] → id ≤ compFlushCount)

/-- A history DB that the tool can go on with: it has the numbers `nums`, and an unfinished
compaction has compacted the prefixes below its cursor. -/
def Resumable (codec : StateCodec HistoryState) (size : Nat) (nums : HashX → List Nat)
    (utxoFlushCount : Nat) (db : Table) : Prop :=
  ∃ rows flushCount compFlushCount compCursor, HistoryRows db rows ∧
    (∀ hashX, numbers rows hashX = nums hashX) ∧
    StateRead codec db flushCount compFlushCount compCursor ∧
    (compCursor = -1 ∨ (0 ≤ compCursor ∧ compCursor < 65536 ∧ flushCount ≤ utxoFlushCount ∧
      Compacted size rows compCursor.toNat compFlushCount))

/-- The tool between two passes. -/
structure MidCompaction (size : Nat) (nums : HashX → List Nat) (utxoFlushCount : Nat)
    (h : History) (rows : HashX → Nat → List Nat) : Prop where
  table : HistoryRows h.db rows
  numbers_eq : ∀ hashX, numbers rows hashX = nums hashX
  version : h.dbVersion = History.latestVersion
  cursor_nonneg : 0 ≤ h.compCursor
  cursor_lt : h.compCursor < 65536
  count_nonneg : 0 ≤ h.compFlushCount
  count_le : h.flushCount ≤ utxoFlushCount
  compacted : Compacted size rows h.compCursor.toNat h.compFlushCount

/-- The tool after the last pass. -/
structure Completed (codec : StateCodec HistoryState) (size : Nat) (nums : HashX → List Nat)
    (h : History) (rows : HashX → Nat → List Nat) : Prop where
  table : HistoryRows h.db rows
  numbers_eq : ∀ hashX, numbers rows hashX = nums hashX
  cursor : h.compCursor = -1
  count : h.compFlushCount = -1
  record : StateRead codec h.db h.flushCount (-1) (-1)
  compacted : Compacted size rows 65536 h.flushCount

section Steps

variable {codec : StateCodec HistoryState} {size : Nat} {nums : HashX → List Nat}
  {utxoFlushCount : Nat} {h : History} {rows : HashX → Nat → List Nat}

theorem Compacted.mono {cursor : Nat} {count count' : Int} (h : Compacted size rows cursor count)
    (hle : count ≤ count') : Compacted size rows cursor count' :=
  fun x hx id ↦ (h x hx id).imp_right fun hid hne ↦ (hid hne).trans hle

/-- What is gathered continues the compacted prefixes. -/
private theorem Compacted.gathered {first cursor : Nat} {count : Int} {c : Compaction}
    (h : Compacted size rows first count) (hs : 0 < size)
    (hl : ∀ x, (numbers rows x).length ≤ flushIds * size)
    (hg : Gathered size rows count (Between first cursor) c) :
    Compacted size (compactRows size (Between first cursor) rows) cursor c.compFlushCount := by
  intro x hx id
  have hsame : compactedRow size (compactRows size (Between first cursor) rows) x id =
      compactedRow size rows x id := by
    rw [compactedRow, numbers_compactRows hs _ (hl x), compactedRow]
  rw [hsame]
  by_cases hfirst : first ≤ prefixOf x
  · rw [compactRows_of ⟨hfirst, hx⟩]
    exact ⟨rfl, hg.id_le x id ⟨hfirst, hx⟩⟩
  · rw [compactRows_of_not fun hb ↦ hfirst hb.1]
    obtain ⟨hrow, hid⟩ := h x (by omega) id
    exact ⟨hrow, fun hne ↦ (hid hne).trans hg.start_le⟩

private theorem Gathered.nil (start : Int) (first : Nat) :
    Gathered size rows start (Between first first) { compFlushCount := start } where
  write k v := by
    simp only [List.not_mem_nil, false_iff]
    rintro ⟨x, id, hx, -⟩
    exact absurd (hx.1.trans_lt hx.2) (lt_irrefl _)
  delete k := by
    simp only [Std.ExtTreeSet.not_mem_empty, false_iff]
    rintro ⟨x, id, hx, -⟩
    exact absurd (hx.1.trans_lt hx.2) (lt_irrefl _)
  start_le := le_rfl
  id_le x id hx := absurd (hx.1.trans_lt hx.2) (lt_irrefl _)

/-- A pass succeeds: it comes further or completes the compaction. -/
theorem MidCompaction.pass (hm : MidCompaction size nums utxoFlushCount h rows)
    (codec : StateCodec HistoryState) (hs : 0 < size)
    (hl : ∀ x, (nums x).length ≤ flushIds * size) {limit : Nat} (hlim : 0 < limit) :
    ∃ h' rows', h.compactHistory size codec limit = .ok h' ∧
      ((MidCompaction size nums utxoFlushCount h' rows' ∧ h.compCursor < h'.compCursor ∧
          StateRead codec h'.db h'.flushCount h'.compFlushCount h'.compCursor) ∨
        Completed codec size nums h' rows') := by
  obtain ⟨first, hfirst⟩ := Int.eq_ofNat_of_zero_le hm.cursor_nonneg
  have hlt : first < 65536 := by
    have := hm.cursor_lt
    omega
  have hl' (x : HashX) : (numbers rows x).length ≤ flushIds * size := by
    rw [hm.numbers_eq]
    exact hl x
  obtain ⟨cursor, c, hloop, -, hle, hmore, hg⟩ := (Gathered.nil h.compFlushCount first).compactLoop
    hm.table hs hl' limit first (65536 - first) first (by omega) le_rfl
  have hmore := hmore hlim (by omega)
  have hcount : 0 ≤ c.compFlushCount := hm.count_nonneg.trans hg.start_le
  have hcomp := hm.compacted
  rw [hfirst, Int.toNat_natCast] at hcomp
  have hcomp := hcomp.gathered hs hl' hg
  have hnums (x : HashX) :
      numbers (compactRows size (Between first cursor) rows) x = nums x := by
    rw [numbers_compactRows hs _ (hl' x), hm.numbers_eq]
  refine ⟨h.flushCompaction codec cursor c, compactRows size (Between first cursor) rows, ?_, ?_⟩
  · rw [History.compactHistory]
    simp only [hfirst, Int.toNat_natCast, hloop, bind, Except.bind, pure, Except.pure]
  · rw [History.flushCompaction]
    by_cases hend : cursor = 65536
    · subst hend
      rw [if_pos rfl]
      refine .inr ⟨hg.historyRows hm.table _, hnums, rfl, rfl,
        stateRead_write codec h.db _ hm.version, ?_⟩
      dsimp only
      rwa [Int.toNat_of_nonneg hcount]
    · rw [if_neg hend]
      refine .inl ⟨⟨hg.historyRows hm.table _, hnums, hm.version, ?_, ?_, hcount, hm.count_le, ?_⟩,
        ?_, stateRead_write codec h.db _ hm.version⟩
      · exact Int.natCast_nonneg cursor
      · dsimp only
        omega
      · exact hcomp
      · dsimp only
        omega

/-- Without rows above a flush count there are none to drop. -/
theorem HistoryRows.dropRows_of_none {table : Table} {count : Nat} (ht : HistoryRows table rows)
    (hnone : ∀ (hashX : HashX) id, id < flushIds → count < id →
      table[rowKey hashX id]? = none) :
    HistoryRows table (dropRows rows count) ∧
      ∀ hashX, numbers (dropRows rows count) hashX = numbers rows hashX := by
  have hsame (hashX : HashX) {id : Nat} (hid : id < flushIds) :
      dropRows rows count hashX id = rows hashX id := by
    rw [dropRows]
    split
    · next hlt =>
      by_contra hne
      have hrow := ht.row hashX id hid
      rw [hnone hashX id hid hlt, storedRow, if_neg (Ne.symm hne)] at hrow
      cases hrow
    · rfl
  refine ⟨⟨fun hashX id hid ↦ ?_, ht.shape, fun hashX id n hn ↦ ?_⟩, fun hashX ↦ ?_⟩
  · rw [hsame hashX hid, ht.row hashX id hid]
  · rw [dropRows] at hn
    split at hn
    · cases hn
    · exact ht.num_lt hashX id n hn
  · exact List.flatMap_congr fun id hid ↦ hsame hashX (List.mem_range.mp hid)

/-- The history DB is not ahead of the UTXO DB, or has no row above its flush count. -/
def NoExcess (codec : StateCodec HistoryState) (s : Compactor) : Prop :=
  ∀ flushCount compFlushCount compCursor,
    StateRead codec s.db flushCount compFlushCount compCursor → flushCount ≤ s.utxoFlushCount ∨
      ∀ (hashX : HashX) id, id < flushIds → s.utxoFlushCount < id →
        s.db[rowKey hashX id]? = none

/-- The tool goes on with a history DB that has no excess rows. -/
private theorem Resumable.start {s : Compactor}
    (hr : Resumable codec size nums s.utxoFlushCount s.db) (hne : NoExcess codec s) :
    ∃ h rows, ({ db := ∅ } : History).openDb codec s.db s.utxoFlushCount true = .ok h ∧
      MidCompaction size nums s.utxoFlushCount h.beginCompaction rows ∧
        Resumable codec size nums s.utxoFlushCount h.db := by
  obtain ⟨rows, flushCount, compFlushCount, compCursor, ht, hnums, hread, hcur⟩ := hr
  obtain ⟨upgradeCursor, hstate⟩ := hread
  set h : History := {
    db := s.db
    flushCount := flushCount
    compFlushCount := compFlushCount
    compCursor := compCursor
    upgradeCursor := upgradeCursor } with hh
  have hpos : (0 : Int) ≤ max compFlushCount 1 := by omega
  by_cases hle : flushCount ≤ s.utxoFlushCount
  · refine ⟨h, rows, ?_, ?_, rows, flushCount, compFlushCount, compCursor, ht, hnums,
      ⟨upgradeCursor, hstate⟩, hcur⟩
    · have hclear : h.clearExcess codec s.utxoFlushCount = .ok h := if_pos hle
      rw [History.openDb, hstate]
      simp only [bind, Except.bind, hclear, pure, Except.pure, if_true]
    · by_cases hidle : compCursor = -1
      · refine ⟨ht, hnums, rfl, ?_, ?_, hpos, hle, ?_⟩
        all_goals simp only [History.beginCompaction, hh, if_pos hidle]
        · exact le_rfl
        · decide
        · intro x hx
          cases hx
      · obtain ⟨h0, hlt, -, hcomp⟩ := hcur.resolve_left hidle
        refine ⟨ht, hnums, rfl, ?_, ?_, hpos, hle, ?_⟩
        all_goals simp only [History.beginCompaction, hh, if_neg hidle]
        · exact h0
        · exact hlt
        · exact hcomp.mono (le_max_left _ _)
  · have hidle : compCursor = -1 := by
      by_contra hidle
      exact hle (hcur.resolve_left hidle).2.2.1
    have hnone := (hne _ _ _ ⟨upgradeCursor, hstate⟩).resolve_left hle
    obtain ⟨db, hclear, hrows, hrec⟩ := ht.clearExcess_of_lt codec (h := h) (Nat.lt_of_not_le hle)
    have hnums' (x : HashX) : numbers (dropRows rows s.utxoFlushCount) x = nums x := by
      rw [(ht.dropRows_of_none hnone).2, hnums]
    have hread' := stateRead_of_record hrec rfl
    refine ⟨{ h with db := db, flushCount := s.utxoFlushCount },
      dropRows rows s.utxoFlushCount, ?_, ?_, _, _, _, _, hrows, hnums', hread', .inl hidle⟩
    · rw [History.openDb, hstate]
      simp only [bind, Except.bind, hclear, pure, Except.pure, if_true]
    · refine ⟨hrows, hnums', rfl, ?_, ?_, hpos, le_rfl, ?_⟩
      all_goals simp only [History.beginCompaction, hh, if_pos hidle]
      · exact le_rfl
      · decide
      · intro x hx
        cases hx

end Steps

/-! ### Runs of the tool -/

/-- Every script hash has rows numbered from 0, all but the last one with `size` numbers, and no
row has an id above the flush count. -/
structure FullRows (size : Nat) (db : Table) (flushCount : Nat) : Prop where
  numbered : ∀ hashX : HashX, ∃ n, ∀ id, id < flushIds →
    ((db[rowKey hashX id]?).isSome ↔ id < n) ∧
      ∀ v, db[rowKey hashX id]? = some v → id + 1 < n → v.length = size * txnumLen
  id_le : ∀ (hashX : HashX) id, id < flushIds → (db[rowKey hashX id]?).isSome → id ≤ flushCount

/-- What the steps of the tool preserve. -/
structure CompactorKept (codec : StateCodec HistoryState) (size : Nat)
    (nums : HashX → List Nat) (s : Compactor) : Prop where
  resumable : Resumable codec size nums s.utxoFlushCount s.db
  process : ∀ h, s.process = some h → h.db = s.db ∧ ∃ rows,
    MidCompaction size nums s.utxoFlushCount h rows ∨ Completed codec size nums h rows

section Runs

variable {codec : StateCodec HistoryState} {size : Nat} {nums : HashX → List Nat}
  {s s' : Compactor}

/-- A completed compaction leaves full rows. -/
theorem Completed.fullRows {h : History} {rows : HashX → Nat → List Nat}
    (hc : Completed codec size nums h rows) : FullRows size h.db h.flushCount := by
  have hrow (x : HashX) (id : Nat) := hc.compacted x (prefixOf_lt x) id
  have hsome {x : HashX} {id : Nat} (hid : id < flushIds) :
      (h.db[rowKey x id]?).isSome ↔ rows x id ≠ [] := by
    rw [hc.table.row x id hid, storedRow]
    split
    · next h => simp [h]
    · next h => simp [h]
  refine ⟨fun x ↦ ⟨(chunks (numbers rows x) size).length, fun id hid ↦ ⟨?_, fun v hv hlt ↦ ?_⟩⟩,
    fun x id hid hs ↦ ?_⟩
  · rw [hsome hid, (hrow x id).1, ne_eq, compactedRow_eq_nil, Nat.not_le]
  · rw [hc.table.row x id hid, (hrow x id).1] at hv
    obtain ⟨-, rfl⟩ := storedRow_eq_some.mp hv
    have hget := List.getElem?_eq_getElem (Nat.lt_of_succ_lt hlt)
    rw [compactedRow, hget, Option.getD_some, length_flatMap_of_width _ _ fun n _ ↦
      length_packLE txnumLen n, length_of_getElem?_chunks hget hlt, Nat.mul_comm]
  · exact Int.ofNat_le.mp ((hrow x id).2 ((hsome hid).mp hs))

theorem Completed.resumable {h : History} {rows : HashX → Nat → List Nat}
    (hc : Completed codec size nums h rows) (utxoFlushCount : Nat) :
    Resumable codec size nums utxoFlushCount h.db :=
  ⟨rows, _, _, _, hc.table, hc.numbers_eq, hc.record, .inl rfl⟩

theorem MidCompaction.resumable {h : History} {rows : HashX → Nat → List Nat}
    {utxoFlushCount : Nat} (hm : MidCompaction size nums utxoFlushCount h rows)
    (hrec : StateRead codec h.db h.flushCount h.compFlushCount h.compCursor) :
    Resumable codec size nums utxoFlushCount h.db :=
  ⟨rows, _, _, _, hm.table, hm.numbers_eq, hrec,
    .inr ⟨hm.cursor_nonneg, hm.cursor_lt, hm.count_le, hm.compacted⟩⟩

private theorem step_start (size : Nat) {h : History} (hp : s.process = none)
    (hopen : ({ db := ∅ } : History).openDb codec s.db s.utxoFlushCount true = .ok h) :
    s.step size codec .start =
      some { s with db := h.db, process := some h.beginCompaction } := by
  rw [Compactor.step, hp]
  simp only [hopen]

/-- Every step of the tool keeps the histories, if no start finds excess rows. -/
theorem CompactorKept.step (hk : CompactorKept codec size nums s) (hs : 0 < size)
    (hl : ∀ x, (nums x).length ≤ flushIds * size) {e : CompactEvent}
    (hne : e = .start → NoExcess codec s) (h : s.step size codec e = some s') :
    CompactorKept codec size nums s' := by
  cases e with
  | start =>
    cases hp : s.process with
    | some h' =>
      rw [Compactor.step, hp] at h
      cases h
    | none =>
      obtain ⟨h', rows, hopen, hm, hr⟩ := hk.resumable.start (hne rfl)
      rw [step_start size hp hopen] at h
      cases h
      refine ⟨hr, fun h'' hp' ↦ ?_⟩
      cases hp'
      exact ⟨rfl, rows, .inl hm⟩
  | pass limit =>
    obtain ⟨h₁, hp, h⟩ := Option.bind_eq_some_iff.mp h
    obtain ⟨-, rows, hm⟩ := hk.process h₁ hp
    split at h
    · cases h
    · next hcond =>
      rw [not_or] at hcond
      have hm := hm.resolve_right fun hc ↦ hcond.1 hc.cursor
      obtain ⟨h₂, rows', hpass, hnext⟩ :=
        hm.pass codec hs hl (Nat.pos_of_ne_zero hcond.2)
      simp only [hpass] at h
      cases h
      refine ⟨?_, fun h' hp' ↦ ?_⟩
      · rcases hnext with ⟨hm', -, hrec⟩ | hc
        · exact hm'.resumable hrec
        · exact hc.resumable _
      · cases hp'
        exact ⟨rfl, rows', hnext.imp_left fun hm' ↦ hm'.1⟩
  | setFlushCount =>
    obtain ⟨h₁, hp, h⟩ := Option.bind_eq_some_iff.mp h
    obtain ⟨hdb, rows, hm⟩ := hk.process h₁ hp
    split at h
    · next hcur =>
      cases h
      have hc := hm.resolve_left fun hm ↦ by
        have := hm.cursor_nonneg
        omega
      refine ⟨?_, fun h' hp' ↦ by cases hp'⟩
      have hr := hc.resumable h₁.flushCount
      rwa [hdb] at hr
    · cases h
  | kill =>
    cases h
    exact ⟨hk.resumable, fun h hp ↦ by cases hp⟩

/-- Whatever the order of the passes, deaths and restarts of the compaction tool, as long as no
start finds excess rows every history stays the same, every pass comes further, and a completed
compaction leaves full rows. -/
theorem compaction_keeps_histories {rows : HashX → Nat → List Nat} {count cursor : Int}
    (hs : 0 < size) (hr : HistoryRows s.db rows)
    (hl : ∀ hashX, (numbers rows hashX).length ≤ flushIds * size)
    (hstate : StateRead codec s.db s.utxoFlushCount count cursor)
    (hcursor : cursor = -1 ∨
      (0 ≤ cursor ∧ cursor < 65536 ∧ Compacted size rows cursor.toNat count))
    (hidle : s.process = none)
    (hrun : Reach (Compactor.step size codec) (fun t e ↦ e = .start → NoExcess codec t) s s') :
    (∀ hashX : HashX, ({ db := s'.db } : History).getTxnums hashX.val none =
      ({ db := s.db } : History).getTxnums hashX.val none) ∧
    (∀ h, s'.process = some h → h.compCursor ≠ -1 → ∀ limit, 0 < limit →
      ∃ h', h.compactHistory size codec limit = .ok h' ∧
        (h'.compCursor = -1 ∨ h.compCursor < h'.compCursor)) ∧
    (∀ h, s'.process = some h → h.compCursor = -1 → h.compFlushCount = -1 ∧
      StateRead codec s'.db h.flushCount (-1) (-1) ∧ FullRows size s'.db h.flushCount) := by
  have h0 : CompactorKept codec size (numbers rows) s := by
    refine ⟨⟨rows, _, _, _, hr, fun _ ↦ rfl, hstate, hcursor.imp_right ?_⟩, fun h hp ↦ ?_⟩
    · rintro ⟨h0, hlt, hc⟩
      exact ⟨h0, hlt, le_rfl, hc⟩
    · rw [hidle] at hp
      cases hp
  obtain ⟨⟨rows', _, _, _, hr', hnums, -⟩, hproc⟩ :=
    hrun.invariant h0 fun t t' e hk hg ht ↦ hk.step hs hl hg ht
  refine ⟨fun hashX ↦ ?_, fun h hp hcur limit hlim ↦ ?_, fun h hp hcur ↦ ?_⟩
  · rw [HistoryRows.getTxnums_none (h := { db := s'.db }) hr',
      HistoryRows.getTxnums_none (h := { db := s.db }) hr, hnums]
  · obtain ⟨-, rows'', hm⟩ := hproc h hp
    have hm := hm.resolve_right fun hc ↦ hcur hc.cursor
    obtain ⟨h', rows₂, hpass, hnext⟩ := hm.pass codec hs hl hlim
    exact ⟨h', hpass, hnext.symm.imp Completed.cursor fun hm' ↦ hm'.2.1⟩
  · obtain ⟨hdb, rows'', hm⟩ := hproc h hp
    have hc := hm.resolve_left fun hm ↦ by
      have := hm.cursor_nonneg
      omega
    rw [← hdb]
    exact ⟨hc.count, hc.record, hc.fullRows⟩

/-- Pass after pass, the tool completes the compaction. -/
theorem exists_completed (codec : StateCodec HistoryState)
    (guard : Compactor → CompactEvent → Prop) {limit : Nat} (hs : 0 < size)
    (hl : ∀ x, (nums x).length ≤ flushIds * size) (hlim : 0 < limit)
    (hg : ∀ t, guard t (.pass limit)) {h : History} {rows : HashX → Nat → List Nat}
    (hp : s.process = some h) (hm : MidCompaction size nums s.utxoFlushCount h rows) :
    ∃ h' rows', Completed codec size nums h' rows' ∧ Reach (Compactor.step size codec) guard s
      { s with db := h'.db, process := some h' } := by
  -- By induction on the prefixes that are left.
  induction hn : (65536 - h.compCursor).toNat using Nat.strong_induction_on
    generalizing s h rows with
  | _ n ih =>
    obtain ⟨h', rows', hpass, hnext⟩ := hm.pass codec hs hl hlim
    have hne : ¬ (h.compCursor = -1 ∨ limit = 0) := by
      have := hm.cursor_nonneg
      omega
    have hstep : s.step size codec (.pass limit) =
        some { s with db := h'.db, process := some h' } := by
      rw [Compactor.step, hp]
      simp only [bind, Option.bind, if_neg hne, hpass]
    have hreach := Reach.refl.step (hg s) hstep
    rcases hnext with ⟨hm', hlt, -⟩ | hc
    · have hdec : (65536 - h'.compCursor).toNat < n := by
        have := hm'.cursor_lt
        omega
      obtain ⟨h₂, rows₂, hc, hrest⟩ :=
        ih _ hdec (s := { s with db := h'.db, process := some h' }) rfl hm' rfl
      exact ⟨h₂, rows₂, hc, hreach.trans hrest⟩
    · exact ⟨h', rows', hc, hreach⟩

/-- A start that finds excess rows deletes them. -/
theorem Resumable.start_of_excess (hr : Resumable codec size nums s.utxoFlushCount s.db)
    (hp : s.process = none) (hne : ¬ NoExcess codec s) :
    ∃ s', s.step size codec .start = some s' ∧ ∃ hashX : HashX,
      ({ db := s'.db } : History).getTxnums hashX.val none ≠
        ({ db := s.db } : History).getTxnums hashX.val none := by
  obtain ⟨rows, -, -, -, ht, -, -, -⟩ := hr
  simp only [NoExcess, not_forall, not_or] at hne
  obtain ⟨flushCount, compFlushCount, compCursor, ⟨upgradeCursor, hstate⟩, hlt, x, id, hid, hid',
    hrow⟩ := hne
  set h : History := {
    db := s.db
    flushCount := flushCount
    compFlushCount := compFlushCount
    compCursor := compCursor
    upgradeCursor := upgradeCursor }
  obtain ⟨db, hclear, hrows, -⟩ :=
    HistoryRows.clearExcess_of_lt codec (h := h) ht (Nat.lt_of_not_le hlt)
  set opened : History := { h with db := db, flushCount := s.utxoFlushCount }
  have hopen : ({ db := ∅ } : History).openDb codec s.db s.utxoFlushCount true =
      .ok opened := by
    rw [History.openDb, hstate]
    simp only [bind, Except.bind, hclear, pure, Except.pure, if_true]
  refine ⟨{ s with db := db, process := some opened.beginCompaction }, ?_, x, fun heq ↦ ?_⟩
  · exact step_start size hp hopen
  · rw [HistoryRows.getTxnums_none (h := { db := db }) hrows,
      HistoryRows.getTxnums_none (h := { db := s.db }) ht, Except.ok.injEq] at heq
    have hne : rows x id ≠ [] := by
      intro h0
      rw [ht.row x id hid, h0] at hrow
      exact hrow rfl
    have hlen := congrArg List.length heq
    rw [numbers, numbers, List.length_flatMap, List.length_flatMap] at hlen
    refine absurd hlen (Nat.ne_of_lt (List.sum_lt_sum _ _ (fun i _ ↦ ?_)
      ⟨id, List.mem_range.mpr hid, ?_⟩))
    · rw [dropRows]
      split
      · exact Nat.zero_le _
      · exact le_rfl
    · rw [dropRows, if_pos hid']
      exact List.length_pos_iff.mpr hne

end Runs

/-! ### A run that loses numbers -/

/-- A history DB after one flush, with three numbers of one script hash. -/
def sampleCompactor : Compactor where
  db := ((∅ : Table).write [.put (rowKey (sampleHashX 0) 1)
    ([0, 1, 2].flatMap (packLE txnumLen))]).write
      [.put History.stateKey ((StateCodec.unary HistoryState).repr
        ⟨1, some (-1), some (-1), some History.latestVersion, some (-1)⟩)]
  utxoFlushCount := 1

private def sampleRows : HashX → Nat → List Nat :=
  addRows (fun _ _ ↦ []) 1 fun hashX ↦ if hashX = sampleHashX 0 then [0, 1, 2] else []

private theorem sampleRows_eq (hashX : HashX) (id : Nat) :
    sampleRows hashX id = if hashX = sampleHashX 0 ∧ id = 1 then [0, 1, 2] else [] := by
  rw [sampleRows, addRows, Function.update_apply]
  split
  · next h => simp [h]
  · next h => simp [h]

private theorem sampleCompactor_rows : HistoryRows sampleCompactor.db sampleRows := by
  apply HistoryRows.write_state
  refine ⟨fun x id hid ↦ ?_, fun k v hk ↦ ?_, fun x id n hn ↦ ?_⟩
  · rw [Table.getElem?_write_put, sampleRows_eq]
    by_cases hx : x = sampleHashX 0 ∧ id = 1
    · obtain ⟨rfl, rfl⟩ := hx
      rw [if_pos rfl, if_pos ⟨rfl, rfl⟩]
      rfl
    · rw [if_neg hx, if_neg]
      · exact Std.ExtTreeMap.getElem?_empty
      · intro he
        obtain ⟨h1, h2⟩ := rowKey_inj (by decide) hid he
        exact hx ⟨h1.symm, h2.symm⟩
  · rw [Table.getElem?_write_put] at hk
    split at hk
    · next he => exact .inr ⟨sampleHashX 0, 1, by decide, he.symm⟩
    · rw [Std.ExtTreeMap.getElem?_empty] at hk
      cases hk
  · have hlt : ∀ m ∈ [0, 1, 2], m < 2 ^ 40 := by decide
    rw [sampleRows_eq] at hn
    split at hn
    · exact hlt n hn
    · cases hn

private theorem numbers_sampleRows (hashX : HashX) :
    numbers sampleRows hashX = if hashX = sampleHashX 0 then [0, 1, 2] else [] := by
  have hnil : numbers (fun _ _ ↦ []) hashX = [] := List.flatMap_eq_nil_iff.mpr fun _ _ ↦ rfl
  rw [sampleRows, numbers_addRows (fun _ _ _ ↦ rfl) (by decide), hnil, List.nil_append]

private theorem length_numbers_sampleRows (hashX : HashX) :
    (numbers sampleRows hashX).length ≤ flushIds * 1 := by
  rw [numbers_sampleRows]
  split
  · decide
  · decide

private theorem sampleCompactor_state :
    StateRead (StateCodec.unary HistoryState) sampleCompactor.db 1 (-1) (-1) := by
  have hs : sampleCompactor.db[History.stateKey]? = some ((StateCodec.unary HistoryState).repr
      ⟨1, some (-1), some (-1), some History.latestVersion, some (-1)⟩) :=
    (Table.getElem?_write_put _ _ _ _).trans (if_pos rfl)
  exact stateRead_of_record hs rfl

private theorem noExcess_sampleCompactor :
    NoExcess (StateCodec.unary HistoryState) sampleCompactor :=
  fun _ _ _ hs ↦ .inl (hs.flushCount_eq sampleCompactor_state).le

/-- The sample is compacted into rows of one number. -/
private theorem sampleCompactor_completed : ∃ h rows,
    Completed (StateCodec.unary HistoryState) 1 (numbers sampleRows) h rows ∧
      Reach (Compactor.step 1 (StateCodec.unary HistoryState))
        (fun t e ↦ e = .start → NoExcess (StateCodec.unary HistoryState) t) sampleCompactor
        ⟨h.db, 1, some h⟩ := by
  have hres : Resumable (StateCodec.unary HistoryState) 1 (numbers sampleRows)
      sampleCompactor.utxoFlushCount sampleCompactor.db :=
    ⟨sampleRows, _, _, _, sampleCompactor_rows, fun _ ↦ rfl, sampleCompactor_state, .inl rfl⟩
  obtain ⟨h₁, rows₁, hopen, hm, -⟩ := hres.start noExcess_sampleCompactor
  have hstart := step_start 1 rfl hopen
  obtain ⟨h₂, rows₂, hc, hreach⟩ := exists_completed (StateCodec.unary HistoryState)
    (fun t e ↦ e = .start → NoExcess (StateCodec.unary HistoryState) t)
    (s := { sampleCompactor with db := h₁.db, process := some h₁.beginCompaction })
    (by decide) length_numbers_sampleRows Nat.one_pos (fun t he ↦ by cases he) rfl hm
  exact ⟨h₂, rows₂, hc, (Reach.refl.step (fun _ ↦ noExcess_sampleCompactor) hstart).trans hreach⟩

theorem sampleCompactor_keeps_histories : ∃ h : History, h.compCursor = -1 ∧
    FullRows 1 h.db h.flushCount ∧ ∀ hashX : HashX, h.getTxnums hashX.val none =
      ({ db := sampleCompactor.db } : History).getTxnums hashX.val none := by
  obtain ⟨h, rows, hc, hreach⟩ := sampleCompactor_completed
  obtain ⟨hkept, -, hdone⟩ := compaction_keeps_histories (by decide) sampleCompactor_rows
    length_numbers_sampleRows sampleCompactor_state (.inl rfl) rfl hreach
  exact ⟨h, hc.cursor, (hdone h rfl hc.cursor).2.2, hkept⟩

/-- A compaction into shorter rows that dies before the UTXO DB is told loses numbers when it is
started again. -/
theorem not_compaction_keeps_histories : ¬ ∀ t, Reach
    (Compactor.step 1 (StateCodec.unary HistoryState)) (fun _ _ ↦ True) sampleCompactor t →
      ∀ hashX : HashX, ({ db := t.db } : History).getTxnums hashX.val none =
        ({ db := sampleCompactor.db } : History).getTxnums hashX.val none := by
  intro hall
  obtain ⟨h, rows, hc, hreach⟩ := sampleCompactor_completed
  set t : Compactor := ⟨h.db, 1, none⟩
  have hdie : (⟨h.db, 1, some h⟩ : Compactor).step 1 (StateCodec.unary HistoryState) .kill =
      some t := rfl
  have hkill := (hreach.mono fun _ _ _ ↦ trivial).step trivial hdie
  -- The three numbers are in rows of their own, the last one under the id 2.
  have hrow : rows (sampleHashX 0) 2 = [2] := by
    rw [(hc.compacted _ (prefixOf_lt _) 2).1, compactedRow, hc.numbers_eq, numbers_sampleRows,
      if_pos rfl]
    decide
  have hcount := (hc.compacted (sampleHashX 0) (prefixOf_lt _) 2).2
  have hexcess : ¬ NoExcess (StateCodec.unary HistoryState) t := by
    intro hne
    rw [hrow] at hcount
    rcases hne _ _ _ hc.record with hle | hnone
    · have h2 := Int.ofNat_le.mp (hcount (List.cons_ne_nil _ _))
      exact absurd (h2.trans hle) (by change ¬ 2 ≤ 1; decide)
    · have h2 := hc.table.row (sampleHashX 0) 2 (by decide)
      rw [hnone (sampleHashX 0) 2 (by decide) (by change 1 < 2; decide), hrow] at h2
      cases h2
  obtain ⟨t', hstep, x, hx⟩ :=
    Resumable.start_of_excess (s := t) (hc.resumable t.utxoFlushCount) rfl hexcess
  exact hx ((hall t' (hkill.step trivial hstep) x).trans (hall t hkill x).symm)

end ElectrumX.Index
