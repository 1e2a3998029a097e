import ElectrumX.Index.Run

/-!
# The upgrade of the history DB

The rows of a version 0 DB hold four-byte numbers under the same keys as the rows of a version 1
DB, so a row does not show whether it has been converted. The cursor does: it is stored in the
batch that converts the rows of its prefix. An upgrade that is killed and started again therefore
converts every row once.
-/

namespace ElectrumX.Server.History
open ElectrumX.Base ElectrumX.Lib

variable (codec : StateCodec HistoryState)

/-- The cursors that the upgrade has left, `history.py:391`. -/
def cursorsLeft (h : History) : List Nat :=
  (List.range 65536).filter fun cursor ↦ h.upgradeCursor + 1 ≤ cursor

/-- The upgrade up to some number of batches. -/
def upgradeBatches (h : History) (batches : Nat) : History :=
  (h.cursorsLeft.take batches).foldl (upgradePrefix codec) h

end ElectrumX.Server.History

namespace ElectrumX.Index
open ElectrumX.Base ElectrumX.Lib ElectrumX.Server

variable {codec : StateCodec HistoryState}

/-- What the upgrade makes of a row, `history.py:381`. -/
def fiveByteRow (hist : Bytes) : Bytes := (chunks hist 4).flatMap (· ++ [0])

/-- A record that is read with a version, a cursor and a flush count. -/
def Records (codec : StateCodec HistoryState) (db : Table) (version : Nat) (cursor : Int)
    (flushCount : Nat) : Prop :=
  ∃ b bs state, db[History.stateKey]? = some (b :: bs) ∧
    codec.literalEval (b :: bs) = some state ∧ state.dbVersion.getD 0 = version ∧
    state.upgradeCursor.getD (-1) = cursor ∧ state.flushCount = flushCount

/-- A version 0 DB: the state record, and rows of four-byte numbers. -/
structure VersionZero (codec : StateCodec HistoryState) (db : Table) (flushCount : Nat) :
    Prop where
  records : Records codec db 0 (-1) flushCount
  key_length : ∀ key hist, db[key]? = some hist → key ≠ History.stateKey →
    key.length = hashXLen + 2
  hist_length : ∀ key hist, db[key]? = some hist → key ≠ History.stateKey → hist.length % 4 = 0

/-- The DBs that are left by upgrades which are killed between two batches, or after the last. -/
inductive UpgradeRun (codec : StateCodec HistoryState) (original : Table) : Table → Prop
  | start : UpgradeRun codec original original
  | killed {db : Table} {h : History} (r : UpgradeRun codec original db)
      (hl : ({ db := db } : History).loadState codec = .ok h)
      (hv : h.dbVersion ≠ History.latestVersion) (batches : Nat) :
      UpgradeRun codec original (h.upgradeBatches codec batches).db
  | completed {db : Table} {h : History} (r : UpgradeRun codec original db)
      (hr : ({ db := db } : History).readState codec = .ok h) : UpgradeRun codec original h.db

/-- The rows up to a cursor are converted, once, and the others are not. -/
def ConvertedTo (original db : Table) (cursor : Int) : Prop :=
  ∀ key, key ≠ History.stateKey → db[key]? =
    if (unpackBE (key.take 2) : Int) ≤ cursor then (original[key]?).map fiveByteRow
    else original[key]?

/-- The upgrade in a process, which has stored its cursor with the rows. -/
structure Upgrading (codec : StateCodec HistoryState) (original : Table) (flushCount : Nat)
    (h : History) : Prop where
  converted : ConvertedTo original h.db h.upgradeCursor
  records : Records codec h.db 0 h.upgradeCursor flushCount
  version : h.dbVersion = 0
  flushCount : h.flushCount = flushCount

/-- A record that was put is read back. -/
theorem records_put (db : Table) (state : HistoryState) :
    Records codec (db.write [.put History.stateKey (codec.repr state)]) (state.dbVersion.getD 0)
      (state.upgradeCursor.getD (-1)) state.flushCount := by
  obtain ⟨b, bs, hb⟩ := List.exists_cons_of_ne_nil (codec.repr_ne_nil state)
  refine ⟨b, bs, state, ?_, ?_, rfl, rfl, rfl⟩
  · rw [Table.getElem?_write_put, if_pos rfl, hb]
  · rw [← hb]
    exact codec.literalEval_repr state

/-- A record that was written is read back. -/
theorem records_writeState {h : History} {db : Table} {flushCount : Nat}
    (hf : h.flushCount = flushCount) :
    Records codec (db.write [h.writeState codec]) h.dbVersion h.upgradeCursor flushCount := by
  rw [← hf]
  exact records_put db _

/-- The puts of one prefix. -/
private theorem upgradePrefix_db (h : History) (cursor : Nat) :
    (h.upgradePrefix codec cursor).db =
      (h.db.write (((h.db.iterator (packBE 2 cursor)).filter
        fun e ↦ decide (e.1.length = hashXLen + 2)).map fun e ↦ .put e.1 (fiveByteRow e.2))).write
        [{ h with upgradeCursor := (cursor : Int) }.writeState codec] := by
  unfold History.upgradePrefix
  dsimp only
  rw [Table.write_append, ← List.filterMap_eq_map, List.filterMap_filter]
  congr 2
  apply List.filterMap_congr
  intro e _
  by_cases hl : e.1.length = hashXLen + 2
  · simp [hl, fiveByteRow]
  · simp [hl]

private theorem upgradePrefix_iff {cursor : Nat} (hc : cursor < 65536) {key : Bytes}
    (hk : key.length = hashXLen + 2) :
    packBE 2 cursor <+: key ↔ unpackBE (key.take 2) = cursor := by
  have hl : (key.take 2).length = 2 := by
    rw [List.length_take, hk]
    rfl
  have htake := packBE_unpackBE (key.take 2)
  rw [hl] at htake
  rw [List.prefix_iff_eq_take, length_packBE]
  constructor
  · intro h
    rw [← h, unpackBE_packBE_of_lt hc]
  · rintro rfl
    exact htake

/-- The rows of one prefix are converted in the batch that stores its cursor. -/
theorem Upgrading.upgradePrefix {original : Table} {flushCount : Nat} {h : History}
    (hu : Upgrading codec original flushCount h)
    (hk : ∀ key hist, original[key]? = some hist → key ≠ History.stateKey →
      key.length = hashXLen + 2) {cursor : Nat} (hc : (cursor : Int) = h.upgradeCursor + 1)
    (hlt : cursor < 65536) :
    Upgrading codec original flushCount (h.upgradePrefix codec cursor) where
  converted := by
    intro key hkey
    have hw := h.db.getElem?_write_rewrite (packBE 2 cursor)
      (fun key ↦ decide (key.length = hashXLen + 2)) fiveByteRow key
    rw [upgradePrefix_db, History.writeState, Table.getElem?_write_put, if_neg (Ne.symm hkey),
      hw, hu.converted key hkey]
    change _ = if _ ≤ (cursor : Int) then _ else _
    by_cases hl : key.length = hashXLen + 2
    · have hpre := upgradePrefix_iff hlt hl
      by_cases heq : unpackBE (key.take 2) = cursor
      · have hnot : ¬(unpackBE (key.take 2) : Int) ≤ h.upgradeCursor := by omega
        have hle : (unpackBE (key.take 2) : Int) ≤ (cursor : Int) := by omega
        rw [if_pos ⟨hpre.mpr heq, decide_eq_true hl⟩, if_neg hnot, if_pos hle]
      · rw [if_neg fun hc ↦ heq (hpre.mp hc.1)]
        by_cases hle : (unpackBE (key.take 2) : Int) ≤ h.upgradeCursor
        · rw [if_pos hle, if_pos (by omega)]
        · rw [if_neg hle, if_neg (by omega)]
    · cases ho : original[key]? with
      | none => simp
      | some hist => exact absurd (hk key hist ho hkey) hl
  records := by
    have hr := @records_writeState codec { h with upgradeCursor := (cursor : Int) }
      (h.db.write (((h.db.iterator (packBE 2 cursor)).filter
        fun e ↦ decide (e.1.length = hashXLen + 2)).map fun e ↦ .put e.1 (fiveByteRow e.2)))
      flushCount hu.flushCount
    rw [← upgradePrefix_db] at hr
    rw [← hu.version]
    exact hr
  version := hu.version
  flushCount := hu.flushCount

private theorem filter_le_range (first n : Nat) :
    ((List.range n).filter fun i ↦ first ≤ i) = List.range' first (n - first) := by
  induction n with
  | zero => simp
  | succ n ih =>
    rw [List.range_succ, List.filter_append, ih]
    by_cases hle : first ≤ n
    · rw [Nat.succ_sub hle, List.range'_1_concat, Nat.add_sub_cancel' hle]
      simp [hle]
    · rw [Nat.sub_eq_zero_of_le (by omega), Nat.sub_eq_zero_of_le (by omega)]
      simp [hle]

private theorem cursorsLeft_eq {h : History} (hc : -1 ≤ h.upgradeCursor) :
    h.cursorsLeft = List.range' (h.upgradeCursor + 1).toNat
      (65536 - (h.upgradeCursor + 1).toNat) := by
  rw [← filter_le_range]
  unfold History.cursorsLeft
  apply List.filter_congr
  intro cursor _
  apply decide_eq_decide.mpr
  omega

/-- The batches store their cursors one after the other. -/
theorem Upgrading.foldl {original : Table} {flushCount : Nat}
    (hk : ∀ key hist, original[key]? = some hist → key ≠ History.stateKey →
      key.length = hashXLen + 2) (batches : Nat) :
    ∀ {h : History}, Upgrading codec original flushCount h → ∀ {first : Nat},
      (first : Int) = h.upgradeCursor + 1 → first + batches ≤ 65536 →
      Upgrading codec original flushCount
        ((List.range' first batches).foldl (History.upgradePrefix codec) h) ∧
      ((List.range' first batches).foldl (History.upgradePrefix codec) h).upgradeCursor =
        h.upgradeCursor + batches := by
  induction batches with
  | zero =>
    intro h hu first _ _
    exact ⟨hu, by simp⟩
  | succ batches ih =>
    intro h hu first hf hle
    have hnext := hu.upgradePrefix hk hf (by omega)
    have hcursor : (h.upgradePrefix codec first).upgradeCursor = first := rfl
    obtain ⟨hdone, hlast⟩ := @ih _ hnext (first + 1) (by rw [hcursor]; omega) (by omega)
    rw [List.range'_succ, List.foldl_cons]
    refine ⟨hdone, ?_⟩
    rw [hlast, hcursor]
    omega

/-- The upgrade stands at a cursor, or is done. -/
inductive Progress (codec : StateCodec HistoryState) (original : Table) (flushCount : Nat)
    (db : Table) : Prop
  | upgrading (cursor : Int) (first : -1 ≤ cursor) (last : cursor ≤ 65535)
      (converted : ConvertedTo original db cursor)
      (records : Records codec db 0 cursor flushCount)
  | done (converted : ConvertedTo original db 65535)
      (records : Records codec db 1 (-1) flushCount)

/-- Loading the state of a DB whose record is known. -/
theorem Records.loadState {db : Table} {version : Nat} {cursor : Int} {flushCount : Nat}
    (hr : Records codec db version cursor flushCount) :
    ∃ h, ({ db := db } : History).loadState codec = .ok h ∧ h.db = db ∧
      h.dbVersion = version ∧ h.upgradeCursor = cursor ∧ h.flushCount = flushCount := by
  obtain ⟨b, bs, state, hs, he, hv, hc, hf⟩ := hr
  unfold History.loadState
  dsimp only
  rw [hs]
  dsimp only
  rw [he]
  exact ⟨_, rfl, rfl, hv, hc, hf⟩

/-- The batches of one process, from wherever the last one stopped. -/
theorem Upgrading.upgradeBatches {original : Table} {flushCount : Nat} {h : History}
    (hu : Upgrading codec original flushCount h)
    (hk : ∀ key hist, original[key]? = some hist → key ≠ History.stateKey →
      key.length = hashXLen + 2) (hfirst : -1 ≤ h.upgradeCursor) (hlast : h.upgradeCursor ≤ 65535)
    (batches : Nat) :
    Upgrading codec original flushCount (h.upgradeBatches codec batches) ∧
      (h.upgradeBatches codec batches).upgradeCursor =
        min (h.upgradeCursor + batches) 65535 := by
  unfold History.upgradeBatches
  rw [cursorsLeft_eq hfirst]
  rcases Nat.le_total (65536 - (h.upgradeCursor + 1).toNat) batches with hle | hle
  · rw [List.take_range'_of_length_le hle]
    obtain ⟨hdone, hcursor⟩ := @Upgrading.foldl codec original flushCount hk
      (65536 - (h.upgradeCursor + 1).toNat) h hu (h.upgradeCursor + 1).toNat (by omega) (by omega)
    exact ⟨hdone, by rw [hcursor]; omega⟩
  · rw [List.take_range'_of_length_ge hle]
    obtain ⟨hdone, hcursor⟩ := @Upgrading.foldl codec original flushCount hk
      batches h hu (h.upgradeCursor + 1).toNat (by omega) (by omega)
    exact ⟨hdone, by rw [hcursor]; omega⟩

private theorem upgradeDb_eq (h : History) (hall : History) (he : h.upgradeBatches codec 65536 = hall) :
    h.upgradeDb codec = { hall with
      db := hall.db.write [{ hall with
        dbVersion := History.latestVersion
        upgradeCursor := -1 }.writeState codec]
      dbVersion := History.latestVersion
      upgradeCursor := -1 } := by
  have hlen : h.cursorsLeft.length ≤ 65536 :=
    (List.length_filter_le _ _).trans (le_of_eq List.length_range)
  unfold History.upgradeBatches at he
  rw [List.take_of_length_le hlen] at he
  rw [← he]
  unfold History.upgradeDb History.cursorsLeft
  generalize List.range 65536 = cursors
  rfl

/-- The upgrade runs to its end from wherever the last one stopped. -/
theorem Upgrading.upgradeDb {original : Table} {flushCount : Nat} {h : History}
    (hu : Upgrading codec original flushCount h)
    (hk : ∀ key hist, original[key]? = some hist → key ≠ History.stateKey →
      key.length = hashXLen + 2) (hfirst : -1 ≤ h.upgradeCursor)
    (hlast : h.upgradeCursor ≤ 65535) :
    ConvertedTo original (History.upgradeDb codec h).db 65535 ∧
      Records codec (History.upgradeDb codec h).db 1 (-1) flushCount ∧
      (History.upgradeDb codec h).dbVersion = 1 ∧
      (History.upgradeDb codec h).flushCount = flushCount := by
  obtain ⟨hdone, hcursor⟩ := hu.upgradeBatches hk hfirst hlast 65536
  have hlast' : (h.upgradeBatches codec 65536).upgradeCursor = 65535 := by
    rw [hcursor]
    omega
  generalize he : h.upgradeBatches codec 65536 = hall at hdone hlast'
  rw [upgradeDb_eq h hall he]
  refine ⟨?_, ?_, rfl, hdone.flushCount⟩
  · intro key hkey
    have hconv := hdone.converted key hkey
    rw [hlast'] at hconv
    rw [History.writeState, Table.getElem?_write_put, if_neg (Ne.symm hkey)]
    exact hconv
  · exact @records_writeState codec { hall with
      dbVersion := History.latestVersion
      upgradeCursor := -1 } _ flushCount hdone.flushCount

/-- Reopening finishes the upgrade, or finds it finished. -/
theorem Progress.readState {original : Table} {flushCount : Nat}
    (hz : VersionZero codec original flushCount) {db : Table}
    (hp : Progress codec original flushCount db) :
    ∃ h, ({ db := db } : History).readState codec = .ok h ∧ ConvertedTo original h.db 65535 ∧
      Records codec h.db 1 (-1) flushCount ∧ h.dbVersion = 1 ∧ h.flushCount = flushCount := by
  rw [History.readState]
  cases hp with
  | upgrading cursor hfirst hlast hconv hrec =>
    obtain ⟨h, hl, rfl, hversion, rfl, hf⟩ := hrec.loadState
    refine ⟨_, ?_, Upgrading.upgradeDb ⟨hconv, hrec, hversion, hf⟩ hz.key_length hfirst hlast⟩
    rw [hl]
    simp [hversion, History.latestVersion, bind, Except.bind, pure, Except.pure]
  | done hconv hrec =>
    obtain ⟨h, hl, rfl, hversion, -, hf⟩ := hrec.loadState
    refine ⟨h, ?_, hconv, hrec, hversion, hf⟩
    rw [hl]
    simp [hversion, History.latestVersion, bind, Except.bind, pure, Except.pure]

/-- Before the first batch no row is converted. -/
theorem convertedTo_none (original : Table) : ConvertedTo original original (-1) := by
  intro key _
  rw [if_neg (by omega)]

/-- Killed upgrades and finished ones leave a DB that stands at a cursor or is done. -/
theorem UpgradeRun.progress {original : Table} {flushCount : Nat}
    (hz : VersionZero codec original flushCount) {db : Table}
    (r : UpgradeRun codec original db) : Progress codec original flushCount db := by
  induction r with
  | start => exact .upgrading (-1) (by omega) (by omega) (convertedTo_none original) hz.records
  | @killed db h _ hl hv batches ih =>
    cases ih with
    | upgrading cursor hfirst hlast hconv hrec =>
      obtain ⟨h', hl', rfl, hversion, rfl, hf⟩ := hrec.loadState
      rw [hl'] at hl
      cases hl
      obtain ⟨hu, hcursor⟩ := Upgrading.upgradeBatches ⟨hconv, hrec, hversion, hf⟩ hz.key_length
        hfirst hlast batches
      exact .upgrading _ (by omega) (by omega) hu.converted hu.records
    | done hconv hrec =>
      obtain ⟨h', hl', -, hversion, -⟩ := hrec.loadState
      rw [hl'] at hl
      cases hl
      exact absurd hversion hv
  | @completed db h _ hr ih =>
    obtain ⟨h', hr', hconv, hrec, -⟩ := ih.readState hz
    rw [hr'] at hr
    cases hr
    exact .done hconv hrec

private theorem yieldTxnums_unlimited {items : List Bytes} (h : ∀ item ∈ items, item.length = 5)
    {limit : Int} (hl : limit < 0) :
    History.yieldTxnums limit items = .ok (items.map unpackLE) := by
  induction items generalizing limit with
  | nil => rfl
  | cons item items ih =>
    have hlen : (item ++ txnumPadding).length = 8 := by
      rw [List.length_append, h item List.mem_cons_self]
      rfl
    rw [History.yieldTxnums, if_neg (by omega), unpackLeUint64_of_length hlen, txnumPadding,
      unpackLE_append_zeros, ih (fun m hm ↦ h m (List.mem_cons_of_mem _ hm)) (by omega)]
    rfl

private theorem length_of_mem_chunks {hist item : Bytes} (hl : hist.length % 4 = 0)
    (hm : item ∈ chunks hist 4) : item.length = 4 := by
  obtain ⟨i, hi, rfl⟩ := List.mem_map.mp hm
  have hlt := List.mem_range.mp hi
  rw [List.length_take, List.length_drop]
  omega

/-- The items of an upgraded row are the items of the row, with a zero byte each. -/
private theorem chunks_fiveByteRow {hist : Bytes} (hl : hist.length % 4 = 0) :
    chunks (fiveByteRow hist) txnumLen = (chunks hist 4).map (· ++ [0]) := by
  apply chunks_flatMap (by decide)
  intro item hm
  rw [List.length_append, length_of_mem_chunks hl hm]
  rfl

private theorem not_prefix_stateKey (hashX : HashX) : ¬hashX.val <+: History.stateKey := by
  intro hp
  have hle := hp.length_le
  rw [hashX.property] at hle
  exact absurd hle (by decide)

/-- When the last cursor is reached, every row is converted. -/
theorem ConvertedTo.row {original db : Table} (hc : ConvertedTo original db 65535) {key : Bytes}
    (hkey : key ≠ History.stateKey) : db[key]? = (original[key]?).map fiveByteRow := by
  have hlt := unpackBE_lt (key.take 2)
  have hle : 256 ^ (key.take 2).length ≤ 256 ^ 2 :=
    Nat.pow_le_pow_right (by decide) (List.length_take_le 2 key)
  rw [hc key hkey, if_pos (by omega)]

private theorem iterator_converted {original db : Table} (hc : ConvertedTo original db 65535)
    (hashX : HashX) : db.iterator hashX.val =
      (original.iterator hashX.val).map fun e ↦ (e.1, fiveByteRow e.2) := by
  have hrow : ∀ key, hashX.val <+: key → db[key]? = (original[key]?).map fiveByteRow := by
    intro key hp
    apply hc.row
    rintro rfl
    exact not_prefix_stateKey hashX hp
  apply Table.eq_of_ordered _ _ (db.iterator_pairwise _)
  · rw [List.pairwise_map]
    exact original.iterator_pairwise _
  · rintro ⟨key, hist⟩
    rw [Table.mem_iterator, List.mem_map]
    constructor
    · rintro ⟨hd, hp⟩
      rw [hrow key hp] at hd
      obtain ⟨old, ho, he⟩ := Option.map_eq_some_iff.mp hd
      exact ⟨(key, old), Table.mem_iterator.mpr ⟨ho, hp⟩, Prod.ext rfl he⟩
    · rintro ⟨e, he, heq⟩
      obtain ⟨rfl, rfl⟩ := Prod.mk.inj heq
      obtain ⟨ho, hp⟩ := Table.mem_iterator.mp he
      refine ⟨?_, hp⟩
      dsimp only
      rw [hrow _ hp, ho]
      rfl

/-- An upgraded row is read as the numbers that it held. -/
theorem getTxnums_of_converted {original : Table} {h : History}
    (hk : ∀ key hist, original[key]? = some hist → key ≠ History.stateKey →
      hist.length % 4 = 0) (hc : ConvertedTo original h.db 65535) (hashX : HashX) :
    h.getTxnums hashX.val none = .ok ((original.iterator hashX.val).flatMap fun e ↦
      (chunks e.2 4).map unpackLE) := by
  have hmod : ∀ e ∈ original.iterator hashX.val, e.2.length % 4 = 0 := by
    intro e he
    obtain ⟨ho, hp⟩ := Table.mem_iterator.mp he
    apply hk e.1 e.2 ho
    intro hkey
    rw [hkey] at hp
    exact not_prefix_stateKey hashX hp
  have hitems : ((h.db.iterator hashX.val).flatMap fun e ↦ chunks e.2 txnumLen) =
      (original.iterator hashX.val).flatMap fun e ↦ (chunks e.2 4).map (· ++ [0]) := by
    rw [iterator_converted hc, List.flatMap_map]
    apply List.flatMap_congr
    intro e he
    exact chunks_fiveByteRow (hmod e he)
  unfold History.getTxnums
  rw [hitems, yieldTxnums_unlimited _ (by decide), List.map_flatMap]
  · congr 1
    apply List.flatMap_congr
    intro e _
    rw [List.map_map]
    apply List.map_congr_left
    intro item _
    exact unpackLE_append_zeros item 1
  · intro item hm
    obtain ⟨e, he, hm⟩ := List.mem_flatMap.mp hm
    obtain ⟨item, hi, rfl⟩ := List.mem_map.mp hm
    rw [List.length_append, length_of_mem_chunks (hmod e he) hi]
    rfl

/-- After any number of killed upgrades, reopening a version 0 DB completes the upgrade. Every
row is converted once, under its key, and the state record is not one of them. -/
theorem UpgradeRun.completes {original : Table} {flushCount : Nat}
    (hz : VersionZero codec original flushCount) {db : Table}
    (r : UpgradeRun codec original db) :
    ∃ h, ({ db := db } : History).readState codec = .ok h ∧
      h.dbVersion = History.latestVersion ∧ h.flushCount = flushCount ∧
      Records codec h.db 1 (-1) flushCount ∧
      (∀ key, key ≠ History.stateKey → h.db[key]? = (original[key]?).map fiveByteRow) ∧
      ∀ hashX : HashX, h.getTxnums hashX.val none =
        .ok ((original.iterator hashX.val).flatMap fun e ↦ (chunks e.2 4).map unpackLE) := by
  obtain ⟨h, hr, hconv, hrec, hversion, hf⟩ := (r.progress hz).readState hz
  exact ⟨h, hr, hversion, hf, hrec, fun _ hkey ↦ hconv.row hkey,
    getTxnums_of_converted hz.hist_length hconv⟩

/-! ### An upgrade that is killed after its first batch -/

private def sampleOldKey : Bytes := rowKey (sampleHashX 0) 1

private def sampleOldState : HistoryState := ⟨2, none, none, none, none⟩

/-- A version 0 DB with one row of two numbers, under the first prefix. -/
def sampleOldHistory : Table :=
  ((∅ : Table).write [.put sampleOldKey (packLE 4 7 ++ packLE 4 9)]).write
    [.put History.stateKey ((StateCodec.unary HistoryState).repr sampleOldState)]

private theorem sampleOldHistory_row {key : Bytes} (hkey : key ≠ History.stateKey) :
    sampleOldHistory[key]? =
      if sampleOldKey = key then some (packLE 4 7 ++ packLE 4 9) else none := by
  rw [sampleOldHistory, Table.getElem?_write_put, if_neg (Ne.symm hkey), Table.getElem?_write_put,
    Std.ExtTreeMap.getElem?_empty]

private theorem sampleOldHistory_rows {key hist : Bytes} (hr : sampleOldHistory[key]? = some hist)
    (hkey : key ≠ History.stateKey) :
    key = sampleOldKey ∧ hist = packLE 4 7 ++ packLE 4 9 := by
  rw [sampleOldHistory_row hkey] at hr
  split at hr
  · next he =>
    cases hr
    exact ⟨he.symm, rfl⟩
  · cases hr

private theorem sampleOldHistory_versionZero :
    VersionZero (StateCodec.unary HistoryState) sampleOldHistory 2 where
  records := records_put _ sampleOldState
  key_length key hist hr hkey := by
    rw [(sampleOldHistory_rows hr hkey).1]
    rfl
  hist_length key hist hr hkey := by
    rw [(sampleOldHistory_rows hr hkey).2]
    rfl

private theorem sampleOldHistory_iterator : sampleOldHistory.iterator (sampleHashX 0).val =
    [(sampleOldKey, packLE 4 7 ++ packLE 4 9)] := by
  apply Table.eq_of_ordered _ _ (Table.iterator_pairwise _ _) (List.pairwise_singleton _ _)
  intro e
  rw [Table.mem_iterator, List.mem_singleton]
  constructor
  · rintro ⟨hr, hp⟩
    have hkey : e.1 ≠ History.stateKey := by
      intro hs
      rw [hs] at hp
      exact not_prefix_stateKey _ hp
    exact Prod.ext (sampleOldHistory_rows hr hkey).1 (sampleOldHistory_rows hr hkey).2
  · rintro rfl
    refine ⟨?_, List.prefix_append _ _⟩
    rw [sampleOldHistory_row (by decide), if_pos rfl]

/-- The row is converted before the upgrade is killed, and it is not converted again. -/
theorem sampleOldHistory_completes : ∃ db h,
    UpgradeRun (StateCodec.unary HistoryState) sampleOldHistory db ∧
      db[sampleOldKey]? = some (packLE 5 7 ++ packLE 5 9) ∧
      ({ db := db } : History).readState (StateCodec.unary HistoryState) = .ok h ∧
      h.db[sampleOldKey]? = some (packLE 5 7 ++ packLE 5 9) ∧
      h.getTxnums (sampleHashX 0).val none = .ok [7, 9] := by
  have hz := sampleOldHistory_versionZero
  have hkey : sampleOldKey ≠ History.stateKey := by decide
  have hrow : sampleOldHistory[sampleOldKey]? = some (packLE 4 7 ++ packLE 4 9) := by
    rw [sampleOldHistory_row hkey, if_pos rfl]
  obtain ⟨h₀, hl, hdb, hversion, hcursor, hf⟩ := hz.records.loadState
  have hv : h₀.dbVersion ≠ History.latestVersion := by
    rw [hversion]
    decide
  have hupgrading : Upgrading (StateCodec.unary HistoryState) sampleOldHistory 2 h₀ := by
    refine ⟨?_, ?_, hversion, hf⟩
    · rw [hdb, hcursor]
      exact convertedTo_none sampleOldHistory
    · rw [hdb, hcursor]
      exact hz.records
  have hrun := UpgradeRun.killed .start hl hv 1
  obtain ⟨h, hr, -, -, -, hrows, hnums⟩ := hrun.completes hz
  refine ⟨_, h, hrun, ?_, hr, ?_, ?_⟩
  · obtain ⟨hu, hlast⟩ := Upgrading.upgradeBatches hupgrading hz.key_length (by omega) (by omega) 1
    rw [hu.converted _ hkey, hlast, hcursor, if_pos (by decide), hrow]
    rfl
  · rw [hrows _ hkey, hrow]
    rfl
  · rw [hnums, sampleOldHistory_iterator]
    rfl

end ElectrumX.Index
