import ElectrumX.Index.Run

/-!
# The upgrade of the UTXO DB

The upgrade lengthens the keys of the `u` and `h` tables, one batch for each prefix, and tells
a converted prefix by the length of its first key. It returns `None` for such a prefix, and
adding that to the count raises `TypeError`. An upgrade that is killed can therefore only be
started again if the batches that it committed were empty.
-/

namespace ElectrumX.Server
open ElectrumX.Base ElectrumX.Lib

/-- The two tables of outputs, by their prefixes. -/
inductive OutputTable where
  | u
  | h
  deriving DecidableEq, Repr

namespace OutputTable

/-- The first byte of the keys. -/
def byte : OutputTable → UInt8
  | u => prefixU
  | h => prefixH

/-- The length of what the first byte is followed by: a hashX or a compressed hash. -/
def idLen : OutputTable → Nat
  | u => hashXLen
  | h => compTxidLen

/-- The length of a new key, `db.py:657,690`. -/
def keyLen : OutputTable → Nat
  | u => 21
  | h => 14

/-- Where the index of a version 6 key ends, `db.py:664,697`. -/
def idxEnd : OutputTable → Nat
  | u => 14
  | h => 7

end OutputTable

namespace DB

variable (env : Env)

/-- The prefix of a batch, `db.py:674,704`. -/
def batchPrefix (b : OutputTable × Nat) : Bytes := b.1.byte :: packBE 2 b.2

/-- The batches of `upgrade_db` in their order. -/
def upgradeBatches : List (OutputTable × Nat) :=
  (List.range 65536).map (fun cursor ↦ (.u, cursor)) ++
    (List.range 65536).map (fun cursor ↦ (.h, cursor))

/-- `upgrade_u_prefix` or `upgrade_h_prefix` on some of the batches. -/
def runBatches (db : DB) (batches : List (OutputTable × Nat)) : Except PyError DB :=
  batches.foldlM (fun db b ↦ db.upgradePrefix b.1.keyLen b.1.idxEnd (batchPrefix b)) db

/-- `upgrade_db` runs its batches, then it upgrades the tx_counts file and the version. -/
theorem upgradeDb_eq (db : DB) : db.upgradeDb env = do
    let db ← db.runBatches upgradeBatches
    let db := { db.upgradeTxCounts with dbVersion := latestDbVersion }
    return db.commitUtxo [db.writeUtxoState env] := by
  unfold upgradeDb runBatches upgradeBatches
  generalize List.range 65536 = cursors
  simp only [List.foldlM_append, List.foldlM_map, bind_assoc]
  rfl

/-- The key that the upgrade gives a row, `db.py:664,670,697,703`. -/
def newKey (version idxEnd : Nat) (key : Bytes) : Bytes :=
  if version = 6 then key.take idxEnd ++ [0, 0] ++ key.drop idxEnd ++ [0] else key ++ [0]

/-- The batch of one prefix. -/
def moves (db : DB) (b : OutputTable × Nat) : List BatchOp :=
  (db.utxoDb.iterator (batchPrefix b)).flatMap fun e ↦
    [.delete e.1, .put (newKey db.dbVersion b.1.idxEnd e.1) e.2]

/-- A prefix whose first row is not of the new length is converted. -/
theorem upgradePrefix_of_old {db : DB} {b : OutputTable × Nat}
    (h : ∀ e ∈ db.utxoDb.iterator (batchPrefix b), e.1.length ≠ b.1.keyLen) :
    db.upgradePrefix b.1.keyLen b.1.idxEnd (batchPrefix b) = .ok (db.commitUtxo (db.moves b)) := by
  have hhead : ¬(db.utxoDb.iterator (batchPrefix b)).head?.any
      fun e ↦ e.1.length == b.1.keyLen := by
    intro ha
    cases hes : db.utxoDb.iterator (batchPrefix b) with
    | nil =>
      rw [hes] at ha
      cases ha
    | cons e es =>
      rw [hes] at ha h
      exact h e List.mem_cons_self (beq_iff_eq.mp ha)
  unfold upgradePrefix
  dsimp only
  rw [if_neg hhead]
  rfl

/-- A prefix whose first row is of the new length is not. -/
theorem upgradePrefix_of_new {db : DB} {b : OutputTable × Nat}
    (hne : db.utxoDb.iterator (batchPrefix b) ≠ [])
    (h : ∀ e ∈ db.utxoDb.iterator (batchPrefix b), e.1.length = b.1.keyLen) :
    db.upgradePrefix b.1.keyLen b.1.idxEnd (batchPrefix b) = .error .typeError := by
  obtain ⟨e, es, he⟩ := List.exists_cons_of_ne_nil hne
  unfold upgradePrefix
  dsimp only
  rw [he] at h ⊢
  rw [if_pos]
  · rfl
  · simp [h e List.mem_cons_self]

/-- A batch changes nothing but the table. -/
theorem upgradePrefix_frame {db db' : DB} {keyLen idxEnd : Nat} {pre : Bytes}
    (h : db.upgradePrefix keyLen idxEnd pre = .ok db') :
    db' = { db with
      utxoDb := db'.utxoDb
      journal := db'.journal } := by
  unfold upgradePrefix at h
  dsimp only at h
  split at h
  · cases h
  · cases h
    rfl

theorem dbVersion_of_upgradePrefix {db db' : DB} {keyLen idxEnd : Nat} {pre : Bytes}
    (h : db.upgradePrefix keyLen idxEnd pre = .ok db') : db'.dbVersion = db.dbVersion := by
  rw [upgradePrefix_frame h]

/-- Batches change nothing but the table. -/
theorem runBatches_frame {batches : List (OutputTable × Nat)} {db db' : DB}
    (h : db.runBatches batches = .ok db') :
    db' = { db with
      utxoDb := db'.utxoDb
      journal := db'.journal } := by
  induction batches generalizing db with
  | nil =>
    cases h
    rfl
  | cons b batches ih =>
    obtain ⟨db₁, h₁, h⟩ := bind_eq_ok.mp h
    have hrest := ih h
    rw [upgradePrefix_frame h₁] at hrest
    exact hrest

end DB
end ElectrumX.Server

namespace ElectrumX.Index
open ElectrumX.Base ElectrumX.Lib ElectrumX.Server

/-- The width of the index in an old key. -/
def oldIdxLen (version : Nat) : Nat := if version = 6 then 2 else 4

/-- The length of an old key. -/
def oldKeyLen (version : Nat) (T : OutputTable) : Nat := 1 + T.idLen + oldIdxLen version + 4

section Keys

variable {version : Nat} {T : OutputTable} {key key' : Bytes}

theorem length_newKey (hv : version = 6 ∨ version = 7) (hl : key.length = oldKeyLen version T) :
    (DB.newKey version T.idxEnd key).length = T.keyLen := by
  unfold DB.newKey
  rcases hv with rfl | rfl
  · cases T with
    | u =>
      simp [hl, oldKeyLen, oldIdxLen, OutputTable.idLen, OutputTable.idxEnd, OutputTable.keyLen,
        hashXLen]
    | h =>
      simp [hl, oldKeyLen, oldIdxLen, OutputTable.idLen, OutputTable.idxEnd, OutputTable.keyLen,
        compTxidLen]
  · cases T with
    | u => simp [hl, oldKeyLen, oldIdxLen, OutputTable.idLen, OutputTable.keyLen, hashXLen]
    | h => simp [hl, oldKeyLen, oldIdxLen, OutputTable.idLen, OutputTable.keyLen, compTxidLen]

theorem oldKeyLen_ne_keyLen (hv : version = 6 ∨ version = 7) (T : OutputTable) :
    oldKeyLen version T ≠ T.keyLen := by
  rcases hv with rfl | rfl
  · cases T with
    | u => decide
    | h => decide
  · cases T with
    | u => decide
    | h => decide

theorem take_newKey (hl : key.length = oldKeyLen version T) :
    (DB.newKey version T.idxEnd key).take 3 = key.take 3 := by
  have hlen : 3 ≤ key.length := by
    rw [hl]
    cases T with
    | u => simp [oldKeyLen, OutputTable.idLen, hashXLen]
    | h => simp [oldKeyLen, OutputTable.idLen, compTxidLen]
  have hend : 3 ≤ T.idxEnd := by
    cases T with
    | u => decide
    | h => decide
  unfold DB.newKey
  split
  · rw [List.append_assoc, List.append_assoc, List.take_append_of_le_length
      (by rw [List.length_take]; omega), List.take_take, Nat.min_eq_left hend]
  · rw [List.take_append_of_le_length hlen]

theorem newKey_inj (hl : key.length = oldKeyLen version T) (hl' : key'.length = oldKeyLen version T)
    (h : DB.newKey version T.idxEnd key = DB.newKey version T.idxEnd key') : key = key' := by
  unfold DB.newKey at h
  split at h
  · rw [List.append_assoc, List.append_assoc, List.append_assoc, List.append_assoc] at h
    obtain ⟨htake, h⟩ := List.append_inj h (by rw [List.length_take, List.length_take, hl, hl'])
    have hdrop := List.append_cancel_right (List.append_cancel_left h)
    rw [← List.take_append_drop T.idxEnd key, htake, hdrop, List.take_append_drop]
  · exact List.append_cancel_right h

end Keys
/-! ### What the batches do to the rows -/

/-- The rows of a version 6 or version 7 UTXO DB. -/
structure OldRows (version : Nat) (original : Table) : Prop where
  version_eq : version = 6 ∨ version = 7
  key_length : ∀ (T : OutputTable) (rest value : Bytes), original[T.byte :: rest]? = some value →
    (T.byte :: rest).length = oldKeyLen version T

/-- The rows under some prefixes have their new keys, the other ones the old. -/
def Moved (version : Nat) (original : Table) (done : List Bytes) (t : Table) : Prop :=
  ∀ key value, t[key]? = some value ↔
    (key.take 3 ∉ done ∧ original[key]? = some value) ∨
      ∃ (T : OutputTable) (rest : Bytes), original[T.byte :: rest]? = some value ∧
        (T.byte :: rest).take 3 ∈ done ∧ key = DB.newKey version T.idxEnd (T.byte :: rest)

theorem moved_nil (version : Nat) (original : Table) : Moved version original [] original := by
  intro key value
  simp

/-- A key lies under the prefix of a batch when its first three bytes are the prefix. -/
theorem batchPrefix_iff {b : OutputTable × Nat} {key : Bytes} :
    DB.batchPrefix b <+: key ↔ key.take 3 = DB.batchPrefix b := by
  have hl : (DB.batchPrefix b).length = 3 := by
    rw [DB.batchPrefix, List.length_cons, length_packBE]
  rw [List.prefix_iff_eq_take, hl, eq_comm]

/-- The keys under the prefix of a batch belong to its table. -/
theorem exists_of_batchPrefix {b : OutputTable × Nat} {key : Bytes}
    (h : DB.batchPrefix b <+: key) : ∃ rest, key = b.1.byte :: rest := by
  obtain ⟨suffix, rfl⟩ := h
  exact ⟨_, rfl⟩

theorem byte_inj {T T' : OutputTable} (h : T.byte = T'.byte) : T = T' := by
  cases T with
  | u =>
    cases T' with
    | u => rfl
    | h => exact absurd h (by decide)
  | h =>
    cases T' with
    | u => exact absurd h (by decide)
    | h => rfl

section Batches

variable {version : Nat} {original : Table} {done : List Bytes}

/-- Under a prefix that is not done, or has no rows, the rows are still the original ones. -/
theorem Moved.getElem?_eq (ho : OldRows version original) {t : Table}
    (hm : Moved version original done t) {b : OutputTable × Nat}
    (hb : DB.batchPrefix b ∉ done ∨ original.iterator (DB.batchPrefix b) = [])
    {key : Bytes} (hp : DB.batchPrefix b <+: key) (value : Bytes) :
    t[key]? = some value ↔ original[key]? = some value := by
  rw [hm]
  have hkey := batchPrefix_iff.mp hp
  rcases hb with hdone | hnone
  · constructor
    · rintro (⟨-, hr⟩ | ⟨T, rest, hr, hold, rfl⟩)
      · exact hr
      · rw [take_newKey (ho.key_length T rest value hr)] at hkey
        rw [hkey] at hold
        exact absurd hold hdone
    · intro hr
      rw [hkey]
      exact .inl ⟨hdone, hr⟩
  · have hno : ∀ old : Bytes, original[old]? = some value → old.take 3 ≠ DB.batchPrefix b := by
      intro old hr hold
      have hmem : (old, value) ∈ original.iterator (DB.batchPrefix b) :=
        Table.mem_iterator.mpr ⟨hr, batchPrefix_iff.mpr hold⟩
      rw [hnone] at hmem
      cases hmem
    constructor
    · rintro (⟨-, hr⟩ | ⟨T, rest, hr, -, rfl⟩)
      · exact hr
      · rw [take_newKey (ho.key_length T rest value hr)] at hkey
        exact absurd hkey (hno _ hr)
    · intro hr
      exact absurd hkey (hno _ hr)

/-- A batch whose prefix is not done, or has no rows, moves the rows of its prefix. -/
theorem Moved.upgradePrefix (ho : OldRows version original) {db : DB}
    (hv : db.dbVersion = version) (hm : Moved version original done db.utxoDb)
    {b : OutputTable × Nat}
    (hb : DB.batchPrefix b ∉ done ∨ original.iterator (DB.batchPrefix b) = []) :
    ∃ db', db.upgradePrefix b.1.keyLen b.1.idxEnd (DB.batchPrefix b) = .ok db' ∧
      Moved version original (DB.batchPrefix b :: done) db'.utxoDb := by
  have hlen : ∀ k v, db.utxoDb[k]? = some v → DB.batchPrefix b <+: k →
      k.length = oldKeyLen version b.1 := by
    intro k v hk hp
    obtain ⟨rest, rfl⟩ := exists_of_batchPrefix hp
    exact ho.key_length b.1 rest v ((hm.getElem?_eq ho hb hp v).mp hk)
  refine ⟨db.commitUtxo (db.moves b), DB.upgradePrefix_of_old ?_, ?_⟩
  · intro e he
    obtain ⟨hk, hp⟩ := Table.mem_iterator.mp he
    rw [hlen _ _ hk hp]
    exact oldKeyLen_ne_keyLen ho.version_eq b.1
  · intro key value
    have hw := db.utxoDb.getElem?_write_rekey (DB.batchPrefix b) (DB.newKey version b.1.idxEnd)
      (fun k v hk hp ↦ by
        rw [batchPrefix_iff, take_newKey (hlen k v hk hp)]
        exact batchPrefix_iff.mp hp)
      (fun k v k' v' hk hp hk' hp' h ↦ newKey_inj (hlen k v hk hp) (hlen k' v' hk' hp') h)
      (fun k v k' v' hk hp hk' hp' h ↦ by
        have hl := length_newKey ho.version_eq (hlen k v hk hp)
        rw [h, hlen k' v' hk' hp'] at hl
        exact oldKeyLen_ne_keyLen ho.version_eq b.1 hl)
      key value
    rw [← hv] at hw
    change (db.utxoDb.write (db.moves b))[key]? = some value ↔ _
    rw [DB.moves, hw, hv]
    constructor
    · rintro (⟨hp, hk⟩ | ⟨k, hk, hp, rfl⟩)
      · rcases (hm key value).mp hk with ⟨hdone, hr⟩ | ⟨T, rest, hr, hdone, rfl⟩
        · refine .inl ⟨fun hmem ↦ ?_, hr⟩
          rcases List.mem_cons.mp hmem with heq | hmem
          · exact hp (batchPrefix_iff.mpr heq)
          · exact hdone hmem
        · exact .inr ⟨T, rest, hr, List.mem_cons_of_mem _ hdone, rfl⟩
      · have hr := (hm.getElem?_eq ho hb hp value).mp hk
        have htake := batchPrefix_iff.mp hp
        obtain ⟨rest, rfl⟩ := exists_of_batchPrefix hp
        exact .inr ⟨b.1, rest, hr, by rw [htake]; exact List.mem_cons_self, rfl⟩
    · rintro (⟨hnot, hr⟩ | ⟨T, rest, hr, hdone, rfl⟩)
      · refine .inl ⟨fun hp ↦ hnot ?_, (hm key value).mpr (.inl ⟨fun hmem ↦ hnot ?_, hr⟩)⟩
        · rw [batchPrefix_iff.mp hp]
          exact List.mem_cons_self
        · exact List.mem_cons_of_mem _ hmem
      · have htake := take_newKey (ho.key_length T rest value hr)
        by_cases hp : (T.byte :: rest).take 3 = DB.batchPrefix b
        · have hprefix := batchPrefix_iff.mpr hp
          obtain ⟨rest', heq⟩ := exists_of_batchPrefix hprefix
          have hT := byte_inj (List.cons.inj heq).1
          subst hT
          exact .inr ⟨_, (hm.getElem?_eq ho hb hprefix value).mpr hr, hprefix, rfl⟩
        · refine .inl ⟨?_, (hm _ value).mpr (.inr ⟨T, rest, hr, ?_, rfl⟩)⟩
          · rw [batchPrefix_iff, htake]
            exact hp
          · exact (List.mem_cons.mp hdone).resolve_left hp

/-- Batches whose prefixes are not done, or have no rows, run. -/
theorem Moved.runBatches (ho : OldRows version original) :
    ∀ {batches : List (OutputTable × Nat)} {done : List Bytes} {db : DB},
      (batches.map DB.batchPrefix).Nodup → db.dbVersion = version →
      Moved version original done db.utxoDb →
      (∀ b ∈ batches, DB.batchPrefix b ∉ done ∨ original.iterator (DB.batchPrefix b) = []) →
      ∃ db', db.runBatches batches = .ok db' ∧
        Moved version original ((batches.map DB.batchPrefix).reverse ++ done) db'.utxoDb := by
  intro batches
  induction batches with
  | nil =>
    intro done db _ _ hm _
    exact ⟨db, rfl, hm⟩
  | cons b batches ih =>
    intro done db hnodup hv hm hb
    obtain ⟨hnot, hnodup⟩ := List.nodup_cons.mp hnodup
    obtain ⟨db₁, h₁, hm₁⟩ := hm.upgradePrefix ho hv (hb b List.mem_cons_self)
    have hv₁ := (DB.dbVersion_of_upgradePrefix h₁).trans hv
    obtain ⟨db₂, h₂, hm₂⟩ := ih hnodup hv₁ hm₁ (fun b' hb' ↦ by
      rcases hb b' (List.mem_cons_of_mem _ hb') with hdone | hnone
      · left
        intro hmem
        rcases List.mem_cons.mp hmem with heq | hmem
        · exact hnot (List.mem_map.mpr ⟨b', hb', heq⟩)
        · exact hdone hmem
      · exact .inr hnone)
    refine ⟨db₂, bind_eq_ok.mpr ⟨db₁, h₁, h₂⟩, ?_⟩
    rw [List.map_cons, List.reverse_cons, List.append_assoc, List.singleton_append]
    exact hm₂

/-- The batch of a prefix that is done and has rows raises. -/
theorem Moved.upgradePrefix_error (ho : OldRows version original) {db : DB}
    (hm : Moved version original done db.utxoDb) {b : OutputTable × Nat}
    (hdone : DB.batchPrefix b ∈ done) (hne : original.iterator (DB.batchPrefix b) ≠ []) :
    db.upgradePrefix b.1.keyLen b.1.idxEnd (DB.batchPrefix b) = .error .typeError := by
  apply DB.upgradePrefix_of_new
  · obtain ⟨e, es, he⟩ := List.exists_cons_of_ne_nil hne
    have hmem : e ∈ original.iterator (DB.batchPrefix b) := by
      rw [he]
      exact List.mem_cons_self
    obtain ⟨hr, hp⟩ := Table.mem_iterator.mp hmem
    obtain ⟨rest, hkey⟩ := exists_of_batchPrefix hp
    rw [hkey] at hr hp
    have htake := batchPrefix_iff.mp hp
    have hnew := (hm (DB.newKey version b.1.idxEnd (b.1.byte :: rest)) e.2).mpr
      (.inr ⟨b.1, rest, hr, by rw [htake]; exact hdone, rfl⟩)
    apply List.ne_nil_of_mem (a := (DB.newKey version b.1.idxEnd (b.1.byte :: rest), e.2))
    apply Table.mem_iterator.mpr ⟨hnew, _⟩
    rw [batchPrefix_iff, take_newKey (ho.key_length _ _ _ hr)]
    exact htake
  · intro e he
    obtain ⟨hk, hp⟩ := Table.mem_iterator.mp he
    have htake := batchPrefix_iff.mp hp
    rcases (hm e.1 e.2).mp hk with ⟨hnot, -⟩ | ⟨T, rest, hr, -, hkey⟩
    · rw [htake] at hnot
      exact absurd hdone hnot
    · have hl := ho.key_length T rest _ hr
      rw [hkey, take_newKey hl, ← batchPrefix_iff] at htake
      obtain ⟨rest', heq⟩ := exists_of_batchPrefix htake
      have hT := byte_inj (List.cons.inj heq).1
      subst hT
      rw [hkey]
      exact length_newKey ho.version_eq hl

/-- Batches of which one is done and has rows do not run. -/
theorem Moved.runBatches_error (ho : OldRows version original) :
    ∀ {batches : List (OutputTable × Nat)} {done : List Bytes} {db : DB},
      db.dbVersion = version → Moved version original done db.utxoDb →
      (∃ b ∈ batches, DB.batchPrefix b ∈ done ∧ original.iterator (DB.batchPrefix b) ≠ []) →
      db.runBatches batches = .error .typeError := by
  intro batches
  induction batches with
  | nil =>
    rintro done db _ _ ⟨b, hb, -⟩
    cases hb
  | cons b batches ih =>
    rintro done db hv hm ⟨b', hb', hdone', hne'⟩
    by_cases hhere : DB.batchPrefix b ∈ done ∧ original.iterator (DB.batchPrefix b) ≠ []
    · unfold DB.runBatches
      rw [List.foldlM_cons, hm.upgradePrefix_error ho hhere.1 hhere.2]
      rfl
    · obtain ⟨db₁, h₁, hm₁⟩ := hm.upgradePrefix ho hv (b := b)
        (by rw [← not_ne_iff, ← not_and_or]; exact hhere)
      have hv₁ := (DB.dbVersion_of_upgradePrefix h₁).trans hv
      have hrest := ih hv₁ hm₁ (by
        rcases List.mem_cons.mp hb' with rfl | hb'
        · exact absurd ⟨hdone', hne'⟩ hhere
        · exact ⟨b', hb', List.mem_cons_of_mem _ hdone', hne'⟩)
      unfold DB.runBatches
      rw [List.foldlM_cons, h₁]
      exact hrest

end Batches

/-! ### All the batches -/

theorem nodup_upgradeBatches : (DB.upgradeBatches.map DB.batchPrefix).Nodup := by
  have hside : ∀ T : OutputTable,
      ((List.range 65536).map fun cursor ↦ DB.batchPrefix (T, cursor)).Nodup := by
    intro T
    apply List.Nodup.map_on _ List.nodup_range
    intro m hm n hn h
    rw [List.mem_range] at hm hn
    have hbe : packBE 2 m = packBE 2 n := (List.cons.inj h).2
    exact (packBE_inj (w := 2) (by omega) (by omega)).mp hbe
  unfold DB.upgradeBatches
  rw [List.map_append, List.map_map, List.map_map]
  apply List.Nodup.append (hside .u) (hside .h)
  intro pre hu hh
  obtain ⟨m, -, rfl⟩ := List.mem_map.mp hu
  obtain ⟨n, -, h⟩ := List.mem_map.mp hh
  have hbyte : prefixH = prefixU := (List.cons.inj h).1
  exact absurd hbyte (by decide)

/-- The batches reach every row. -/
theorem mem_upgradeBatches (T : OutputTable) {rest : Bytes} (hl : 2 ≤ rest.length) :
    (T.byte :: rest).take 3 ∈ DB.upgradeBatches.map DB.batchPrefix := by
  have htake : (rest.take 2).length = 2 := by
    rw [List.length_take]
    omega
  have hlt := unpackBE_lt (rest.take 2)
  have hpack := packBE_unpackBE (rest.take 2)
  rw [htake] at hlt hpack
  rw [List.mem_map]
  refine ⟨(T, unpackBE (rest.take 2)), ?_, ?_⟩
  · unfold DB.upgradeBatches
    rw [List.mem_append, List.mem_map, List.mem_map]
    cases T with
    | u => exact .inl ⟨_, List.mem_range.mpr hlt, rfl⟩
    | h => exact .inr ⟨_, List.mem_range.mpr hlt, rfl⟩
  · rw [DB.batchPrefix, hpack]
    rfl

/-- The key of an output, by its index and transaction number. -/
def outputKey (T : OutputTable) (id : Bytes) (idx txNum : Nat) : Bytes :=
  T.byte :: id ++ packLE 4 idx ++ packLE txnumLen txNum

/-- The key of an output before the upgrade. -/
def oldOutputKey (version : Nat) (T : OutputTable) (id : Bytes) (idx txNum : Nat) : Bytes :=
  T.byte :: id ++ packLE (oldIdxLen version) idx ++ packLE 4 txNum

/-- Every output is stored once, under the key of its index and transaction number, with its
value. -/
structure SameOutputs (version : Nat) (original t : Table) : Prop where
  row : ∀ (T : OutputTable) (id : Bytes) (idx txNum : Nat), id.length = T.idLen →
    idx < 256 ^ oldIdxLen version → txNum < 256 ^ 4 →
    t[outputKey T id idx txNum]? = original[oldOutputKey version T id idx txNum]?
  only : ∀ (T : OutputTable) (rest value : Bytes), t[T.byte :: rest]? = some value →
    ∃ id idx txNum, id.length = T.idLen ∧ idx < 256 ^ oldIdxLen version ∧ txNum < 256 ^ 4 ∧
      T.byte :: rest = outputKey T id idx txNum
  old : ∀ (T : OutputTable) (rest value : Bytes), original[T.byte :: rest]? = some value →
    ∃ id idx txNum, id.length = T.idLen ∧ idx < 256 ^ oldIdxLen version ∧ txNum < 256 ^ 4 ∧
      T.byte :: rest = oldOutputKey version T id idx txNum

section Keys

variable {version : Nat} {T : OutputTable} {id : Bytes} {idx txNum : Nat}

theorem newKey_oldOutputKey (hv : version = 6 ∨ version = 7) (hid : id.length = T.idLen)
    (hidx : idx < 256 ^ oldIdxLen version) (hnum : txNum < 256 ^ 4) :
    DB.newKey version T.idxEnd (oldOutputKey version T id idx txNum) =
      outputKey T id idx txNum := by
  have hpad : packLE 4 txNum ++ [0] = packLE txnumLen txNum := packLE_append_zeros 1 hnum
  unfold DB.newKey oldOutputKey outputKey
  rcases hv with rfl | rfl
  · have hwide : packLE 2 idx ++ [0, 0] = packLE 4 idx := packLE_append_zeros 2 hidx
    have hend : (T.byte :: id ++ packLE (oldIdxLen 6) idx).length = T.idxEnd := by
      rw [List.length_append, List.length_cons, length_packLE, hid]
      cases T with
      | u => rfl
      | h => rfl
    rw [if_pos rfl, List.take_left' hend, List.drop_left' hend, List.append_assoc _ _ [0], hpad]
    change T.byte :: id ++ packLE 2 idx ++ [0, 0] ++ _ = _
    rw [List.append_assoc _ (packLE 2 idx), hwide]
  · rw [if_neg (by decide), List.append_assoc _ _ [0], hpad]
    rfl

end Keys

section Rows

variable {version : Nat} {original : Table}

/-- An old key is put together from its parts. -/
theorem OldRows.exists_oldOutputKey (ho : OldRows version original) {T : OutputTable}
    {rest value : Bytes} (hr : original[T.byte :: rest]? = some value) :
    ∃ id idx txNum, id.length = T.idLen ∧ idx < 256 ^ oldIdxLen version ∧ txNum < 256 ^ 4 ∧
      T.byte :: rest = oldOutputKey version T id idx txNum := by
  have hl := ho.key_length T rest value hr
  unfold oldKeyLen at hl
  rw [List.length_cons] at hl
  have hid : (rest.take T.idLen).length = T.idLen := by
    rw [List.length_take]
    omega
  have hidx : ((rest.drop T.idLen).take (oldIdxLen version)).length = oldIdxLen version := by
    rw [List.length_take, List.length_drop]
    omega
  have hnum : ((rest.drop T.idLen).drop (oldIdxLen version)).length = 4 := by
    rw [List.length_drop, List.length_drop]
    omega
  have hidx_lt := unpackLE_lt ((rest.drop T.idLen).take (oldIdxLen version))
  have hnum_lt := unpackLE_lt ((rest.drop T.idLen).drop (oldIdxLen version))
  have hidx_eq := packLE_unpackLE ((rest.drop T.idLen).take (oldIdxLen version))
  have hnum_eq := packLE_unpackLE ((rest.drop T.idLen).drop (oldIdxLen version))
  rw [hidx] at hidx_lt hidx_eq
  rw [hnum] at hnum_lt hnum_eq
  refine ⟨_, _, _, hid, hidx_lt, hnum_lt, ?_⟩
  rw [oldOutputKey, hidx_eq, hnum_eq, List.cons_append, List.cons_append, List.append_assoc,
    List.take_append_drop, List.take_append_drop]

private theorem length_oldOutputKey {T : OutputTable} {id : Bytes} {idx txNum : Nat}
    (hid : id.length = T.idLen) :
    (oldOutputKey version T id idx txNum).length = oldKeyLen version T := by
  unfold oldOutputKey oldKeyLen
  rw [List.length_append, List.length_append, List.length_cons, length_packLE, length_packLE, hid,
    Nat.add_comm 1]

private theorem two_le_idLen (T : OutputTable) : 2 ≤ T.idLen := by
  cases T with
  | u => decide
  | h => decide

/-- When all the batches have run, every output is stored under its new key. -/
theorem Moved.sameOutputs (ho : OldRows version original) {t : Table} {done : List Bytes}
    (hm : Moved version original done t)
    (hdone : ∀ b ∈ DB.upgradeBatches, DB.batchPrefix b ∈ done) :
    SameOutputs version original t := by
  have hall : ∀ (T : OutputTable) (rest : Bytes), 2 ≤ rest.length →
      (T.byte :: rest).take 3 ∈ done := by
    intro T rest hl
    obtain ⟨b, hb, heq⟩ := List.mem_map.mp (mem_upgradeBatches T hl)
    rw [← heq]
    exact hdone b hb
  have hlong : ∀ {T : OutputTable} {rest : Bytes}, (T.byte :: rest).length = oldKeyLen version T →
      2 ≤ rest.length := by
    intro T rest hl
    unfold oldKeyLen at hl
    have hid := two_le_idLen T
    rw [List.length_cons] at hl
    omega
  have htable : ∀ {T T' : OutputTable} {rest rest' : Bytes},
      (T'.byte :: rest').length = oldKeyLen version T' →
      T.byte :: rest = DB.newKey version T'.idxEnd (T'.byte :: rest') → T = T' := by
    intro T T' rest rest' hl h
    have htake := take_newKey hl
    rw [← h] at htake
    exact byte_inj (List.cons.inj htake).1
  constructor
  · intro T id idx txNum hid hidx hnum
    apply Option.ext
    intro value
    rw [hm]
    constructor
    · rintro (⟨hnot, -⟩ | ⟨T', rest', hr, -, hkey⟩)
      · refine absurd (hall T (id ++ packLE 4 idx ++ packLE txnumLen txNum) ?_) hnot
        have := two_le_idLen T
        rw [List.length_append, List.length_append]
        omega
      · have hl := ho.key_length T' rest' value hr
        have hT := htable hl hkey
        subst hT
        rw [← newKey_oldOutputKey ho.version_eq hid hidx hnum] at hkey
        rw [newKey_inj (length_oldOutputKey hid) hl hkey]
        exact hr
    · intro hr
      have hl := ho.key_length T (id ++ packLE (oldIdxLen version) idx ++ packLE 4 txNum) value hr
      exact .inr ⟨T, _, hr, hall T _ (hlong hl),
        (newKey_oldOutputKey ho.version_eq hid hidx hnum).symm⟩
  · intro T rest value hr
    rcases (hm _ value).mp hr with ⟨hnot, hold⟩ | ⟨T', rest', hold, -, hkey⟩
    · exact absurd (hall T rest (hlong (ho.key_length T rest value hold))) hnot
    · have hl := ho.key_length T' rest' value hold
      have hT := htable hl hkey
      subst hT
      obtain ⟨id, idx, txNum, hid, hidx, hnum, heq⟩ := ho.exists_oldOutputKey hold
      rw [heq, newKey_oldOutputKey ho.version_eq hid hidx hnum] at hkey
      exact ⟨id, idx, txNum, hid, hidx, hnum, hkey⟩
  · intro T rest value hr
    exact ho.exists_oldOutputKey hr

end Rows

/-! ### Opening a DB again -/

section Opening

variable {env : Env} {disk : Disk} {version : Nat} {state : UtxoState}

/-- The DB object when `upgrade_db` begins, `db.py:590–630`. -/
def opened (env : Env) (disk : Disk) : Except PyError DB := do
  let db ← (DB.load env {} disk).loadUtxoState env
  return { db with fsHeight := db.dbHeight, fsTxCount := db.dbTxCount }

/-- What an upgrade that is killed after some of its batches leaves on disk. -/
def interrupted (env : Env) (disk : Disk) (batches : Nat) : Except PyError Disk := do
  let db ← opened env disk
  let db ← db.runBatches (DB.upgradeBatches.take batches)
  return { disk with utxo := db.utxoDb }

/-- The state record of a DB. -/
structure Recorded (env : Env) (t : Table) (state : UtxoState) : Prop where
  read : ∃ b bs, t[utxoStateKey]? = some (b :: bs) ∧
    env.utxoCodec.literalEval (b :: bs) = some state
  genesis : state.genesis = env.coin.genesisHash

/-- A version 6 or version 7 UTXO DB. -/
structure OldUtxoDb (env : Env) (disk : Disk) (version : Nat) : Prop where
  rows : OldRows version disk.utxo
  recorded : ∃ state, Recorded env disk.utxo state ∧ state.dbVersion = version

theorem readUtxoState_load (env : Env) (disk : Disk) :
    (DB.load env {} disk).readUtxoState env = do
      let db ← opened env disk
      if db.dbVersion ≠ latestDbVersion then db.upgradeDb env else return db := by
  unfold DB.readUtxoState opened
  rw [bind_assoc]
  rfl

private theorem load_utxoDb (env : Env) (disk : Disk) :
    (DB.load env {} disk).utxoDb = disk.utxo := by
  unfold DB.load
  dsimp only
  split
  · rfl
  · rfl

/-- A DB of an old version is opened with what its record says. -/
theorem Recorded.opened (hr : Recorded env disk.utxo state) (hv : state.dbVersion = version)
    (hold : version = 6 ∨ version = 7) :
    Index.opened env disk = .ok { DB.load env {} disk with
      utxoDb := disk.utxo
      dbHeight := state.height
      dbTxCount := state.txCount
      dbTip := state.tip
      dbVersion := version
      utxoFlushCount := state.utxoFlushCount
      firstSync := state.firstSync
      fsHeight := state.height
      fsTxCount := state.txCount } := by
  obtain ⟨b, bs, hs, he⟩ := hr.read
  unfold Index.opened
  rw [DB.loadUtxoState, load_utxoDb, hs]
  dsimp only
  rw [he]
  dsimp only
  rw [if_neg (by rw [hv]; omega), if_neg (by simp [hr.genesis]), ← hv]
  rfl

private theorem upgradeTxCounts_frame (db : DB) : db.upgradeTxCounts = { db with
    txCountsFile := db.upgradeTxCounts.txCountsFile
    journal := db.upgradeTxCounts.journal } := by
  unfold DB.upgradeTxCounts
  dsimp only
  split
  · rfl
  · rfl

/-- The record that ends the upgrade. -/
def upgradedRecord (env : Env) (state : UtxoState) : BatchOp :=
  .put utxoStateKey (env.utxoCodec.repr { state with
    genesis := env.coin.genesisHash
    dbVersion := latestDbVersion })

/-- A DB of an old version is upgraded when it is opened. -/
theorem Recorded.readUtxoState (hr : Recorded env disk.utxo state)
    (hv : state.dbVersion = version) (hold : version = 6 ∨ version = 7) {db : DB}
    (ho : Index.opened env disk = .ok db) :
    (DB.load env {} disk).readUtxoState env = db.upgradeDb env := by
  rw [readUtxoState_load, ho]
  rw [hr.opened hv hold] at ho
  have hne : db.dbVersion ≠ latestDbVersion := by
    cases ho
    dsimp only
    rw [latestDbVersion]
    omega
  change (if db.dbVersion ≠ latestDbVersion then db.upgradeDb env else return db) = _
  rw [if_pos hne]

/-- An upgrade whose batches run ends with the record of the new version. -/
theorem Recorded.upgraded (hr : Recorded env disk.utxo state) (hv : state.dbVersion = version)
    (hold : version = 6 ∨ version = 7) {db db₁ : DB} (ho : Index.opened env disk = .ok db)
    (hb : db.runBatches DB.upgradeBatches = .ok db₁) :
    ∃ db', (DB.load env {} disk).readUtxoState env = .ok db' ∧ db'.dbVersion = latestDbVersion ∧
      db'.utxoDb = db₁.utxoDb.write [upgradedRecord env state] := by
  have hframe := DB.runBatches_frame hb
  rw [hr.readUtxoState hv hold ho, DB.upgradeDb_eq, hb]
  rw [hr.opened hv hold] at ho
  refine ⟨_, rfl, rfl, ?_⟩
  change db₁.upgradeTxCounts.utxoDb.write
    [DB.writeUtxoState env { db₁.upgradeTxCounts with dbVersion := latestDbVersion }] = _
  rw [upgradeTxCounts_frame db₁]
  generalize db₁.upgradeTxCounts.txCountsFile = txCountsFile
  generalize db₁.upgradeTxCounts.journal = journal
  cases ho
  rw [hframe]
  rfl

/-- An upgrade whose batches raise does not end. -/
theorem Recorded.upgrade_error (hr : Recorded env disk.utxo state) (hv : state.dbVersion = version)
    (hold : version = 6 ∨ version = 7) {db : DB} {e : PyError}
    (ho : Index.opened env disk = .ok db)
    (hb : db.runBatches DB.upgradeBatches = .error e) :
    (DB.load env {} disk).readUtxoState env = .error e := by
  rw [hr.readUtxoState hv hold ho, DB.upgradeDb_eq, hb]
  rfl

/-- The reopened upgrade completes with the rows of one that is not interrupted. -/
def Resumes (env : Env) (version : Nat) (disk disk' : Disk) : Prop :=
  ∃ db db', (DB.load env {} disk).readUtxoState env = .ok db ∧
    (DB.load env {} disk').readUtxoState env = .ok db' ∧ db'.utxoDb = db.utxoDb ∧
    db'.dbVersion = latestDbVersion ∧ SameOutputs version disk.utxo db'.utxoDb

/-- The prefixes of the first batches. -/
def donePrefixes (batches : Nat) : List Bytes :=
  ((DB.upgradeBatches.take batches).map DB.batchPrefix).reverse

private theorem nodup_take (batches : Nat) :
    ((DB.upgradeBatches.take batches).map DB.batchPrefix).Nodup := by
  rw [List.map_take]
  exact nodup_upgradeBatches.sublist (List.take_sublist _ _)

private theorem stateKey_ne (T : OutputTable) (rest : Bytes) : T.byte :: rest ≠ utxoStateKey := by
  intro h
  have hb : T.byte = 0x73 := (List.cons.inj h).1
  cases T with
  | u => exact absurd hb (by decide)
  | h => exact absurd hb (by decide)

/-- The batches do not change the state record. -/
theorem Moved.getElem?_stateKey {original t : Table} {done : List Bytes}
    (ho : OldRows version original) (hm : Moved version original done t)
    (hdone : ∀ pre ∈ done, ∃ b, pre = DB.batchPrefix b) :
    t[utxoStateKey]? = original[utxoStateKey]? := by
  apply Option.ext
  intro value
  rw [hm]
  have hnot : utxoStateKey.take 3 ∉ done := by
    intro hmem
    obtain ⟨b, hb⟩ := hdone _ hmem
    have hhead : (0x73 : UInt8) = b.1.byte := (List.cons.inj hb).1
    exact stateKey_ne b.1 [0x74, 0x61, 0x74, 0x65] (by rw [← hhead]; rfl)
  constructor
  · rintro (⟨-, hr⟩ | ⟨T, rest, hr, hmem, hkey⟩)
    · exact hr
    · have htake := take_newKey (ho.key_length T rest value hr)
      rw [← hkey] at htake
      rw [← htake] at hmem
      exact absurd hmem hnot
  · intro hr
    exact .inl ⟨hnot, hr⟩

/-- What is left on disk depends on the prefixes that are done. -/
theorem Moved.eq_of_mem_iff {original t t' : Table} {done done' : List Bytes}
    (hm : Moved version original done t) (hm' : Moved version original done' t')
    (h : ∀ pre, pre ∈ done ↔ pre ∈ done') : t = t' := by
  apply Std.ExtTreeMap.ext_getElem?
  intro key
  apply Option.ext
  intro value
  rw [hm, hm', h]
  simp only [h]

/-- The record that ends the upgrade is not the row of an output. -/
theorem SameOutputs.write_record {original t : Table} (h : SameOutputs version original t)
    (env : Env) (state : UtxoState) :
    SameOutputs version original (t.write [upgradedRecord env state]) := by
  have hrow : ∀ (T : OutputTable) (rest : Bytes),
      (t.write [upgradedRecord env state])[T.byte :: rest]? = t[T.byte :: rest]? := by
    intro T rest
    rw [upgradedRecord, Table.getElem?_write_put, if_neg (Ne.symm (stateKey_ne T rest))]
  constructor
  · intro T id idx txNum hid hidx hnum
    rw [← h.row T id idx txNum hid hidx hnum]
    exact hrow T _
  · intro T rest value hr
    rw [hrow] at hr
    exact h.only T rest value hr
  · exact h.old

/-- The batches of an old DB run up to the interruption. -/
theorem OldUtxoDb.interrupted (ho : OldUtxoDb env disk version) (batches : Nat) :
    ∃ t, Index.interrupted env disk batches = .ok { disk with utxo := t } ∧
      Moved version disk.utxo (donePrefixes batches) t := by
  obtain ⟨state, hr, hv⟩ := ho.recorded
  have hopen := hr.opened hv ho.rows.version_eq
  generalize hdb : ({ DB.load env {} disk with
    utxoDb := disk.utxo
    dbHeight := state.height
    dbTxCount := state.txCount
    dbTip := state.tip
    dbVersion := version
    utxoFlushCount := state.utxoFlushCount
    firstSync := state.firstSync
    fsHeight := state.height
    fsTxCount := state.txCount } : DB) = db at hopen
  have hversion : db.dbVersion = version := by
    rw [← hdb]
  have hm : Moved version disk.utxo [] db.utxoDb := by
    rw [← hdb]
    exact moved_nil version disk.utxo
  obtain ⟨db', hrun, hm'⟩ := hm.runBatches ho.rows (nodup_take batches) hversion
    (fun _ _ ↦ .inl List.not_mem_nil)
  rw [List.append_nil] at hm'
  refine ⟨db'.utxoDb, ?_, hm'⟩
  unfold Index.interrupted
  rw [hopen]
  change (do
    let db ← db.runBatches (DB.upgradeBatches.take batches)
    return { disk with utxo := db.utxoDb }) = _
  rw [hrun]
  rfl

/-- What is opened after an interruption: the record of the old DB with the rows that are left. -/
theorem OldUtxoDb.reopened (ho : OldUtxoDb env disk version) {t : Table} {done : List Bytes}
    (hm : Moved version disk.utxo done t) (hdone : ∀ pre ∈ done, ∃ b, pre = DB.batchPrefix b)
    (hr : Recorded env disk.utxo state) (hv : state.dbVersion = version) :
    Recorded env t state ∧ ∃ db, Index.opened env { disk with utxo := t } = .ok db ∧
      db.dbVersion = version ∧ db.utxoDb = t := by
  have hrt : Recorded env t state := by
    obtain ⟨b, bs, hs, he⟩ := hr.read
    exact ⟨⟨b, bs, by rw [hm.getElem?_stateKey ho.rows hdone, hs], he⟩, hr.genesis⟩
  have hopen := @Recorded.opened env { disk with utxo := t } version state hrt hv ho.rows.version_eq
  exact ⟨hrt, _, hopen, rfl, rfl⟩

/-- The upgrade completes when the prefixes that are done have no rows. -/
theorem OldUtxoDb.reopen_ok (ho : OldUtxoDb env disk version) {t : Table} {done : List Bytes}
    (hm : Moved version disk.utxo done t) (hdone : ∀ pre ∈ done, ∃ b, pre = DB.batchPrefix b)
    (hnone : ∀ b, DB.batchPrefix b ∈ done → disk.utxo.iterator (DB.batchPrefix b) = [])
    (hr : Recorded env disk.utxo state) (hv : state.dbVersion = version) :
    ∃ db t', (DB.load env {} { disk with utxo := t }).readUtxoState env = .ok db ∧
      db.dbVersion = latestDbVersion ∧ db.utxoDb = t'.write [upgradedRecord env state] ∧
      Moved version disk.utxo ((DB.upgradeBatches.map DB.batchPrefix).reverse ++ done) t' := by
  obtain ⟨hrt, db, hopen, hversion, rfl⟩ := ho.reopened hm hdone hr hv
  obtain ⟨db₁, hrun, hm₁⟩ := hm.runBatches ho.rows nodup_upgradeBatches hversion (fun b _ ↦ by
    by_cases hb : DB.batchPrefix b ∈ done
    · exact .inr (hnone b hb)
    · exact .inl hb)
  obtain ⟨db', hread, hlatest, hutxo⟩ := hrt.upgraded hv ho.rows.version_eq hopen hrun
  exact ⟨db', db₁.utxoDb, hread, hlatest, hutxo, hm₁⟩

private theorem exists_of_mem_donePrefixes {batches : Nat} {pre : Bytes}
    (h : pre ∈ donePrefixes batches) : ∃ b ∈ DB.upgradeBatches.take batches,
      pre = DB.batchPrefix b := by
  obtain ⟨b, hb, rfl⟩ := List.mem_map.mp (List.mem_reverse.mp h)
  exact ⟨b, hb, rfl⟩

private theorem batchPrefix_of_mem_donePrefixes {batches : Nat} :
    ∀ pre ∈ donePrefixes batches, ∃ b, pre = DB.batchPrefix b := by
  intro pre hpre
  obtain ⟨b, -, hb⟩ := exists_of_mem_donePrefixes hpre
  exact ⟨b, hb⟩

/-- An upgrade that is killed after some batches raises when it is started again, if one of these
batches had rows. -/
theorem OldUtxoDb.reopen_error (ho : OldUtxoDb env disk version) {batches : Nat} {t : Table}
    (hm : Moved version disk.utxo (donePrefixes batches) t)
    (hrows : ∃ b ∈ DB.upgradeBatches.take batches,
      disk.utxo.iterator (DB.batchPrefix b) ≠ []) :
    (DB.load env {} { disk with utxo := t }).readUtxoState env = .error .typeError := by
  obtain ⟨state, hr, hv⟩ := ho.recorded
  obtain ⟨hrt, db, hopen, hversion, rfl⟩ := ho.reopened hm batchPrefix_of_mem_donePrefixes hr hv
  obtain ⟨b, hb, hne⟩ := hrows
  have hmem : DB.batchPrefix b ∈ donePrefixes batches :=
    List.mem_reverse.mpr (List.mem_map.mpr ⟨b, hb, rfl⟩)
  exact hrt.upgrade_error hv ho.rows.version_eq hopen
    (hm.runBatches_error ho.rows hversion ⟨b, List.mem_of_mem_take hb, hmem, hne⟩)

/-- An upgrade that is killed after some batches completes, with the rows of one that is not
killed, if and only if none of these batches had a row. -/
theorem OldUtxoDb.resumes_iff (ho : OldUtxoDb env disk version) (batches : Nat) :
    ∃ disk', Index.interrupted env disk batches = .ok disk' ∧
      (Resumes env version disk disk' ↔ ∀ b ∈ DB.upgradeBatches.take batches,
        disk.utxo.iterator (DB.batchPrefix b) = []) := by
  obtain ⟨t, hint, hm⟩ := ho.interrupted batches
  refine ⟨_, hint, ?_⟩
  constructor
  · rintro ⟨db, db', -, hread, -⟩ b hb
    by_contra hne
    rw [ho.reopen_error hm ⟨b, hb, hne⟩] at hread
    cases hread
  · intro hnone
    obtain ⟨state, hr, hv⟩ := ho.recorded
    obtain ⟨db, t₁, hread, -, hutxo, hm₁⟩ := ho.reopen_ok (moved_nil version disk.utxo)
      (fun _ h ↦ by cases h) (fun _ h ↦ by cases h) hr hv
    obtain ⟨db', t₂, hread', hlatest, hutxo', hm₂⟩ := ho.reopen_ok hm
      batchPrefix_of_mem_donePrefixes
      (fun b hb ↦ by
        obtain ⟨b', hb', heq⟩ := exists_of_mem_donePrefixes hb
        rw [heq]
        exact hnone b' hb') hr hv
    have heq : t₂ = t₁ := by
      apply hm₂.eq_of_mem_iff hm₁
      intro pre
      rw [List.mem_append, List.append_nil, List.mem_reverse]
      apply or_iff_left_of_imp
      intro hpre
      obtain ⟨b, hb, rfl⟩ := exists_of_mem_donePrefixes hpre
      exact List.mem_map.mpr ⟨b, List.mem_of_mem_take hb, rfl⟩
    refine ⟨db, db', hread, hread', by rw [hutxo', hutxo, heq], hlatest, ?_⟩
    rw [hutxo']
    apply SameOutputs.write_record
    apply hm₂.sameOutputs ho.rows
    intro b hb
    exact List.mem_append_left _ (List.mem_reverse.mpr (List.mem_map.mpr ⟨b, hb, rfl⟩))

end Opening

/-! ### An upgrade that is killed after its first batch -/

private def sampleOldUtxo : UtxoState where
  genesis := []
  height := 0
  txCount := 1
  tip := []
  utxoFlushCount := 1
  firstSync := false
  dbVersion := 7

private def sampleOldRow (b : UInt8) : Bytes := oldOutputKey 7 .u (sampleHashX b).val 0 0

/-- A version 7 DB with one output, whose hashX repeats a byte. -/
def sampleOldDisk (b : UInt8) : Disk where
  utxo := ((∅ : Table).write [.put (sampleOldRow b) (packLE 8 5)]).write
    [.put utxoStateKey (sampleEnv.utxoCodec.repr sampleOldUtxo)]

private theorem sampleOldDisk_row {b : UInt8} {key value : Bytes}
    (h : (sampleOldDisk b).utxo[key]? = some value) : key = utxoStateKey ∨ key = sampleOldRow b := by
  unfold sampleOldDisk at h
  dsimp only at h
  rw [Table.getElem?_write_put, Table.getElem?_write_put, Std.ExtTreeMap.getElem?_empty] at h
  split at h
  · next heq => exact .inl heq.symm
  · split at h
    · next heq => exact .inr heq.symm
    · cases h

private theorem sampleOldDisk_old (b : UInt8) : OldUtxoDb sampleEnv (sampleOldDisk b) 7 where
  rows := by
    refine ⟨.inr rfl, ?_⟩
    intro T rest value hr
    rcases sampleOldDisk_row hr with hs | hkey
    · exact absurd hs (stateKey_ne T rest)
    · have hT : T = .u := by
        apply byte_inj
        exact (List.cons.inj hkey).1
      rw [hkey, hT]
      rfl
  recorded := by
    obtain ⟨c, cs, hc⟩ := List.exists_cons_of_ne_nil
      (sampleEnv.utxoCodec.repr_ne_nil sampleOldUtxo)
    refine ⟨sampleOldUtxo, ⟨⟨c, cs, ?_, ?_⟩, rfl⟩, rfl⟩
    · rw [← hc]
      exact (Table.getElem?_write_put _ _ _ _).trans (if_pos rfl)
    · rw [← hc]
      exact sampleEnv.utxoCodec.literalEval_repr sampleOldUtxo

private theorem take_upgradeBatches : DB.upgradeBatches.take 1 = [(.u, 0)] := by
  unfold DB.upgradeBatches
  rw [List.take_append_of_le_length (by simp), ← List.map_take, List.take_range]
  rfl

/-- The first batch has no row: the upgrade completes. -/
theorem sampleOldDisk_resumes_iff : ∃ disk',
    interrupted sampleEnv (sampleOldDisk 1) 1 = .ok disk' ∧
      Resumes sampleEnv 7 (sampleOldDisk 1) disk' := by
  obtain ⟨disk', h, hiff⟩ := (sampleOldDisk_old 1).resumes_iff 1
  refine ⟨disk', h, hiff.mpr ?_⟩
  intro b hb
  rw [take_upgradeBatches, List.mem_singleton] at hb
  subst hb
  apply List.eq_nil_iff_forall_not_mem.mpr
  intro e he
  obtain ⟨hr, hp⟩ := Table.mem_iterator.mp he
  rcases sampleOldDisk_row hr with hkey | hkey
  · rw [hkey] at hp
    exact absurd hp (by decide)
  · rw [hkey] at hp
    exact absurd hp (by decide)

/-- The first batch has a row: started again, the upgrade raises, and it does so every time. -/
theorem sampleOldDisk_upgrade : OldUtxoDb sampleEnv (sampleOldDisk 0) 7 ∧ ∃ disk',
    interrupted sampleEnv (sampleOldDisk 0) 1 = .ok disk' ∧
      (DB.load sampleEnv {} disk').readUtxoState sampleEnv = .error .typeError ∧
      ¬Resumes sampleEnv 7 (sampleOldDisk 0) disk' := by
  have ho := sampleOldDisk_old 0
  obtain ⟨t, h, hm⟩ := ho.interrupted 1
  have herror := ho.reopen_error hm (by
    refine ⟨(.u, 0), ?_, ?_⟩
    · rw [take_upgradeBatches]
      exact List.mem_cons_self
    · apply List.ne_nil_of_mem (a := (sampleOldRow 0, packLE 8 5))
      apply Table.mem_iterator.mpr
      refine ⟨?_, by decide⟩
      unfold sampleOldDisk
      dsimp only
      rw [Table.getElem?_write_put, if_neg (by decide), Table.getElem?_write_put, if_pos rfl])
  refine ⟨ho, _, h, herror, ?_⟩
  rintro ⟨-, db', -, hread, -⟩
  rw [herror] at hread
  cases hread

end ElectrumX.Index
