import ElectrumX.Lib.Coins

/-!
# The wire format

Blocks as they are sent: a header, the number of transactions and the transactions, each in its
legacy form or with its witness. The deserializers of `lib/tx.py:116–304` read back what was
written and nothing else, and fail on a block that is cut off.
-/

namespace ElectrumX.Lib
open ElectrumX.Base

namespace Deserializer

/-! ### Integers and byte strings -/

theorem reads_readLeUint (size : Nat) {n : Nat} (h : n < 256 ^ size) :
    (readLeUint size).Reads (packLE size n) n := by
  have hr := (Reader.Reads.take_of_length (e := PyError.structError) (length_packLE size n)).map
    fun result ↦ unpackLE result.val
  rwa [unpackLE_packLE_of_lt h] at hr

theorem readLeUint_local (size : Nat) : (readLeUint size).Local := (Reader.Local.take size).map

theorem reads_readLeUint32 {n : Nat} {enc : Bytes} (h : packLeUint32 n = .ok enc) :
    readLeUint32.Reads enc n := by
  rw [packLeUint32] at h
  split at h
  · next hn =>
    cases h
    exact reads_readLeUint 4 hn
  · cases h

theorem reads_readLeInt32 (n : Int32) : readLeInt32.Reads (packLeInt32 n) n := by
  have hr := (Reader.Reads.take_of_length (e := PyError.structError)
    (length_packLE 4 n.toUInt32.toNat)).map fun result ↦
      (UInt32.ofNat (unpackLE result.val)).toInt32
  have hlt : n.toUInt32.toNat < 256 ^ 4 := n.toUInt32.toNat_lt
  rwa [unpackLE_packLE_of_lt hlt, UInt32.ofNat_toNat, Int32.toInt32_toUInt32] at hr

theorem reads_readLeInt64 {n : Int} {enc : Bytes} (h : packLeInt64 n = .ok enc) :
    readLeInt64.Reads enc n := by
  rw [packLeInt64] at h
  split at h
  · next hn =>
    cases h
    have hr := (Reader.Reads.take_of_length (e := PyError.structError)
      (length_packLE 8 (n % 2 ^ 64).toNat)).map fun result ↦
        if unpackLE result.val < 2 ^ 63 then (unpackLE result.val : Int)
        else unpackLE result.val - 2 ^ 64
    have hlt : (n % 2 ^ 64).toNat < 256 ^ 8 := by omega
    rw [unpackLE_packLE_of_lt hlt] at hr
    have hv : (if (n % 2 ^ 64).toNat < 2 ^ 63 then ((n % 2 ^ 64).toNat : Int)
        else (n % 2 ^ 64).toNat - 2 ^ 64) = n := by
      split <;> omega
    rwa [hv] at hr
  · cases h

/-- A count is read back, whichever of the four widths it was written in. -/
theorem reads_readVarint {n : Nat} {enc : Bytes} (h : packVarint n = .ok enc) :
    readVarint.Reads enc n := by
  rw [packVarint] at h
  split at h
  · next hn =>
    cases h
    change readVarint.Reads ([UInt8.ofNat n] ++ []) n
    refine (Reader.Reads.next (UInt8.ofNat n)).bind ?_
    have hb : (UInt8.ofNat n).toNat = n := UInt8.toNat_ofNat_of_lt' (by change n < 256; omega)
    have hlt : UInt8.ofNat n < 253 := UInt8.lt_iff_toNat_lt.mpr (by rw [hb]; exact hn)
    rw [if_pos hlt, hb]
    exact .pure n
  split at h
  · next hn =>
    cases h
    exact (Reader.Reads.next 253).bind (reads_readLeUint 2 hn)
  split at h
  · next hn =>
    cases h
    exact (Reader.Reads.next 254).bind (reads_readLeUint 4 hn)
  · obtain ⟨enc', he, h⟩ := bind_eq_ok.mp h
    cases h
    rw [packLeUint64] at he
    split at he
    · next hn =>
      cases he
      refine (Reader.Reads.next 255).bind (reads_readLeUint 8 ?_)
      omega
    · cases he

theorem readVarint_local : readVarint.Local := by
  refine Reader.Local.next.bind fun n ↦ ?_
  split
  · exact .pure _
  split
  · exact readLeUint_local 2
  split
  · exact readLeUint_local 4
  · exact readLeUint_local 8

theorem reads_readVarbytes {data enc : Bytes} (h : packVarbytes data = .ok enc) :
    readVarbytes.Reads enc data := by
  obtain ⟨count, hc, h⟩ := bind_eq_ok.mp h
  cases h
  exact (reads_readVarint hc).bind ((Reader.Reads.take data).map _)

theorem readVarbytes_local : readVarbytes.Local :=
  readVarint_local.bind fun n ↦ (Reader.Local.take n).map

/-- A counted list is read back when its items are. -/
theorem reads_counted {α : Type} {read : Read α} {pack : α → Except PyError Bytes}
    (hread : ∀ x enc, pack x = .ok enc → read.Reads enc x) {xs : List α} {count : Bytes}
    {encs : List Bytes} (hc : packVarint xs.length = .ok count) (he : xs.mapM pack = .ok encs) :
    (do
      let n ← readVarint
      read.replicate n).Reads (count ++ encs.flatten) xs := by
  refine (reads_readVarint hc).bind (.replicate ?_)
  exact ((mapM_eq_ok.mp he).imp fun x enc ↦ hread x enc).flip

theorem counted_local {α : Type} {read : Read α} (h : read.Local) :
    (do
      let n ← readVarint
      read.replicate n).Local := readVarint_local.bind h.replicate

/-! ### Inputs and outputs -/

theorem reads_readInput (txin : TxInput) (enc : Bytes) (h : txin.serialize = .ok enc) :
    readInput.Reads enc txin := by
  obtain ⟨prevIdx, hp, h⟩ := bind_eq_ok.mp h
  obtain ⟨script, hs, h⟩ := bind_eq_ok.mp h
  obtain ⟨sequence, hq, h⟩ := bind_eq_ok.mp h
  cases h
  simp only [List.flatten_cons, List.flatten_nil]
  refine (Reader.Reads.take_of_length txin.prevHash.property).bind ?_
  refine (reads_readLeUint32 hp).bind ?_
  refine (reads_readVarbytes hs).bind ?_
  refine (reads_readLeUint32 hq).bind ?_
  rw [UInt32.ofNat_toNat, UInt32.ofNat_toNat]
  exact .pure txin

theorem readInput_local : readInput.Local := by
  refine (Reader.Local.take 32).bind fun prevHash ↦ ?_
  refine (readLeUint_local 4).bind fun prevIdx ↦ ?_
  exact readVarbytes_local.bind fun script ↦ (readLeUint_local 4).map

theorem reads_readOutput (txout : TxOutput) (enc : Bytes) (h : txout.serialize = .ok enc) :
    readOutput.Reads enc txout := by
  obtain ⟨value, hv, h⟩ := bind_eq_ok.mp h
  obtain ⟨pkScript, hs, h⟩ := bind_eq_ok.mp h
  cases h
  simp only [List.flatten_cons, List.flatten_nil]
  exact (reads_readLeInt64 hv).bind ((reads_readVarbytes hs).bind (.pure txout))

theorem readOutput_local : readOutput.Local := by
  refine Reader.Local.bind ?_ fun value ↦ readVarbytes_local.map
  exact (Reader.Local.take 8).map

/-! ### Transactions -/

section Tx

variable {tx : Tx} {inputs outputs locktime : Bytes}

/-- The serialization without witness is read back, and hashed. -/
theorem reads_readTx (txHashFn : Bytes → Hash32) (hi : readInputs.Reads inputs tx.inputs)
    (ho : readOutputs.Reads outputs tx.outputs)
    (hl : readLeUint32.Reads locktime tx.locktime.toNat) :
    (readTx txHashFn).Reads (packLeInt32 tx.version ++ (inputs ++ (outputs ++ locktime)))
      { tx with
        txid := txHashFn (packLeInt32 tx.version ++ (inputs ++ (outputs ++ locktime)))
        wtxid := txHashFn (packLeInt32 tx.version ++ (inputs ++ (outputs ++ locktime)))
        segwit := none } := by
  intro before after
  refine .bind_nil .cursor ?_
  refine .bind (reads_readLeInt32 _ _ _) ?_
  refine .bind (hi _ _) ?_
  refine .bind (ho _ _) ?_
  refine .bind_last (hl _ _) ?_
  refine .bind_last (.sliceFrom (packLeInt32 tx.version ++ (inputs ++ (outputs ++ locktime))) ?_) ?_
  · simp only [List.append_assoc]
  · rw [UInt32.ofNat_toNat]
    exact .pure _

theorem readTx_local (txHashFn : Bytes → Hash32) : (readTx txHashFn).Local := by
  refine Reader.Local.cursor.bind fun start ↦ ?_
  refine Reader.Local.bind (Reader.Local.take 4).map fun version ↦ ?_
  refine (counted_local readInput_local).bind fun inputs ↦ ?_
  refine (counted_local readOutput_local).bind fun outputs ↦ ?_
  refine (readLeUint_local 4).bind fun locktime ↦ ?_
  exact (Reader.Local.sliceFrom start).map

end Tx
end Deserializer

/-! ### The wire form of transactions -/

/-- A counted list, as `pack_varint` and its items write it. -/
def packCounted {α : Type} (pack : α → Except PyError Bytes) (xs : List α) :
    Except PyError Bytes := do
  let count ← packVarint xs.length
  let items ← xs.mapM pack
  return count ++ items.flatten

/-- The wire form of a transaction: its serialization, or that with marker, flag and one witness
stack for each input. -/
def Tx.encode (tx : Tx) : Except PyError Bytes :=
  match tx.segwit with
  | none => tx.serialize
  | some segwit => do
    let inputs ← packCounted TxInput.serialize tx.inputs
    let outputs ← packCounted TxOutput.serialize tx.outputs
    let witness ← segwit.witness.mapM (packCounted packVarbytes)
    let locktime ← packLeUint32 tx.locktime.toNat
    return [packLeInt32 tx.version, [segwit.marker, segwit.flag], inputs, outputs,
      witness.flatten, locktime].flatten

/-- A transaction without witness has an input; one with a witness has the marker 0 and a witness
stack for each input. -/
def Tx.WellFormed (tx : Tx) : Prop :=
  match tx.segwit with
  | none => tx.inputs ≠ []
  | some segwit => segwit.marker = 0 ∧ segwit.witness.length = tx.inputs.length

/-- A transaction as it is read: that of the wire, with the hash of its serialization. -/
structure Parsed (txHashFn : Bytes → Hash32) (tx tx' : Tx) : Prop where
  version_eq : tx'.version = tx.version
  inputs_eq : tx'.inputs = tx.inputs
  outputs_eq : tx'.outputs = tx.outputs
  locktime_eq : tx'.locktime = tx.locktime
  segwit_eq : tx'.segwit = tx.segwit
  txid : ∃ legacy, tx.serialize = .ok legacy ∧ tx'.txid = txHashFn legacy

theorem Tx.serialize_eq (tx : Tx) : tx.serialize = do
    let inputs ← packCounted TxInput.serialize tx.inputs
    let outputs ← packCounted TxOutput.serialize tx.outputs
    let locktime ← packLeUint32 tx.locktime.toNat
    return packLeInt32 tx.version ++ (inputs ++ (outputs ++ locktime)) := by
  simp only [Tx.serialize, packCounted, bind_assoc, pure_bind, List.flatten_cons,
    List.flatten_nil, List.append_nil, List.append_assoc]

theorem packVarint_head {n : Nat} {enc : Bytes} (h : packVarint n = .ok enc) (hn : n ≠ 0) :
    ∃ b rest, enc = b :: rest ∧ b ≠ 0 := by
  rw [packVarint] at h
  split at h
  · next hlt =>
    cases h
    refine ⟨_, [], rfl, fun he ↦ hn ?_⟩
    have hb : (UInt8.ofNat n).toNat = n := UInt8.toNat_ofNat_of_lt' (by change n < 256; omega)
    rw [← hb, he]
    rfl
  split at h
  · cases h
    exact ⟨_, _, rfl, by decide⟩
  split at h
  · cases h
    exact ⟨_, _, rfl, by decide⟩
  · obtain ⟨enc', -, h⟩ := bind_eq_ok.mp h
    cases h
    exact ⟨_, _, rfl, by decide⟩

namespace DeserializerSegWit
open Deserializer

theorem reads_packCounted {α : Type} {read : Read α} {pack : α → Except PyError Bytes}
    (hread : ∀ x enc, pack x = .ok enc → read.Reads enc x) {xs : List α} {enc : Bytes}
    (h : packCounted pack xs = .ok enc) :
    (do
      let n ← readVarint
      read.replicate n).Reads enc xs := by
  obtain ⟨count, hc, h⟩ := bind_eq_ok.mp h
  obtain ⟨encs, he, h⟩ := bind_eq_ok.mp h
  cases h
  exact reads_counted hread hc he

theorem reads_readWitness {witness : List (List Bytes)} {encs : List Bytes}
    (h : witness.mapM (packCounted packVarbytes) = .ok encs) :
    (readWitness witness.length).Reads encs.flatten witness := by
  refine .replicate ((mapM_eq_ok.mp h).imp fun items enc he ↦ ?_).flip
  exact reads_packCounted (fun _ _ ↦ reads_readVarbytes) he

theorem readWitness_local (fields : Nat) : (readWitness fields).Local :=
  (counted_local readVarbytes_local).replicate fields

/-- The transaction that is read does not depend on what follows, unlike the virtual size. -/
theorem readTxParts_localIn (txHashFn : Bytes → Hash32) :
    (readTxParts txHashFn).LocalIn Prod.fst := by
  refine .bind .cursor fun start ↦ .bind (.peek 4) fun marker ↦ ?_
  split
  · refine .bind (readTx_local txHashFn) fun tx ↦ ?_
    exact .length fun _ _ ↦ rfl
  · refine .bind (Reader.Local.take 4).map fun version ↦ ?_
    refine .bind (.sliceFrom start) fun origVersion ↦ ?_
    refine .bind .next fun marker ↦ .bind .next fun flag ↦ ?_
    refine .bind .cursor fun start ↦ ?_
    refine .bind (counted_local readInput_local) fun inputs ↦ ?_
    refine .bind (counted_local readOutput_local) fun outputs ↦ ?_
    refine .bind (.sliceFrom start) fun origBody ↦ .bind .cursor fun stop ↦ ?_
    refine .bind (readWitness_local inputs.length) fun witness ↦ .bind .cursor fun start ↦ ?_
    refine .bind (readLeUint_local 4) fun locktime ↦ .bind (.sliceFrom start) fun origLocktime ↦ ?_
    exact .length fun _ _ ↦ rfl

theorem readTx_local (txHashFn : Bytes → Hash32) : (readTx txHashFn).Local :=
  (readTxParts_localIn txHashFn).map

section Tx

variable {tx : Tx} {inputs outputs locktime : Bytes}

/-- The byte after the version of an encoded transaction. -/
theorem getElem?_marker (version : Int32) (b : UInt8) (rest after : Bytes) :
    (packLeInt32 version ++ (b :: rest) ++ after)[4]? = some b := by
  have hl : (packLeInt32 version).length = 4 := length_packLE 4 _
  rw [List.append_assoc, List.getElem?_append_right (by omega), hl]
  rfl

/-- A serialization without witness; its virtual size is the length of the whole buffer. -/
theorem reads_legacy (txHashFn : Bytes → Hash32) (hi : readInputs.Reads inputs tx.inputs)
    (ho : readOutputs.Reads outputs tx.outputs)
    (hl : readLeUint32.Reads locktime tx.locktime.toNat) {b : UInt8} {rest : Bytes}
    (hb : inputs = b :: rest) (hne : b ≠ 0) (before after : Bytes) :
    (readTxParts txHashFn).ReadsAt before
      (packLeInt32 tx.version ++ (inputs ++ (outputs ++ locktime))) after
      ({ tx with
          txid := txHashFn (packLeInt32 tx.version ++ (inputs ++ (outputs ++ locktime)))
          wtxid := txHashFn (packLeInt32 tx.version ++ (inputs ++ (outputs ++ locktime)))
          segwit := none },
        (before ++ (packLeInt32 tx.version ++ (inputs ++ (outputs ++ locktime))) ++
          after).length) := by
  refine .bind_nil .cursor (.bind_nil (.peek (x := b) ?_) ?_)
  · rw [hb]
    exact getElem?_marker ..
  · rw [if_pos hne]
    refine .bind_last (Deserializer.reads_readTx txHashFn hi ho hl _ _) ?_
    exact .bind_nil (.length rfl) (.pure _)

/-- A serialization with witness; what is hashed for `txid` leaves out marker, flag and witness,
and what is hashed for `wtxid` is the locktime. -/
theorem reads_segwit (txHashFn : Bytes → Hash32) (hi : readInputs.Reads inputs tx.inputs)
    (ho : readOutputs.Reads outputs tx.outputs)
    (hl : readLeUint32.Reads locktime tx.locktime.toNat) {witness : List (List Bytes)}
    {fields : Bytes} (hw : (readWitness tx.inputs.length).Reads fields witness) (flag : UInt8)
    (before after : Bytes) :
    (readTxParts txHashFn).ReadsAt before
      (packLeInt32 tx.version ++ ([0] ++ ([flag] ++ (inputs ++ (outputs ++ (fields ++ locktime))))))
      after
      ({ tx with
          txid := txHashFn (packLeInt32 tx.version ++ (inputs ++ outputs) ++ locktime)
          wtxid := txHashFn locktime
          segwit := some ⟨0, flag, witness⟩ },
        (3 * (inputs ++ outputs).length + (before ++ (packLeInt32 tx.version ++ ([0] ++ ([flag] ++
          (inputs ++ (outputs ++ (fields ++ locktime)))))) ++ after).length) / 4) := by
  refine .bind_nil .cursor (.bind_nil (.peek (x := 0) ?_) ?_)
  · exact getElem?_marker ..
  · rw [if_neg (by simp)]
    refine .bind (reads_readLeInt32 _ _ _) ?_
    refine .bind_nil (.sliceFrom (packLeInt32 tx.version) rfl) ?_
    refine .bind (Reader.Reads.next 0 _ _) ?_
    refine .bind (Reader.Reads.next flag _ _) ?_
    refine .bind_nil .cursor ?_
    refine .bind (hi _ _) (.bind (ho _ _) ?_)
    refine .bind_nil (.sliceFrom (inputs ++ outputs) (by simp only [List.append_assoc])) ?_
    refine .bind_nil .cursor ?_
    refine .bind (hw _ _) (.bind_nil .cursor (.bind_last (hl _ _) ?_))
    refine .bind_nil (.sliceFrom locktime rfl) (.bind_nil (.length rfl) ?_)
    have hbase : (before ++ packLeInt32 tx.version ++ [0] ++ [flag] ++ inputs ++ outputs).length -
        (before ++ packLeInt32 tx.version ++ [0] ++ [flag]).length = (inputs ++ outputs).length := by
      simp only [List.length_append]
      omega
    rw [UInt32.ofNat_toNat, hbase]
    simp only [List.append_assoc]
    exact .pure _

end Tx

/-- The wire form of a well formed transaction is read back. -/
theorem exists_parsed (txHashFn : Bytes → Hash32) {tx : Tx} (hw : tx.WellFormed) {enc : Bytes}
    (he : tx.encode = .ok enc) :
    ∃ tx', (readTx txHashFn).Reads enc tx' ∧ Parsed txHashFn tx tx' := by
  rw [Tx.encode] at he
  rw [Tx.WellFormed] at hw
  split at he
  · next hs =>
    rw [hs] at hw
    have hser := he
    rw [Tx.serialize_eq] at he
    obtain ⟨inputs, hi, he⟩ := bind_eq_ok.mp he
    obtain ⟨outputs, ho, he⟩ := bind_eq_ok.mp he
    obtain ⟨locktime, hl, he⟩ := bind_eq_ok.mp he
    cases he
    obtain ⟨count, hc, hb⟩ := bind_eq_ok.mp hi
    obtain ⟨items, -, hb⟩ := bind_eq_ok.mp hb
    obtain ⟨b, rest, rfl, hne⟩ := packVarint_head hc fun h ↦ hw (List.eq_nil_of_length_eq_zero h)
    have hparts := reads_legacy txHashFn (reads_packCounted reads_readInput hi)
      (reads_packCounted reads_readOutput ho) (reads_readLeUint32 hl) (Except.ok.inj hb).symm hne
    exact ⟨_, fun before after ↦ .bind_last (hparts before after) (.pure _),
      rfl, rfl, rfl, rfl, hs.symm, _, hser, rfl⟩
  · next segwit hs =>
    obtain ⟨marker, flag, witnesses⟩ := segwit
    rw [hs] at hw
    obtain ⟨hm, hlen⟩ : marker = 0 ∧ witnesses.length = tx.inputs.length := hw
    subst hm
    obtain ⟨inputs, hi, he⟩ := bind_eq_ok.mp he
    obtain ⟨outputs, ho, he⟩ := bind_eq_ok.mp he
    obtain ⟨witness, hwit, he⟩ := bind_eq_ok.mp he
    obtain ⟨locktime, hl, he⟩ := bind_eq_ok.mp he
    cases he
    have hparts := reads_segwit txHashFn (reads_packCounted reads_readInput hi)
      (reads_packCounted reads_readOutput ho) (reads_readLeUint32 hl)
      (hlen ▸ reads_readWitness hwit) flag
    have hread : (readTx txHashFn).Reads _ _ := fun before after ↦
      .bind_last (hparts before after) (.pure _)
    have hser : tx.serialize =
        .ok (packLeInt32 tx.version ++ (inputs ++ outputs) ++ locktime) := by
      rw [Tx.serialize_eq, hi, ho, hl]
      simp only [List.append_assoc]
      rfl
    simp only [List.flatten_cons, List.flatten_nil, List.append_nil]
    exact ⟨_, hread, rfl, rfl, rfl, rfl, hs.symm, _, hser, rfl⟩

/-- The wire forms of well formed transactions are read back in order. -/
theorem exists_parsed_list (txHashFn : Bytes → Hash32) {txs : List Tx} {encs : List Bytes}
    (hw : ∀ tx ∈ txs, tx.WellFormed) (he : txs.mapM Tx.encode = .ok encs) :
    ∃ txs', List.Forall₂ (readTx txHashFn).Reads encs txs' ∧
      List.Forall₂ (Parsed txHashFn) txs txs' := by
  induction mapM_eq_ok.mp he with
  | nil => exact ⟨[], .nil, .nil⟩
  | @cons tx enc txs encs hx hxs ih =>
    obtain ⟨tx', hr, hp⟩ := exists_parsed txHashFn (hw tx List.mem_cons_self) hx
    obtain ⟨txs', hrs, hps⟩ := ih (fun tx h ↦ hw tx (List.mem_cons_of_mem _ h))
      (mapM_eq_ok.mpr hxs)
    exact ⟨tx' :: txs', .cons hr hrs, .cons hp hps⟩

/-- The transactions of a block are read back in order. -/
theorem reads_readTxBlock (txHashFn : Bytes → Hash32) {txs : List Tx} {count : Bytes}
    {encs : List Bytes} (hw : ∀ tx ∈ txs, tx.WellFormed) (hc : packVarint txs.length = .ok count)
    (he : txs.mapM Tx.encode = .ok encs) :
    ∃ txs', (readTxBlock (readTx txHashFn)).Reads (count ++ encs.flatten) txs' ∧
      List.Forall₂ (Parsed txHashFn) txs txs' := by
  obtain ⟨txs', hrs, hps⟩ := exists_parsed_list txHashFn hw he
  refine ⟨txs', (reads_readVarint hc).bind ?_, hps⟩
  rw [hps.length_eq]
  exact .replicate hrs

theorem readTxBlock_local (txHashFn : Bytes → Hash32) :
    (readTxBlock (readTx txHashFn)).Local := counted_local (readTx_local txHashFn)

end DeserializerSegWit

/-! ### Blocks -/

namespace Coin

variable {sha256 : Bytes → Hash32} {header : Bytes}

theorem block_fixedCoin (hh : header.length = basicHeaderSize) (body : Bytes) (height : Int) :
    (fixedCoin sha256).block (header ++ body) height = do
      let (txs, _) ← (Deserializer.readTxBlock
        (DeserializerSegWit.readTx (fixedCoin sha256).doubleSha256)).run (header ++ body)
          header.length
      return ⟨header ++ body, header, txs⟩ := by
  have hlen : (staticHeaderLen height).toNat = header.length := by
    rw [hh, staticHeaderLen, staticHeaderOffset, staticHeaderOffset, basicHeaderSize]
    omega
  have hstatic : (fixedCoin sha256).staticBlockHeaders = true := rfl
  have hheader : (fixedCoin sha256).blockHeader (header ++ body) height = header := by
    rw [blockHeader, if_pos hstatic, hlen, List.take_left]
  rw [block, hheader]
  simp only [fixedCoin, bind_assoc, pure_bind]
  rfl

/-- A block of well formed transactions is read back, with the hash of each serialization as
txid and whatever follows it, and no part of it is read that is cut off after the header. -/
theorem block_parses (sha256 : Bytes → Hash32) {header : Bytes}
    (hh : header.length = basicHeaderSize) {txs : List Tx} (hw : ∀ tx ∈ txs, tx.WellFormed)
    {count : Bytes} {encs : List Bytes} (hc : packVarint txs.length = .ok count)
    (he : txs.mapM Tx.encode = .ok encs) (height : Int) :
    (∃ txs', List.Forall₂ (Parsed (fixedCoin sha256).doubleSha256) txs txs' ∧
      ∀ trailing, (fixedCoin sha256).block (header ++ (count ++ encs.flatten ++ trailing)) height =
        .ok ⟨header ++ (count ++ encs.flatten ++ trailing), header, txs'⟩) ∧
    ∀ part, part <+: count ++ encs.flatten → part ≠ count ++ encs.flatten →
      ∃ e, (fixedCoin sha256).block (header ++ part) height = .error e := by
  obtain ⟨txs', hr, hp⟩ := DeserializerSegWit.reads_readTxBlock
    (fixedCoin sha256).doubleSha256 hw hc he
  refine ⟨⟨txs', hp, fun trailing ↦ ?_⟩, fun part hpre hne ↦ ?_⟩
  · rw [block_fixedCoin hh, hr header trailing]
    rfl
  · obtain ⟨e, hrun⟩ := hr.error_of_prefix (DeserializerSegWit.readTxBlock_local _) hpre hne header
    rw [block_fixedCoin hh, hrun]
    exact ⟨e, rfl⟩

/-- A generation transaction with its witness, and a legacy transaction that spends it. -/
def sampleWireTxs : List Tx :=
  [{ inputs := [{ prevHash := zeroHash, prevIdx := minus1, script := [1, 2] }]
     outputs := [⟨50, [81]⟩, ⟨0, List.replicate 300 106⟩]
     txid := zeroHash
     segwit := some ⟨0, 1, [[List.replicate 32 0]]⟩ },
   { version := -1, inputs := [{ prevHash := zeroHash, prevIdx := 0 }], outputs := []
     txid := zeroHash }]

theorem sampleBlock_parses : ∃ count encs, packVarint sampleWireTxs.length = .ok count ∧
    sampleWireTxs.mapM Tx.encode = .ok encs ∧
    ∀ sha256 : Bytes → Hash32, ∃ txs',
      List.Forall₂ (Parsed (fixedCoin sha256).doubleSha256) sampleWireTxs txs' ∧
      ∀ trailing, (fixedCoin sha256).block
        (List.replicate 80 7 ++ (count ++ encs.flatten ++ trailing)) 100 =
          .ok ⟨List.replicate 80 7 ++ (count ++ encs.flatten ++ trailing), List.replicate 80 7,
            txs'⟩ := by
  obtain ⟨count, hc, -⟩ : ∃ count, packVarint sampleWireTxs.length = .ok count ∧ True := by
    decide +kernel
  obtain ⟨encs, he, -⟩ : ∃ encs, sampleWireTxs.mapM Tx.encode = .ok encs ∧ True := by
    decide +kernel
  have hw : ∀ tx ∈ sampleWireTxs, tx.WellFormed :=
    List.forall_mem_cons.mpr ⟨⟨rfl, rfl⟩, List.forall_mem_cons.mpr ⟨List.cons_ne_nil _ _, nofun⟩⟩
  exact ⟨count, encs, hc, he, fun sha256 ↦
    (block_parses sha256 (List.length_replicate) hw hc he 100).1⟩

end Coin
end ElectrumX.Lib
