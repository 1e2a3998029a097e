import ElectrumX.Base.Extent
import ElectrumX.Lib.TxDash
import ElectrumX.Lib.Wire

/-!
# Decred blocks

The model of `DeserializerDecred` in `lib/tx.py` and of `Decred.block`. A block has two trees of
transactions, the regular one and that of the stake. What identifies a transaction leaves its
witnesses out. The hash `blake256` is a parameter.
-/

namespace ElectrumX.Lib
open ElectrumX.Base

/-- `TxInputDcr`, `lib/tx.py:1091–1097`. -/
structure TxInputDcr where
  prevHash : Hash32
  prevIdx : UInt32
  tree : UInt8
  sequence : UInt32
  deriving DecidableEq, Repr

/-- `TxOutputDcr`, `lib/tx.py:1109–1114`. -/
structure TxOutputDcr where
  value : Int
  version : UInt16
  pkScript : Bytes
  deriving DecidableEq, Repr

/-- The tuple that `_read_witness_field` returns, `lib/tx.py:1169–1174`. -/
structure WitnessDcr where
  valueIn : Int
  blockHeight : UInt32
  blockIndex : UInt32
  script : Bytes
  deriving DecidableEq, Repr

/-- `TxDcr`, `lib/tx.py:1117–1121`. -/
structure TxDcr where
  version : Int32
  inputs : List TxInputDcr
  outputs : List TxOutputDcr
  locktime : UInt32
  expiry : UInt32
  witness : List WitnessDcr
  txid : Hash32
  wtxid : Hash32 := txid
  deriving DecidableEq, Repr

/-- A `Block` of such transactions. -/
structure BlockDcr where
  raw : Bytes
  header : Bytes
  transactions : List TxDcr
  deriving DecidableEq, Repr

namespace DeserializerDecred
open Deserializer

/-- `_read_input`, `lib/tx.py:1149–1155`. -/
def readInput : Read TxInputDcr := do
  let prevHash ← readNbytes 32
  let prevIdx ← readLeUint32
  let tree ← readByte
  let sequence ← readLeUint32
  return { prevHash, prevIdx := .ofNat prevIdx, tree, sequence := .ofNat sequence }

/-- `_read_inputs`, `lib/tx.py:163`. -/
def readInputs : Read (List TxInputDcr) := do
  let n ← readVarint
  readInput.replicate n

/-- `_read_output`, `lib/tx.py:1157–1162`. -/
def readOutput : Read TxOutputDcr := do
  let value ← readLeInt64
  let version ← readLeUint16
  let pkScript ← readVarbytes
  return { value, version := .ofNat version, pkScript }

/-- `_read_outputs`, `lib/tx.py:175`. -/
def readOutputs : Read (List TxOutputDcr) := do
  let n ← readVarint
  readOutput.replicate n

/-- `_read_witness_field`, `lib/tx.py:1169–1174`. -/
def readWitnessField : Read WitnessDcr := do
  let valueIn ← readLeInt64
  let blockHeight ← readLeUint32
  let blockIndex ← readLeUint32
  let script ← readVarbytes
  return { valueIn, blockHeight := .ofNat blockHeight, blockIndex := .ofNat blockIndex, script }

/-- `_read_witness`, `lib/tx.py:1164–1167`. -/
def readWitness (fields : Nat) : Read (List WitnessDcr) := do
  let count ← readVarint
  let _ ← DeserializerDash.step (assertThat (fields = count))
  readWitnessField.replicate fields

/-- The version of what is hashed, `lib/tx.py:1186–1187`: the lower half of the version, and that
the witnesses are left out. -/
def noWitnessHeader (version : Int32) : Bytes :=
  packLE 4 (0x10000 ||| (version.toUInt32.toNat &&& 0xffff))

section Read

variable (blake256 : Bytes → Hash32)

/-- `_read_tx_parts`, `lib/tx.py:1176–1200`. -/
def readTxParts : Read (TxDcr × Nat) := do
  let start ← Reader.cursor
  let version ← readLeInt32
  let inputs ← readInputs
  let outputs ← readOutputs
  let locktime ← readLeUint32
  let expiry ← readLeUint32
  let body ← Reader.sliceFrom (start + 4)
  let witness ← readWitness inputs.length
  let txHash := blake256 (noWitnessHeader version ++ body)
  let stop ← Reader.cursor
  let tx : TxDcr :=
    { version, inputs, outputs, locktime := .ofNat locktime, expiry := .ofNat expiry, witness
      txid := txHash, wtxid := txHash }
  return (tx, stop - start)

/-- `read_tx`, `lib/tx.py:1135`. -/
def readTx : Read TxDcr := do
  let (tx, _) ← readTxParts blake256
  return tx

/-- `read_tx_tree`, `lib/tx.py:1144–1147`. -/
def readTxTree : Read (List TxDcr) := do
  let n ← readVarint
  (readTx blake256).replicate n

/-- `read_tx_block`, `lib/tx.py:1138–1142`. -/
def readTxBlock : Read (List TxDcr) := do
  let txs ← readTxTree blake256
  let stxs ← readTxTree blake256
  return txs ++ stxs

end Read
end DeserializerDecred

namespace Decred

/-- `BASIC_HEADER_SIZE`, `coins.py:2422`. -/
def basicHeaderSize : Nat := 180

/-- `Decred.block`, `coins.py:2449–2455`, with the `block_header` of static headers. -/
def block (blake256 : Bytes → Hash32) (rawBlock : Bytes) (height : Int) :
    Except PyError BlockDcr := do
  let header := rawBlock.take basicHeaderSize
  if height > 0 then do
    let (txs, _) ← (DeserializerDecred.readTxBlock blake256).run rawBlock header.length
    return ⟨rawBlock, header, txs⟩
  else return ⟨rawBlock, header, []⟩

end Decred

/-! ### The wire form -/

def TxInputDcr.encode (txin : TxInputDcr) : Except PyError Bytes := do
  let prevIdx ← packLeUint32 txin.prevIdx.toNat
  let sequence ← packLeUint32 txin.sequence.toNat
  return txin.prevHash.val ++ (prevIdx ++ ([txin.tree] ++ sequence))

def TxOutputDcr.encode (txout : TxOutputDcr) : Except PyError Bytes := do
  let value ← packLeInt64 txout.value
  let version ← packLeUint16 txout.version.toNat
  let pkScript ← packVarbytes txout.pkScript
  return value ++ (version ++ pkScript)

def WitnessDcr.encode (field : WitnessDcr) : Except PyError Bytes := do
  let valueIn ← packLeInt64 field.valueIn
  let blockHeight ← packLeUint32 field.blockHeight.toNat
  let blockIndex ← packLeUint32 field.blockIndex.toNat
  let script ← packVarbytes field.script
  return valueIn ++ (blockHeight ++ (blockIndex ++ script))

/-- What stands between the version and the witnesses. -/
def TxDcr.encodeBody (tx : TxDcr) : Except PyError Bytes := do
  let inputs ← packCounted TxInputDcr.encode tx.inputs
  let outputs ← packCounted TxOutputDcr.encode tx.outputs
  let locktime ← packLeUint32 tx.locktime.toNat
  let expiry ← packLeUint32 tx.expiry.toNat
  return inputs ++ (outputs ++ (locktime ++ expiry))

/-- The wire form of a transaction. -/
def TxDcr.encode (tx : TxDcr) : Except PyError Bytes := do
  let body ← tx.encodeBody
  let witness ← packCounted WitnessDcr.encode tx.witness
  return packLeInt32 tx.version ++ (body ++ witness)

/-- A transaction has one witness for each input. -/
def TxDcr.WellFormed (tx : TxDcr) : Prop := tx.witness.length = tx.inputs.length

/-- A transaction as it is read: that of the wire, with the hash of what it is without its
witnesses. -/
def TxDcr.Parsed (blake256 : Bytes → Hash32) (tx tx' : TxDcr) : Prop :=
  ∃ body, tx.encodeBody = .ok body ∧
    tx' = { tx with
      txid := blake256 (DeserializerDecred.noWitnessHeader tx.version ++ body)
      wtxid := blake256 (DeserializerDecred.noWitnessHeader tx.version ++ body) }

namespace DeserializerDecred
open Deserializer

/-! ### Reading back -/

theorem reads_readLeUint16 {n : Nat} {enc : Bytes} (h : packLeUint16 n = .ok enc) :
    readLeUint16.Reads enc n := by
  rw [packLeUint16] at h
  split at h
  · next hn =>
    cases h
    exact reads_readLeUint 2 hn
  · cases h

theorem reads_readInput (txin : TxInputDcr) (enc : Bytes) (h : txin.encode = .ok enc) :
    readInput.Reads enc txin := by
  obtain ⟨prevIdx, hp, h⟩ := bind_eq_ok.mp h
  obtain ⟨sequence, hq, h⟩ := bind_eq_ok.mp h
  cases h
  refine (Reader.Reads.take_of_length txin.prevHash.property).bind ?_
  refine (reads_readLeUint32 hp).bind ?_
  refine (Reader.Reads.next txin.tree).bind ?_
  rw [UInt32.ofNat_toNat]
  have hread := (reads_readLeUint32 hq).map fun sequence ↦
    { txin with sequence := UInt32.ofNat sequence }
  rwa [UInt32.ofNat_toNat] at hread

theorem reads_readOutput (txout : TxOutputDcr) (enc : Bytes) (h : txout.encode = .ok enc) :
    readOutput.Reads enc txout := by
  obtain ⟨value, hv, h⟩ := bind_eq_ok.mp h
  obtain ⟨version, hver, h⟩ := bind_eq_ok.mp h
  obtain ⟨pkScript, hs, h⟩ := bind_eq_ok.mp h
  cases h
  refine (reads_readLeInt64 hv).bind ((reads_readLeUint16 hver).bind ?_)
  rw [UInt16.ofNat_toNat]
  exact (reads_readVarbytes hs).map _

theorem reads_readWitnessField (field : WitnessDcr) (enc : Bytes) (h : field.encode = .ok enc) :
    readWitnessField.Reads enc field := by
  obtain ⟨valueIn, hv, h⟩ := bind_eq_ok.mp h
  obtain ⟨blockHeight, hh, h⟩ := bind_eq_ok.mp h
  obtain ⟨blockIndex, hi, h⟩ := bind_eq_ok.mp h
  obtain ⟨script, hs, h⟩ := bind_eq_ok.mp h
  cases h
  refine (reads_readLeInt64 hv).bind ((reads_readLeUint32 hh).bind ?_)
  refine (reads_readLeUint32 hi).bind ?_
  rw [UInt32.ofNat_toNat, UInt32.ofNat_toNat]
  exact (reads_readVarbytes hs).map _

theorem reads_readWitness {witness : List WitnessDcr} {enc : Bytes}
    (h : packCounted WitnessDcr.encode witness = .ok enc) :
    (readWitness witness.length).Reads enc witness := by
  obtain ⟨count, hc, h⟩ := bind_eq_ok.mp h
  obtain ⟨encs, he, h⟩ := bind_eq_ok.mp h
  cases h
  have hstep : (DeserializerDash.step (assertThat (witness.length = witness.length)) :
      Read Unit).Reads [] () := by
    intro before after
    rw [assertThat, if_pos rfl]
    rfl
  have hfields : (readWitnessField.replicate witness.length).Reads encs.flatten witness :=
    .replicate ((mapM_eq_ok.mp he).imp fun field enc ↦ reads_readWitnessField field enc).flip
  exact (reads_readVarint hc).bind (hstep.bind hfields)

/-- The wire form of a transaction is read back, and what is hashed leaves the witnesses out. -/
theorem exists_parsed (blake256 : Bytes → Hash32) {tx : TxDcr} (hw : tx.WellFormed) {enc : Bytes}
    (he : tx.encode = .ok enc) :
    ∃ tx', (readTx blake256).Reads enc tx' ∧ tx.Parsed blake256 tx' := by
  obtain ⟨body, hbody, he⟩ := bind_eq_ok.mp he
  obtain ⟨witness, hwit, he⟩ := bind_eq_ok.mp he
  cases he
  refine ⟨_, fun before after ↦ ?_, body, hbody, rfl⟩
  obtain ⟨inputs, hi, hb⟩ := bind_eq_ok.mp hbody
  obtain ⟨outputs, ho, hb⟩ := bind_eq_ok.mp hb
  obtain ⟨locktime, hl, hb⟩ := bind_eq_ok.mp hb
  obtain ⟨expiry, hx, hb⟩ := bind_eq_ok.mp hb
  cases hb
  have hinputs : readInputs.Reads inputs tx.inputs :=
    DeserializerSegWit.reads_packCounted reads_readInput hi
  have houtputs : readOutputs.Reads outputs tx.outputs :=
    DeserializerSegWit.reads_packCounted reads_readOutput ho
  have hwitness : (readWitness tx.inputs.length).Reads witness tx.witness := by
    have hread := reads_readWitness hwit
    rwa [show tx.witness.length = tx.inputs.length from hw] at hread
  have hstart : before.length + 4 = (before ++ packLeInt32 tx.version).length := by
    rw [List.length_append, packLeInt32, length_packLE]
  have hslice : (Reader.sliceFrom (before.length + 4) : Read Bytes).ReadsAt
      (before ++ packLeInt32 tx.version ++ inputs ++ outputs ++ locktime ++ expiry) []
      (witness ++ after) (inputs ++ (outputs ++ (locktime ++ expiry))) := by
    rw [hstart]
    exact .sliceFrom _ (by simp only [List.append_assoc])
  have hparts : (readTxParts blake256).ReadsAt before
      (packLeInt32 tx.version ++ (inputs ++ (outputs ++ (locktime ++ (expiry ++ witness))))) after
      ({ tx with
          txid := blake256 (noWitnessHeader tx.version ++
            (inputs ++ (outputs ++ (locktime ++ expiry))))
          wtxid := blake256 (noWitnessHeader tx.version ++
            (inputs ++ (outputs ++ (locktime ++ expiry)))) },
        (before ++ packLeInt32 tx.version ++ inputs ++ outputs ++ locktime ++ expiry ++
          witness).length - before.length) := by
    refine .bind_nil .cursor (.bind (reads_readLeInt32 _ _ _) (.bind (hinputs _ _) ?_))
    refine .bind (houtputs _ _) (.bind (reads_readLeUint32 hl _ _) ?_)
    refine .bind (reads_readLeUint32 hx _ _) (.bind_nil hslice ?_)
    rw [UInt32.ofNat_toNat, UInt32.ofNat_toNat]
    exact .bind_last (hwitness _ _) (.bind_nil .cursor (.pure _))
  simp only [List.append_assoc]
  exact .bind_last hparts (.pure _)

theorem exists_parsed_list (blake256 : Bytes → Hash32) {txs : List TxDcr} {encs : List Bytes}
    (hw : ∀ tx ∈ txs, tx.WellFormed) (he : txs.mapM TxDcr.encode = .ok encs) :
    ∃ txs', List.Forall₂ (readTx blake256).Reads encs txs' ∧
      List.Forall₂ (TxDcr.Parsed blake256) txs txs' := by
  induction mapM_eq_ok.mp he with
  | nil => exact ⟨[], .nil, .nil⟩
  | @cons tx enc txs encs hx hxs ih =>
    obtain ⟨tx', hr, hp⟩ := exists_parsed blake256 (hw tx List.mem_cons_self) hx
    obtain ⟨txs', hrs, hps⟩ := ih (fun tx h ↦ hw tx (List.mem_cons_of_mem _ h))
      (mapM_eq_ok.mpr hxs)
    exact ⟨tx' :: txs', .cons hr hrs, .cons hp hps⟩

/-- A tree of transactions is read back in order. -/
theorem reads_readTxTree (blake256 : Bytes → Hash32) {txs : List TxDcr}
    (hw : ∀ tx ∈ txs, tx.WellFormed) {enc : Bytes} (he : packCounted TxDcr.encode txs = .ok enc) :
    ∃ txs', (readTxTree blake256).Reads enc txs' ∧
      List.Forall₂ (TxDcr.Parsed blake256) txs txs' := by
  obtain ⟨count, hc, he⟩ := bind_eq_ok.mp he
  obtain ⟨encs, hencs, he⟩ := bind_eq_ok.mp he
  cases he
  obtain ⟨txs', hrs, hps⟩ := exists_parsed_list blake256 hw hencs
  refine ⟨txs', (reads_readVarint hc).bind ?_, hps⟩
  rw [hps.length_eq]
  exact .replicate hrs

/-! ### What is cut off -/

theorem readInput_local : readInput.Local := by
  refine (Reader.Local.take 32).bind fun prevHash ↦ (readLeUint_local 4).bind fun prevIdx ↦ ?_
  exact Reader.Local.next.bind fun tree ↦ (readLeUint_local 4).map

theorem readOutput_local : readOutput.Local := by
  refine Reader.Local.bind (Reader.Local.take 8).map fun value ↦ ?_
  exact (readLeUint_local 2).bind fun version ↦ readVarbytes_local.map

theorem readWitnessField_local : readWitnessField.Local := by
  refine Reader.Local.bind (Reader.Local.take 8).map fun valueIn ↦ ?_
  refine (readLeUint_local 4).bind fun blockHeight ↦ (readLeUint_local 4).bind fun blockIndex ↦ ?_
  exact readVarbytes_local.map

theorem step_local {α : Type} (x : Except PyError α) : (DeserializerDash.step x).Local := by
  intro binary start stop a hle h
  obtain ⟨a', rfl, h⟩ := bind_eq_ok.mp h
  cases h
  exact ⟨hle, fun after ↦ rfl⟩

theorem readWitness_local (fields : Nat) : (readWitness fields).Local :=
  readVarint_local.bind fun _ ↦ (step_local _).bind fun _ ↦
    readWitnessField_local.replicate fields

theorem readTx_local (blake256 : Bytes → Hash32) : (readTx blake256).Local := by
  refine Reader.Local.map (Reader.Local.cursor.bind fun start ↦ ?_)
  refine Reader.Local.bind (Reader.Local.take 4).map fun version ↦ ?_
  refine (counted_local readInput_local).bind fun inputs ↦ ?_
  refine (counted_local readOutput_local).bind fun outputs ↦ ?_
  refine (readLeUint_local 4).bind fun locktime ↦ (readLeUint_local 4).bind fun expiry ↦ ?_
  refine (Reader.Local.sliceFrom (start + 4)).bind fun body ↦ ?_
  exact (readWitness_local inputs.length).bind fun witness ↦ Reader.Local.cursor.map

theorem readTxTree_local (blake256 : Bytes → Hash32) : (readTxTree blake256).Local :=
  counted_local (readTx_local blake256)

theorem readTxBlock_local (blake256 : Bytes → Hash32) : (readTxBlock blake256).Local :=
  (readTxTree_local blake256).bind fun _ ↦ (readTxTree_local blake256).map

/-- Nothing is read at the end of the buffer. -/
theorem readTxBlock_end (blake256 : Bytes → Hash32) (binary : Bytes) :
    (readTxBlock blake256).run binary binary.length = .error .indexError := by
  have hnext : readByte.run binary binary.length = .error .indexError :=
    Reader.run_next_end (Nat.le_refl _)
  have hcount : readVarint.run binary binary.length = .error .indexError :=
    Reader.run_bind_error hnext
  exact Reader.run_bind_error (Reader.run_bind_error hcount)

end DeserializerDecred

namespace Decred
open DeserializerDecred

theorem block_of_reads {blake256 : Bytes → Hash32} {header : Bytes}
    (hh : header.length = basicHeaderSize) {body : Bytes} {txs : List TxDcr}
    (hread : (readTxBlock blake256).Reads body txs) {height : Int} (hheight : 0 < height)
    (trailing : Bytes) :
    block blake256 (header ++ (body ++ trailing)) height =
      .ok ⟨header ++ (body ++ trailing), header, txs⟩ := by
  have htake : (header ++ (body ++ trailing)).take basicHeaderSize = header := by
    rw [← hh, List.take_left]
  rw [block, if_pos hheight, htake, hread header trailing]
  rfl

/-- **Decred blocks are read back**: the regular transactions and then those of the stake, each
with the hash of what it is without its witnesses, whatever follows them, and no part of the block
is accepted that is cut off anywhere. -/
theorem block_reads_trees (blake256 : Bytes → Hash32) {header : Bytes}
    (hh : header.length = basicHeaderSize) {txs stxs : List TxDcr}
    (hw : ∀ tx ∈ txs, tx.WellFormed) (hws : ∀ tx ∈ stxs, tx.WellFormed) {tree stake : Bytes}
    (ht : packCounted TxDcr.encode txs = .ok tree)
    (hs : packCounted TxDcr.encode stxs = .ok stake) {height : Int} (hheight : 0 < height) :
    (∃ txs' stxs', List.Forall₂ (TxDcr.Parsed blake256) txs txs' ∧
      List.Forall₂ (TxDcr.Parsed blake256) stxs stxs' ∧ ∀ trailing,
        block blake256 (header ++ (tree ++ stake ++ trailing)) height =
          .ok ⟨header ++ (tree ++ stake ++ trailing), header, txs' ++ stxs'⟩) ∧
    ∀ part, part <+: header ++ (tree ++ stake) → part ≠ header ++ (tree ++ stake) →
      ∃ e, block blake256 part height = .error e := by
  obtain ⟨txs', hr, hp⟩ := reads_readTxTree blake256 hw ht
  obtain ⟨stxs', hrs, hps⟩ := reads_readTxTree blake256 hws hs
  have hread : (readTxBlock blake256).Reads (tree ++ stake) (txs' ++ stxs') := hr.bind (hrs.map _)
  refine ⟨⟨txs', stxs', hp, hps, block_of_reads hh hread hheight⟩, fun part hpre hne ↦ ?_⟩
  rw [block, if_pos hheight]
  by_cases hshort : part.length < basicHeaderSize
  · -- within the header, no byte is left for the number of transactions
    rw [List.take_of_length_le hshort.le, readTxBlock_end]
    exact ⟨_, rfl⟩
  · obtain ⟨body, rfl⟩ : header <+: part :=
      List.prefix_of_prefix_length_le (List.prefix_append _ _) hpre (by omega)
    have hbody : body <+: tree ++ stake := (List.prefix_append_right_inj header).mp hpre
    have hbne : body ≠ tree ++ stake := fun h ↦ hne (by rw [h])
    obtain ⟨e, hrun⟩ :=
      hread.error_of_prefix (readTxBlock_local blake256) hbody hbne header
    rw [← hh, List.take_left, hrun]
    exact ⟨e, rfl⟩

/-- A transaction with a witness. -/
def sampleTxDcr : TxDcr where
  version := 1
  inputs := [⟨zeroHash, minus1, 0, 0⟩]
  outputs := [⟨5, 0, [81]⟩]
  locktime := 0
  expiry := 0
  witness := [⟨5, 0, 0, [1, 2]⟩]
  txid := zeroHash

/-- The wire form of a tree with that transaction. -/
def sampleTree : Bytes :=
  match packCounted TxDcr.encode [sampleTxDcr] with
  | .ok tree => tree
  | .error _ => []

theorem sampleTree_eq : packCounted TxDcr.encode [sampleTxDcr] = .ok sampleTree := rfl

/-- A hash that repeats the first byte of what is hashed. -/
def sampleBlake (data : Bytes) : Hash32 := ⟨List.replicate 32 (data.headD 0), List.length_replicate⟩

theorem sampleTree_reads :
    (∃ txs' stxs', List.Forall₂ (TxDcr.Parsed sampleBlake) [sampleTxDcr] txs' ∧
      List.Forall₂ (TxDcr.Parsed sampleBlake) [sampleTxDcr] stxs' ∧ ∀ trailing,
        block sampleBlake (List.replicate 180 7 ++ (sampleTree ++ sampleTree ++ trailing)) 5 =
          .ok ⟨List.replicate 180 7 ++ (sampleTree ++ sampleTree ++ trailing),
            List.replicate 180 7, txs' ++ stxs'⟩) ∧
    ∀ part, part <+: List.replicate 180 7 ++ (sampleTree ++ sampleTree) →
      part ≠ List.replicate 180 7 ++ (sampleTree ++ sampleTree) →
      ∃ e, block sampleBlake part 5 = .error e := by
  have hw : ∀ tx ∈ [sampleTxDcr], tx.WellFormed := by
    intro tx htx
    rw [List.mem_singleton.mp htx]
    rfl
  exact block_reads_trees sampleBlake List.length_replicate hw hw sampleTree_eq sampleTree_eq
    (by decide)

end Decred
end ElectrumX.Lib
