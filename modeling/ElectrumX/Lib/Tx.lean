import ElectrumX.Base.Reader
import ElectrumX.Lib.Util

/-!
# Transactions

The transaction records of `lib/tx.py:53–113`, and the deserializers of `lib/tx.py:116–304`.
Hashes have 32 bytes and the unsigned fields 32 bits, as the deserializer reads them; values are
signed.
-/

namespace ElectrumX.Lib
open ElectrumX.Base

/-- A 32-byte hash. -/
abbrev Hash32 := { b : Bytes // b.length = 32 }

/-- The zero hash `ZERO`, `lib/tx.py:43`. -/
def zeroHash : Hash32 := ⟨List.replicate 32 0, by simp⟩

/-- `MINUS_1`, `lib/tx.py:44`. -/
def minus1 : UInt32 := 4294967295

/-- `TxInput`, `lib/tx.py:77–101`. -/
structure TxInput where
  prevHash : Hash32
  prevIdx : UInt32
  script : Bytes := []
  sequence : UInt32 := 0
  deriving DecidableEq, Repr

/-- `TxOutput`, `lib/tx.py:104–113`. -/
structure TxOutput where
  value : Int
  pkScript : Bytes
  deriving DecidableEq, Repr

/-- The fields that `TxSegWit` adds to `Tx`, `lib/tx.py:242–246`. -/
structure SegWit where
  marker : UInt8
  flag : UInt8
  witness : List (List Bytes)
  deriving DecidableEq, Repr

/-- `Tx`, `lib/tx.py:54–74`; a `TxSegWit` has the further fields. -/
structure Tx where
  version : Int32 := 1
  inputs : List TxInput
  outputs : List TxOutput
  locktime : UInt32 := 0
  txid : Hash32
  wtxid : Hash32 := txid
  segwit : Option SegWit := none
  deriving DecidableEq, Repr

/-- Test if an input is generation/coinbase like, `lib/tx.py:93`. -/
def TxInput.isGeneration (txin : TxInput) : Bool :=
  txin.prevIdx == minus1 && txin.prevHash == zeroHash

/-! ### Serialization -/

/-- `TxInput.serialize`, `lib/tx.py:95`. -/
def TxInput.serialize (txin : TxInput) : Except PyError Bytes := do
  let prevIdx ← packLeUint32 txin.prevIdx.toNat
  let script ← packVarbytes txin.script
  let sequence ← packLeUint32 txin.sequence.toNat
  return [txin.prevHash.val, prevIdx, script, sequence].flatten

/-- `TxOutput.serialize`, `lib/tx.py:109`. -/
def TxOutput.serialize (txout : TxOutput) : Except PyError Bytes := do
  let value ← packLeInt64 txout.value
  let pkScript ← packVarbytes txout.pkScript
  return [value, pkScript].flatten

/-- `Tx.serialize`, `lib/tx.py:66`. -/
def Tx.serialize (tx : Tx) : Except PyError Bytes := do
  let inputCount ← packVarint tx.inputs.length
  let inputs ← tx.inputs.mapM TxInput.serialize
  let outputCount ← packVarint tx.outputs.length
  let outputs ← tx.outputs.mapM TxOutput.serialize
  let locktime ← packLeUint32 tx.locktime.toNat
  return [packLeInt32 tx.version, inputCount, inputs.flatten, outputCount, outputs.flatten,
    locktime].flatten

/-! ### Deserialization -/

namespace Deserializer

/-- A method of a deserializer, which moves its cursor over its binary. -/
abbrev Read := Reader UInt8 PyError

/-- `_read_byte`, `lib/tx.py:185`. -/
def readByte : Read UInt8 := .next .indexError

/-- `_read_nbytes`, `lib/tx.py:190`. -/
def readNbytes (n : Nat) : Read { b : Bytes // b.length = n } := .take .assertionError n

/-- `_read_le_int32`, `lib/tx.py:210`. -/
def readLeInt32 : Read Int32 := do
  let result ← .take .structError 4
  return (UInt32.ofNat (unpackLE result.val)).toInt32

/-- `_read_le_int64`, `lib/tx.py:215`. -/
def readLeInt64 : Read Int := do
  let result ← .take .structError 8
  let n := unpackLE result.val
  return if n < 2 ^ 63 then n else n - 2 ^ 64

/-- The unsigned integers of `struct`, which `_read_le_uint16`, `_read_le_uint32` and
`_read_le_uint64` read. -/
def readLeUint (size : Nat) : Read Nat := do
  let result ← .take .structError size
  return unpackLE result.val

/-- `_read_le_uint16`, `lib/tx.py:220`. -/
def readLeUint16 : Read Nat := readLeUint 2

/-- `_read_le_uint32`, `lib/tx.py:230`. -/
def readLeUint32 : Read Nat := readLeUint 4

/-- `_read_le_uint64`, `lib/tx.py:235`. -/
def readLeUint64 : Read Nat := readLeUint 8

/-- `_read_varint`, `lib/tx.py:199`. -/
def readVarint : Read Nat := do
  let n ← readByte
  if n < 253 then return n.toNat
  else if n = 253 then readLeUint16
  else if n = 254 then readLeUint32
  else readLeUint64

/-- `_read_varbytes`, `lib/tx.py:196`. -/
def readVarbytes : Read Bytes := do
  let n ← readVarint
  let result ← readNbytes n
  return result.val

/-- `_read_input`, `lib/tx.py:167`. -/
def readInput : Read TxInput := do
  let prevHash ← readNbytes 32
  let prevIdx ← readLeUint32
  let script ← readVarbytes
  let sequence ← readLeUint32
  return { prevHash, prevIdx := .ofNat prevIdx, script, sequence := .ofNat sequence }

/-- `_read_inputs`, `lib/tx.py:163`. -/
def readInputs : Read (List TxInput) := do
  let n ← readVarint
  readInput.replicate n

/-- `_read_output`, `lib/tx.py:179`. -/
def readOutput : Read TxOutput := do
  let value ← readLeInt64
  let pkScript ← readVarbytes
  return { value, pkScript }

/-- `_read_outputs`, `lib/tx.py:175`. -/
def readOutputs : Read (List TxOutput) := do
  let n ← readVarint
  readOutput.replicate n

/-- `read_tx`, `lib/tx.py:134`. -/
def readTx (txHashFn : Bytes → Hash32) : Read Tx := do
  let start ← Reader.cursor
  let version ← readLeInt32
  let inputs ← readInputs
  let outputs ← readOutputs
  let locktime ← readLeUint32
  let binary ← Reader.sliceFrom start
  let txid := txHashFn binary
  return { version, inputs, outputs, locktime := .ofNat locktime, txid, wtxid := txid }

/-- `read_tx_block`, `lib/tx.py:158`, with the `read_tx` of the deserializer. -/
def readTxBlock (readTx : Read Tx) : Read (List Tx) := do
  let n ← readVarint
  readTx.replicate n

end Deserializer

namespace DeserializerSegWit
open Deserializer

/-- `_read_witness_field`, `lib/tx.py:257`. -/
def readWitnessField : Read (List Bytes) := do
  let n ← readVarint
  readVarbytes.replicate n

/-- `_read_witness`, `lib/tx.py:253`. -/
def readWitness (fields : Nat) : Read (List (List Bytes)) := readWitnessField.replicate fields

/-- `_read_tx_parts`, `lib/tx.py:261`: the transaction and its virtual size. -/
def readTxParts (txHashFn : Bytes → Hash32) : Read (Tx × Nat) := do
  let start ← Reader.cursor
  let marker ← Reader.peek .indexError 4
  if marker ≠ 0 then
    let tx ← Deserializer.readTx txHashFn
    return (tx, ← Reader.length)
  else
    let version ← readLeInt32
    let origVersion ← Reader.sliceFrom start
    let marker ← readByte
    let flag ← readByte
    let start ← Reader.cursor
    let inputs ← readInputs
    let outputs ← readOutputs
    let origBody ← Reader.sliceFrom start
    let stop ← Reader.cursor
    let baseSize := stop - start
    let witness ← readWitness inputs.length
    -- `start` now is that of the locktime, from which `wtxid` is hashed too
    let start ← Reader.cursor
    let locktime ← readLeUint32
    let origLocktime ← Reader.sliceFrom start
    let txid := txHashFn (origVersion ++ origBody ++ origLocktime)
    let wtxid := txHashFn origLocktime
    let tx := { version, inputs, outputs, locktime := .ofNat locktime, txid, wtxid,
                segwit := some { marker, flag, witness } }
    return (tx, (3 * baseSize + (← Reader.length)) / 4)

/-- `read_tx_and_vsize`, `lib/tx.py:150–152`. -/
def readTxAndVsize (txHashFn : Bytes → Hash32) : Read (Tx × Nat) := readTxParts txHashFn

/-- `read_tx`, `lib/tx.py:303`. -/
def readTx (txHashFn : Bytes → Hash32) : Read Tx := do
  let parts ← readTxParts txHashFn
  return parts.1

end DeserializerSegWit
end ElectrumX.Lib
