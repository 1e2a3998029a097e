import ElectrumX.Lib.Tx

/-!
# Dash transactions

The special transactions of `lib/tx_dash.py`: their records, how they are written, and how they are
read. The readers take the method `_read_varint` as an argument; the deserializer's own one is
`Deserializer.readVarint`.
-/

namespace ElectrumX.Lib
open ElectrumX.Base Deserializer

/-- `pack_le_int32`, `lib/util.py:337`, of any integer. -/
def packInt32 (n : Int) : Except PyError Bytes :=
  if -2 ^ 31 ≤ n ∧ n < 2 ^ 31 then .ok (packLE 4 (n % 2 ^ 32).toNat) else .error .structError

/-- `TxOutPoint`, `lib/tx_dash.py:362–365`. -/
structure TxOutPoint where
  hash : Bytes
  index : Nat
  deriving DecidableEq, Repr

/-- `DashProRegTx`, `lib/tx_dash.py:76–93`. -/
structure DashProRegTx where
  version : Nat
  type : Nat
  mode : Nat
  collateralOutpoint : TxOutPoint
  ipAddress : Bytes
  port : Nat
  keyIdOwner : Bytes
  pubKeyOperator : Bytes
  keyIdVoting : Bytes
  operatorReward : Nat
  scriptPayout : Bytes
  inputsHash : Bytes
  platformNodeID : Bytes
  platformP2PPort : Nat
  platformHTTPPort : Nat
  payloadSig : Bytes
  deriving DecidableEq, Repr

/-- `DashProUpServTx`, `lib/tx_dash.py:164–176`. -/
structure DashProUpServTx where
  version : Nat
  type : Nat
  proTxHash : Bytes
  ipAddress : Bytes
  port : Nat
  scriptOperatorPayout : Bytes
  inputsHash : Bytes
  platformNodeID : Bytes
  platformP2PPort : Nat
  platformHTTPPort : Nat
  payloadSig : Bytes
  deriving DecidableEq, Repr

/-- `DashProUpRegTx`, `lib/tx_dash.py:234–243`. -/
structure DashProUpRegTx where
  version : Nat
  proTxHash : Bytes
  mode : Nat
  pubKeyOperator : Bytes
  keyIdVoting : Bytes
  scriptPayout : Bytes
  inputsHash : Bytes
  payloadSig : Bytes
  deriving DecidableEq, Repr

/-- `DashProUpRevTx`, `lib/tx_dash.py:276–282`. -/
structure DashProUpRevTx where
  version : Nat
  proTxHash : Bytes
  reason : Nat
  inputsHash : Bytes
  payloadSig : Bytes
  deriving DecidableEq, Repr

/-- `DashCbTx`, `lib/tx_dash.py:308–316`. -/
structure DashCbTx where
  version : Nat
  height : Nat
  merkleRootMNList : Bytes
  merkleRootQuorums : Bytes
  bestCLHeightDiff : Nat
  bestCLSignature : Bytes
  assetLockedAmount : Nat
  deriving DecidableEq, Repr

/-- The classes of `SPEC_TX_HANDLERS`, `lib/tx_dash.py:391–397`. -/
inductive SpecTxClass
  | proReg
  | proUpServ
  | proUpReg
  | proUpRev
  | cb
  deriving DecidableEq, Repr

/-- `SPEC_TX_HANDLERS.get`, `lib/tx_dash.py:385–397`. -/
def specTxClass (txType : Nat) : Option SpecTxClass :=
  if txType = 1 then some .proReg
  else if txType = 2 then some .proUpServ
  else if txType = 3 then some .proUpReg
  else if txType = 4 then some .proUpRev
  else if txType = 5 then some .cb
  else none

/-- `extra_payload`: bytes, or an instance of one of the classes. -/
inductive ExtraPayload
  | bytes (b : Bytes)
  | proReg (tx : DashProRegTx)
  | proUpServ (tx : DashProUpServTx)
  | proUpReg (tx : DashProUpRegTx)
  | proUpRev (tx : DashProUpRevTx)
  | cb (tx : DashCbTx)
  deriving DecidableEq, Repr

/-- The class of a payload. -/
def ExtraPayload.specTxClass : ExtraPayload → Option SpecTxClass
  | .bytes _ => none
  | .proReg _ => some .proReg
  | .proUpServ _ => some .proUpServ
  | .proUpReg _ => some .proUpReg
  | .proUpRev _ => some .proUpRev
  | .cb _ => some .cb

/-- `DashTx`, `lib/tx_dash.py:40–43`, with the fields of `Tx`. -/
structure DashTx where
  version : Nat
  inputs : List TxInput
  outputs : List TxOutput
  locktime : UInt32
  txType : Nat
  extraPayload : ExtraPayload
  txid : Hash32
  wtxid : Hash32
  deriving DecidableEq, Repr

/-! ### Serialization -/

/-- `TxOutPoint.serialize`, `lib/tx_dash.py:367–372`. -/
def TxOutPoint.serialize (outpoint : TxOutPoint) : Except PyError Bytes := do
  assertThat (outpoint.hash.length = 32)
  let index ← packLeUint32 outpoint.index
  return [outpoint.hash, index].flatten

/-- The fields that a provider transaction adds from version 2 on, `lib/tx_dash.py:114–117` and
`192–195`. -/
def serializePlatform (version : Nat) (platformNodeID : Bytes)
    (platformP2PPort platformHTTPPort : Nat) : Except PyError Bytes :=
  if version ≥ 2 then do
    let p2p ← packLeUint16 platformP2PPort
    let http ← packLeUint16 platformHTTPPort
    return [platformNodeID, p2p, http].flatten
  else .ok []

/-- `DashProRegTx.serialize`, `lib/tx_dash.py:95–119`. -/
def DashProRegTx.serialize (tx : DashProRegTx) : Except PyError Bytes := do
  assertThat (tx.ipAddress.length = 16 ∧ tx.keyIdOwner.length = 20 ∧
    tx.pubKeyOperator.length = 48 ∧ tx.keyIdVoting.length = 20 ∧ tx.inputsHash.length = 32)
  let version ← packLeUint16 tx.version
  let type ← packLeUint16 tx.type
  let mode ← packLeUint16 tx.mode
  let collateralOutpoint ← tx.collateralOutpoint.serialize
  let port ← packBeUint16 tx.port
  let operatorReward ← packLeUint16 tx.operatorReward
  let scriptPayout ← packVarbytes tx.scriptPayout
  let platform ← serializePlatform tx.version tx.platformNodeID tx.platformP2PPort
    tx.platformHTTPPort
  let payloadSig ← packVarbytes tx.payloadSig
  return [version, type, mode, collateralOutpoint, tx.ipAddress, port, tx.keyIdOwner,
    tx.pubKeyOperator, tx.keyIdVoting, operatorReward, scriptPayout, tx.inputsHash, platform,
    payloadSig].flatten

/-- The type, `lib/tx_dash.py:184–185`. -/
def DashProUpServTx.serializeType (tx : DashProUpServTx) : Except PyError Bytes :=
  if tx.version ≥ 2 then packLeUint16 tx.type else .ok []

/-- `DashProUpServTx.serialize`, `lib/tx_dash.py:178–197`. -/
def DashProUpServTx.serialize (tx : DashProUpServTx) : Except PyError Bytes := do
  assertThat (tx.proTxHash.length = 32 ∧ tx.ipAddress.length = 16 ∧ tx.inputsHash.length = 32 ∧
    tx.payloadSig.length = 96)
  let version ← packLeUint16 tx.version
  let type ← tx.serializeType
  let port ← packBeUint16 tx.port
  let scriptOperatorPayout ← packVarbytes tx.scriptOperatorPayout
  let platform ← serializePlatform tx.version tx.platformNodeID tx.platformP2PPort
    tx.platformHTTPPort
  return [version, type, tx.proTxHash, tx.ipAddress, port, scriptOperatorPayout, tx.inputsHash,
    platform, tx.payloadSig].flatten

/-- `DashProUpRegTx.serialize`, `lib/tx_dash.py:245–259`. -/
def DashProUpRegTx.serialize (tx : DashProUpRegTx) : Except PyError Bytes := do
  assertThat (tx.proTxHash.length = 32 ∧ tx.pubKeyOperator.length = 48 ∧
    tx.keyIdVoting.length = 20 ∧ tx.inputsHash.length = 32)
  let version ← packLeUint16 tx.version
  let mode ← packLeUint16 tx.mode
  let scriptPayout ← packVarbytes tx.scriptPayout
  let payloadSig ← packVarbytes tx.payloadSig
  return [version, tx.proTxHash, mode, tx.pubKeyOperator, tx.keyIdVoting, scriptPayout,
    tx.inputsHash, payloadSig].flatten

/-- `DashProUpRevTx.serialize`, `lib/tx_dash.py:284–294`. -/
def DashProUpRevTx.serialize (tx : DashProUpRevTx) : Except PyError Bytes := do
  assertThat (tx.proTxHash.length = 32 ∧ tx.inputsHash.length = 32 ∧ tx.payloadSig.length = 96)
  let version ← packLeUint16 tx.version
  let reason ← packLeUint16 tx.reason
  return [version, tx.proTxHash, reason, tx.inputsHash, tx.payloadSig].flatten

/-- The fields that a coinbase adds from version 2 on, `lib/tx_dash.py:325–327`. -/
def DashCbTx.serializeQuorums (tx : DashCbTx) : Except PyError Bytes :=
  if tx.version > 1 then do
    assertThat (tx.merkleRootQuorums.length = 32)
    return tx.merkleRootQuorums
  else .ok []

/-- The fields that a coinbase adds from version 3 on, `lib/tx_dash.py:328–331`. -/
def DashCbTx.serializeBest (tx : DashCbTx) : Except PyError Bytes :=
  if tx.version > 2 then do
    let bestCLHeightDiff ← packVarint tx.bestCLHeightDiff
    let assetLockedAmount ← packLeInt64 tx.assetLockedAmount
    return [bestCLHeightDiff, tx.bestCLSignature, assetLockedAmount].flatten
  else .ok []

/-- `DashCbTx.serialize`, `lib/tx_dash.py:318–332`. -/
def DashCbTx.serialize (tx : DashCbTx) : Except PyError Bytes := do
  assertThat (tx.merkleRootMNList.length = 32)
  let version ← packLeUint16 tx.version
  let height ← packLeUint32 tx.height
  let quorums ← tx.serializeQuorums
  let best ← tx.serializeBest
  return [version, height, tx.merkleRootMNList, quorums, best].flatten

/-- The `serialize` of the payload's class. -/
def ExtraPayload.serialize : ExtraPayload → Except PyError Bytes
  | .bytes b => .ok b
  | .proReg tx => tx.serialize
  | .proUpServ tx => tx.serialize
  | .proUpReg tx => tx.serialize
  | .proUpRev tx => tx.serialize
  | .cb tx => tx.serialize

/-- `DashTx._serialize_extra_payload`, `lib/tx_dash.py:61–71`. -/
def DashTx.serializeExtraPayload (tx : DashTx) : Except PyError Bytes :=
  match specTxClass tx.txType with
  | none => do
    assertThat (tx.extraPayload.specTxClass = none)
    packVarbytes (← tx.extraPayload.serialize)
  | some cls => do
    if tx.extraPayload.specTxClass ≠ some cls then throw .valueError
    packVarbytes (← tx.extraPayload.serialize)

/-- `DashTx.serialize`, `lib/tx_dash.py:45–59`. -/
def DashTx.serialize (tx : DashTx) : Except PyError Bytes := do
  let nLocktime ← packLeUint32 tx.locktime.toNat
  let inputCount ← packVarint tx.inputs.length
  let inputs ← tx.inputs.mapM TxInput.serialize
  let outputCount ← packVarint tx.outputs.length
  let outputs ← tx.outputs.mapM TxOutput.serialize
  let txins := inputCount ++ inputs.flatten
  let txouts := outputCount ++ outputs.flatten
  if tx.txType ≠ 0 then
    let uVersion ← packLeUint16 tx.version
    let uTxType ← packLeUint16 tx.txType
    let vExtra ← tx.serializeExtraPayload
    return uVersion ++ uTxType ++ txins ++ txouts ++ nLocktime ++ vExtra
  else
    let nVersion ← packInt32 tx.version
    return nVersion ++ txins ++ txouts ++ nLocktime

/-! ### Deserialization -/

namespace DeserializerDash

/-- A step that does not move the cursor. -/
def step {α : Type} (x : Except PyError α) : Read α := ⟨fun _ cursor ↦ do return (← x, cursor)⟩

/-- `_read_be_uint16`, `lib/tx.py:225`. -/
def readBeUint16 : Read Nat := do
  let result ← .take .structError 2
  return unpackBE result.val

/-- `TxOutPoint.read_outpoint`, `lib/tx_dash.py:375`. -/
def readOutpoint : Read TxOutPoint := do
  let hash ← readNbytes 32
  let index ← readLeUint32
  return { hash := hash.val, index }

section
variable (varint : Read Nat)

/-- `_read_varbytes`, `lib/tx.py:196`. -/
def readVarbytes : Read Bytes := do
  let n ← varint
  let result ← readNbytes n
  return result.val

/-- `_read_input`, `lib/tx.py:167`. -/
def readInput : Read TxInput := do
  let prevHash ← readNbytes 32
  let prevIdx ← readLeUint32
  let script ← readVarbytes varint
  let sequence ← readLeUint32
  return { prevHash, prevIdx := .ofNat prevIdx, script, sequence := .ofNat sequence }

/-- `_read_inputs`, `lib/tx.py:163`. -/
def readInputs : Read (List TxInput) := do
  let n ← varint
  (readInput varint).replicate n

/-- `_read_output`, `lib/tx.py:179`. -/
def readOutput : Read TxOutput := do
  let value ← readLeInt64
  let pkScript ← readVarbytes varint
  return { value, pkScript }

/-- `_read_outputs`, `lib/tx.py:175`. -/
def readOutputs : Read (List TxOutput) := do
  let n ← varint
  (readOutput varint).replicate n

/-- The platform fields, `lib/tx_dash.py:135–141` and `210–216`. -/
def readPlatform (version ntype : Nat) : Read (Bytes × Nat × Nat) :=
  if version ≥ 2 ∧ ntype = 1 then do
    let platformNodeID ← readNbytes 20
    let platformP2PPort ← readLeUint16
    let platformHTTPPort ← readLeUint16
    return (platformNodeID.val, platformP2PPort, platformHTTPPort)
  else return ([], 0, 0)

/-- `DashProRegTx.read_tx_extra`, `lib/tx_dash.py:122–160`. -/
def readProRegTx : Read DashProRegTx := do
  let version ← readLeUint16
  let ntype ← readLeUint16
  let mode ← readLeUint16
  let collateralOutpoint ← readOutpoint
  let ipAddress ← readNbytes 16
  let port ← readBeUint16
  let keyIdOwner ← readNbytes 20
  let pubKeyOperator ← readNbytes 48
  let keyIdVoting ← readNbytes 20
  let operatorReward ← readLeUint16
  let scriptPayout ← readVarbytes varint
  let inputsHash ← readNbytes 32
  let platform ← readPlatform version ntype
  let payloadSig ← readVarbytes varint
  return {
    version, type := ntype, mode, collateralOutpoint, ipAddress := ipAddress.val, port
    keyIdOwner := keyIdOwner.val, pubKeyOperator := pubKeyOperator.val
    keyIdVoting := keyIdVoting.val, operatorReward, scriptPayout, inputsHash := inputsHash.val
    platformNodeID := platform.1, platformP2PPort := platform.2.1
    platformHTTPPort := platform.2.2, payloadSig }

/-- `ntype`, `lib/tx_dash.py:202–204`. -/
def readType (version : Nat) : Read Nat := if version ≥ 2 then readLeUint16 else pure 0

/-- `DashProUpServTx.read_tx_extra`, `lib/tx_dash.py:200–230`. -/
def readProUpServTx : Read DashProUpServTx := do
  let version ← readLeUint16
  let ntype ← readType version
  let proTxHash ← readNbytes 32
  let ipAddress ← readNbytes 16
  let port ← readBeUint16
  let scriptOperatorPayout ← readVarbytes varint
  let inputsHash ← readNbytes 32
  let platform ← readPlatform version ntype
  let payloadSig ← readNbytes 96
  return {
    version, type := ntype, proTxHash := proTxHash.val, ipAddress := ipAddress.val, port
    scriptOperatorPayout, inputsHash := inputsHash.val, platformNodeID := platform.1
    platformP2PPort := platform.2.1, platformHTTPPort := platform.2.2
    payloadSig := payloadSig.val }

/-- `DashProUpRegTx.read_tx_extra`, `lib/tx_dash.py:262–272`. -/
def readProUpRegTx : Read DashProUpRegTx := do
  let version ← readLeUint16
  let proTxHash ← readNbytes 32
  let mode ← readLeUint16
  let pubKeyOperator ← readNbytes 48
  let keyIdVoting ← readNbytes 20
  let scriptPayout ← readVarbytes varint
  let inputsHash ← readNbytes 32
  let payloadSig ← readVarbytes varint
  return {
    version, proTxHash := proTxHash.val, mode, pubKeyOperator := pubKeyOperator.val
    keyIdVoting := keyIdVoting.val, scriptPayout, inputsHash := inputsHash.val, payloadSig }

/-- `DashProUpRevTx.read_tx_extra`, `lib/tx_dash.py:297–304`. -/
def readProUpRevTx : Read DashProUpRevTx := do
  let version ← readLeUint16
  let proTxHash ← readNbytes 32
  let reason ← readLeUint16
  let inputsHash ← readNbytes 32
  let payloadSig ← readNbytes 96
  return {
    version, proTxHash := proTxHash.val, reason, inputsHash := inputsHash.val
    payloadSig := payloadSig.val }

/-- `merkleRootQuorums`, `lib/tx_dash.py:339` and `343–344`. -/
def readQuorums (version : Nat) : Read Bytes :=
  if version > 1 then do
    let merkleRootQuorums ← readNbytes 32
    return merkleRootQuorums.val
  else pure []

/-- The best chain lock and the locked amount, `lib/tx_dash.py:340–342` and `345–348`. -/
def readBest (version : Nat) : Read (Nat × Bytes × Nat) :=
  if version > 2 then do
    let bestCLHeightDiff ← varint
    let bestCLSignature ← readNbytes 96
    let assetLockedAmount ← readLeUint64
    return (bestCLHeightDiff, bestCLSignature.val, assetLockedAmount)
  else pure (0, [], 0)

/-- `DashCbTx.read_tx_extra`, `lib/tx_dash.py:335–357`. -/
def readCbTx : Read DashCbTx := do
  let version ← readLeUint16
  let height ← readLeUint32
  let merkleRootMNList ← readNbytes 32
  let merkleRootQuorums ← readQuorums version
  let best ← readBest varint version
  return {
    version, height, merkleRootMNList := merkleRootMNList.val, merkleRootQuorums
    bestCLHeightDiff := best.1, bestCLSignature := best.2.1, assetLockedAmount := best.2.2 }

/-- The `read_tx_extra` of a class. -/
def readTxExtra : SpecTxClass → Read ExtraPayload
  | .proReg => do return .proReg (← readProRegTx varint)
  | .proUpServ => do return .proUpServ (← readProUpServTx varint)
  | .proUpReg => do return .proUpReg (← readProUpRegTx varint)
  | .proUpRev => do return .proUpRev (← readProUpRevTx)
  | .cb => do return .cb (← readCbTx varint)

/-- The payload of a type, `lib/tx_dash.py:421–427`. -/
def readPayload (txType extraPayloadSize : Nat) : Read ExtraPayload :=
  match specTxClass txType with
  | some cls => readTxExtra varint cls
  | none => do
    let extraPayload ← readNbytes extraPayloadSize
    return .bytes extraPayload.val

/-- The extra payload behind its size, `lib/tx_dash.py:419–428`. -/
def readExtraPayload (txType : Nat) : Read ExtraPayload := do
  let extraPayloadSize ← varint
  let cursor ← Reader.cursor
  let stop := cursor + extraPayloadSize
  let extraPayload ← readPayload varint txType extraPayloadSize
  let cursor ← Reader.cursor
  step (assertThat (cursor = stop))
  return extraPayload

/-- The extra payload of any transaction, `lib/tx_dash.py:418–430`. -/
def readExtra (txType : Nat) : Read ExtraPayload :=
  if txType ≠ 0 then readExtraPayload varint txType else pure (.bytes [])

/-- The version and the type in the header word, `lib/tx_dash.py:405–413`. -/
def splitHeader (header : Nat) : Nat × Nat :=
  let txType := header / 2 ^ 16
  let version := if txType ≠ 0 then header % 2 ^ 16 else header
  if txType ≠ 0 ∧ version < 3 then (header, 0) else (version, txType)

/-- `DeserializerDash.read_tx`, `lib/tx_dash.py:402–442`. -/
def readTx (txHashFn : Bytes → Hash32) : Read DashTx := do
  let start ← Reader.cursor
  let header ← readLeUint32
  let inputs ← readInputs varint
  let outputs ← readOutputs varint
  let locktime ← readLeUint32
  let extraPayload ← readExtra varint (splitHeader header).2
  let binary ← Reader.sliceFrom start
  let txid := txHashFn binary
  return {
    version := (splitHeader header).1, inputs, outputs, locktime := .ofNat locktime
    txType := (splitHeader header).2, extraPayload, txid, wtxid := txid }

end
end DeserializerDash
end ElectrumX.Lib
