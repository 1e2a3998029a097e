import ElectrumX.Lib.Tx
import ElectrumX.Lib.Script

/-!
# Coins

The part of `lib/coins.py:65–270` that indexing relies on. A coin supplies its hash
function, its header format and its deserializer; the hashX of a script and the block
layout are derived from them.
-/

namespace ElectrumX.Lib
open ElectrumX.Base

/-- `HASHX_LEN`, `lib/hash.py:36`. -/
def hashXLen : Nat := 11

/-- An address identifier of `HASHX_LEN` bytes. -/
abbrev HashX := { b : Bytes // b.length = hashXLen }

instance : BEq HashX := Subtype.instBEq
instance : LawfulBEq HashX := Subtype.instLawfulBEq

/-- A script hash of equal bytes. -/
def sampleHashX (b : UInt8) : HashX := ⟨List.replicate hashXLen b, List.length_replicate⟩

/-- `BASIC_HEADER_SIZE`, `lib/coins.py:76`. -/
def basicHeaderSize : Nat := 80

/-- The parameters of a coin class. `deserializer raw start` stands for
`DESERIALIZER(raw, start).read_tx_block()`; `addressScript` is what a class that overrides
`hashX_from_script` makes of a script before it hashes it. -/
structure Coin where
  sha256 : Bytes → Hash32
  genesisHash : Bytes
  genesisActivation : Int := 100000000
  staticBlockHeaders : Bool := true
  dynamicBlockHeader : Bytes → Int → Bytes := fun raw _ ↦ raw.take basicHeaderSize
  addressScript : Bytes → Bytes := id
  deserializer : Bytes → Nat → Except PyError (List Tx)

/-- `Block`, `lib/coins.py:56`. -/
structure Block where
  raw : Bytes
  header : Bytes
  transactions : List Tx
  deriving DecidableEq, Repr

namespace Coin

/-- `double_sha256`, `lib/hash.py:50`. -/
def doubleSha256 (coin : Coin) (x : Bytes) : Hash32 := coin.sha256 (coin.sha256 x).val

/-- `hashX_from_script`, `lib/coins.py:178`. -/
def hashXFromScript (coin : Coin) (script : Bytes) : HashX :=
  ⟨(coin.sha256 (coin.addressScript script)).val.take hashXLen, by
    rw [List.length_take, (coin.sha256 (coin.addressScript script)).property]
    rfl⟩

/-- `header_hash`, `lib/coins.py:236`. -/
def headerHash (coin : Coin) (header : Bytes) : Bytes := (coin.doubleSha256 header).val

/-- `header_prevhash`, `lib/coins.py:241`. -/
def headerPrevhash (_ : Coin) (header : Bytes) : Bytes := (header.drop 4).take 32

/-- `static_header_offset`, `lib/coins.py:246`. -/
def staticHeaderOffset (height : Int) : Int := height * basicHeaderSize

/-- `static_header_len`, `lib/coins.py:255`. -/
def staticHeaderLen (height : Int) : Int := staticHeaderOffset (height + 1) - staticHeaderOffset height

/-- `block_header`, `lib/coins.py:261`; coins with dynamic headers override it. -/
def blockHeader (coin : Coin) (rawBlock : Bytes) (height : Int) : Bytes :=
  if coin.staticBlockHeaders then rawBlock.take (staticHeaderLen height).toNat
  else coin.dynamicBlockHeader rawBlock height

/-- `block`, `lib/coins.py:266`. -/
def block (coin : Coin) (rawBlock : Bytes) (height : Int) : Except PyError Block := do
  let header := coin.blockHeader rawBlock height
  let txs ← coin.deserializer rawBlock header.length
  return ⟨rawBlock, header, txs⟩

/-- The predicate that `advance_blocks` and `backup_blocks` select by height,
`server/block_processor.py:416,509`. -/
def isUnspendableAt (coin : Coin) (height : Int) : Bytes → Bool :=
  if height ≥ coin.genesisActivation then isUnspendableGenesis else isUnspendableLegacy

/-- `FixedCoin`, `lib/coins.py:362–406`, for a hash function. -/
def fixedCoin (sha256 : Bytes → Hash32) : Coin where
  sha256 := sha256
  genesisHash :=
    "000008e19a0f9124269e897bdcff8ef981fa2d563431df80ca27bc4a1373efd6".toUTF8.toList
  deserializer raw start := do
    let readTx := DeserializerSegWit.readTx fun b ↦ sha256 (sha256 b).val
    let (txs, _) ← (Deserializer.readTxBlock readTx).run raw start
    return txs

end Coin
end ElectrumX.Lib
