import ElectrumX.Server.LTORBlockProcessor
import ElectrumX.Lib.Names

/-!
# Blocks with names

The model of `NameIndexBlockProcessor` in `server/block_processor.py`. It overrides
`advance_txs`, which indexes the names of a block once the base class has indexed the
block; backing up is left to the base class. `nameHashX` is the `name_hashX_from_script` of the
coin, such as `NameCoin.nameHashXFromScript`.
-/

namespace ElectrumX.Server.NameIndexBlockProcessor
open ElectrumX.Base ElectrumX.Lib

variable (env : Env) (nameHashX : Bytes → Option HashX)

/-- The script hashes of the names in the outputs of a transaction,
`block_processor.py:755–763`. -/
def hashXsOfTx (tx : Tx) : List HashX :=
  tx.outputs.filterMap fun txout ↦ nameHashX txout.pkScript

/-- `advance_txs`, `block_processor.py:745–771`. -/
def advanceTxs (bp : BlockProcessor) (txs : List Tx) (isUnspendable : Bytes → Bool) :
    Except PyError (List Bytes × BlockProcessor) := do
  let (result, bp) ← bp.advanceTxs env txs isUnspendable
  let hashXsByTx := (txs.map (hashXsOfTx nameHashX)).map (·.map (·.val))
  let touched := hashXsByTx.flatten.foldl (fun t hashX ↦ t.insert hashX) bp.touched
  let history ← bp.db.history.addUnflushed hashXsByTx (bp.txCount - txs.length)
  return (result, { bp with touched := touched, db := { bp.db with history := history } })

/-- The methods of `NameIndexBlockProcessor`. -/
def methods : TxMethods where
  advanceTxs := advanceTxs env nameHashX
  backupTxs := BlockProcessor.backupTxs

end ElectrumX.Server.NameIndexBlockProcessor
