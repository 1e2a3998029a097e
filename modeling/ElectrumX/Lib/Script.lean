import ElectrumX.Base.Bytes

/-!
# Unspendable scripts

`lib/script.py:75–82`. An output with such a script is never saved as an unspent output.
-/

namespace ElectrumX.Lib
open ElectrumX.Base

/-- `OP_FALSE OP_RETURN`, `lib/script.py:80`. -/
def isUnspendableGenesis (script : Bytes) : Bool := script.take 2 == [0x00, 0x6a]

/-- `OP_FALSE OP_RETURN` or `OP_RETURN`, `lib/script.py:75`. -/
def isUnspendableLegacy (script : Bytes) : Bool :=
  script.take 2 == [0x00, 0x6a] || script.head? == some 0x6a

end ElectrumX.Lib
