import Mathlib.Data.List.Infix

/-!
# Words of a text

A text of words with blanks between them is read as these words.
-/

namespace ElectrumX.Base

variable {α : Type}

variable {isBlank : α → Bool}

end ElectrumX.Base
