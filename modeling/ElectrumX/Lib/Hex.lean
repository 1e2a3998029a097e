import ElectrumX.Lib.Util

/-!
# Hexadecimal text

The digits of `bytes.hex` and what `bytes.fromhex` makes of a text, which skips blanks between the
bytes and refuses everything else that is not a pair of digits.
-/

namespace ElectrumX.Lib
open ElectrumX.Base

/-- `bytes.hex` as a string. -/
def bytesHex (b : Bytes) : String := String.ofList (hexChars b)

/-- The value of a hexadecimal digit. -/
def hexValue (digit : Char) : Option Nat :=
  if '0' ≤ digit ∧ digit ≤ '9' then some (digit.toNat - 48)
  else if 'a' ≤ digit ∧ digit ≤ 'f' then some (digit.toNat - 87)
  else if 'A' ≤ digit ∧ digit ≤ 'F' then some (digit.toNat - 55)
  else none

/-- The blanks of ASCII. -/
def isBlank (digit : Char) : Bool := digit = ' ' ∨ (9 ≤ digit.toNat ∧ digit.toNat ≤ 13)

/-- The digits of `bytes.fromhex`, which may have blanks between the bytes. -/
def fromHexChars : List Char → Except PyError Bytes
  | [] => .ok []
  | [digit] => if isBlank digit then .ok [] else .error .valueError
  | high :: low :: rest =>
    if isBlank high then fromHexChars (low :: rest)
    else
      match hexValue high, hexValue low with
      | some h, some l => do return UInt8.ofNat (16 * h + l) :: (← fromHexChars rest)
      | _, _ => .error .valueError

/-- `hex_to_bytes`, `lib/util.py:346`. -/
def hexToBytes (text : String) : Except PyError Bytes := fromHexChars text.toList

theorem hexValue_hexDigit {n : Nat} (h : n < 16) : hexValue (hexDigit n) = some n := by
  have hall : ∀ i : Fin 16, hexValue (hexDigit i) = some i.val := by decide
  exact hall ⟨n, h⟩

theorem not_isBlank_hexDigit {n : Nat} (h : n < 16) : isBlank (hexDigit n) = false := by
  have hall : ∀ i : Fin 16, isBlank (hexDigit i) = false := by decide
  exact hall ⟨n, h⟩

theorem fromHexChars_hexChars (b : Bytes) : fromHexChars (hexChars b) = .ok b := by
  induction b with
  | nil => rfl
  | cons x xs ih =>
    have hlt := x.toNat_lt
    have hhigh : x.toNat / 16 < 16 := by omega
    have hlow : x.toNat % 16 < 16 := by omega
    have hcons : hexChars (x :: xs) =
        hexDigit (x.toNat / 16) :: hexDigit (x.toNat % 16) :: hexChars xs := rfl
    rw [hcons, fromHexChars, not_isBlank_hexDigit hhigh, hexValue_hexDigit hhigh,
      hexValue_hexDigit hlow, ih]
    change Except.ok (UInt8.ofNat (16 * (x.toNat / 16) + x.toNat % 16) :: xs) = _
    rw [Nat.div_add_mod, UInt8.ofNat_toNat]

theorem hexToBytes_bytesHex (b : Bytes) : hexToBytes (bytesHex b) = .ok b := by
  rw [hexToBytes, bytesHex, String.toList_ofList]
  exact fromHexChars_hexChars b

end ElectrumX.Lib
