import ElectrumX.Base.Bytes
import Mathlib.Data.Nat.Digits.Lemmas
import Mathlib.Data.Nat.Size
import Mathlib.Data.List.TakeWhile

/-!
# Numerals with leading zeros

A numeral is a list of digits in some base, most significant first. It is determined by its
number of leading zeros and its value, and both are free: changing the base of the value while
keeping the number of leading zeros loses nothing.
-/

namespace ElectrumX.Base.Numeral

/-- The number of leading zeros. -/
def leading (ds : List Nat) : Nat := (ds.takeWhile (· = 0)).length

/-- The number that a numeral denotes. -/
def value (b : Nat) (ds : List Nat) : Nat := Nat.ofDigits b ds.reverse

/-- The numeral of a number behind `k` leading zeros. -/
def write (b k v : Nat) : List Nat := List.replicate k 0 ++ (b.digits v).reverse

/-- Another digit behind a numeral. -/
theorem value_concat (b : Nat) (ds : List Nat) (d : Nat) :
    value b (ds ++ [d]) = value b ds * b + d := by
  rw [value, value, List.reverse_append, List.reverse_singleton, List.singleton_append,
    Nat.ofDigits_cons]
  ring

/-- The value accumulated from the left. -/
theorem foldl_eq_value (b : Nat) (ds : List Nat) :
    ds.foldl (fun v d ↦ v * b + d) 0 = value b ds := by
  induction ds using List.reverseRecOn with
  | nil => rfl
  | append_singleton ds d ih => rw [List.foldl_append, ih, value_concat]; rfl

theorem value_replicate_append (b k : Nat) (ds : List Nat) :
    value b (List.replicate k 0 ++ ds) = value b ds := by
  rw [value, List.reverse_append, List.reverse_replicate, Nat.ofDigits_append_replicate_zero, value]

/-- The value of a written numeral. -/
theorem value_write {b : Nat} (k v : Nat) : value b (write b k v) = v := by
  rw [write, value_replicate_append, value, List.reverse_reverse, Nat.ofDigits_digits]

theorem leading_replicate_append {k : Nat} {ds : List Nat} (h : ds.head? ≠ some 0) :
    leading (List.replicate k 0 ++ ds) = k := by
  have hd : ds.takeWhile (· = 0) = [] := by
    cases ds with
    | nil => rfl
    | cons d ds =>
      have hne : d ≠ 0 := by simpa using h
      simp [hne]
  rw [leading, List.takeWhile_append_of_pos (by simp), hd]
  simp

/-- The most significant digit of a number is not zero. -/
theorem head?_reverse_digits {b : Nat} (v : Nat) : (b.digits v).reverse.head? ≠ some 0 := by
  rw [List.head?_reverse]
  intro h
  have hne : b.digits v ≠ [] := fun h' ↦ by simp [h'] at h
  have hv : v ≠ 0 := Nat.digits_ne_nil_iff_ne_zero.mp hne
  rw [List.getLast?_eq_getLast_of_ne_nil hne, Option.some.injEq] at h
  exact Nat.getLast_digit_ne_zero b hv h

/-- The leading zeros of a written numeral. -/
theorem leading_write {b : Nat} (k v : Nat) : leading (write b k v) = k :=
  leading_replicate_append (head?_reverse_digits v)

/-- A numeral is written from its leading zeros and its value. -/
theorem write_leading_value {b : Nat} (hb : 1 < b) {ds : List Nat} (h : ∀ d ∈ ds, d < b) :
    write b (leading ds) (value b ds) = ds := by
  have hz : ds.takeWhile (· = 0) = List.replicate (leading ds) 0 := by
    apply List.eq_replicate_of_mem
    intro d hd
    simpa using List.mem_takeWhile_imp hd
  have hs : ds = List.replicate (leading ds) 0 ++ ds.dropWhile (· = 0) := by
    rw [← hz, List.takeWhile_append_dropWhile]
  have hv : value b ds = Nat.ofDigits b (ds.dropWhile (· = 0)).reverse := by
    conv_lhs => rw [hs]
    rw [value_replicate_append, value]
  have hd : b.digits (value b ds) = (ds.dropWhile (· = 0)).reverse := by
    rw [hv]
    apply Nat.digits_ofDigits b hb
    · intro d hd
      exact h d ((List.dropWhile_suffix _).subset (List.mem_reverse.mp hd))
    · intro hne
      rw [List.getLast_reverse]
      have hne' : ds.dropWhile (· = 0) ≠ [] := by simpa using hne
      exact of_decide_eq_false (List.head_dropWhile_not (fun x ↦ decide (x = 0)) hne')
  rw [write, hd, List.reverse_reverse, ← hs]

/-- Only the empty numeral has neither leading zeros nor a value. -/
theorem write_eq_nil {b : Nat} {k v : Nat} : write b k v = [] ↔ k = 0 ∧ v = 0 := by
  simp [write, Nat.digits_eq_nil_iff_eq_zero]

/-! ### Base 256 -/

/-- The bytes of a string as digits. -/
def ofBytes (b : Bytes) : List Nat := b.map UInt8.toNat

theorem ofBytes_lt {b : Bytes} {d : Nat} (h : d ∈ ofBytes b) : d < 256 := by
  obtain ⟨x, -, rfl⟩ := List.mem_map.mp h
  exact x.toNat_lt

theorem ofBytes_injective {a b : Bytes} (h : ofBytes a = ofBytes b) : a = b :=
  List.map_injective_iff.mpr (fun _ _ ↦ UInt8.toNat_inj.mp) h

/-- The value of a byte string is its big-endian integer. -/
theorem value_ofBytes (b : Bytes) : value 256 (ofBytes b) = unpackBE b := by
  rw [value, unpackBE, ofBytes, ← List.map_reverse]
  induction b.reverse with
  | nil => rfl
  | cons x xs ih => rw [List.map_cons, Nat.ofDigits_cons, ih, unpackLE]

/-- The leading zeros of a byte string are its leading zero bytes. -/
theorem leading_ofBytes (b : Bytes) : leading (ofBytes b) = (b.takeWhile (· = 0)).length := by
  rw [leading, ofBytes, List.takeWhile_map, List.length_map]
  congr 2
  funext x
  simp [UInt8.ext_iff]

/-- The shortest byte string of an integer has the digits of the integer. -/
theorem ofBytes_packBE (v : Nat) :
    ofBytes (packBE (Nat.digits 256 v).length v) = (Nat.digits 256 v).reverse := by
  rw [packBE, ofBytes, List.map_reverse]
  congr 1
  induction v using Nat.strong_induction_on with
  | _ v ih =>
    by_cases hv : v = 0
    · rw [hv]
      rfl
    · rw [Nat.digits_eq_cons_digits_div (by omega) hv, List.length_cons, packLE, List.map_cons,
        ih (v / 256) (by omega)]
      simp

/-- The bit length in whole bytes is the number of base 256 digits. -/
theorem size_add_seven_div (v : Nat) : (v.size + 7) / 8 = (Nat.digits 256 v).length := by
  apply eq_of_forall_ge_iff
  intro k
  rw [Nat.digits_length_le_iff (by omega), show (256 : Nat) = 2 ^ 8 by rfl, ← pow_mul,
    ← Nat.size_le]
  omega

end ElectrumX.Base.Numeral
