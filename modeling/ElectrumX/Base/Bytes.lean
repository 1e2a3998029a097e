import Mathlib.Data.Nat.Digits.Defs
import Mathlib.Tactic.Ring

/-!
# Byte strings and fixed-width integers

Byte strings are lists of bytes, compared as unsigned bytes with a proper prefix
first. Fixed-width integers are written little-endian or big-endian; big-endian
images of one width compare as the integers do. Chunking cuts a string into rows
of one width, and inverts concatenation of rows of that width.
-/

namespace ElectrumX.Base

/-- An immutable byte string. -/
abbrev Bytes := List UInt8

/-- The `w` low-order bytes of `n`, least significant first. -/
def packLE : Nat → Nat → Bytes
  | 0, _ => []
  | w + 1, n => UInt8.ofNat n :: packLE w (n / 256)

/-- The integer whose little-endian bytes are given. -/
def unpackLE : Bytes → Nat
  | [] => 0
  | b :: bs => b.toNat + 256 * unpackLE bs

/-- The `w` low-order bytes of `n`, most significant first. -/
def packBE (w n : Nat) : Bytes := (packLE w n).reverse

/-- The integer whose big-endian bytes are given. -/
def unpackBE (b : Bytes) : Nat := unpackLE b.reverse

/-- The last `n` bytes, or the whole string when it is shorter. -/
def lastN (n : Nat) (b : Bytes) : Bytes := b.drop (b.length - n)

/-- Cut a list into consecutive pieces of `size` elements, the last one possibly shorter. -/
def chunks {α : Type} (items : List α) (size : Nat) : List (List α) :=
  (List.range ((items.length + size - 1) / size)).map fun i ↦ (items.drop (i * size)).take size

/-! ### Little-endian integers -/

/-- Packing produces exactly the requested width. -/
@[simp] theorem length_packLE (w n : Nat) : (packLE w n).length = w := by
  induction w generalizing n with
  | zero => rfl
  | succ w ih => simp [packLE, ih]

/-- Unpacking a packed integer reduces it modulo the width. -/
theorem unpackLE_packLE (w n : Nat) : unpackLE (packLE w n) = n % 256 ^ w := by
  induction w generalizing n with
  | zero => simp [packLE, unpackLE, Nat.mod_one]
  | succ w ih =>
    have hm : n % 256 ^ (w + 1) = n % 256 + 256 * (n / 256 % 256 ^ w) := by
      rw [pow_succ', Nat.mod_mul]
    rw [packLE, unpackLE, ih, UInt8.toNat_ofNat', hm]

/-- An integer that fits its width is recovered. -/
theorem unpackLE_packLE_of_lt {w n : Nat} (h : n < 256 ^ w) : unpackLE (packLE w n) = n := by
  rw [unpackLE_packLE, Nat.mod_eq_of_lt h]

/-- A byte string denotes an integer below its width. -/
theorem unpackLE_lt (b : Bytes) : unpackLE b < 256 ^ b.length := by
  induction b with
  | nil => simp [unpackLE]
  | cons x xs ih =>
    have hx : x.toNat < 256 := x.toNat_lt
    rw [unpackLE, List.length_cons, pow_succ]
    omega

/-- Repacking an unpacked string recovers it. -/
theorem packLE_unpackLE (b : Bytes) : packLE b.length (unpackLE b) = b := by
  induction b with
  | nil => rfl
  | cons x xs ih =>
    have hx : x.toNat < 256 := x.toNat_lt
    have hd : (x.toNat + 256 * unpackLE xs) / 256 = unpackLE xs := by omega
    have hm : UInt8.ofNat (x.toNat + 256 * unpackLE xs) = x := by
      apply UInt8.toNat_inj.mp
      rw [UInt8.toNat_ofNat']
      omega
    rw [List.length_cons, unpackLE, packLE, hd, hm, ih]

/-- Packing is injective on integers that fit the width. -/
theorem packLE_inj {w m n : Nat} (hm : m < 256 ^ w) (hn : n < 256 ^ w) :
    packLE w m = packLE w n ↔ m = n := by
  constructor
  · intro h
    have hu := congrArg unpackLE h
    rwa [unpackLE_packLE_of_lt hm, unpackLE_packLE_of_lt hn] at hu
  · rintro rfl
    rfl

/-- The low-order bytes of a wider image are the narrower image. -/
theorem take_packLE {k w : Nat} (n : Nat) (h : k ≤ w) : (packLE w n).take k = packLE k n := by
  induction k generalizing w n with
  | zero => rfl
  | succ k ih =>
    cases w with
    | zero => omega
    | succ w =>
      have hw : k ≤ w := by omega
      rw [packLE, packLE, List.take_succ_cons, ih (n / 256) hw]

/-- The left part carries the low-order bytes of a concatenation. -/
theorem unpackLE_append (a b : Bytes) :
    unpackLE (a ++ b) = unpackLE a + 256 ^ a.length * unpackLE b := by
  induction a with
  | nil => simp [unpackLE]
  | cons x xs ih =>
    rw [List.cons_append, unpackLE, unpackLE, ih, List.length_cons, pow_succ']
    ring

/-- Zero bytes denote zero. -/
theorem unpackLE_replicate_zero (k : Nat) : unpackLE (List.replicate k 0) = 0 := by
  induction k with
  | zero => rfl
  | succ k ih => simp [List.replicate_succ, unpackLE, ih]

/-- High-order zero padding does not change the integer. -/
theorem unpackLE_append_zeros (b : Bytes) (k : Nat) :
    unpackLE (b ++ List.replicate k 0) = unpackLE b := by
  rw [unpackLE_append, unpackLE_replicate_zero, Nat.mul_zero, Nat.add_zero]

/-- Appending zeros packs the number into more bytes. -/
theorem packLE_append_zeros {w n : Nat} (k : Nat) (h : n < 256 ^ w) :
    packLE w n ++ List.replicate k 0 = packLE (w + k) n := by
  have hu : unpackLE (packLE w n ++ List.replicate k 0) = n := by
    rw [unpackLE_append_zeros, unpackLE_packLE_of_lt h]
  have hp := packLE_unpackLE (packLE w n ++ List.replicate k 0)
  rw [hu, List.length_append, length_packLE, List.length_replicate] at hp
  exact hp.symm

/-! ### Big-endian integers and order -/

/-- Big-endian packing produces exactly the requested width. -/
@[simp] theorem length_packBE (w n : Nat) : (packBE w n).length = w := by
  rw [packBE, List.length_reverse, length_packLE]

/-- A big-endian integer that fits its width is recovered. -/
theorem unpackBE_packBE_of_lt {w n : Nat} (h : n < 256 ^ w) : unpackBE (packBE w n) = n := by
  rw [unpackBE, packBE, List.reverse_reverse, unpackLE_packLE_of_lt h]

/-- A big-endian string denotes an integer below its width. -/
theorem unpackBE_lt (b : Bytes) : unpackBE b < 256 ^ b.length := by
  rw [unpackBE, ← List.length_reverse]
  exact unpackLE_lt b.reverse

/-- Repacking an unpacked big-endian string recovers it. -/
theorem packBE_unpackBE (b : Bytes) : packBE b.length (unpackBE b) = b := by
  rw [packBE, unpackBE, ← List.length_reverse, packLE_unpackLE, List.reverse_reverse]

/-- Big-endian packing is injective on integers that fit the width. -/
theorem packBE_inj {w m n : Nat} (hm : m < 256 ^ w) (hn : n < 256 ^ w) :
    packBE w m = packBE w n ↔ m = n := by
  rw [packBE, packBE, List.reverse_inj, packLE_inj hm hn]

/-- A common prefix does not affect the comparison. -/
theorem compare_append_left (p a b : Bytes) : compare (p ++ a) (p ++ b) = compare a b := by
  induction p with
  | nil => rfl
  | cons x xs ih =>
    have hx : compare x x = .eq := Std.ReflCmp.compare_self
    rw [List.cons_append, List.cons_append, List.compare_cons_cons, ih, hx]
    rfl

private theorem compare_snoc (a b : Bytes) (x y : UInt8) (h : a.length = b.length) :
    compare (a ++ [x]) (b ++ [y]) = (compare a b).then (compare x y) := by
  induction a generalizing b with
  | nil =>
    have hb : b = [] := List.eq_nil_of_length_eq_zero h.symm
    subst hb
    cases hc : compare x y <;> simp [List.compare_cons_cons, hc]
  | cons u us ih =>
    cases b with
    | nil => simp at h
    | cons v vs =>
      have hl : us.length = vs.length := by simpa using h
      rw [List.cons_append, List.cons_append, List.compare_cons_cons, List.compare_cons_cons,
        ih vs hl]
      cases compare u v <;> rfl

/-- Big-endian images of one width compare as the integers do. -/
theorem compare_packBE {w m n : Nat} (hm : m < 256 ^ w) (hn : n < 256 ^ w) :
    compare (packBE w m) (packBE w n) = compare m n := by
  induction w generalizing m n with
  | zero =>
    have hm0 : m = 0 := by simpa using hm
    have hn0 : n = 0 := by simpa using hn
    subst hm0 hn0
    rfl
  | succ w ih =>
    have hm' : m / 256 < 256 ^ w := by rw [pow_succ] at hm; omega
    have hn' : n / 256 < 256 ^ w := by rw [pow_succ] at hn; omega
    rw [packBE, packBE, packLE, packLE, List.reverse_cons, List.reverse_cons]
    change compare (packBE w (m / 256) ++ _) (packBE w (n / 256) ++ _) = _
    rw [compare_snoc _ _ _ _ (by simp), ih hm' hn']
    have hb : compare (UInt8.ofNat m) (UInt8.ofNat n) = compare (m % 256) (n % 256) := by
      simp [compare, compareOfLessAndEq, UInt8.lt_iff_toNat_lt, ← UInt8.toNat_inj]
    rw [hb]
    rcases Nat.lt_trichotomy (m / 256) (n / 256) with h | h | h
    · rw [Nat.compare_eq_lt.mpr h, Nat.compare_eq_lt.mpr (by omega : m < n)]
      rfl
    · rw [Nat.compare_eq_eq.mpr h]
      rcases Nat.lt_trichotomy (m % 256) (n % 256) with h' | h' | h'
      · rw [Nat.compare_eq_lt.mpr h', Nat.compare_eq_lt.mpr (by omega : m < n)]
        rfl
      · rw [Nat.compare_eq_eq.mpr h', Nat.compare_eq_eq.mpr (by omega : m = n)]
        rfl
      · rw [Nat.compare_eq_gt.mpr h', Nat.compare_eq_gt.mpr (by omega : n < m)]
        rfl
    · rw [Nat.compare_eq_gt.mpr h, Nat.compare_eq_gt.mpr (by omega : n < m)]
      rfl

/-- The first part of a big-endian string counts for the higher places. -/
theorem packBE_append (v w m n : Nat) (hn : n < 256 ^ w) :
    packBE v m ++ packBE w n = packBE (v + w) (m * 256 ^ w + n) := by
  have hLE : packLE w n ++ packLE v m = packLE (w + v) (m * 256 ^ w + n) := by
    induction w generalizing n with
    | zero =>
      obtain rfl : n = 0 := by simpa using hn
      simp [packLE]
    | succ w ih =>
      have hdiv : n / 256 < 256 ^ w := by
        rw [Nat.div_lt_iff_lt_mul (by omega)]
        rwa [Nat.pow_succ] at hn
      have hsum : m * 256 ^ (w + 1) + n = n % 256 + 256 * (m * 256 ^ w + n / 256) := by
        have := Nat.div_add_mod n 256
        rw [Nat.pow_succ]
        nlinarith
      have hmod : (m * 256 ^ (w + 1) + n) / 256 = m * 256 ^ w + n / 256 := by omega
      have hbyte : UInt8.ofNat (m * 256 ^ (w + 1) + n) = UInt8.ofNat n := by
        apply UInt8.toNat_inj.mp
        simp only [UInt8.toNat_ofNat']
        omega
      rw [Nat.add_right_comm, packLE, packLE, List.cons_append, ih _ hdiv, hmod, hbyte]
  rw [packBE, packBE, packBE, ← List.reverse_append, hLE, Nat.add_comm]

/-! ### Slices and chunks -/

/-- The last bytes of a concatenation are its right part. -/
theorem lastN_append (a b : Bytes) : lastN b.length (a ++ b) = b := by
  rw [lastN, List.length_append, Nat.add_sub_cancel, List.drop_left]

/-- The last bytes of a concatenation, given the length of its right part. -/
theorem lastN_append_of_length {n : Nat} (a : Bytes) {b : Bytes} (h : b.length = n) :
    lastN n (a ++ b) = b := by
  rw [← h, lastN_append]

/-- No bytes make no chunks. -/
theorem chunks_nil {α : Type} {size : Nat} (h : 0 < size) : chunks ([] : List α) size = [] := by
  have hz : (0 + size - 1) / size = 0 := Nat.div_eq_of_lt (by omega)
  rw [chunks, List.length_nil, hz]
  rfl

/-- A full leading chunk comes off first. -/
theorem chunks_append {α : Type} {size : Nat} (h : 0 < size) (a b : List α) (ha : a.length = size) :
    chunks (a ++ b) size = a :: chunks b size := by
  have hn : (a ++ b).length + size - 1 = (b.length + size - 1) + size := by
    rw [List.length_append, ha]
    omega
  have hd : ((a ++ b).length + size - 1) / size = (b.length + size - 1) / size + 1 := by
    rw [hn, Nat.add_div_right _ h]
  rw [chunks, hd, List.range_succ_eq_map, List.map_cons, List.map_map]
  congr 1
  · rw [Nat.zero_mul, List.drop_zero, ← ha, List.take_left]
  · apply List.map_congr_left
    intro i _
    have hi : (i + 1) * size = a.length + i * size := by rw [ha]; ring
    simp only [Function.comp, Nat.succ_eq_add_one]
    rw [hi, List.drop_length_add_append]

/-- Chunking inverts the concatenation of rows of one width. -/
theorem chunks_flatMap {α β : Type} {size : Nat} (h : 0 < size) (f : β → List α) (xs : List β)
    (hf : ∀ x ∈ xs, (f x).length = size) : chunks (xs.flatMap f) size = xs.map f := by
  induction xs with
  | nil => exact chunks_nil h
  | cons x xs ih =>
    rw [List.flatMap_cons, chunks_append h _ _ (hf x (by simp)),
      ih (fun y hy ↦ hf y (by simp [hy])), List.map_cons]

/-- Rows of one width concatenate to a multiple of the width. -/
theorem length_flatMap_of_width {α β : Type} {size : Nat} (f : β → List α) (xs : List β)
    (hf : ∀ x ∈ xs, (f x).length = size) : (xs.flatMap f).length = size * xs.length := by
  induction xs with
  | nil => rfl
  | cons x xs ih =>
    rw [List.flatMap_cons, List.length_append, hf x (by simp),
      ih (fun y hy ↦ hf y (by simp [hy])), List.length_cons]
    ring

/-- Skipping whole rows of a concatenation skips as many elements. -/
theorem drop_flatMap_of_width {α β : Type} {size : Nat} (f : β → List α) (xs : List β)
    (hf : ∀ x ∈ xs, (f x).length = size) (k : Nat) :
    (xs.flatMap f).drop (k * size) = (xs.drop k).flatMap f := by
  induction k generalizing xs with
  | zero => simp
  | succ k ih =>
    cases xs with
    | nil => simp
    | cons x xs =>
      have hk : (k + 1) * size = (f x).length + k * size := by rw [hf x (by simp)]; ring
      rw [List.flatMap_cons, hk, List.drop_length_add_append,
        ih xs (fun y hy ↦ hf y (by simp [hy])), List.drop_succ_cons]

/-- Keeping whole rows of a concatenation keeps as many elements. -/
theorem take_flatMap_of_width {α β : Type} {size : Nat} (f : β → List α) (xs : List β)
    (hf : ∀ x ∈ xs, (f x).length = size) (k : Nat) :
    (xs.flatMap f).take (k * size) = (xs.take k).flatMap f := by
  induction k generalizing xs with
  | zero => simp
  | succ k ih =>
    cases xs with
    | nil => simp
    | cons x xs =>
      have hk : (k + 1) * size = (f x).length + k * size := by rw [hf x (by simp)]; ring
      rw [List.flatMap_cons, hk, List.take_length_add_append,
        ih xs (fun y hy ↦ hf y (by simp [hy])), List.take_succ_cons, List.flatMap_cons]

/-! ### All chunks -/

section Chunks

variable {α β : Type} {size : Nat}

@[simp] theorem length_chunks (items : List α) (size : Nat) :
    (chunks items size).length = (items.length + size - 1) / size := by
  simp [chunks]

/-- The first chunk and the chunks of the rest. -/
theorem chunks_eq_cons (h : 0 < size) {items : List α} (hne : items ≠ []) :
    chunks items size = items.take size :: chunks (items.drop size) size := by
  by_cases hl : size ≤ items.length
  · conv_lhs => rw [← List.take_append_drop size items]
    exact chunks_append h _ _ (by rw [List.length_take]; omega)
  · have hpos := List.length_pos_iff.mpr hne
    have hone : (items.length + size - 1) / size = 1 :=
      Nat.div_eq_of_lt_le (by omega) (by omega)
    rw [List.drop_eq_nil_of_le (by omega), chunks_nil h, chunks, hone]
    simp

/-- The chunks of a list concatenate to it. -/
theorem flatten_chunks (h : 0 < size) (items : List α) : (chunks items size).flatten = items := by
  induction hn : items.length using Nat.strong_induction_on generalizing items with
  | _ n ih =>
    by_cases hne : items = []
    · rw [hne, chunks_nil h, List.flatten_nil]
    · have hpos := List.length_pos_iff.mpr hne
      rw [chunks_eq_cons h hne, List.flatten_cons,
        ih _ (by rw [List.length_drop]; omega) _ rfl, List.take_append_drop]

/-- A chunk is not empty, and not longer than its size. -/
theorem mem_chunks (h : 0 < size) {items chunk : List α} (hm : chunk ∈ chunks items size) :
    chunk ≠ [] ∧ chunk.length ≤ size := by
  obtain ⟨i, hi, rfl⟩ := List.mem_map.mp hm
  have hlt := List.mem_range.mp hi
  have hstart : i * size < items.length := by
    have hle : (i + 1) * size ≤ items.length + size - 1 :=
      (Nat.le_div_iff_mul_le h).mp hlt
    rw [Nat.add_mul] at hle
    omega
  constructor
  · apply List.ne_nil_of_length_pos
    rw [List.length_take, List.length_drop]
    omega
  · rw [List.length_take]
    exact Nat.min_le_left _ _

theorem getElem?_chunks {items : List α} {i : Nat} (hi : i < (items.length + size - 1) / size) :
    (chunks items size)[i]? = some ((items.drop (i * size)).take size) := by
  rw [chunks, List.getElem?_map, List.getElem?_range hi]
  rfl

private theorem mul_lt_of_lt_chunks {n i : Nat} (hi : i < (n + size - 1) / size) :
    i * size < n := by
  rcases Nat.eq_zero_or_pos size with rfl | h
  · rw [Nat.div_zero] at hi
    omega
  · have h1 := (Nat.le_div_iff_mul_le h).mp (Nat.succ_le_of_lt hi)
    rw [Nat.succ_mul] at h1
    omega

/-- No chunk is empty. -/
theorem ne_nil_of_mem_chunks {items chunk : List α} (hc : chunk ∈ chunks items size) :
    chunk ≠ [] := by
  obtain ⟨i, hi, rfl⟩ := List.mem_map.mp hc
  have hlt := mul_lt_of_lt_chunks (List.mem_range.mp hi)
  have hsize : 0 < size := by
    rcases Nat.eq_zero_or_pos size with rfl | h
    · simp at hi
    · exact h
  intro hnil
  have hl := congrArg List.length hnil
  rw [List.length_take, List.length_drop, List.length_nil] at hl
  omega

/-- Every chunk but the last one is full. -/
theorem length_of_getElem?_chunks {items chunk : List α} {i : Nat}
    (hc : (chunks items size)[i]? = some chunk) (hi : i + 1 < (chunks items size).length) :
    chunk.length = size := by
  rw [length_chunks] at hi
  rw [getElem?_chunks (by omega)] at hc
  cases hc
  have hlt := mul_lt_of_lt_chunks hi
  rw [Nat.succ_mul] at hlt
  rw [List.length_take, List.length_drop]
  omega

/-- The chunks of rows of one width, cut between the rows, are the rows of the chunks. -/
theorem chunks_flatMap_mul {width : Nat} (hw : 0 < width) (h : 0 < size) (f : β → List α)
    (xs : List β) (hf : ∀ x ∈ xs, (f x).length = width) :
    chunks (xs.flatMap f) (size * width) = (chunks xs size).map (·.flatMap f) := by
  have hpos : 0 < size * width := Nat.mul_pos h hw
  induction hn : xs.length using Nat.strong_induction_on generalizing xs with
  | _ n ih =>
    by_cases hne : xs = []
    · rw [hne, List.flatMap_nil, chunks_nil hpos, chunks_nil h, List.map_nil]
    · have hlen := List.length_pos_iff.mpr hne
      have hne' : xs.flatMap f ≠ [] := by
        intro hnil
        have hl := length_flatMap_of_width f xs hf
        rw [hnil, List.length_nil] at hl
        have := Nat.mul_pos hw hlen
        omega
      rw [chunks_eq_cons hpos hne', chunks_eq_cons h hne, List.map_cons,
        take_flatMap_of_width f xs hf, drop_flatMap_of_width f xs hf,
        ih _ (by rw [List.length_drop]; omega) _ (fun x hx ↦ hf x (List.mem_of_mem_drop hx)) rfl]

end Chunks
end ElectrumX.Base
