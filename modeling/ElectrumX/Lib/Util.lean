import ElectrumX.Base.Bytes
import Mathlib.Data.List.Sort

/-!
# Packing, bisection and exceptions

The struct packers of `lib/util.py:316–345` raise `struct.error` on integers outside
their range and on buffers of the wrong length; the bisections are those of the
standard library on sorted sequences.
-/

namespace ElectrumX.Lib
open ElectrumX.Base

/-- `ChainError` with the data of its message, `server/block_processor.py:161`. -/
inductive ChainError where
  /-- `UTXO … / … not found in "h" table`, `block_processor.py:658`. -/
  | utxoNotFound (txHash : Bytes) (txIdx : Nat)
  /-- `backup block … not tip … at height …`, `block_processor.py:503`. -/
  | notTip (headerHash tip : Bytes) (height : Int)
  /-- `no undo information found for height …`, `block_processor.py:526`. -/
  | noUndoInfo (height : Int)
  deriving DecidableEq, Repr

/-- `DB.DBError` with the data of its message, `server/db.py:74`. -/
inductive DBError where
  /-- `failed reading state from DB`, `db.py:603`. -/
  | badState
  /-- `your UTXO DB version is …`, `db.py:606`. -/
  | badVersion (version : Nat)
  /-- `DB genesis hash … does not match coin …`, `db.py:614`. -/
  | badGenesis (genesisHash : Bytes)
  /-- `… headers starting at … not on disk`, `db.py:436`. -/
  | headersNotOnDisk (startHeight count : Int)
  /-- `block … not on disk`, `db.py:466`. -/
  | blockNotOnDisk (blockHeight dbHeight : Int)
  /-- `only got … headers starting at …`, `db.py:483`. -/
  | headersMissing (got height count : Int)
  deriving DecidableEq, Repr

/-- The reasons of an `RPCError`. -/
inductive RPCError where
  /-- `history too large`, `session.py:815`. -/
  | historyTooLarge
  deriving DecidableEq, Repr

/-- The exceptions that the modelled code can raise. -/
inductive PyError where
  | structError
  | assertionError
  | indexError
  | valueError
  | typeError
  | runtimeError
  | keyError
  | attributeError
  | nameError
  | chainError (e : ChainError)
  | dbError (e : DBError)
  | rpcError (e : RPCError)
  deriving DecidableEq, Repr

/-- The lower-case hexadecimal digit of a number below 16. -/
def hexDigit (n : Nat) : Char := if n < 10 then Char.ofNat (48 + n) else Char.ofNat (87 + n)

/-- `bytes.hex`. -/
def hexChars (b : Bytes) : List Char :=
  b.flatMap fun x ↦ [hexDigit (x.toNat / 16), hexDigit (x.toNat % 16)]

/-- `hash_to_hex_str`, `lib/hash.py:50–55`. -/
def hashToHexStr (x : Bytes) : String := String.ofList (hexChars x.reverse)

/-- The slice `b[i:j]` with Python's treatment of negative and large bounds. -/
def pySlice (b : Bytes) (i j : Int) : Bytes :=
  let clamp (k : Int) : Nat := if k < 0 then (k + b.length).toNat else min k.toNat b.length
  (b.drop (clamp i)).take (clamp j - clamp i)

/-- The part of a byte string between two others. -/
theorem pySlice_append (a b c : Bytes) :
    pySlice (a ++ b ++ c) a.length (a.length + b.length) = b := by
  have h1 : ¬ ((a.length : Int) < 0) := by omega
  have h2 : ¬ ((a.length : Int) + b.length < 0) := by omega
  have h3 : ((a.length : Int) + b.length).toNat = a.length + b.length := by omega
  simp only [pySlice, if_neg h1, if_neg h2, h3, Int.toNat_natCast, List.length_append]
  rw [Nat.min_eq_left (by omega), Nat.min_eq_left (by omega), List.append_assoc,
    List.drop_left, Nat.add_sub_cancel_left, List.take_left]

/-- A Python `assert` statement. -/
def assertThat (p : Prop) [Decidable p] : Except PyError Unit :=
  if p then .ok () else .error .assertionError

/-- Indexing a sequence with a natural number. -/
def getItem {α : Type} (a : List α) (i : Nat) : Except PyError α :=
  match a[i]? with
  | some x => .ok x
  | none => .error .indexError

/-- `pack_le_uint16`, `lib/util.py:339`. -/
def packLeUint16 (n : Nat) : Except PyError Bytes :=
  if n < 2 ^ 16 then .ok (packLE 2 n) else .error .structError

/-- `pack_le_uint32`, `lib/util.py:340`. -/
def packLeUint32 (n : Nat) : Except PyError Bytes :=
  if n < 2 ^ 32 then .ok (packLE 4 n) else .error .structError

/-- `pack_le_uint64`, `lib/util.py:341`. -/
def packLeUint64 (n : Int) : Except PyError Bytes :=
  if 0 ≤ n ∧ n < 2 ^ 64 then .ok (packLE 8 n.toNat) else .error .structError

/-- `pack_le_int32`, `lib/util.py:337`; a 32-bit integer is in range. -/
def packLeInt32 (n : Int32) : Bytes := packLE 4 n.toUInt32.toNat

/-- `pack_le_int64`, `lib/util.py:338`. -/
def packLeInt64 (n : Int) : Except PyError Bytes :=
  if -2 ^ 63 ≤ n ∧ n < 2 ^ 63 then .ok (packLE 8 (n % 2 ^ 64).toNat) else .error .structError

/-- `pack_be_uint16`, `lib/util.py:342`. -/
def packBeUint16 (n : Nat) : Except PyError Bytes :=
  if n < 2 ^ 16 then .ok (packBE 2 n) else .error .structError

/-- `pack_be_uint32`, `lib/util.py:343`. -/
def packBeUint32 (n : Int) : Except PyError Bytes :=
  if 0 ≤ n ∧ n < 2 ^ 32 then .ok (packBE 4 n.toNat) else .error .structError

/-- `unpack_le_uint32`, `lib/util.py:333`. -/
def unpackLeUint32 (b : Bytes) : Except PyError Nat :=
  if b.length = 4 then .ok (unpackLE b) else .error .structError

/-- `unpack_le_uint64`, `lib/util.py:334`. -/
def unpackLeUint64 (b : Bytes) : Except PyError Nat :=
  if b.length = 8 then .ok (unpackLE b) else .error .structError

/-- `unpack_be_uint32`, `lib/util.py:335`. -/
def unpackBeUint32 (b : Bytes) : Except PyError Nat :=
  if b.length = 4 then .ok (unpackBE b) else .error .structError

/-- `unpack_be_uint16_from`, `lib/util.py:330`: the first two bytes. -/
def unpackBeUint16From (b : Bytes) : Except PyError Nat :=
  if 2 ≤ b.length then .ok (unpackBE (b.take 2)) else .error .structError

/-- `pack_varint`, `lib/util.py:349–356`. -/
def packVarint (n : Nat) : Except PyError Bytes :=
  if n < 253 then .ok [UInt8.ofNat n]
  else if n < 65536 then .ok (253 :: packLE 2 n)
  else if n < 4294967296 then .ok (254 :: packLE 4 n)
  else return 255 :: (← packLeUint64 n)

/-- `pack_varbytes`, `lib/util.py:359`. -/
def packVarbytes (data : Bytes) : Except PyError Bytes := do
  return (← packVarint data.length) ++ data

/-- `bisect.bisect_left` of a sorted sequence: the number of elements below `x`. -/
def bisectLeft (a : List Nat) (x : Nat) : Nat := (a.takeWhile fun y ↦ y < x).length

/-- `bisect.bisect_right` of a sorted sequence: the number of elements up to `x`. -/
def bisectRight (a : List Nat) (x : Nat) : Nat := (a.takeWhile fun y ↦ y ≤ x).length

/-- `array('Q', b)`: the little-endian 64-bit items of a buffer of whole items. -/
def arrayQ (b : Bytes) : Except PyError (List Nat) :=
  if b.length % 8 = 0 then .ok ((chunks b 8).map unpackLE) else .error .valueError

/-- `sorted` of byte strings. -/
def sorted (keys : List Bytes) : List Bytes :=
  keys.insertionSort fun a b ↦ (compare a b).isLE

/-- `resolve_limit`, `lib/util.py:169–173`; `-1` stands for no limit. -/
def resolveLimit : Option Int → Int
  | none => -1
  | some limit => if limit < 0 then -1 else limit

theorem mem_sorted {keys : List Bytes} {k : Bytes} : k ∈ sorted keys ↔ k ∈ keys :=
  List.mem_insertionSort _

/-- A sequence succeeds when both parts do. -/
theorem bind_eq_ok {α β : Type} {x : Except PyError α} {f : α → Except PyError β} {b : β} :
    x >>= f = .ok b ↔ ∃ a, x = .ok a ∧ f a = .ok b := by
  cases x with
  | error e => simp [bind, Except.bind]
  | ok a => simp [bind, Except.bind]

instance {α : Type} (x : Except PyError α) (p : α → Prop) [DecidablePred p] :
    Decidable (∃ a, x = .ok a ∧ p a) :=
  match x with
  | .ok a => decidable_of_iff (p a) (by simp)
  | .error _ => isFalse (by simp)

/-- A comprehension succeeds when all its items do. -/
theorem mapM_eq_ok {α β : Type} {f : α → Except PyError β} {xs : List α} {ys : List β} :
    xs.mapM f = .ok ys ↔ List.Forall₂ (fun x y ↦ f x = .ok y) xs ys := by
  induction xs generalizing ys with
  | nil =>
    rw [List.mapM_nil, List.forall₂_nil_left_iff]
    exact ⟨fun h ↦ by cases h; rfl, fun h ↦ by rw [h]; rfl⟩
  | cons x xs ih =>
    rw [List.mapM_cons, bind_eq_ok]
    constructor
    · rintro ⟨y, hy, h⟩
      obtain ⟨zs, hzs, h⟩ := bind_eq_ok.mp h
      cases h
      exact .cons hy (ih.mp hzs)
    · rintro (_ | ⟨hy, h⟩)
      exact ⟨_, hy, bind_eq_ok.mpr ⟨_, ih.mpr h, rfl⟩⟩

/-- A comprehension raises what one of its items raises. -/
theorem exists_of_mapM_eq_error {α β : Type} {f : α → Except PyError β} {xs : List α}
    {e : PyError} (h : xs.mapM f = .error e) : ∃ x ∈ xs, f x = .error e := by
  induction xs with
  | nil => cases h
  | cons x xs ih =>
    rw [List.mapM_cons] at h
    cases hx : f x with
    | error e' =>
      rw [hx] at h
      cases h
      exact ⟨x, List.mem_cons_self, hx⟩
    | ok y =>
      rw [hx] at h
      cases hm : xs.mapM f with
      | error e' =>
        have he : e' = e := by
          rw [hm] at h
          cases h
          rfl
        obtain ⟨z, hz, h⟩ := ih (hm.trans (congrArg _ he))
        exact ⟨z, List.mem_cons_of_mem _ hz, h⟩
      | ok ys =>
        rw [hm] at h
        cases h

/-- A comprehension succeeds when every item does. -/
theorem exists_mapM_eq_ok {α β : Type} {f : α → Except PyError β} {xs : List α}
    (h : ∀ x ∈ xs, ∃ y, f x = .ok y) : ∃ ys, xs.mapM f = .ok ys := by
  cases hm : xs.mapM f with
  | ok ys => exact ⟨ys, rfl⟩
  | error e =>
    obtain ⟨x, hx, he⟩ := exists_of_mapM_eq_error hm
    obtain ⟨y, hy⟩ := h x hx
    cases he.symm.trans hy

theorem mem_of_mapM_eq_ok {α β : Type} {f : α → Except PyError β} {xs : List α} {ys : List β}
    (h : xs.mapM f = .ok ys) {y : β} : y ∈ ys ↔ ∃ x ∈ xs, f x = .ok y := by
  induction mapM_eq_ok.mp h with
  | nil => simp
  | cons hy _ ih =>
    simp only [List.mem_cons, exists_eq_or_imp, hy, Except.ok.injEq]
    rw [ih (mapM_eq_ok.mpr ‹_›), eq_comm]

theorem pairwise_of_mapM_eq_ok {α β : Type} {f : α → Except PyError β} {xs : List α}
    {ys : List β} {R : α → α → Prop} {S : β → β → Prop} (h : xs.mapM f = .ok ys)
    (hR : xs.Pairwise R)
    (hS : ∀ x x' y y', f x = .ok y → f x' = .ok y' → R x x' → S y y') : ys.Pairwise S := by
  induction mapM_eq_ok.mp h with
  | nil => exact .nil
  | @cons x y xs ys hy hxs ih =>
    obtain ⟨hx, hR⟩ := List.pairwise_cons.mp hR
    have hm := mapM_eq_ok.mpr hxs
    refine List.pairwise_cons.mpr ⟨fun y' hy' ↦ ?_, ih hm hR⟩
    obtain ⟨x', hx', hfx'⟩ := (mem_of_mapM_eq_ok hm).mp hy'
    exact hS x x' y y' hy hfx' (hx x' hx')

/-- A comprehension whose items all succeed. -/
theorem mapM_of_ok {α β : Type} {f : α → Except PyError β} {g : α → β} {xs : List α}
    (h : ∀ x ∈ xs, f x = .ok (g x)) : xs.mapM f = .ok (xs.map g) := by
  rw [mapM_eq_ok, List.forall₂_map_right_iff, List.forall₂_same]
  exact h

/-- A loop whose rounds all succeed. -/
theorem foldlM_of_ok {α σ : Type} {f : σ → α → Except PyError σ} {g : σ → α → σ} {xs : List α}
    {s : σ} (h : ∀ t, ∀ x ∈ xs, f t x = .ok (g t x)) : xs.foldlM f s = .ok (xs.foldl g s) := by
  induction xs generalizing s with
  | nil => rfl
  | cons x xs ih =>
    rw [List.foldlM_cons, h s x List.mem_cons_self]
    exact ih fun t y hy ↦ h t y (List.mem_cons_of_mem _ hy)

/-- What every round of a loop preserves holds at its end. -/
theorem foldlM_invariant {α σ : Type} {f : σ → α → Except PyError σ} {xs : List α} {s s' : σ}
    {P : σ → Prop} (h : xs.foldlM f s = .ok s') (hs : P s)
    (hstep : ∀ t t' x, x ∈ xs → P t → f t x = .ok t' → P t') : P s' := by
  induction xs generalizing s with
  | nil =>
    cases h
    exact hs
  | cons x xs ih =>
    rw [List.foldlM_cons, bind_eq_ok] at h
    obtain ⟨t, ht, h⟩ := h
    exact ih h (hstep s t x List.mem_cons_self hs ht)
      fun t t' y hy ↦ hstep t t' y (List.mem_cons_of_mem _ hy)

/-- A loop succeeds when every round does under an invariant. -/
theorem foldlM_ok {α σ : Type} {f : σ → α → Except PyError σ} {xs : List α} {s : σ}
    {P : σ → Prop} (hs : P s) (hstep : ∀ t x, x ∈ xs → P t → ∃ t', f t x = .ok t' ∧ P t') :
    ∃ s', xs.foldlM f s = .ok s' ∧ P s' := by
  induction xs generalizing s with
  | nil => exact ⟨s, rfl, hs⟩
  | cons x xs ih =>
    obtain ⟨t, ht, hP⟩ := hstep s x List.mem_cons_self hs
    obtain ⟨s', h, hs'⟩ := ih hP fun t y hy ↦ hstep t y (List.mem_cons_of_mem _ hy)
    exact ⟨s', by rw [List.foldlM_cons, ht]; exact h, hs'⟩

/-- A passed assertion has no effect. -/
@[simp] theorem assertThat_of {p : Prop} [Decidable p] (h : p) : assertThat p = .ok () := by
  simp [assertThat, h]

/-- An assertion passes exactly when its condition holds. -/
theorem assertThat_eq_ok {p : Prop} [Decidable p] : assertThat p = .ok () ↔ p := by
  by_cases h : p <;> simp [assertThat, h]

/-- What follows an assertion is run when it passes. -/
theorem assertThat_bind_eq_ok {p : Prop} [Decidable p] {β : Type} {x : Except PyError β} {b : β} :
    (assertThat p >>= fun _ ↦ x) = .ok b ↔ p ∧ x = .ok b := by
  by_cases h : p <;> simp [assertThat, h, bind, Except.bind]

/-- No assertion fails in a computation. -/
def AssertionsHold {α : Type} (x : Except PyError α) : Prop := x ≠ .error .assertionError

theorem AssertionsHold.ok {α : Type} (a : α) : AssertionsHold (.ok a) := nofun

theorem AssertionsHold.bind {α β : Type} {x : Except PyError α} {f : α → Except PyError β}
    (hx : AssertionsHold x) (hf : ∀ a, x = .ok a → AssertionsHold (f a)) :
    AssertionsHold (x >>= f) := by
  cases x with
  | error e => exact fun h ↦ hx (congrArg _ (Except.error.inj h))
  | ok a => exact hf a rfl

theorem AssertionsHold.mapM {α β : Type} {f : α → Except PyError β} {xs : List α}
    (h : ∀ x ∈ xs, AssertionsHold (f x)) : AssertionsHold (xs.mapM f) := by
  induction xs with
  | nil => exact .ok _
  | cons x xs ih =>
    rw [List.mapM_cons]
    refine .bind (h x List.mem_cons_self) fun y _ ↦ ?_
    exact .bind (ih fun z hz ↦ h z (List.mem_cons_of_mem _ hz)) fun ys _ ↦ .ok _

/-- Indexing inside a sequence returns its item. -/
theorem getItem_of_some {α : Type} {a : List α} {i : Nat} {x : α} (h : a[i]? = some x) :
    getItem a i = .ok x := by
  rw [getItem, h]

/-- Packing an integer in range succeeds. -/
theorem packLeUint16_of_lt {n : Nat} (h : n < 2 ^ 16) : packLeUint16 n = .ok (packLE 2 n) :=
  if_pos h

/-- Packing an integer in range succeeds. -/
theorem packLeUint32_of_lt {n : Nat} (h : n < 2 ^ 32) : packLeUint32 n = .ok (packLE 4 n) :=
  if_pos h

/-- Packing a natural number in range succeeds. -/
theorem packLeUint64_of_lt {n : Nat} (h : n < 2 ^ 64) : packLeUint64 n = .ok (packLE 8 n) := by
  have hn : 0 ≤ (n : Int) ∧ (n : Int) < 2 ^ 64 := by omega
  rw [packLeUint64, if_pos hn, Int.toNat_natCast]

/-- Packing an integer in range succeeds. -/
theorem packBeUint16_of_lt {n : Nat} (h : n < 2 ^ 16) : packBeUint16 n = .ok (packBE 2 n) :=
  if_pos h

/-- Packing a natural number in range succeeds. -/
theorem packBeUint32_of_lt {n : Nat} (h : n < 2 ^ 32) : packBeUint32 n = .ok (packBE 4 n) := by
  have hn : 0 ≤ (n : Int) ∧ (n : Int) < 2 ^ 32 := by omega
  rw [packBeUint32, if_pos hn, Int.toNat_natCast]

/-- Unpacking four bytes succeeds. -/
theorem unpackLeUint32_of_length {b : Bytes} (h : b.length = 4) :
    unpackLeUint32 b = .ok (unpackLE b) := if_pos h

/-- Unpacking eight bytes succeeds. -/
theorem unpackLeUint64_of_length {b : Bytes} (h : b.length = 8) :
    unpackLeUint64 b = .ok (unpackLE b) := if_pos h

/-- An array of packed items holds the items. -/
theorem arrayQ_flatMap {ns : List Nat} (h : ∀ n ∈ ns, n < 2 ^ 64) :
    arrayQ (ns.flatMap (packLE 8)) = .ok ns := by
  have hw : ∀ n ∈ ns, (packLE 8 n).length = 8 := fun n _ ↦ length_packLE 8 n
  have hl := length_flatMap_of_width (packLE 8) ns hw
  have hm : (ns.flatMap (packLE 8)).length % 8 = 0 := by omega
  rw [arrayQ, if_pos hm, chunks_flatMap (by omega) _ _ hw, List.map_map]
  congr 1
  conv_rhs => rw [← List.map_id ns]
  apply List.map_congr_left
  intro n hn
  exact unpackLE_packLE_of_lt (h n hn)

/-- Bisecting from the left splits a sorted sequence at `x`. -/
theorem take_bisectLeft {a : List Nat} (h : a.Pairwise (· < ·)) (x : Nat) :
    a.take (bisectLeft a x) = a.filter (· < x) := by
  induction a with
  | nil => rfl
  | cons y ys ih =>
    have hy := List.pairwise_cons.mp h
    have ht := ih hy.2
    rw [bisectLeft] at ht ⊢
    by_cases hx : y < x
    · simp only [List.takeWhile_cons, hx, decide_true, if_true, List.length_cons,
        List.take_succ_cons, List.filter_cons]
      rw [ht]
    · have hz : ys.filter (· < x) = [] := by
        apply List.filter_eq_nil_iff.mpr
        intro z hz
        have := hy.1 z hz
        simp only [decide_eq_true_eq]
        omega
      simp [hx, hz]

end ElectrumX.Lib
