import ElectrumX.Base.Numeral
import ElectrumX.Lib.Util

/-!
# Base 58

A text and a byte string are numerals in base 58 and 256; encoding and decoding keep the value and
the number of leading zeros, so each inverts the other.
-/

namespace ElectrumX.Lib
open ElectrumX.Base ElectrumX.Base.Numeral

/-- `Base58Error` with the data of its message, `lib/hash.py:63`. -/
inductive Base58Error where
  /-- `string cannot be empty`, `hash.py:89`. -/
  | empty
  /-- `invalid base 58 character "…"`, `hash.py:79`. -/
  | invalidCharacter (c : Char)
  /-- `invalid base 58 checksum for …`, `hash.py:133`. -/
  | invalidChecksum (txt : String)
  deriving DecidableEq, Repr

/-- `bytes_to_int`, `lib/util.py:176`. -/
def bytesToInt (beBytes : Bytes) : Nat := unpackBE beBytes

/-- `int_to_bytes`, `lib/util.py:181`. -/
def intToBytes (value : Nat) : Bytes := packBE ((value.size + 7) / 8) value

/-- The width that `int_to_bytes` asks for holds the integer. -/
theorem bytesToInt_intToBytes (value : Nat) : bytesToInt (intToBytes value) = value := by
  rw [intToBytes, size_add_seven_div]
  exact unpackBE_packBE_of_lt (Nat.lt_base_pow_length_digits (by omega))

namespace Base58

/-- `Base58.chars`, `lib/hash.py:70`. -/
def chars : List Char := "123456789ABCDEFGHJKLMNPQRSTUVWXYZabcdefghijkmnopqrstuvwxyz".toList

theorem length_chars : chars.length = 58 := by decide

/-- `Base58.chars[i]`. -/
def charAt (i : Nat) : Char := chars.getD i '1'

/-- `Base58.char_value`, `lib/hash.py:75–79`. -/
def charValue (c : Char) : Except Base58Error Nat :=
  match chars.idxOf? c with
  | some n => .ok n
  | none => .error (.invalidCharacter c)

/-- `Base58.decode`, `lib/hash.py:82–106`. -/
def decode (txt : String) : Except Base58Error Bytes := do
  if txt.toList = [] then throw .empty
  let value ← txt.toList.foldlM (fun value c ↦ return value * 58 + (← charValue c)) 0
  let count := (txt.toList.takeWhile (· = '1')).length
  return List.replicate count 0 ++ intToBytes value

/-- The digits of a value from the least significant one on, `lib/hash.py:114–116`. -/
def digitLoop (value : Nat) (txt : List Char) : List Char :=
  if value = 0 then txt else digitLoop (value / 58) (txt ++ [charAt (value % 58)])

/-- `Base58.encode`, `lib/hash.py:109–123`. -/
def encode (beBytes : Bytes) : String :=
  let txt := digitLoop (bytesToInt beBytes) []
  let txt := txt ++ List.replicate (beBytes.takeWhile (· = 0)).length '1'
  String.ofList txt.reverse

/-- `Base58.decode_check`, `lib/hash.py:126–134`. -/
def decodeCheck (hashFn : Bytes → Bytes) (txt : String) : Except Base58Error Bytes := do
  let beBytes ← decode txt
  let result := pySlice beBytes 0 (-4)
  let check := lastN 4 beBytes
  if check ≠ (hashFn result).take 4 then throw (.invalidChecksum txt)
  return result

/-- `Base58.encode_check`, `lib/hash.py:137–141`. -/
def encodeCheck (hashFn : Bytes → Bytes) (payload : Bytes) : String :=
  encode (payload ++ (hashFn payload).take 4)

/-! ### Texts as numerals -/

/-- The alphabet has a character for each digit. -/
theorem charValue_charAt {d : Nat} (h : d < 58) : charValue (charAt d) = .ok d := by
  have hall : ∀ i : Fin 58, charValue (charAt i) = .ok i := by decide +kernel
  exact hall ⟨d, h⟩

/-- The value of a character is the place where the alphabet has it. -/
theorem charValue_eq_ok {c : Char} {d : Nat} : charValue c = .ok d ↔ d < 58 ∧ c = charAt d := by
  constructor
  · intro h
    unfold charValue at h
    split at h
    · next n hn =>
      cases h
      obtain ⟨hd, hc, -⟩ := List.idxOf?_eq_some_iff.mp hn
      rw [length_chars] at hd
      refine ⟨hd, ?_⟩
      rw [charAt, List.getD_eq_getElem?_getD, List.getElem?_eq_getElem (by rwa [length_chars])]
      simpa using hc.symm
    · cases h
  · rintro ⟨hd, rfl⟩
    exact charValue_charAt hd

/-- A character without a value is not in the alphabet. -/
theorem charValue_eq_error {c : Char} {e : Base58Error} :
    charValue c = .error e ↔ c ∉ chars ∧ e = .invalidCharacter c := by
  unfold charValue
  split
  · next n hn =>
    have hc : c ∈ chars := by
      by_contra hc
      rw [List.idxOf?_eq_none_iff.mpr hc] at hn
      cases hn
    simp [hc]
  · next hn =>
    have hc : c ∉ chars := List.idxOf?_eq_none_iff.mp hn
    simp [hc, eq_comm]

theorem charAt_eq_one {d : Nat} (h : d < 58) : charAt d = '1' ↔ d = 0 := by
  have hall : ∀ i : Fin 58, charAt i = '1' ↔ i.val = 0 := by decide +kernel
  exact hall ⟨d, h⟩

/-- The characters of a text over the alphabet, from its digits. -/
theorem exists_digits {txt : List Char} (h : ∀ c ∈ txt, c ∈ chars) :
    ∃ ds : List Nat, (∀ d ∈ ds, d < 58) ∧ txt = ds.map charAt := by
  induction txt with
  | nil => exact ⟨[], by simp, rfl⟩
  | cons c txt ih =>
    obtain ⟨ds, hds, rfl⟩ := ih fun x hx ↦ h x (List.mem_cons_of_mem _ hx)
    cases hc : charValue c with
    | error e => exact absurd (h c List.mem_cons_self) (charValue_eq_error.mp hc).1
    | ok d =>
      obtain ⟨hd, rfl⟩ := charValue_eq_ok.mp hc
      exact ⟨d :: ds, by simpa using ⟨hd, hds⟩, rfl⟩

/-- The value loop of `decode` over a text from the alphabet. -/
private theorem foldlM_charAt {ds : List Nat} (h : ∀ d ∈ ds, d < 58) (v : Nat) :
    (ds.map charAt).foldlM (fun value c ↦ do return value * 58 + (← charValue c)) v =
      (.ok (ds.foldl (fun v d ↦ v * 58 + d) v) : Except Base58Error Nat) := by
  induction ds generalizing v with
  | nil => rfl
  | cons d ds ih =>
    rw [List.map_cons, List.foldlM_cons, charValue_charAt (h d List.mem_cons_self)]
    exact ih (fun d hd ↦ h d (List.mem_cons_of_mem _ hd)) _

/-- The value loop of `decode` over any other text. -/
private theorem foldlM_error {txt : List Char} (h : ∃ c ∈ txt, c ∉ chars) (v : Nat) :
    ∃ c, txt.foldlM (fun value c ↦ do return value * 58 + (← charValue c)) v =
      (.error (.invalidCharacter c) : Except Base58Error Nat) := by
  induction txt generalizing v with
  | nil => simp at h
  | cons x txt ih =>
    rw [List.foldlM_cons]
    by_cases hx : x ∈ chars
    · cases hv : charValue x with
      | error e => exact absurd hx (charValue_eq_error.mp hv).1
      | ok d =>
        apply ih
        obtain ⟨c, hc, hn⟩ := h
        rcases List.mem_cons.mp hc with rfl | hc
        · exact absurd hx hn
        · exact ⟨c, hc, hn⟩
    · exact ⟨x, by rw [charValue_eq_error.mpr ⟨hx, rfl⟩]; rfl⟩

/-- The leading ones of a text are the leading zeros of its digits. -/
private theorem takeWhile_charAt {ds : List Nat} (h : ∀ d ∈ ds, d < 58) :
    ((ds.map charAt).takeWhile (· = '1')).length = leading ds := by
  rw [leading]
  induction ds with
  | nil => rfl
  | cons d ds ih =>
    have ht := ih fun x hx ↦ h x (List.mem_cons_of_mem _ hx)
    by_cases hd : d = 0
    · have hc := (charAt_eq_one (h d List.mem_cons_self)).mpr hd
      simp [hd, hd ▸ hc, ht]
    · have hc := mt (charAt_eq_one (h d List.mem_cons_self)).mp hd
      simp [hd, hc]

/-- Behind its leading zeros, a decoded text is the shortest image of its value. -/
private theorem ofBytes_intToBytes (k v : Nat) :
    ofBytes (List.replicate k 0 ++ intToBytes v) = write 256 k v := by
  rw [intToBytes, size_add_seven_div, ofBytes, List.map_append, List.map_replicate, write]
  congr 1
  exact ofBytes_packBE v

/-- What `decode` returns for the text of some digits. -/
theorem decode_charAt {ds : List Nat} (h : ∀ d ∈ ds, d < 58) (hne : ds ≠ []) :
    ∃ b, decode (String.ofList (ds.map charAt)) = .ok b ∧
      ofBytes b = write 256 (leading ds) (value 58 ds) := by
  refine ⟨_, ?_, ofBytes_intToBytes _ _⟩
  have hm : ds.map charAt ≠ [] := by simpa using hne
  unfold decode
  rw [String.toList_ofList, if_neg hm, takeWhile_charAt h]
  have hv := foldlM_charAt h 0
  rw [foldl_eq_value] at hv
  dsimp only [pure, bind, Except.pure, Except.bind] at hv ⊢
  rw [hv]

/-- The digit loop appends the digits of its value. -/
private theorem digitLoop_eq (v : Nat) (txt : List Char) :
    digitLoop v txt = txt ++ (Nat.digits 58 v).map charAt := by
  induction v using Nat.strong_induction_on generalizing txt with
  | _ v ih =>
    rw [digitLoop]
    split
    · next hv => simp [hv]
    · next hv =>
      rw [ih (v / 58) (by omega), Nat.digits_eq_cons_digits_div (by omega) hv, List.map_cons,
        List.append_assoc, List.singleton_append]

/-- The text of a byte string has the digits of its value behind its leading zeros. -/
theorem encode_eq (b : Bytes) :
    encode b = String.ofList ((write 58 (leading (ofBytes b)) (value 256 (ofBytes b))).map charAt) := by
  unfold encode
  dsimp only
  rw [digitLoop_eq, bytesToInt, ← value_ofBytes, ← leading_ofBytes, write, List.nil_append,
    List.reverse_append, List.reverse_replicate, List.map_append, List.map_replicate,
    List.map_reverse]
  rfl

theorem write_lt {b k v : Nat} (hb : 1 < b) {d : Nat} (h : d ∈ write b k v) : d < b := by
  rcases List.mem_append.mp h with h | h
  · rw [(List.mem_replicate.mp h).2]
    omega
  · exact Nat.digits_lt_base hb (List.mem_reverse.mp h)

/-- Decoding inverts encoding. -/
theorem decode_encode {b : Bytes} (hb : b ≠ []) : decode (encode b) = .ok b := by
  have hw := @write_leading_value 256 (by omega) (ofBytes b) fun d ↦ ofBytes_lt
  have hne : write 58 (leading (ofBytes b)) (value 256 (ofBytes b)) ≠ [] := by
    intro h
    obtain ⟨hk, hv⟩ := write_eq_nil.mp h
    rw [hk, hv] at hw
    exact hb (List.map_eq_nil_iff.mp hw.symm)
  obtain ⟨b', hd, he⟩ := decode_charAt (fun d ↦ write_lt (by omega)) hne
  rw [leading_write, value_write, hw] at he
  rw [encode_eq, hd, ofBytes_injective he]

/-- Encoding inverts decoding. -/
theorem encode_of_decode {txt : String} (hne : txt ≠ "") (h : ∀ c ∈ txt.toList, c ∈ chars) :
    ∃ b, decode txt = .ok b ∧ encode b = txt := by
  obtain ⟨ds, hds, hm⟩ := exists_digits h
  have ht : txt = String.ofList (ds.map charAt) := by rw [← hm, String.ofList_toList]
  have hd : ds ≠ [] := by
    rintro rfl
    exact hne ht
  obtain ⟨b, hb, he⟩ := decode_charAt hds hd
  refine ⟨b, by rw [ht, hb], ?_⟩
  rw [encode_eq, he, leading_write, value_write, write_leading_value (by omega) hds, ht]

/-- `decode` raises on no text but the empty one and those with a foreign character. -/
theorem exists_decode_eq_error {txt : String} :
    (∃ e, decode txt = .error e) ↔ txt = "" ∨ ∃ c ∈ txt.toList, c ∉ chars := by
  constructor
  · rintro ⟨e, he⟩
    by_contra hn
    push Not at hn
    obtain ⟨b, hb, -⟩ := encode_of_decode hn.1 hn.2
    cases hb.symm.trans he
  · rintro (rfl | h)
    · exact ⟨.empty, rfl⟩
    · obtain ⟨c, hc⟩ := foldlM_error h 0
      obtain ⟨x, hx, -⟩ := h
      refine ⟨.invalidCharacter c, ?_⟩
      unfold decode
      rw [if_neg (List.ne_nil_of_mem hx)]
      dsimp only [pure, bind, Except.pure, Except.bind] at hc ⊢
      rw [hc]

/-- A checked text decodes to its payload. -/
theorem decodeCheck_encodeCheck {hashFn : Bytes → Bytes} (hh : ∀ b, 4 ≤ (hashFn b).length)
    (payload : Bytes) : decodeCheck hashFn (encodeCheck hashFn payload) = .ok payload := by
  have hl : ((hashFn payload).take 4).length = 4 := by
    rw [List.length_take]
    have := hh payload
    omega
  have hne : payload ++ (hashFn payload).take 4 ≠ [] := by
    intro h
    rw [(List.append_eq_nil_iff.mp h).2] at hl
    cases hl
  have hr : pySlice (payload ++ (hashFn payload).take 4) 0 (-4) = payload := by
    have ht : ((-4 : Int) + (payload ++ (hashFn payload).take 4).length).toNat =
        payload.length := by
      rw [List.length_append, hl]
      omega
    simp only [pySlice]
    rw [if_neg (show ¬(0 : Int) < 0 by omega), if_pos (show (-4 : Int) < 0 by omega), ht]
    simp
  unfold decodeCheck encodeCheck
  rw [decode_encode hne]
  change (if lastN 4 (payload ++ (hashFn payload).take 4) ≠ _ then _ else _) = _
  rw [hr, lastN_append_of_length payload hl, if_neg (not_not_intro rfl)]
  rfl

/-- Encoding and decoding invert each other, decoding raises on nothing but the empty text and
foreign characters, and checked texts decode to their payloads. -/
theorem bijective :
    (∀ b, b ≠ [] → decode (encode b) = .ok b) ∧
      (∀ txt, txt ≠ "" → (∀ c ∈ txt.toList, c ∈ chars) →
        ∃ b, decode txt = .ok b ∧ encode b = txt) ∧
      (∀ txt, (∃ e, decode txt = .error e) ↔ txt = "" ∨ ∃ c ∈ txt.toList, c ∉ chars) ∧
      ∀ (hashFn : Bytes → Bytes) (payload : Bytes), payload ≠ [] →
        (∀ b, 4 ≤ (hashFn b).length) →
          decodeCheck hashFn (encodeCheck hashFn payload) = .ok payload :=
  ⟨fun _ hb ↦ decode_encode hb, fun _ hne h ↦ encode_of_decode hne h,
    fun _ ↦ exists_decode_eq_error, fun _ payload _ hh ↦ decodeCheck_encodeCheck hh payload⟩

private theorem sample_chars : ∀ c ∈ "1Z".toList, c ∈ chars := by
  intro c hc
  have hc' : c = '1' ∨ c = 'Z' := by simpa using hc
  rcases hc' with rfl | rfl
  · decide
  · decide

/-- Two leading zeros, a text with a leading one, and a payload of a constant hash. -/
theorem bijective_sample :
    decode (encode [0, 0, 1]) = .ok [0, 0, 1] ∧
      (∃ b, decode "1Z" = .ok b ∧ encode b = "1Z") ∧
      decodeCheck (fun _ ↦ [1, 2, 3, 4, 5]) (encodeCheck (fun _ ↦ [1, 2, 3, 4, 5]) [0]) =
        .ok [0] :=
  ⟨bijective.1 [0, 0, 1] (by decide), bijective.2.1 "1Z" (by decide) sample_chars,
    bijective.2.2.2 (fun _ ↦ [1, 2, 3, 4, 5]) [0] (by decide) (fun _ ↦ by decide)⟩

end Base58

end ElectrumX.Lib
