import ElectrumX.Index.ReorgRange
import ElectrumX.Server.ProofRequests
import ElectrumX.Server.Session

/-!
# What a status tells

The text that `address_status` hashes, and that it can be read back: as long as the hash function
does not collide on two texts, two statuses are equal when they list the same transactions with
the same heights, and then only.
-/

namespace ElectrumX.Index
open ElectrumX.Base ElectrumX.Lib ElectrumX.Server

/-- The format `{n:d}`. -/
def decimal : Int → List Char
  | .ofNat n => Nat.toDigits 10 n
  | .negSucc n => '-' :: Nat.toDigits 10 (n + 1)

/-- The part of the text for one transaction, `session.py:1176–1182`. -/
def statusPart (e : Hash32 × Int) : List Char :=
  hexChars e.1.val.reverse ++ ':' :: (decimal e.2 ++ [':'])

/-- The transactions with the heights that the text gives them: `-1` or `0` in the mempool. -/
def statusParts (s : Status) : List (Hash32 × Int) :=
  s.history ++ s.mempool.map fun e ↦ (e.1, if e.2 then -1 else 0)

/-- The text before it is hashed. -/
def statusText (s : Status) : List Char := (statusParts s).flatMap statusPart

/-- `str.encode` on ASCII text. -/
def encode (text : List Char) : Bytes := text.map fun ch ↦ UInt8.ofNat ch.toNat

/-- What `address_status` returns, `session.py:1187–1190`. -/
def statusHex (sha256 : Bytes → Bytes) (s : Status) : Option String :=
  if statusText s = [] then none else some (bytesHex (sha256 (encode (statusText s))))

/-! ### Numbers and hashes -/

theorem isDigit_of_mem_decimal {n : Int} {ch : Char} (h : ch ∈ decimal n) :
    ch = '-' ∨ ch.isDigit = true := by
  cases n with
  | ofNat n => exact .inr (Nat.isDigit_of_mem_toDigits (by decide) (by decide) h)
  | negSucc n =>
    rcases List.mem_cons.mp h with rfl | h
    · exact .inl rfl
    · exact .inr (Nat.isDigit_of_mem_toDigits (by decide) (by decide) h)

theorem toDigits_inj {m n : Nat} (h : Nat.toDigits 10 m = Nat.toDigits 10 n) : m = n := by
  have hval := congrArg (Nat.ofDigitChars 10 · 0) h
  simpa only [Nat.ofDigitChars_ten_toDigits] using hval

theorem decimal_inj {m n : Int} (h : decimal m = decimal n) : m = n := by
  have hminus : ∀ k : Nat, '-' ∉ Nat.toDigits 10 k := by
    intro k hk
    have := Nat.isDigit_of_mem_toDigits (by decide) (by decide) hk
    cases this
  cases m with
  | ofNat m =>
    cases n with
    | ofNat n => rw [toDigits_inj h]
    | negSucc n =>
      have hmem : '-' ∈ Nat.toDigits 10 m := by
        change Nat.toDigits 10 m = '-' :: _ at h
        rw [h]
        exact List.mem_cons_self
      exact absurd hmem (hminus m)
  | negSucc m =>
    cases n with
    | ofNat n =>
      have hmem : '-' ∈ Nat.toDigits 10 n := by
        change '-' :: _ = Nat.toDigits 10 n at h
        rw [← h]
        exact List.mem_cons_self
      exact absurd hmem (hminus n)
    | negSucc n => rw [Nat.succ_injective (toDigits_inj (List.cons.inj h).2)]

theorem colon_notMem_decimal (n : Int) : ':' ∉ decimal n := by
  intro h
  rcases isDigit_of_mem_decimal h with h | h
  · cases h
  · cases h

theorem length_hexChars (b : Bytes) : (hexChars b).length = 2 * b.length := by
  induction b with
  | nil => rfl
  | cons x xs ih =>
    rw [hexChars, List.flatMap_cons, List.length_append, ← hexChars, ih,
      show (x :: xs).length = xs.length + 1 from rfl, Nat.mul_add_one, Nat.add_comm]
    rfl

/-! ### Reading the text back -/

/-- Up to the first occurrence of a separator, two lists agree. -/
theorem append_cons_inj {α : Type} {sep : α} {xs ys us vs : List α} (hx : sep ∉ xs) (hy : sep ∉ ys)
    (h : xs ++ sep :: us = ys ++ sep :: vs) : xs = ys ∧ us = vs := by
  induction xs generalizing ys with
  | nil =>
    cases ys with
    | nil => exact ⟨rfl, (List.cons.inj h).2⟩
    | cons y ys => exact absurd ((List.cons.inj h).1 ▸ List.mem_cons_self) hy
  | cons x xs ih =>
    cases ys with
    | nil => exact absurd ((List.cons.inj h).1 ▸ List.mem_cons_self) hx
    | cons y ys =>
      obtain ⟨rfl, htail⟩ := List.cons.inj h
      obtain ⟨rfl, rfl⟩ := ih (fun hm ↦ hx (List.mem_cons_of_mem _ hm))
        (fun hm ↦ hy (List.mem_cons_of_mem _ hm)) htail
      exact ⟨rfl, rfl⟩

/-- The first part and the rest of a text can be told. -/
theorem statusPart_append_inj {e e' : Hash32 × Int} {rest rest' : List Char}
    (h : statusPart e ++ rest = statusPart e' ++ rest') : e = e' ∧ rest = rest' := by
  simp only [statusPart, List.append_assoc, List.cons_append, List.nil_append] at h
  have hlen : (hexChars e.1.val.reverse).length = (hexChars e'.1.val.reverse).length := by
    rw [length_hexChars, length_hexChars, List.length_reverse, List.length_reverse, e.1.property,
      e'.1.property]
  obtain ⟨hhash, h⟩ := List.append_inj h hlen
  obtain ⟨hheight, h⟩ := append_cons_inj (colon_notMem_decimal _) (colon_notMem_decimal _)
    (List.cons.inj h).2
  exact ⟨Prod.ext (Subtype.ext (List.reverse_injective (hexChars_inj hhash)))
    (decimal_inj hheight), h⟩

theorem statusPart_ne_nil (e : Hash32 × Int) : statusPart e ≠ [] := by
  intro h
  have := congrArg List.length h
  rw [statusPart, List.length_append, List.length_cons] at this
  cases this

theorem flatMap_statusPart_inj {es es' : List (Hash32 × Int)}
    (h : es.flatMap statusPart = es'.flatMap statusPart) : es = es' := by
  induction es generalizing es' with
  | nil =>
    cases es' with
    | nil => rfl
    | cons e' es' =>
      rw [List.flatMap_cons] at h
      exact absurd (List.append_eq_nil_iff.mp h.symm).1 (statusPart_ne_nil e')
  | cons e es ih =>
    cases es' with
    | nil =>
      rw [List.flatMap_cons] at h
      exact absurd (List.append_eq_nil_iff.mp h).1 (statusPart_ne_nil e)
    | cons e' es' =>
      rw [List.flatMap_cons, List.flatMap_cons] at h
      obtain ⟨rfl, hrest⟩ := statusPart_append_inj h
      rw [ih hrest]

theorem statusText_inj {s s' : Status} : statusText s = statusText s' ↔
    statusParts s = statusParts s' :=
  ⟨flatMap_statusPart_inj, fun h ↦ by rw [statusText, h, statusText]⟩

/-! ### The hash -/

theorem toNat_hexDigit_lt : ∀ n < 16, (hexDigit n).toNat < 128 := by decide

/-- The characters of a text are ASCII. -/
theorem toNat_lt_of_mem_statusText {s : Status} {ch : Char} (h : ch ∈ statusText s) :
    ch.toNat < 128 := by
  obtain ⟨e, -, h⟩ := List.mem_flatMap.mp h
  rw [statusPart, List.mem_append, List.mem_cons, List.mem_append, List.mem_singleton] at h
  rcases h with h | rfl | h | rfl
  · obtain ⟨x, -, hx⟩ := List.mem_flatMap.mp h
    have := x.toNat_lt
    rcases List.mem_cons.mp hx with rfl | hx
    · exact toNat_hexDigit_lt _ (by omega)
    · rw [List.mem_singleton.mp hx]
      exact toNat_hexDigit_lt _ (by omega)
  · decide
  · rcases isDigit_of_mem_decimal h with rfl | h
    · decide
    · exact Nat.lt_of_le_of_lt (Char.isDigit_iff_toNat.mp h).2 (by decide)
  · decide

theorem encode_inj {text text' : List Char} (h : ∀ ch ∈ text, ch.toNat < 128)
    (h' : ∀ ch ∈ text', ch.toNat < 128) (heq : encode text = encode text') : text = text' := by
  induction text generalizing text' with
  | nil => exact (List.map_eq_nil_iff.mp heq.symm).symm
  | cons x xs ih =>
    cases text' with
    | nil => cases heq
    | cons y ys =>
      obtain ⟨hhead, htail⟩ := List.cons.inj heq
      have hx := h x List.mem_cons_self
      have hy := h' y List.mem_cons_self
      have hnat := congrArg UInt8.toNat hhead
      rw [UInt8.toNat_ofNat', UInt8.toNat_ofNat'] at hnat
      have hxy : x.toNat = y.toNat := by omega
      rw [Char.toNat_inj.mp hxy, ih (fun ch hch ↦ h ch (List.mem_cons_of_mem _ hch))
        (fun ch hch ↦ h' ch (List.mem_cons_of_mem _ hch)) htail]

theorem bytesHex_inj {a b : Bytes} (h : bytesHex a = bytesHex b) : a = b :=
  hexChars_inj (String.ofList_injective h)

theorem statusText_eq_nil {s : Status} : statusText s = [] ↔ s = {} := by
  constructor
  · intro h
    have hparts : statusParts s = [] := flatMap_statusPart_inj h
    obtain ⟨hhistory, hmempool⟩ := List.append_eq_nil_iff.mp hparts
    obtain ⟨history, mempool⟩ := s
    cases hhistory
    cases List.map_eq_nil_iff.mp hmempool
    rfl
  · rintro rfl
    rfl

/-- The confirmed part and the mempool part can be told by the heights. -/
theorem statusParts_inj {s s' : Status} (h : ∀ e ∈ s.history, 0 < e.2)
    (h' : ∀ e ∈ s'.history, 0 < e.2) (heq : statusParts s = statusParts s') : s = s' := by
  have hconfirmed : ∀ {s : Status}, (∀ e ∈ s.history, 0 < e.2) →
      (statusParts s).filter (fun e ↦ 0 < e.2) = s.history := by
    intro s h
    have hpool : ((s.mempool.map fun e ↦ (e.1, if e.2 then (-1 : Int) else 0)).filter
        fun e ↦ 0 < e.2) = [] := by
      rw [List.filter_eq_nil_iff]
      intro e he
      obtain ⟨e, -, rfl⟩ := List.mem_map.mp he
      cases e.2 with
      | false => simp
      | true => simp
    rw [statusParts, List.filter_append, hpool, List.append_nil, List.filter_eq_self]
    exact fun e he ↦ decide_eq_true (h e he)
  have hhistory : s.history = s'.history := by rw [← hconfirmed h, heq, hconfirmed h']
  obtain ⟨history, mempool⟩ := s
  obtain ⟨history', mempool'⟩ := s'
  cases hhistory
  have hmempool := List.append_cancel_left heq
  have hinj : Function.Injective fun e : Hash32 × Bool ↦ (e.1, if e.2 then (-1 : Int) else 0) := by
    rintro ⟨a, x⟩ ⟨b, y⟩ hab
    obtain ⟨rfl, hxy⟩ := Prod.mk.inj hab
    cases x <;> cases y <;> first | rfl | cases hxy
  cases List.map_injective_iff.mpr hinj hmempool
  rfl

/-- Two statuses are equal exactly when they list the same transactions with the same heights in
the same order; when no confirmed transaction is in the genesis block, exactly when the confirmed
histories and the mempool summaries are the same. No history at all has the status `None`. -/
theorem statusHex_eq_iff (sha256 : Bytes → Bytes) (s s' : Status)
    (hsha : Set.InjOn sha256 {encode (statusText s), encode (statusText s')}) :
    (statusHex sha256 s = statusHex sha256 s' ↔ statusParts s = statusParts s') ∧
      ((∀ e ∈ s.history, 0 < e.2) → (∀ e ∈ s'.history, 0 < e.2) →
        (statusHex sha256 s = statusHex sha256 s' ↔ s = s')) ∧
      (statusHex sha256 s = none ↔ s = {}) := by
  have hparts : statusHex sha256 s = statusHex sha256 s' ↔ statusParts s = statusParts s' := by
    rw [← statusText_inj, statusHex, statusHex]
    constructor
    · intro h
      split_ifs at h with hs hs' hs'
      · rw [hs, hs']
      · have hhash := hsha (.inl rfl) (.inr rfl) (bytesHex_inj (Option.some.inj h))
        exact encode_inj (fun _ ↦ toNat_lt_of_mem_statusText)
          (fun _ ↦ toNat_lt_of_mem_statusText) hhash
    · intro h
      rw [h]
  refine ⟨hparts, fun hpos hpos' ↦ ⟨fun h ↦ statusParts_inj hpos hpos' (hparts.mp h), ?_⟩, ?_⟩
  · rintro rfl
    rfl
  · rw [← statusText_eq_nil, statusHex]
    split_ifs with hs
    · simp [hs]
    · simp [hs]

/-- Unhashed, one confirmed transaction and then one in the mempool with unconfirmed inputs. -/
theorem sampleStatus_eq_iff :
    statusHex id ⟨[(sampleHash [1], 5)], [(sampleHash [2], true)]⟩ =
      statusHex id ⟨[(sampleHash [1], 5)], [(sampleHash [2], false)]⟩ ↔
    (⟨[(sampleHash [1], 5)], [(sampleHash [2], true)]⟩ : Status) =
      ⟨[(sampleHash [1], 5)], [(sampleHash [2], false)]⟩ :=
  (statusHex_eq_iff id _ _ (Set.injOn_id _)).2.1 (by decide) (by decide)

end ElectrumX.Index
