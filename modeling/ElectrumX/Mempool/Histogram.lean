import ElectrumX.Lib.Util
import Mathlib.Data.Prod.Lex
import Mathlib.Tactic.Linarith
import Mathlib.Tactic.Positivity

/-!
# The compact fee histogram

Fee rates are keys of any linear order, and the bin size grows by an exact 11/10. The loop walks
the rates from the highest down, and its state is described by the rates that it has seen.
-/

namespace ElectrumX.Mempool
open ElectrumX.Lib

variable {K : Type}

/-- A map from fee rates to the positive total sizes of the transactions that pay them, in the
order of `histogram.items()`. -/
structure Histogram (K : Type) where
  items : List (K × Nat)
  nodup : (items.map Prod.fst).Nodup
  pos : ∀ e ∈ items, 0 < e.2

/-- The local variables of `MemPool._compress_histogram`. -/
structure CompressState (K : Type) where
  compact : List (K × Nat) := []
  cumSize : Nat := 0
  prevFeeRate : Option K := none
  binSize : ℚ

/-- Append the cumulative size under a fee rate, `server/mempool.py:193–195` and `201–203`. -/
def CompressState.append (s : CompressState K) (feeRate : K) : CompressState K :=
  { s with
    compact := s.compact ++ [(feeRate, s.cumSize)]
    cumSize := 0
    binSize := s.binSize * (11 / 10) }

/-- Consider adding the previous item before a big lump, `server/mempool.py:192–195`. -/
def CompressState.addPrevious (s : CompressState K) (size : Nat) : CompressState K :=
  match s.prevFeeRate with
  | some prev => if (size : ℚ) > 2 * s.binSize ∧ 0 < s.cumSize then s.append prev else s
  | none => s

/-- Consider adding an item, `server/mempool.py:197–204`. -/
def CompressState.addItem (s : CompressState K) (feeRate : K) (size : Nat) : CompressState K :=
  let s := { s with cumSize := s.cumSize + size }
  let s := if (s.cumSize : ℚ) > s.binSize then s.append feeRate else s
  { s with prevFeeRate := some feeRate }

/-- One round of the loop, `server/mempool.py:189–204`. -/
def CompressState.step (s : CompressState K) (item : K × Nat) : CompressState K :=
  (s.addPrevious item.2).addItem item.1 item.2

section
variable [LinearOrder K]

/-- `sorted(histogram.items(), reverse=True)`, `server/mempool.py:189`. -/
def Histogram.descending (h : Histogram K) : List (K × Nat) :=
  h.items.insertionSort fun a b ↦ toLex b ≤ toLex a

/-- The local variables at the end of the loop, `server/mempool.py:185–204`. -/
def Histogram.compressLoop (h : Histogram K) (binSize : ℚ) : CompressState K :=
  h.descending.foldl CompressState.step { binSize }

/-- `MemPool._compress_histogram`, `server/mempool.py:170–205`. -/
def Histogram.compress (h : Histogram K) (binSize : ℚ) : Except PyError (List (K × Nat)) := do
  assertThat (0 < binSize)
  return (h.compressLoop binSize).compact

end

/-! ### Total sizes -/

/-- The total size of the items whose fee rate is in a set. -/
def sizeWhere (items : List (K × Nat)) (p : K → Prop) [DecidablePred p] : Nat :=
  ((items.filter fun e ↦ p e.1).map Prod.snd).sum

/-- The fee rate of the last entry of a compact histogram. -/
def lastRate (compact : List (K × Nat)) : Option K := compact.getLast?.map Prod.fst

@[simp] theorem lastRate_append (compact : List (K × Nat)) (e : K × Nat) :
    lastRate (compact ++ [e]) = some e.1 := by
  simp [lastRate]

theorem sizeWhere_append (a b : List (K × Nat)) (p : K → Prop) [DecidablePred p] :
    sizeWhere (a ++ b) p = sizeWhere a p + sizeWhere b p := by
  simp [sizeWhere]

theorem sizeWhere_singleton (e : K × Nat) (p : K → Prop) [DecidablePred p] :
    sizeWhere [e] p = if p e.1 then e.2 else 0 := by
  by_cases hp : p e.1 <;> simp [sizeWhere, hp]

theorem sizeWhere_congr {items : List (K × Nat)} {p q : K → Prop} [DecidablePred p]
    [DecidablePred q] (h : ∀ e ∈ items, (p e.1 ↔ q e.1)) : sizeWhere items p = sizeWhere items q := by
  unfold sizeWhere
  rw [List.filter_congr fun e he ↦ decide_eq_decide.mpr (h e he)]

theorem sizeWhere_perm {a b : List (K × Nat)} (h : a.Perm b) (p : K → Prop) [DecidablePred p] :
    sizeWhere a p = sizeWhere b p :=
  ((h.filter _).map _).sum_eq

/-- A positive total has an item. -/
theorem exists_of_sizeWhere_pos {items : List (K × Nat)} {p : K → Prop} [DecidablePred p]
    (h : 0 < sizeWhere items p) : ∃ e ∈ items, p e.1 := by
  by_contra hn
  have hf : items.filter (fun e ↦ p e.1) = [] := by
    apply List.filter_eq_nil_iff.mpr
    intro e he hp
    exact hn ⟨e, he, by simpa using hp⟩
  rw [sizeWhere, hf] at h
  exact absurd h (by simp)

section
variable [LinearOrder K]

/-- Below a bound, where no bound is infinity. -/
def Below (bound : Option K) (rate : K) : Prop := ∀ r ∈ bound, rate < r

instance (bound : Option K) : DecidablePred (Below bound) := fun rate ↦
  match bound with
  | none => isTrue (by simp [Below])
  | some r => decidable_of_iff (rate < r) (by simp [Below])

/-- In the interval from a rate up to, but not including, a bound. -/
def InTranche (low : K) (bound : Option K) (rate : K) : Prop := low ≤ rate ∧ Below bound rate

instance (low : K) (bound : Option K) : DecidablePred (InTranche low bound) :=
  fun _ ↦ inferInstanceAs (Decidable (_ ∧ _))

/-! ### The loop -/

/-- The tranches of a compact histogram of some items: the rates are keys and decrease, and each
size is the total of its interval. -/
structure Tranches (items compact : List (K × Nat)) : Prop where
  rates : (compact.map Prod.fst).Pairwise (· > ·)
  keys : ∀ e ∈ compact, e.1 ∈ items.map Prod.fst
  sizes : ∀ pre feeRate size post, compact = pre ++ (feeRate, size) :: post →
    size = sizeWhere items (InTranche feeRate (lastRate pre))

/-- What the loop keeps between its two append sites: everything that it has seen is in a tranche
or in the running sum. -/
structure Tallies (seen : List (K × Nat)) (s : CompressState K) : Prop where
  tranches : Tranches seen s.compact
  cumSize : s.cumSize = sizeWhere seen (Below (lastRate s.compact))
  binSize : 0 < s.binSize

/-- What the loop keeps between its rounds. -/
structure Compresses (seen : List (K × Nat)) (s : CompressState K) : Prop
    extends Tallies seen s where
  prevFeeRate : s.prevFeeRate = seen.getLast?.map Prod.fst
  cumSize_le : s.cumSize ≤ s.binSize

/-- All rates of a compact histogram are at or above its last one. -/
theorem Tranches.lastRate_le {items compact : List (K × Nat)} (h : Tranches items compact)
    {r : K} (hr : lastRate compact = some r) {e : K × Nat} (he : e ∈ compact) : r ≤ e.1 := by
  rcases List.eq_nil_or_concat compact with rfl | ⟨pre, l, rfl⟩
  · cases hr
  · rw [List.concat_eq_append] at hr he h
    rw [lastRate_append] at hr
    cases hr
    rcases List.mem_append.mp he with he | he
    · have hp := h.rates
      rw [List.map_append] at hp
      exact le_of_lt ((List.pairwise_append.mp hp).2.2 _ (List.mem_map_of_mem he) _ (by simp))
    · rw [List.mem_singleton.mp he]

/-- Appending under the lowest rate seen, which is below the last entry, makes one more tranche
of the running sum. -/
theorem Tallies.append {seen : List (K × Nat)} {s : CompressState K} (h : Tallies seen s)
    {feeRate : K} (hk : feeRate ∈ seen.map Prod.fst) (hmin : ∀ e ∈ seen, feeRate ≤ e.1)
    (hlt : Below (lastRate s.compact) feeRate) : Tallies seen (s.append feeRate) where
  tranches :=
    { rates := by
        rw [CompressState.append, List.map_append]
        refine List.pairwise_append.mpr ⟨h.tranches.rates, by simp, ?_⟩
        intro a ha b hb
        rw [List.mem_singleton.mp hb]
        obtain ⟨e, he, rfl⟩ := List.mem_map.mp ha
        cases hl : lastRate s.compact with
        | none =>
          have hn : s.compact = [] := by simpa [lastRate] using hl
          rw [hn] at he
          cases he
        | some r => exact lt_of_lt_of_le (hlt r hl) (h.tranches.lastRate_le hl he)
      keys := by
        intro e he
        rcases List.mem_append.mp he with he | he
        · exact h.tranches.keys e he
        · rw [List.mem_singleton.mp he]
          exact hk
      sizes := by
        intro pre r size post he
        rcases List.eq_nil_or_concat post with rfl | ⟨post, l, rfl⟩
        · obtain ⟨hpre, hl⟩ := List.append_inj' he rfl
          cases hl
          rw [← hpre, h.cumSize]
          apply sizeWhere_congr
          intro e he
          exact ⟨fun hb ↦ ⟨hmin e he, hb⟩, fun hb ↦ hb.2⟩
        · rw [List.concat_eq_append, ← List.cons_append, ← List.append_assoc] at he
          exact h.tranches.sizes pre r size post (List.append_inj' he rfl).1 }
  cumSize := by
    -- nothing seen is below the lowest rate
    change 0 = _
    rw [CompressState.append, lastRate_append]
    symm
    by_contra hne
    obtain ⟨e, he, hb⟩ := exists_of_sizeWhere_pos (Nat.pos_of_ne_zero hne)
    exact absurd (hb feeRate rfl) (not_lt.mpr (hmin e he))
  binSize := by
    change 0 < s.binSize * (11 / 10)
    have := h.binSize
    positivity

/-- Seeing an item below all others adds it to the running sum. -/
theorem Tallies.see {seen : List (K × Nat)} {s : CompressState K} (h : Tallies seen s)
    {item : K × Nat} (hlt : ∀ e ∈ seen, item.1 < e.1) :
    Tallies (seen ++ [item]) { s with cumSize := s.cumSize + item.2 } where
  tranches :=
    { rates := h.tranches.rates
      keys := by
        intro e he
        rw [List.map_append]
        exact List.mem_append_left _ (h.tranches.keys e he)
      sizes := by
        intro pre feeRate size post he
        have hk := h.tranches.keys (feeRate, size) (by
          rw [show s.compact = _ from he]
          simp)
        obtain ⟨e, hes, heq⟩ := List.mem_map.mp hk
        have hn : ¬InTranche feeRate (lastRate pre) item.1 := by
          intro hin
          have := hlt e hes
          rw [heq] at this
          exact absurd hin.1 (not_le.mpr this)
        rw [sizeWhere_append, sizeWhere_singleton, if_neg hn, Nat.add_zero]
        exact h.tranches.sizes pre feeRate size post he }
  cumSize := by
    have hb : Below (lastRate s.compact) item.1 := by
      intro r hr
      obtain ⟨l, hl, rfl⟩ := Option.map_eq_some_iff.mp hr
      obtain ⟨e, hes, heq⟩ := List.mem_map.mp (h.tranches.keys l (List.mem_of_getLast? hl))
      rw [← heq]
      exact hlt e hes
    change s.cumSize + item.2 = _
    rw [sizeWhere_append, sizeWhere_singleton, if_pos hb, h.cumSize]
  binSize := h.binSize

/-- Adding the previous item keeps every size counted once. -/
theorem Compresses.addPrevious {seen : List (K × Nat)} {s : CompressState K}
    (h : Compresses seen s) (hseen : (seen.map Prod.fst).Pairwise (· > ·)) (size : Nat) :
    Tallies seen (s.addPrevious size) := by
  unfold CompressState.addPrevious
  split
  · next prev hprev =>
    rw [h.prevFeeRate] at hprev
    obtain ⟨l, hl, rfl⟩ := Option.map_eq_some_iff.mp hprev
    split
    · next hbig =>
      have hmem := List.mem_of_getLast? hl
      have hmin : ∀ e ∈ seen, l.1 ≤ e.1 := by
        intro e he
        obtain ⟨ys, rfl⟩ := List.getLast?_eq_some_iff.mp hl
        rcases List.mem_append.mp he with he | he
        · rw [List.map_append] at hseen
          exact le_of_lt
            ((List.pairwise_append.mp hseen).2.2 _ (List.mem_map_of_mem he) _ (by simp))
        · rw [List.mem_singleton.mp he]
      refine h.toTallies.append (List.mem_map_of_mem hmem) hmin ?_
      -- the running sum is of items below the last entry
      have hpos := hbig.2
      rw [h.cumSize] at hpos
      obtain ⟨e, he, hb⟩ := exists_of_sizeWhere_pos hpos
      exact fun r hr ↦ lt_of_le_of_lt (hmin e he) (hb r hr)
    · exact h.toTallies
  · exact h.toTallies

/-- Adding an item below all others. -/
theorem Tallies.addItem {seen : List (K × Nat)} {s : CompressState K} (h : Tallies seen s)
    {item : K × Nat} (hlt : ∀ e ∈ seen, item.1 < e.1) :
    Compresses (seen ++ [item]) (s.addItem item.1 item.2) := by
  have hs := h.see hlt
  unfold CompressState.addItem
  dsimp only
  split
  · have ha := @Tallies.append _ _ _ _ hs item.1 (by simp) (by
      intro e he
      rcases List.mem_append.mp he with he | he
      · exact le_of_lt (hlt e he)
      · rw [List.mem_singleton.mp he]) (by
      intro r hr
      obtain ⟨l, hl, rfl⟩ := Option.map_eq_some_iff.mp hr
      obtain ⟨e, hes, heq⟩ := List.mem_map.mp (h.tranches.keys l (List.mem_of_getLast? hl))
      rw [← heq]
      exact hlt e hes)
    exact
      { tranches := ha.tranches
        cumSize := ha.cumSize
        binSize := ha.binSize
        prevFeeRate := by simp
        cumSize_le := by
          have := ha.binSize
          simpa [CompressState.append] using le_of_lt this }
  · next hle =>
    exact
      { tranches := hs.tranches
        cumSize := hs.cumSize
        binSize := hs.binSize
        prevFeeRate := by simp
        cumSize_le := not_lt.mp hle }

/-- A round of the loop. -/
theorem Compresses.step {seen : List (K × Nat)} {s : CompressState K} (h : Compresses seen s)
    {item : K × Nat} (hd : ((seen ++ [item]).map Prod.fst).Pairwise (· > ·)) :
    Compresses (seen ++ [item]) (s.step item) := by
  rw [List.map_append] at hd
  obtain ⟨hseen, -, hlt⟩ := List.pairwise_append.mp hd
  exact (h.addPrevious hseen item.2).addItem
    fun e he ↦ hlt _ (List.mem_map_of_mem he) _ (by simp)

/-- The rest of the loop. -/
theorem Compresses.foldl {items seen : List (K × Nat)} {s : CompressState K}
    (h : Compresses seen s) (hd : ((seen ++ items).map Prod.fst).Pairwise (· > ·)) :
    Compresses (seen ++ items) (items.foldl CompressState.step s) := by
  induction items generalizing seen s with
  | nil => simpa using h
  | cons item items ih =>
    rw [List.append_cons] at hd ⊢
    refine ih (h.step ?_) hd
    rw [List.map_append] at hd
    exact (List.pairwise_append.mp hd).1

theorem compresses_nil {binSize : ℚ} (h : 0 < binSize) :
    Compresses ([] : List (K × Nat)) { binSize } where
  tranches := ⟨.nil, by simp, by simp⟩
  cumSize := rfl
  binSize := h
  prevFeeRate := rfl
  cumSize_le := by simpa using le_of_lt h

/-- The items are walked from the highest rate down. -/
theorem Histogram.pairwise_descending (h : Histogram K) :
    (h.descending.map Prod.fst).Pairwise (· > ·) := by
  have hp : h.descending.Perm h.items := List.perm_insertionSort _ _
  have hs : h.descending.Pairwise fun a b ↦ toLex b ≤ toLex a :=
    List.pairwise_insertionSort _ _
  have hn : (h.descending.map Prod.fst).Nodup := (hp.map _).nodup_iff.mpr h.nodup
  rw [List.pairwise_map]
  refine (hs.and (List.pairwise_map.mp hn)).imp ?_
  intro a b hab
  rcases Prod.Lex.le_iff.mp hab.1 with hlt | heq
  · exact hlt
  · exact absurd heq.1.symm hab.2

/-- The entries of the compact histogram have decreasing fee rates of the map, each with the total
size of the transactions from its rate up to the previous one, and what pays less than the last
entry fits the last bin. -/
theorem Histogram.compress_eq (h : Histogram K) {binSize : ℚ} (hb : 0 < binSize) :
    ∃ compact, h.compress binSize = .ok compact ∧
      (compact.map Prod.fst).Pairwise (· > ·) ∧
      (∀ e ∈ compact, e.1 ∈ h.items.map Prod.fst) ∧
      (∀ pre feeRate size post, compact = pre ++ (feeRate, size) :: post →
        size = sizeWhere h.items (InTranche feeRate (lastRate pre))) ∧
      sizeWhere h.items (Below (lastRate compact)) ≤ (h.compressLoop binSize).binSize := by
  have hc : Compresses h.descending (h.compressLoop binSize) := by
    exact (compresses_nil hb).foldl h.pairwise_descending
  have hp : h.descending.Perm h.items := List.perm_insertionSort _ _
  refine ⟨(h.compressLoop binSize).compact, ?_, hc.tranches.rates, ?_, ?_, ?_⟩
  · rw [compress, assertThat_of hb]
    rfl
  · intro e he
    exact (hp.map _).mem_iff.mp (hc.tranches.keys e he)
  · intro pre feeRate size post he
    rw [← sizeWhere_perm hp]
    exact hc.tranches.sizes pre feeRate size post he
  · rw [← sizeWhere_perm hp, ← hc.cumSize]
    exact hc.cumSize_le

end

/-- A lump at rate 9 between two small sizes. -/
def sampleHistogram : Histogram Nat where
  items := [(5, 60), (9, 300), (12, 30)]
  nodup := by decide
  pos := by decide

/-- The sample with bins of 100 bytes. -/
theorem sampleHistogram_compress : ∃ compact, sampleHistogram.compress 100 = .ok compact ∧
    ∀ pre feeRate size post, compact = pre ++ (feeRate, size) :: post →
      size = sizeWhere sampleHistogram.items (InTranche feeRate (lastRate pre)) := by
  obtain ⟨compact, h, -, -, hs, -⟩ := @Histogram.compress_eq _ _ sampleHistogram 100 (by norm_num)
  exact ⟨compact, h, hs⟩

example : sampleHistogram.compress 100 = .ok [(12, 30), (9, 300)] := by decide +kernel

end ElectrumX.Mempool
