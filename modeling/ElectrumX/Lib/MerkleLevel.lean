import ElectrumX.Lib.MerkleProof

/-!
# Levels of a Merkle tree

The rows of a tree split where a row can be cut into segments of equal size: the row above
some levels is that of the segments, a partial last one among them, as repeating its last
hash is what the whole tree does there. So a branch goes on from the level as it would have
in the whole tree.
-/

namespace ElectrumX.Lib.Merkle
open ElectrumX.Base

variable (m : Merkle)

/-- The row some levels above the hashes. -/
def row : Nat → List Bytes → List Bytes
  | 0, hashes => hashes
  | depth + 1, hashes => row depth (m.nextRow hashes)

theorem evenUp_append {a : List Bytes} (b : List Bytes) (ha : 2 ∣ a.length) :
    evenUp (a ++ b) = a ++ evenUp b := by
  have hiff : (a ++ b).length % 2 = 1 ↔ b.length % 2 = 1 := by
    rw [List.length_append]
    omega
  rw [evenUp, evenUp]
  by_cases hb : b.length % 2 = 1
  · have hne : b ≠ [] := by
      rintro rfl
      cases hb
    rw [if_pos (hiff.mpr hb), if_pos hb, List.getLast?_append_of_ne_nil _ hne, List.append_assoc]
  · rw [if_neg fun h ↦ hb (hiff.mp h), if_neg hb]

theorem hashPairs_append {a : List Bytes} (b : List Bytes) (ha : 2 ∣ a.length) :
    m.hashPairs (a ++ b) = m.hashPairs a ++ m.hashPairs b := by
  fun_induction hashPairs m a with
  | case1 x y rest ih =>
    rw [List.length_cons, List.length_cons] at ha
    rw [List.cons_append, List.cons_append, hashPairs, ih (by omega), List.cons_append]
  | case2 a h =>
    rcases a with - | ⟨x, - | ⟨y, rest⟩⟩
    · rfl
    · rw [List.length_singleton] at ha
      omega
    · exact absurd rfl (h x y rest)

/-- A row over an even number of hashes and more is that of both. -/
theorem nextRow_append {a : List Bytes} (b : List Bytes) (ha : 2 ∣ a.length) :
    m.nextRow (a ++ b) = m.nextRow a ++ m.nextRow b := by
  have heven : evenUp a = a := by
    rw [evenUp, if_neg (by omega)]
  rw [nextRow, evenUp_append b ha, hashPairs_append m _ ha, nextRow, nextRow, heven]

theorem length_nextRow_mul {a : List Bytes} {n : Nat} (ha : 2 * n ∣ a.length) :
    n ∣ (m.nextRow a).length := by
  obtain ⟨k, hk⟩ := ha
  rw [length_nextRow, hk]
  exact ⟨k, by rw [Nat.mul_assoc]; omega⟩

theorem row_nil (depth : Nat) : m.row depth [] = [] := by
  induction depth with
  | zero => rfl
  | succ depth ih => exact ih

theorem length_row (depth : Nat) (hashes : List Bytes) :
    (m.row depth hashes).length = (hashes.length + 2 ^ depth - 1) / 2 ^ depth := by
  induction depth generalizing hashes with
  | zero => simp [row]
  | succ depth ih =>
    have hpow : 2 ^ (depth + 1) = 2 * 2 ^ depth := by ring
    have hpos := Nat.two_pow_pos depth
    rw [row, ih, length_nextRow, hpow, ← Nat.div_div_eq_div_mul]
    congr 1
    omega

/-- The row above whole segments and more is that of both. -/
theorem row_append (depth : Nat) {a : List Bytes} (b : List Bytes) (ha : 2 ^ depth ∣ a.length) :
    m.row depth (a ++ b) = m.row depth a ++ m.row depth b := by
  induction depth generalizing a b with
  | zero => rfl
  | succ depth ih =>
    rw [Nat.pow_succ, Nat.mul_comm] at ha
    rw [row, m.nextRow_append b ((Dvd.intro _ rfl).trans ha), ih _ (m.length_nextRow_mul ha), row,
      row]

theorem row_add (depth k : Nat) (hashes : List Bytes) :
    m.row (depth + k) hashes = m.row k (m.row depth hashes) := by
  induction depth generalizing hashes with
  | zero => rw [Nat.zero_add, row]
  | succ depth ih => rw [show depth + 1 + k = depth + k + 1 by omega, row, ih, row]

theorem branchLoop_row (length : Nat) (hashes : List Bytes) (index : Nat) :
    (m.branchLoop length hashes index).2 = m.row length hashes := by
  induction length generalizing hashes index with
  | zero => rfl
  | succ length ih => rw [branchLoop_succ, ih, row]

/-- A branch goes on from the row that it has reached. -/
theorem branchLoop_add (depth length : Nat) (hashes : List Bytes) (index : Nat) :
    (m.branchLoop (depth + length) hashes index).1 = (m.branchLoop depth hashes index).1 ++
      (m.branchLoop length (m.row depth hashes) (index / 2 ^ depth)).1 := by
  induction depth generalizing hashes index with
  | zero =>
    rw [Nat.zero_add, Nat.pow_zero, Nat.div_one]
    rfl
  | succ depth ih =>
    have hdiv : index / 2 ^ (depth + 1) = index / 2 / 2 ^ depth := by
      rw [Nat.div_div_eq_div_mul, Nat.pow_succ, Nat.mul_comm]
    rw [show depth + 1 + length = depth + length + 1 by omega, branchLoop_succ, branchLoop_succ, ih,
      List.cons_append, row, hdiv]

/-- The row above a segment is its root. -/
theorem row_segment {depth : Nat} {segment : List Bytes} (hne : segment ≠ [])
    (hfit : segment.length ≤ 2 ^ depth) : ∃ r, m.row depth segment = [r] := by
  obtain ⟨-, r, hr, -⟩ := m.branchLoop_spec depth segment 0 (List.length_pos_of_ne_nil hne) hfit
  exact ⟨r, by rwa [branchLoop_row] at hr⟩

theorem root_segment {depth : Nat} {segment : List Bytes} (hne : segment ≠ [])
    (hfit : segment.length ≤ 2 ^ depth) :
    m.root segment (some depth) = .ok ((m.row depth segment).headD []) := by
  have hlen : ceilLog2 segment.length ≤ depth := ceilLog2_le_iff.mpr hfit
  rw [root, m.branchAndRoot_eq (List.length_pos_of_ne_nil hne) fun k hk ↦
    Option.some.inj hk ▸ hlen, Option.getD_some, branchLoop_row]
  rfl

/-- The roots of the segments are the row above them. -/
theorem map_chunks_row (hashes : List Bytes) (depth : Nat) :
    ((chunks hashes (2 ^ depth)).map fun segment ↦ (m.row depth segment).headD []) =
      m.row depth hashes := by
  have hpos := Nat.two_pow_pos depth
  induction hn : hashes.length using Nat.strong_induction_on generalizing hashes with
  | _ n ih =>
    by_cases hne : hashes = []
    · rw [hne, chunks_nil hpos, row_nil]
      rfl
    · have hlen := List.length_pos_of_ne_nil hne
      have hne' : hashes.take (2 ^ depth) ≠ [] := by
        rw [← List.length_pos_iff, List.length_take]
        omega
      obtain ⟨r, hr⟩ := m.row_segment hne' (List.length_take_le ..)
      have hrest : m.row depth hashes =
          m.row depth (hashes.take (2 ^ depth)) ++ m.row depth (hashes.drop (2 ^ depth)) := by
        by_cases hl : 2 ^ depth ≤ hashes.length
        · rw [← m.row_append depth _ (by rw [List.length_take, Nat.min_eq_left hl]),
            List.take_append_drop]
        · rw [List.drop_eq_nil_of_le (by omega), row_nil, List.append_nil,
            List.take_of_length_le (by omega)]
      rw [chunks_eq_cons hpos hne, List.map_cons, hrest, hr,
        ih (hashes.drop (2 ^ depth)).length (by rw [List.length_drop]; omega) _ rfl]
      rfl

/-- `level` is a row of the tree. -/
theorem level_eq_row (hashes : List Bytes) (depth : Nat) :
    m.level hashes depth = .ok (m.row depth hashes) := by
  rw [← map_chunks_row]
  refine mapM_of_ok fun segment hs ↦ ?_
  obtain ⟨hne, hfit⟩ := mem_chunks (Nat.two_pow_pos depth) hs
  exact m.root_segment hne hfit

/-! ### Branches in a segment -/

/-- A segment in the middle of a row, which is whole, or at its end. -/
structure Segment (depth : Nat) (before segment behind : List Bytes) : Prop where
  aligned : 2 ^ depth ∣ before.length
  whole : segment.length = 2 ^ depth ∨ segment.length ≤ 2 ^ depth ∧ behind = []

/-- The sibling of a hash lies in its segment. -/
theorem sibling_segment {before segment behind : List Bytes} {index : Nat}
    (hb : 2 ∣ before.length) (hs : 2 ∣ segment.length ∨ behind = [])
    (hi : index < segment.length) :
    sibling (before ++ segment ++ behind) (before.length + index) = sibling segment index := by
  have hxor : (before.length + index) ^^^ 1 = before.length + (index ^^^ 1) := by
    obtain ⟨k, hk⟩ := hb
    rcases Nat.even_or_odd index with heven | hodd
    · have hsum : Even (before.length + index) := by
        rw [hk]
        exact (even_two_mul k).add heven
      rw [Nat.xor_one_of_even heven, Nat.xor_one_of_even hsum]
      rfl
    · have hpos := hodd.pos
      have hsum : Odd (before.length + index) := by
        rw [hk]
        exact (even_two_mul k).add_odd hodd
      rw [Nat.xor_one_of_odd hodd, Nat.xor_one_of_odd hsum]
      omega
  have hlt := xor_one_lt hi
  rw [sibling, sibling, List.append_assoc, evenUp_append _ hb, hxor,
    List.getElem?_append_right (by omega), Nat.add_sub_cancel_left]
  rcases hs with hs | rfl
  · have heven : evenUp segment = segment := by rw [evenUp, if_neg (by omega)]
    rw [heven] at hlt ⊢
    rw [evenUp_append _ hs, List.getElem?_append_left hlt]
  · rw [List.append_nil]

/-- The branch of a hash up to the row of the segments is that in its segment. -/
theorem branchLoop_segment {depth : Nat} {before segment behind : List Bytes} {index : Nat}
    (h : Segment depth before segment behind) (hi : index < segment.length) :
    (m.branchLoop depth (before ++ segment ++ behind) (before.length + index)).1 =
      (m.branchLoop depth segment index).1 := by
  induction depth generalizing before segment behind index with
  | zero => rfl
  | succ depth ih =>
    obtain ⟨hb, hs⟩ := h
    have hpow : 2 ^ (depth + 1) = 2 * 2 ^ depth := by ring
    rw [hpow] at hb hs
    have hb2 : 2 ∣ before.length := (Dvd.intro _ rfl).trans hb
    have hs2 : 2 ∣ segment.length ∨ behind = [] :=
      hs.imp (fun h ↦ ⟨_, h⟩) fun h ↦ h.2
    have hnext : m.nextRow (before ++ segment ++ behind) =
        m.nextRow before ++ m.nextRow segment ++ m.nextRow behind := by
      rw [List.append_assoc, m.nextRow_append _ hb2]
      rcases hs2 with hs2 | rfl
      · rw [m.nextRow_append _ hs2, List.append_assoc]
      · rw [List.append_nil, show m.nextRow [] = [] from rfl, List.append_nil]
    have hlen : (m.nextRow before).length = before.length / 2 := by
      rw [length_nextRow]
      omega
    have hindex : (before.length + index) / 2 = (m.nextRow before).length + index / 2 := by
      rw [hlen]
      omega
    rw [branchLoop_succ, branchLoop_succ, sibling_segment hb2 hs2 hi, hnext, hindex,
      ih ⟨m.length_nextRow_mul hb, ?_⟩ (by rw [length_nextRow]; omega)]
    rcases hs with hs | ⟨hs, rfl⟩
    · exact .inl (by rw [length_nextRow]; omega)
    · exact .inr ⟨by rw [length_nextRow]; omega, rfl⟩

/-- The row of the segments is as many levels nearer to the root. -/
theorem ceilLog2_segments {depth n : Nat} (h : 2 ^ depth ≤ n) :
    ceilLog2 n = depth + ceilLog2 ((n + 2 ^ depth - 1) / 2 ^ depth) := by
  have hpos := Nat.two_pow_pos depth
  have hiff (k : Nat) : (n + 2 ^ depth - 1) / 2 ^ depth ≤ 2 ^ k ↔ n ≤ 2 ^ (depth + k) := by
    rw [Nat.pow_add, Nat.mul_comm (2 ^ depth), ← Nat.lt_succ_iff, Nat.div_lt_iff_lt_mul hpos,
      Nat.succ_mul]
    omega
  have hge : depth ≤ ceilLog2 n := by
    by_contra hlt
    have hle := ceilLog2_le_iff.mp (le_refl (ceilLog2 n))
    have := Nat.pow_lt_pow_right (by omega : 1 < 2) (by omega : ceilLog2 n < depth)
    omega
  apply le_antisymm
  · exact ceilLog2_le_iff.mpr ((hiff _).mp (ceilLog2_le_iff.mp le_rfl))
  · have hle : ceilLog2 ((n + 2 ^ depth - 1) / 2 ^ depth) ≤ ceilLog2 n - depth := by
      rw [ceilLog2_le_iff, hiff, Nat.add_sub_cancel' hge]
      exact ceilLog2_le_iff.mp le_rfl
    omega

/-- With the row above its segments a tree yields the branch and the root of the whole tree. -/
theorem branchAndRootFromLevel_eq {depth index : Nat} {hashes : List Bytes}
    (hi : index < hashes.length) (hd : 2 ^ depth ≤ hashes.length) :
    m.branchAndRootFromLevel (m.row depth hashes)
        ((hashes.drop (index / 2 ^ depth * 2 ^ depth)).take (2 ^ depth)) index depth =
      m.branchAndRoot hashes index none := by
  have hpos := Nat.two_pow_pos depth
  set q := index / 2 ^ depth with hq
  set before := hashes.take (q * 2 ^ depth) with hbefore
  set segment := (hashes.drop (q * 2 ^ depth)).take (2 ^ depth) with hsegment
  set behind := (hashes.drop (q * 2 ^ depth)).drop (2 ^ depth) with hbehind
  have hqi : q * 2 ^ depth ≤ index := Nat.div_mul_le_self _ _
  have hiq : index < q * 2 ^ depth + 2 ^ depth := by
    have := Nat.lt_div_mul_add hpos (a := index)
    omega
  have hcat : hashes = before ++ segment ++ behind := by
    rw [List.append_assoc, hsegment, hbehind, List.take_append_drop, hbefore,
      List.take_append_drop]
  have hblen : before.length = q * 2 ^ depth := by
    rw [hbefore, List.length_take]
    omega
  have hslen : segment.length = min (2 ^ depth) (hashes.length - q * 2 ^ depth) := by
    rw [hsegment, List.length_take, List.length_drop]
  have hseg : Segment depth before segment behind := by
    refine ⟨hblen ▸ Dvd.intro_left _ rfl, ?_⟩
    by_cases hw : 2 ^ depth ≤ hashes.length - q * 2 ^ depth
    · exact .inl (by omega)
    · exact .inr ⟨by omega, List.drop_eq_nil_of_le (by rw [List.length_drop]; omega)⟩
  have hsi : index - q * 2 ^ depth < segment.length := by omega
  have hsne : segment ≠ [] := List.ne_nil_of_length_pos (by omega)
  have hsfit : segment.length ≤ 2 ^ depth := by omega
  obtain ⟨r, hr⟩ := m.row_segment hsne hsfit
  -- The root of the segment stands in the level.
  have hrow : m.row depth hashes = m.row depth before ++ m.row depth segment ++
      m.row depth behind := by
    conv_lhs => rw [hcat]
    rcases hseg.whole with hw | ⟨-, hw⟩
    · rw [m.row_append depth _ (by
        rw [List.length_append, hw]
        exact Nat.dvd_add hseg.aligned (Nat.dvd_refl _)), m.row_append depth _ hseg.aligned]
    · rw [hw, row_nil, List.append_nil, List.append_nil, m.row_append depth _ hseg.aligned]
  have hrlen : (m.row depth before).length = q := by
    rw [length_row, hblen, Nat.add_sub_assoc hpos, Nat.add_comm, Nat.add_mul_div_right _ _ hpos,
      Nat.div_eq_of_lt (by omega), Nat.zero_add]
  have hget : (m.row depth hashes)[q]? = some r := by
    rw [hrow, hr, List.append_assoc, List.getElem?_append_right (by omega), hrlen, Nat.sub_self]
    rfl
  have hleaf : m.branchAndRoot segment (index - q * 2 ^ depth) (some depth) =
      .ok ((m.branchLoop depth segment (index - q * 2 ^ depth)).1, r) := by
    rw [m.branchAndRoot_eq hsi fun k hk ↦
      Option.some.inj hk ▸ ceilLog2_le_iff.mpr hsfit, Option.getD_some, branchLoop_row, hr]
    rfl
  have hlevel : m.branchAndRoot (m.row depth hashes) q none = .ok
      ((m.branchLoop (ceilLog2 (m.row depth hashes).length) (m.row depth hashes) q).1,
        (m.branchLoop (ceilLog2 (m.row depth hashes).length) (m.row depth hashes) q).2.headD []) :=
    m.branchAndRoot_eq (List.getElem?_eq_some_iff.mp hget).1 fun k hk ↦ by cases hk
  have hwhole : m.branchAndRoot hashes index none = .ok
      ((m.branchLoop (ceilLog2 hashes.length) hashes index).1,
        (m.branchLoop (ceilLog2 hashes.length) hashes index).2.headD []) :=
    m.branchAndRoot_eq hi fun k hk ↦ by cases hk
  have hbranch : (m.branchLoop depth hashes index).1 =
      (m.branchLoop depth segment (index - q * 2 ^ depth)).1 := by
    rw [← m.branchLoop_segment hseg hsi, ← hcat, hblen, Nat.add_sub_cancel' hqi]
  have hlong : ceilLog2 hashes.length = depth + ceilLog2 (m.row depth hashes).length := by
    rw [ceilLog2_segments hd, length_row]
  rw [branchAndRootFromLevel, hleaf]
  change ((m.branchAndRoot (m.row depth hashes) q none).bind _) = _
  rw [hlevel]
  change (if some r ≠ (m.row depth hashes)[q]? then _ else _) = _
  rw [if_neg (not_not_intro hget.symm), hwhole, hlong, m.branchLoop_add, hbranch, branchLoop_row,
    branchLoop_row, m.row_add]
  rfl

end ElectrumX.Lib.Merkle
