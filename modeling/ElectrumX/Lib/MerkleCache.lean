import ElectrumX.Lib.MerkleLevel

/-!
# The Merkle cache

What a cache holds is the row above its segments, a partial last one among them. Every
request cuts that row at a segment boundary and builds the rest from the source, so the
cache is right as long as the hashes it covers have not been replaced.
-/

namespace ElectrumX.Lib
open ElectrumX.Base

namespace Merkle

variable (m : Merkle)

/-- A row cut at a segment is the row of what lies before. -/
theorem take_row {depth start : Nat} {hashes : List Bytes} (h : 2 ^ depth ∣ start)
    (hstart : start ≤ hashes.length) :
    (m.row depth hashes).take (start / 2 ^ depth) = m.row depth (hashes.take start) := by
  have hpos := Nat.two_pow_pos depth
  have hlen : (hashes.take start).length = start := by
    rw [List.length_take, Nat.min_eq_left hstart]
  have hrow : (m.row depth (hashes.take start)).length = start / 2 ^ depth := by
    rw [length_row, hlen]
    obtain ⟨k, rfl⟩ := h
    rw [Nat.mul_div_cancel_left _ hpos, Nat.add_sub_assoc hpos, Nat.mul_add_div hpos,
      Nat.div_eq_of_lt (by omega), Nat.add_zero]
  conv_lhs => rw [← List.take_append_drop start hashes]
  rw [m.row_append depth _ (by rw [hlen]; exact h), ← hrow, List.take_left]

/-- A row cut at a segment and built again from there is the row of the longer list. -/
theorem take_row_append {depth start length old : Nat} {hashes : List Bytes}
    (h : 2 ^ depth ∣ start) (hold : start ≤ old) (hstart : start ≤ length)
    (hle : old ≤ hashes.length) (hlength : length ≤ hashes.length) :
    (m.row depth (hashes.take old)).take (start / 2 ^ depth) ++
        m.row depth ((hashes.drop start).take (length - start)) =
      m.row depth (hashes.take length) := by
  have hlen : (hashes.take start).length = start := by
    rw [List.length_take, Nat.min_eq_left (hstart.trans hlength)]
  rw [m.take_row h (by rw [List.length_take]; omega), List.take_take, Nat.min_eq_left hold,
    ← m.row_append depth _ (by rw [hlen]; exact h), ← List.take_add,
    Nat.add_sub_cancel' hstart]

end Merkle

namespace MerkleCache

variable {m : Merkle} {mc mc' : MerkleCache} {source : Nat → Nat → Except PyError (List Bytes)}
  {hashes hashes' : List Bytes} {covered length index : Nat}

/-- `source_func` yields the hashes of a list, those that it has. -/
def Serves (source : Nat → Nat → Except PyError (List Bytes)) (hashes : List Bytes) : Prop :=
  ∀ start count, start + count ≤ hashes.length →
    source start count = .ok ((hashes.drop start).take count)

/-- The cache holds the row above the first hashes, and no more of them than it covers. -/
structure Caches (m : Merkle) (hashes : List Bytes) (covered : Nat) (mc : MerkleCache) : Prop where
  initialized : mc.initialized = true
  le_covered : mc.length ≤ covered
  le_length : mc.length ≤ hashes.length
  level : mc.level = m.row mc.depthHigher (hashes.take mc.length)

theorem leafStart_le (mc : MerkleCache) (index : Nat) : mc.leafStart index ≤ index :=
  Nat.div_mul_le_self _ _

theorem lt_leafStart_add (mc : MerkleCache) (index : Nat) :
    index < mc.leafStart index + mc.segmentLength :=
  Nat.lt_div_mul_add (Nat.two_pow_pos _)

theorem dvd_leafStart (mc : MerkleCache) (index : Nat) :
    2 ^ mc.depthHigher ∣ mc.leafStart index :=
  Dvd.intro_left _ rfl

theorem leafStart_div (mc : MerkleCache) (index : Nat) :
    mc.leafStart index / 2 ^ mc.depthHigher = index / 2 ^ mc.depthHigher :=
  Nat.mul_div_cancel _ (Nat.two_pow_pos _)

/-- `initialize` builds the row. -/
theorem Caches.initializeTo (mc : MerkleCache) (hs : Serves source hashes) (hpos : 1 ≤ length)
    (hlength : length ≤ hashes.length) :
    ∃ mc', mc.initializeTo m source length = .ok mc' ∧ Caches m hashes length mc' ∧
      mc'.length = length := by
  have hdepth : Merkle.treeDepth length = .ok (Merkle.ceilLog2 length + 1) := by
    rw [Merkle.treeDepth, Merkle.branchLength_eq hpos]
    rfl
  have hsource : source 0 length = .ok (hashes.take length) := hs 0 length (by omega)
  rw [MerkleCache.initializeTo, initializeRequest, hdepth]
  change ∃ mc', (source 0 length).bind _ = _ ∧ _
  rw [hsource]
  change ∃ mc', (levelOf _ m _).bind _ = _ ∧ _
  rw [levelOf, m.level_eq_row]
  exact ⟨_, rfl, ⟨rfl, le_rfl, hlength, rfl⟩, rfl⟩

theorem Caches.self (h : Caches m hashes covered mc) : Caches m hashes mc.length mc :=
  ⟨h.initialized, le_rfl, h.le_length, h.level⟩

/-- The write of `_extend_to`, from a segment on that the cache still reaches. -/
theorem Caches.extendWith {start : Nat} (h : Caches m hashes covered mc)
    (hdvd : 2 ^ mc.depthHigher ∣ start) (hold : start ≤ mc.length) (hstart : start ≤ length)
    (hlength : length ≤ hashes.length) :
    ∃ mc', mc.extendWith m length start ((hashes.drop start).take (length - start)) = .ok mc' ∧
      Caches m hashes length mc' ∧ mc'.depthHigher = mc.depthHigher ∧ mc'.length = length := by
  rw [MerkleCache.extendWith, levelOf, m.level_eq_row]
  refine ⟨_, rfl, ⟨h.initialized, le_rfl, hlength, ?_⟩, rfl, rfl⟩
  dsimp only
  rw [h.level, m.take_row_append hdvd hold hstart h.le_length hlength]

/-- `_extend_to` builds the row from its last whole segment on. -/
theorem Caches.extendTo (h : Caches m hashes covered mc) (hs : Serves source hashes)
    (hlength : length ≤ hashes.length) :
    ∃ mc', mc.extendTo m source length = .ok mc' ∧ Caches m hashes (max covered length) mc' ∧
      mc'.depthHigher = mc.depthHigher ∧ length ≤ mc'.length := by
  rw [MerkleCache.extendTo, extendRequest]
  split_ifs with hle
  · have hcovered := h.le_covered.trans (le_max_left covered length)
    exact ⟨mc, rfl, ⟨h.initialized, hcovered, h.le_length, h.level⟩, rfl, hle⟩
  · have hstart := mc.leafStart_le mc.length
    have hsource := hs (mc.leafStart mc.length) (length - mc.leafStart mc.length) (by omega)
    obtain ⟨mc', hextend, h', hdepth, hnew⟩ :=
      h.extendWith (mc.dvd_leafStart _) hstart (by omega) hlength
    dsimp only
    rw [hsource]
    exact ⟨mc', hextend, ⟨h'.initialized, h'.le_covered.trans (le_max_right ..), h'.le_length,
      h'.level⟩, hdepth, hnew.ge⟩

/-- The level of `_level_for` ends with what it builds from the source. -/
theorem levelWith_eq (hlength : length ≤ hashes.length) :
    mc.levelWith m ((m.row mc.depthHigher (hashes.take length)).take (length / 2 ^ mc.depthHigher))
        ((hashes.drop (mc.leafStart length)).take (length - mc.leafStart length)) =
      .ok (m.row mc.depthHigher (hashes.take length)) := by
  have hstart := mc.leafStart_le length
  rw [MerkleCache.levelWith, levelOf, m.level_eq_row]
  change Except.ok _ = _
  rw [← mc.leafStart_div length,
    m.take_row_append (mc.dvd_leafStart _) hstart hstart hlength hlength]

/-- The last leaves are those behind the whole segments. -/
theorem leafRequest_last (mc : MerkleCache) (length : Nat) :
    mc.leafRequest length length = (mc.leafStart length, length - mc.leafStart length) := by
  have hend := mc.lt_leafStart_add length
  have hcount : min mc.segmentLength (length - mc.leafStart length) =
      length - mc.leafStart length := by omega
  rw [leafRequest, hcount]

/-- The whole segments of a shorter list are in the level. -/
theorem Caches.take_level (h : Caches m hashes covered mc) (hle : length ≤ mc.length) :
    mc.level.take (length / 2 ^ mc.depthHigher) =
      (m.row mc.depthHigher (hashes.take length)).take (length / 2 ^ mc.depthHigher) := by
  have hstart := mc.leafStart_le length
  have hlength := h.le_length
  have hcut {old : Nat} (hold : length ≤ old) (hmax : old ≤ hashes.length) :
      (m.row mc.depthHigher (hashes.take old)).take (length / 2 ^ mc.depthHigher) =
        m.row mc.depthHigher (hashes.take (mc.leafStart length)) := by
    rw [← mc.leafStart_div length,
      m.take_row (mc.dvd_leafStart _) (by rw [List.length_take]; omega), List.take_take,
      Nat.min_eq_left (hstart.trans hold)]
  rw [h.level, hcut hle hlength, hcut le_rfl (hle.trans hlength)]

/-- `_level_for` yields the row above the first hashes that it is asked for. -/
theorem Caches.levelFor (h : Caches m hashes covered mc) (hs : Serves source hashes)
    (hle : length ≤ mc.length) :
    mc.levelFor m source length = .ok (m.row mc.depthHigher (hashes.take length)) := by
  have hlength := hle.trans h.le_length
  rw [MerkleCache.levelFor, levelRequest]
  split_ifs with heq
  · rw [heq, ← h.level]
    rfl
  · have hstart := mc.leafStart_le length
    have hsource := hs (mc.leafStart length) (length - mc.leafStart length) (by omega)
    dsimp only
    rw [leafRequest_last, hsource, h.take_level hle]
    exact levelWith_eq hlength

/-- `truncate` keeps the whole segments. -/
theorem Caches.truncate {t : Nat} (h : Caches m hashes covered mc) (ht : 1 ≤ t) :
    ∃ mc', mc.truncate t = .ok mc' ∧ Caches m hashes (min covered t) mc' := by
  rw [MerkleCache.truncate, if_neg (by omega)]
  change ∃ mc', (if (t : Int) ≥ mc.length then _ else _) = _ ∧ _
  have hle := mc.leafStart_le t
  have hcovered := h.le_covered
  have hlength := h.le_length
  split_ifs with hge
  · exact ⟨mc, rfl, h.initialized, by omega, hlength, h.level⟩
  · rw [Int.toNat_natCast]
    refine ⟨_, rfl, h.initialized, ?_, ?_, ?_⟩
    · dsimp only
      omega
    · dsimp only
      omega
    · dsimp only
      rw [h.level, m.take_row (mc.dvd_leafStart t) (by rw [List.length_take]; omega),
        List.take_take, Nat.min_eq_left (by omega)]

/-- The source may change behind what the cache covers. -/
theorem Caches.replace {t : Nat} (h : Caches m hashes covered mc) (ht : covered ≤ t)
    (heq : hashes'.take t = hashes.take t) : Caches m hashes' covered mc := by
  have hcovered := h.le_covered
  have hlength := h.le_length
  have hlen := congrArg List.length heq
  rw [List.length_take, List.length_take] at hlen
  have htake : hashes'.take mc.length = hashes.take mc.length := by
    rw [← Nat.min_eq_left (hcovered.trans ht), ← List.take_take, heq, List.take_take]
  exact ⟨h.initialized, hcovered, by omega, by rw [htake]; exact h.level⟩

/-- The source may grow. -/
theorem Caches.append (h : Caches m hashes covered mc) (more : List Bytes) :
    Caches m (hashes ++ more) covered mc := by
  have hle := h.le_length
  exact ⟨h.initialized, h.le_covered, by rw [List.length_append]; omega,
    by rw [List.take_append_of_le_length hle]; exact h.level⟩

/-- The leaves that a request reads are a segment of the first hashes. -/
theorem leaves_eq (mc : MerkleCache) (hashes : List Bytes) (length index : Nat) :
    (hashes.drop (mc.leafRequest length index).1).take (mc.leafRequest length index).2 =
      ((hashes.take length).drop (mc.leafStart index)).take mc.segmentLength := by
  rw [leafRequest, List.drop_take, List.take_take]

/-- Up to a segment of hashes the leaves are all of them. -/
theorem leaves_short (hindex : index < length) (hshort : length < mc.segmentLength) :
    ((hashes.take length).drop (mc.leafStart index)).take mc.segmentLength =
      hashes.take length := by
  have hzero : mc.leafStart index = 0 := by
    rw [segmentLength] at hshort
    rw [leafStart, Nat.div_eq_of_lt (hindex.trans hshort), Nat.zero_mul]
  rw [hzero, List.drop_zero, List.take_of_length_le]
  rw [List.length_take]
  omega

/-- From a segment of hashes on the level and the leaves yield what the plain tree does. -/
theorem fromLevel_eq (hindex : index < length) (hlength : length ≤ hashes.length)
    (hlong : ¬length < mc.segmentLength) :
    m.branchAndRootFromLevel (m.row mc.depthHigher (hashes.take length))
        (((hashes.take length).drop (mc.leafStart index)).take mc.segmentLength) index
        mc.depthHigher =
      m.branchAndRoot (hashes.take length) index none := by
  have htake : (hashes.take length).length = length := by
    rw [List.length_take, Nat.min_eq_left hlength]
  rw [leafStart, segmentLength, m.branchAndRootFromLevel_eq (by omega)
    (by rw [htake]; exact not_lt.mp hlong)]

/-- The plain tree answers for every index below its length. -/
theorem exists_plain (m : Merkle) (hindex : index < length) (hlength : length ≤ hashes.length) :
    ∃ result, m.branchAndRoot (hashes.take length) index none = .ok result :=
  ⟨_, @Merkle.branchAndRoot_eq m (hashes.take length) index none
    (by rw [List.length_take]; omega) fun k hk ↦ by cases hk⟩

/-- A request extends the cache where it has to and yields what the plain tree does. -/
theorem Caches.branchAndRoot (h : Caches m hashes covered mc) (hs : Serves source hashes)
    (hindex : index < length) (hlength : length ≤ hashes.length) :
    ∃ mc' result, mc.branchAndRoot m source length index = .ok (mc', result) ∧
      m.branchAndRoot (hashes.take length) index none = .ok result ∧
      Caches m hashes (max covered length) mc' := by
  obtain ⟨mc', hextend, h', -, hle⟩ := h.extendTo hs hlength
  obtain ⟨result, hplain⟩ := exists_plain m hindex hlength
  have hstart := mc'.leafStart_le index
  have hleaf : source (mc'.leafRequest length index).1 (mc'.leafRequest length index).2 =
      .ok (((hashes.take length).drop (mc'.leafStart index)).take mc'.segmentLength) := by
    rw [hs _ _ (by dsimp only [leafRequest]; omega), leaves_eq]
  refine ⟨mc', result, ?_, hplain, h'⟩
  rw [MerkleCache.branchAndRoot, if_neg (by omega), if_neg (by omega), hextend]
  change ((source (mc'.leafRequest length index).1 (mc'.leafRequest length index).2).bind _) = _
  rw [hleaf]
  change (if length < mc'.segmentLength then _ else _) = _
  split_ifs with hshort
  · rw [leaves_short hindex hshort, hplain]
    rfl
  · rw [h'.levelFor hs hle]
    change ((m.branchAndRootFromLevel _ _ _ _).bind _) = _
    rw [fromLevel_eq hindex hlength hshort, hplain]
    rfl

/-- A source, a cache of it and how many hashes the cache may cover, after any of the
operations one after another. The source may be replaced behind what the cache covers: from
where a truncation has cut it, as long as no later request has extended it again. -/
inductive CacheRun (m : Merkle) : List Bytes → Nat → MerkleCache → Prop
  | initialized {source : Nat → Nat → Except PyError (List Bytes)} {hashes : List Bytes}
      {length : Nat} {mc mc' : MerkleCache} : Serves source hashes → 1 ≤ length →
      length ≤ hashes.length → mc.initializeTo m source length = .ok mc' →
      CacheRun m hashes length mc'
  | requested {source : Nat → Nat → Except PyError (List Bytes)} {hashes : List Bytes}
      {covered length index : Nat} {mc mc' : MerkleCache} {result : List Bytes × Bytes} :
      CacheRun m hashes covered mc → Serves source hashes → index < length →
      length ≤ hashes.length →
      mc.branchAndRoot m source length index = .ok (mc', result) →
      CacheRun m hashes (max covered length) mc'
  | truncated {hashes : List Bytes} {covered t : Nat} {mc mc' : MerkleCache} :
      CacheRun m hashes covered mc → 1 ≤ t → mc.truncate t = .ok mc' →
      CacheRun m hashes (min covered t) mc'
  | extended {hashes : List Bytes} {covered : Nat} {mc : MerkleCache} (more : List Bytes) :
      CacheRun m hashes covered mc → CacheRun m (hashes ++ more) covered mc
  | replaced {hashes hashes' : List Bytes} {covered t : Nat} {mc : MerkleCache} :
      CacheRun m hashes covered mc → covered ≤ t → hashes'.take t = hashes.take t →
      CacheRun m hashes' covered mc

theorem CacheRun.caches (h : CacheRun m hashes covered mc) : Caches m hashes covered mc := by
  induction h with
  | @initialized source hashes length mc mc' hs hpos hlength hinit =>
    obtain ⟨mc'', hinit', h', -⟩ := @Caches.initializeTo m _ _ _ mc hs hpos hlength
    cases hinit.symm.trans hinit'
    exact h'
  | requested _ hs hindex hlength hrequest ih =>
    obtain ⟨mc'', result', hrequest', -, h'⟩ := ih.branchAndRoot hs hindex hlength
    cases hrequest.symm.trans hrequest'
    exact h'
  | truncated _ ht htruncate ih =>
    obtain ⟨mc'', htruncate', h'⟩ := ih.truncate ht
    cases htruncate.symm.trans htruncate'
    exact h'
  | extended more _ ih => exact ih.append more
  | replaced _ ht heq ih => exact ih.replace ht heq

/-- After any operations the cache answers every request as the plain tree does. -/
theorem CacheRun.branchAndRoot_agrees (h : CacheRun m hashes covered mc)
    (hs : Serves source hashes) (hindex : index < length) (hlength : length ≤ hashes.length) :
    ∃ mc' result, mc.branchAndRoot m source length index = .ok (mc', result) ∧
      m.branchAndRoot (hashes.take length) index none = .ok result := by
  obtain ⟨mc', result, hrequest, hplain, -⟩ := h.caches.branchAndRoot hs hindex hlength
  exact ⟨mc', result, hrequest, hplain⟩

/-! ### A reorganised source -/

/-- A source over a list, which refuses what it does not have. -/
def sourceOf (hashes : List Bytes) (start count : Nat) : Except PyError (List Bytes) :=
  if start + count ≤ hashes.length then .ok ((hashes.drop start).take count)
  else .error .assertionError

theorem serves_sourceOf (hashes : List Bytes) : Serves (sourceOf hashes) hashes :=
  fun _ _ h ↦ if_pos h

/-- Three hashes cached, cut to one, replaced behind it and cached again with one more. -/
theorem sampleCache_agrees :
    ∃ mc mc' result, CacheRun ⟨id⟩ [[0], [7], [8], [9]] 4 mc ∧
      mc.branchAndRoot ⟨id⟩ (sourceOf [[0], [7], [8], [9]]) 3 1 = .ok (mc', result) ∧
      (⟨id⟩ : Merkle).branchAndRoot [[0], [7], [8]] 1 none = .ok result := by
  have hrun : CacheRun ⟨id⟩ [[0], [7], [8], [9]] 4
      { length := 4, level := [[0, 7], [8, 9]], depthHigher := 1, initialized := true } := by
    have hinit : CacheRun ⟨id⟩ [[0], [1], [2]] 3
        { length := 3, level := [[0, 1], [2, 2]], depthHigher := 1, initialized := true } :=
      .initialized (serves_sourceOf _) (by decide) (by decide)
        (show ({} : MerkleCache).initializeTo ⟨id⟩ (sourceOf [[0], [1], [2]]) 3 = _ by decide)
    have hcut : CacheRun ⟨id⟩ [[0], [1], [2]] 1
        { length := 0, level := [], depthHigher := 1, initialized := true } :=
      .truncated hinit (le_refl 1) (by decide)
    have hnew : CacheRun ⟨id⟩ ([[0], [7], [8]] ++ [[9]]) 1
        { length := 0, level := [], depthHigher := 1, initialized := true } :=
      .extended [[9]] (.replaced hcut (le_refl 1) (by decide))
    exact @CacheRun.requested _ _ _ _ 4 0 _ _ ([[7], [8, 9]], [0, 7, 8, 9]) hnew
      (serves_sourceOf _) (by decide) (by decide) (by decide)
  obtain ⟨mc', result, hrequest, hplain⟩ :=
    hrun.branchAndRoot_agrees (serves_sourceOf _) (show 1 < 3 by decide) (by decide)
  exact ⟨_, mc', result, hrun, hrequest, hplain⟩

/-- A request after the truncation caches the old hash again, and once that is replaced the
cache refuses the leaf hashes as inconsistent. -/
theorem not_branchAndRoot_agrees :
    ∃ mc mc' mc'' result,
      ({} : MerkleCache).initializeTo ⟨id⟩ (sourceOf [[0], [1]]) 2 = .ok mc ∧
      mc.truncate 1 = .ok mc' ∧
      mc'.branchAndRoot ⟨id⟩ (sourceOf [[0], [1]]) 2 0 = .ok (mc'', result) ∧
      mc''.branchAndRoot ⟨id⟩ (sourceOf [[0], [2]]) 2 0 = .error .valueError ∧
      (⟨id⟩ : Merkle).branchAndRoot [[0], [2]] 0 none = .ok ([[2]], [0, 2]) := by
  exact ⟨{ length := 2, level := [[0, 1]], depthHigher := 1, initialized := true },
    { length := 0, level := [], depthHigher := 1, initialized := true },
    { length := 2, level := [[0, 1]], depthHigher := 1, initialized := true },
    ([[1]], [0, 1]), by decide, by decide, by decide, by decide, by decide⟩

end MerkleCache
end ElectrumX.Lib
