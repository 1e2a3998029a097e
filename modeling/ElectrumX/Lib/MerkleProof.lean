import ElectrumX.Lib.Merkle
import Mathlib.Data.Nat.Bitwise
import Mathlib.Data.Set.Function
import Mathlib.Order.Bounds.Defs
import Mathlib.Tactic.Ring

/-!
# Merkle proofs

A branch climbs from a leaf to the root, and the climb is the tree's own: the hash it
reaches after every level is the row's entry above the leaf. Conversely a climb that
reaches the root from any hash with any branch of the same length hashed the tree's
strings on its way, unless two of the strings hashed collide.
-/

namespace ElectrumX.Lib.Merkle
open ElectrumX.Base

variable (m : Merkle)

/-! ### The branch length -/

/-- A list of `n` hashes fits under a root `k` levels up iff `ceilLog2 n` is at most `k`. -/
theorem ceilLog2_le_iff {n k : Nat} : ceilLog2 n ≤ k ↔ n ≤ 2 ^ k := by
  rw [ceilLog2]
  split
  · next h => exact iff_of_true (Nat.zero_le k) (h.trans Nat.one_le_two_pow)
  · next h =>
    have hlog : (n - 1).log2 < k ↔ n - 1 < 2 ^ k := Nat.log2_lt (by omega)
    constructor
    · intro hk
      have := hlog.mp hk
      omega
    · intro hk
      exact hlog.mpr (by omega)

/-- `branch_length` is the least number of levels that joins the hashes. -/
theorem ceilLog2_isLeast (n : Nat) : IsLeast {k | n ≤ 2 ^ k} (ceilLog2 n) :=
  ⟨ceilLog2_le_iff.mp le_rfl, fun _ hk ↦ ceilLog2_le_iff.mpr hk⟩

/-! ### One level of the tree -/

theorem length_evenUp (hashes : List Bytes) :
    (evenUp hashes).length = 2 * ((hashes.length + 1) / 2) := by
  rw [evenUp]
  split
  · next h =>
    have hne : hashes ≠ [] := by
      intro hnil
      simp [hnil] at h
    rw [List.getLast?_eq_getLast_of_ne_nil hne]
    simp only [Option.toList_some, List.length_append, List.length_cons, List.length_nil]
    omega
  · omega

theorem getElem?_evenUp {hashes : List Bytes} {i : Nat} (h : i < hashes.length) :
    (evenUp hashes)[i]? = hashes[i]? := by
  rw [evenUp]
  split
  · exact List.getElem?_append_left h
  · rfl

theorem mem_evenUp {hashes : List Bytes} {x : Bytes} (h : x ∈ evenUp hashes) : x ∈ hashes := by
  rw [evenUp] at h
  split at h
  · rcases List.mem_append.mp h with h | h
    · exact h
    · exact List.mem_of_getLast? (by simpa using h)
  · exact h

theorem length_hashPairs (hashes : List Bytes) :
    (m.hashPairs hashes).length = hashes.length / 2 := by
  fun_induction hashPairs m hashes with
  | case1 a b rest ih => simp only [List.length_cons, ih]; omega
  | case2 hashes h =>
    have hshort : hashes.length < 2 := by
      by_contra hlong
      rcases hashes with - | ⟨a, - | ⟨b, rest⟩⟩
      · simp at hlong
      · simp at hlong
      · exact h a b rest rfl
    simp only [List.length_nil]
    omega

/-- The entry above a pair of hashes is the hash of the two. -/
theorem getElem?_hashPairs (hashes : List Bytes) (j : Nat) (h : 2 * j + 1 < hashes.length) :
    (m.hashPairs hashes)[j]? =
      some (m.hashFunc ((hashes[2 * j]?).getD [] ++ (hashes[2 * j + 1]?).getD [])) := by
  fun_induction hashPairs m hashes generalizing j with
  | case1 a b rest ih =>
    cases j with
    | zero => simp
    | succ j =>
      simp only [List.length_cons] at h
      rw [show 2 * (j + 1) = 2 * j + 1 + 1 by ring, List.getElem?_cons_succ,
        List.getElem?_cons_succ, List.getElem?_cons_succ, List.getElem?_cons_succ,
        List.getElem?_cons_succ]
      exact ih j (by omega)
  | case2 hashes hshort =>
    rcases hashes with - | ⟨a, - | ⟨b, rest⟩⟩
    · simp at h
    · simp at h
    · exact absurd rfl (hshort a b rest)

/-- Every hash of the level above is the hash of two hashes of the level. -/
theorem mem_hashPairs {hashes : List Bytes} {x : Bytes} (h : x ∈ m.hashPairs hashes) :
    ∃ a ∈ hashes, ∃ b ∈ hashes, x = m.hashFunc (a ++ b) := by
  fun_induction hashPairs m hashes with
  | case1 a b rest ih =>
    rcases List.mem_cons.mp h with rfl | h
    · exact ⟨a, by simp, b, by simp, rfl⟩
    · obtain ⟨c, hc, d, hd, hx⟩ := ih h
      exact ⟨c, by simp [hc], d, by simp [hd], hx⟩
  | case2 hashes hshort => simp at h

/-- The row above a list of hashes. -/
def nextRow (hashes : List Bytes) : List Bytes := m.hashPairs (evenUp hashes)

theorem length_nextRow (hashes : List Bytes) :
    (m.nextRow hashes).length = (hashes.length + 1) / 2 := by
  rw [nextRow, length_hashPairs, length_evenUp]
  omega

/-- The sibling that `branch_and_root` records for an index. -/
def sibling (hashes : List Bytes) (index : Nat) : Bytes :=
  ((evenUp hashes)[index ^^^ 1]?).getD []

theorem xor_one_lt {hashes : List Bytes} {index : Nat} (h : index < hashes.length) :
    index ^^^ 1 < (evenUp hashes).length := by
  rw [length_evenUp]
  rcases Nat.even_or_odd index with heven | hodd
  · have := Nat.even_iff.mp heven
    rw [Nat.xor_one_of_even heven]
    omega
  · rw [Nat.xor_one_of_odd hodd]
    omega

theorem sibling_mem {hashes : List Bytes} {index : Nat} (h : index < hashes.length) :
    sibling hashes index ∈ hashes := by
  have hlt := xor_one_lt h
  rw [sibling, List.getElem?_eq_getElem hlt, Option.getD_some]
  exact mem_evenUp (List.getElem_mem hlt)

/-- A hash and its sibling, joined by the index, hash to the entry above. -/
theorem nextRow_getElem? {hashes : List Bytes} {index : Nat} (h : index < hashes.length) :
    (m.nextRow hashes)[index / 2]? = some (m.hashFunc
      (joinAt index ((hashes[index]?).getD []) (sibling hashes index))) := by
  have hlen := length_evenUp hashes
  rw [nextRow, getElem?_hashPairs m _ _ (by omega), joinAt, sibling, ← getElem?_evenUp h]
  rcases Nat.mod_two_eq_zero_or_one index with heven | hodd
  · rw [if_neg (by omega), Nat.xor_one_of_even (Nat.even_iff.mpr heven),
      show 2 * (index / 2) = index by omega]
  · rw [if_pos hodd, Nat.xor_one_of_odd (Nat.odd_iff.mpr hodd),
      show 2 * (index / 2) = index - 1 by omega, show index - 1 + 1 = index by omega]

/-! ### Completeness -/

/-- The loop of `branch_and_root` records the siblings of the rows it builds. -/
theorem branchLoop_succ (length : Nat) (hashes : List Bytes) (index : Nat) :
    m.branchLoop (length + 1) hashes index =
      (sibling hashes index :: (m.branchLoop length (m.nextRow hashes) (index / 2)).1,
        (m.branchLoop length (m.nextRow hashes) (index / 2)).2) := rfl

/-- Once the rows have shrunk to the root, the branch climbs to it and uses the index up. -/
theorem branchLoop_spec (length : Nat) (hashes : List Bytes) (index : Nat)
    (hindex : index < hashes.length) (hfit : hashes.length ≤ 2 ^ length) :
    (m.branchLoop length hashes index).1.length = length ∧
      ∃ r, (m.branchLoop length hashes index).2 = [r] ∧
        m.proofLoop ((hashes[index]?).getD []) (m.branchLoop length hashes index).1 index =
          (r, 0) := by
  induction length generalizing hashes index with
  | zero =>
    obtain ⟨r, rfl⟩ := List.length_eq_one_iff.mp (show hashes.length = 1 by omega)
    have hzero : index = 0 := by simpa using hindex
    subst hzero
    exact ⟨rfl, r, rfl, rfl⟩
  | succ length ih =>
    have hlen := m.length_nextRow hashes
    have hpow : 2 ^ (length + 1) = 2 * 2 ^ length := by ring
    obtain ⟨hbranch, r, hrow, hclimb⟩ :=
      ih (m.nextRow hashes) (index / 2) (by omega) (by omega)
    rw [m.nextRow_getElem? hindex, Option.getD_some] at hclimb
    rw [branchLoop_succ]
    exact ⟨by rw [List.length_cons, hbranch], r, hrow, hclimb⟩

/-! ### Soundness -/

/-- The strings that `root_from_proof` hashes on its way up. -/
def proofInputs : Bytes → List Bytes → Nat → List Bytes
  | _, [], _ => []
  | hash, elt :: branch, index =>
    joinAt index hash elt ::
      proofInputs (m.hashFunc (joinAt index hash elt)) branch (index / 2)

theorem length_joinAt {hash elt : Bytes} {index : Nat} (h : hash.length = 32)
    (h' : elt.length = 32) : (joinAt index hash elt).length = 64 := by
  rw [joinAt]
  split
  · rw [List.length_append, h, h']
  · rw [List.length_append, h, h']

/-- Two joined pairs of 32-byte hashes agree only when their parts do. -/
theorem joinAt_inj {hash hash' elt elt' : Bytes} {index : Nat} (h : hash.length = 32)
    (h' : hash'.length = 32) (helt : elt.length = 32) (helt' : elt'.length = 32)
    (heq : joinAt index hash elt = joinAt index hash' elt') : hash = hash' ∧ elt = elt' := by
  rw [joinAt, joinAt] at heq
  split at heq
  · exact (List.append_inj heq (helt.trans helt'.symm)).symm
  · exact List.append_inj heq (h.trans h'.symm)

/-- Two climbs of one index that reach one hash without a collision are the same climb. -/
theorem proofLoop_inj (h64 : ∀ x : Bytes, x.length = 64 → (m.hashFunc x).length = 32)
    (branch branch' : List Bytes) (hash hash' : Bytes) (index : Nat)
    (hhash : hash.length = 32) (hhash' : hash'.length = 32)
    (hbranch : ∀ x ∈ branch, x.length = 32) (hbranch' : ∀ x ∈ branch', x.length = 32)
    (hlen : branch'.length = branch.length)
    (hinj : Set.InjOn m.hashFunc
      {x | x ∈ m.proofInputs hash branch index ∨ x ∈ m.proofInputs hash' branch' index})
    (heq : (m.proofLoop hash branch index).1 = (m.proofLoop hash' branch' index).1) :
    hash = hash' ∧ branch = branch' := by
  induction branch generalizing branch' hash hash' index with
  | nil =>
    obtain rfl := List.length_eq_zero_iff.mp hlen
    exact ⟨heq, rfl⟩
  | cons elt branch ih =>
    obtain ⟨elt', branch', rfl⟩ := List.exists_cons_of_length_eq_add_one hlen
    have helt := hbranch elt (by simp)
    have helt' := hbranch' elt' (by simp)
    have hnext := h64 _ (@length_joinAt _ _ index hhash helt)
    have hnext' := h64 _ (@length_joinAt _ _ index hhash' helt')
    -- the hashes above agree by induction, and then the strings they are hashed from
    obtain ⟨hup, hrest⟩ := ih branch' _ _ (index / 2) hnext hnext'
      (fun x hx ↦ hbranch x (List.mem_cons_of_mem _ hx))
      (fun x hx ↦ hbranch' x (List.mem_cons_of_mem _ hx)) (by simpa using hlen)
      (hinj.mono fun x hx ↦
        hx.imp (List.mem_cons_of_mem _) (List.mem_cons_of_mem _)) heq
    have hjoin := hinj (.inl List.mem_cons_self) (.inr List.mem_cons_self) hup
    obtain ⟨hhere, hsibling⟩ := joinAt_inj hhash hhash' helt helt' hjoin
    exact ⟨hhere, by rw [hsibling, hrest]⟩

/-- Rows of 32-byte hashes have siblings of 32 bytes all the way up. -/
theorem branchLoop_length (h64 : ∀ x : Bytes, x.length = 64 → (m.hashFunc x).length = 32)
    (length : Nat) (hashes : List Bytes) (index : Nat) (hindex : index < hashes.length)
    (hhashes : ∀ x ∈ hashes, x.length = 32) :
    ∀ x ∈ (m.branchLoop length hashes index).1, x.length = 32 := by
  induction length generalizing hashes index with
  | zero => simp [branchLoop]
  | succ length ih =>
    have hlen := m.length_nextRow hashes
    have hrow : ∀ x ∈ m.nextRow hashes, x.length = 32 := by
      intro x hx
      obtain ⟨a, ha, b, hb, rfl⟩ := m.mem_hashPairs hx
      apply h64
      rw [List.length_append, hhashes a (mem_evenUp ha), hhashes b (mem_evenUp hb)]
    rw [branchLoop_succ]
    intro x hx
    rcases List.mem_cons.mp hx with rfl | hx
    · exact hhashes _ (sibling_mem hindex)
    · exact ih (m.nextRow hashes) (index / 2) (by omega) hrow x hx

/-! ### The methods -/

theorem branchLength_eq {n : Nat} (h : 0 < n) : branchLength n = .ok (ceilLog2 n) := by
  rw [branchLength, if_neg (by omega)]

theorem branchAndRoot_eq {hashes : List Bytes} {index : Nat} {length : Option Nat}
    (hindex : index < hashes.length)
    (hlength : ∀ k, length = some k → ceilLog2 hashes.length ≤ k) :
    m.branchAndRoot hashes index length =
      .ok ((m.branchLoop (length.getD (ceilLog2 hashes.length)) hashes index).1,
        (m.branchLoop (length.getD (ceilLog2 hashes.length)) hashes index).2.headD []) := by
  have hfit : ¬length.getD (ceilLog2 hashes.length) < ceilLog2 hashes.length := by
    cases length with
    | none => simp
    | some k => simpa using hlength k rfl
  rw [branchAndRoot, if_neg (not_not_intro hindex), branchLength_eq (by omega)]
  change (if length.getD (ceilLog2 hashes.length) < ceilLog2 hashes.length then _ else _) = _
  rw [if_neg hfit]
  rfl

theorem rootFromProof_eq_ok {hash r : Bytes} {branch : List Bytes} {index : Nat} :
    m.rootFromProof hash branch index = .ok r ↔ m.proofLoop hash branch index = (r, 0) := by
  rw [rootFromProof]
  rcases m.proofLoop hash branch index with ⟨hash', index'⟩
  dsimp only
  split
  · next h =>
    constructor
    · intro h'
      cases h'
    · intro h'
      exact absurd (congrArg Prod.snd h') h
  · next h =>
    rw [not_not] at h
    subst h
    constructor
    · intro h'
      cases h'
      rfl
    · intro h'
      cases h'
      rfl

/-- Merkle proofs are complete and sound: the branch of an index has the requested length
and proves the hash there, and no other 32-byte hash and branch of that length reach the
root, as long as `hash_func` does not collide on the 64-byte strings that the two climbs
hash. -/
theorem branch_proves_exactly (hashes : List Bytes) (index : Nat) (length : Option Nat)
    (hindex : index < hashes.length)
    (hlength : ∀ k, length = some k → ceilLog2 hashes.length ≤ k)
    (hhashes : ∀ x ∈ hashes, x.length = 32)
    (h64 : ∀ x : Bytes, x.length = 64 → (m.hashFunc x).length = 32) :
    ∃ b r, m.branchAndRoot hashes index length = .ok (b, r) ∧
      m.rootFromProof hashes[index] b index = .ok r ∧
      b.length = length.getD (ceilLog2 hashes.length) ∧
      ∀ (h : Bytes) (b' : List Bytes), h.length = 32 → (∀ x ∈ b', x.length = 32) →
        b'.length = b.length →
        Set.InjOn m.hashFunc
          {x | x ∈ m.proofInputs hashes[index] b index ∨ x ∈ m.proofInputs h b' index} →
        m.rootFromProof h b' index = .ok r → h = hashes[index] ∧ b' = b := by
  have hfit : hashes.length ≤ 2 ^ length.getD (ceilLog2 hashes.length) := by
    apply ceilLog2_le_iff.mp
    cases length with
    | none => exact le_rfl
    | some k => exact hlength k rfl
  obtain ⟨hlen, r, hrow, hclimb⟩ := m.branchLoop_spec _ hashes index hindex hfit
  rw [List.getElem?_eq_getElem hindex, Option.getD_some] at hclimb
  refine ⟨_, r, ?_, (m.rootFromProof_eq_ok).mpr hclimb, hlen, ?_⟩
  · rw [m.branchAndRoot_eq hindex hlength, hrow, List.headD_cons]
  · intro h b' hh hb' hlen' hinj hroot
    have hclimb' := (m.rootFromProof_eq_ok).mp hroot
    obtain ⟨hhash, hbranch⟩ := m.proofLoop_inj h64 _ b' _ h index
      (hhashes _ (List.getElem_mem hindex)) hh
      (m.branchLoop_length h64 _ hashes index hindex hhashes) hb' hlen' hinj
      (by rw [hclimb, hclimb'])
    exact ⟨hhash.symm, hbranch.symm⟩

/-- A hash function that keeps the left hash: 32 bytes out of 64. -/
def sampleMerkle : Merkle := ⟨List.take 32⟩

/-- Three hashes, so that the last one is repeated. -/
def sampleHashes : List Bytes :=
  [List.replicate 32 0, List.replicate 32 1, List.replicate 32 2]

theorem sampleMerkle_proves :
    ∃ b r, sampleMerkle.branchAndRoot sampleHashes 2 none = .ok (b, r) ∧
      sampleMerkle.rootFromProof (List.replicate 32 2) b 2 = .ok r ∧ b.length = 2 ∧
      sampleMerkle.rootFromProof (List.replicate 32 7)
        [List.replicate 32 8, List.replicate 32 9] 2 ≠ .ok r := by
  obtain ⟨b, r, hbr, hproof, hlen, hsound⟩ :=
    branch_proves_exactly sampleMerkle sampleHashes 2 none (by decide)
      (fun k hk ↦ by cases hk) (by decide)
      (fun x hx ↦ by change (List.take 32 x).length = 32; rw [List.length_take, hx]; rfl)
  refine ⟨b, r, hbr, hproof, hlen, fun hroot ↦ ?_⟩
  have hb : (b, r) = ([List.replicate 32 2, List.replicate 32 0], List.replicate 32 0) :=
    Except.ok.inj (hbr.symm.trans (by decide +kernel))
  obtain rfl : b = [List.replicate 32 2, List.replicate 32 0] := congrArg Prod.fst hb
  have hne := (hsound (List.replicate 32 7) [List.replicate 32 8, List.replicate 32 9]
    (by decide) (by decide) (by decide) ?_ hroot).1
  · exact absurd hne (by decide)
  · have hinputs : ∀ x ∈ sampleMerkle.proofInputs (List.replicate 32 2)
        [List.replicate 32 2, List.replicate 32 0] 2 ++
          sampleMerkle.proofInputs (List.replicate 32 7)
            [List.replicate 32 8, List.replicate 32 9] 2,
        ∀ y ∈ sampleMerkle.proofInputs (List.replicate 32 2)
          [List.replicate 32 2, List.replicate 32 0] 2 ++
            sampleMerkle.proofInputs (List.replicate 32 7)
              [List.replicate 32 8, List.replicate 32 9] 2,
          sampleMerkle.hashFunc x = sampleMerkle.hashFunc y → x = y := by
      decide +kernel
    intro x hx y hy hxy
    exact hinputs x (List.mem_append.mpr hx) y (List.mem_append.mpr hy) hxy

end ElectrumX.Lib.Merkle
