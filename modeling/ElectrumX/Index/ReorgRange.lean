import ElectrumX.Index.Headers
import ElectrumX.Server.HeaderCache
import Mathlib.Order.WellFounded

/-!
# The range of a reorganisation

The search for the fork walks down from the tip in windows of doubling length and stops in the
first window whose lowest block the daemon shares. When a window would reach the genesis block
it ends without a comparison at height zero, and the reorg then includes the genesis block.
-/

namespace ElectrumX.Index
open ElectrumX.Base ElectrumX.Lib ElectrumX.Chain ElectrumX.Server

/-! ### Hex strings -/

private theorem hexDigit_inj : ∀ m < 16, ∀ n < 16, hexDigit m = hexDigit n → m = n := by
  decide

theorem hexChars_inj {a b : Bytes} (h : hexChars a = hexChars b) : a = b := by
  induction a generalizing b with
  | nil =>
    cases b with
    | nil => rfl
    | cons y ys => cases h
  | cons x xs ih =>
    cases b with
    | nil => cases h
    | cons y ys =>
      rw [hexChars, hexChars, List.flatMap_cons, List.flatMap_cons] at h
      obtain ⟨hxy, hrest⟩ := List.append_inj h rfl
      obtain ⟨hhigh, hlow⟩ := List.cons.inj hxy
      have hx := x.toNat_lt
      have hy := y.toNat_lt
      have h1 := hexDigit_inj _ (by omega) _ (by omega) hhigh
      have h2 := hexDigit_inj _ (by omega) _ (by omega) (List.cons.inj hlow).1
      have hnat : x.toNat = y.toNat := by omega
      rw [UInt8.toNat_inj.mp hnat, ih hrest]

/-- Different hashes are displayed differently. -/
theorem hashToHexStr_inj {a b : Bytes} : hashToHexStr a = hashToHexStr b ↔ a = b := by
  constructor
  · intro h
    exact List.reverse_injective (hexChars_inj (String.ofList_injective h))
  · exact congrArg _

/-! ### The first difference -/

/-- Two lists of one length that agree in front of a position, and not there if it lies in
them. -/
theorem diffPos_eq {xs ys : List String} {n : Nat} (hlen : xs.length = ys.length)
    (hn : n ≤ xs.length) (hsame : ∀ i < n, xs[i]? = ys[i]?)
    (hdiff : n < xs.length → xs[n]? ≠ ys[n]?) : BlockProcessor.diffPos xs ys = n := by
  induction xs generalizing ys n with
  | nil => exact (Nat.le_zero.mp hn).symm
  | cons x xs ih =>
    obtain ⟨y, ys, rfl⟩ := List.exists_cons_of_length_eq_add_one hlen.symm
    rw [BlockProcessor.diffPos]
    cases n with
    | zero =>
      rw [if_pos]
      intro hxy
      exact hdiff (by simp) (by rw [hxy]; rfl)
    | succ n =>
      have hxy : x = y := by simpa using hsame 0 (by omega)
      rw [if_neg (not_not_intro hxy), ih (by simpa using hlen) (by simpa using hn)
        (fun i hi ↦ by simpa using hsame (i + 1) (by omega))
        (fun h ↦ by simpa using hdiff (by simpa using h))]

/-! ### The search -/

/-- Two chains of hashes with one genesis block that differ at `fork` and above, and nowhere
below: what linking to the parent leaves of two chains that differ. -/
structure ForksAt (ours theirs : List Bytes) (fork : Nat) : Prop where
  pos : 0 < fork
  lt : fork < ours.length
  length_lt : ours.length < theirs.length
  same : ∀ k < fork, ours[k]? = theirs[k]?
  differ : ∀ k, fork ≤ k → k < ours.length → ours[k]? ≠ theirs[k]?

/-- The lowest height at which two linked chains differ. -/
theorem exists_forksAt {ours theirs : List Bytes} (hlen : ours.length < theirs.length)
    (hgenesis : ours[0]? = theirs[0]?)
    (hlink : ∀ k h, k ≤ h → h < ours.length → ours[h]? = theirs[h]? → ours[k]? = theirs[k]?)
    (htip : ours[ours.length - 1]? ≠ theirs[ours.length - 1]?) :
    ∃ fork, ForksAt ours theirs fork := by
  classical
  have hex : ∃ k, ours[k]? ≠ theirs[k]? := ⟨_, htip⟩
  have hleast := Nat.find_spec hex
  have hle := Nat.find_min' hex htip
  have hpos : 0 < Nat.find hex := by
    rw [Nat.pos_iff_ne_zero]
    intro h0
    rw [h0] at hleast
    exact hleast hgenesis
  have hours : ours.length ≠ 0 := by
    intro h0
    rw [h0] at hle
    omega
  exact ⟨Nat.find hex, hpos, by omega, hlen,
    fun k hk ↦ not_not.mp (Nat.find_min hex hk),
    fun k hk hlt hsame ↦ hleast (hlink _ k hk hlt hsame)⟩

section Search

variable {env : Env} {s : BlockProcessor} {ours theirs : List Bytes} {fork : Nat}
  {blockHexHashes : Int → Int → Except PyError (List String)}

/-- The position of the first difference in a window that ends at or above the fork. -/
theorem ForksAt.diffPos_window (h : ForksAt ours theirs fork) {start count : Nat}
    (hend : start + count ≤ ours.length) (hfork : fork ≤ start + count) :
    BlockProcessor.diffPos (((ours.drop start).take count).map hashToHexStr)
      (((theirs.drop start).take count).map hashToHexStr) = fork - start := by
  have hlt := h.length_lt
  have hget (xs : List Bytes) (i : Nat) (hi : i < count) :
      (((xs.drop start).take count).map hashToHexStr)[i]? = (xs[start + i]?).map hashToHexStr := by
    rw [List.getElem?_map, List.getElem?_take_of_lt hi, List.getElem?_drop]
  have hl (xs : List Bytes) (hx : start + count ≤ xs.length) :
      (((xs.drop start).take count).map hashToHexStr).length = count := by
    rw [List.length_map, List.length_take, List.length_drop]
    omega
  apply diffPos_eq
  · rw [hl ours hend, hl theirs (by omega)]
  · rw [hl ours hend]
    omega
  · intro i hi
    rw [hget ours i (by omega), hget theirs i (by omega), h.same (start + i) (by omega)]
  · intro hi
    rw [hl ours hend] at hi
    rw [hget ours _ hi, hget theirs _ hi]
    intro heq
    exact h.differ (start + (fork - start)) (by omega) (by omega)
      (Option.map_injective (fun a b ↦ hashToHexStr_inj.mp) heq)

/-- The daemon and the DB answer with the windows of the two chains. -/
structure Answer (env : Env) (s : BlockProcessor)
    (blockHexHashes : Int → Int → Except PyError (List String)) (ours theirs : List Bytes) :
    Prop where
  height : s.height + 1 = ours.length
  fsBlockHashes : ∀ start count : Nat, start + count ≤ ours.length →
    s.db.fsBlockHashes env start count = .ok ((ours.drop start).take count)
  blockHexHashes : ∀ first count : Nat, first + count ≤ theirs.length →
    blockHexHashes first count = .ok (((theirs.drop first).take count).map hashToHexStr)

/-- One round of the search: it ends in a window whose lowest block is shared, and otherwise
goes on in the window below. -/
theorem Answer.searchFork_step (ha : Answer env s blockHexHashes ours theirs)
    (h : ForksAt ours theirs fork) {start count : Nat} (hstart : 0 < start) (hcount : 0 < count)
    (hend : start + count < ours.length) (hfork : fork ≤ start + count) :
    s.searchFork env blockHexHashes start count (by omega) =
      if start < fork then .ok (fork : Int)
      else s.searchFork env blockHexHashes ((start - min (count * 2) start : Nat) : Int)
        (min (count * 2) start : Nat) (by omega) := by
  have hlt := h.length_lt
  have hdiff := h.diffPos_window hend.le hfork
  rw [BlockProcessor.searchFork, dif_pos (by omega), ha.fsBlockHashes start count hend.le,
    ha.blockHexHashes start count (by omega)]
  change (if BlockProcessor.diffPos _ _ > 0 then _ else _) = _
  rw [hdiff]
  split
  · next hn =>
    rw [if_pos (by omega)]
    change Except.ok ((start : Int) + (fork - start : Nat)) = _
    congr 1
    omega
  · next hn =>
    rw [if_neg (by omega)]
    have hmin : min ((count : Int) * 2) start = (min (count * 2) start : Nat) := by omega
    have hsub : (start : Int) - (min (count * 2) start : Nat) =
        (start - min (count * 2) start : Nat) := by omega
    simp only [hmin, hsub]

/-- The search ends at the fork when fewer blocks are above it than the greatest power of two
up to the height, and else at height zero. The windows that were compared end at the tip, and
the next is `2 ^ k` blocks long. -/
theorem Answer.searchFork_eq (ha : Answer env s blockHexHashes ours theirs)
    (h : ForksAt ours theirs fork) {start k : Nat} (hk : start + 2 * 2 ^ k = ours.length)
    (hfork : fork ≤ start + 2 ^ k) :
    s.searchFork env blockHexHashes start (2 ^ k : Nat) (Int.natCast_pos.mpr (Nat.two_pow_pos k)) =
      .ok (if ours.length - fork < 2 ^ (ours.length - 1).log2 then (fork : Int) else 0) := by
  have hpow : 0 < 2 ^ k := Nat.two_pow_pos k
  have hpos := h.pos
  have hlog (m : Nat) : m ≤ (ours.length - 1).log2 ↔ 2 ^ m ≤ ours.length - 1 :=
    Nat.le_log2 (by omega)
  have hnot {m : Nat} (hm : ours.length - 1 < 2 ^ (m + 1)) (hle : 2 ^ m ≤ ours.length - fork) :
      ¬ours.length - fork < 2 ^ (ours.length - 1).log2 := by
    have hlt : (ours.length - 1).log2 < m + 1 := by
      rw [← not_le, hlog]
      omega
    have hmono : 2 ^ (ours.length - 1).log2 ≤ 2 ^ m :=
      Nat.pow_le_pow_right (by omega) (by omega)
    omega
  induction start using Nat.strong_induction_on generalizing k with
  | _ start ih =>
    rcases Nat.eq_zero_or_pos start with rfl | hstart
    · rw [BlockProcessor.searchFork, dif_neg (by omega), if_neg]
      · rfl
      · refine hnot (m := k) ?_ (by omega)
        rw [Nat.pow_succ]
        omega
    · rw [ha.searchFork_step h hstart hpow (by omega) hfork]
      by_cases hfound : start < fork
      · have hle : 2 ^ (k + 1) ≤ 2 ^ (ours.length - 1).log2 := by
          apply Nat.pow_le_pow_right (by omega)
          rw [hlog, Nat.pow_succ]
          omega
        rw [Nat.pow_succ] at hle
        rw [if_pos hfound, if_pos (by omega)]
      · rw [if_neg hfound]
        by_cases hclip : 2 ^ k * 2 < start
        · have hmin : min (2 ^ k * 2) start = 2 ^ (k + 1) := by
            rw [Nat.pow_succ]
            omega
          simp only [hmin]
          refine ih (start - 2 ^ (k + 1)) ?_ ?_ ?_ (Nat.two_pow_pos _)
          all_goals rw [Nat.pow_succ]; omega
        · -- the window is clipped: height zero is next, and is not compared
          have hmin : min (2 ^ k * 2) start = start := by omega
          simp only [hmin, Nat.sub_self]
          rw [BlockProcessor.searchFork, dif_neg (by omega), if_neg]
          · rfl
          · refine hnot (m := k + 1) ?_ ?_
            · rw [Nat.pow_succ, Nat.pow_succ]
              omega
            · rw [Nat.pow_succ]
              omega

/-- The range of a real reorg. -/
theorem Answer.calcReorgRange_eq (ha : Answer env s blockHexHashes ours theirs)
    (h : ForksAt ours theirs fork) :
    s.calcReorgRange env blockHexHashes none =
      .ok (if ours.length - fork < 2 ^ (ours.length - 1).log2
        then ((fork : Int), ((ours.length - fork : Nat) : Int)) else (0, (ours.length : Int))) := by
  have hheight := ha.height
  have hpos := h.pos
  have hlt := h.lt
  have hstart : s.height - 1 = (ours.length - 2 : Nat) := by omega
  have hfirst : ours.length - 2 + 2 * 2 ^ 0 = ours.length := by omega
  have hsearch := ha.searchFork_eq h hfirst (by omega)
  rw [BlockProcessor.calcReorgRange]
  simp only [hstart]
  change (s.searchFork env blockHexHashes _ (2 ^ 0 : Nat) _ >>= _) = _
  rw [hsearch]
  change Except.ok (_, _) = _
  split
  · congr 2
    omega
  · congr 2
    omega

end Search

/-! ### The chunks -/

/-- In every chunk of the loop of `reorg_chain` the assertion `height >= len(raw_blocks)` of
`backup_blocks` holds: the height goes down by the length of each chunk. -/
def ChunksFit : Int → List (List String) → Prop
  | _, [] => True
  | height, hexHashes :: rest =>
    height ≥ hexHashes.length ∧ ChunksFit (height - hexHashes.length) rest

theorem chunksFit_of_le {height : Int} {hashes : List (List String)}
    (h : (hashes.flatten.length : Int) ≤ height) : ChunksFit height hashes := by
  induction hashes generalizing height with
  | nil => trivial
  | cons c rest ih =>
    rw [List.flatten_cons, List.length_append] at h
    exact ⟨by omega, ih (by omega)⟩

/-- A reorg of blocks above the genesis block fits. -/
theorem chunksFit_reorgChunks {height : Int} {hashes : List Bytes}
    (h : (hashes.length : Int) ≤ height) :
    ChunksFit height (BlockProcessor.reorgChunks hashes) := by
  apply chunksFit_of_le
  rw [BlockProcessor.reorgChunks, flatten_chunks (by decide), List.length_map,
    List.length_reverse]
  exact h

/-! ### Real reorgs -/

/-- The block hashes of a chain. -/
def blockHashes (coin : Coin) (chain : List Block) : List Bytes :=
  chain.map fun b ↦ coin.headerHash b.header

/-- The daemon answers `getblockhash` for the heights of its chain. -/
def AnswersHashes (blockHexHashes : Int → Int → Except PyError (List String))
    (theirs : List Bytes) : Prop :=
  ∀ first count : Nat, first + count ≤ theirs.length →
    blockHexHashes first count = .ok (((theirs.drop first).take count).map hashToHexStr)

/-- A flushed DB serves the hashes of its chain. -/
theorem LinkedRun.serves {env : Env} {s : BlockProcessor} {chain : List Block}
    (r : LinkedRun env s chain) (hf : FullyFlushed s) :
    MerkleCache.Serves (fun start count ↦ s.db.fsBlockHashes env start count)
      (blockHashes env.coin chain) := by
  obtain ⟨stored, h⟩ := r.kept
  obtain ⟨rfl, hheight⟩ := h.of_fullyFlushed hf
  intro start count hin
  rw [blockHashes, List.length_map] at hin
  change s.db.fsBlockHashes env start count = _
  rw [fsBlockHashes_eq h.files h.fit hheight, blockHashes, List.map_take, List.map_drop]
  rw [List.length_take, List.length_drop]
  omega

theorem LinkedRun.length_blockHashes {env : Env} {s : BlockProcessor} {chain : List Block}
    (r : LinkedRun env s chain) (hf : FullyFlushed s) :
    s.height + 1 = (blockHashes env.coin chain).length := by
  obtain ⟨stored, h⟩ := r.kept
  obtain ⟨rfl, -⟩ := h.of_fullyFlushed hf
  rw [blockHashes, List.length_map, h.height_eq]

theorem LinkedRun.answer {env : Env} {s : BlockProcessor} {chain : List Block}
    {blockHexHashes : Int → Int → Except PyError (List String)} {theirs : List Bytes}
    (r : LinkedRun env s chain) (hf : FullyFlushed s)
    (hdaemon : AnswersHashes blockHexHashes theirs) :
    Answer env s blockHexHashes (blockHashes env.coin chain) theirs :=
  ⟨r.length_blockHashes hf, r.serves hf, hdaemon⟩

/-- The header cache of a flushed DB, as long as it covers hashes of the chain, answers up to
the tip as the plain tree of the chain's hashes does. -/
theorem LinkedRun.headerMc {env : Env} {s : BlockProcessor} {chain : List Block} {m : Merkle}
    {mc : MerkleCache} {covered length index : Nat} (r : LinkedRun env s chain)
    (hf : FullyFlushed s)
    (hmc : MerkleCache.Caches m (blockHashes env.coin chain) covered mc) (hindex : index < length)
    (hlength : (length : Int) ≤ s.height + 1) :
    ∃ mc' result,
      mc.branchAndRoot m (fun start count ↦ s.db.fsBlockHashes env start count) length index =
        .ok (mc', result) ∧
      m.branchAndRoot ((blockHashes env.coin chain).take length) index none = .ok result := by
  have hlen := r.length_blockHashes hf
  obtain ⟨mc', result, hrequest, hplain, -⟩ :=
    hmc.branchAndRoot (r.serves hf) hindex (by omega)
  exact ⟨mc', result, hrequest, hplain⟩

/-- The reorg backs up exactly the blocks above the fork, in chunks that the height allows. -/
def BacksUpToFork (env : Env) (s : BlockProcessor)
    (blockHexHashes : Int → Int → Except PyError (List String)) (fork : Nat) : Prop :=
  s.calcReorgRange env blockHexHashes none = .ok ((fork : Int), s.height - fork + 1) ∧
    ∃ hashes, s.reorgHashes env blockHexHashes none = .ok ((fork : Int), s.height, hashes) ∧
      ChunksFit s.height (BlockProcessor.reorgChunks hashes)

theorem Answer.backsUp_iff {env : Env} {s : BlockProcessor} {ours theirs : List Bytes}
    {fork : Nat} {blockHexHashes : Int → Int → Except PyError (List String)}
    (ha : Answer env s blockHexHashes ours theirs) (h : ForksAt ours theirs fork) :
    BacksUpToFork env s blockHexHashes fork ↔
      s.height - fork + 1 < 2 ^ s.height.toNat.log2 := by
  have hheight := ha.height
  have hpos := h.pos
  have hlt := h.lt
  have hlog : s.height.toNat = ours.length - 1 := by omega
  have hcond : s.height - fork + 1 < 2 ^ s.height.toNat.log2 ↔
      ours.length - fork < 2 ^ (ours.length - 1).log2 := by
    rw [hlog]
    have hcast : ((2 ^ (ours.length - 1).log2 : Nat) : Int) = 2 ^ (ours.length - 1).log2 := by
      push_cast
      rfl
    omega
  have hrange := ha.calcReorgRange_eq h
  rw [hcond]
  constructor
  · rintro ⟨hfork, -⟩
    rw [hrange] at hfork
    by_contra hno
    rw [if_neg hno] at hfork
    have hzero : (0 : Int) = fork := congrArg Prod.fst (Except.ok.inj hfork)
    omega
  · intro hfew
    rw [if_pos hfew] at hrange
    have hcount : ((ours.length - fork : Nat) : Int) = s.height - fork + 1 := by omega
    refine ⟨by rw [hrange, hcount], (ours.drop fork).take (ours.length - fork), ?_, ?_⟩
    · rw [BlockProcessor.reorgHashes, hrange]
      change (s.db.fsBlockHashes env fork (ours.length - fork : Nat) >>= _) = _
      rw [ha.fsBlockHashes fork _ (by omega)]
      change Except.ok (_, _, _) = _
      rw [show (fork : Int) + (ours.length - fork : Nat) - 1 = s.height by omega]
    · apply chunksFit_reorgChunks
      rw [List.length_take, List.length_drop]
      omega

/-- A real reorg of a flushed processor backs up to the fork exactly when the blocks above it
are fewer than the greatest power of two that is at most the height. -/
theorem backsUpToFork_iff {env : Env} {s : BlockProcessor} {chain : List Block}
    {blockHexHashes : Int → Int → Except PyError (List String)} {theirs : List Bytes}
    (r : LinkedRun env s chain) (hf : FullyFlushed s)
    (hdaemon : AnswersHashes blockHexHashes theirs) (hlen : s.height + 1 < theirs.length)
    (hgenesis : (blockHashes env.coin chain)[0]? = theirs[0]?)
    (hlink : ∀ k h : Nat, k ≤ h → h < chain.length →
      (blockHashes env.coin chain)[h]? = theirs[h]? → (blockHashes env.coin chain)[k]? = theirs[k]?)
    (htip : (blockHashes env.coin chain)[s.height.toNat]? ≠ theirs[s.height.toNat]?) :
    ∃ fork, ForksAt (blockHashes env.coin chain) theirs fork ∧
      (BacksUpToFork env s blockHexHashes fork ↔
        s.height - fork + 1 < 2 ^ s.height.toNat.log2) := by
  have ha := r.answer hf hdaemon
  have hheight := ha.height
  have hl : (blockHashes env.coin chain).length = chain.length := by
    rw [blockHashes, List.length_map]
  have htop : s.height.toNat = (blockHashes env.coin chain).length - 1 := by omega
  obtain ⟨fork, h⟩ := exists_forksAt (by omega) hgenesis (hl ▸ hlink) (htop ▸ htip)
  exact ⟨fork, h, ha.backsUp_iff h⟩

/-! ### Samples -/

/-- A daemon that serves a chain of hashes. -/
def sampleDaemon (theirs : List Bytes) (first count : Int) : Except PyError (List String) :=
  .ok (((theirs.drop first.toNat).take count.toNat).map hashToHexStr)

theorem sampleDaemon_answers (theirs : List Bytes) : AnswersHashes (sampleDaemon theirs) theirs :=
  fun _ _ _ ↦ rfl

/-- A block on top of block `a`. -/
def sampleUpper : Block := sampleBlock 2 (sampleCoin.headerHash sampleA.header)

/-- Three blocks, flushed. -/
def sampleLonger : Except PyError BlockProcessor := do
  let s ← sampleAdvance
  let s ← s.advanceBlocks sampleEnv 2 [sampleUpper]
  s.flush sampleEnv true

theorem sampleLonger_linkedRun {s : BlockProcessor} (h : sampleLonger = .ok s) :
    LinkedRun sampleEnv s [sampleGenesis, sampleA, sampleUpper] := by
  obtain ⟨s1, h1, h⟩ := bind_eq_ok.mp h
  obtain ⟨s2, h2, h3⟩ := bind_eq_ok.mp h
  obtain ⟨_, k1⟩ := (sampleAdvance_linkedRun h1).kept
  have r2 := LinkedRun.advanced 2 (sampleAdvance_linkedRun h1)
    (k1.linksOnto (b := sampleUpper) rfl (by decide) nofun) h2
  exact .flushed true r2 h3

/-- The daemon's chain when the block on top of block `a` is replaced. -/
def sampleTheirs : List Bytes :=
  [sampleCoin.headerHash sampleGenesis.header, sampleCoin.headerHash sampleA.header,
    List.replicate 32 9, List.replicate 32 8]

theorem sampleLonger_backsUp : ∃ s, sampleLonger = .ok s ∧
    BacksUpToFork sampleEnv s (sampleDaemon sampleTheirs) 2 := by
  obtain ⟨s, hs, hf, hheight⟩ : ∃ s, sampleLonger = .ok s ∧ FullyFlushed s ∧ s.height = 2 := by
    decide +kernel
  have hlink : ∀ h < 3, ∀ k < h + 1,
      (blockHashes sampleCoin [sampleGenesis, sampleA, sampleUpper])[h]? = sampleTheirs[h]? →
        (blockHashes sampleCoin [sampleGenesis, sampleA, sampleUpper])[k]? = sampleTheirs[k]? := by
    decide +kernel
  obtain ⟨fork, hfork, hiff⟩ := backsUpToFork_iff (sampleLonger_linkedRun hs) hf
    (sampleDaemon_answers sampleTheirs) (by rw [hheight]; decide) (by decide +kernel)
    (fun k h hk hh ↦ hlink h hh k (by omega)) (by rw [hheight]; decide +kernel)
  obtain rfl : fork = 2 := by
    have hlt : fork < 3 := hfork.lt
    have hne : ¬2 < fork := fun h ↦ absurd (hfork.same 2 h) (by decide +kernel)
    have hle : ¬fork < 2 := fun h ↦
      hfork.differ 1 (by omega) (by decide) (by decide +kernel)
    omega
  refine ⟨s, hs, hiff.mpr ?_⟩
  rw [hheight]
  decide

/-- The daemon's chain when block `a` is replaced. -/
def sampleOther : List Bytes :=
  [sampleCoin.headerHash sampleGenesis.header, sampleCoin.headerHash sampleB.header,
    List.replicate 32 8]

/-- When the only block above the genesis block is replaced the genesis block is backed up
with it. -/
theorem not_backsUpToFork : ¬∀ (env : Env) (s : BlockProcessor) (chain : List Block)
    (blockHexHashes : Int → Int → Except PyError (List String)) (theirs : List Bytes),
    LinkedRun env s chain → FullyFlushed s → AnswersHashes blockHexHashes theirs →
    s.height + 1 < theirs.length → 1 ≤ s.height →
    (blockHashes env.coin chain)[0]? = theirs[0]? →
    (∀ k h : Nat, k ≤ h → h < chain.length →
      (blockHashes env.coin chain)[h]? = theirs[h]? →
        (blockHashes env.coin chain)[k]? = theirs[k]?) →
    (blockHashes env.coin chain)[s.height.toNat]? ≠ theirs[s.height.toNat]? →
    ∃ fork, ForksAt (blockHashes env.coin chain) theirs fork ∧
      BacksUpToFork env s blockHexHashes fork := by
  intro hall
  obtain ⟨s, hs, hf, hheight⟩ : ∃ s, sampleAdvance = .ok s ∧ FullyFlushed s ∧ s.height = 1 := by
    decide +kernel
  have r := sampleAdvance_linkedRun hs
  have hlink : ∀ h < 2, ∀ k < h + 1,
      (blockHashes sampleCoin [sampleGenesis, sampleA])[h]? = sampleOther[h]? →
        (blockHashes sampleCoin [sampleGenesis, sampleA])[k]? = sampleOther[k]? := by
    decide +kernel
  obtain ⟨fork, hfork, hback⟩ := hall sampleEnv s _ _ sampleOther r hf
    (sampleDaemon_answers sampleOther) (by rw [hheight]; decide) (by omega) (by decide +kernel)
    (fun k h hk hh ↦ hlink h hh k (by omega)) (by rw [hheight]; decide +kernel)
  have hlt : fork < 2 := hfork.lt
  have hpos := hfork.pos
  obtain rfl : fork = 1 := by omega
  have hfew := ((r.answer hf (sampleDaemon_answers sampleOther)).backsUp_iff hfork).mp hback
  rw [hheight] at hfew
  exact absurd hfew (by decide)

end ElectrumX.Index
