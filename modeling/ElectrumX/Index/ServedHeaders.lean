import ElectrumX.Index.ReorgRange
import ElectrumX.Server.ProofRequests

/-!
# Headers that a client can check

The headers that a flushed index serves are those of its chain, and the proofs that come with
them below a checkpoint lead to the Merkle root of the block hashes up to it.
-/

namespace ElectrumX.Index
open ElectrumX.Base ElectrumX.Lib ElectrumX.Chain ElectrumX.Server

/-- A client that folds the branch over a hash at some height gets the root, which is that of the
first hashes. -/
def Proves (m : Merkle) (hashes : List Bytes) (hash : Bytes) (height : Nat) (p : HeaderProof) :
    Prop :=
  ∃ branch root, p = ⟨branch.map hashToHexStr, hashToHexStr root⟩ ∧
    m.root hashes none = .ok root ∧ m.rootFromProof hash branch height = .ok root

section Served

variable {env : Env} {s : BlockProcessor} {chain : List Block} {m : Merkle} {mc : MerkleCache}
  {covered : Nat}

theorem LinkedRun.dbHeight (r : LinkedRun env s chain) (hf : FullyFlushed s) :
    s.db.dbHeight + 1 = chain.length := by
  obtain ⟨stored, h⟩ := r.kept
  obtain ⟨rfl, hheight⟩ := h.of_fullyFlushed hf
  exact hheight

theorem LinkedRun.readHeaders (r : LinkedRun env s chain) (hf : FullyFlushed s)
    (start count : Nat) :
    s.db.readHeaders env start count = .ok (headers ((chain.drop start).take count),
      ((chain.drop start).take count).length) := by
  obtain ⟨stored, h⟩ := r.kept
  obtain ⟨rfl, hheight⟩ := h.of_fullyFlushed hf
  exact readHeaders_eq h.files h.fit hheight start count

/-- Below a checkpoint that the chain has reached, every block can be proved. -/
theorem LinkedRun.merkleProof (r : LinkedRun env s chain) (hf : FullyFlushed s)
    (hmc : MerkleCache.Caches m (blockHashes env.coin chain) covered mc) {height cpHeight : Nat}
    {b : Block} (hb : chain[height]? = some b) (hle : height ≤ cpHeight)
    (hcp : cpHeight < chain.length) :
    ∃ mc' p, s.db.merkleProof env m mc cpHeight height = .ok (mc', p) ∧
      Proves m ((blockHashes env.coin chain).take (cpHeight + 1)) (env.coin.headerHash b.header)
        height p := by
  have hheight := r.dbHeight hf
  have hdb := r.length_blockHashes hf
  have hlen : (blockHashes env.coin chain).length = chain.length := List.length_map _
  obtain ⟨mc', ⟨branch, root⟩, hrequest, hplain⟩ := r.headerMc hf hmc
    (show height < cpHeight + 1 by omega) (by omega)
  have hindex : height < ((blockHashes env.coin chain).take (cpHeight + 1)).length := by
    rw [List.length_take]
    omega
  obtain ⟨hroot, hproof⟩ := m.branchAndRoot_proves hplain hindex
  have hget : ((blockHashes env.coin chain).take (cpHeight + 1))[height] =
      env.coin.headerHash b.header := by
    apply Option.some.inj
    rw [← List.getElem?_eq_getElem hindex, List.getElem?_take_of_lt (by omega), blockHashes,
      List.getElem?_map, hb]
    rfl
  refine ⟨mc', ⟨branch.map hashToHexStr, hashToHexStr root⟩, ?_,
    branch, root, rfl, hroot, hget ▸ hproof⟩
  rw [DB.merkleProof, if_neg (not_not_intro ⟨hle, by omega⟩), hrequest]
  rfl

theorem LinkedRun.merkleProof_error (r : LinkedRun env s chain) (hf : FullyFlushed s)
    {height cpHeight : Nat} (h : ¬(height ≤ cpHeight ∧ cpHeight < chain.length)) :
    s.db.merkleProof env m mc cpHeight height =
      .error (.requireHeights height cpHeight (chain.length - 1)) := by
  have hheight := r.dbHeight hf
  have hdb : s.db.dbHeight = chain.length - 1 := by omega
  rw [DB.merkleProof, hdb, if_pos (by omega)]
  rfl

/-- The header of a block of the chain is served, above the tip it is refused; below a checkpoint
that is on the chain it is proved, and any other checkpoint is refused. -/
def ServesHeader (env : Env) (m : Merkle) (db : DB) (mc : MerkleCache) (chain : List Block)
    (height cpHeight : Nat) : Prop :=
  match chain[height]? with
  | none => db.blockHeader env m mc height cpHeight = .error (.heightOutOfRange height)
  | some b =>
    if cpHeight = 0 then
      db.blockHeader env m mc height cpHeight = .ok (mc, ⟨bytesHex b.header, none⟩)
    else if height ≤ cpHeight ∧ cpHeight < chain.length then
      ∃ mc' p, db.blockHeader env m mc height cpHeight =
          .ok (mc', ⟨bytesHex b.header, some p⟩) ∧
        Proves m ((blockHashes env.coin chain).take (cpHeight + 1)) (env.coin.headerHash b.header)
          height p
    else db.blockHeader env m mc height cpHeight =
      .error (.requireHeights height cpHeight (chain.length - 1))

/-- The headers of the blocks from a height on are served, at most 2016 of them, and the last one
is proved as a single one is. -/
def ServesHeaders (env : Env) (m : Merkle) (db : DB) (mc : MerkleCache) (chain : List Block)
    (start count cpHeight : Nat) : Prop :=
  let served := (chain.drop start).take (min count maxChunkSize)
  match served.getLast? with
  | none => db.blockHeaders env m mc start count cpHeight = .ok (mc, ⟨"", 0, maxChunkSize, none⟩)
  | some b =>
    let last := start + served.length - 1
    if cpHeight = 0 then
      db.blockHeaders env m mc start count cpHeight =
        .ok (mc, ⟨bytesHex (headers served), served.length, maxChunkSize, none⟩)
    else if last ≤ cpHeight ∧ cpHeight < chain.length then
      ∃ mc' p, db.blockHeaders env m mc start count cpHeight =
          .ok (mc', ⟨bytesHex (headers served), served.length, maxChunkSize, some p⟩) ∧
        Proves m ((blockHashes env.coin chain).take (cpHeight + 1)) (env.coin.headerHash b.header)
          last p
    else db.blockHeaders env m mc start count cpHeight =
      .error (.requireHeights last cpHeight (chain.length - 1))

theorem LinkedRun.servesHeader (r : LinkedRun env s chain) (hf : FullyFlushed s)
    (hmc : MerkleCache.Caches m (blockHashes env.coin chain) covered mc) (height cpHeight : Nat) :
    ServesHeader env m s.db mc chain height cpHeight := by
  have hread := r.readHeaders hf height 1
  rw [ServesHeader]
  cases hb : chain[height]? with
  | none =>
    rw [List.drop_eq_nil_of_le (List.getElem?_eq_none_iff.mp hb)] at hread
    dsimp only
    rw [DB.blockHeader, DB.rawHeaderOr, DB.rawHeader, Nat.cast_one.symm, hread]
    rfl
  | some b =>
    have hraw : s.db.rawHeader env height = .ok b.header := by
      have hdrop : (chain.drop height).take 1 = [b] := by
        obtain ⟨hlt, rfl⟩ := List.getElem?_eq_some_iff.mp hb
        rw [List.drop_eq_getElem_cons hlt, List.take_succ_cons, List.take_zero]
      rw [hdrop] at hread
      rw [DB.rawHeader, Nat.cast_one.symm, hread]
      change Except.ok (b.header ++ []) = _
      rw [List.append_nil]
    have hreply : s.db.blockHeader env m mc height cpHeight =
        if cpHeight = 0 then .ok (mc, ⟨bytesHex b.header, none⟩)
        else (s.db.merkleProof env m mc cpHeight height).map fun p ↦
          (p.1, ⟨bytesHex b.header, some p.2⟩) := by
      rw [DB.blockHeader, DB.rawHeaderOr, hraw]
      rfl
    dsimp only
    rw [hreply]
    split_ifs with hzero hcp
    · rfl
    · obtain ⟨mc', p, hp, hproves⟩ := r.merkleProof hf hmc hb hcp.1 hcp.2
      exact ⟨mc', p, by rw [hp]; rfl, hproves⟩
    · rw [r.merkleProof_error hf hcp]
      rfl

theorem LinkedRun.servesHeaders (r : LinkedRun env s chain) (hf : FullyFlushed s)
    (hmc : MerkleCache.Caches m (blockHashes env.coin chain) covered mc)
    (start count cpHeight : Nat) :
    ServesHeaders env m s.db mc chain start count cpHeight := by
  have hread := r.readHeaders hf start (min count maxChunkSize)
  rw [Nat.cast_min] at hread
  rw [ServesHeaders]
  generalize hserved : (chain.drop start).take (min count maxChunkSize) = served at hread
  have hreply : s.db.blockHeaders env m mc start count cpHeight =
      if served.length ≠ 0 ∧ cpHeight ≠ 0 then
        (s.db.merkleProof env m mc cpHeight (start + served.length - 1)).map fun p ↦
          (p.1, ⟨bytesHex (headers served), served.length, maxChunkSize, some p.2⟩)
      else .ok (mc, ⟨bytesHex (headers served), served.length, maxChunkSize, none⟩) := by
    rw [DB.blockHeaders, hread]
    rfl
  dsimp only
  rw [hreply]
  cases hlast : served.getLast? with
  | none =>
    rw [List.getLast?_eq_none_iff.mp hlast]
    rfl
  | some b =>
    have hne : served.length ≠ 0 := by
      intro h0
      rw [List.length_eq_zero_iff.mp h0] at hlast
      cases hlast
    have hb : chain[start + served.length - 1]? = some b := by
      have hle : served.length ≤ min count maxChunkSize := by
        rw [← hserved]
        exact List.length_take_le _ _
      have hsum : start + (served.length - 1) = start + served.length - 1 := by omega
      rw [List.getLast?_eq_getElem?] at hlast
      rw [← hsum, ← List.getElem?_drop, ← hlast, ← hserved, List.getElem?_take_of_lt]
      rw [hserved]
      omega
    dsimp only
    split_ifs with hzero hcond hcp hcond hcond
    · exact absurd hzero hcond.2
    · rfl
    · obtain ⟨mc', p, hp, hproves⟩ := r.merkleProof hf hmc hb hcp.1 hcp.2
      exact ⟨mc', p, by rw [hp]; rfl, hproves⟩
    · exact absurd ⟨hne, hzero⟩ hcond
    · rw [r.merkleProof_error hf hcp]
      rfl
    · exact absurd ⟨hne, hzero⟩ hcond

end Served

/-- In every fully flushed state of a run, reorgs included, with a header cache that any sequence
of requests, truncations and reorgs behind it has left, headers are served as the chain has them,
and every proof that comes with one leads from its hash to the Merkle root of the chain's hashes
up to the checkpoint. -/
theorem LinkedRun.headers_prove {env : Env} {s : BlockProcessor} {chain : List Block} {m : Merkle}
    {mc : MerkleCache} {covered : Nat} (r : LinkedRun env s chain) (hf : FullyFlushed s)
    (hmc : MerkleCache.CacheRun m (blockHashes env.coin chain) covered mc)
    (start count cpHeight : Nat) :
    ServesHeader env m s.db mc chain start cpHeight ∧
      ServesHeaders env m s.db mc chain start count cpHeight :=
  ⟨r.servesHeader hf hmc.caches start cpHeight, r.servesHeaders hf hmc.caches start count cpHeight⟩

/-- Two blocks are flushed, and the header cache is built over them. -/
theorem sampleAdvance_headers_prove : ∃ s mc, sampleAdvance = .ok s ∧
    ServesHeader sampleEnv Merkle.sampleMerkle s.db mc [sampleGenesis, sampleA] 0 1 ∧
    ServesHeaders sampleEnv Merkle.sampleMerkle s.db mc [sampleGenesis, sampleA] 0 5 1 := by
  obtain ⟨s, hs, hf⟩ : ∃ s, sampleAdvance = .ok s ∧ FullyFlushed s := by decide +kernel
  obtain ⟨mc, hmc, -, -⟩ := MerkleCache.Caches.initializeTo (m := Merkle.sampleMerkle) {}
    (MerkleCache.serves_sourceOf (blockHashes sampleCoin [sampleGenesis, sampleA]))
    (by decide : 1 ≤ 2) le_rfl
  have hrun : MerkleCache.CacheRun Merkle.sampleMerkle
      (blockHashes sampleEnv.coin [sampleGenesis, sampleA]) 2 mc :=
    .initialized (MerkleCache.serves_sourceOf _) (by decide) le_rfl hmc
  have h := (sampleAdvance_linkedRun hs).headers_prove hf hrun 0 5 1
  exact ⟨s, mc, hs, h⟩

end ElectrumX.Index
