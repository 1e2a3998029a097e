import ElectrumX.Index.Bookkeeping
import Mathlib.Tactic.Ring

/-!
# Reading headers back

The header files are only ever appended to at the stored height: what an orphaned branch
left behind them is out of reach of the offsets. A fully flushed DB therefore reads back the
headers of its chain, of whatever lengths, and cuts them where one ends and the next begins.
-/

namespace ElectrumX.Index
open ElectrumX.Base ElectrumX.Lib ElectrumX.Chain ElectrumX.Server

section Split

variable {env : Env} {db : DB} {recorded : List Block}

/-- The length of a recorded header is found from the offsets. -/
theorem headerLen_eq (hf : FilesHold env db.disk recorded) (hv : HeadersFit env.coin recorded)
    {i : Nat} {b : Block} (hb : recorded[i]? = some b) :
    db.headerLen env i = .ok (b.header.length : Int) := by
  have hlt := (List.getElem?_eq_some_iff.mp hb).1
  have hhere := headerOffset_of_le hf hv hlt.le
  have hnext := headerOffset_of_le hf hv hlt
  rw [DB.headerOffset] at hhere hnext
  unfold DB.headerLen
  split
  · next hs =>
    rw [hv.static hs b (List.mem_of_getElem? hb), Coin.staticHeaderLen, Coin.staticHeaderOffset,
      Coin.staticHeaderOffset]
    congr 1
    ring
  · next hs =>
    rw [if_neg hs] at hhere hnext
    have hlen : (headers (recorded.take (i + 1))).length =
        (headers (recorded.take i)).length + b.header.length := by
      rw [List.take_add_one, hb, Option.toList_some, headers_append, List.length_append]
      simp [headers]
    have hcast : (i : Int) + 1 = (i + 1 : Nat) := by omega
    rw [DB.dynamicHeaderLen, hcast, hnext, hhere]
    change Except.ok (((headers (recorded.take (i + 1))).length : Int) -
      (headers (recorded.take i)).length) = _
    rw [hlen]
    congr 1
    omega

/-- The concatenated headers of consecutive blocks are cut into the headers. -/
theorem splitHeaders_eq (hf : FilesHold env db.disk recorded) (hv : HeadersFit env.coin recorded)
    (a : Bytes) (height : Nat) (blocks : List Block)
    (hb : ∀ (i : Nat) b, blocks[i]? = some b → recorded[height + i]? = some b) :
    db.splitHeaders env (a ++ headers blocks) a.length height blocks.length =
      .ok (blocks.map (·.header)) := by
  induction blocks generalizing a height with
  | nil => rfl
  | cons b rest ih =>
    have hhere : recorded[height]? = some b := hb 0 b rfl
    have hrest : ∀ (i : Nat) b', rest[i]? = some b' → recorded[height + 1 + i]? = some b' := by
      intro i b' hi
      have := hb (i + 1) b' hi
      rwa [show height + (i + 1) = height + 1 + i by omega] at this
    have hcat : a ++ headers (b :: rest) = a ++ b.header ++ headers rest := by
      rw [headers, List.flatMap_cons, List.append_assoc, headers]
    have hlen : (a.length : Int) + b.header.length = ((a ++ b.header).length : Nat) := by
      rw [List.length_append]
      omega
    have hnext : (height : Int) + 1 = (height + 1 : Nat) := by omega
    rw [List.length_cons, DB.splitHeaders, headerLen_eq hf hv hhere]
    change (db.splitHeaders env _ (a.length + b.header.length) (height + 1) rest.length >>= _) = _
    rw [hlen, hnext, hcat, ih (a ++ b.header) (height + 1) hrest, ← hlen]
    change Except.ok (pySlice _ _ _ :: _) = _
    rw [pySlice_append, List.map_cons]

private theorem getElem?_of_window {start count i : Nat} {b : Block}
    (h : ((recorded.drop start).take count)[i]? = some b) : recorded[start + i]? = some b := by
  rw [List.getElem?_take] at h
  split at h
  · rwa [List.getElem?_drop] at h
  · cases h

/-- `fs_block_hashes` returns the hashes of the recorded headers that it is asked for, when
all of them are there. -/
theorem fsBlockHashes_eq (hf : FilesHold env db.disk recorded) (hv : HeadersFit env.coin recorded)
    (hheight : db.dbHeight + 1 = recorded.length) {start count : Nat}
    (hin : ((recorded.drop start).take count).length = count) :
    db.fsBlockHashes env start count =
      .ok (((recorded.drop start).take count).map fun b ↦ env.coin.headerHash b.header) := by
  have hsplit := splitHeaders_eq hf hv [] start ((recorded.drop start).take count)
    fun _ _ ↦ getElem?_of_window
  rw [hin, List.nil_append] at hsplit
  rw [DB.fsBlockHashes, readHeaders_eq hf hv hheight, hin]
  change (if (count : Int) ≠ count then _ else _) = _
  rw [if_neg (not_not_intro rfl), Int.toNat_natCast]
  change (db.splitHeaders env _ (([] : Bytes).length : Nat) _ _ >>= _) = _
  rw [hsplit]
  change Except.ok _ = _
  rw [List.map_map]
  rfl

end Split

/-- A fully flushed processor stores its whole chain. -/
theorem Kept.of_fullyFlushed {env : Env} {s : BlockProcessor} {stored chain : List Block}
    (h : Kept env s stored chain) (hf : FullyFlushed s) :
    stored = chain ∧ s.db.dbHeight + 1 = chain.length := by
  obtain ⟨-, ⟨hfs, hdb⟩, -⟩ := fullyFlushed_iff.mp hf
  have hh := h.height_eq
  have hs := h.fsHeight
  have hlen : stored.length = chain.length := by omega
  exact ⟨h.stored_prefix.eq_of_length hlen, by omega⟩

/-- Every fully flushed state of a run, reorgs included, reads back the headers of its chain:
those of the heights asked for that the chain has, cut where they were joined, and hashed. -/
theorem LinkedRun.headers_read_back {env : Env} {s : BlockProcessor} {chain : List Block}
    (r : LinkedRun env s chain) (hf : FullyFlushed s) (start count : Nat) :
    ∃ (blocks : List Block) (n : Nat), blocks = (chain.drop start).take count ∧
      (n : Int) = max 0 (min (count : Int) (s.db.dbHeight + 1 - start)) ∧ blocks.length = n ∧
      s.db.readHeaders env start count = .ok (headers blocks, n) ∧
      (n = count →
        s.db.splitHeaders env (headers blocks) 0 start count = .ok (blocks.map (·.header)) ∧
        s.db.fsBlockHashes env start count =
          .ok (blocks.map fun b ↦ env.coin.headerHash b.header)) := by
  obtain ⟨stored, h⟩ := r.kept
  obtain ⟨rfl, hheight⟩ := h.of_fullyFlushed hf
  have hlen : ((stored.drop start).take count).length = min count (stored.length - start) := by
    rw [List.length_take, List.length_drop]
  refine ⟨_, _, rfl, ?_, rfl, readHeaders_eq h.files h.fit hheight start count, fun hn ↦ ⟨?_,
    fsBlockHashes_eq h.files h.fit hheight hn⟩⟩
  · rw [hlen]
    omega
  · have hsplit := splitHeaders_eq h.files h.fit [] start ((stored.drop start).take count)
      fun _ _ ↦ getElem?_of_window
    rw [hn, List.nil_append] at hsplit
    exact hsplit

/-- The headers of two flushed blocks. -/
theorem sampleAdvance_headers : ∃ s, sampleAdvance = .ok s ∧
    s.db.readHeaders sampleEnv 0 2 = .ok (headers [sampleGenesis, sampleA], 2) ∧
    s.db.fsBlockHashes sampleEnv 0 2 = .ok ([sampleGenesis, sampleA].map fun b ↦
      sampleEnv.coin.headerHash b.header) := by
  obtain ⟨s, hs, hf⟩ : ∃ s, sampleAdvance = .ok s ∧ FullyFlushed s := by decide +kernel
  obtain ⟨blocks, n, rfl, -, hn, hread, hhashes⟩ :=
    (sampleAdvance_linkedRun hs).headers_read_back hf 0 2
  obtain rfl : 2 = n := hn
  exact ⟨s, hs, hread, (hhashes rfl).2⟩

end ElectrumX.Index
