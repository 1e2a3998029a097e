import ElectrumX.Index.ServedHeaders
import ElectrumX.Lib.AuxPow
import ElectrumX.Lib.Hex

/-!
# Headers without their proofs of work

The model of `AuxPoWElectrumX` in `server/session.py`, which cuts the proofs of work off the
headers that a checkpoint covers. It walks over the concatenated headers by the lengths that the
offset file records, and what is left are the basic headers.
-/

namespace ElectrumX.Server
open ElectrumX.Base ElectrumX.Lib

/-- `TRUNCATED_HEADER_SIZE`, `coins.py:502`. -/
def truncatedHeaderSize : Nat := 80

namespace DB

/-- The loop of `truncate_auxpow`, `session.py:1935–1938`; `none` when it goes on for longer. -/
def truncateLoop (db : DB) (headersFull : Bytes) :
    Nat → Int → Int → Bytes → Except PyError (Option Bytes)
  | 0, cursor, _, headers => .ok (if cursor < headersFull.length then none else some headers)
  | fuel + 1, cursor, height, headers =>
    if cursor < headersFull.length then do
      let headers := headers ++ pySlice headersFull cursor (cursor + truncatedHeaderSize)
      let length ← db.dynamicHeaderLen height
      db.truncateLoop headersFull fuel (cursor + length) (height + 1) headers
    else .ok (some headers)

/-- `truncate_auxpow`, `session.py:1929–1940`. -/
def truncateAuxpow (db : DB) (fuel : Nat) (headersFullHex : String) (startHeight : Nat) :
    Except PyError (Option String) := do
  let headersFull ← hexToBytes headersFullHex
  let headers ← db.truncateLoop headersFull fuel 0 startHeight []
  return headers.map bytesHex

variable (env : Env) (m : Merkle)

/-- Whether a reply is truncated, `session.py:1902–1909,1917–1923`. -/
def truncates (protocol : List Nat) (cpHeight : Nat) : Bool :=
  ¬protocol < [1, 4, 1] ∧ cpHeight ≠ 0

/-- `block_header` of `AuxPoWElectrumX`, `session.py:1899–1912`. -/
def auxPowBlockHeader (db : DB) (headerMc : MerkleCache) (protocol : List Nat)
    (height cpHeight fuel : Nat) : Except RequestError (Option (MerkleCache × HeaderReply)) := do
  let (headerMc, result) ← db.blockHeader env m headerMc height cpHeight
  if truncates protocol cpHeight then
    let header ← raising (db.truncateAuxpow fuel result.header height)
    return header.map fun header ↦ (headerMc, { result with header })
  return some (headerMc, result)

/-- `block_headers` of `AuxPoWElectrumX`, `session.py:1914–1927`. -/
def auxPowBlockHeaders (db : DB) (headerMc : MerkleCache) (protocol : List Nat)
    (startHeight count cpHeight fuel : Nat) :
    Except RequestError (Option (MerkleCache × HeadersReply)) := do
  let (headerMc, result) ← db.blockHeaders env m headerMc startHeight count cpHeight
  if truncates protocol cpHeight then
    let hex ← raising (db.truncateAuxpow fuel result.hex startHeight)
    return hex.map fun hex ↦ (headerMc, { result with hex })
  return some (headerMc, result)

end DB

end ElectrumX.Server

namespace ElectrumX.Index
open ElectrumX.Base ElectrumX.Lib ElectrumX.Chain ElectrumX.Server

section Truncated

variable {env : Env} {db : DB} {stored : List Block} {m : Merkle} {mc : MerkleCache}

theorem dynamicHeaderLen_eq (hf : FilesHold env db.disk stored)
    (hv : HeadersFit env.coin stored) (hs : env.coin.staticBlockHeaders = false) {i : Nat}
    {b : Block} (hb : stored[i]? = some b) :
    db.dynamicHeaderLen i = .ok (b.header.length : Int) := by
  have h := headerLen_eq hf hv hb
  rwa [DB.headerLen, hs, if_neg Bool.false_ne_true] at h

/-- The loop goes over the headers of consecutive blocks and keeps the first bytes of each. -/
theorem truncateLoop_eq (hf : FilesHold env db.disk stored) (hv : HeadersFit env.coin stored)
    (hs : env.coin.staticBlockHeaders = false) (before : Bytes) (kept : Bytes) (height : Nat)
    (blocks : List Block) (hb : ∀ (i : Nat) b, blocks[i]? = some b → stored[height + i]? = some b)
    (hne : ∀ b ∈ blocks, truncatedHeaderSize ≤ b.header.length) {fuel : Nat}
    (hfuel : blocks.length ≤ fuel) :
    db.truncateLoop (before ++ headers blocks) fuel before.length height kept =
      .ok (some (kept ++ blocks.flatMap (·.header.take truncatedHeaderSize))) := by
  induction blocks generalizing before kept height fuel with
  | nil =>
    have hend : ¬(before.length : Int) < ((before ++ headers []).length : Nat) := by
      rw [headers, List.flatMap_nil, List.append_nil]
      omega
    cases fuel with
    | zero => rw [DB.truncateLoop, if_neg hend, List.flatMap_nil, List.append_nil]
    | succ fuel => rw [DB.truncateLoop, if_neg hend, List.flatMap_nil, List.append_nil]
  | cons b rest ih =>
    obtain ⟨fuel, rfl⟩ := Nat.exists_eq_add_of_lt hfuel
    have hhere : stored[height]? = some b := hb 0 b rfl
    have hrest : ∀ (i : Nat) b', rest[i]? = some b' → stored[height + 1 + i]? = some b' := by
      intro i b' hi
      have hnext := hb (i + 1) b' hi
      rwa [show height + (i + 1) = height + 1 + i by omega] at hnext
    have hsize := hne b List.mem_cons_self
    have hpos : 0 < truncatedHeaderSize := by decide
    have hcat : before ++ headers (b :: rest) = before ++ b.header ++ headers rest := by
      rw [headers, List.flatMap_cons, List.append_assoc, headers]
    have hmore : (before.length : Int) < ((before ++ b.header ++ headers rest).length : Nat) := by
      simp only [List.length_append]
      omega
    have hslice : pySlice (before ++ b.header ++ headers rest) before.length
        (before.length + truncatedHeaderSize) = b.header.take truncatedHeaderSize := by
      have htake : (b.header.take truncatedHeaderSize).length = truncatedHeaderSize := by
        rw [List.length_take, Nat.min_eq_left hsize]
      have hcut := pySlice_append before (b.header.take truncatedHeaderSize)
        (b.header.drop truncatedHeaderSize ++ headers rest)
      rw [htake] at hcut
      rwa [List.append_assoc before, ← List.append_assoc (b.header.take _), List.take_append_drop,
        ← List.append_assoc] at hcut
    have hlen : (before.length : Int) + b.header.length = ((before ++ b.header).length : Nat) := by
      rw [List.length_append]
      omega
    have hheight : (height : Int) + 1 = (height + 1 : Nat) := by omega
    rw [hcat, DB.truncateLoop, if_pos hmore, hslice, dynamicHeaderLen_eq hf hv hs hhere]
    change db.truncateLoop _ _ (before.length + b.header.length) (height + 1) _ = _
    rw [hlen, hheight, ih (before ++ b.header) _ (height + 1) hrest
      (fun b' hb' ↦ hne b' (List.mem_cons_of_mem _ hb')) (Nat.le_add_right _ _),
      List.flatMap_cons, List.append_assoc]

/-- The header of a block, as it is on the wire, has this basic header. -/
def HasBasicHeader (b : Block) (basic : Bytes) : Prop :=
  ∃ pow, DeserializerAuxPow.HeaderWellFormed basic pow ∧
    DeserializerAuxPow.encodeHeader basic pow = .ok b.header

theorem HasBasicHeader.prefix {b : Block} {basic : Bytes} (h : HasBasicHeader b basic) :
    basic.length = truncatedHeaderSize ∧ basic <+: b.header := by
  obtain ⟨pow, hw, he⟩ := h
  refine ⟨hw.1, ?_⟩
  cases pow with
  | none =>
    cases he
    exact List.prefix_rfl
  | some pow =>
    obtain ⟨enc, -, he⟩ := bind_eq_ok.mp he
    rw [← show basic ++ enc = b.header from Except.ok.inj he]
    exact List.prefix_append _ _

theorem le_length_header {blocks : List Block} {basics : List Bytes}
    (h : List.Forall₂ HasBasicHeader blocks basics) :
    ∀ b ∈ blocks, truncatedHeaderSize ≤ b.header.length := by
  induction h with
  | nil =>
    intro b hb
    cases hb
  | @cons b basic blocks basics hb _ ih =>
    obtain ⟨hlen, hprefix⟩ := hb.prefix
    exact List.forall_mem_cons.mpr ⟨hlen ▸ hprefix.length_le, ih⟩

/-- What is kept of the headers of some blocks are their basic headers. -/
theorem flatMap_take_header {blocks : List Block} {basics : List Bytes}
    (h : List.Forall₂ HasBasicHeader blocks basics) :
    blocks.flatMap (·.header.take truncatedHeaderSize) = basics.flatten := by
  induction h with
  | nil => rfl
  | @cons b basic blocks basics hb _ ih =>
    obtain ⟨hlen, hprefix⟩ := hb.prefix
    rw [List.flatMap_cons, List.flatten_cons, ih, ← hlen,
      List.prefix_iff_eq_take.mp hprefix, List.length_take,
      Nat.min_eq_left (by rw [hlen, ← hlen]; exact hprefix.length_le)]

theorem truncateAuxpow_eq (hf : FilesHold env db.disk stored) (hv : HeadersFit env.coin stored)
    (hs : env.coin.staticBlockHeaders = false) {basics : List Bytes}
    (hwire : List.Forall₂ HasBasicHeader stored basics) (start : Nat) {n fuel : Nat}
    (hfuel : n ≤ fuel) :
    db.truncateAuxpow fuel (bytesHex (headers ((stored.drop start).take n))) start =
      .ok (some (bytesHex ((basics.drop start).take n).flatten)) := by
  have hwindow : List.Forall₂ HasBasicHeader ((stored.drop start).take n)
      ((basics.drop start).take n) := List.forall₂_take _ (List.forall₂_drop _ hwire)
  have hloop := truncateLoop_eq hf hv hs [] [] start ((stored.drop start).take n)
    (fun i b hb ↦ by
      rw [List.getElem?_take] at hb
      split at hb
      · rwa [List.getElem?_drop] at hb
      · cases hb) (le_length_header hwindow) ((List.length_take_le _ _).trans hfuel)
  rw [List.nil_append, List.nil_append, flatMap_take_header hwindow] at hloop
  rw [DB.truncateAuxpow, hexToBytes_bytesHex]
  change (db.truncateLoop (headers ((stored.drop start).take n)) fuel 0 start [] >>= _) = _
  rw [show (0 : Int) = ([] : Bytes).length from rfl, hloop]
  rfl

/-- The text of a reply is that of the headers that were read, with a proof or without. -/
theorem blockHeaders_hex {start count cpHeight n : Nat} {read : Bytes}
    (hread : db.readHeaders env start ((min count maxChunkSize : Nat) : Int) = .ok (read, n))
    {p : MerkleCache × HeadersReply}
    (h : db.blockHeaders env m mc start count cpHeight = .ok p) : p.2.hex = bytesHex read := by
  rw [Nat.cast_min] at hread
  have hform : db.blockHeaders env m mc start count cpHeight =
      if n ≠ 0 ∧ cpHeight ≠ 0 then
        (db.merkleProof env m mc cpHeight (start + n - 1)).map fun p ↦
          (p.1, ⟨bytesHex read, n, maxChunkSize, some p.2⟩)
      else .ok (mc, ⟨bytesHex read, n, maxChunkSize, none⟩) := by
    rw [DB.blockHeaders, hread]
    rfl
  rw [hform] at h
  split at h
  · cases hp : db.merkleProof env m mc cpHeight (start + n - 1) with
    | error e =>
      rw [hp] at h
      cases h
    | ok q =>
      rw [hp] at h
      cases h
      rfl
  · cases h
    rfl

theorem blockHeader_header {height cpHeight n : Nat} {read : Bytes}
    (hread : db.readHeaders env height ((1 : Nat) : Int) = .ok (read, n))
    {p : MerkleCache × HeaderReply}
    (h : db.blockHeader env m mc height cpHeight = .ok p) : p.2.header = bytesHex read := by
  by_cases hn : n = 1
  · have hraw : db.rawHeader env height = .ok read := by
      rw [DB.rawHeader, Nat.cast_one.symm, hread, hn]
      rfl
    have hform : db.blockHeader env m mc height cpHeight =
        if cpHeight = 0 then .ok (mc, ⟨bytesHex read, none⟩)
        else (db.merkleProof env m mc cpHeight height).map fun p ↦
          (p.1, ⟨bytesHex read, some p.2⟩) := by
      rw [DB.blockHeader, DB.rawHeaderOr, hraw]
      rfl
    rw [hform] at h
    split at h
    · cases h
      rfl
    · cases hp : db.merkleProof env m mc cpHeight height with
      | error e =>
        rw [hp] at h
        cases h
      | ok q =>
        rw [hp] at h
        cases h
        rfl
  · have hraw : db.rawHeader env height = .error .indexError := by
      rw [DB.rawHeader, Nat.cast_one.symm, hread]
      exact if_pos hn
    rw [DB.blockHeader, DB.rawHeaderOr, hraw] at h
    cases h

theorem flatten_drop_take_one (basics : List Bytes) (i : Nat) :
    ((basics.drop i).take 1).flatten = basics.getD i [] := by
  rw [List.getD_eq_getElem?_getD]
  cases hi : basics[i]? with
  | none =>
    rw [List.drop_eq_nil_of_le (List.getElem?_eq_none_iff.mp hi)]
    rfl
  | some basic =>
    obtain ⟨hlt, rfl⟩ := List.getElem?_eq_some_iff.mp hi
    rw [List.drop_eq_getElem_cons hlt, List.take_succ_cons, List.take_zero, List.flatten_singleton]
    rfl

/-- **A checkpoint takes the proofs of work off**: with the headers of merge-mined blocks in the
files, as they came over the wire, the requests for headers give what those of other coins give,
errors included; where a checkpoint covers the headers and the protocol allows it, the hexadecimal
text is that of the basic headers, without a rest of any proof, and the loop ends within one round
for each header. -/
theorem auxPow_replies (hf : FilesHold env db.disk stored) (hv : HeadersFit env.coin stored)
    (hs : env.coin.staticBlockHeaders = false) (hheight : db.dbHeight + 1 = stored.length)
    {basics : List Bytes} (hwire : List.Forall₂ HasBasicHeader stored basics)
    (protocol : List Nat) (start count cpHeight : Nat) {fuel : Nat}
    (hfuel : min count maxChunkSize ≤ fuel) (hone : 1 ≤ fuel) :
    db.auxPowBlockHeaders env m mc protocol start count cpHeight fuel =
      (db.blockHeaders env m mc start count cpHeight).map (fun p ↦
        some (p.1, if DB.truncates protocol cpHeight then
          { p.2 with hex := bytesHex ((basics.drop start).take (min count maxChunkSize)).flatten }
        else p.2)) ∧
    db.auxPowBlockHeader env m mc protocol start cpHeight fuel =
      (db.blockHeader env m mc start cpHeight).map fun p ↦
        some (p.1, if DB.truncates protocol cpHeight then
          { p.2 with header := bytesHex (basics.getD start []) }
        else p.2) := by
  constructor
  · have hread := readHeaders_eq hf hv hheight start (min count maxChunkSize)
    have htruncate := truncateAuxpow_eq hf hv hs hwire start hfuel
    rw [DB.auxPowBlockHeaders]
    cases hreply : db.blockHeaders env m mc start count cpHeight with
    | error e => rfl
    | ok p =>
      have hhex := blockHeaders_hex hread hreply
      by_cases ht : DB.truncates protocol cpHeight = true
      · change (if DB.truncates protocol cpHeight = true then _ else _) = Except.ok (some (_, _))
        rw [if_pos ht, if_pos ht, hhex, htruncate]
        rfl
      · change (if DB.truncates protocol cpHeight = true then _ else _) = Except.ok (some (_, _))
        rw [if_neg ht, if_neg ht]
        rfl
  · have hread := readHeaders_eq hf hv hheight start 1
    have htruncate := truncateAuxpow_eq hf hv hs hwire start hone
    rw [flatten_drop_take_one] at htruncate
    rw [DB.auxPowBlockHeader]
    cases hreply : db.blockHeader env m mc start cpHeight with
    | error e => rfl
    | ok p =>
      have hheader := blockHeader_header hread hreply
      by_cases ht : DB.truncates protocol cpHeight = true
      · change (if DB.truncates protocol cpHeight = true then _ else _) = Except.ok (some (_, _))
        rw [if_pos ht, if_pos ht, hheader, htruncate]
        rfl
      · change (if DB.truncates protocol cpHeight = true then _ else _) = Except.ok (some (_, _))
        rw [if_neg ht, if_neg ht]
        rfl

end Truncated

/-- A merge-mined block and one that was mined alone. -/
def sampleMerged : List Block :=
  [⟨[], (DeserializerAuxPow.encodeHeader DeserializerAuxPow.sampleBasic
      (some DeserializerAuxPow.sampleAuxPow)).toOption.getD [], []⟩,
    ⟨[], List.replicate 80 2, []⟩]

def sampleBasics : List Bytes := [DeserializerAuxPow.sampleBasic, List.replicate 80 2]

/-- The files hold the two blocks. -/
def sampleMergedDB : DB where
  headersFile := headers sampleMerged
  headersOffsetsFile := (offsets sampleMerged).flatMap (packLE 8)
  txCountsFile := (counts sampleMerged).flatMap (packLE 8)
  dbHeight := 1

theorem sampleMerged_replies :
    sampleMergedDB.auxPowBlockHeaders sampleEnv Merkle.sampleMerkle {} [1, 4, 2] 0 5 1 5 =
      (sampleMergedDB.blockHeaders sampleEnv Merkle.sampleMerkle {} 0 5 1).map (fun p ↦
        some (p.1, if DB.truncates [1, 4, 2] 1 then
          { p.2 with hex := bytesHex ((sampleBasics.drop 0).take (min 5 maxChunkSize)).flatten }
        else p.2)) ∧
    sampleMergedDB.auxPowBlockHeader sampleEnv Merkle.sampleMerkle {} [1, 4, 2] 0 1 5 =
      (sampleMergedDB.blockHeader sampleEnv Merkle.sampleMerkle {} 0 1).map fun p ↦
        some (p.1, if DB.truncates [1, 4, 2] 1 then
          { p.2 with header := bytesHex (sampleBasics.getD 0 []) }
        else p.2) := by
  have hfiles : FilesHold sampleEnv sampleMergedDB.disk sampleMerged :=
    ⟨List.prefix_rfl, fun _ ↦ List.prefix_rfl, List.prefix_rfl, List.prefix_rfl⟩
  have hfit : HeadersFit sampleEnv.coin sampleMerged := by
    refine ⟨fun h ↦ ?_, fun _ ↦ by decide +kernel⟩
    cases h
  have hmerged : HasBasicHeader (sampleMerged[0]) DeserializerAuxPow.sampleBasic := by
    refine ⟨some DeserializerAuxPow.sampleAuxPow, ⟨rfl, by decide, fun p hp ↦ ?_⟩, rfl⟩
    cases hp
    exact ⟨rfl, rfl⟩
  have halone : HasBasicHeader (sampleMerged[1]) (List.replicate 80 2) := by
    refine ⟨none, ⟨rfl, by decide, fun p hp ↦ ?_⟩, rfl⟩
    cases hp
  exact auxPow_replies hfiles hfit rfl rfl (.cons hmerged (.cons halone .nil)) [1, 4, 2] 0 5 1
    (by decide) (by decide)

end ElectrumX.Index
