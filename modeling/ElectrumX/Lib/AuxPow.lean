import ElectrumX.Base.Extent
import ElectrumX.Lib.Wire

/-!
# Merge-mined blocks

The model of `DeserializerAuxPow` in `lib/tx.py` and of the blocks of the coins that use it with
witnesses. A header is followed by the proof of work of a parent chain when its version says so;
its extent is found by passing over the proof, and then taken. What was written is read back, and
a block that is cut off anywhere is refused.
-/

namespace ElectrumX.Lib
open ElectrumX.Base

namespace DeserializerAuxPow
open Deserializer

/-- `VERSION_AUXPOW`, `lib/tx.py:413`. -/
def versionAuxpow : Nat := 1 <<< 8

/-- What `read_auxpow` passes over, `lib/tx.py:420–430`, with the `read_tx` of the deserializer. -/
def passAuxpow (readTx : Read Tx) : Read Unit := do
  let _ ← readTx
  Reader.skip 32
  let merkleSize ← readVarint
  Reader.skip (32 * merkleSize)
  Reader.skip 4
  let merkleSize ← readVarint
  Reader.skip (32 * merkleSize)
  Reader.skip 4
  Reader.skip 80

/-- `read_auxpow`, `lib/tx.py:415–434`. -/
def readAuxpow (readTx : Read Tx) : Read Bytes :=
  Reader.extent .assertionError (passAuxpow readTx)

/-- What `read_header` passes over, `lib/tx.py:440–449`. -/
def passHeader (readTx : Read Tx) (staticHeaderSize : Nat) : Read Unit := do
  let start ← Reader.cursor
  let version ← readLeUint32
  if version &&& versionAuxpow ≠ 0 then
    Reader.seek start
    Reader.skip staticHeaderSize
    let _ ← readAuxpow readTx
    return ()
  else Reader.seek (start + staticHeaderSize)

/-- `read_header`, `lib/tx.py:436–452`. -/
def readHeader (readTx : Read Tx) (staticHeaderSize : Nat) : Read Bytes :=
  Reader.extent .assertionError (passHeader readTx staticHeaderSize)

/-- `Coin.block` with the `block_header` of `AuxPowMixin`, `coins.py:265–270,513–517`. -/
def block (readTx : Read Tx) (rawBlock : Bytes) : Except PyError Block := do
  let (header, _) ← (readHeader readTx basicHeaderSize).run rawBlock 0
  let (txs, _) ← (readTxBlock readTx).run rawBlock header.length
  return ⟨rawBlock, header, txs⟩

/-! ### The proof of work on the wire -/

/-- The proof of work of a parent chain. -/
structure AuxPow where
  tx : Tx
  parentHash : Hash32
  branch : List Hash32
  index : { b : Bytes // b.length = 4 }
  chainBranch : List Hash32
  chainIndex : { b : Bytes // b.length = 4 }
  parentHeader : { b : Bytes // b.length = 80 }

def AuxPow.encode (pow : AuxPow) : Except PyError Bytes := do
  let tx ← pow.tx.encode
  let branchSize ← packVarint pow.branch.length
  let chainSize ← packVarint pow.chainBranch.length
  return tx ++ (pow.parentHash.val ++ (branchSize ++ (pow.branch.flatMap (·.val) ++
    (pow.index.val ++ (chainSize ++ (pow.chainBranch.flatMap (·.val) ++
      (pow.chainIndex.val ++ pow.parentHeader.val)))))))

/-- The wire form of a header: the basic header, and the proof of work if there is one. -/
def encodeHeader (basic : Bytes) : Option AuxPow → Except PyError Bytes
  | none => .ok basic
  | some pow => do return basic ++ (← pow.encode)

/-- Whether the version of a header says that a proof of work follows. -/
def SaysAuxpow (basic : Bytes) : Prop := unpackLE (basic.take 4) &&& versionAuxpow ≠ 0

instance (basic : Bytes) : Decidable (SaysAuxpow basic) := inferInstanceAs (Decidable (_ ≠ _))

/-- The basic header has its size, and its version says whether a proof of work follows, which
must be of a well formed transaction. -/
def HeaderWellFormed (basic : Bytes) (pow : Option AuxPow) : Prop :=
  basic.length = basicHeaderSize ∧ (SaysAuxpow basic ↔ pow.isSome = true) ∧
    ∀ p, pow = some p → p.tx.WellFormed

/-! ### Reading back -/

section Reads

variable {txHashFn : Bytes → Hash32}

theorem length_flatMap_hashes (hashes : List Hash32) :
    (hashes.flatMap (·.val)).length = 32 * hashes.length := by
  induction hashes with
  | nil => rfl
  | cons x xs ih =>
    rw [List.flatMap_cons, List.length_append, ih, x.property, List.length_cons]
    omega

theorem reads_passAuxpow {pow : AuxPow} (hw : pow.tx.WellFormed) {enc : Bytes}
    (he : pow.encode = .ok enc) :
    (passAuxpow (DeserializerSegWit.readTx txHashFn)).Reads enc () := by
  obtain ⟨tx, htx, he⟩ := bind_eq_ok.mp he
  obtain ⟨branchSize, hbranch, he⟩ := bind_eq_ok.mp he
  obtain ⟨chainSize, hchain, he⟩ := bind_eq_ok.mp he
  cases he
  obtain ⟨tx', hread, -⟩ := DeserializerSegWit.exists_parsed txHashFn hw htx
  refine hread.bind ?_
  refine (Reader.Reads.skip _ pow.parentHash.property).bind ?_
  refine (reads_readVarint hbranch).bind ?_
  refine (Reader.Reads.skip _ (length_flatMap_hashes _)).bind ?_
  refine (Reader.Reads.skip _ pow.index.property).bind ?_
  refine (reads_readVarint hchain).bind ?_
  refine (Reader.Reads.skip _ (length_flatMap_hashes _)).bind ?_
  refine (Reader.Reads.skip _ pow.chainIndex.property).bind ?_
  exact Reader.Reads.skip _ pow.parentHeader.property

theorem readsAt_passHeader {basic : Bytes} {pow : Option AuxPow} (hw : HeaderWellFormed basic pow)
    {enc : Bytes} (he : encodeHeader basic pow = .ok enc) (before after : Bytes) :
    (passHeader (DeserializerSegWit.readTx txHashFn) basicHeaderSize).ReadsAt before enc after
      () := by
  obtain ⟨hlen, hbit, htx⟩ := hw
  -- the version, wherever the header stands
  have hversion (rest : Bytes) :
      (readLeUint32).run (before ++ (basic ++ rest)) before.length =
        .ok (unpackLE (basic.take 4), before.length + 4) := by
    have hfour : (basic.take 4).length = 4 := by
      rw [List.length_take, hlen]
      rfl
    have hread := (Reader.Reads.take_of_length (e := PyError.structError) hfour).map
      (fun result ↦ unpackLE result.val) before (basic.drop 4 ++ rest)
    rwa [Reader.ReadsAt, hfour, ← List.append_assoc (basic.take 4), List.take_append_drop] at hread
  cases pow with
  | none =>
    cases he
    have hnot : ¬unpackLE (basic.take 4) &&& versionAuxpow ≠ 0 := fun h ↦
      Bool.false_ne_true (hbit.mp h)
    have hrun : (passHeader (DeserializerSegWit.readTx txHashFn) basicHeaderSize).run
        (before ++ (basic ++ after)) before.length = _ :=
      (Reader.run_bind rfl).trans (Reader.run_bind (hversion after))
    rw [Reader.ReadsAt, hrun, if_neg hnot, hlen]
    rfl
  | some pow =>
    obtain ⟨enc', henc, he⟩ := bind_eq_ok.mp he
    cases he
    have hyes : unpackLE (basic.take 4) &&& versionAuxpow ≠ 0 := hbit.mpr rfl
    have hpass : (readAuxpow (DeserializerSegWit.readTx txHashFn)).ReadsAt (before ++ basic) enc'
        after enc' := (reads_passAuxpow (htx pow rfl) henc (before ++ basic) after).extent
    have hrun : (passHeader (DeserializerSegWit.readTx txHashFn) basicHeaderSize).run
        (before ++ (basic ++ (enc' ++ after))) before.length = _ :=
      (Reader.run_bind rfl).trans (Reader.run_bind (hversion (enc' ++ after)))
    have hstart : before.length + basicHeaderSize = (before ++ basic).length := by
      rw [List.length_append, hlen]
    have hskip : (Reader.seek before.length >>= fun _ ↦ Reader.skip basicHeaderSize >>= fun _ ↦
        readAuxpow (DeserializerSegWit.readTx txHashFn) >>= fun _ ↦ pure () : Read Unit).run
          (before ++ (basic ++ (enc' ++ after))) (before.length + 4) =
        (readAuxpow (DeserializerSegWit.readTx txHashFn) >>= fun _ ↦ pure () : Read Unit).run
          (before ++ (basic ++ (enc' ++ after))) (before.length + basicHeaderSize) := rfl
    rw [Reader.ReadsAt, List.append_assoc, hrun, if_pos hyes]
    refine hskip.trans ?_
    rw [hstart, ← List.append_assoc before, Reader.run_bind hpass, Reader.run_pure,
      List.length_append, List.length_append, Nat.add_assoc]

/-- The header is read with its proof of work. -/
theorem reads_readHeader {basic : Bytes} {pow : Option AuxPow} (hw : HeaderWellFormed basic pow)
    {enc : Bytes} (he : encodeHeader basic pow = .ok enc) :
    (readHeader (DeserializerSegWit.readTx txHashFn) basicHeaderSize).Reads enc enc :=
  fun before after ↦ (readsAt_passHeader hw he before after).extent

/-! ### What is cut off -/

theorem readVarint_anchored : readVarint.Anchored := Reader.Anchored.next.bind

theorem readVarint_stable : readVarint.Stable := readVarint_local.stable readVarint_anchored

theorem readLeUint32_stable : readLeUint32.Stable :=
  (readLeUint_local 4).stable (Reader.Anchored.take 4).bind

theorem readTx_stable : (DeserializerSegWit.readTx txHashFn).Stable := by
  refine (DeserializerSegWit.readTx_local txHashFn).stable (Reader.Anchored.bind ?_)
  exact Reader.Anchored.bind_cursor fun _ ↦ (Reader.Anchored.peek 4).bind

theorem passAuxpow_stable : (passAuxpow (DeserializerSegWit.readTx txHashFn)).Stable := by
  refine readTx_stable.bind fun _ ↦ (Reader.Stable.skip _).bind fun _ ↦ ?_
  refine readVarint_stable.bind fun _ ↦ (Reader.Stable.skip _).bind fun _ ↦ ?_
  refine (Reader.Stable.skip _).bind fun _ ↦ readVarint_stable.bind fun _ ↦ ?_
  refine (Reader.Stable.skip _).bind fun _ ↦ (Reader.Stable.skip _).bind fun _ ↦ ?_
  exact Reader.Stable.skip _

theorem passHeader_stable (size : Nat) :
    (passHeader (DeserializerSegWit.readTx txHashFn) size).Stable := by
  refine Reader.Stable.cursor.bind fun start ↦ readLeUint32_stable.bind fun version ↦ ?_
  split
  · refine (Reader.Stable.seek _).bind fun _ ↦ (Reader.Stable.skip _).bind fun _ ↦ ?_
    exact passAuxpow_stable.extent.bind fun _ ↦ .pure ()
  · exact Reader.Stable.seek _

theorem readHeader_local (size : Nat) :
    (readHeader (DeserializerSegWit.readTx txHashFn) size).Local :=
  (passHeader_stable size).extent_local

/-- The header and the transactions of a block, one after the other. -/
def readBlock (readTx : Read Tx) : Read (Bytes × List Tx) := do
  let header ← readHeader readTx basicHeaderSize
  let txs ← readTxBlock readTx
  return (header, txs)

/-- The second deserializer starts where the first one ended. -/
theorem block_eq (readTx : Read Tx) (rawBlock : Bytes) :
    block readTx rawBlock = ((readBlock readTx).run rawBlock 0).map fun p ↦
      ⟨rawBlock, p.1.1, p.1.2⟩ := by
  have hread : (readBlock readTx).run rawBlock 0 = do
      let (header, stop) ← (readHeader readTx basicHeaderSize).run rawBlock 0
      let (txs, stop) ← (readTxBlock readTx).run rawBlock stop
      return ((header, txs), stop) := rfl
  rw [hread, block]
  cases hh : (readHeader readTx basicHeaderSize).run rawBlock 0 with
  | error e => rfl
  | ok p =>
    obtain ⟨header, stop⟩ := p
    have hstop : stop = header.length := by
      obtain ⟨begin, mid, hbegin, h₁⟩ := Reader.bind_eq_ok.mp hh
      obtain ⟨a, mid', -, h₂⟩ := Reader.bind_eq_ok.mp h₁
      obtain ⟨stop', mid'', -, h₃⟩ := Reader.bind_eq_ok.mp h₂
      obtain ⟨u, back, hback, h₄⟩ := Reader.bind_eq_ok.mp h₃
      obtain ⟨taken, stop'', htake, h₅⟩ := Reader.bind_eq_ok.mp h₄
      cases hbegin
      cases hback
      cases h₅
      rw [taken.property, (Reader.take_le htake).1, Nat.zero_add]
    subst hstop
    change (do
      let (txs, _) ← (readTxBlock readTx).run rawBlock header.length
      return Block.mk rawBlock header txs) = Except.map _ (do
        let (txs, stop) ← (readTxBlock readTx).run rawBlock header.length
        return ((header, txs), stop))
    cases (readTxBlock readTx).run rawBlock header.length with
    | error e => rfl
    | ok p => rfl

/-- **Merge-mined blocks are read back**: from a basic header, a proof of work of any size if the
version says that there is one, and well formed transactions, the header is cut where the proof
ends, the transactions are read in order whatever follows them, and no part of the block is
accepted that is cut off anywhere, within the header as well. -/
theorem block_reads (txHashFn : Bytes → Hash32) {basic : Bytes} {pow : Option AuxPow}
    (hw : HeaderWellFormed basic pow) {header : Bytes} (hh : encodeHeader basic pow = .ok header)
    {txs : List Tx} (htxs : ∀ tx ∈ txs, tx.WellFormed) {count : Bytes} {encs : List Bytes}
    (hc : packVarint txs.length = .ok count) (he : txs.mapM Tx.encode = .ok encs) :
    (∃ txs', List.Forall₂ (Parsed txHashFn) txs txs' ∧ ∀ trailing,
      block (DeserializerSegWit.readTx txHashFn)
        (header ++ (count ++ encs.flatten) ++ trailing) =
          .ok ⟨header ++ (count ++ encs.flatten) ++ trailing, header, txs'⟩) ∧
    ∀ part, part <+: header ++ (count ++ encs.flatten) →
      part ≠ header ++ (count ++ encs.flatten) →
      ∃ e, block (DeserializerSegWit.readTx txHashFn) part = .error e := by
  obtain ⟨txs', hr, hp⟩ := DeserializerSegWit.reads_readTxBlock txHashFn htxs hc he
  have hread : (readBlock (DeserializerSegWit.readTx txHashFn)).Reads
      (header ++ (count ++ encs.flatten)) (header, txs') :=
    (reads_readHeader hw hh).bind (hr.map _)
  have hlocal : (readBlock (DeserializerSegWit.readTx txHashFn)).Local :=
    (readHeader_local _).bind fun _ ↦ (DeserializerSegWit.readTxBlock_local txHashFn).map
  refine ⟨⟨txs', hp, fun trailing ↦ ?_⟩, fun part hpre hne ↦ ?_⟩
  · have hrun := hread [] trailing
    rw [Reader.ReadsAt, List.nil_append] at hrun
    rw [block_eq]
    exact congrArg (Except.map _) hrun
  · obtain ⟨e, hrun⟩ := hread.error_of_prefix hlocal hpre hne []
    rw [List.nil_append] at hrun
    rw [block_eq]
    exact ⟨e, congrArg (Except.map _) hrun⟩

end Reads

/-- The proof of work of a parent block with two transactions. -/
def sampleAuxPow : AuxPow where
  tx :=
    { inputs := [{ prevHash := zeroHash, prevIdx := minus1, script := [1] }]
      outputs := [⟨1, [81]⟩]
      txid := zeroHash
      segwit := some ⟨0, 1, [[List.replicate 32 0]]⟩ }
  parentHash := zeroHash
  branch := [zeroHash]
  index := ⟨[0, 0, 0, 0], rfl⟩
  chainBranch := []
  chainIndex := ⟨[0, 0, 0, 0], rfl⟩
  parentHeader := ⟨List.replicate 80 9, List.length_replicate⟩

/-- A basic header with version 257. -/
def sampleBasic : Bytes := [1, 1, 0, 0] ++ List.replicate 76 7

theorem sampleAuxPow_reads : ∃ (header count : Bytes) (encs : List Bytes),
    encodeHeader sampleBasic (some sampleAuxPow) = .ok header ∧
    ∀ txHashFn : Bytes → Hash32,
      (∃ txs', List.Forall₂ (Parsed txHashFn) Coin.sampleWireTxs txs' ∧ ∀ trailing,
        block (DeserializerSegWit.readTx txHashFn) (header ++ (count ++ encs.flatten) ++ trailing) =
          .ok ⟨header ++ (count ++ encs.flatten) ++ trailing, header, txs'⟩) ∧
      ∀ part, part <+: header ++ (count ++ encs.flatten) →
        part ≠ header ++ (count ++ encs.flatten) →
        ∃ e, block (DeserializerSegWit.readTx txHashFn) part = .error e := by
  obtain ⟨header, hh, -⟩ : ∃ header,
      encodeHeader sampleBasic (some sampleAuxPow) = .ok header ∧ True := by decide +kernel
  obtain ⟨count, hc, -⟩ : ∃ count, packVarint Coin.sampleWireTxs.length = .ok count ∧ True := by
    decide +kernel
  obtain ⟨encs, he, -⟩ : ∃ encs, Coin.sampleWireTxs.mapM Tx.encode = .ok encs ∧ True := by
    decide +kernel
  have hw : HeaderWellFormed sampleBasic (some sampleAuxPow) := by
    refine ⟨rfl, by decide, fun p hp ↦ ?_⟩
    cases hp
    exact ⟨rfl, rfl⟩
  have htxs : ∀ tx ∈ Coin.sampleWireTxs, tx.WellFormed := by
    refine List.forall_mem_cons.mpr ⟨⟨rfl, rfl⟩, List.forall_mem_cons.mpr ⟨?_, ?_⟩⟩
    · exact List.cons_ne_nil _ _
    · intro tx htx
      cases htx
  exact ⟨header, count, encs, hh, fun txHashFn ↦ block_reads txHashFn hw hh htxs hc he⟩

end DeserializerAuxPow
end ElectrumX.Lib
