import ElectrumX.Lib.Wire

/-!
# Virtual sizes and witness hashes

What a transaction weighs and what its witness hash covers. In the legacy form both are those
of the whole encoding. In the form with a witness the deserializer leaves version and locktime
out of the stripped size, rounds down, and hashes the locktime alone.
-/

namespace ElectrumX.Lib.DeserializerSegWit
open ElectrumX.Base Deserializer

variable (txHashFn : Bytes → Hash32) {tx : Tx} {enc : Bytes}

/-- A transaction in the form with a witness has the marker 0, the flag 1 and a witness stack
for each input. -/
def Bip144 (tx : Tx) : Prop :=
  ∀ segwit, tx.segwit = some segwit →
    segwit.marker = 0 ∧ segwit.flag = 1 ∧ segwit.witness.length = tx.inputs.length

/-- The virtual size and the witness hash of an encoding on its own are right: those of the
encoding in the legacy form, else a quarter of three times the stripped length and the whole
length, rounded up, and the hash of the whole. -/
def WitnessResults (tx : Tx) (enc : Bytes) : Prop :=
  ∃ tx' vsize stop, (readTxAndVsize txHashFn).run enc 0 = .ok ((tx', vsize), stop) ∧
    match tx.segwit with
    | none => vsize = enc.length ∧ tx'.wtxid = tx'.txid
    | some _ => ∃ legacy, tx.serialize = .ok legacy ∧
        vsize = (3 * legacy.length + enc.length + 3) / 4 ∧ tx'.wtxid = txHashFn enc

/-- A reading of a zero marker finds less than the length of the buffer. -/
theorem vsize_lt {binary : Bytes} (hm : binary[4]? = some 0) {tx' : Tx} {vsize stop : Nat}
    (h : (readTxAndVsize txHashFn).run binary 0 = .ok ((tx', vsize), stop)) :
    vsize < binary.length := by
  rw [readTxAndVsize, readTxParts] at h
  obtain ⟨start, _, hstart, h⟩ := Reader.bind_eq_ok.mp h
  cases hstart
  obtain ⟨marker, _, hpeek, h⟩ := Reader.bind_eq_ok.mp h
  simp only [Reader.peek, Nat.zero_add, hm] at hpeek
  cases hpeek
  rw [if_neg (not_not_intro rfl)] at h
  obtain ⟨version, c1, h1, h⟩ := Reader.bind_eq_ok.mp h
  obtain ⟨origVersion, c2, h2, h⟩ := Reader.bind_eq_ok.mp h
  cases h2
  obtain ⟨marker, c3, h3, h⟩ := Reader.bind_eq_ok.mp h
  obtain ⟨flag, c4, h4, h⟩ := Reader.bind_eq_ok.mp h
  obtain ⟨start, c5, h5, h⟩ := Reader.bind_eq_ok.mp h
  cases h5
  obtain ⟨inputs, c6, h6, h⟩ := Reader.bind_eq_ok.mp h
  obtain ⟨outputs, c7, h7, h⟩ := Reader.bind_eq_ok.mp h
  obtain ⟨origBody, c8, h8, h⟩ := Reader.bind_eq_ok.mp h
  cases h8
  obtain ⟨stop', c9, h9, h⟩ := Reader.bind_eq_ok.mp h
  cases h9
  obtain ⟨witness, c10, -, h⟩ := Reader.bind_eq_ok.mp h
  obtain ⟨start', c11, -, h⟩ := Reader.bind_eq_ok.mp h
  obtain ⟨locktime, c12, -, h⟩ := Reader.bind_eq_ok.mp h
  obtain ⟨origLocktime, c13, -, h⟩ := Reader.bind_eq_ok.mp h
  obtain ⟨n, c14, h14, h⟩ := Reader.bind_eq_ok.mp h
  cases h14
  cases h
  -- marker and flag are in front of the inputs, and the outputs end in the buffer
  obtain ⟨hmarker, rfl⟩ := Reader.next_eq_ok.mp h3
  obtain ⟨hflag, rfl⟩ := Reader.next_eq_ok.mp h4
  have hc4 := (List.getElem?_eq_some_iff.mp hflag).1
  obtain ⟨hc6, -⟩ := counted_local readInput_local _ _ _ _ hc4 h6
  obtain ⟨hc7, -⟩ := counted_local readOutput_local _ _ _ _ hc6 h7
  omega

/-- What is read of a transaction in the form with a witness: the stripped size lacks the eight
bytes of version and locktime and is not rounded up, and the witness hash is that of the
locktime. -/
theorem run_segwit {segwit : SegWit} (hs : tx.segwit = some segwit) (hf : Bip144 tx)
    (he : tx.encode = .ok enc) :
    ∃ tx' legacy locktime stop, tx.serialize = .ok legacy ∧ 8 ≤ legacy.length ∧
      packLeUint32 tx.locktime.toNat = .ok locktime ∧
      (readTxAndVsize txHashFn).run enc 0 =
        .ok ((tx', (3 * (legacy.length - 8) + enc.length) / 4), stop) ∧
      tx'.wtxid = txHashFn locktime := by
  obtain ⟨hm, -, hlen⟩ := hf segwit hs
  obtain ⟨marker, flag, witnesses⟩ := segwit
  subst hm
  rw [Tx.encode, hs] at he
  obtain ⟨inputs, hi, he⟩ := bind_eq_ok.mp he
  obtain ⟨outputs, ho, he⟩ := bind_eq_ok.mp he
  obtain ⟨witness, hwit, he⟩ := bind_eq_ok.mp he
  obtain ⟨locktime, hl, he⟩ := bind_eq_ok.mp he
  cases he
  have hparts := reads_segwit txHashFn (reads_packCounted reads_readInput hi)
    (reads_packCounted reads_readOutput ho) (reads_readLeUint32 hl)
    (hlen ▸ reads_readWitness hwit) flag [] []
  have hser : tx.serialize = .ok (packLeInt32 tx.version ++ (inputs ++ (outputs ++ locktime))) := by
    rw [Tx.serialize_eq, hi, ho, hl]
    rfl
  have hversion : (packLeInt32 tx.version).length = 4 := length_packLE 4 _
  have hlocktime : locktime.length = 4 := by
    rw [packLeUint32] at hl
    split at hl
    · cases hl
      exact length_packLE 4 _
    · cases hl
  have hsize : (packLeInt32 tx.version ++ (inputs ++ (outputs ++ locktime))).length - 8 =
      (inputs ++ outputs).length := by
    simp only [List.length_append]
    omega
  simp only [Reader.ReadsAt, List.append_nil, List.nil_append, ← hsize] at hparts
  simp only [List.flatten_cons, List.flatten_nil, List.append_nil]
  refine ⟨_, _, locktime, _, hser, ?_, hl, hparts, rfl⟩
  simp only [List.length_append]
  omega

/-- The virtual size of a transaction in the form with a witness is too small. -/
theorem not_witnessResults_of_segwit {segwit : SegWit} (hs : tx.segwit = some segwit)
    (hf : Bip144 tx) (he : tx.encode = .ok enc) : ¬WitnessResults txHashFn tx enc := by
  obtain ⟨tx', legacy, locktime, stop, hser, hlen, -, hrun, -⟩ := run_segwit txHashFn hs hf he
  rw [WitnessResults, hs]
  rintro ⟨tx'', vsize, stop', hrun', legacy', hser', hvsize, -⟩
  cases hser.symm.trans hser'
  cases hrun.symm.trans hrun'
  omega

/-- Virtual size and witness hash are right exactly for the legacy form of a transaction that
has an input. -/
theorem witnessResults_iff (he : tx.encode = .ok enc) (hf : Bip144 tx) :
    WitnessResults txHashFn tx enc ↔ tx.segwit = none ∧ tx.inputs ≠ [] := by
  cases hs : tx.segwit with
  | some segwit =>
    refine iff_of_false (not_witnessResults_of_segwit txHashFn hs hf he) ?_
    rintro ⟨hnone, -⟩
    cases hnone
  | none =>
    rw [WitnessResults, hs]
    rw [Tx.encode, hs] at he
    dsimp only at he
    rw [Tx.serialize_eq] at he
    obtain ⟨inputs, hi, he⟩ := bind_eq_ok.mp he
    obtain ⟨outputs, ho, he⟩ := bind_eq_ok.mp he
    obtain ⟨locktime, hl, he⟩ := bind_eq_ok.mp he
    cases he
    constructor
    · rintro ⟨tx', vsize, stop, hrun, hvsize, -⟩
      refine ⟨rfl, fun hnil ↦ ?_⟩
      rw [hnil] at hi
      obtain rfl : [(0 : UInt8)] = inputs := Except.ok.inj hi
      have hlt := vsize_lt txHashFn (getElem?_marker tx.version 0 (outputs ++ locktime) [])
        (by rw [List.append_nil]; exact hrun)
      rw [List.append_nil] at hlt
      exact hlt.ne hvsize
    · rintro ⟨-, hne⟩
      obtain ⟨count, hc, hb⟩ := bind_eq_ok.mp hi
      obtain ⟨items, -, hb⟩ := bind_eq_ok.mp hb
      obtain ⟨b, rest, rfl, hb0⟩ := packVarint_head hc fun h ↦
        hne (List.eq_nil_of_length_eq_zero h)
      have hparts := reads_legacy txHashFn (reads_packCounted reads_readInput hi)
        (reads_packCounted reads_readOutput ho) (reads_readLeUint32 hl) (Except.ok.inj hb).symm hb0
        [] []
      simp only [Reader.ReadsAt, List.append_nil, List.nil_append, List.length_nil] at hparts
      exact ⟨_, _, _, hparts, rfl, rfl⟩

/-- A payment in the legacy form. -/
def sampleLegacy : Tx where
  inputs := [{ prevHash := zeroHash, prevIdx := 3, script := [1, 2] }]
  outputs := [⟨50, [81]⟩]
  txid := zeroHash

/-- The same payment with a witness. -/
def sampleSegwit : Tx := { sampleLegacy with segwit := some ⟨0, 1, [[[7, 7]]]⟩ }

theorem sampleLegacy_witnessResults : ∃ enc, sampleLegacy.encode = .ok enc ∧
    ∀ txHashFn, WitnessResults txHashFn sampleLegacy enc := by
  obtain ⟨enc, he, -⟩ : ∃ enc, sampleLegacy.encode = .ok enc ∧ True := by decide +kernel
  refine ⟨enc, he, fun txHashFn ↦ (witnessResults_iff txHashFn he fun segwit hs ↦ ?_).mpr
    ⟨rfl, by decide⟩⟩
  cases hs

theorem not_witnessResults : ¬∀ (txHashFn : Bytes → Hash32) (tx : Tx) (enc : Bytes),
    tx.encode = .ok enc → Bip144 tx → WitnessResults txHashFn tx enc := by
  intro hall
  obtain ⟨enc, he, -⟩ : ∃ enc, sampleSegwit.encode = .ok enc ∧ True := by decide +kernel
  have hf : Bip144 sampleSegwit := by
    intro segwit hs
    cases hs
    exact ⟨rfl, rfl, rfl⟩
  exact not_witnessResults_of_segwit (fun _ ↦ zeroHash) rfl hf he (hall _ _ _ he hf)

end ElectrumX.Lib.DeserializerSegWit
