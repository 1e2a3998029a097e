import ElectrumX.Lib.TxDash

/-!
# Dash transactions on the wire

What `DeserializerDash.read_tx` has moved over is what `DashTx.serialize` writes, when every varint
is in its shortest form, except for header words of ordinary transactions from 2^31 on, for provider
transactions of version 2 whose type is not 1, and for locked amounts from 2^63 on.
-/

namespace ElectrumX.Lib
open ElectrumX.Base Deserializer

namespace DeserializerDash

/-! ### Shortest varints -/

/-- A value from a bound on. -/
def atLeast (bound : Nat) (read : Read Nat) : Read Nat := do
  let n ← read
  step (assertThat (bound ≤ n))
  return n

/-- `_read_varint`, `lib/tx.py:199`, that accepts a value in its shortest form only. -/
def readShortestVarint : Read Nat := do
  let n ← readByte
  if n < 253 then return n.toNat
  else if n = 253 then atLeast 253 readLeUint16
  else if n = 254 then atLeast 65536 readLeUint32
  else atLeast 4294967296 readLeUint64

theorem refines_atLeast (bound : Nat) (read : Read Nat) : (atLeast bound read).Refines read := by
  intro binary start x h
  obtain ⟨n, mid, hr, h⟩ := Reader.bind_eq_ok.mp h
  obtain ⟨_, mid', hs, h⟩ := Reader.bind_eq_ok.mp h
  obtain ⟨_, -, hs⟩ := bind_eq_ok.mp hs
  cases hs
  cases h
  exact hr

theorem refines_readShortestVarint : readShortestVarint.Refines readVarint :=
  .bind (.refl _) fun _ ↦ .ite (.refl _) (.ite (refines_atLeast _ _)
    (.ite (refines_atLeast _ _) (refines_atLeast _ _)))

/-! ### What the readers have moved over -/

theorem spells_readLeUint (size : Nat) :
    (readLeUint size).Spells fun n e ↦ n < 256 ^ size ∧ e = packLE size n := by
  intro binary start stop n hs h
  obtain ⟨b, mid, e, rfl, hd, hmid, h⟩ := Reader.Spells.take.of_bind hs h
  cases h
  have hlt := unpackLE_lt b.val
  have hpack := packLE_unpackLE b.val
  rw [b.property] at hlt hpack
  exact ⟨b.val, ⟨hlt, hpack.symm⟩, hd, hmid⟩

theorem spells_readLeUint16 : readLeUint16.Spells fun n e ↦ packLeUint16 n = .ok e :=
  (spells_readLeUint 2).mono fun _ _ h ↦ by rw [packLeUint16_of_lt h.1, h.2]

theorem spells_readLeUint32 :
    readLeUint32.Spells fun n e ↦ n < 2 ^ 32 ∧ packLeUint32 n = .ok e :=
  (spells_readLeUint 4).mono fun _ _ h ↦ ⟨h.1, by rw [packLeUint32_of_lt h.1, h.2]⟩

theorem spells_readBeUint16 : readBeUint16.Spells fun n e ↦ packBeUint16 n = .ok e := by
  intro binary start stop n hs h
  obtain ⟨b, mid, e, rfl, hd, hmid, h⟩ := Reader.Spells.take.of_bind hs h
  cases h
  have hlt := unpackBE_lt b.val
  have hpack := packBE_unpackBE b.val
  rw [b.property] at hlt hpack
  refine ⟨b.val, ?_, hd, hmid⟩
  change packBeUint16 (unpackBE b.val) = .ok b.val
  rw [packBeUint16_of_lt hlt, hpack]

theorem spells_readLeInt64 : readLeInt64.Spells fun n e ↦ packLeInt64 n = .ok e := by
  intro binary start stop n hs h
  obtain ⟨b, mid, e, rfl, hd, hmid, h⟩ := Reader.Spells.take.of_bind hs h
  have hlt := unpackLE_lt b.val
  have hpack := packLE_unpackLE b.val
  rw [b.property] at hlt hpack
  refine ⟨b.val, ?_, ?_⟩
  · generalize hm : unpackLE b.val = m at *
    have hn : n = if m < 2 ^ 63 then (m : Int) else m - 2 ^ 64 := by
      cases h
      rfl
    have hrange : -2 ^ 63 ≤ n ∧ n < 2 ^ 63 := by
      rw [hn]
      split <;> omega
    have hmod : (n % 2 ^ 64).toNat = m := by
      rw [hn]
      split <;> omega
    rw [packLeInt64, if_pos hrange, hmod, hpack]
  · cases h
    exact ⟨hd, hmid⟩

theorem spells_readNbytes (n : Nat) : (readNbytes n).Spells fun b e ↦ e = b.val :=
  Reader.Spells.take

theorem spells_readOutpoint : readOutpoint.Spells fun o e ↦ o.serialize = .ok e := by
  intro binary start stop o hs h
  obtain ⟨hash, m1, e1, rfl, hd1, hm1, h⟩ := (spells_readNbytes 32).of_bind hs h
  obtain ⟨idx, m2, e2, ⟨-, he2⟩, hd2, hm2, h⟩ := spells_readLeUint32.of_bind hm1 h
  cases h
  refine ⟨[hash.val, e2].flatten, ?_, ?_, hm2⟩
  · simp only [TxOutPoint.serialize, assertThat_of hash.property, he2]
    rfl
  · simp only [List.flatten_cons, List.flatten_nil, List.append_nil, List.append_assoc]
    rw [hd1, hd2]

theorem spells_readType (version : Nat) : (readType version).Spells fun n e ↦
    (if version ≥ 2 then packLeUint16 n else .ok []) = .ok e := by
  unfold readType
  split
  · exact spells_readLeUint16
  · exact .pure rfl

/-- The platform fields are written as they were read, but for a version that writes them and a type
that does not read them. -/
theorem spells_readPlatform (version ntype : Nat) : (readPlatform version ntype).Spells fun p e ↦
    ((version ≥ 2 → ntype = 1) → serializePlatform version p.1 p.2.1 p.2.2 = .ok e) ∧
      (¬(version ≥ 2 → ntype = 1) →
        ∃ e', serializePlatform version p.1 p.2.1 p.2.2 = .ok e' ∧ e'.length = e.length + 4) := by
  unfold readPlatform
  split
  · next hcond =>
    intro binary start stop p hs h
    obtain ⟨node, m1, e1, rfl, hd1, hm1, h⟩ := (spells_readNbytes 20).of_bind hs h
    obtain ⟨p2p, m2, e2, he2, hd2, hm2, h⟩ := spells_readLeUint16.of_bind hm1 h
    obtain ⟨http, m3, e3, he3, hd3, hm3, h⟩ := spells_readLeUint16.of_bind hm2 h
    cases h
    refine ⟨[node.val, e2, e3].flatten, ⟨fun _ ↦ ?_, fun hn ↦ absurd (fun _ ↦ hcond.2) hn⟩, ?_, hm3⟩
    · simp only [serializePlatform, if_pos hcond.1, he2, he3]
      rfl
    · simp only [List.flatten_cons, List.flatten_nil, List.append_nil, List.append_assoc]
      rw [hd1, hd2, hd3]
  · next hcond =>
    refine .pure ⟨fun h ↦ ?_, fun h ↦ ?_⟩
    · have hv : ¬version ≥ 2 := fun hv ↦ hcond ⟨hv, h hv⟩
      rw [serializePlatform, if_neg hv]
    · have hv : version ≥ 2 := by
        by_contra hv
        exact h fun hv' ↦ absurd hv' hv
      rw [serializePlatform, if_pos hv]
      exact ⟨_, rfl, rfl⟩

theorem spells_readQuorums (version : Nat) : (readQuorums version).Spells fun b e ↦
    e = b ∧ (version > 1 → b.length = 32) ∧ (¬version > 1 → b = []) := by
  unfold readQuorums
  split
  · next hv =>
    intro binary start stop b hs h
    obtain ⟨result, m1, e1, rfl, hd1, hm1, h⟩ := (spells_readNbytes 32).of_bind hs h
    cases h
    exact ⟨result.val, ⟨rfl, fun _ ↦ result.property, fun hn ↦ absurd hv hn⟩, hd1, hm1⟩
  · next hv => exact .pure ⟨rfl, fun h ↦ absurd h hv, fun _ ↦ rfl⟩

theorem spells_atLeast {bound : Nat} {read : Read Nat} {enc : Nat → Bytes → Prop}
    (h : read.Spells enc) : (atLeast bound read).Spells fun n e ↦ bound ≤ n ∧ enc n e := by
  intro binary start stop n hs hr
  obtain ⟨n', mid, e, he, hd, hmid, hr⟩ := h.of_bind hs hr
  obtain ⟨_, mid', hstep, hr⟩ := Reader.bind_eq_ok.mp hr
  obtain ⟨_, hb, hstep⟩ := bind_eq_ok.mp hstep
  cases hstep
  cases hr
  exact ⟨e, ⟨assertThat_eq_ok.mp hb, he⟩, hd, hmid⟩

/-- A varint in its shortest form is what `pack_varint` writes. -/
theorem spells_readShortestVarint :
    readShortestVarint.Spells fun n e ↦ packVarint n = .ok e := by
  intro binary start stop n hs hr
  obtain ⟨b, mid, e, rfl, hd, hmid, hr⟩ := Reader.Spells.next.of_bind hs hr
  have hlong : ∀ {bound size : Nat}, (atLeast bound (readLeUint size)).run binary mid =
      .ok (n, stop) → packVarint n = .ok (b :: packLE size n) ∨ ¬(bound ≤ n ∧ n < 256 ^ size) →
      ∃ e, packVarint n = .ok e ∧ binary.drop start = e ++ binary.drop stop ∧
        stop ≤ binary.length := by
    intro bound size hr hp
    obtain ⟨e, ⟨hb, hlt, rfl⟩, hd', hstop⟩ :=
      spells_atLeast (spells_readLeUint size) _ _ _ _ hmid hr
    rcases hp with hp | hp
    · exact ⟨_, hp, by rw [hd, hd']; rfl, hstop⟩
    · exact absurd ⟨hb, hlt⟩ hp
  split at hr
  · next hlt =>
    cases hr
    refine ⟨[b], ?_, hd, hmid⟩
    have hb : b.toNat < 253 := hlt
    change packVarint b.toNat = .ok [b]
    rw [packVarint, if_pos hb, UInt8.ofNat_toNat]
  · next hge =>
    split at hr
    · next h253 =>
      refine hlong hr ?_
      by_cases hn : 253 ≤ n ∧ n < 256 ^ 2
      · rw [packVarint, if_neg (by omega), if_pos (show n < 65536 from hn.2),
          h253]
        exact .inl rfl
      · exact .inr hn
    · split at hr
      · next h254 =>
        refine hlong hr ?_
        by_cases hn : 65536 ≤ n ∧ n < 256 ^ 4
        · rw [packVarint, if_neg (by omega), if_neg (by omega),
          if_pos (show n < 4294967296 from hn.2), h254]
          exact .inl rfl
        · exact .inr hn
      · next h253 h254 =>
        refine hlong hr ?_
        have hb : b = 255 := by
          rw [UInt8.lt_iff_toNat_lt] at hge
          rw [← UInt8.toNat_inj] at h253 h254 ⊢
          have := b.toNat_lt
          have h1 : (253 : UInt8).toNat = 253 := rfl
          have h2 : (254 : UInt8).toNat = 254 := rfl
          have h3 : (255 : UInt8).toNat = 255 := rfl
          omega
        by_cases hn : 4294967296 ≤ n ∧ n < 256 ^ 8
        · rw [packVarint, if_neg (by omega), if_neg (by omega), if_neg (by omega),
            packLeUint64_of_lt hn.2, hb]
          exact .inl rfl
        · exact .inr hn

theorem packLeInt64_natCast {n : Nat} (h : n < 2 ^ 64) :
    packLeInt64 n = if n < 2 ^ 63 then .ok (packLE 8 n) else .error .structError := by
  rw [packLeInt64]
  split
  · next hn =>
    have hmod : ((n : Int) % 2 ^ 64).toNat = n := by omega
    rw [if_pos (by omega), hmod]
  · next hn => rw [if_neg (by omega)]

/-- A value is written as it was read when it meets a condition, and otherwise what is written is
longer, if anything is. -/
def Respells {α : Type} (cond : α → Prop) (pack : α → Except PyError Bytes) (a : α) (e : Bytes) :
    Prop :=
  (cond a → pack a = .ok e) ∧ (¬cond a → ∀ e', pack a = .ok e' → e.length < e'.length)

theorem respells_of_eq {α : Type} {pack : α → Except PyError Bytes} {a : α} {e : Bytes}
    (h : pack a = .ok e) : Respells (fun _ ↦ True) pack a e :=
  ⟨fun _ ↦ h, fun hn ↦ absurd trivial hn⟩

section
variable {varint : Read Nat} (hv : varint.Spells fun n e ↦ packVarint n = .ok e)
include hv

theorem spells_readVarbytes : (readVarbytes varint).Spells fun b e ↦ packVarbytes b = .ok e := by
  intro binary start stop b hs h
  obtain ⟨n, mid, e, he, hd, hmid, h⟩ := hv.of_bind hs h
  obtain ⟨xs, last, e', rfl, hd', hlast, h⟩ := (spells_readNbytes n).of_bind hmid h
  cases h
  refine ⟨e ++ xs.val, ?_, by rw [hd, hd', List.append_assoc], hlast⟩
  change packVarbytes xs.val = .ok (e ++ xs.val)
  rw [packVarbytes, xs.property, he]
  rfl

theorem spells_readInput : (readInput varint).Spells fun i e ↦ i.serialize = .ok e := by
  intro binary start stop i hs h
  obtain ⟨hash, m1, e1, rfl, hd1, hm1, h⟩ := (spells_readNbytes 32).of_bind hs h
  obtain ⟨idx, m2, e2, ⟨hidx, he2⟩, hd2, hm2, h⟩ := spells_readLeUint32.of_bind hm1 h
  obtain ⟨script, m3, e3, he3, hd3, hm3, h⟩ := (spells_readVarbytes hv).of_bind hm2 h
  obtain ⟨seq, m4, e4, ⟨hseq, he4⟩, hd4, hm4, h⟩ := spells_readLeUint32.of_bind hm3 h
  cases h
  refine ⟨[hash.val, e2, e3, e4].flatten, ?_, ?_, hm4⟩
  · have h2 : (UInt32.ofNat idx).toNat = idx := UInt32.toNat_ofNat_of_lt' hidx
    have h4 : (UInt32.ofNat seq).toNat = seq := UInt32.toNat_ofNat_of_lt' hseq
    simp only [TxInput.serialize, h2, h4, he2, he3, he4]
    rfl
  · simp only [List.flatten_cons, List.flatten_nil, List.append_nil, List.append_assoc]
    rw [hd1, hd2, hd3, hd4]

theorem spells_readOutput : (readOutput varint).Spells fun o e ↦ o.serialize = .ok e := by
  intro binary start stop o hs h
  obtain ⟨value, m1, e1, he1, hd1, hm1, h⟩ := spells_readLeInt64.of_bind hs h
  obtain ⟨script, m2, e2, he2, hd2, hm2, h⟩ := (spells_readVarbytes hv).of_bind hm1 h
  cases h
  refine ⟨[e1, e2].flatten, ?_, ?_, hm2⟩
  · simp only [TxOutput.serialize, he1, he2]
    rfl
  · simp only [List.flatten_cons, List.flatten_nil, List.append_nil, List.append_assoc]
    rw [hd1, hd2]

/-- A count and as many items. -/
theorem spells_counted {α : Type} {read : Read α} {pack : α → Except PyError Bytes}
    (h : read.Spells fun x e ↦ pack x = .ok e) :
    (varint >>= read.replicate).Spells fun xs e ↦ ∃ count es,
      packVarint xs.length = .ok count ∧ xs.mapM pack = .ok es ∧ e = count ++ es.flatten := by
  intro binary start stop xs hs hr
  obtain ⟨n, mid, count, hcount, hd, hmid, hr⟩ := hv.of_bind hs hr
  obtain ⟨e, ⟨rfl, es, hes, rfl⟩, hd', hstop⟩ := h.replicate n _ _ _ _ hmid hr
  exact ⟨_, ⟨count, es, hcount, mapM_eq_ok.mpr hes, rfl⟩, by rw [hd, hd', List.append_assoc],
    hstop⟩

/-! ### Payloads -/

theorem spells_readProRegTx :
    (readProRegTx varint).Spells (Respells (fun tx ↦ tx.version ≥ 2 → tx.type = 1)
      DashProRegTx.serialize) := by
  intro binary start stop tx hs h
  obtain ⟨version, m1, e1, he1, hd1, hm1, h⟩ := spells_readLeUint16.of_bind hs h
  obtain ⟨ntype, m2, e2, he2, hd2, hm2, h⟩ := spells_readLeUint16.of_bind hm1 h
  obtain ⟨mode, m3, e3, he3, hd3, hm3, h⟩ := spells_readLeUint16.of_bind hm2 h
  obtain ⟨outpoint, m4, e4, he4, hd4, hm4, h⟩ := spells_readOutpoint.of_bind hm3 h
  obtain ⟨ip, m5, e5, rfl, hd5, hm5, h⟩ := (spells_readNbytes 16).of_bind hm4 h
  obtain ⟨port, m6, e6, he6, hd6, hm6, h⟩ := spells_readBeUint16.of_bind hm5 h
  obtain ⟨owner, m7, e7, rfl, hd7, hm7, h⟩ := (spells_readNbytes 20).of_bind hm6 h
  obtain ⟨operator, m8, e8, rfl, hd8, hm8, h⟩ := (spells_readNbytes 48).of_bind hm7 h
  obtain ⟨voting, m9, e9, rfl, hd9, hm9, h⟩ := (spells_readNbytes 20).of_bind hm8 h
  obtain ⟨reward, m10, e10, he10, hd10, hm10, h⟩ := spells_readLeUint16.of_bind hm9 h
  obtain ⟨payout, m11, e11, he11, hd11, hm11, h⟩ := (spells_readVarbytes hv).of_bind hm10 h
  obtain ⟨inputs, m12, e12, rfl, hd12, hm12, h⟩ := (spells_readNbytes 32).of_bind hm11 h
  obtain ⟨platform, m13, e13, he13, hd13, hm13, h⟩ :=
    (spells_readPlatform version ntype).of_bind hm12 h
  obtain ⟨sig, m14, e14, he14, hd14, hm14, h⟩ := (spells_readVarbytes hv).of_bind hm13 h
  cases h
  have hser : ∀ {p}, serializePlatform version platform.1 platform.2.1 platform.2.2 = .ok p →
      DashProRegTx.serialize {
        version, type := ntype, mode, collateralOutpoint := outpoint, ipAddress := ip.val, port
        keyIdOwner := owner.val, pubKeyOperator := operator.val, keyIdVoting := voting.val
        operatorReward := reward, scriptPayout := payout, inputsHash := inputs.val
        platformNodeID := platform.1, platformP2PPort := platform.2.1
        platformHTTPPort := platform.2.2, payloadSig := sig } =
      .ok [e1, e2, e3, e4, ip.val, e6, owner.val, operator.val, voting.val, e10, e11, inputs.val,
        p, e14].flatten := by
    intro p hp
    rw [DashProRegTx.serialize, assertThat_of ⟨ip.property, owner.property, operator.property,
      voting.property, inputs.property⟩]
    simp only [he1, he2, he3, he4, he6, he10, he11, hp, he14]
    rfl
  refine ⟨_, ⟨fun hc ↦ hser (he13.1 hc), fun hc e' he' ↦ ?_⟩, ?_, hm14⟩
  · obtain ⟨p, hp, hl⟩ := he13.2 hc
    cases (hser hp).symm.trans he'
    simp only [List.flatten_cons, List.flatten_nil, List.length_append, List.length_nil, hl]
    omega
  · simp only [List.flatten_cons, List.flatten_nil, List.append_nil, List.append_assoc]
    rw [hd1, hd2, hd3, hd4, hd5, hd6, hd7, hd8, hd9, hd10, hd11, hd12, hd13, hd14]

theorem spells_readProUpServTx :
    (readProUpServTx varint).Spells (Respells (fun tx ↦ tx.version ≥ 2 → tx.type = 1)
      DashProUpServTx.serialize) := by
  intro binary start stop tx hs h
  obtain ⟨version, m1, e1, he1, hd1, hm1, h⟩ := spells_readLeUint16.of_bind hs h
  obtain ⟨ntype, m2, e2, he2, hd2, hm2, h⟩ := (spells_readType version).of_bind hm1 h
  obtain ⟨hash, m3, e3, rfl, hd3, hm3, h⟩ := (spells_readNbytes 32).of_bind hm2 h
  obtain ⟨ip, m4, e4, rfl, hd4, hm4, h⟩ := (spells_readNbytes 16).of_bind hm3 h
  obtain ⟨port, m5, e5, he5, hd5, hm5, h⟩ := spells_readBeUint16.of_bind hm4 h
  obtain ⟨payout, m6, e6, he6, hd6, hm6, h⟩ := (spells_readVarbytes hv).of_bind hm5 h
  obtain ⟨inputs, m7, e7, rfl, hd7, hm7, h⟩ := (spells_readNbytes 32).of_bind hm6 h
  obtain ⟨platform, m8, e8, he8, hd8, hm8, h⟩ :=
    (spells_readPlatform version ntype).of_bind hm7 h
  obtain ⟨sig, m9, e9, rfl, hd9, hm9, h⟩ := (spells_readNbytes 96).of_bind hm8 h
  cases h
  have hser : ∀ {p}, serializePlatform version platform.1 platform.2.1 platform.2.2 = .ok p →
      DashProUpServTx.serialize {
        version, type := ntype, proTxHash := hash.val, ipAddress := ip.val, port
        scriptOperatorPayout := payout, inputsHash := inputs.val
        platformNodeID := platform.1, platformP2PPort := platform.2.1
        platformHTTPPort := platform.2.2, payloadSig := sig.val } =
      .ok [e1, e2, hash.val, ip.val, e5, e6, inputs.val, p, sig.val].flatten := by
    intro p hp
    rw [DashProUpServTx.serialize,
      assertThat_of ⟨hash.property, ip.property, inputs.property, sig.property⟩]
    simp only [DashProUpServTx.serializeType, he1, he2, he5, he6, hp]
    rfl
  refine ⟨_, ⟨fun hc ↦ hser (he8.1 hc), fun hc e' he' ↦ ?_⟩, ?_, hm9⟩
  · obtain ⟨p, hp, hl⟩ := he8.2 hc
    cases (hser hp).symm.trans he'
    simp only [List.flatten_cons, List.flatten_nil, List.length_append, List.length_nil, hl]
    omega
  · simp only [List.flatten_cons, List.flatten_nil, List.append_nil, List.append_assoc]
    rw [hd1, hd2, hd3, hd4, hd5, hd6, hd7, hd8, hd9]

theorem spells_readProUpRegTx :
    (readProUpRegTx varint).Spells fun tx e ↦ tx.serialize = .ok e := by
  intro binary start stop tx hs h
  obtain ⟨version, m1, e1, he1, hd1, hm1, h⟩ := spells_readLeUint16.of_bind hs h
  obtain ⟨hash, m2, e2, rfl, hd2, hm2, h⟩ := (spells_readNbytes 32).of_bind hm1 h
  obtain ⟨mode, m3, e3, he3, hd3, hm3, h⟩ := spells_readLeUint16.of_bind hm2 h
  obtain ⟨operator, m4, e4, rfl, hd4, hm4, h⟩ := (spells_readNbytes 48).of_bind hm3 h
  obtain ⟨voting, m5, e5, rfl, hd5, hm5, h⟩ := (spells_readNbytes 20).of_bind hm4 h
  obtain ⟨payout, m6, e6, he6, hd6, hm6, h⟩ := (spells_readVarbytes hv).of_bind hm5 h
  obtain ⟨inputs, m7, e7, rfl, hd7, hm7, h⟩ := (spells_readNbytes 32).of_bind hm6 h
  obtain ⟨sig, m8, e8, he8, hd8, hm8, h⟩ := (spells_readVarbytes hv).of_bind hm7 h
  cases h
  refine ⟨[e1, hash.val, e3, operator.val, voting.val, e6, inputs.val, e8].flatten, ?_, ?_, hm8⟩
  · dsimp only
    rw [DashProUpRegTx.serialize, assertThat_of ⟨hash.property, operator.property,
      voting.property, inputs.property⟩]
    simp only [he1, he3, he6, he8]
    rfl
  · simp only [List.flatten_cons, List.flatten_nil, List.append_nil, List.append_assoc]
    rw [hd1, hd2, hd3, hd4, hd5, hd6, hd7, hd8]

omit hv in
theorem spells_readProUpRevTx : readProUpRevTx.Spells fun tx e ↦ tx.serialize = .ok e := by
  intro binary start stop tx hs h
  obtain ⟨version, m1, e1, he1, hd1, hm1, h⟩ := spells_readLeUint16.of_bind hs h
  obtain ⟨hash, m2, e2, rfl, hd2, hm2, h⟩ := (spells_readNbytes 32).of_bind hm1 h
  obtain ⟨reason, m3, e3, he3, hd3, hm3, h⟩ := spells_readLeUint16.of_bind hm2 h
  obtain ⟨inputs, m4, e4, rfl, hd4, hm4, h⟩ := (spells_readNbytes 32).of_bind hm3 h
  obtain ⟨sig, m5, e5, rfl, hd5, hm5, h⟩ := (spells_readNbytes 96).of_bind hm4 h
  cases h
  refine ⟨[e1, hash.val, e3, inputs.val, sig.val].flatten, ?_, ?_, hm5⟩
  · dsimp only
    rw [DashProUpRevTx.serialize, assertThat_of ⟨hash.property, inputs.property, sig.property⟩]
    simp only [he1, he3]
    rfl
  · simp only [List.flatten_cons, List.flatten_nil, List.append_nil, List.append_assoc]
    rw [hd1, hd2, hd3, hd4, hd5]

theorem spells_readBest (version : Nat) : (readBest varint version).Spells fun p e ↦
    (version > 2 → p.2.2 < 2 ^ 64 ∧
      ∃ e1, packVarint p.1 = .ok e1 ∧ e = [e1, p.2.1, packLE 8 p.2.2].flatten) ∧
    (¬version > 2 → e = []) := by
  unfold readBest
  split
  · next hcond =>
    intro binary start stop p hs h
    obtain ⟨diff, m1, e1, he1, hd1, hm1, h⟩ := hv.of_bind hs h
    obtain ⟨sig, m2, e2, rfl, hd2, hm2, h⟩ := (spells_readNbytes 96).of_bind hm1 h
    obtain ⟨amount, m3, e3, ⟨hlt, rfl⟩, hd3, hm3, h⟩ := (spells_readLeUint 8).of_bind hm2 h
    cases h
    refine ⟨_, ⟨fun _ ↦ ⟨hlt, e1, he1, rfl⟩, fun hn ↦ absurd hcond hn⟩, ?_, hm3⟩
    simp only [List.flatten_cons, List.flatten_nil, List.append_nil, List.append_assoc]
    rw [hd1, hd2, hd3]
  · next hcond => exact .pure ⟨fun h ↦ absurd h hcond, fun _ ↦ rfl⟩

theorem spells_readCbTx :
    (readCbTx varint).Spells (Respells (fun tx ↦ tx.version > 2 → tx.assetLockedAmount < 2 ^ 63)
      DashCbTx.serialize) := by
  intro binary start stop tx hs h
  obtain ⟨version, m1, e1, he1, hd1, hm1, h⟩ := spells_readLeUint16.of_bind hs h
  obtain ⟨height, m2, e2, ⟨-, he2⟩, hd2, hm2, h⟩ := spells_readLeUint32.of_bind hm1 h
  obtain ⟨root, m3, e3, rfl, hd3, hm3, h⟩ := (spells_readNbytes 32).of_bind hm2 h
  obtain ⟨_, m4, quorums, ⟨rfl, hq, hq'⟩, hd4, hm4, h⟩ :=
    (spells_readQuorums version).of_bind hm3 h
  obtain ⟨best, m5, e5, ⟨hb, hb'⟩, hd5, hm5, h⟩ := (spells_readBest hv version).of_bind hm4 h
  cases h
  have hquorums : DashCbTx.serializeQuorums {
      version, height, merkleRootMNList := root.val, merkleRootQuorums := quorums
      bestCLHeightDiff := best.1, bestCLSignature := best.2.1
      assetLockedAmount := best.2.2 } = .ok quorums := by
    unfold DashCbTx.serializeQuorums
    split
    · next hver => rw [assertThat_of (hq hver)]; rfl
    · next hver => rw [hq' hver]
  have hser : DashCbTx.serialize {
      version, height, merkleRootMNList := root.val, merkleRootQuorums := quorums
      bestCLHeightDiff := best.1, bestCLSignature := best.2.1
      assetLockedAmount := best.2.2 } =
      if version > 2 → best.2.2 < 2 ^ 63 then .ok [e1, e2, root.val, quorums, e5].flatten
      else .error .structError := by
    rw [DashCbTx.serialize, assertThat_of root.property]
    simp only [he1, he2, hquorums, DashCbTx.serializeBest]
    by_cases hver : version > 2
    · obtain ⟨hlt, e6, he6, rfl⟩ := hb hver
      simp only [if_pos hver, he6, packLeInt64_natCast hlt]
      by_cases hamount : best.2.2 < 2 ^ 63
      · rw [if_pos hamount, if_pos fun _ ↦ hamount]
        rfl
      · rw [if_neg hamount, if_neg fun hn ↦ hamount (hn hver)]
        rfl
    · rw [if_neg hver, if_pos fun h ↦ absurd h hver, hb' hver]
      rfl
  refine ⟨_, ⟨fun hc ↦ hser.trans (if_pos hc), fun hc e' he' ↦ ?_⟩, ?_, hm5⟩
  · cases (hser.trans (if_neg hc)).symm.trans he'
  · simp only [List.flatten_cons, List.flatten_nil, List.append_nil, List.append_assoc]
    rw [hd1, hd2, hd3, hd4, hd5]

end

end DeserializerDash

/-! ### The condition -/

/-- The fields that a payload writes are those that it has read: a provider transaction of version 2
is of type 1, and a locked amount is below 2^63. -/
def ExtraPayload.Faithful : ExtraPayload → Prop
  | .proReg tx => tx.version ≥ 2 → tx.type = 1
  | .proUpServ tx => tx.version ≥ 2 → tx.type = 1
  | .cb tx => tx.version > 2 → tx.assetLockedAmount < 2 ^ 63
  | _ => True

/-- The header word of an ordinary transaction is below 2^31, and the payload of a special one is
written as it was read. -/
def DashTx.Faithful (tx : DashTx) : Prop :=
  if tx.txType = 0 then tx.version < 2 ^ 31 else tx.extraPayload.Faithful

namespace DeserializerDash

/-- A payload of a class. -/
theorem spells_wrap {α : Type} {read : Read α} {cond : α → Prop}
    {pack : α → Except PyError Bytes} (h : read.Spells (Respells cond pack))
    {wrap : α → ExtraPayload} {cls : SpecTxClass} (hcls : ∀ a, (wrap a).specTxClass = some cls)
    (hcond : ∀ a, (wrap a).Faithful ↔ cond a) (hpack : ∀ a, (wrap a).serialize = pack a) :
    (do return wrap (← read) : Read ExtraPayload).Spells fun p e ↦
      p.specTxClass = some cls ∧ Respells ExtraPayload.Faithful ExtraPayload.serialize p e := by
  intro binary start stop p hs hr
  obtain ⟨a, mid, e, he, hd, hmid, hr⟩ := h.of_bind hs hr
  cases hr
  refine ⟨e, ⟨hcls a, ?_⟩, hd, hmid⟩
  rw [Respells, hcond, hpack]
  exact he

section
variable {varint : Read Nat} (hv : varint.Spells fun n e ↦ packVarint n = .ok e)
include hv

theorem spells_readTxExtra (cls : SpecTxClass) : (readTxExtra varint cls).Spells fun p e ↦
    p.specTxClass = some cls ∧ Respells ExtraPayload.Faithful ExtraPayload.serialize p e := by
  cases cls with
  | proReg =>
    exact spells_wrap (spells_readProRegTx hv) (fun _ ↦ rfl) (fun _ ↦ Iff.rfl) fun _ ↦ rfl
  | proUpServ =>
    exact spells_wrap (spells_readProUpServTx hv) (fun _ ↦ rfl) (fun _ ↦ Iff.rfl) fun _ ↦ rfl
  | proUpReg =>
    exact spells_wrap ((spells_readProUpRegTx hv).mono fun _ _ ↦ respells_of_eq)
      (fun _ ↦ rfl) (fun _ ↦ Iff.rfl) fun _ ↦ rfl
  | proUpRev =>
    exact spells_wrap (spells_readProUpRevTx.mono fun _ _ ↦ respells_of_eq)
      (fun _ ↦ rfl) (fun _ ↦ Iff.rfl) fun _ ↦ rfl
  | cb => exact spells_wrap (spells_readCbTx hv) (fun _ ↦ rfl) (fun _ ↦ Iff.rfl) fun _ ↦ rfl

theorem spells_readPayload (txType size : Nat) : (readPayload varint txType size).Spells fun p e ↦
    p.specTxClass = specTxClass txType ∧
      Respells ExtraPayload.Faithful ExtraPayload.serialize p e := by
  unfold readPayload
  split
  · next cls hcls =>
    rw [hcls]
    exact spells_readTxExtra hv cls
  · next hcls =>
    intro binary start stop p hs h
    obtain ⟨b, m1, e1, rfl, hd1, hm1, h⟩ := (spells_readNbytes size).of_bind hs h
    cases h
    exact ⟨b.val, ⟨hcls.symm, fun _ ↦ rfl, fun hn ↦ absurd trivial hn⟩, hd1, hm1⟩

/-- The size in front of a payload is the number of bytes that the payload was read from. -/
theorem spells_readExtraPayload (txType : Nat) : (readExtraPayload varint txType).Spells fun p e ↦
    p.specTxClass = specTxClass txType ∧ ∃ body, packVarbytes body = .ok e ∧
      Respells ExtraPayload.Faithful ExtraPayload.serialize p body := by
  intro binary start stop p hs h
  obtain ⟨size, m1, e1, he1, hd1, hm1, h⟩ := hv.of_bind hs h
  obtain ⟨cursor, _, hc, h⟩ := Reader.bind_eq_ok.mp h
  cases hc
  obtain ⟨p', m2, body, ⟨hcls, hbody⟩, hd2, hm2, h⟩ :=
    (spells_readPayload hv txType size).of_bind hm1 h
  obtain ⟨cursor, _, hc, h⟩ := Reader.bind_eq_ok.mp h
  cases hc
  obtain ⟨_, _, hstep, h⟩ := Reader.bind_eq_ok.mp h
  obtain ⟨_, hassert, hstep⟩ := bind_eq_ok.mp hstep
  cases hstep
  cases h
  have hend := assertThat_eq_ok.mp hassert
  have hlen := (Reader.drop_take_of_drop_eq hm2 hm1 hd2).2
  have hsize : size = body.length := by omega
  refine ⟨e1 ++ body, ⟨hcls, body, ?_, hbody⟩, by rw [hd1, hd2, List.append_assoc], hm2⟩
  rw [packVarbytes, ← hsize, he1]
  rfl

end

/-! ### Lengths -/

theorem length_packVarint {n : Nat} {e : Bytes} (h : packVarint n = .ok e) :
    e.length = if n < 253 then 1 else if n < 65536 then 3 else if n < 4294967296 then 5 else 9 := by
  rw [packVarint] at h
  split at h
  · next hn =>
    cases h
    rw [if_pos hn]
    rfl
  · next hn =>
    rw [if_neg hn]
    split at h
    · next h16 =>
      cases h
      rw [if_pos h16, List.length_cons, length_packLE]
    · next h16 =>
      rw [if_neg h16]
      split at h
      · next h32 =>
        cases h
        rw [if_pos h32, List.length_cons, length_packLE]
      · next h32 =>
        obtain ⟨b, hb, h⟩ := bind_eq_ok.mp h
        cases h
        rw [packLeUint64] at hb
        split at hb
        · cases hb
          rw [if_neg h32, List.length_cons, length_packLE]
        · cases hb

/-- A longer byte string is written longer. -/
theorem length_packVarbytes_lt {a b x y : Bytes} (ha : packVarbytes a = .ok x)
    (hb : packVarbytes b = .ok y) (h : a.length < b.length) : x.length < y.length := by
  obtain ⟨p, hp, ha⟩ := bind_eq_ok.mp ha
  obtain ⟨q, hq, hb⟩ := bind_eq_ok.mp hb
  cases ha
  cases hb
  rw [List.length_append, List.length_append, length_packVarint hp, length_packVarint hq]
  split_ifs <;> omega

/-! ### Transactions -/

/-- A special header word is written as its version and its type, an ordinary one as it is. -/
theorem splitHeader_cases {header : Nat} (h : header < 2 ^ 32) :
    (splitHeader header).2 = 0 ∧ (splitHeader header).1 = header ∨
      (splitHeader header).2 ≠ 0 ∧ packLeUint16 (splitHeader header).1 =
          .ok (packLE 2 (splitHeader header).1) ∧
        packLeUint16 (splitHeader header).2 = .ok (packLE 2 (splitHeader header).2) ∧
        packLE 4 header = packLE 2 (splitHeader header).1 ++ packLE 2 (splitHeader header).2 := by
  unfold splitHeader
  by_cases ht : header / 2 ^ 16 = 0
  · refine .inl ?_
    simp only [ne_eq, ht, not_true_eq_false, if_false, false_and, and_self]
  by_cases hv : header % 2 ^ 16 < 3
  · refine .inl ?_
    simp only [ne_eq, ht, not_false_eq_true, if_true, hv, and_self]
  · have hver : header % 2 ^ 16 < 256 ^ 2 := by omega
    have htyp : header / 2 ^ 16 < 256 ^ 2 := by omega
    simp only [ne_eq, ht, not_false_eq_true, if_true, hv, and_false, if_false]
    refine .inr ⟨trivial, packLeUint16_of_lt hver, packLeUint16_of_lt htyp, ?_⟩
    have hsum : unpackLE (packLE 2 (header % 2 ^ 16) ++ packLE 2 (header / 2 ^ 16)) = header := by
      rw [unpackLE_append, unpackLE_packLE_of_lt hver, unpackLE_packLE_of_lt htyp, length_packLE]
      omega
    have hpack := packLE_unpackLE (packLE 2 (header % 2 ^ 16) ++ packLE 2 (header / 2 ^ 16))
    rwa [hsum, List.length_append, length_packLE, length_packLE] at hpack

theorem packInt32_natCast {n : Nat} (h : n < 2 ^ 32) :
    packInt32 n = if n < 2 ^ 31 then .ok (packLE 4 n) else .error .structError := by
  rw [packInt32]
  split
  · next hn =>
    have hmod : ((n : Int) % 2 ^ 32).toNat = n := by omega
    rw [if_pos (by omega), hmod]
  · next hn => rw [if_neg (by omega)]

/-- A payload of the class that its type names is written behind its size. -/
theorem serializeExtraPayload_eq {tx : DashTx}
    (h : tx.extraPayload.specTxClass = specTxClass tx.txType) :
    tx.serializeExtraPayload = tx.extraPayload.serialize >>= packVarbytes := by
  unfold DashTx.serializeExtraPayload
  split
  · next hcls =>
    rw [assertThat_of (h.trans hcls)]
    rfl
  · next cls hcls =>
    rw [if_neg (not_not_intro (h.trans hcls))]

/-- What a transaction was read from is what it is written as exactly under the condition. -/
theorem serialize_of_readTx {varint : Read Nat}
    (hv : varint.Spells fun n e ↦ packVarint n = .ok e) {txHashFn : Bytes → Hash32}
    {binary : Bytes} {start stop : Nat} {tx : DashTx} (hs : start ≤ binary.length)
    (h : (readTx varint txHashFn).run binary start = .ok (tx, stop)) :
    tx.serialize = .ok ((binary.take stop).drop start) ↔ tx.Faithful := by
  obtain ⟨_, _, hc, h⟩ := Reader.bind_eq_ok.mp h
  cases hc
  obtain ⟨header, m1, e1, ⟨hlt, he1⟩, hd1, hm1, h⟩ := spells_readLeUint32.of_bind hs h
  obtain ⟨inputs, m2, e2, ⟨c2, es2, hc2, hes2, rfl⟩, hd2, hm2, h⟩ :=
    (spells_counted hv (spells_readInput hv)).of_bind hm1 h
  obtain ⟨outputs, m3, e3, ⟨c3, es3, hc3, hes3, rfl⟩, hd3, hm3, h⟩ :=
    (spells_counted hv (spells_readOutput hv)).of_bind hm2 h
  obtain ⟨locktime, m4, e4, ⟨hlock, he4⟩, hd4, hm4, h⟩ := spells_readLeUint32.of_bind hm3 h
  obtain ⟨extra, m5, hr, h⟩ := Reader.bind_eq_ok.mp h
  obtain ⟨_, _, hc, h⟩ := Reader.bind_eq_ok.mp h
  cases hc
  cases h
  have hlock' : (UInt32.ofNat locktime).toNat = locktime := UInt32.toNat_ofNat_of_lt' hlock
  rw [packLeUint32_of_lt hlt] at he1
  cases he1
  have hhead := splitHeader_cases hlt
  generalize hver : (splitHeader header).1 = version at *
  generalize htyp : (splitHeader header).2 = txType at *
  unfold DashTx.serialize DashTx.Faithful
  dsimp only
  rw [hlock', he4, hc2, hes2, hc3, hes3]
  rcases hhead with ⟨ht, hversion⟩ | ⟨ht, hpv, hpt, hsplit⟩
  · -- an ordinary transaction has no extra payload
    rw [readExtra, if_neg (not_not_intro ht)] at hr
    cases hr
    have hall : binary.drop start =
        packLE 4 header ++ (c2 ++ es2.flatten) ++ (c3 ++ es3.flatten) ++ e4 ++ binary.drop stop := by
      rw [hd1, hd2, hd3, hd4]
      simp only [List.append_assoc]
    rw [(Reader.drop_take_of_drop_eq hm4 hs hall).1, if_pos ht, hversion]
    change (if txType ≠ 0 then _ else packInt32 header >>= _) = _ ↔ _
    rw [if_neg (not_not_intro ht), packInt32_natCast hlt]
    by_cases h31 : header < 2 ^ 31
    · rw [if_pos h31]
      exact ⟨fun _ ↦ h31, fun _ ↦ rfl⟩
    · rw [if_neg h31]
      exact ⟨(fun hn ↦ by cases hn), fun hn ↦ absurd hn h31⟩
  · rw [readExtra, if_pos ht] at hr
    obtain ⟨e5, ⟨hcls, body, hbody, hfaith⟩, hd5, hm5⟩ :=
      spells_readExtraPayload hv txType _ _ _ _ hm4 hr
    have hall : binary.drop start = packLE 2 version ++ packLE 2 txType ++ (c2 ++ es2.flatten) ++
        (c3 ++ es3.flatten) ++ e4 ++ e5 ++ binary.drop stop := by
      rw [hd1, hd2, hd3, hd4, hd5, hsplit]
      simp only [List.append_assoc]
    rw [(Reader.drop_take_of_drop_eq hm5 hs hall).1, if_neg ht]
    change (if txType ≠ 0 then packLeUint16 version >>= fun uVersion ↦
      packLeUint16 txType >>= fun uTxType ↦ DashTx.serializeExtraPayload _ >>= fun vExtra ↦
        pure (uVersion ++ uTxType ++ (c2 ++ es2.flatten) ++ (c3 ++ es3.flatten) ++ e4 ++ vExtra)
      else _) = _ ↔ _
    rw [if_pos ht, hpv, hpt, serializeExtraPayload_eq hcls]
    change ((extra.serialize >>= packVarbytes) >>= fun vExtra ↦ pure (packLE 2 version ++
      packLE 2 txType ++ (c2 ++ es2.flatten) ++ (c3 ++ es3.flatten) ++ e4 ++ vExtra)) = _ ↔ _
    by_cases hf : extra.Faithful
    · rw [hfaith.1 hf]
      change (packVarbytes body >>= _) = _ ↔ _
      rw [hbody]
      exact ⟨fun _ ↦ hf, fun _ ↦ rfl⟩
    · refine ⟨fun he ↦ ?_, fun h ↦ absurd h hf⟩
      -- what is written of the payload is longer than what was read
      obtain ⟨vExtra, hvExtra, he⟩ := bind_eq_ok.mp he
      obtain ⟨body', hbody', hvExtra⟩ := bind_eq_ok.mp hvExtra
      have hlong := length_packVarbytes_lt hbody hvExtra (hfaith.2 hf body' hbody')
      cases List.append_cancel_left (Except.ok.inj he)
      omega

/-! ### Readers that refuse longer varints -/

section
variable {varint varint' : Read Nat} (hv : varint.Refines varint')
include hv

theorem refines_readVarbytes : (readVarbytes varint).Refines (readVarbytes varint') :=
  hv.bind fun _ ↦ .refl _

theorem refines_readInput : (readInput varint).Refines (readInput varint') :=
  .bind (.refl _) fun _ ↦ .bind (.refl _) fun _ ↦ .bind (refines_readVarbytes hv) fun _ ↦ .refl _

theorem refines_readOutput : (readOutput varint).Refines (readOutput varint') :=
  .bind (.refl _) fun _ ↦ .bind (refines_readVarbytes hv) fun _ ↦ .refl _

theorem refines_readTxExtra (cls : SpecTxClass) :
    (readTxExtra varint cls).Refines (readTxExtra varint' cls) := by
  have hbytes := refines_readVarbytes hv
  cases cls with
  | proReg =>
    refine .bind ?_ fun _ ↦ .refl _
    exact .bind (.refl _) fun _ ↦ .bind (.refl _) fun _ ↦ .bind (.refl _) fun _ ↦
      .bind (.refl _) fun _ ↦ .bind (.refl _) fun _ ↦ .bind (.refl _) fun _ ↦
      .bind (.refl _) fun _ ↦ .bind (.refl _) fun _ ↦ .bind (.refl _) fun _ ↦
      .bind (.refl _) fun _ ↦ .bind hbytes fun _ ↦ .bind (.refl _) fun _ ↦
      .bind (.refl _) fun _ ↦ .bind hbytes fun _ ↦ .refl _
  | proUpServ =>
    refine .bind ?_ fun _ ↦ .refl _
    exact .bind (.refl _) fun _ ↦ .bind (.refl _) fun _ ↦ .bind (.refl _) fun _ ↦
      .bind (.refl _) fun _ ↦ .bind (.refl _) fun _ ↦ .bind hbytes fun _ ↦ .refl _
  | proUpReg =>
    refine .bind ?_ fun _ ↦ .refl _
    exact .bind (.refl _) fun _ ↦ .bind (.refl _) fun _ ↦ .bind (.refl _) fun _ ↦
      .bind (.refl _) fun _ ↦ .bind (.refl _) fun _ ↦ .bind hbytes fun _ ↦
      .bind (.refl _) fun _ ↦ .bind hbytes fun _ ↦ .refl _
  | proUpRev => exact .refl _
  | cb =>
    refine .bind ?_ fun _ ↦ .refl _
    exact .bind (.refl _) fun _ ↦ .bind (.refl _) fun _ ↦ .bind (.refl _) fun _ ↦
      .bind (.refl _) fun _ ↦ .bind (.ite (hv.bind fun _ ↦ .refl _) (.refl _)) fun _ ↦ .refl _

theorem refines_readExtraPayload (txType : Nat) :
    (readExtraPayload varint txType).Refines (readExtraPayload varint' txType) := by
  refine hv.bind fun size ↦ .bind (.refl _) fun _ ↦ .bind ?_ fun _ ↦ .refl _
  unfold readPayload
  split
  · exact refines_readTxExtra hv _
  · exact .refl _

/-- A deserializer that refuses longer varints reads the same transactions, or none. -/
theorem refines_readTx (txHashFn : Bytes → Hash32) :
    (readTx varint txHashFn).Refines (readTx varint' txHashFn) :=
  .bind (.refl _) fun _ ↦ .bind (.refl _) fun _ ↦
    .bind (hv.bind fun n ↦ .replicate (refines_readInput hv) n) fun _ ↦
    .bind (hv.bind fun n ↦ .replicate (refines_readOutput hv) n) fun _ ↦
    .bind (.refl _) fun _ ↦ .bind (.ite (refines_readExtraPayload hv _) (.refl _)) fun _ ↦ .refl _

end

theorem le_length_of_readTx {varint : Read Nat} {txHashFn : Bytes → Hash32} {binary : Bytes}
    {start stop : Nat} {tx : DashTx}
    (h : (readTx varint txHashFn).run binary start = .ok (tx, stop)) : start ≤ binary.length := by
  obtain ⟨_, _, hc, h⟩ := Reader.bind_eq_ok.mp h
  cases hc
  obtain ⟨header, m1, h4, -⟩ := Reader.bind_eq_ok.mp h
  obtain ⟨b, m2, hb, -⟩ := Reader.bind_eq_ok.mp h4
  simp only [Reader.take] at hb
  split at hb
  · next hle => exact (Nat.le_add_right _ _).trans hle
  · cases hb

/-- `read_tx` accepts a transaction with every varint in its shortest form. -/
def ReadsShortest (txHashFn : Bytes → Hash32) (binary : Bytes) (start : Nat) (tx : DashTx)
    (stop : Nat) : Prop :=
  (readTx readVarint txHashFn).run binary start = .ok (tx, stop) ∧
    ∃ r, (readTx readShortestVarint txHashFn).run binary start = .ok r

/-- A transaction that was read with every varint in its shortest form is written as the bytes that
it was read from exactly when its header word and its payload can be written so. -/
theorem ReadsShortest.serialize_iff {txHashFn : Bytes → Hash32} {binary : Bytes} {start stop : Nat}
    {tx : DashTx} (h : ReadsShortest txHashFn binary start tx stop) :
    tx.serialize = .ok ((binary.take stop).drop start) ↔ tx.Faithful := by
  obtain ⟨hr, ⟨tx', stop'⟩, hr'⟩ := h
  have hs := le_length_of_readTx hr
  cases (refines_readTx refines_readShortestVarint txHashFn _ _ _ hr').symm.trans hr
  exact serialize_of_readTx spells_readShortestVarint hs hr'

/-- A coinbase, with a locked amount of one coin. -/
def sampleSpecial : Bytes :=
  [3, 0, 5, 0] ++
    [1] ++ List.replicate 32 0 ++ [255, 255, 255, 255] ++ [2, 1, 7] ++ [255, 255, 255, 255] ++
    [1] ++ [0, 242, 5, 42, 1, 0, 0, 0] ++ [1, 81] ++ [0, 0, 0, 0] ++
    [175] ++ [3, 0] ++ [7, 0, 0, 0] ++ List.replicate 32 1 ++ List.replicate 32 2 ++
      [1] ++ List.replicate 96 3 ++ [0, 225, 245, 5, 0, 0, 0, 0]

/-- The transaction in the sample. -/
def sampleSpecialTx : DashTx where
  version := 3
  inputs := [⟨zeroHash, 4294967295, [1, 7], 4294967295⟩]
  outputs := [⟨5000000000, [81]⟩]
  locktime := 0
  txType := 5
  extraPayload := .cb {
    version := 3
    height := 7
    merkleRootMNList := List.replicate 32 1
    merkleRootQuorums := List.replicate 32 2
    bestCLHeightDiff := 1
    bestCLSignature := List.replicate 96 3
    assetLockedAmount := 100000000 }
  txid := zeroHash
  wtxid := zeroHash

/-- The sample is written as it was read. -/
theorem sampleSpecialTx_serialize : sampleSpecialTx.serialize = .ok sampleSpecial := by
  have hread : ReadsShortest (fun _ ↦ zeroHash) sampleSpecial 0 sampleSpecialTx 239 :=
    ⟨by decide +kernel, (sampleSpecialTx, 239), by decide +kernel⟩
  have hfaithful : sampleSpecialTx.Faithful := by
    simp [DashTx.Faithful, sampleSpecialTx, ExtraPayload.Faithful]
  have hall : (sampleSpecial.take 239).drop 0 = sampleSpecial := by decide +kernel
  rw [hread.serialize_iff.mpr hfaithful, hall]

/-- A header word whose upper half is not a type, since its lower half is below 3. -/
def sampleHeader : Bytes := [2, 0, 1, 128, 0, 0, 0, 0, 0, 0]

/-- The transaction in the header word. -/
def sampleHeaderTx : DashTx where
  version := 2147549186
  inputs := []
  outputs := []
  locktime := 0
  txType := 0
  extraPayload := .bytes []
  txid := zeroHash
  wtxid := zeroHash

/-- The writer refuses the header word that the reader took for a version. -/
theorem sampleHeaderTx_serialize :
    ReadsShortest (fun _ ↦ zeroHash) sampleHeader 0 sampleHeaderTx 10 ∧
      sampleHeaderTx.serialize = .error .structError :=
  ⟨⟨rfl, _, rfl⟩, by decide +kernel⟩

end DeserializerDash
end ElectrumX.Lib
