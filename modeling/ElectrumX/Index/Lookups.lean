import ElectrumX.Index.Numbering

/-!
# The two UTXO lookups

`all_utxos` goes through the `u` table by script hash, `lookup_utxos` through the `h` table by
the first bytes of a txid, where the candidates are told apart by the txids of their numbers.
Both answer with the unspent outputs of the chain.
-/

namespace ElectrumX.Index
open ElectrumX.Base ElectrumX.Lib ElectrumX.Chain ElectrumX.Server

section Tables

variable {P : List (OutPoint × Utxo)} {db : DB} {utxoCache : Table} {dbDeletes : List Bytes}
variable {base view : OutPoint → Option Utxo} {op : OutPoint}

/-- A candidate of another transaction is passed over. -/
private theorem matchCandidate_skip {op' : OutPoint} {u' : Utxo} (hn : u'.txNum < 2 ^ 40)
    (hh : (db.fsTxHash u'.txNum).1 = some op'.txid.val) (hne : op'.txid ≠ op.txid)
    (hashX idxPacked : Bytes) (rest : List (Bytes × Bytes)) :
    db.matchCandidate op.txid.val idxPacked ((hKey op' u', hashX) :: rest) =
      db.matchCandidate op.txid.val idxPacked rest := by
  have hv : ¬some op'.txid.val = some op.txid.val := by
    intro h
    exact hne (Subtype.ext (Option.some.inj h))
  rw [DB.matchCandidate, lastN_txNum_hKey, unpack_txNum hn]
  change (if (db.fsTxHash u'.txNum).1 = some op.txid.val then _ else _) = _
  rw [hh, if_neg hv]

/-- The candidate of the transaction is returned with the end of its key. -/
private theorem matchCandidate_hit {u : Utxo} (hn : u.txNum < 2 ^ 40)
    (hh : (db.fsTxHash u.txNum).1 = some op.txid.val) (hashX : Bytes)
    (rest : List (Bytes × Bytes)) :
    db.matchCandidate op.txid.val (packLE 4 op.idx) ((hKey op u, hashX) :: rest) =
      .ok (some (hashX, suffix op u)) := by
  rw [DB.matchCandidate, lastN_txNum_hKey, unpack_txNum hn]
  change (if (db.fsTxHash u.txNum).1 = some op.txid.val then _ else _) = _
  rw [if_pos hh]
  rfl

/-- Among candidates with the position of the output, the search finds the one with its txid. -/
private theorem matchCandidate_eq (hN : ∀ op u, base op = some u → u.txNum < 2 ^ 40)
    (hh : HashesFound db base) {es : List (Bytes × Bytes)}
    (hes : ∀ e ∈ es, ∃ op' u', base op' = some u' ∧ op'.idx = op.idx ∧
      e = (hKey op' u', u'.hashX.val))
    (hself : ∀ u, base op = some u → (hKey op u, u.hashX.val) ∈ es) :
    db.matchCandidate op.txid.val (packLE 4 op.idx) es =
      .ok ((base op).map fun u ↦ (u.hashX.val, suffix op u)) := by
  induction es with
  | nil =>
    cases hb : base op with
    | none => rfl
    | some u => exact absurd (hself u hb) List.not_mem_nil
  | cons e rest ih =>
    obtain ⟨op', u', hb', hi, rfl⟩ := hes _ List.mem_cons_self
    by_cases ht : op'.txid = op.txid
    · obtain ⟨txid, idx⟩ := op
      obtain ⟨txid', idx'⟩ := op'
      cases hi
      cases ht
      rw [hb', matchCandidate_hit (hN _ _ hb') (hh _ _ hb')]
      rfl
    · rw [matchCandidate_skip (hN _ _ hb') (hh _ _ hb') ht]
      apply ih
      · exact fun e he ↦ hes e (List.mem_cons_of_mem _ he)
      · intro u hb
        apply (List.mem_cons.mp (hself u hb)).resolve_left
        intro heq
        -- Rows of one number are rows of one transaction.
        have hnum : packLE txnumLen u.txNum = packLE txnumLen u'.txNum := by
          rw [← lastN_txNum_hKey op u, ← lastN_txNum_hKey op' u', (Prod.mk.inj heq).1]
        have hn := unpack_txNum (hN _ _ hb)
        rw [hnum, unpack_txNum (hN _ _ hb')] at hn
        have htx := hh _ _ hb'
        rw [Except.ok.inj hn, hh _ _ hb] at htx
        exact ht (Subtype.ext (Option.some.inj htx)).symm

/-- `lookup_hashX` finds the row of an unspent output, and no other. -/
theorem lookupHashX_eq (hN : Numbered P)
    (h : UtxoRep P db.utxoDb utxoCache dbDeletes base view) (hh : HashesFound db base)
    (hidx : op.idx < 2 ^ 32) :
    db.lookupHashX (op.txid.val, op.idx) =
      .ok ((base op).map fun u ↦ (u.hashX.val, suffix op u)) := by
  have hes := h.mem_candidates hN hidx
  unfold DB.lookupHashX
  dsimp only
  rw [packLeUint32_of_lt hidx]
  change db.matchCandidate op.txid.val (packLE 4 op.idx) _ = _
  apply matchCandidate_eq (fun op u hb ↦ hN.txNum_lt _ (h.base_mem op u hb)) hh
  · intro e he
    obtain ⟨op', u', hb', hi, -, heq⟩ := (hes e).mp he
    exact ⟨op', u', hb', hi, heq⟩
  · intro u hb
    exact (hes _).mpr ⟨op, u, hb, rfl, rfl, rfl⟩

/-- `lookup_utxo` reads the value of the row that was found. -/
theorem lookupUtxo_eq (hN : Numbered P)
    (h : UtxoRep P db.utxoDb utxoCache dbDeletes base view) :
    db.lookupUtxo ((base op).map fun u ↦ (u.hashX.val, suffix op u)) =
      .ok ((base op).map fun u ↦ (u.hashX.val, u.value)) := by
  cases hb : base op with
  | none => rfl
  | some u =>
    have hr : db.utxoDb[uKey op u]? = some (packLE 8 u.value) :=
      (h.uRow _ _).mpr ⟨op, u, hb, rfl, rfl⟩
    have hvalue : u.value < 256 ^ 8 :=
      (hN.value_lt _ (h.base_mem op u hb)).trans (by norm_num)
    have hpack : packLE 8 u.value = UInt8.ofNat u.value :: packLE 7 (u.value / 256) := rfl
    obtain ⟨b, bs, hx⟩ := List.exists_cons_of_length_pos (l := u.hashX.val)
      (by rw [u.hashX.property]; decide)
    have hread : unpackLeUint64 (packLE 8 u.value) = .ok u.value := by
      rw [unpackLeUint64_of_length (length_packLE 8 _), unpackLE_packLE_of_lt hvalue]
    rw [Option.map_some, Option.map_some]
    rw [uKey, hx, hpack] at hr
    rw [hpack] at hread
    rw [hx]
    unfold DB.lookupUtxo
    dsimp only
    rw [hr]
    dsimp only
    rw [hread]
    rfl

/-- `lookup_utxos` answers with the unspent outputs, position by position. -/
theorem lookupUtxos_eq (hN : Numbered P)
    (h : UtxoRep P db.utxoDb utxoCache dbDeletes base view) (hh : HashesFound db base)
    {prevouts : List OutPoint} (hidx : ∀ op ∈ prevouts, op.idx < 2 ^ 32) :
    db.lookupUtxos (prevouts.map fun op ↦ (op.txid.val, op.idx)) =
      .ok (prevouts.map fun op ↦ (base op).map fun u ↦ (u.hashX.val, u.value)) := by
  have hpairs : (prevouts.map fun op ↦ (op.txid.val, op.idx)).mapM db.lookupHashX =
      .ok (prevouts.map fun op ↦ (base op).map fun u ↦ (u.hashX.val, suffix op u)) := by
    rw [List.mapM_map]
    apply mapM_of_ok
    intro op hm
    exact lookupHashX_eq hN h hh (hidx op hm)
  unfold DB.lookupUtxos
  rw [hpairs]
  change (prevouts.map fun op ↦ (base op).map fun u ↦ (u.hashX.val, suffix op u)).mapM
    db.lookupUtxo = _
  rw [List.mapM_map]
  apply mapM_of_ok
  intro op _
  exact lookupUtxo_eq hN h

end Tables

/-- `all_utxos` lists an output for a script hash. -/
def Lists (db : DB) (hashX : HashX) (utxo : UTXO) : Prop :=
  ∃ utxos, db.allUtxos hashX = .ok (some utxos) ∧ utxo ∈ utxos

/-- The two lookups agree: `all_utxos` lists each unspent output of the chain once, with its true
number, txid, height and value, and `lookup_utxos` answers position by position with what
`all_utxos` lists. -/
structure LookupsAgree (env : Env) (db : DB) (chain : List Block) : Prop where
  allUtxos : ∀ hashX : HashX, ∃ utxos, db.allUtxos hashX = .ok (some utxos) ∧ utxos.Nodup ∧
    ∀ utxo, utxo ∈ utxos ↔ ∃ op u height tx, unspent env.coin chain op = some u ∧
      u.hashX = hashX ∧ PlacedAt chain u.txNum height tx ∧ tx.txid = op.txid ∧
      utxo = ⟨u.txNum, op.idx, some op.txid.val, height, u.value⟩
  lookupUtxos : ∀ prevouts : List (Hash32 × UInt32), ∃ answers,
    db.lookupUtxos (prevouts.map fun p ↦ (p.1.val, p.2.toNat)) = .ok answers ∧
    answers.length = prevouts.length ∧
    ∀ (i : Nat) p answer, prevouts[i]? = some p → answers[i]? = some answer →
      (∀ x value, answer = some (x, value) ↔ ∃ hashX utxo, x = hashX.val ∧ Lists db hashX utxo ∧
        utxo.txHash = some p.1.val ∧ utxo.txPos = p.2.toNat ∧ utxo.value = (value : Nat)) ∧
      (answer = none ↔ ∀ hashX utxo, Lists db hashX utxo →
        ¬(utxo.txHash = some p.1.val ∧ utxo.txPos = p.2.toNat))

section Runs

variable {env : Env} {s : BlockProcessor} {chain : List Block}

/-- The lookups of an index that is fully flushed agree. -/
theorem Indexed.lookupsAgree (hi : Indexed env s chain chain chain) :
    LookupsAgree env s.db chain := by
  have hN := numbered hi.valid
  have hh : HashesFound s.db (unspent env.coin chain) :=
    hi.db.hashesFound List.prefix_rfl hi.valid.ledger.keys_nodup hi.counts_eq (.inl List.prefix_rfl)
  have hcounts : s.db.counts = counts chain := by rw [DB.counts, hi.counts_eq, Option.getD_some]
  have hlists : ∀ hashX utxo, Lists s.db hashX utxo ↔
      ∃ op u, unspent env.coin chain op = some u ∧ u.hashX = hashX ∧ utxo = utxoOf s.db op u := by
    intro hashX utxo
    obtain ⟨utxos, hall, -, hmem⟩ := allUtxos_eq hN hi.utxo hh hashX
    rw [← hmem]
    constructor
    · rintro ⟨utxos', hall', hm⟩
      rw [hall] at hall'
      cases hall'
      exact hm
    · exact fun hm ↦ ⟨utxos, hall, hm⟩
  constructor
  · intro hashX
    obtain ⟨utxos, hall, hnodup, hmem⟩ := allUtxos_eq hN hi.utxo hh hashX
    refine ⟨utxos, hall, hnodup, ?_⟩
    intro utxo
    rw [hmem]
    have hheight : ∀ n, (s.db.fsTxHash n).2 = bisectRight (counts chain) n := by
      intro n
      rw [fsTxHash_eq hi.db.files hi.db.dbHeight hcounts]
    constructor
    · rintro ⟨op, u, hb, hx, rfl⟩
      obtain ⟨tx, -, htx, hid, -⟩ := mem_created env.coin (hi.utxo.base_mem op u hb)
      obtain ⟨tx', htx', hplaced⟩ := exists_placedAt (List.getElem?_eq_some_iff.mp htx).1
      rw [htx] at htx'
      cases htx'
      exact ⟨op, u, _, tx, hb, hx, hplaced, hid.symm, by rw [utxoOf, hheight]⟩
    · rintro ⟨op, u, height, tx, hb, hx, hplaced, hid, rfl⟩
      obtain ⟨tx', -, htx, -⟩ := mem_created env.coin (hi.utxo.base_mem op u hb)
      obtain ⟨tx'', -, hplaced'⟩ := exists_placedAt (List.getElem?_eq_some_iff.mp htx).1
      exact ⟨op, u, hb, hx, by rw [utxoOf, hheight, hplaced.height_eq hplaced']⟩
  · intro prevouts
    have hlookup := @lookupUtxos_eq _ s.db _ _ _ _ hN hi.utxo hh
      (prevouts.map fun p ↦ (⟨p.1, p.2.toNat⟩ : OutPoint)) (by
        intro op hm
        obtain ⟨p, -, rfl⟩ := List.mem_map.mp hm
        exact p.2.toNat_lt)
    rw [List.map_map, List.map_map] at hlookup
    refine ⟨_, hlookup, by rw [List.length_map], ?_⟩
    intro i p answer hp ha
    rw [List.getElem?_map, hp] at ha
    cases ha
    -- What `all_utxos` lists under the prevout is its unspent output.
    have hsame : ∀ (op : OutPoint) (u : Utxo), (utxoOf s.db op u).txHash = some p.1.val →
        (utxoOf s.db op u).txPos = p.2.toNat → op = ⟨p.1, p.2.toNat⟩ := by
      rintro ⟨txid, idx⟩ u hid hidx
      cases Subtype.ext (Option.some.inj hid)
      cases hidx
      rfl
    change (∀ x value, (unspent env.coin chain ⟨p.1, p.2.toNat⟩).map
      (fun u ↦ (u.hashX.val, u.value)) = some (x, value) ↔ _) ∧
        ((unspent env.coin chain ⟨p.1, p.2.toNat⟩).map
          (fun u ↦ (u.hashX.val, u.value)) = none ↔ _)
    constructor
    · intro x value
      rw [Option.map_eq_some_iff]
      constructor
      · rintro ⟨u, hb, hx⟩
        obtain ⟨rfl, rfl⟩ := Prod.mk.inj hx
        exact ⟨u.hashX, utxoOf s.db _ u, rfl, (hlists _ _).mpr ⟨_, u, hb, rfl, rfl⟩, rfl, rfl, rfl⟩
      · rintro ⟨hashX, utxo, rfl, hl, hid, hidx, hvalue⟩
        obtain ⟨op, u, hb, rfl, rfl⟩ := (hlists _ _).mp hl
        rw [hsame op u hid hidx] at hb
        exact ⟨u, hb, Prod.ext rfl (Int.ofNat.inj hvalue)⟩
    · rw [Option.map_eq_none_iff]
      constructor
      · rintro hb hashX utxo hl ⟨hid, hidx⟩
        obtain ⟨op, u, hb', -, rfl⟩ := (hlists _ _).mp hl
        rw [hsame op u hid hidx, hb] at hb'
        cases hb'
      · intro hnone
        rw [Option.eq_none_iff_forall_ne_some]
        intro u hb
        exact hnone u.hashX (utxoOf s.db _ u) ((hlists _ _).mpr ⟨_, u, hb, rfl, rfl⟩) ⟨rfl, rfl⟩

/-- In every fully flushed state of a run whose back-ups find the undo rows of their own blocks,
the lookups agree with each other and with the chain. -/
theorem Run.lookups_agree (r : Run env (OwnUndos env) s chain) (hf : FullyFlushed s) :
    LookupsAgree env s.db chain := by
  obtain ⟨recorded, stored, hi⟩ := r.indexed
  exact (hi.of_fullyFlushed hf).lookupsAgree

end Runs

theorem sampleAdvance_lookups_agree : ∃ s, sampleAdvance = .ok s ∧
    LookupsAgree sampleEnv s.db [sampleGenesis, sampleA] := by
  obtain ⟨s, hs, hf⟩ : ∃ s, sampleAdvance = .ok s ∧ FullyFlushed s := by decide +kernel
  have r : Run sampleEnv (OwnUndos sampleEnv) s _ := sampleAdvance_run hs
  exact ⟨s, hs, r.lookups_agree hf⟩

/-! ### Lookups between two awaits -/

/-- The DB at any await of a run: in one of its states, or with blocks backed up in memory. -/
inductive RunDB (env : Env) (guard : DB → List Block → List Block → Prop) : DB → List Block → Prop
  | settled {s : BlockProcessor} {chain : List Block} (r : Run env guard s chain) :
      RunDB env guard s.db chain
  | backingUp {s s' : BlockProcessor} {chain blocks : List Block}
      (r : Run env guard s (chain ++ blocks)) (hne : blocks ≠ [])
      (h : s.backupBlocks env (blocks.map (·.raw)).reverse = .ok s') :
      RunDB env guard s'.db (chain ++ blocks)

/-- The blocks of a chain that are in the tables of the DB. -/
def shownChain (db : DB) (chain : List Block) : List Block := chain.take (db.dbHeight + 1).toNat

section Shown

variable {env : Env} {db : DB} {chain : List Block}

theorem Indexed.shownChain_eq {s : BlockProcessor} {recorded stored : List Block}
    (h : Indexed env s recorded stored chain) : shownChain s.db chain = recorded := by
  have hlen : (s.db.dbHeight + 1).toNat = recorded.length := by
    have := h.db.dbHeight
    omega
  rw [shownChain, hlen]
  exact (List.prefix_iff_eq_take.mp (h.recorded_prefix.trans h.stored_prefix)).symm

/-- At any await of a run whose back-ups find the undo rows of their own blocks, the tables show
the unspent outputs of the blocks that they have, and the txids of these outputs are found. -/
theorem RunDB.shows (h : RunDB env (OwnUndos env) db chain) : ValidChain env.coin chain ∧
    HashesFound db (unspent env.coin (shownChain db chain)) ∧
    ∃ utxoCache dbDeletes, UtxoRep (Ledger.created (ledger env.coin chain)) db.utxoDb utxoCache
      dbDeletes (unspent env.coin (shownChain db chain)) (unspent env.coin chain) := by
  cases h with
  | settled r =>
    obtain ⟨recorded, stored, hi⟩ := r.indexed
    have hr := hi.recorded_prefix.trans hi.stored_prefix
    have hv : ValidChain env.coin recorded := by
      obtain ⟨_, hc⟩ := hr
      exact (hc ▸ hi.valid).left
    rw [hi.shownChain_eq]
    exact ⟨hi.valid, hi.db.hashesFound hi.recorded_prefix hv.ledger.keys_nodup hi.counts_eq
      (.inl hr), _, _, hi.utxo⟩
  | @backingUp s s' c bs r hne h =>
    obtain ⟨recorded, stored, hi⟩ := r.indexed
    obtain ⟨_, hf, -⟩ := bind_eq_ok.mp h
    have hi := hi.of_fullyFlushed hf
    obtain ⟨hutxo, hheight, hfound⟩ := hi.kept.fsTxHash_of_backupBlocks hne h
    have hshown : shownChain s'.db (c ++ bs) = c ++ bs := by
      rw [shownChain, hheight]
      exact hi.shownChain_eq
    rw [hshown, hutxo]
    refine ⟨hi.valid, fun op u hu ↦ ?_, _, _, hi.utxo⟩
    obtain ⟨tx, -, htx, hid, -⟩ := mem_created env.coin (hi.utxo.base_mem op u hu)
    rw [hid]
    exact hfound _ tx htx

end Shown

/-- After the stale undo row of block `a` has been used, the output of the first block is missing,
and the output that `all_utxos` finds for the other script has a number beyond the chain. -/
theorem sampleStale_utxos : ∃ s, sampleStale = .ok s ∧ FullyFlushed s ∧
    s.db.allUtxos (staleEnv.coin.hashXFromScript [2]) = .ok (some []) ∧
    s.db.allUtxos (staleEnv.coin.hashXFromScript [1]) = .ok none := by
  decide +kernel

/-- Also when every block that is backed up is one that `get_raw_blocks` has got, the lookups need
not agree. -/
theorem not_lookups_agree : ¬ ∀ (env : Env) (s : BlockProcessor) (chain : List Block),
    Run env (Received env) s chain → FullyFlushed s → LookupsAgree env s.db chain := by
  intro h
  obtain ⟨s, hs, hf, hu, -⟩ := sampleStale_utxos
  obtain ⟨utxos, hall, -, hmem⟩ := (h _ _ _ (sampleStale_run hs) hf).allUtxos
    (staleEnv.coin.hashXFromScript [2])
  rw [hu] at hall
  cases hall
  have hplaced : PlacedAt [sampleGenesis] 0 0 (samplePayment [10] 5 [2]) :=
    ⟨sampleGenesis, 0, rfl, rfl, rfl⟩
  have hm := (hmem ⟨0, 0, some (sampleHash [10]).val, 0, 5⟩).mpr
    ⟨⟨sampleHash [10], 0⟩, ⟨sampleCoin.hashXFromScript [2], 0, 5⟩, 0, _, by decide +kernel, rfl,
      hplaced, rfl, rfl⟩
  cases hm

end ElectrumX.Index
