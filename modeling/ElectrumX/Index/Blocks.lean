import ElectrumX.Index.Utxo

/-!
# Blocks over the UTXO index

The loops that advance and back up the transactions of a block, over the ledger of the
chain. Advancing turns the unspent outputs of a ledger into those of the ledger with the
block's entries, and returns the outputs that they spend; backing up undoes it from that
list, popping it backwards.
-/

namespace ElectrumX.Index
open ElectrumX.Base ElectrumX.Lib ElectrumX.Chain ElectrumX.Server

variable {P : List (OutPoint × Utxo)} {db : DB} {utxoCache : Table} {dbDeletes : List Bytes}
variable {base view : OutPoint → Option Utxo}

/-- The DB finds the txid of every output in its tables. -/
def HashesFound (db : DB) (base : OutPoint → Option Utxo) : Prop :=
  ∀ op u, base op = some u → (db.fsTxHash u.txNum).1 = some op.txid.val

theorem spends_cons (txin : TxInput) (rest : List TxInput) :
    spends (txin :: rest) =
      if txin.isGeneration then spends rest else outpoint txin :: spends rest := by
  unfold spends
  by_cases hg : txin.isGeneration <;> simp [hg]

theorem pays_cons (coin : Coin) (isUnspendable : Bytes → Bool) (txid : Hash32) (n idx : Nat)
    (txout : TxOutput) (rest : List TxOutput) :
    pays coin isUnspendable txid n idx (txout :: rest) =
      if isUnspendable txout.pkScript then pays coin isUnspendable txid n (idx + 1) rest
      else (⟨txid, idx⟩, ⟨coin.hashXFromScript txout.pkScript, n, txout.value.toNat⟩) ::
        pays coin isUnspendable txid n (idx + 1) rest := by
  unfold pays
  by_cases hg : isUnspendable txout.pkScript <;> simp [List.zipIdx_cons, hg]

/-! ### Advancing -/

/-- The inputs loop spends the outputs that the inputs name. -/
theorem UtxoRep.spendInputs (txins : List TxInput) (hN : Numbered P) (hh : HashesFound db base)
    (h : UtxoRep P db.utxoDb utxoCache dbDeletes base view)
    (hl : ∀ op ∈ spends txins, ∃ u, view op = some u) (hn : (spends txins).Nodup) :
    ∃ utxoCache' dbDeletes', BlockProcessor.spendInputs db utxoCache dbDeletes txins =
        .ok (((spends txins).filterMap view).map packed, utxoCache', dbDeletes') ∧
      UtxoRep P db.utxoDb utxoCache' dbDeletes' base (Ledger.spendAll view (spends txins)) := by
  induction txins generalizing utxoCache dbDeletes view with
  | nil => exact ⟨utxoCache, dbDeletes, rfl, h⟩
  | cons txin rest ih =>
    rw [spends_cons] at hl hn ⊢
    unfold BlockProcessor.spendInputs
    split at hl
    · next hg =>
      rw [if_pos hg] at hn
      simp only [if_pos hg]
      exact ih h hl hn
    · next hg =>
      rw [if_neg hg, List.nodup_cons] at hn
      obtain ⟨u, hu⟩ := hl _ List.mem_cons_self
      obtain ⟨c1, d1, hs, h1⟩ := h.spendUtxo hN hh hu
      have hne : ∀ op ∈ spends rest, op ≠ outpoint txin := by
        rintro op hop rfl
        exact hn.1 hop
      obtain ⟨c2, d2, hr, h2⟩ := ih h1 (by
        intro op hop
        rw [Function.update_of_ne (hne op hop)]
        exact hl op (List.mem_cons_of_mem _ hop)) hn.2
      refine ⟨c2, d2, ?_, ?_⟩
      · have hf : (spends rest).filterMap (Function.update view (outpoint txin) none) =
            (spends rest).filterMap view :=
          List.filterMap_congr fun op hop ↦ Function.update_of_ne (hne op hop) ..
        rw [hf] at hr
        change BlockProcessor.spendUtxo db utxoCache dbDeletes txin.prevHash.val
          txin.prevIdx.toNat = _ at hs
        simp only [if_neg hg, hs, hr, bind, Except.bind, pure, Except.pure,
          List.filterMap_cons, hu, List.map_cons]
      · rw [if_neg hg]
        exact h2

/-- The outputs loop adds the spendable outputs. -/
theorem UtxoRep.addOutputs (env : Env) (isUnspendable : Bytes → Bool) (txid : Hash32)
    (n idx : Nat) (txouts : List TxOutput) (hN : Numbered P)
    (h : UtxoRep P db.utxoDb utxoCache dbDeletes base view)
    (hm : ∀ p ∈ pays env.coin isUnspendable txid n idx txouts, p ∈ P ∧ base p.1 = none)
    (hi : idx + txouts.length ≤ 2 ^ 32)
    (hv : ∀ txout ∈ txouts, 0 ≤ txout.value ∧ txout.value < 2 ^ 63) :
    ∃ utxoCache', BlockProcessor.addOutputs env isUnspendable txid.val (packLE txnumLen n) idx
        utxoCache txouts =
          .ok ((pays env.coin isUnspendable txid n idx txouts).map (·.2.hashX.val), utxoCache') ∧
      UtxoRep P db.utxoDb utxoCache' dbDeletes base
        (Ledger.createAll view (pays env.coin isUnspendable txid n idx txouts)) := by
  induction txouts generalizing utxoCache view idx with
  | nil => exact ⟨utxoCache, rfl, h⟩
  | cons txout rest ih =>
    rw [List.length_cons] at hi
    have hvr := fun o ho ↦ hv o (List.mem_cons_of_mem _ ho)
    rw [pays_cons] at hm ⊢
    unfold BlockProcessor.addOutputs
    by_cases hg : isUnspendable txout.pkScript
    · rw [if_pos hg] at hm ⊢
      simp only [if_pos hg]
      exact ih (idx + 1) h hm (by omega) hvr
    · simp only [if_neg hg] at hm ⊢
      obtain ⟨hp, hb⟩ := hm _ List.mem_cons_self
      obtain ⟨c, hr, hc⟩ := ih (idx + 1) (h.put hN hp hb) (fun p hp ↦ hm p (List.mem_cons_of_mem _ hp))
        (by omega) hvr
      refine ⟨c, ?_, hc⟩
      obtain ⟨h0, h63⟩ := hv txout List.mem_cons_self
      have hpack : packLeUint64 txout.value = .ok (packLE 8 txout.value.toNat) := by
        rw [packLeUint64, if_pos ⟨h0, by omega⟩]
      rw [packLeUint32_of_lt (by omega), hpack]
      simp only [cacheKey, packed] at hr
      simp only [bind, Except.bind, pure, Except.pure, hr, List.map_cons]

/-- In a valid ledger the outputs that an entry spends are those that its outpoints name. -/
theorem filterMap_live (es : List Entry) {L : List Entry} {e : Entry} (hL : Ledger.Valid (L ++ [e])) :
    e.spends.filterMap (Ledger.live L) = e.spends.filterMap (origin (L ++ es)) := by
  apply List.filterMap_congr
  intro op hop
  obtain ⟨u, hu, hm⟩ := hL.live_of_spends hop
  have ho := (Ledger.lookup_eq_some_iff hL.left.keys_nodup).mpr hm
  rw [hu, origin, Ledger.created_append, List.lookup_append, ho, Option.some_or]

/-- The loop over the transactions turns the unspent outputs of a ledger into those of the
ledger with the block's entries. -/
theorem UtxoRep.advanceLoop (env : Env) {isUnspendable : Bytes → Bool} {n : Nat}
    (ts : List Tx) {L : List Entry} (hN : Numbered P) (hh : HashesFound db base)
    (h : UtxoRep P db.utxoDb utxoCache dbDeletes base (Ledger.live L))
    (hL : Ledger.Valid (L ++ entries env.coin isUnspendable n ts))
    (hP : ∀ p ∈ Ledger.created (entries env.coin isUnspendable n ts), p ∈ P)
    (hb : ∀ op u, base op = some u → op ∈ (Ledger.created L).map Prod.fst)
    (hn : n + ts.length ≤ 2 ^ 40) (ho : ∀ tx ∈ ts, tx.outputs.length ≤ 2 ^ 32)
    (hv : ∀ tx ∈ ts, ∀ txout ∈ tx.outputs, 0 ≤ txout.value ∧ txout.value < 2 ^ 63) :
    ∃ utxoCache' dbDeletes',
      BlockProcessor.advanceLoop env isUnspendable db n utxoCache dbDeletes ts =
        .ok ((((entries env.coin isUnspendable n ts).flatMap (·.spends)).filterMap
            (origin (L ++ entries env.coin isUnspendable n ts))).map packed,
          (entries env.coin isUnspendable n ts).map fun e ↦
            (hashXsOf (L ++ entries env.coin isUnspendable n ts) e).map (·.val),
          utxoCache', dbDeletes') ∧
      UtxoRep P db.utxoDb utxoCache' dbDeletes' base
        (Ledger.live (L ++ entries env.coin isUnspendable n ts)) := by
  induction ts generalizing utxoCache dbDeletes L n with
  | nil =>
    rw [entries, List.zipIdx_nil, List.map_nil, List.append_nil]
    exact ⟨utxoCache, dbDeletes, rfl, h⟩
  | cons tx rest ih =>
    set e := entry env.coin isUnspendable n tx with he
    set es := entries env.coin isUnspendable (n + 1) rest with hes
    have hcons : entries env.coin isUnspendable n (tx :: rest) = e :: es := entries_cons ..
    have hassoc : L ++ e :: es = (L ++ [e]) ++ es := by simp
    rw [hcons] at hL hP ⊢
    rw [hassoc] at hL ⊢
    have hLe : Ledger.Valid (L ++ [e]) := hL.left
    rw [List.length_cons] at hn
    -- The inputs of this transaction, then its outputs.
    obtain ⟨c1, d1, hs, h1⟩ := h.spendInputs tx.inputs hN hh (fun op hop ↦ by
      obtain ⟨u, hu, -⟩ := hLe.live_of_spends (e := e) hop
      exact ⟨u, hu⟩) hLe.spends_nodup
    obtain ⟨c2, ha, h2⟩ := h1.addOutputs env isUnspendable tx.txid n 0 tx.outputs hN
      (fun p hp ↦ by
        refine ⟨hP p (List.mem_flatMap.mpr ⟨e, List.mem_cons_self, hp⟩), ?_⟩
        rw [Option.eq_none_iff_forall_ne_some]
        intro u hu
        exact hLe.notMem_of_creates (e := e) (List.mem_map.mpr ⟨p, hp, rfl⟩) (hb _ _ hu))
      (by have := ho tx List.mem_cons_self; omega) (hv tx List.mem_cons_self)
    rw [show Ledger.createAll (Ledger.spendAll (Ledger.live L) (spends tx.inputs))
      (pays env.coin isUnspendable tx.txid n 0 tx.outputs) = Ledger.live (L ++ [e]) from
        (Ledger.live_concat hLe).symm] at h2
    -- The other transactions.
    obtain ⟨c3, d3, hr, h3⟩ := ih (n := n + 1) (L := L ++ [e]) h2 hL
      (fun p hp ↦ hP p (by
        obtain ⟨x, hx, hpx⟩ := List.mem_flatMap.mp hp
        exact List.mem_flatMap.mpr ⟨x, List.mem_cons_of_mem _ hx, hpx⟩))
      (fun op u hu ↦ by
        rw [Ledger.created_append, List.map_append]
        exact List.mem_append_left _ (hb op u hu))
      (by omega) (fun t ht ↦ ho t (List.mem_cons_of_mem _ ht))
      (fun t ht ↦ hv t (List.mem_cons_of_mem _ ht))
    refine ⟨c3, d3, ?_, h3⟩
    have hspent := filterMap_live ([e] ++ es) hLe
    rw [← List.append_assoc] at hspent
    change (spends tx.inputs).filterMap _ = _ at hspent
    have hx : ((e.spends.filterMap (origin (L ++ [e] ++ es))).map packed).map
          (fun v ↦ v.take hashXLen) ++ e.creates.map (·.2.hashX.val) =
        (hashXsOf (L ++ [e] ++ es) e).map (·.val) := by
      rw [hashXsOf, List.map_append, List.map_map, List.map_map, List.map_map]
      congr 1
      exact List.map_congr_left fun u _ ↦ take_packed u
    have hnum : packLeUint64 (n : Int) = .ok (packLE 8 n) := packLeUint64_of_lt (by omega)
    rw [BlockProcessor.advanceLoop, hnum]
    simp only [bind, Except.bind, pure, Except.pure, hs, take_packLE n (by decide : txnumLen ≤ 8),
      ha, hr, hspent, List.flatMap_cons, List.filterMap_append, List.map_append, List.map_cons]
    rw [← hx]
    rfl

/-! ### Backing up -/

/-- The outputs loop of the backup spends the outputs that the transaction had created. -/
theorem UtxoRep.spendOutputs (coin : Coin) (isUnspendable : Bytes → Bool) (txid : Hash32)
    (n idx : Nat) (txouts : List TxOutput) (touched : Std.ExtTreeSet Bytes) (hN : Numbered P)
    (hh : HashesFound db base) (h : UtxoRep P db.utxoDb utxoCache dbDeletes base view)
    (hv : ∀ p ∈ pays coin isUnspendable txid n idx txouts, view p.1 = some p.2)
    (hn : ((pays coin isUnspendable txid n idx txouts).map Prod.fst).Nodup) :
    ∃ utxoCache' dbDeletes' touched',
      BlockProcessor.spendOutputs isUnspendable db txid.val idx utxoCache dbDeletes touched
        txouts = .ok (utxoCache', dbDeletes', touched') ∧
      UtxoRep P db.utxoDb utxoCache' dbDeletes' base (Ledger.spendAll view
        ((pays coin isUnspendable txid n idx txouts).map Prod.fst)) ∧
      ∀ x, x ∈ touched' ↔
        x ∈ touched ∨ ∃ p ∈ pays coin isUnspendable txid n idx txouts, x = p.2.hashX.val := by
  induction txouts generalizing utxoCache dbDeletes touched view idx with
  | nil => exact ⟨utxoCache, dbDeletes, touched, rfl, h, fun x ↦ by simp [pays]⟩
  | cons txout rest ih =>
    rw [pays_cons] at hv hn ⊢
    unfold BlockProcessor.spendOutputs
    by_cases hg : isUnspendable txout.pkScript
    · simp only [if_pos hg] at hv hn ⊢
      exact ih (idx + 1) touched h hv hn
    · simp only [if_neg hg] at hv hn ⊢
      rw [List.map_cons, List.nodup_cons] at hn
      have hu := hv _ List.mem_cons_self
      set u : Utxo := ⟨coin.hashXFromScript txout.pkScript, n, txout.value.toNat⟩
      obtain ⟨c1, d1, hs, h1⟩ := h.spendUtxo hN hh hu
      obtain ⟨c2, d2, t2, hr, h2, ht⟩ := ih (idx + 1)
        (touched.insert ((packed u).take hashXLen)) h1 (by
        intro p hp
        rw [Function.update_of_ne, hv p (List.mem_cons_of_mem _ hp)]
        rintro he
        exact hn.1 (List.mem_map.mpr ⟨p, hp, he⟩)) hn.2
      refine ⟨c2, d2, t2, ?_, h2, fun x ↦ ?_⟩
      · simp only [hs, hr, bind, Except.bind]
      · rw [ht, Std.ExtTreeSet.mem_insert, take_packed, Std.LawfulEqCmp.compare_eq_iff_eq]
        simp only [List.mem_cons, exists_eq_or_imp]
        grind

/-- The inputs loop of the backup pops the undo entries of the inputs from the end. -/
theorem UtxoRep.restoreInputs {undoInfo pre : Bytes} (rest : Bytes) {txins : List TxInput}
    {ps : List (OutPoint × Utxo)} (touched : Std.ExtTreeSet Bytes) (hN : Numbered P)
    (h : UtxoRep P db.utxoDb utxoCache dbDeletes base view)
    (hs : ps.map Prod.fst = spends txins) (hm : ∀ p ∈ ps, p ∈ P ∧ base p.1 = none)
    (hu : undoInfo = pre ++ (ps.reverse.flatMap fun p ↦ packed p.2) ++ rest) :
    ∃ utxoCache' touched',
      BlockProcessor.restoreInputs undoInfo
        ((pre ++ ps.reverse.flatMap fun p ↦ packed p.2).length : Nat) utxoCache touched txins =
          ((pre.length : Int), utxoCache', touched') ∧
      UtxoRep P db.utxoDb utxoCache' dbDeletes base (Ledger.createAll view ps) ∧
      ∀ x, x ∈ touched' ↔ x ∈ touched ∨ ∃ p ∈ ps, x = p.2.hashX.val := by
  induction txins generalizing ps utxoCache touched view rest with
  | nil =>
    obtain rfl : ps = [] := List.map_eq_nil_iff.mp hs
    exact ⟨utxoCache, touched, by simp [BlockProcessor.restoreInputs], h, fun x ↦ by simp⟩
  | cons txin txins ih =>
    rw [spends_cons] at hs
    unfold BlockProcessor.restoreInputs
    by_cases hg : txin.isGeneration
    · rw [if_pos hg] at hs
      rw [if_pos hg]
      exact ih rest touched h hs hm hu
    · rw [if_neg hg] at hs
      obtain ⟨⟨op, u⟩, ps', rfl, ho, hs'⟩ := List.map_eq_cons_iff.mp hs
      change op = _ at ho
      subst ho
      obtain ⟨hp, hb⟩ := hm _ List.mem_cons_self
      have hrev : ((outpoint txin, u) :: ps').reverse.flatMap (fun p ↦ packed p.2) =
          ps'.reverse.flatMap (fun p ↦ packed p.2) ++ packed u := by simp
      rw [hrev] at hu ⊢
      set a := pre ++ ps'.reverse.flatMap fun p ↦ packed p.2 with ha
      have hn : (((pre ++ (ps'.reverse.flatMap (fun p ↦ packed p.2) ++ packed u)).length : Nat) :
          Int) - undoEntryLen = a.length := by
        rw [← List.append_assoc, ← ha, List.length_append, length_packed]
        omega
      have hslice : pySlice undoInfo (a.length : Int) (a.length + undoEntryLen) = packed u := by
        rw [hu, ← List.append_assoc, ← ha, ← length_packed u]
        exact pySlice_append a (packed u) rest
      obtain ⟨c, t, hr, hc, ht⟩ := ih (packed u ++ rest) (touched.insert u.hashX.val)
        (h.put hN hp hb) hs' (fun p hp ↦ hm p (List.mem_cons_of_mem _ hp)) (by
          rw [hu, ← List.append_assoc, ← ha, List.append_assoc])
      refine ⟨c, t, ?_, hc, fun x ↦ ?_⟩
      · simp only [if_neg hg, hn, hslice, take_packed]
        exact hr
      · rw [ht, Std.ExtTreeSet.mem_insert, Std.LawfulEqCmp.compare_eq_iff_eq]
        simp only [List.mem_cons, exists_eq_or_imp]
        grind

/-- Later entries do not change what an outpoint created earlier names. -/
theorem origin_append {a b : List Entry} {op : OutPoint}
    (h : op ∈ (Ledger.created a).map Prod.fst) : origin (a ++ b) op = origin a op := by
  rw [origin, origin, Ledger.created_append, List.lookup_append]
  cases ho : (Ledger.created a).lookup op with
  | none => exact absurd h (Ledger.lookup_eq_none_iff_notMem.mp ho)
  | some u => rfl

theorem hashXsOf_append {a b : List Entry} (h : Ledger.Closed a) {e : Entry} (he : e ∈ a) :
    hashXsOf (a ++ b) e = hashXsOf a e := by
  have hs : e.spends.filterMap (origin (a ++ b)) = e.spends.filterMap (origin a) := by
    apply List.filterMap_congr
    intro op hop
    exact origin_append (h op (List.mem_flatMap.mpr ⟨e, he, hop⟩))
  rw [hashXsOf, hashXsOf, hs]

/-- The outpoints with the outputs that they name. -/
def named (L : List Entry) (ops : List OutPoint) : List (OutPoint × Utxo) :=
  ops.filterMap fun op ↦ (origin L op).map fun u ↦ (op, u)

theorem named_snd (L : List Entry) (ops : List OutPoint) :
    (named L ops).flatMap (fun p ↦ packed p.2) = (ops.filterMap (origin L)).flatMap packed := by
  induction ops with
  | nil => rfl
  | cons op ops ih =>
    rw [named] at ih ⊢
    cases ho : origin L op with
    | none => simp [ho, ih]
    | some u => simp [ho, ih]

theorem named_fst {L : List Entry} {ops : List OutPoint}
    (h : ∀ op ∈ ops, ∃ u, origin L op = some u) : (named L ops).map Prod.fst = ops := by
  induction ops with
  | nil => rfl
  | cons op ops ih =>
    obtain ⟨u, hu⟩ := h op List.mem_cons_self
    have ht := ih fun op hop ↦ h op (List.mem_cons_of_mem _ hop)
    rw [named] at ht ⊢
    simp [hu, ht]

theorem mem_named {L : List Entry} {ops : List OutPoint} {p : OutPoint × Utxo} :
    p ∈ named L ops ↔ p.1 ∈ ops ∧ origin L p.1 = some p.2 := by
  rw [named, List.mem_filterMap]
  constructor
  · rintro ⟨op, hop, ho⟩
    obtain ⟨u, hu, rfl⟩ := Option.map_eq_some_iff.mp ho
    exact ⟨hop, hu⟩
  · rintro ⟨hop, hu⟩
    exact ⟨p.1, hop, by rw [hu]; rfl⟩

theorem entries_append (coin : Coin) (isUnspendable : Bytes → Bool) (n : Nat) (ts : List Tx)
    (tx : Tx) : entries coin isUnspendable n (ts ++ [tx]) =
      entries coin isUnspendable n ts ++ [entry coin isUnspendable (n + ts.length) tx] := by
  simp [entries, List.zipIdx_append]

/-- Outputs spent by the last entry name the same outputs with and without it. -/
private theorem filterMap_origin_concat {L : List Entry} {e : Entry}
    (hL : Ledger.Valid (L ++ [e])) :
    e.spends.filterMap (origin (L ++ [e])) = e.spends.filterMap (origin L) := by
  apply List.filterMap_congr
  intro op hop
  obtain ⟨u, -, hm⟩ := hL.live_of_spends hop
  exact origin_append (List.mem_map.mpr ⟨_, hm, rfl⟩)

/-- One transaction of the backup: its outputs are spent and its inputs put back. -/
private theorem backupTx (coin : Coin) {isUnspendable : Bytes → Bool} {n : Nat} {tx : Tx}
    {L : List Entry} {undoInfo pre rest : Bytes} (touched : Std.ExtTreeSet Bytes)
    (hN : Numbered P) (hh : HashesFound db base)
    (hL : Ledger.Valid (L ++ [entry coin isUnspendable n tx]))
    (h : UtxoRep P db.utxoDb utxoCache dbDeletes base
      (Ledger.live (L ++ [entry coin isUnspendable n tx])))
    (hP : ∀ p ∈ Ledger.created L, p ∈ P) (hb : ∀ op ∈ spends tx.inputs, base op = none)
    (hu : undoInfo = pre ++ ((spends tx.inputs).filterMap (origin L)).flatMap packed ++ rest) :
    ∃ c1 d1 t1 c2 t2,
      BlockProcessor.spendOutputs isUnspendable db tx.txid.val 0 utxoCache dbDeletes touched
        tx.outputs = .ok (c1, d1, t1) ∧
      BlockProcessor.restoreInputs undoInfo
        ((pre ++ ((spends tx.inputs).filterMap (origin L)).flatMap packed).length : Nat) c1 t1
          tx.inputs.reverse = ((pre.length : Int), c2, t2) ∧
      UtxoRep P db.utxoDb c2 d1 base (Ledger.live L) ∧
      ∀ x, x ∈ t2 ↔ x ∈ touched ∨
        ∃ hashX ∈ hashXsOf L (entry coin isUnspendable n tx), x = hashX.val := by
  set e := entry coin isUnspendable n tx
  obtain ⟨c1, d1, t1, hs, h1, ht1⟩ := h.spendOutputs coin isUnspendable tx.txid n 0 tx.outputs
    touched hN hh (fun p hp ↦ by
      rw [Ledger.live_eq_some_iff hL, Ledger.created_concat]
      exact ⟨List.mem_append_right _ hp,
        hL.creates_not_spent (List.mem_map.mpr ⟨p, hp, rfl⟩)⟩) hL.creates_nodup
  have hview : Ledger.spendAll (Ledger.live (L ++ [e]))
      ((pays coin isUnspendable tx.txid n 0 tx.outputs).map Prod.fst) =
        Ledger.spendAll (Ledger.live L) e.spends := Ledger.spendAll_creates hL
  rw [hview] at h1
  -- The outputs to put back, in the order of the reversed inputs.
  have ho : ∀ op ∈ e.spends, ∃ u, origin L op = some u := by
    intro op hop
    obtain ⟨u, -, hm⟩ := hL.live_of_spends hop
    exact ⟨u, (Ledger.lookup_eq_some_iff hL.left.keys_nodup).mpr hm⟩
  set ps := (named L e.spends).reverse with hps
  have hfst : ps.map Prod.fst = e.spends.reverse := by
    rw [hps, List.map_reverse, named_fst ho]
  have hrev : spends tx.inputs.reverse = e.spends.reverse := by
    rw [spends, List.filter_reverse, List.map_reverse]
    rfl
  have hcr : ∀ p ∈ ps, p.1 ∈ e.spends ∧ p ∈ Ledger.created L := by
    intro p hp
    obtain ⟨hop, ho⟩ := mem_named.mp (List.mem_reverse.mp hp)
    exact ⟨hop, (Ledger.lookup_eq_some_iff hL.left.keys_nodup).mp ho⟩
  have hpk : ps.reverse.flatMap (fun p ↦ packed p.2) =
      ((spends tx.inputs).filterMap (origin L)).flatMap packed := by
    rw [hps, List.reverse_reverse, named_snd]
    rfl
  have hu' : undoInfo = pre ++ ps.reverse.flatMap (fun p ↦ packed p.2) ++ rest := by
    rw [hpk]
    exact hu
  obtain ⟨c2, t2, hr, h2, ht2⟩ := h1.restoreInputs rest t1 hN (hfst.trans hrev.symm)
    (fun p hp ↦ ⟨hP _ (hcr p hp).2, hb _ (hcr p hp).1⟩) hu'
  have hback : Ledger.createAll (Ledger.spendAll (Ledger.live L) e.spends) ps =
      Ledger.live L := by
    apply Ledger.createAll_spends hL
    · intro op
      rw [hfst, List.mem_reverse]
    · rw [hfst, List.nodup_reverse]
      exact hL.spends_nodup
    · exact fun p hp ↦ (hcr p hp).2
  rw [hback] at h2
  rw [hpk] at hr
  refine ⟨c1, d1, t1, c2, t2, hs, hr, h2, fun x ↦ ?_⟩
  have hx1 : (∃ p ∈ ps, x = p.2.hashX.val) ↔
      ∃ u ∈ e.spends.filterMap (origin L), x = u.hashX.val := by
    constructor
    · rintro ⟨p, hp, rfl⟩
      obtain ⟨hop, ho⟩ := mem_named.mp (List.mem_reverse.mp hp)
      exact ⟨p.2, List.mem_filterMap.mpr ⟨p.1, hop, ho⟩, rfl⟩
    · rintro ⟨u, hu, rfl⟩
      obtain ⟨op, hop, ho⟩ := List.mem_filterMap.mp hu
      exact ⟨(op, u), List.mem_reverse.mpr (mem_named.mpr ⟨hop, ho⟩), rfl⟩
  rw [ht2, ht1, hx1, hashXsOf]
  simp only [List.mem_append, List.mem_map, or_and_right, exists_or, exists_exists_and_eq_and,
    or_assoc]
  exact or_congr_right or_comm

/-- The loop over the reversed transactions turns the unspent outputs of the ledger with the
block's entries back into those of the ledger without them, using up the undo information. -/
theorem UtxoRep.backupLoop (coin : Coin) {isUnspendable : Bytes → Bool} {n : Nat}
    {ts : List Tx} {L : List Entry} {undoInfo rest : Bytes} (touched : Std.ExtTreeSet Bytes)
    (hN : Numbered P) (hh : HashesFound db base)
    (hL : Ledger.Valid (L ++ entries coin isUnspendable n ts))
    (h : UtxoRep P db.utxoDb utxoCache dbDeletes base
      (Ledger.live (L ++ entries coin isUnspendable n ts)))
    (hP : ∀ p ∈ Ledger.created (L ++ entries coin isUnspendable n ts), p ∈ P)
    (hb : ∀ op ∈ (entries coin isUnspendable n ts).flatMap (·.spends), base op = none)
    (hu : undoInfo = (((entries coin isUnspendable n ts).flatMap (·.spends)).filterMap
      (origin (L ++ entries coin isUnspendable n ts))).flatMap packed ++ rest) :
    ∃ utxoCache' dbDeletes' touched',
      BlockProcessor.backupLoop isUnspendable db undoInfo
        (((((entries coin isUnspendable n ts).flatMap (·.spends)).filterMap
          (origin (L ++ entries coin isUnspendable n ts))).flatMap packed).length : Nat)
        utxoCache dbDeletes touched ts.reverse = .ok (0, utxoCache', dbDeletes', touched') ∧
      UtxoRep P db.utxoDb utxoCache' dbDeletes' base (Ledger.live L) ∧
      ∀ x, x ∈ touched' ↔ x ∈ touched ∨ ∃ e ∈ entries coin isUnspendable n ts,
        ∃ hashX ∈ hashXsOf (L ++ entries coin isUnspendable n ts) e, x = hashX.val := by
  induction ts using List.reverseRecOn generalizing utxoCache dbDeletes touched rest with
  | nil =>
    have hnil : entries coin isUnspendable n [] = [] := rfl
    rw [hnil, List.append_nil] at h
    rw [hnil]
    exact ⟨utxoCache, dbDeletes, touched, rfl, h, fun x ↦ by simp⟩
  | append_singleton ts tx ih =>
    set es := entries coin isUnspendable n ts with hes
    set e := entry coin isUnspendable (n + ts.length) tx with he
    have hcat : entries coin isUnspendable n (ts ++ [tx]) = es ++ [e] := entries_append ..
    rw [hcat, ← List.append_assoc] at hL h hP hu
    rw [hcat] at hb
    rw [hcat, ← List.append_assoc]
    -- The undo entries of the last transaction lie behind those of the others.
    have hpre : (es.flatMap (·.spends)).filterMap (origin (L ++ es ++ [e])) =
        (es.flatMap (·.spends)).filterMap (origin (L ++ es)) := by
      apply List.filterMap_congr
      intro op hop
      obtain ⟨x, hx, hop'⟩ := List.mem_flatMap.mp hop
      exact origin_append (hL.left.spent_subset
        (List.mem_flatMap.mpr ⟨x, List.mem_append_right _ hx, hop'⟩))
    have hundo : ((es ++ [e]).flatMap (·.spends)).filterMap (origin (L ++ es ++ [e])) =
        (es.flatMap (·.spends)).filterMap (origin (L ++ es)) ++
          e.spends.filterMap (origin (L ++ es)) := by
      rw [List.flatMap_append, List.filterMap_append, hpre, List.flatMap_singleton,
        filterMap_origin_concat hL]
    rw [hundo, List.flatMap_append] at hu ⊢
    obtain ⟨c1, d1, t1, c2, t2, hs, hr, h2, ht2⟩ := backupTx coin touched hN hh hL h
      (fun p hp ↦ hP p (by
        rw [Ledger.created_concat]
        exact List.mem_append_left _ hp))
      (fun op hop ↦ hb op (List.mem_flatMap.mpr ⟨e, by simp, hop⟩)) hu
    obtain ⟨c3, d3, t3, hr3, h3, ht3⟩ := ih t2 hL.left h2
      (fun p hp ↦ hP p (by
        rw [Ledger.created_concat]
        exact List.mem_append_left _ hp))
      (fun op hop ↦ hb op (by
        rw [List.flatMap_append]
        exact List.mem_append_left _ hop)) (by rw [hu, List.append_assoc])
    refine ⟨c3, d3, t3, ?_, h3, fun x ↦ ?_⟩
    · rw [List.reverse_concat, BlockProcessor.backupLoop]
      change BlockProcessor.restoreInputs undoInfo ((_ ++
        (e.spends.filterMap (origin (L ++ es))).flatMap packed).length : Nat) _ _ _ = _ at hr
      simp only [hs, hr, bind, Except.bind, hr3]
    · have hold : (∃ a ∈ es, ∃ hashX ∈ hashXsOf (L ++ es ++ [e]) a, x = hashX.val) ↔
          ∃ a ∈ es, ∃ hashX ∈ hashXsOf (L ++ es) a, x = hashX.val := by
        refine exists_congr fun a ↦ and_congr_right fun ha ↦ ?_
        rw [hashXsOf_append hL.left.closed (List.mem_append_right _ ha)]
      have hlast : hashXsOf (L ++ es ++ [e]) e = hashXsOf (L ++ es) e := by
        rw [hashXsOf, filterMap_origin_concat hL, hashXsOf]
      rw [ht3, ht2, ← hold, ← hlast]
      simp only [List.mem_append, List.mem_singleton, or_and_right, exists_or, exists_eq_left,
        or_assoc]
      exact or_congr_right or_comm

end ElectrumX.Index
