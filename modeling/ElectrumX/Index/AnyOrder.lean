import ElectrumX.Index.Methods
import ElectrumX.Index.TxOrder

/-!
# Blocks whose transactions stand in any order

`LTORBlockProcessor` keeps the index of a chain whose blocks spend their own outputs in any
order, and undoes them exactly. A block is a batch of the ledger: advancing creates all its
outputs and spends from what is then unspent; backing up puts all spent outputs back, those
of the block itself among them, and then removes all outputs of the block.
-/

namespace ElectrumX.Index
open ElectrumX.Base ElectrumX.Lib ElectrumX.Chain ElectrumX.Server

section Loops

variable {P : List (OutPoint × Utxo)} {db : DB} {utxoCache : Table} {dbDeletes : List Bytes}
variable {base view : OutPoint → Option Utxo}

/-- Outputs that join the view join the cache. -/
theorem UtxoRep.putAll {utxoDb : Table} (ps : List (OutPoint × Utxo)) (hN : Numbered P)
    (h : UtxoRep P utxoDb utxoCache dbDeletes base view)
    (hps : ∀ p ∈ ps, p ∈ P ∧ base p.1 = none) :
    UtxoRep P utxoDb (putAll utxoCache ps) dbDeletes base (Ledger.createAll view ps) := by
  induction ps generalizing utxoCache view with
  | nil => exact h
  | cons p ps ih =>
    obtain ⟨hm, hb⟩ := hps p List.mem_cons_self
    exact ih (h.put hN hm hb) fun q hq ↦ hps q (List.mem_cons_of_mem _ hq)

/-- The script hashes of what an entry spends and creates. -/
private def touchedBy (view : OutPoint → Option Utxo) (e : Entry) : List Bytes :=
  (e.spends.filterMap view).map (·.hashX.val) ++ e.creates.map (·.2.hashX.val)

/-- The loop that spends the inputs spends the outputs that they name. -/
theorem UtxoRep.spendTxs (coin : Coin) (isUnspendable : Bytes → Bool) {n : Nat} {ts : List Tx}
    (hN : Numbered P) (hh : HashesFound db base)
    (h : UtxoRep P db.utxoDb utxoCache dbDeletes base view)
    (hl : ∀ op ∈ Ledger.spent (entries coin isUnspendable n ts), ∃ u, view op = some u)
    (hn : (Ledger.spent (entries coin isUnspendable n ts)).Nodup) :
    ∃ utxoCache' dbDeletes',
      LTORBlockProcessor.spendTxs db utxoCache dbDeletes
          (ts.zip ((entries coin isUnspendable n ts).map fun e ↦
            toSet (e.creates.map (·.2.hashX.val)))) =
        .ok (((Ledger.spent (entries coin isUnspendable n ts)).filterMap view).map packed,
          (entries coin isUnspendable n ts).map fun e ↦ toSet (touchedBy view e),
          utxoCache', dbDeletes') ∧
      UtxoRep P db.utxoDb utxoCache' dbDeletes' base
        (Ledger.spendAll view (Ledger.spent (entries coin isUnspendable n ts))) := by
  induction ts generalizing n utxoCache dbDeletes view with
  | nil => exact ⟨utxoCache, dbDeletes, rfl, h⟩
  | cons tx rest ih =>
    rw [entries_cons] at hl hn ⊢
    set e := entry coin isUnspendable n tx with he
    set es := entries coin isUnspendable (n + 1) rest with hes
    have hcons : Ledger.spent (e :: es) = e.spends ++ Ledger.spent es := rfl
    rw [hcons] at hl hn ⊢
    have hdisj := List.disjoint_of_nodup_append hn
    obtain ⟨c1, d1, hs, h1⟩ := h.spendInputs tx.inputs hN hh
      (fun op hop ↦ hl op (List.mem_append_left _ hop)) hn.of_append_left
    have hkeep : ∀ op ∈ Ledger.spent es, Ledger.spendAll view e.spends op = view op := by
      intro op hop
      rw [Ledger.spendAll_apply, if_neg fun hc ↦ hdisj hc hop]
    obtain ⟨c2, d2, hr, h2⟩ := ih h1 (fun op hop ↦ by
      obtain ⟨u, hu⟩ := hl op (List.mem_append_right _ hop)
      exact ⟨u, (hkeep op hop).trans hu⟩) hn.of_append_right
    refine ⟨c2, d2, ?_, ?_⟩
    · have hundo : (Ledger.spent es).filterMap (Ledger.spendAll view e.spends) =
          (Ledger.spent es).filterMap view := List.filterMap_congr hkeep
      have hsets : (es.map fun x ↦ toSet (touchedBy (Ledger.spendAll view e.spends) x)) =
          es.map fun x ↦ toSet (touchedBy view x) := by
        apply List.map_congr_left
        intro x hx
        have hf : x.spends.filterMap (Ledger.spendAll view e.spends) = x.spends.filterMap view :=
          List.filterMap_congr fun op hop ↦ hkeep op (List.mem_flatMap.mpr ⟨x, hx, hop⟩)
        rw [touchedBy, touchedBy, hf]
      change LTORBlockProcessor.spendTxs db c1 d1 _ = .ok
        (((Ledger.spent es).filterMap (Ledger.spendAll view e.spends)).map packed,
          es.map fun x ↦ toSet (touchedBy (Ledger.spendAll view e.spends) x), c2, d2) at hr
      rw [hundo, hsets, ← hes] at hr
      rw [List.map_cons, List.zip_cons_cons, LTORBlockProcessor.spendTxs]
      simp only [hs, hr, bind, Except.bind, pure, Except.pure, addSpent_toSet, List.map_cons,
        List.filterMap_append, List.map_append]
      have htake : (((spends tx.inputs).filterMap view).map packed).map (·.take hashXLen) =
          (e.spends.filterMap view).map (·.hashX.val) := by
        rw [List.map_map]
        exact List.map_congr_left fun u _ ↦ take_packed u
      rw [htake]
      rfl
    · have happ : Ledger.spendAll view (e.spends ++ Ledger.spent es) =
          Ledger.spendAll (Ledger.spendAll view e.spends) (Ledger.spent es) := List.foldl_append
      rw [happ]
      exact h2

/-- The loop that restores the coins puts back the undo entries in order. -/
theorem UtxoRep.restoreAll (undoInfo pre rest : Bytes) (txins : List TxInput)
    {ps : List (OutPoint × Utxo)} (touched : Std.ExtTreeSet Bytes) (hN : Numbered P)
    (h : UtxoRep P db.utxoDb utxoCache dbDeletes base view)
    (hs : ps.map Prod.fst = spends txins) (hm : ∀ p ∈ ps, p ∈ P ∧ base p.1 = none)
    (hu : undoInfo = pre ++ ps.flatMap (fun p ↦ packed p.2) ++ rest) :
    ∃ utxoCache' touched',
      LTORBlockProcessor.restoreInputs undoInfo (pre.length : Nat) utxoCache touched txins =
        (((pre ++ ps.flatMap fun p ↦ packed p.2).length : Int), utxoCache', touched') ∧
      UtxoRep P db.utxoDb utxoCache' dbDeletes base (Ledger.createAll view ps) ∧
      ∀ x, x ∈ touched' ↔ x ∈ touched ∨ ∃ p ∈ ps, x = p.2.hashX.val := by
  induction txins generalizing ps utxoCache touched view pre with
  | nil =>
    obtain rfl : ps = [] := List.map_eq_nil_iff.mp hs
    exact ⟨utxoCache, touched, by simp [LTORBlockProcessor.restoreInputs], h, fun x ↦ by simp⟩
  | cons txin txins ih =>
    rw [spends_cons] at hs
    unfold LTORBlockProcessor.restoreInputs
    by_cases hg : txin.isGeneration
    · rw [if_pos hg] at hs
      rw [if_pos hg]
      exact ih pre touched h hs hm hu
    · rw [if_neg hg] at hs
      obtain ⟨⟨op, u⟩, ps', rfl, ho, hs'⟩ := List.map_eq_cons_iff.mp hs
      change op = _ at ho
      subst ho
      obtain ⟨hp, hb⟩ := hm _ List.mem_cons_self
      rw [List.flatMap_cons] at hu ⊢
      have hslice : pySlice undoInfo (pre.length : Int) (pre.length + undoEntryLen) = packed u := by
        rw [hu, ← length_packed u, List.append_assoc, List.append_assoc, ← List.append_assoc]
        exact pySlice_append pre (packed u) _
      have hlen : ((pre.length : Nat) : Int) + undoEntryLen = ((pre ++ packed u).length : Nat) := by
        rw [List.length_append, length_packed]
        omega
      obtain ⟨c, t, hr, hc, ht⟩ := ih (pre ++ packed u) (touched.insert u.hashX.val)
        (h.put hN hp hb) hs' (fun p hp ↦ hm p (List.mem_cons_of_mem _ hp)) (by
          rw [hu]
          simp only [List.append_assoc])
      refine ⟨c, t, ?_, hc, fun x ↦ ?_⟩
      · rw [if_neg hg]
        dsimp only
        rw [hslice, take_packed, hlen, ← List.append_assoc]
        exact hr
      · rw [ht, Std.ExtTreeSet.mem_insert, Std.LawfulEqCmp.compare_eq_iff_eq]
        simp only [List.mem_cons, exists_eq_or_imp]
        grind

/-- The loop that removes the outputs spends all that the block had created. -/
theorem UtxoRep.removeOutputs (coin : Coin) (isUnspendable : Bytes → Bool) (n : Nat)
    (ts : List Tx) (touched : Std.ExtTreeSet Bytes) (hN : Numbered P) (hh : HashesFound db base)
    (h : UtxoRep P db.utxoDb utxoCache dbDeletes base view)
    (hv : ∀ p ∈ Ledger.created (entries coin isUnspendable n ts), view p.1 = some p.2)
    (hn : ((Ledger.created (entries coin isUnspendable n ts)).map Prod.fst).Nodup) :
    ∃ utxoCache' dbDeletes' touched',
      LTORBlockProcessor.removeOutputs isUnspendable db utxoCache dbDeletes touched ts =
        .ok (utxoCache', dbDeletes', touched') ∧
      UtxoRep P db.utxoDb utxoCache' dbDeletes' base (Ledger.spendAll view
        ((Ledger.created (entries coin isUnspendable n ts)).map Prod.fst)) ∧
      ∀ x, x ∈ touched' ↔ x ∈ touched ∨
        ∃ p ∈ Ledger.created (entries coin isUnspendable n ts), x = p.2.hashX.val := by
  induction ts generalizing n utxoCache dbDeletes touched view with
  | nil => exact ⟨utxoCache, dbDeletes, touched, rfl, h, fun x ↦ by simp [entries, Ledger.created]⟩
  | cons tx rest ih =>
    rw [entries_cons] at hv hn ⊢
    set e := entry coin isUnspendable n tx with he
    set es := entries coin isUnspendable (n + 1) rest with hes
    have hcons : Ledger.created (e :: es) = e.creates ++ Ledger.created es := rfl
    rw [hcons] at hv hn ⊢
    rw [List.map_append] at hn ⊢
    obtain ⟨c1, d1, t1, hs, h1, ht1⟩ := h.spendOutputs coin isUnspendable tx.txid n 0 tx.outputs
      touched hN hh (fun p hp ↦ hv p (List.mem_append_left _ hp)) hn.of_append_left
    obtain ⟨c2, d2, t2, hr, h2, ht2⟩ := ih (n + 1) t1 h1 (fun p hp ↦ by
      rw [Ledger.spendAll_apply, if_neg]
      · exact hv p (List.mem_append_right _ hp)
      · exact fun hc ↦ List.disjoint_of_nodup_append hn hc (List.mem_map.mpr ⟨p, hp, rfl⟩))
      hn.of_append_right
    refine ⟨c2, d2, t2, ?_, ?_, fun x ↦ ?_⟩
    · rw [LTORBlockProcessor.removeOutputs]
      simp only [hs, bind, Except.bind]
      exact hr
    · have happ : Ledger.spendAll view (e.creates.map Prod.fst ++ (Ledger.created es).map Prod.fst) =
          Ledger.spendAll (Ledger.spendAll view (e.creates.map Prod.fst))
            ((Ledger.created es).map Prod.fst) := List.foldl_append
      rw [happ]
      exact h2
    · rw [ht2, ht1]
      simp only [List.mem_append, or_and_right, exists_or, or_assoc]
      rfl

end Loops

/-! ### The two methods -/

section Methods

variable {env : Env} {s : BlockProcessor} {recorded stored top chain : List Block}

/-- The outputs of a block on top of a chain are new to the chains that it extends. -/
private theorem created_fresh {L es : List Entry}
    (hk : ((Ledger.created (L ++ es)).map Prod.fst).Nodup) {base : OutPoint → Option Utxo}
    (hb : ∀ op u, base op = some u → (op, u) ∈ Ledger.created L) {p : OutPoint × Utxo}
    (hp : p ∈ Ledger.created es) : base p.1 = none := by
  rw [Option.eq_none_iff_forall_ne_some]
  intro u hu
  rw [Ledger.created_append, List.map_append] at hk
  exact List.disjoint_of_nodup_append hk (List.mem_map.mpr ⟨_, hb _ _ hu, rfl⟩)
    (List.mem_map.mpr ⟨p, hp, rfl⟩)

/-- Advancing a block whose transactions stand in any order keeps the invariant. -/
theorem HeldCore.advanceAnyOrder (h : HeldCore env (touching env.coin) s recorded stored chain)
    {b : Block} (hv : AnyOrderChain env.coin (chain ++ [b])) :
    ∃ s', LTORBlockProcessor.advanceTxs env s b.transactions
        (env.coin.isUnspendableAt chain.length) =
          .ok ((spentBy env.coin chain b).map packed, s') ∧
      HeldCore env (touching env.coin) s' recorded stored (chain ++ [b]) ∧ KeepsRest s s' := by
  set isUnspendable := env.coin.isUnspendableAt chain.length with hun
  set es := entries env.coin isUnspendable (txCount chain) b.transactions with hes
  have hL : ledger env.coin (chain ++ [b]) = ledger env.coin chain ++ es := ledger_concat ..
  have hkeys := hv.keys
  have hspent := hv.spent
  have hclosed := hv.closed _ [] (List.append_nil _).symm
  have hclosedL := hv.closed _ _ rfl
  rw [hL] at hkeys hspent hclosed
  have hN := numbered_of_anyOrder hv
  have hsub : Ledger.created (ledger env.coin chain) ⊆
      Ledger.created (ledger env.coin (chain ++ [b])) := by
    rw [hL, Ledger.created_append]
    exact List.subset_append_left _ _
  have hrk : ((Ledger.created (ledger env.coin recorded)).map Prod.fst).Nodup := by
    obtain ⟨rest, hr⟩ := h.recorded_prefix.trans h.stored_prefix
    rw [← hr] at hv
    exact (hv.left.left).keys
  have hh := h.db.hashesFound h.recorded_prefix hrk h.counts_eq
    (.inl (h.recorded_prefix.trans h.stored_prefix))
  have hcount : txCount (chain ++ [b]) = txCount chain + b.transactions.length :=
    txCount_concat ..
  have htxs : ∀ tx ∈ b.transactions, tx ∈ txs (chain ++ [b]) := by
    intro tx htx
    rw [txs_append, txs_singleton]
    exact List.mem_append_right _ htx
  have hlt := hv.txCount
  have hfit : OutputsFit (txCount chain) b.transactions :=
    ⟨by omega, fun tx htx ↦ hv.outputs tx (htxs tx htx), fun tx htx ↦ hv.values tx (htxs tx htx)⟩
  -- All outputs first, then the inputs.
  have h1 := (h.utxo.mono hsub).putAll (Ledger.created es) hN fun p hp ↦
    ⟨by
      rw [hL, Ledger.created_append]
      exact List.mem_append_right _ hp, created_fresh hkeys (fun op u hu ↦
        h.utxo.base_mem op u hu) hp⟩
  set view := Ledger.createAll (unspent env.coin chain) (Ledger.created es) with hview
  have hval : ∀ op ∈ Ledger.spent es, ∃ u, view op = some u ∧
      origin (ledger env.coin chain ++ es) op = some u :=
    fun op hop ↦ Ledger.createAll_of_spent hkeys hspent hclosed hop
  have hnodup : (Ledger.spent es).Nodup := by
    rw [Ledger.spent_append] at hspent
    exact hspent.of_append_right
  obtain ⟨c, d, hr, hu⟩ := h1.spendTxs env.coin isUnspendable hN hh
    (fun op hop ↦ (hval op hop).imp fun _ hu ↦ hu.1) hnodup
  have hlive : unspent env.coin (chain ++ [b]) = Ledger.spendAll view (Ledger.spent es) := by
    rw [unspent, hL]
    exact Ledger.live_append hkeys hclosedL
  rw [← hes] at hr hu
  rw [← hlive] at hu
  have hundo : (Ledger.spent es).filterMap view =
      (Ledger.spent es).filterMap (origin (ledger env.coin (chain ++ [b]))) := by
    apply List.filterMap_congr
    intro op hop
    obtain ⟨u, h1, h2⟩ := hval op hop
    rw [h1, hL, h2]
  have hsets : (es.map fun e ↦ toSet (touchedBy view e)) =
      (es.map fun e ↦ (hashXsOf (ledger env.coin (chain ++ [b])) e).map (·.val)).map toSet := by
    rw [List.map_map]
    apply List.map_congr_left
    intro e he
    have hf : e.spends.filterMap view =
        e.spends.filterMap (origin (ledger env.coin (chain ++ [b]))) := by
      apply List.filterMap_congr
      intro op hop
      obtain ⟨u, h1, h2⟩ := hval op (List.mem_flatMap.mpr ⟨e, he, hop⟩)
      rw [h1, hL, h2]
    rw [touchedBy, hf, Function.comp, hashXsOf, List.map_append, List.map_map, List.map_map]
    rfl
  rw [hundo, hsets] at hr
  -- The history.
  obtain ⟨rows, pend, hist⟩ := h.history
  obtain ⟨t, k, pend', ha, hist'⟩ := hist.addUnflushed
    (es.map (hashXsOf (ledger env.coin (chain ++ [b])))) (txCount chain)
    (by rw [List.length_map, hes, length_entries]; omega)
  rw [List.map_map] at ha
  set hashXs := es.map fun e ↦ (hashXsOf (ledger env.coin (chain ++ [b])) e).map (·.val)
    with hhashXs
  change s.db.history.addUnflushed hashXs (Chain.txCount chain) = _ at ha
  rw [← addUnflushed_toSet] at ha
  refine ⟨Index.afterTxs s b t k c d ((hashXs.map toSet).foldl
    (fun t hashXs ↦ t.insertMany hashXs.toList) s.touched), ?_,
    h.afterTxs hv.headersFit hN hu
      ⟨rows, pend', { hist' with chainRows := fun hashX ↦ ?_ }⟩ fun x hx ↦ ?_,
    ⟨⟨rfl, rfl, rfl⟩, rfl, rfl, rfl⟩⟩
  · have hadd := addUtxos_eq env isUnspendable hfit s.utxoCache
    rw [← hes] at hadd
    rw [LTORBlockProcessor.advanceTxs, h.txCount_eq]
    simp only [hadd, bind, Except.bind, hr, ha, pure, Except.pure, Index.afterTxs, h.txCount_eq]
    rfl
  · rw [hist'.chainRows, touching_concat hclosedL]
  · rcases (mem_foldl_insertMany _ _ _).mp hx with hx | hx
    · exact h.touched x hx
    · obtain ⟨xs, hxs, hx⟩ := List.mem_flatten.mp hx
      obtain ⟨e, -, rfl⟩ := List.mem_map.mp hxs
      obtain ⟨hashX, -, rfl⟩ := List.mem_map.mp hx
      exact hashX.property

theorem spends_append (a b : List TxInput) : spends (a ++ b) = spends a ++ spends b := by
  rw [spends, List.filter_append, List.map_append]
  rfl

private theorem spends_flatMap (coin : Coin) (isUnspendable : Bytes → Bool) (n : Nat)
    (ts : List Tx) : spends (ts.flatMap (·.inputs)) =
      Ledger.spent (entries coin isUnspendable n ts) := by
  induction ts generalizing n with
  | nil => rfl
  | cons tx rest ih =>
    rw [List.flatMap_cons, spends_append, ih (n + 1), entries_cons]
    rfl

/-- Backing up a block whose transactions stand in any order turns the UTXOs back. -/
theorem Rewound.backupAnyOrder {c : List Block} {b : Block}
    (h : Rewound env (touching env.coin) s top (c ++ [b])) (hv : AnyOrderChain env.coin top)
    (hp : c ++ [b] <+: top) (hown : OwnUndo env s.db c b) :
    ∃ utxoCache dbDeletes touched,
      (∀ tip, LTORBlockProcessor.backupTxs { s with tip := tip } b.transactions
        (env.coin.isUnspendableAt c.length) = .ok { s with
          tip := tip
          utxoCache := utxoCache
          dbDeletes := dbDeletes
          touched := touched
          txCount := s.txCount - b.transactions.length }) ∧
      UtxoRep (Ledger.created (ledger env.coin top)) s.db.utxoDb utxoCache dbDeletes
        (unspent env.coin top) (unspent env.coin c) ∧
      ∀ x, x ∈ touched ↔ x ∈ s.touched ∨
        ∃ e ∈ entries env.coin (env.coin.isUnspendableAt c.length) (txCount c) b.transactions,
          ∃ hashX ∈ hashXsOf (ledger env.coin (c ++ [b])) e, x = hashX.val := by
  obtain ⟨rest, rfl⟩ := hp
  set isUnspendable := env.coin.isUnspendableAt c.length with hun
  set es := entries env.coin isUnspendable (txCount c) b.transactions with hes
  have hL : ledger env.coin (c ++ [b]) = ledger env.coin c ++ es := ledger_concat ..
  have hvb := hv.left
  have hkeys := hvb.keys
  have hspent := hvb.spent
  have hclosed := hvb.closed _ [] (List.append_nil _).symm
  have hclosedL := hvb.closed _ _ rfl
  rw [hL] at hkeys hspent hclosed
  have hheight : s.height = c.length := by
    have := h.height_eq
    rw [List.length_append, List.length_singleton] at this
    omega
  have hN := numbered_of_anyOrder hv
  have hh := h.db.hashesFound List.prefix_rfl hv.keys h.counts_eq (by
    rcases rest with _ | ⟨x, xs⟩
    · exact .inl (by simp)
    · exact .inr (by simp only [List.length_append, List.length_cons]; omega))
  have hsub : Ledger.created (ledger env.coin c ++ es) ⊆
      Ledger.created (ledger env.coin (c ++ [b] ++ rest)) := by
    rw [← hL, ledger_append env.coin (c ++ [b]), Ledger.created_append]
    exact List.subset_append_left _ _
  -- The coins to put back, those that the block itself created among them.
  have hval : ∀ op ∈ Ledger.spent es, ∃ u, origin (ledger env.coin c ++ es) op = some u :=
    fun op hop ↦ (Ledger.createAll_of_spent hkeys hspent hclosed hop).imp fun _ hu ↦ hu.2
  set ps := named (ledger env.coin c ++ es) (Ledger.spent es) with hps
  have hfst : ps.map Prod.fst = Ledger.spent es := named_fst hval
  have hpk : ps.flatMap (fun p ↦ packed p.2) = (spentBy env.coin c b).flatMap packed := by
    rw [hps, named_snd, spentBy, hL]
    rfl
  have hpm : ∀ p ∈ ps, p ∈ Ledger.created (ledger env.coin (c ++ [b] ++ rest)) ∧
      unspent env.coin (c ++ [b] ++ rest) p.1 = none := by
    intro p hp
    obtain ⟨hop, ho⟩ := mem_named.mp hp
    refine ⟨hsub ((Ledger.lookup_eq_some_iff hkeys).mp ho), Ledger.live_eq_none_of_spent ?_⟩
    rw [ledger_append, hL, Ledger.spent_append, Ledger.spent_append]
    exact List.mem_append_left _ (List.mem_append_right _ hop)
  obtain ⟨c1, t1, hr1, h1, ht1⟩ := h.utxo.restoreAll ((spentBy env.coin c b).flatMap packed) [] []
    (b.transactions.flatMap (·.inputs)) s.touched hN
    (hfst.trans (spends_flatMap env.coin isUnspendable (txCount c) _).symm) hpm
    (by rw [hpk, List.nil_append, List.append_nil])
  have hview : Ledger.createAll (unspent env.coin (c ++ [b])) ps =
      Ledger.createAll (unspent env.coin c) (Ledger.created es) := by
    rw [unspent, hL]
    exact Ledger.createAll_spent hkeys hspent hclosedL hclosed hfst
      fun p hp ↦ (mem_named.mp hp).2
  rw [hview] at h1
  -- The outputs to remove.
  obtain ⟨c2, d2, t2, hr2, h2, ht2⟩ := h1.removeOutputs env.coin isUnspendable (txCount c)
    b.transactions t1 hN hh (fun p hp ↦ by
      have hn := hkeys
      rw [Ledger.created_append, List.map_append] at hn
      exact Ledger.createAll_of_mem hn.of_append_right hp) (by
      have hn := hkeys
      rw [Ledger.created_append, List.map_append] at hn
      exact hn.of_append_right)
  have hback : Ledger.spendAll (Ledger.createAll (unspent env.coin c) (Ledger.created es))
      ((Ledger.created es).map Prod.fst) = unspent env.coin c := Ledger.spendAll_created hkeys
  rw [← hes, hback] at h2
  refine ⟨c2, d2, t2, fun tip ↦ ?_, h2, fun x ↦ ?_⟩
  · rw [OwnUndo] at hown
    rw [hpk, List.nil_append] at hr1
    have hr1' : LTORBlockProcessor.restoreInputs ((spentBy env.coin c b).flatMap packed) 0
      s.utxoCache s.touched (b.transactions.flatMap (·.inputs)) = _ := hr1
    rw [LTORBlockProcessor.backupTxs]
    simp only [hheight, hown, bind, Except.bind, hr1', assertThat_of, hr2, pure, Except.pure]
  · rw [ht2, ht1, or_assoc]
    refine or_congr_right ?_
    constructor
    · rintro (⟨p, hp, rfl⟩ | ⟨p, hp, rfl⟩)
      · obtain ⟨hop, ho⟩ := mem_named.mp hp
        obtain ⟨e, he, hop⟩ := List.mem_flatMap.mp hop
        refine ⟨e, he, p.2.hashX, List.mem_append_left _ (List.mem_map.mpr ⟨p.2, ?_, rfl⟩), rfl⟩
        exact List.mem_filterMap.mpr ⟨p.1, hop, hL ▸ ho⟩
      · obtain ⟨e, he, hp⟩ := List.mem_flatMap.mp hp
        exact ⟨e, he, p.2.hashX, List.mem_append_right _ (List.mem_map.mpr ⟨p, hp, rfl⟩), rfl⟩
    · rintro ⟨e, he, hashX, hx, rfl⟩
      rcases List.mem_append.mp hx with hx | hx
      · obtain ⟨u, hu, rfl⟩ := List.mem_map.mp hx
        obtain ⟨op, hop, ho⟩ := List.mem_filterMap.mp hu
        rw [hL] at ho
        exact .inl ⟨(op, u), mem_named.mpr ⟨List.mem_flatMap.mpr ⟨e, he, hop⟩, ho⟩, rfl⟩
      · obtain ⟨p, hp, rfl⟩ := List.mem_map.mp hx
        exact .inr ⟨p, List.mem_flatMap.mpr ⟨e, he, hp⟩, rfl⟩

end Methods

/-- What the processor of blocks in any order does. -/
theorem anyOrderLaws (env : Env) : MethodLaws env (LTORBlockProcessor.methods env)
    (touching env.coin) (AnyOrderChain env.coin) where
  anyOrder h := h
  left h := h.left
  tells_nil _ := rfl
  sorted _ := touching_pairwise _
  cut h hashX := touching_filter (h.closed _ _ rfl) hashX
  advance h hv := h.advanceAnyOrder hv
  backup h hv hp hown := h.backupAnyOrder hv hp hown

/-! ### Undoing blocks -/

/-- A run of the processor of blocks in any order, whose back-ups satisfy the guard. -/
abbrev AnyOrderRun (env : Env) (guard : DB → List Block → List Block → Prop) :
    BlockProcessor → List Block → Prop :=
  MethodRun env (LTORBlockProcessor.methods env) (AnyOrderChain env.coin) fun s ↦ guard s.db

/-- In a run whose back-ups have found the undo rows of their own blocks, every further block
can be advanced, whatever the order of its transactions; and blocks advanced with undo
information on top of a fully flushed state, and flushed, are backed up in one chunk, which
restores that state and puts into `touched` the script hashes whose history they extended. -/
theorem AnyOrderRun.undone {env : Env} {s₀ : BlockProcessor} {base : List Block}
    (h : AnyOrderRun env (OwnUndos env) s₀ base) (hf₀ : FullyFlushed s₀) (h₀ : 0 ≤ s₀.height)
    {s : BlockProcessor} {chain : List Block}
    (r : MethodForward env (LTORBlockProcessor.methods env) (AnyOrderChain env.coin) s₀ base s
      chain) :
    (∀ blocks, blocks ≠ [] → AnyOrderChain env.coin (chain ++ blocks) → ∀ cachedHeight,
      ∃ s', (LTORBlockProcessor.methods env).advanceBlocks env s cachedHeight blocks = .ok s') ∧
    ∀ blocks, chain = base ++ blocks → blocks ≠ [] → FullyFlushed s →
      ∃ s', (LTORBlockProcessor.methods env).backupChunk env s (blocks.map (·.raw)).reverse =
          .ok s' ∧ Restored s₀ s' ∧
        ∀ hashX, ∀ n ∈ touching env.coin chain hashX, txCount base ≤ n →
          hashX.val ∈ s'.touched := by
  have laws := anyOrderLaws env
  have hcov (s : BlockProcessor) (c bs : List Block) : Covered env (touching env.coin) s c bs :=
    fun hashX n hn hle ↦ .inr ⟨n, hn, hle⟩
  obtain ⟨-, _, _, hi⟩ := laws.held (h.mono fun s c bs hown ↦ ⟨hown, hcov s c bs⟩)
  have hi₀ := hi.of_fullyFlushed hf₀
  have hne : base ≠ [] := by
    rintro rfl
    have := hi₀.height_eq
    rw [List.length_nil] at this
    omega
  obtain ⟨hv, mid, rest, stored, he, hs, hrows, -⟩ := laws.undos_kept r hi₀
  refine ⟨fun blocks hb hvb cachedHeight ↦ ?_, ?_⟩
  · obtain ⟨s', hs', -⟩ := laws.advanceBlocks hs hb hvb cachedHeight
    exact ⟨s', hs'⟩
  · rintro blocks rfl hb hf
    have hs' := hs.of_fullyFlushed hf
    have hmid : base ++ mid = base ++ blocks := by
      have h1 := hs.db.dbHeight
      have h2 := hs'.db.dbHeight
      have hl : (base ++ mid).length = (base ++ blocks).length := by omega
      exact (he ▸ List.prefix_append (base ++ mid) rest).eq_of_length hl
    obtain rfl := List.append_cancel_left hmid
    obtain ⟨s', hok, hi', ht, -⟩ :=
      laws.backupChunk hs' (hv (by simpa using hb)) hne hb hrows (hcov _ _ _)
    exact ⟨s', hok, hi₀.restored hi', ht⟩

/-! ### Sample runs -/

/-- A processor opens a new disk, advances a first block and flushes. -/
def sampleOpen (env : Env) (genesis : Block) : Except PyError BlockProcessor := do
  let s ← BlockProcessor.firstOpenDbs env { created := false }
  let s ← (LTORBlockProcessor.methods env).advanceBlocks env s 1 [genesis]
  s.flush env true

/-- It advances a block with undo information, and flushes. -/
def sampleExtend (env : Env) (s : BlockProcessor) (b : Block) : Except PyError BlockProcessor := do
  let s ← (LTORBlockProcessor.methods env).advanceBlocks env s 1 [b]
  s.flush env true

theorem sampleOpen_run {env : Env} {guard : DB → List Block → List Block → Prop} {genesis : Block}
    {s : BlockProcessor} (hv : AnyOrderChain env.coin [genesis])
    (h : sampleOpen env genesis = .ok s) : AnyOrderRun env guard s [genesis] := by
  obtain ⟨s1, h1, h2⟩ := bind_eq_ok.mp h
  obtain ⟨s2, h2, h3⟩ := bind_eq_ok.mp h2
  exact .flushed true (.advanced 1 (.opened h1) hv h2) h3

theorem sampleExtend_forward {env : Env} {genesis b : Block} {s₀ s : BlockProcessor}
    (hk : KeepsUndo env 1 [genesis]) (hv : AnyOrderChain env.coin [genesis, b])
    (h : sampleExtend env s₀ b = .ok s) :
    MethodForward env (LTORBlockProcessor.methods env) (AnyOrderChain env.coin) s₀ [genesis] s
      [genesis, b] := by
  obtain ⟨s1, h1, h⟩ := bind_eq_ok.mp h
  exact .flushed true (.advanced .start hk hv h1) h

/-- The sample coin with the transactions of each block in reverse. -/
def reversedEnv : Env :=
  { sampleEnv with coin := { sampleCoin with
      deserializer := fun raw _ ↦ .ok (sampleTxs (raw.headD 0)).reverse } }

def reversedA : Block := { sampleA with transactions := sampleA.transactions.reverse }

/-- The first transaction of the block spends the output of the second. -/
theorem reversedA_undone : ∃ s₀ s s', sampleOpen reversedEnv sampleGenesis = .ok s₀ ∧
    sampleExtend reversedEnv s₀ reversedA = .ok s ∧
    (LTORBlockProcessor.methods reversedEnv).backupChunk reversedEnv s [reversedA.raw] =
      .ok s' ∧ Restored s₀ s' := by
  obtain ⟨s₀, h₀, hf₀, hheight, s, h, hf⟩ : ∃ s₀, sampleOpen reversedEnv sampleGenesis = .ok s₀ ∧
    FullyFlushed s₀ ∧ 0 ≤ s₀.height ∧ ∃ s, sampleExtend reversedEnv s₀ reversedA = .ok s ∧
    FullyFlushed s := by decide +kernel
  have hv : AnyOrderChain reversedEnv.coin [sampleGenesis, reversedA] := by decide +kernel
  have r₀ : AnyOrderRun reversedEnv (OwnUndos reversedEnv) s₀ [sampleGenesis] :=
    sampleOpen_run (AnyOrderChain.left (b := [reversedA]) hv) h₀
  have r := sampleExtend_forward (by decide) hv h
  obtain ⟨s', hs', hr, -⟩ := (r₀.undone hf₀ hheight r).2 [reversedA] rfl (by simp) hf
  exact ⟨s₀, s, s', h₀, h, hs', hr⟩

/-! ### A stale undo row

The run is that of the base class: `b` is backed up with the undo row of `a`. -/

/-- Blocks are advanced and flushed, and `touched` is reset. -/
def anyOrderBatch (s : BlockProcessor) (cachedHeight : Int) (blocks : List Block) :
    Except PyError BlockProcessor := do
  let s ← (LTORBlockProcessor.methods staleEnv).advanceBlocks staleEnv s cachedHeight blocks
  let s ← s.flush staleEnv true
  return { s with touched := ∅ }

/-- The chain is reorganised by a number of blocks. -/
def anyOrderReorg (s : BlockProcessor) (count : Int) : Except PyError BlockProcessor :=
  (LTORBlockProcessor.methods staleEnv).reorgChain staleEnv (fun _ _ ↦ .ok []) sampleRawBlocks s
    (some count)

/-- Block `a` is advanced on top of the first one. -/
def anyOrderFirst : Except PyError BlockProcessor := do
  let s ← BlockProcessor.firstOpenDbs staleEnv { created := false }
  let s ← anyOrderBatch s 1 [sampleGenesis]
  anyOrderBatch s 1 [sampleA]

/-- Block `a` is undone, and `b` is advanced with the block on top of it. -/
def anyOrderSecond : Except PyError BlockProcessor := do
  anyOrderBatch (← anyOrderReorg (← anyOrderFirst) 1) 2 [sampleB, sampleTop]

/-- Both blocks are undone. -/
def anyOrderStale : Except PyError BlockProcessor := do
  anyOrderReorg (← anyOrderSecond) 2

theorem anyOrderBatch_run {guard : DB → List Block → List Block → Prop} {s s' : BlockProcessor}
    {chain blocks : List Block} {cachedHeight : Int} (r : AnyOrderRun staleEnv guard s chain)
    (hv : AnyOrderChain staleEnv.coin (chain ++ blocks))
    (h : anyOrderBatch s cachedHeight blocks = .ok s') :
    AnyOrderRun staleEnv guard s' (chain ++ blocks) := by
  obtain ⟨s1, h1, h⟩ := bind_eq_ok.mp h
  obtain ⟨s2, h2, h⟩ := bind_eq_ok.mp h
  cases h
  exact .notified (.flushed true (.advanced cachedHeight r hv h1) h2)

theorem anyOrderReorg_run {s s' : BlockProcessor} {chain blocks : List Block} {count : Int}
    (r : AnyOrderRun staleEnv (Received staleEnv) s (chain ++ blocks))
    (hg : SampleGets s chain blocks count) (h : anyOrderReorg s count = .ok s') :
    AnyOrderRun staleEnv (Received staleEnv) s' chain := by
  obtain ⟨flushed, hflush, range, hrange, hchunk, hraw, hreceived⟩ := hg
  exact MethodRun.reorgChain r hflush hrange hchunk hraw hreceived h

theorem anyOrderFirst_gets : ∃ s, anyOrderFirst = .ok s ∧
    SampleGets s [sampleGenesis] [sampleA] 1 := by
  decide +kernel

theorem anyOrderSecond_gets : ∃ s, anyOrderSecond = .ok s ∧
    SampleGets s [sampleGenesis] [sampleB, sampleTop] 2 := by
  decide +kernel

theorem anyOrderStale_run {s : BlockProcessor} (h : anyOrderStale = .ok s) :
    AnyOrderRun staleEnv (Received staleEnv) s [sampleGenesis] := by
  have hva : AnyOrderChain staleEnv.coin ([sampleGenesis] ++ [sampleA]) := by decide +kernel
  have hvb : AnyOrderChain staleEnv.coin ([sampleGenesis] ++ [sampleB, sampleTop]) := by
    decide +kernel
  obtain ⟨s2, h2, h⟩ := bind_eq_ok.mp h
  obtain ⟨s2', h2', hg2⟩ := anyOrderSecond_gets
  cases h2.symm.trans h2'
  obtain ⟨s1, h1, h2⟩ := bind_eq_ok.mp h2
  obtain ⟨s1', h1', hg1⟩ := anyOrderFirst_gets
  cases h1.symm.trans h1'
  obtain ⟨s0, h0, h1⟩ := bind_eq_ok.mp h1
  obtain ⟨s3, h3, h1⟩ := bind_eq_ok.mp h1
  obtain ⟨s4, h4, h2⟩ := bind_eq_ok.mp h2
  have r1 : AnyOrderRun staleEnv (Received staleEnv) s1 ([sampleGenesis] ++ [sampleA]) :=
    anyOrderBatch_run (anyOrderBatch_run (.opened h0) hva.left h3) hva h1
  exact anyOrderReorg_run (anyOrderBatch_run (anyOrderReorg_run r1 hg1 h4) hvb h2) hg2 h

/-- The output of `c` has the key of the row that the stale undo row has left, so the row goes
with the block, although every block that is backed up is one that `get_raw_blocks` has got. -/
theorem not_anyOrder_undone : ¬ ∀ (env : Env) (s₀ s : BlockProcessor) (base blocks : List Block),
    AnyOrderRun env (Received env) s₀ base → FullyFlushed s₀ → 0 ≤ s₀.height →
    MethodForward env (LTORBlockProcessor.methods env) (AnyOrderChain env.coin) s₀ base s
      (base ++ blocks) → blocks ≠ [] → FullyFlushed s → Received env s.db base blocks →
    ∃ s', (LTORBlockProcessor.methods env).backupChunk env s (blocks.map (·.raw)).reverse =
      .ok s' ∧ Restored s₀ s' := by
  intro hall
  obtain ⟨s₀, h₀, hf₀, hheight, s, h, hf, hreceived, s', hs', hne⟩ :
    ∃ s₀, anyOrderStale = .ok s₀ ∧ FullyFlushed s₀ ∧ 0 ≤ s₀.height ∧
    ∃ s, sampleExtend staleEnv s₀ sampleC = .ok s ∧ FullyFlushed s ∧
    Received staleEnv s.db [sampleGenesis] [sampleC] ∧
    ∃ s', (LTORBlockProcessor.methods staleEnv).backupChunk staleEnv s [sampleC.raw] = .ok s' ∧
      s'.db.utxoDb[prefixH :: staleRow]? ≠ s₀.db.utxoDb[prefixH :: staleRow]? := by decide +kernel
  have hv : AnyOrderChain staleEnv.coin [sampleGenesis, sampleC] := by decide +kernel
  obtain ⟨s'', hs'', hr⟩ := hall staleEnv s₀ s [sampleGenesis] [sampleC] (anyOrderStale_run h₀)
    hf₀ hheight (sampleExtend_forward (by decide) hv h) (by simp) hf hreceived
  have hs''' : (LTORBlockProcessor.methods staleEnv).backupChunk staleEnv s [sampleC.raw] =
    .ok s'' := hs''
  cases hs'.symm.trans hs'''
  exact hne (hr.hRows staleRow)

end ElectrumX.Index
