import ElectrumX.Index.Reorg
import ElectrumX.Server.LTORBlockProcessor

/-!
# Subclasses of the block processor

What a subclass must prove of its `advance_txs` and `backup_txs` for the index to hold over
whole runs. The rest of the processor is shared: batches, flushes and chunks of a
reorganisation keep the invariant whatever the two methods are.
-/

namespace ElectrumX.Index
open ElectrumX.Base ElectrumX.Lib ElectrumX.Chain ElectrumX.Server

/-- What the methods of a subclass do: `tells` is what a chain puts into the history. -/
structure MethodLaws (env : Env) (m : TxMethods) (tells : List Block → HashX → List Nat)
    (valid : List Block → Prop) : Prop where
  anyOrder : ∀ {chain}, valid chain → AnyOrderChain env.coin chain
  left : ∀ {a b}, valid (a ++ b) → valid a
  tells_nil : ∀ hashX, tells [] hashX = []
  sorted : ∀ {chain}, valid chain → ∀ hashX, (tells chain hashX).Pairwise (· < ·)
  cut : ∀ {a b}, valid (a ++ b) → ∀ hashX,
    (tells (a ++ b) hashX).filter (· < txCount a) = tells a hashX
  advance : Advances env m tells valid
  backup : ∀ {s top c b}, Rewound env tells s top (c ++ [b]) → valid top → c ++ [b] <+: top →
    OwnUndo env s.db c b →
    ∃ utxoCache dbDeletes touched,
      (∀ tip, m.backupTxs { s with tip := tip } b.transactions
        (env.coin.isUnspendableAt c.length) = .ok { s with
          tip := tip
          utxoCache := utxoCache
          dbDeletes := dbDeletes
          touched := touched
          txCount := s.txCount - b.transactions.length }) ∧
      UtxoRep (Ledger.created (ledger env.coin top)) s.db.utxoDb utxoCache dbDeletes
        (unspent env.coin top) (unspent env.coin c) ∧
      ∀ x, x ∈ touched ↔ x ∈ s.touched ∨
        ∃ e ∈ entries env.coin (env.coin.isUnspendableAt c.length) (txCount c) b.transactions,
          ∃ hashX ∈ hashXsOf (ledger env.coin (c ++ [b])) e, x = hashX.val

section Advancing

variable {env : Env} {m : TxMethods} {tells : List Block → HashX → List Nat}
variable {valid : List Block → Prop} {s s' : BlockProcessor} {recorded stored chain : List Block}

/-- `advance_blocks` extends the chain by valid blocks. -/
theorem MethodLaws.advanceBlocks (laws : MethodLaws env m tells valid)
    (h : Held env tells s recorded stored chain) {blocks : List Block} (hne : blocks ≠ [])
    (hv : valid (chain ++ blocks)) (cachedHeight : Int) :
    ∃ s', m.advanceBlocks env s cachedHeight blocks = .ok s' ∧
      Held env tells s' recorded stored (chain ++ blocks) ∧ SameDisk s s' ∧
      s'.undoInfos = s.undoInfos ++
        undosFrom env (DB.minUndoHeight env cachedHeight) chain blocks :=
  h.advanceBlocks laws.left laws.advance hne hv cachedHeight

end Advancing

/-! ### Backing up -/

section BackingUp

variable {env : Env} {m : TxMethods} {tells : List Block → HashX → List Nat}
variable {valid : List Block → Prop} {s s' : BlockProcessor} {recorded stored top chain : List Block}

/-- Backing up a block whose undo row is its own goes back to the chain below it. -/
theorem MethodLaws.backupBlock (laws : MethodLaws env m tells valid) {c : List Block} {b : Block}
    (h : Rewound env tells s top (c ++ [b])) (hv : valid top)
    (ht : TouchedCovers env s top (c ++ [b])) (hne : c ≠ []) (hown : OwnUndo env s.db c b) :
    ∃ s', m.backupBlock env s b.raw = .ok s' ∧ Rewound env tells s' top c ∧
      TouchedCovers env s' top c ∧ (∀ x ∈ s.touched, x ∈ s'.touched) ∧
      s'.db = { s.db with txCounts := some (counts c) } :=
  h.backupBlock (laws.anyOrder hv) ht hne (laws.backup h hv h.chain_prefix hown)

/-- Backing up blocks from the top down goes back to the chain below them. -/
theorem MethodLaws.backupBlocks (laws : MethodLaws env m tells valid) {c bs : List Block}
    (h : Rewound env tells s top (c ++ bs)) (hv : valid top)
    (ht : TouchedCovers env s top (c ++ bs)) (hne : c ≠ []) (hown : OwnUndos env s.db c bs) :
    ∃ s', (bs.map (·.raw)).reverse.foldlM (m.backupBlock env) s = .ok s' ∧
      Rewound env tells s' top c ∧ TouchedCovers env s' top c ∧
      (∀ x ∈ s.touched, x ∈ s'.touched) ∧ s'.db.utxoDb = s.db.utxoDb := by
  induction bs using List.reverseRecOn generalizing s with
  | nil =>
    rw [List.append_nil] at h ht
    exact ⟨s, rfl, h, ht, fun _ hx ↦ hx, rfl⟩
  | append_singleton bs b ih =>
    rw [← List.append_assoc] at h ht
    obtain ⟨hown, hb, -⟩ := ownUndos_append.mp hown
    obtain ⟨s1, hr, h1, ht1, hm1, hdb⟩ := laws.backupBlock h hv ht (by simp [hne]) hb
    obtain ⟨s', hs', h', ht', hm', hd⟩ := ih h1 ht1 (hown.congr fun n _ _ ↦ by rw [hdb])
    refine ⟨s', ?_, h', ht', fun x hx ↦ hm' x (hm1 x hx), hd.trans (by rw [hdb])⟩
    rw [List.map_append, List.map_singleton, List.reverse_append, List.reverse_singleton,
      List.singleton_append, List.foldlM_cons]
    simp only [hr, bind, Except.bind]
    exact hs'

/-- A script hash that the history tells of in the blocks to be backed up is in `touched`
already, or spent or paid in one of them. -/
def Covered (env : Env) (tells : List Block → HashX → List Nat) (s : BlockProcessor)
    (c bs : List Block) : Prop :=
  ∀ hashX, ∀ n ∈ tells (c ++ bs) hashX, txCount c ≤ n →
    hashX.val ∈ s.touched ∨ ∃ k ∈ touching env.coin (c ++ bs) hashX, txCount c ≤ k

/-- One chunk of a reorganisation backs up its blocks and flushes. -/
theorem MethodLaws.backupChunk (laws : MethodLaws env m tells valid) {c bs : List Block}
    (h : Held env tells s (c ++ bs) (c ++ bs) (c ++ bs)) (hv : valid (c ++ bs)) (hne : c ≠ [])
    (hbs : bs ≠ []) (hown : OwnUndos env s.db c bs) (hcov : Covered env tells s c bs) :
    ∃ s', m.backupChunk env s (bs.map (·.raw)).reverse = .ok s' ∧ Held env tells s' c c c ∧
      TouchedCovers env s' (c ++ bs) c ∧
      ∀ k : Bytes, s'.db.utxoDb[prefixUndo :: k]? = s.db.utxoDb[prefixUndo :: k]? := by
  have hlen := List.length_pos_of_ne_nil hne
  have hheight := h.height_eq
  rw [List.length_append] at hheight
  have hge : s.height ≥ ((bs.map (·.raw)).reverse.length : Nat) := by
    rw [List.length_reverse, List.length_map]
    omega
  obtain ⟨s1, hr, h1, ht1, hm1, hsame⟩ := laws.backupBlocks h.rewound hv .start hne hown
  have hcut : Cuttable tells s1.touched (c ++ bs) c :=
    { sorted := laws.sorted hv
      cut := laws.cut hv
      told := fun hashX n hn hle ↦ by
        rcases hcov hashX n hn hle with hx | ⟨k, hk, hkle⟩
        · exact hm1 _ hx
        · exact ht1 hashX k hk hkle }
  obtain ⟨s', hf, h', -, -, -, ht', hrows⟩ := h1.flushBackup hcut hne (by
    have := List.length_pos_of_ne_nil hbs
    rw [List.length_append]
    omega)
  refine ⟨s', ?_, h', fun hashX n hn hle ↦ ?_, fun k ↦ by rw [hrows, hsame]⟩
  · rw [TxMethods.backupChunk, TxMethods.backupBlocks, h.assertFlushed, assertThat_of hge]
    simp only [bind, Except.bind]
    rw [hr]
    exact hf
  · rw [ht']
    exact ht1 hashX n hn hle

end BackingUp

/-! ### Runs -/

/-- The states that the processor of a subclass reaches on a new disk, and the chain of each.
The guard may restrict which blocks are backed up. -/
inductive MethodRun (env : Env) (m : TxMethods) (valid : List Block → Prop)
    (guard : BlockProcessor → List Block → List Block → Prop) :
    BlockProcessor → List Block → Prop
  | opened {s : BlockProcessor} (h : BlockProcessor.firstOpenDbs env { created := false } = .ok s) :
      MethodRun env m valid guard s []
  | advanced {s s' : BlockProcessor} {chain blocks : List Block} (cachedHeight : Int)
      (r : MethodRun env m valid guard s chain) (hv : valid (chain ++ blocks))
      (h : m.advanceBlocks env s cachedHeight blocks = .ok s') :
      MethodRun env m valid guard s' (chain ++ blocks)
  | flushed {s s' : BlockProcessor} {chain : List Block} (flushUtxos : Bool)
      (r : MethodRun env m valid guard s chain) (h : s.flush env flushUtxos = .ok s') :
      MethodRun env m valid guard s' chain
  | backedUp {s s' : BlockProcessor} {chain blocks : List Block}
      (r : MethodRun env m valid guard s (chain ++ blocks)) (hg : guard s chain blocks)
      (h : m.backupChunk env s (blocks.map (·.raw)).reverse = .ok s') :
      MethodRun env m valid guard s' chain
  | notified {s : BlockProcessor} {chain : List Block} (r : MethodRun env m valid guard s chain) :
      MethodRun env m valid guard { s with touched := ∅ } chain

/-- The states that it reaches from `s₀` by advancing blocks with undo information and
flushing, and the chain of each. -/
inductive MethodForward (env : Env) (m : TxMethods) (valid : List Block → Prop)
    (s₀ : BlockProcessor) (chain₀ : List Block) : BlockProcessor → List Block → Prop
  | start : MethodForward env m valid s₀ chain₀ s₀ chain₀
  | advanced {s s' : BlockProcessor} {chain blocks : List Block} {cachedHeight : Int}
      (r : MethodForward env m valid s₀ chain₀ s chain) (hk : KeepsUndo env cachedHeight chain)
      (hv : valid (chain ++ blocks)) (h : m.advanceBlocks env s cachedHeight blocks = .ok s') :
      MethodForward env m valid s₀ chain₀ s' (chain ++ blocks)
  | flushed {s s' : BlockProcessor} {chain : List Block} (flushUtxos : Bool)
      (r : MethodForward env m valid s₀ chain₀ s chain) (h : s.flush env flushUtxos = .ok s') :
      MethodForward env m valid s₀ chain₀ s' chain

/-- A reorganisation of one chunk backs up blocks that it receives. -/
theorem MethodRun.reorgChain {env : Env} {m : TxMethods} {valid : List Block → Prop}
    {guard : BlockProcessor → List Block → List Block → Prop}
    {blockHexHashes : Int → Int → Except PyError (List String)}
    {daemonRawBlocks : List String → Except PyError (List Bytes)}
    {s flushed s' : BlockProcessor} {chain blocks : List Block} {count : Option Int}
    {range : Int × Int × List Bytes} (r : MethodRun env m valid guard s (chain ++ blocks))
    (hflush : s.flush env true = .ok flushed)
    (hrange : flushed.reorgHashes env blockHexHashes count = .ok range)
    (hchunk : BlockProcessor.reorgChunks range.2.2 = [hexHashes env blocks])
    (hraw : BlockProcessor.getRawBlocks daemonRawBlocks flushed.db range.2.1
      (hexHashes env blocks) = .ok (blocks.map (·.raw)).reverse)
    (hg : guard flushed chain blocks)
    (h : m.reorgChain env blockHexHashes daemonRawBlocks s count = .ok s') :
    MethodRun env m valid guard s' chain := by
  rw [TxMethods.reorgChain, BlockProcessor.reorgChainBy_of_chunk hflush hrange hchunk hraw] at h
  exact .backedUp (.flushed true r hflush) hg h

/-- A weaker guard allows more runs. -/
theorem MethodRun.mono {env : Env} {m : TxMethods} {valid : List Block → Prop}
    {guard guard' : BlockProcessor → List Block → List Block → Prop} {s : BlockProcessor}
    {chain : List Block} (r : MethodRun env m valid guard s chain)
    (hg : ∀ s c bs, guard s c bs → guard' s c bs) : MethodRun env m valid guard' s chain := by
  induction r with
  | opened h => exact .opened h
  | advanced cachedHeight _ hv h ih => exact .advanced cachedHeight ih hv h
  | flushed flushUtxos _ h ih => exact .flushed flushUtxos ih h
  | backedUp _ h hs ih => exact .backedUp ih (hg _ _ _ h) hs
  | notified _ ih => exact .notified ih

section Runs

variable {env : Env} {m : TxMethods} {tells : List Block → HashX → List Nat}
variable {valid : List Block → Prop} {s s' : BlockProcessor} {recorded stored chain : List Block}

/-- A batch that was advanced had a block. -/
theorem ne_nil_of_methodAdvance {cachedHeight : Int} {blocks : List Block}
    (h : m.advanceBlocks env s cachedHeight blocks = .ok s') : blocks ≠ [] := by
  rintro rfl
  cases h

/-- Only a fully flushed processor backs up, at least one block, and not the first one. -/
theorem Held.of_backupChunk {c bs : List Block} (h : Held env tells s recorded stored (c ++ bs))
    (hok : m.backupChunk env s (bs.map (·.raw)).reverse = .ok s') :
    Held env tells s (c ++ bs) (c ++ bs) (c ++ bs) ∧ c ≠ [] ∧ bs ≠ [] := by
  obtain ⟨s1, h1, h2⟩ := bind_eq_ok.mp hok
  obtain ⟨_, h3, h4⟩ := bind_eq_ok.mp h1
  obtain ⟨_, h5, h6⟩ := bind_eq_ok.mp h4
  have hge := assertThat_eq_ok.mp h5
  rw [List.length_reverse, List.length_map] at hge
  have hlen := h.height_eq
  rw [List.length_append] at hlen
  have hfull := h.of_fullyFlushed h3
  have hheight := hfull.db.dbHeight
  rw [List.length_append] at hheight
  refine ⟨hfull, ?_, ?_⟩
  · rintro rfl
    rw [List.length_nil] at hlen
    omega
  · rintro rfl
    cases h6
    obtain ⟨⟨fd, db⟩, h9, -⟩ := bind_eq_ok.mp h2
    obtain ⟨_, -, h10⟩ := bind_eq_ok.mp h9
    obtain ⟨_, -, h11⟩ := bind_eq_ok.mp h10
    obtain ⟨_, h12, -⟩ := bind_eq_ok.mp h11
    have hlt : s.height < s.db.dbHeight := assertThat_eq_ok.mp h12
    omega

/-- Resetting `touched` keeps the invariant. -/
theorem Held.notified (h : Held env tells s recorded stored chain) :
    Held env tells { s with touched := ∅ } recorded stored chain :=
  { h with
    db := h.db
    history := h.history
    utxo := h.utxo
    touched := fun x hx ↦ by simp at hx
    undoHeights := h.undoHeights }

/-- On a new disk the history tells nothing. -/
theorem Held.of_nil (h : Held env (touching env.coin) s [] [] [])
    (ht : ∀ hashX, tells [] hashX = []) : Held env tells s [] [] [] := by
  have he : tells [] = touching env.coin [] := funext fun hashX ↦ (ht hashX).trans rfl
  exact
    { h with
      db := h.db
      history := he ▸ h.history
      utxo := h.utxo
      touched := h.touched
      undoHeights := h.undoHeights }

/-- The invariant holds in every state of a run whose back-ups find the undo rows of their own
blocks and know the script hashes to cut. -/
theorem MethodLaws.held (laws : MethodLaws env m tells valid)
    (r : MethodRun env m valid (fun s c bs ↦ OwnUndos env s.db c bs ∧ Covered env tells s c bs)
      s chain) :
    (chain ≠ [] → valid chain) ∧ ∃ recorded stored, Held env tells s recorded stored chain := by
  induction r with
  | opened h =>
    obtain ⟨s', h', hi, -⟩ := (Recoverable.fresh env).open
    cases h'.symm.trans h
    exact ⟨fun hne ↦ absurd rfl hne, [], [], hi.held.of_nil laws.tells_nil⟩
  | advanced cachedHeight _ hv h ih =>
    obtain ⟨-, recorded, stored, hi⟩ := ih
    obtain ⟨s', h', hi', -⟩ := laws.advanceBlocks hi (ne_nil_of_methodAdvance h) hv cachedHeight
    cases h'.symm.trans h
    exact ⟨fun _ ↦ hv, recorded, stored, hi'⟩
  | flushed flushUtxos _ h ih =>
    obtain ⟨hv, recorded, stored, hi⟩ := ih
    exact ⟨hv, _, _, hi.flush h⟩
  | backedUp _ hg h ih =>
    obtain ⟨hv, recorded, stored, hi⟩ := ih
    obtain ⟨hi, hc, hbs⟩ := hi.of_backupChunk h
    have hv := hv (by simp [hc])
    obtain ⟨s', h', hi', -⟩ := laws.backupChunk hi hv hc hbs hg.1 hg.2
    cases h'.symm.trans h
    exact ⟨fun _ ↦ laws.left hv, _, _, hi'⟩
  | notified _ ih =>
    obtain ⟨hv, recorded, stored, hi⟩ := ih
    exact ⟨hv, recorded, stored, hi.notified⟩

/-- Of the blocks on top of `base`, the recorded ones have their undo information in its rows, and
that of the others is pending. -/
theorem MethodLaws.undos_kept (laws : MethodLaws env m tells valid) {s₀ : BlockProcessor}
    {base : List Block} (r : MethodForward env m valid s₀ base s chain)
    (h : Held env tells s₀ base base base) :
    (chain ≠ base → valid chain) ∧
    ∃ mid rest stored, chain = base ++ mid ++ rest ∧ Held env tells s (base ++ mid) stored chain ∧
      OwnUndos env s.db base mid ∧ s.undoInfos = undos env (base ++ mid) rest := by
  induction r with
  | start =>
    exact ⟨fun hne ↦ absurd rfl hne, [], [], base, by simp, by rwa [List.append_nil], trivial,
      h.nothing_pending.2.2⟩
  | @advanced _ _ _ blocks cachedHeight _ hk hv hs ih =>
    obtain ⟨-, mid, rest, stored, rfl, hi, hrows, hpend⟩ := ih
    obtain ⟨s', h', hi', hd, hu⟩ :=
      laws.advanceBlocks hi (ne_nil_of_methodAdvance hs) hv cachedHeight
    cases h'.symm.trans hs
    refine ⟨fun _ ↦ hv, mid, rest ++ blocks, stored, by simp, hi',
      hrows.congr fun n _ _ ↦ ?_, ?_⟩
    · exact congrArg (fun d : Disk ↦ d.utxo[prefixUndo :: packBE 4 n]?) hd.disk
    · rw [hu, undosFrom_eq_undos hk, hpend, undos_append]
  | flushed flushUtxos _ hs ih =>
    obtain ⟨hv, mid, rest, stored, rfl, hi, hrows, hpend⟩ := ih
    have hi' := hi.flush hs
    cases flushUtxos with
    | true =>
      obtain ⟨hrows', hpend'⟩ := hi.flush_undos hrows hpend hs
      rw [if_pos rfl, List.append_assoc] at hi'
      rw [List.append_assoc] at hv ⊢
      exact ⟨hv, mid ++ rest, [], _, by simp, hi', hrows', hpend'⟩
    | false =>
      obtain ⟨hrows', hpend'⟩ := hi.flush_undos_false hrows hs
      exact ⟨hv, mid, rest, _, rfl, hi', hrows', hpend'.trans hpend⟩

end Runs
end ElectrumX.Index
