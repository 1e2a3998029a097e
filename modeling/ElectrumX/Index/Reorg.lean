import ElectrumX.Index.Run

/-!
# Reorganisations

Blocks that are advanced with undo information leave their own undo rows once they are
flushed, so backing them up again returns the processor to where it was before them.
-/

namespace ElectrumX.Index
open ElectrumX.Base ElectrumX.Lib ElectrumX.Chain ElectrumX.Server

/-- The states that a processor reaches from `s₀` by advancing and flushing, and the chain of
each; `keep` restricts the cached heights of the daemon. -/
inductive Forward (env : Env) (keep : Int → List Block → Prop) (s₀ : BlockProcessor)
    (chain₀ : List Block) : BlockProcessor → List Block → Prop
  | start : Forward env keep s₀ chain₀ s₀ chain₀
  | advanced {s s' : BlockProcessor} {chain blocks : List Block} {cachedHeight : Int}
      (r : Forward env keep s₀ chain₀ s chain) (hk : keep cachedHeight chain)
      (hv : ValidChain env.coin (chain ++ blocks))
      (h : s.advanceBlocks env cachedHeight blocks = .ok s') :
      Forward env keep s₀ chain₀ s' (chain ++ blocks)
  | flushed {s s' : BlockProcessor} {chain : List Block} (flushUtxos : Bool)
      (r : Forward env keep s₀ chain₀ s chain) (h : s.flush env flushUtxos = .ok s') :
      Forward env keep s₀ chain₀ s' chain

/-- At the daemon's cached height undo information is kept of the next block on. -/
def KeepsUndo (env : Env) (cachedHeight : Int) (chain : List Block) : Prop :=
  DB.minUndoHeight env cachedHeight ≤ chain.length

instance (env : Env) (cachedHeight : Int) (chain : List Block) :
    Decidable (KeepsUndo env cachedHeight chain) := inferInstanceAs (Decidable (_ ≤ _))

/-- `assert_flushed` passes. -/
def FullyFlushed (s : BlockProcessor) : Prop := s.db.assertFlushed s.flushData = .ok ()

instance (s : BlockProcessor) : Decidable (FullyFlushed s) := inferInstanceAs (Decidable (_ = _))

section Undo

variable {env : Env} {tells : List Block → HashX → List Nat} {s s' : BlockProcessor}
variable {recorded stored chain : List Block}

/-- A fully flushed processor records its chain. -/
theorem Held.of_fullyFlushed (h : Held env tells s recorded stored chain) (hf : FullyFlushed s) :
    Held env tells s chain chain chain := by
  obtain ⟨_, -, h1⟩ := bind_eq_ok.mp hf
  obtain ⟨_, h2, -⟩ := bind_eq_ok.mp h1
  have hheights : s.height = s.db.fsHeight ∧ s.db.fsHeight = s.db.dbHeight := assertThat_eq_ok.mp h2
  obtain ⟨rfl, rfl⟩ := h.eq_of_height (hheights.1.trans hheights.2)
  exact h

theorem Indexed.of_fullyFlushed (h : Indexed env s recorded stored chain) (hf : FullyFlushed s) :
    Indexed env s chain chain chain := (h.held.of_fullyFlushed hf).indexed h.valid

/-- The undo information of blocks on top of a chain, all of it. -/
def undos (env : Env) : List Block → List Block → List (List Bytes × Int) :=
  undosFrom env 0

theorem undos_cons (chain : List Block) (b : Block) (rest : List Block) :
    undos env chain (b :: rest) = ((spentBy env.coin chain b).map packed, (chain.length : Int)) ::
      undos env (chain ++ [b]) rest := by
  rw [undos, undosFrom, if_pos (Int.natCast_nonneg _)]
  rfl

theorem undosFrom_eq_undos {minHeight : Int} {chain blocks : List Block}
    (h : minHeight ≤ chain.length) : undosFrom env minHeight chain blocks = undos env chain blocks := by
  induction blocks generalizing chain with
  | nil => rfl
  | cons b rest ih =>
    have hlen : minHeight ≤ (chain ++ [b]).length := by
      rw [List.length_append]
      omega
    rw [undosFrom, ih hlen, if_pos h, undos_cons]
    rfl

theorem undos_append (chain a b : List Block) :
    undos env chain (a ++ b) = undos env chain a ++ undos env (chain ++ a) b := by
  induction a generalizing chain with
  | nil => rw [List.nil_append, List.append_nil]; rfl
  | cons x xs ih =>
    rw [List.cons_append, undos_cons, undos_cons, ih, List.cons_append, ← List.append_cons]

/-- Undo information is kept in the order of the heights. -/
theorem undos_pairwise (env : Env) (chain blocks : List Block) :
    (undos env chain blocks).Pairwise (fun u w ↦ u.2 < w.2) ∧
      ∀ u ∈ undos env chain blocks, (chain.length : Int) ≤ u.2 := by
  induction blocks generalizing chain with
  | nil => exact ⟨List.Pairwise.nil, fun u hu ↦ by cases hu⟩
  | cons b rest ih =>
    obtain ⟨h1, h2⟩ := ih (chain ++ [b])
    have h2' : ∀ u ∈ undos env (chain ++ [b]) rest, (chain.length : Int) < u.2 := by
      intro u hu
      have := h2 u hu
      rw [List.length_append, List.length_singleton] at this
      omega
    rw [undos_cons]
    refine ⟨List.pairwise_cons.mpr ⟨h2', h1⟩, fun u hu ↦ ?_⟩
    rcases List.mem_cons.mp hu with rfl | hu
    · exact Int.le_refl _
    · exact (h2' u hu).le

/-- Blocks whose undo information lies in its rows have their own undo rows. -/
theorem ownUndos_of_rows {db : DB} {chain blocks : List Block}
    (hfit : UndoKeysFit (undos env chain blocks))
    (h : ∀ u ∈ undos env chain blocks,
      db.utxoDb[prefixUndo :: packBE 4 u.2.toNat]? = some u.1.flatten) :
    OwnUndos env db chain blocks := by
  induction blocks generalizing chain with
  | nil => trivial
  | cons b rest ih =>
    rw [undos_cons] at h hfit
    refine ⟨?_, ih (fun u hu ↦ hfit u (List.mem_cons_of_mem _ hu))
      fun u hu ↦ h u (List.mem_cons_of_mem _ hu)⟩
    have hrow := h _ List.mem_cons_self
    have hkey : DB.undoKey chain.length = .ok (prefixUndo :: packBE 4 (chain.length : Int).toNat) := by
      rw [DB.undoKey, packBeUint32, if_pos (hfit _ List.mem_cons_self)]
      rfl
    rw [OwnUndo, DB.readUndoInfo, hkey]
    change Except.ok _ = _
    rw [hrow, ← List.flatMap_def]

/-- A flush of the UTXOs writes the pending undo information to its rows. -/
theorem Held.flush_undos {base mid rest : List Block}
    (h : Held env tells s (base ++ mid) stored (base ++ mid ++ rest))
    (hrows : OwnUndos env s.db base mid) (hpend : s.undoInfos = undos env (base ++ mid) rest)
    (hf : s.flush env true = .ok s') :
    OwnUndos env s'.db base (mid ++ rest) ∧ s'.undoInfos = [] := by
  obtain ⟨more, hmore⟩ := h.stored_prefix
  rw [← hmore] at h
  rcases h.flush_cases hf with ⟨he, -, rfl⟩ | ⟨rows, pend, hdb, -, rfl, -, hfit, -⟩
  · obtain rfl : rest = [] := List.self_eq_append_right.mp (he.trans hmore)
    rw [List.append_nil]
    exact ⟨hrows, hpend⟩
  · have hfit := hfit rfl
    have hget (k : Bytes) := getElem?_flushedDb_undo h hdb true k
    obtain ⟨hlt, hle⟩ := undos_pairwise env (base ++ mid) rest
    refine ⟨ownUndos_append.mpr ⟨hrows.congr fun n hn hn32 ↦ ?_, ?_⟩, rfl⟩
    · refine (hget _).trans (Table.getElem?_write_puts_of_notMem _ _ _ fun w hw ↦ ?_)
      obtain ⟨u, hu, he⟩ := List.mem_map.mp hw
      have hu' : u ∈ undos env (base ++ mid) rest := hpend ▸ hu
      have h1 := hle u hu'
      have h2 := hfit u hu
      have h3 := (packBE_inj (w := 4) (by omega) (by omega)).mp
        (List.cons.inj (Prod.mk.inj he).1).2
      omega
    · rw [hpend] at hfit
      refine ownUndos_of_rows hfit fun u hu ↦ ?_
      refine (hget _).trans (Table.getElem?_write_puts_of_mem _ _ _ _ ?_ fun w hw ↦ ?_)
      · exact List.mem_map.mpr ⟨u, hpend ▸ hu, rfl⟩
      · obtain ⟨x, hx, he⟩ := List.mem_map.mp hw
        have hx' : x ∈ undos env (base ++ mid) rest := hpend ▸ hx
        have h1 := hfit u hu
        have h2 := hfit x hx'
        have h3 := (packBE_inj (w := 4) (by omega) (by omega)).mp
          (List.cons.inj (Prod.mk.inj he).1).2
        have hn : ((undos env (base ++ mid) rest).map Prod.snd).Nodup :=
          (List.pairwise_map.mpr hlt).imp Int.ne_of_lt
        have hxu := List.inj_on_of_nodup_map hn hx' hu (by omega)
        rw [← (Prod.mk.inj he).2, hxu]

/-- A flush without the UTXOs changes no undo row. -/
theorem Held.flush_undos_false {c bs : List Block} (h : Held env tells s recorded stored chain)
    (hrows : OwnUndos env s.db c bs) (hf : s.flush env false = .ok s') :
    OwnUndos env s'.db c bs ∧ s'.undoInfos = s.undoInfos := by
  obtain ⟨more, rfl⟩ := h.stored_prefix
  rcases h.flush_cases hf with ⟨-, -, rfl⟩ | ⟨rows, pend, hdb, -, rfl, -⟩
  · exact ⟨hrows, rfl⟩
  · exact ⟨hrows.congr fun n _ _ ↦ getElem?_flushedDb_undo h hdb false _, rfl⟩

end Undo

section Restoring

variable {env : Env} {s : BlockProcessor} {chain : List Block}

/-- Advancing and flushing keep the invariant. -/
theorem Forward.indexed {keep : Int → List Block → Prop} {s₀ : BlockProcessor}
    {recorded₀ stored₀ chain₀ : List Block} (r : Forward env keep s₀ chain₀ s chain)
    (h : Indexed env s₀ recorded₀ stored₀ chain₀) :
    ∃ recorded stored, Indexed env s recorded stored chain := by
  induction r with
  | start => exact ⟨_, _, h⟩
  | advanced _ _ hv hs ih =>
    obtain ⟨recorded, stored, hi⟩ := ih
    obtain ⟨s', h', hi', -⟩ := hi.advanceBlocks (ne_nil_of_advanceBlocks hs) hv _
    cases h'.symm.trans hs
    exact ⟨_, _, hi'⟩
  | flushed flushUtxos _ hs ih =>
    obtain ⟨recorded, stored, hi⟩ := ih
    exact ⟨_, _, hi.flush hs⟩

/-- While undo information is kept, that of the recorded blocks lies in their rows and that of
the others is pending. -/
theorem Forward.undos_kept {s₀ : BlockProcessor} {base : List Block}
    (r : Forward env (KeepsUndo env) s₀ base s chain) (h : Indexed env s₀ base base base) :
    ∃ mid rest stored, chain = base ++ mid ++ rest ∧ Indexed env s (base ++ mid) stored chain ∧
      OwnUndos env s.db base mid ∧ s.undoInfos = undos env (base ++ mid) rest := by
  induction r with
  | start =>
    refine ⟨[], [], base, by simp, by rwa [List.append_nil], trivial, h.nothing_pending.2.2⟩
  | @advanced _ _ _ blocks cachedHeight _ hk hv hs ih =>
    obtain ⟨mid, rest, stored, rfl, hi, hrows, hpend⟩ := ih
    obtain ⟨s', h', hi', hd, hu⟩ := hi.advanceBlocks (ne_nil_of_advanceBlocks hs) hv cachedHeight
    cases h'.symm.trans hs
    refine ⟨mid, rest ++ blocks, stored, by simp, hi', hrows.congr fun n _ _ ↦ ?_, ?_⟩
    · exact congrArg (fun d : Disk ↦ d.utxo[prefixUndo :: packBE 4 n]?) hd.disk
    · rw [hu, undosFrom_eq_undos hk, hpend, undos_append]
  | flushed flushUtxos _ hs ih =>
    obtain ⟨mid, rest, stored, rfl, hi, hrows, hpend⟩ := ih
    have hi' := hi.flush hs
    cases flushUtxos with
    | true =>
      obtain ⟨hrows', hpend'⟩ := hi.held.flush_undos hrows hpend hs
      rw [if_pos rfl, List.append_assoc] at hi'
      rw [List.append_assoc]
      exact ⟨mid ++ rest, [], _, by simp, hi', hrows', hpend'⟩
    | false =>
      obtain ⟨hrows', hpend'⟩ := hi.held.flush_undos_false hrows hs
      exact ⟨mid, rest, _, rfl, hi', hrows', hpend'.trans hpend⟩

/-- Backing up chunk by chunk, from the top down. -/
def backupChunks (env : Env) (s : BlockProcessor) (chunks : List (List Block)) :
    Except PyError BlockProcessor :=
  chunks.reverse.foldlM (fun s chunk ↦ s.backupChunk env (chunk.map (·.raw)).reverse) s

theorem Indexed.backupChunks {base : List Block} {chunks : List (List Block)}
    (h : Indexed env s (base ++ chunks.flatten) (base ++ chunks.flatten) (base ++ chunks.flatten))
    (hne : base ≠ []) (hc : ∀ chunk ∈ chunks, chunk ≠ [])
    (hown : OwnUndos env s.db base chunks.flatten) :
    ∃ s', backupChunks env s chunks = .ok s' ∧ Indexed env s' base base base := by
  induction chunks using List.reverseRecOn generalizing s with
  | nil => exact ⟨s, rfl, by rwa [List.flatten_nil, List.append_nil] at h⟩
  | append_singleton init last ih =>
    have hflat : (init ++ [last]).flatten = init.flatten ++ last := by simp
    rw [hflat, ← List.append_assoc] at h
    rw [hflat] at hown
    obtain ⟨hinit, hlast⟩ := ownUndos_append.mp hown
    obtain ⟨s1, hs1, h1, -, -, -, hsame⟩ := h.backupChunk (by simp [hne])
      (hc last (by simp)) hlast
    obtain ⟨s', hs', h'⟩ := ih h1 (fun chunk hm ↦ hc chunk (List.mem_append_left _ hm))
      (hinit.congr fun n _ _ ↦ hsame _)
    refine ⟨s', ?_, h'⟩
    rw [Index.backupChunks, List.reverse_concat, List.foldlM_cons]
    simp only [hs1, bind, Except.bind]
    exact hs'

/-- What backing up blocks gives back of the state before they were advanced. -/
structure Restored (s s' : BlockProcessor) : Prop where
  height : s'.height = s.height
  tip : s'.tip = s.tip
  txCount : s'.txCount = s.txCount
  txCounts : s'.db.txCounts = s.db.txCounts
  hRows : ∀ k, s'.db.utxoDb[prefixH :: k]? = s.db.utxoDb[prefixH :: k]?
  uRows : ∀ k, s'.db.utxoDb[prefixU :: k]? = s.db.utxoDb[prefixU :: k]?
  utxoCache : s'.utxoCache = ∅
  dbDeletes : s'.dbDeletes = []

end Restoring

/-- Fully flushed processors of one chain have the same heights, totals and UTXO rows. -/
theorem Held.restored {env : Env} {tells : List Block → HashX → List Nat} {s s' : BlockProcessor}
    {chain : List Block} (h : Held env tells s chain chain chain)
    (h' : Held env tells s' chain chain chain) : Restored s s' where
  height := by
    have h1 := h.height_eq
    have h2 := h'.height_eq
    omega
  tip := h'.tip_eq.trans h.tip_eq.symm
  txCount := h'.txCount_eq.trans h.txCount_eq.symm
  txCounts := h'.counts_eq.trans h.counts_eq.symm
  hRows k := Option.ext fun v ↦ (h'.utxo.hRow k v).trans (h.utxo.hRow k v).symm
  uRows k := Option.ext fun v ↦ (h'.utxo.uRow k v).trans (h.utxo.uRow k v).symm
  utxoCache := h'.nothing_pending.1
  dbDeletes := h'.nothing_pending.2.1

/-- In a run whose back-ups have found the undo rows of their own blocks, blocks that are
advanced with undo information on top of a fully flushed state and flushed can be backed up
again in any chunks, which restores that state. -/
theorem Run.backup_restores {env : Env} {s₀ s : BlockProcessor} {base : List Block}
    {chunks : List (List Block)} (h : Run env (OwnUndos env) s₀ base) (hf₀ : FullyFlushed s₀)
    (h₀ : 0 ≤ s₀.height) (r : Forward env (KeepsUndo env) s₀ base s (base ++ chunks.flatten))
    (hf : FullyFlushed s) (hc : ∀ chunk ∈ chunks, chunk ≠ []) :
    ∃ s', backupChunks env s chunks = .ok s' ∧ Restored s₀ s' := by
  obtain ⟨_, _, hi⟩ := h.indexed
  have hi₀ := hi.of_fullyFlushed hf₀
  have hne : base ≠ [] := by
    rintro rfl
    have := hi₀.height_eq
    rw [List.length_nil] at this
    omega
  obtain ⟨mid, rest, stored, he, hs, hrows, -⟩ := r.undos_kept hi₀
  have hs' := hs.of_fullyFlushed hf
  have hmid : base ++ mid = base ++ chunks.flatten := by
    have h1 := hs.db.dbHeight
    have h2 := hs'.db.dbHeight
    have hl : (base ++ mid).length = (base ++ chunks.flatten).length := by omega
    exact (he ▸ List.prefix_append (base ++ mid) rest).eq_of_length hl
  obtain rfl := List.append_cancel_left hmid
  obtain ⟨s', hok, hi'⟩ := hs'.backupChunks hne hc hrows
  exact ⟨s', hok, hi₀.held.restored hi'.held⟩

/-- The first block of the sample chain, flushed. -/
def sampleStart : Except PyError BlockProcessor := do
  let s ← BlockProcessor.firstOpenDbs sampleEnv { created := false }
  let s ← s.advanceBlocks sampleEnv 1 [sampleGenesis]
  s.flush sampleEnv true

theorem sampleStart_run {guard : DB → List Block → List Block → Prop} {s : BlockProcessor}
    (h : sampleStart = .ok s) : Run sampleEnv guard s [sampleGenesis] := by
  obtain ⟨s1, h1, h2⟩ := bind_eq_ok.mp h
  obtain ⟨s2, h2, h3⟩ := bind_eq_ok.mp h2
  exact .flushed true (.advanced 1 (.opened h1) (by decide +kernel) h2) h3

/-- A block is advanced with undo information, and flushed. -/
def sampleForward (env : Env) (s : BlockProcessor) (b : Block) : Except PyError BlockProcessor := do
  let s ← s.advanceBlocks env 1 [b]
  s.flush env true

private theorem sampleForward_forward {env : Env} {s₀ s : BlockProcessor} {b : Block}
    (hk : KeepsUndo env 1 [sampleGenesis]) (hv : ValidChain env.coin [sampleGenesis, b])
    (h : sampleForward env s₀ b = .ok s) :
    Forward env (KeepsUndo env) s₀ [sampleGenesis] s [sampleGenesis, b] := by
  obtain ⟨s1, h1, h⟩ := bind_eq_ok.mp h
  exact .flushed true (.advanced .start hk hv h1) h

theorem sampleStart_restored : ∃ s₀ s s', sampleStart = .ok s₀ ∧
    sampleForward sampleEnv s₀ sampleA = .ok s ∧ backupChunks sampleEnv s [[sampleA]] = .ok s' ∧
    Restored s₀ s' := by
  obtain ⟨s₀, h₀, hf₀, hheight, s, h, hf⟩ : ∃ s₀, sampleStart = .ok s₀ ∧ FullyFlushed s₀ ∧
    0 ≤ s₀.height ∧ ∃ s, sampleForward sampleEnv s₀ sampleA = .ok s ∧ FullyFlushed s := by
    decide +kernel
  have hv : ValidChain sampleCoin [sampleGenesis, sampleA] := by decide +kernel
  have r₀ : Run sampleEnv (OwnUndos sampleEnv) s₀ [sampleGenesis] := sampleStart_run h₀
  have r : Forward sampleEnv (KeepsUndo sampleEnv) s₀ [sampleGenesis] s
      ([sampleGenesis] ++ [[sampleA]].flatten) := sampleForward_forward (by decide) hv h
  obtain ⟨s', hs', hr⟩ := r₀.backup_restores hf₀ hheight r hf (by simp)
  exact ⟨s₀, s, s', h₀, h, hs', hr⟩

/-- A block whose txid starts with the same bytes as that of the first block. -/
def sampleC : Block := sampleBlock 3 (sampleCoin.headerHash sampleGenesis.header)

/-- The key, without its prefix, of the row that the stale undo row brings back. -/
def staleRow : Bytes := (sampleHash [10]).val.take compTxidLen ++ packLE 4 0 ++ packLE txnumLen 1

/-- The output of `c` has the key of the row that the stale undo row has left, so the row goes
with the block, although every block that is backed up is one that `get_raw_blocks` has got. -/
theorem not_backup_restores : ¬ ∀ (env : Env) (s₀ s : BlockProcessor) (base : List Block)
    (chunks : List (List Block)), Run env (Received env) s₀ base → FullyFlushed s₀ →
    0 ≤ s₀.height → Forward env (KeepsUndo env) s₀ base s (base ++ chunks.flatten) →
    FullyFlushed s → (∀ chunk ∈ chunks, chunk ≠ []) → Received env s.db base chunks.flatten →
    ∃ s', backupChunks env s chunks = .ok s' ∧ Restored s₀ s' := by
  intro hall
  obtain ⟨s₀, h₀, hf₀, hheight, s, h, hf, hreceived, s', hs', hne⟩ : ∃ s₀, sampleStale = .ok s₀ ∧
    FullyFlushed s₀ ∧ 0 ≤ s₀.height ∧ ∃ s, sampleForward staleEnv s₀ sampleC = .ok s ∧
    FullyFlushed s ∧ Received staleEnv s.db [sampleGenesis] [sampleC] ∧
    ∃ s', backupChunks staleEnv s [[sampleC]] = .ok s' ∧
      s'.db.utxoDb[prefixH :: staleRow]? ≠ s₀.db.utxoDb[prefixH :: staleRow]? := by decide +kernel
  have hv : ValidChain staleEnv.coin [sampleGenesis, sampleC] := by decide +kernel
  obtain ⟨s'', hs'', hr⟩ := hall staleEnv s₀ s [sampleGenesis] [[sampleC]] (sampleStale_run h₀) hf₀
    hheight (sampleForward_forward (by decide) hv h) hf (by simp) hreceived
  cases hs'.symm.trans hs''
  exact hne (hr.hRows staleRow)

end ElectrumX.Index
