import ElectrumX.Index.ReorgRange
import ElectrumX.Server.DecredDaemon

/-!
# Reorganisations in Decred

The model of `DecredBlockProcessor` in `server/block_processor.py`. A block that both chains share
may be served differently when the blocks on top of it vote differently, so one block more is backed
up.
-/

namespace ElectrumX.Server.DecredBlockProcessor
open ElectrumX.Lib

/-- `calc_reorg_range` of `DecredBlockProcessor`, `block_processor.py:734–740`. -/
def calcReorgRange (env : Env) (blockHexHashes : Int → Int → Except PyError (List String))
    (bp : BlockProcessor) (count : Option Int) : Except PyError (Int × Int) := do
  let (start, count) ← bp.calcReorgRange env blockHexHashes count
  if start > 0 then return (start - 1, count + 1)
  else return (start, count)

end ElectrumX.Server.DecredBlockProcessor

namespace ElectrumX.Index
open ElectrumX.Base ElectrumX.Lib ElectrumX.Server

/-- The block that a daemon with a chain serves at a height. -/
def servedAt (blake256 : Bytes → Hash32) (chain : List Bytes) (k : Nat) :
    Option (Except DecredError Bytes) :=
  chain[k]?.map fun raw ↦ DecredDaemon.served blake256 raw chain[k + 1]?

section Decred

variable {env : Env} {s : BlockProcessor}
  {blockHexHashes : Int → Int → Except PyError (List String)} {ours theirs : List Bytes}
  {fork : Nat} {blocks blocks' : List Bytes}

/-- Below the last block that the chains share, the same blocks are served. -/
theorem ForksAt.servedAt_eq (h : ForksAt ours theirs fork)
    (hcommit : ∀ k : Nat, ours[k]? = theirs[k]? → blocks[k]? = blocks'[k]?)
    (blake256 : Bytes → Hash32) {k : Nat} (hk : k + 1 < fork) :
    servedAt blake256 blocks k = servedAt blake256 blocks' k := by
  rw [servedAt, servedAt, hcommit k (h.same k (by omega)), hcommit (k + 1) (h.same (k + 1) hk)]

/-- When the blocks at the fork vote differently, the block in front of them is served differently,
unless it has nothing to lose. -/
theorem servedAt_ne {blake256 : Bytes → Hash32} {k : Nat} {raw next next' : Bytes}
    (hraw : blocks[k]? = some raw) (hraw' : blocks'[k]? = some raw)
    (hnext : blocks[k + 1]? = some next) (hnext' : blocks'[k + 1]? = some next')
    (hvote : DecredDaemon.Approves next ↔ ¬DecredDaemon.Approves next')
    (hstrip : DecredDaemon.stripTxTree blake256 raw ≠ .ok raw) :
    servedAt blake256 blocks k ≠ servedAt blake256 blocks' k := by
  have hne : DecredDaemon.raising (DecredDaemon.stripTxTree blake256 raw) ≠ .ok raw := by
    intro heq
    cases hs : DecredDaemon.stripTxTree blake256 raw with
    | ok raw' =>
      rw [hs] at heq hstrip
      cases heq
      exact hstrip rfl
    | error e =>
      rw [hs] at heq
      cases heq
  simp only [servedAt, hraw, hraw', hnext, hnext', Option.map_some, DecredDaemon.served]
  by_cases happroves : DecredDaemon.Approves next
  · rw [if_pos happroves, if_neg (hvote.mp happroves)]
    exact fun heq ↦ hne (Option.some.inj heq).symm
  · rw [if_neg happroves, if_pos (not_not.mp fun hnot ↦ happroves (hvote.mpr hnot))]
    exact fun heq ↦ hne (Option.some.inj heq)

/-- **A Decred reorg backs up every block that is served differently**: the range ends at the tip
and starts at the last block that the chains share, or at the genesis block; in front of it the
daemon serves the same blocks for the one chain as for the other, while that block is served
differently when the blocks at the fork vote differently and it has something to lose. -/
theorem decredRange_covers (ha : Answer env s blockHexHashes ours theirs)
    (h : ForksAt ours theirs fork)
    (hcommit : ∀ k : Nat, ours[k]? = theirs[k]? → blocks[k]? = blocks'[k]?)
    (blake256 : Bytes → Hash32) :
    ∃ start count : Nat, DecredBlockProcessor.calcReorgRange env blockHexHashes s none =
        .ok ((start : Int), (count : Int)) ∧
      (start : Int) + count = s.height + 1 ∧ (start = 0 ∨ start + 1 = fork) ∧
      (∀ k < start, servedAt blake256 blocks k = servedAt blake256 blocks' k) ∧
      ∀ raw next next', blocks[fork - 1]? = some raw → blocks[fork]? = some next →
        blocks'[fork]? = some next' →
        (DecredDaemon.Approves next ↔ ¬DecredDaemon.Approves next') →
        DecredDaemon.stripTxTree blake256 raw ≠ .ok raw →
        servedAt blake256 blocks (fork - 1) ≠ servedAt blake256 blocks' (fork - 1) := by
  have hrange := ha.calcReorgRange_eq h
  have hheight := ha.height
  have hpos := h.pos
  have hlt := h.lt
  have hdiffer : ∀ raw next next', blocks[fork - 1]? = some raw → blocks[fork]? = some next →
      blocks'[fork]? = some next' →
      (DecredDaemon.Approves next ↔ ¬DecredDaemon.Approves next') →
      DecredDaemon.stripTxTree blake256 raw ≠ .ok raw →
      servedAt blake256 blocks (fork - 1) ≠ servedAt blake256 blocks' (fork - 1) := by
    intro raw next next' hraw hnext hnext' hvote hstrip
    have hshared := hcommit (fork - 1) (h.same (fork - 1) (by omega))
    have hfork : fork - 1 + 1 = fork := by omega
    exact servedAt_ne hraw (hshared ▸ hraw) (hfork ▸ hnext) (hfork ▸ hnext') hvote hstrip
  rw [DecredBlockProcessor.calcReorgRange, hrange]
  split
  · refine ⟨fork - 1, ours.length - fork + 1, ?_, by omega, .inr (by omega), fun k hk ↦ ?_, hdiffer⟩
    · change (if (fork : Int) > 0 then Except.ok ((fork : Int) - 1, _) else _) = _
      rw [if_pos (by omega)]
      push_cast
      congr 3
      omega
    · exact h.servedAt_eq hcommit blake256 (by omega)
  · refine ⟨0, ours.length, rfl, by omega, .inl rfl, fun k hk ↦ ?_, hdiffer⟩
    omega

end Decred

theorem sampleTheirs_forksAt :
    ForksAt (blockHashes sampleCoin [sampleGenesis, sampleA, sampleUpper]) sampleTheirs 2 := by
  have hsame : ∀ k < 2, (blockHashes sampleCoin [sampleGenesis, sampleA, sampleUpper])[k]? =
      sampleTheirs[k]? := by decide +kernel
  have hdiffer : (blockHashes sampleCoin [sampleGenesis, sampleA, sampleUpper])[2]? ≠
      sampleTheirs[2]? := by decide +kernel
  refine ⟨by decide, by decide, by decide, hsame, fun k hle hlt ↦ ?_⟩
  have hlt : k < 3 := hlt
  obtain rfl : k = 2 := by omega
  exact hdiffer

/-- The blocks of two chains whose third blocks vote differently. -/
def sampleVotes : List Bytes :=
  [(DecredDaemon.sampleWireBlock 0 0).raw, (DecredDaemon.sampleWireBlock 1 1).raw,
    (DecredDaemon.sampleWireBlock 2 0).raw]

def sampleOtherVotes : List Bytes :=
  [(DecredDaemon.sampleWireBlock 0 0).raw, (DecredDaemon.sampleWireBlock 1 1).raw,
    (DecredDaemon.sampleWireBlock 2 1).raw, (DecredDaemon.sampleWireBlock 3 1).raw]

theorem sampleVotes_covers : ∃ s, sampleLonger = .ok s ∧
    ∃ start count : Nat, DecredBlockProcessor.calcReorgRange sampleEnv (sampleDaemon sampleTheirs) s
        none = .ok ((start : Int), (count : Int)) ∧
      (start : Int) + count = s.height + 1 ∧ (start = 0 ∨ start + 1 = 2) ∧
      (∀ k < start, servedAt Decred.sampleBlake sampleVotes k =
        servedAt Decred.sampleBlake sampleOtherVotes k) ∧
      ∀ raw next next', sampleVotes[2 - 1]? = some raw → sampleVotes[2]? = some next →
        sampleOtherVotes[2]? = some next' →
        (DecredDaemon.Approves next ↔ ¬DecredDaemon.Approves next') →
        DecredDaemon.stripTxTree Decred.sampleBlake raw ≠ .ok raw →
        servedAt Decred.sampleBlake sampleVotes (2 - 1) ≠
          servedAt Decred.sampleBlake sampleOtherVotes (2 - 1) := by
  obtain ⟨s, hs, hf, -⟩ : ∃ s, sampleLonger = .ok s ∧ FullyFlushed s ∧ True := by
    decide +kernel
  have ha := (sampleLonger_linkedRun hs).answer hf (sampleDaemon_answers sampleTheirs)
  have hcommit : ∀ k : Nat,
      (blockHashes sampleCoin [sampleGenesis, sampleA, sampleUpper])[k]? = sampleTheirs[k]? →
        sampleVotes[k]? = sampleOtherVotes[k]? := by
    intro k hk
    by_cases hlow : k < 2
    · obtain rfl | rfl : k = 0 ∨ k = 1 := by omega
      · rfl
      · rfl
    · by_cases hhigh : k < 4
      · have hnone : ∀ j, 2 ≤ j → j < 4 →
            (blockHashes sampleCoin [sampleGenesis, sampleA, sampleUpper])[j]? ≠
              sampleTheirs[j]? := by decide +kernel
        exact absurd hk (hnone k (by omega) hhigh)
      · rw [List.getElem?_eq_none (show sampleVotes.length ≤ k from Nat.le_trans (by decide)
          (Nat.not_lt.mp hhigh)), List.getElem?_eq_none (Nat.not_lt.mp hhigh)]
  exact ⟨s, hs, decredRange_covers ha sampleTheirs_forksAt hcommit Decred.sampleBlake⟩

end ElectrumX.Index
