import ElectrumX.Base.Reach
import ElectrumX.Lib.Util

/-!
# The prefetcher

The model of `Prefetcher` in `server/block_processor.py` between its awaits, with the block
processor that takes its blocks. The semaphore is held while hashes or blocks are fetched; a
processor that resets the height waits for it, one that takes the blocks does not. Each await
may see another height and another chain of the daemon, or fail.
-/

namespace ElectrumX.Server
open ElectrumX.Base ElectrumX.Lib

/-- `max_fetch_blocks` and `genesis_block` of a coin class, `lib/coins.py:157–175`. -/
structure FetchRules where
  maxFetchBlocks : Int → Int
  genesisBlock : Bytes → Except PyError Bytes

/-- A raw block in the queue, with the height for which the daemon was asked for its hash. -/
structure FetchedBlock where
  height : Int
  raw : Bytes
  deriving DecidableEq, Repr

/-- Where `main_loop` awaits. -/
inductive PrefetchTask where
  /-- The daemon's height, in the `reset_height` at its start. -/
  | starting
  /-- `refill_event`, or the polling delay. -/
  | sleeping
  /-- The daemon's height, in `_prefetch_blocks`. -/
  | polling
  /-- The semaphore. -/
  | acquiring (daemonHeight : Int)
  /-- `block_hex_hashes`. -/
  | hashing (daemonHeight first count : Int)
  /-- `raw_blocks`, of hashes with their heights. -/
  | fetching (daemonHeight first count : Int) (hexHashes : List (Int × String))
  deriving DecidableEq, Repr

/-- Where the block processor is. -/
inductive ProcessorTask where
  /-- Before its next call of the prefetcher. -/
  | ready
  /-- With a list of blocks, not processed yet. -/
  | holding (blocks : List FetchedBlock)
  /-- In `reset_height`, at the semaphore. -/
  | resetting
  /-- In `reset_height`, at the daemon's height. -/
  | asking
  /-- It has raised. -/
  | stopped
  deriving DecidableEq, Repr

/-- `min_cache_size`, `block_processor.py:59`. -/
def minCacheSize : Nat := 10 * 1024 * 1024

/-- `Prefetcher`, `block_processor.py:35–62`, and the height of the block processor. `delivered`
has the heights handed over since the last reset, which was to `base`. -/
structure Prefetcher where
  blocks : List FetchedBlock := []
  caughtUp : Bool := false
  fetchedHeight : Int
  refillEvent : Bool := true
  cacheSize : Nat := 0
  aveSize : Nat := minCacheSize / 10
  task : PrefetchTask := .starting
  processor : ProcessorTask := .ready
  height : Int
  base : Int
  delivered : List Int := []
  deriving DecidableEq, Repr

/-- The steps between awaits. -/
inductive FetchEvent where
  /-- The daemon answers `main_loop` with its height. -/
  | height (daemonHeight : Int)
  /-- The daemon fails `main_loop`. -/
  | daemonError
  /-- `main_loop` starts to prefetch. -/
  | poll
  /-- `_prefetch_blocks` gets the semaphore. -/
  | acquire
  | hexHashes (hexHashes : List String)
  | rawBlocks (rawBlocks : List Bytes)
  /-- The processor calls `get_prefetched_blocks`. -/
  | get
  /-- The processor has advanced by the list that it holds. -/
  | advance
  /-- The processor, now at a height, calls `reset_height` with it. -/
  | reset (height : Int)
  /-- `reset_height` gets the semaphore. -/
  | resetAcquire
  | resetHeight
  | resetError

namespace Prefetcher

/-- `main_loop` is spawned with the processor's height, before the processor's own loop, and
resets to it at once, `block_processor.py:64–66,713–714`. -/
def start (height : Int) : Prefetcher := { fetchedHeight := height, height, base := height }

/-- `_prefetch_blocks` holds the semaphore. -/
def locked (s : Prefetcher) : Bool :=
  match s.task with
  | .hashing .. | .fetching .. => true
  | _ => false

/-- The loop of `_prefetch_blocks` up to its next await or its end, `block_processor.py:120–128,
157–158`. -/
def fetchLoop (rules : FetchRules) (s : Prefetcher) (daemonHeight : Int) : Prefetcher :=
  if s.cacheSize < minCacheSize then
    let first := s.fetchedHeight + 1
    -- `ZeroDivisionError` is ignored in `main_loop`.
    if s.aveSize = 0 then { s with task := .sleeping }
    else
      let cacheRoom : Nat := max (minCacheSize / s.aveSize) 1
      let count := min (daemonHeight - s.fetchedHeight) cacheRoom
      let count := min (rules.maxFetchBlocks first) (max count 0)
      if count = 0 then { s with caughtUp := true, task := .sleeping }
      else { s with task := .hashing daemonHeight first count }
  else { s with refillEvent := false, task := .sleeping }

/-- The special handling of the first block, `block_processor.py:139–143`. -/
def verifyGenesis (rules : FetchRules) (first : Int) (rawBlocks : List Bytes) :
    Except PyError (List Bytes) :=
  if first = 0 then
    match rawBlocks with
    | [] => .error .indexError
    | rawBlock :: rest => return (← rules.genesisBlock rawBlock) :: rest
  else .ok rawBlocks

/-- The new average block size, `block_processor.py:145–150`. -/
def nextAveSize (aveSize size : Nat) (count : Int) : Nat :=
  if count ≥ 10 then size / count.toNat else (size + (10 - count).toNat * aveSize) / 10

/-- `_prefetch_blocks` once the blocks have arrived, `block_processor.py:137–158`. -/
def addBlocks (rules : FetchRules) (s : Prefetcher) (daemonHeight first count : Int)
    (hexHashes : List (Int × String)) (rawBlocks : List Bytes) : Except PyError Prefetcher := do
  assertThat (count = rawBlocks.length)
  let rawBlocks ← verifyGenesis rules first rawBlocks
  let size := (rawBlocks.map List.length).sum
  return fetchLoop rules { s with
    aveSize := nextAveSize s.aveSize size count
    blocks := s.blocks ++ (hexHashes.zip rawBlocks).map fun b ↦ ⟨b.1.1, b.2⟩
    cacheSize := s.cacheSize + size
    fetchedHeight := s.fetchedHeight + count } daemonHeight

/-- One step, if it can be taken. -/
def step (rules : FetchRules) (s : Prefetcher) : FetchEvent → Option Prefetcher
  | .height daemonHeight =>
    match s.task with
    | .starting => some { s with task := .sleeping }
    | .polling => some { s with task := .acquiring daemonHeight }
    | _ => none
  | .daemonError =>
    -- `main_loop` ignores it and goes on, but for the first one.
    match s.task with
    | .polling | .hashing .. | .fetching .. => some { s with task := .sleeping }
    | _ => none
  | .poll =>
    if s.refillEvent ∧ s.task = .sleeping then some { s with task := .polling } else none
  | .acquire =>
    match s.task with
    | .acquiring daemonHeight => some (fetchLoop rules s daemonHeight)
    | _ => none
  | .hexHashes hexHashes =>
    match s.task with
    | .hashing daemonHeight first count =>
      -- There is one result for each height.
      if hexHashes.length ≠ count.toNat then none
      else
        let hexHashes := hexHashes.zipIdx.map fun h ↦ (first + h.2, h.1)
        some { s with task := .fetching daemonHeight first count hexHashes }
    | _ => none
  | .rawBlocks rawBlocks =>
    match s.task with
    | .fetching daemonHeight first count hexHashes =>
      match addBlocks rules s daemonHeight first count hexHashes rawBlocks with
      | .ok s => some s
      | .error _ => some { s with task := .sleeping }
    | _ => none
  | .get =>
    match s.processor with
    | .ready => some { s with
        blocks := []
        cacheSize := 0
        refillEvent := true
        processor := .holding s.blocks
        delivered := s.delivered ++ s.blocks.map (·.height) }
    | _ => none
  | .advance =>
    match s.processor with
    | .holding blocks => some { s with height := s.height + blocks.length, processor := .ready }
    | _ => none
  | .reset height =>
    match s.processor with
    | .ready | .holding _ => some { s with height := height, processor := .resetting }
    | _ => none
  | .resetAcquire =>
    if s.processor = .resetting ∧ s.locked = false then some { s with
      blocks := []
      cacheSize := 0
      fetchedHeight := s.height
      refillEvent := true
      processor := .asking
      base := s.height
      delivered := [] }
    else none
  | .resetHeight =>
    if s.processor = .asking then some { s with processor := .ready } else none
  | .resetError =>
    if s.processor = .asking then some { s with processor := .stopped } else none

/-! ### Contiguous heights -/

/-- Consecutive heights. -/
def heightsFrom (first : Int) (n : Nat) : List Int := (List.range n).map fun i : Nat ↦ first + i

@[simp] theorem length_heightsFrom (first : Int) (n : Nat) : (heightsFrom first n).length = n := by
  simp [heightsFrom]

theorem heightsFrom_append (first : Int) (m n : Nat) :
    heightsFrom first m ++ heightsFrom (first + m) n = heightsFrom first (m + n) := by
  rw [heightsFrom, heightsFrom, heightsFrom, List.range_add, List.map_append, List.map_map]
  congr 1
  apply List.map_congr_left
  intro i _
  simp [Int.add_assoc]

/-- The height behind which the next list starts; none while a reset is due. -/
def nextHeight (s : Prefetcher) : Option Int :=
  match s.processor with
  | .holding blocks => some (s.height + blocks.length)
  | .resetting => none
  | _ => some s.height

/-- What the loop knows of the heights that it fetches while it holds the semaphore. -/
def TaskContiguous (s : Prefetcher) : Prop :=
  match s.task with
  | .hashing _ first _ => first = s.fetchedHeight + 1
  | .fetching _ first count hexHashes => first = s.fetchedHeight + 1 ∧
      hexHashes.map Prod.fst = heightsFrom (s.fetchedHeight + 1) count.toNat
  | _ => True

/-- The queue ends at the fetched height and starts behind the processor's, unless a reset is
due; what has been handed over since the last reset ends where the queue starts. -/
structure QueueContiguous (s : Prefetcher) : Prop where
  queue : s.blocks.map (·.height) =
    heightsFrom (s.fetchedHeight - s.blocks.length + 1) s.blocks.length
  next : ∀ h ∈ s.nextHeight, h + s.blocks.length = s.fetchedHeight
  delivered : s.delivered = heightsFrom (s.base + 1) s.delivered.length
  delivered_last : s.base + s.delivered.length + s.blocks.length = s.fetchedHeight

/-- The queue is contiguous, and what is being fetched continues it. -/
structure Contiguous (s : Prefetcher) : Prop extends s.QueueContiguous where
  task : s.TaskContiguous

theorem contiguous_start (height : Int) : (start height).Contiguous where
  queue := rfl
  next h hh := by
    cases hh
    exact Int.add_zero _
  delivered := rfl
  delivered_last := by simp [start]
  task := trivial

section Steps

variable {rules : FetchRules} {s s' : Prefetcher}

private theorem QueueContiguous.withTask (h : s.QueueContiguous) {task : PrefetchTask}
    (ht : { s with task := task }.TaskContiguous) : { s with task := task }.Contiguous :=
  ⟨⟨h.queue, h.next, h.delivered, h.delivered_last⟩, ht⟩

/-- The loop starts a fetch behind the fetched height, or ends. -/
private theorem QueueContiguous.fetchLoop (h : s.QueueContiguous) (daemonHeight : Int) :
    (fetchLoop rules s daemonHeight).Contiguous := by
  rw [Prefetcher.fetchLoop]
  split
  · dsimp only
    split
    · exact h.withTask trivial
    split
    · exact ⟨⟨h.queue, h.next, h.delivered, h.delivered_last⟩, trivial⟩
    · exact h.withTask rfl
  · exact ⟨⟨h.queue, h.next, h.delivered, h.delivered_last⟩, trivial⟩

private theorem length_verifyGenesis {first : Int} {rawBlocks rawBlocks' : List Bytes}
    (h : verifyGenesis rules first rawBlocks = .ok rawBlocks') :
    rawBlocks'.length = rawBlocks.length := by
  unfold verifyGenesis at h
  split at h
  · cases rawBlocks with
    | nil => cases h
    | cons rawBlock rest =>
      obtain ⟨genesis, -, h⟩ := bind_eq_ok.mp h
      cases h
      rfl
  · cases h
    rfl

/-- The blocks that arrive continue the queue. -/
private theorem Contiguous.addBlocks (h : s.Contiguous) {daemonHeight first count : Int}
    {hexHashes : List (Int × String)} {rawBlocks : List Bytes}
    (ht : s.task = .fetching daemonHeight first count hexHashes)
    (hs : addBlocks rules s daemonHeight first count hexHashes rawBlocks = .ok s') :
    s'.Contiguous := by
  obtain ⟨_, hcount, hs⟩ := bind_eq_ok.mp hs
  have hcount := assertThat_eq_ok.mp hcount
  obtain ⟨rawBlocks', hgenesis, hs⟩ := bind_eq_ok.mp hs
  cases hs
  have htask := h.task
  rw [TaskContiguous, ht] at htask
  obtain ⟨-, hheights⟩ := htask
  have hlen := length_verifyGenesis hgenesis
  have hhashes : hexHashes.length = rawBlocks'.length := by
    have hl := congrArg List.length hheights
    rw [List.length_map, length_heightsFrom] at hl
    omega
  have hcount' : count.toNat = rawBlocks'.length := by omega
  rw [hcount'] at hheights
  set arrived : List FetchedBlock := (hexHashes.zip rawBlocks').map fun b ↦ ⟨b.1.1, b.2⟩
    with harrived
  have hmap : arrived.map (·.height) = heightsFrom (s.fetchedHeight + 1) rawBlocks'.length := by
    rw [← hheights, harrived, List.map_map, ← List.map_fst_zip hhashes.le, List.map_map,
      List.map_fst_zip hhashes.le]
    rfl
  have harr : (arrived.length : Int) = count := by
    have hl := congrArg List.length hmap
    rw [List.length_map, length_heightsFrom] at hl
    omega
  have hq : (s.blocks ++ arrived).length = s.blocks.length + arrived.length := List.length_append
  apply QueueContiguous.fetchLoop
  refine ⟨?_, fun x hx ↦ ?_, h.delivered, ?_⟩
  · have hfirst : s.fetchedHeight + 1 =
        s.fetchedHeight - s.blocks.length + 1 + (s.blocks.length : Nat) := by omega
    have hlast : s.fetchedHeight + count - (s.blocks ++ arrived).length + 1 =
        s.fetchedHeight - s.blocks.length + 1 := by omega
    have hn : rawBlocks'.length = arrived.length := by omega
    change (s.blocks ++ arrived).map (·.height) =
      heightsFrom (s.fetchedHeight + count - (s.blocks ++ arrived).length + 1)
        (s.blocks ++ arrived).length
    rw [List.map_append, h.queue, hmap, hlast, hq, hfirst, hn, heightsFrom_append]
  · have hx' := h.next x hx
    change x + ((s.blocks ++ arrived).length : Nat) = s.fetchedHeight + count
    omega
  · have hd := h.delivered_last
    change s.base + s.delivered.length + ((s.blocks ++ arrived).length : Nat) =
      s.fetchedHeight + count
    omega

/-- What is taken off the queue continues what has been handed over. -/
private theorem Contiguous.get (h : s.Contiguous) (hs : s.step rules .get = some s') :
    s'.Contiguous ∧ s'.processor = .holding s.blocks ∧ s.processor = .ready := by
  simp only [step] at hs
  split at hs
  · next hready =>
    cases hs
    have hnext := h.next s.height (by rw [nextHeight, hready]; rfl)
    have hlast := h.delivered_last
    have hlen : (s.delivered ++ s.blocks.map (·.height)).length =
        s.delivered.length + s.blocks.length := by
      rw [List.length_append, List.length_map]
    refine ⟨⟨⟨?_, fun x hx ↦ ?_, ?_, ?_⟩, h.task⟩, rfl, hready⟩
    · rfl
    · cases hx
      exact (Int.add_zero _).trans hnext
    · have hfirst : s.fetchedHeight - s.blocks.length + 1 =
          s.base + 1 + (s.delivered.length : Nat) := by omega
      change s.delivered ++ s.blocks.map (·.height) =
        heightsFrom (s.base + 1) (s.delivered ++ s.blocks.map (·.height)).length
      rw [hlen, h.queue, hfirst, ← heightsFrom_append, ← h.delivered]
    · change s.base + ((s.delivered ++ s.blocks.map (·.height)).length : Nat) + ((0 : Nat) : Int) =
        s.fetchedHeight
      omega
  · cases hs

/-- A reset empties the queue while nothing is being fetched. -/
private theorem contiguous_resetAcquire (hs : s.step rules .resetAcquire = some s') :
    s'.Contiguous := by
  simp only [step] at hs
  split at hs
  · next hr =>
    cases hs
    refine ⟨⟨rfl, fun x hx ↦ ?_, rfl, ?_⟩, ?_⟩
    · cases hx
      exact Int.add_zero _
    · change s.height + ((0 : Nat) : Int) + ((0 : Nat) : Int) = s.height
      omega
    · have hlocked := hr.2
      rw [locked] at hlocked
      rw [TaskContiguous]
      split <;> simp_all
  · cases hs

theorem Contiguous.step (h : s.Contiguous) {e : FetchEvent} (hs : s.step rules e = some s') :
    s'.Contiguous := by
  cases e with
  | height daemonHeight =>
    simp only [Prefetcher.step] at hs
    split at hs
    · cases hs
      exact h.withTask trivial
    · cases hs
      exact h.withTask trivial
    · cases hs
  | daemonError =>
    simp only [Prefetcher.step] at hs
    split at hs
    · cases hs
      exact h.withTask trivial
    · cases hs
      exact h.withTask trivial
    · cases hs
      exact h.withTask trivial
    · cases hs
  | poll =>
    simp only [Prefetcher.step] at hs
    split at hs
    · cases hs
      exact h.withTask trivial
    · cases hs
  | acquire =>
    simp only [Prefetcher.step] at hs
    split at hs
    · cases hs
      exact h.fetchLoop _
    · cases hs
  | hexHashes hexHashes =>
    simp only [Prefetcher.step] at hs
    split at hs
    · next daemonHeight first count ht =>
      split at hs
      · cases hs
      · next hlen =>
        cases hs
        refine h.withTask ?_
        have htask := h.task
        rw [TaskContiguous, ht] at htask
        have hlen : hexHashes.length = count.toNat := by simpa using hlen
        refine ⟨htask, ?_⟩
        change (hexHashes.zipIdx.map fun h ↦ (first + (h.2 : Int), h.1)).map Prod.fst =
          heightsFrom (s.fetchedHeight + 1) count.toNat
        rw [← htask, ← hlen, heightsFrom, List.range_eq_range', ← List.zipIdx_map_snd 0 hexHashes,
          List.map_map, List.map_map]
        rfl
    · cases hs
  | rawBlocks rawBlocks =>
    simp only [Prefetcher.step] at hs
    split at hs
    · next ht =>
      split at hs
      · next hadd =>
        cases hs
        exact h.addBlocks ht hadd
      · cases hs
        exact h.withTask trivial
    · cases hs
  | get => exact (h.get hs).1
  | advance =>
    simp only [Prefetcher.step] at hs
    split at hs
    · next blocks hp =>
      cases hs
      refine ⟨⟨h.queue, fun x hx ↦ ?_, h.delivered, h.delivered_last⟩, h.task⟩
      cases hx
      exact h.next _ (by rw [nextHeight, hp]; rfl)
    · cases hs
  | reset height =>
    simp only [Prefetcher.step] at hs
    split at hs
    · cases hs
      refine ⟨⟨h.queue, fun x hx ↦ ?_, h.delivered, h.delivered_last⟩, h.task⟩
      cases hx
    · cases hs
      refine ⟨⟨h.queue, fun x hx ↦ ?_, h.delivered, h.delivered_last⟩, h.task⟩
      cases hx
    · cases hs
  | resetAcquire => exact contiguous_resetAcquire hs
  | resetHeight =>
    simp only [Prefetcher.step] at hs
    split at hs
    · next hp =>
      cases hs
      refine ⟨⟨h.queue, fun x hx ↦ ?_, h.delivered, h.delivered_last⟩, h.task⟩
      cases hx
      exact h.next _ (by rw [nextHeight, hp]; rfl)
    · cases hs
  | resetError =>
    simp only [Prefetcher.step] at hs
    split at hs
    · next hp =>
      cases hs
      refine ⟨⟨h.queue, fun x hx ↦ ?_, h.delivered, h.delivered_last⟩, h.task⟩
      cases hx
      exact h.next _ (by rw [nextHeight, hp]; rfl)
    · cases hs

end Steps

/-- Every list of blocks is handed over for the heights behind the processor's, and what has been
handed over since the last reset leaves no height out and repeats none. -/
theorem get_contiguous {rules : FetchRules} {height : Int} {s s' : Prefetcher}
    (r : Reach (step rules) (fun _ _ ↦ True) (start height) s)
    (h : s.step rules .get = some s') :
    (∃ blocks, s'.processor = .holding blocks ∧
      blocks.map (·.height) = heightsFrom (s.height + 1) blocks.length) ∧
    s'.delivered = heightsFrom (s'.base + 1) s'.delivered.length := by
  have hc : s.Contiguous := r.invariant (contiguous_start height) fun _ _ _ hc _ hs ↦ hc.step hs
  obtain ⟨hc', hblocks, hready⟩ := hc.get h
  refine ⟨⟨s.blocks, hblocks, ?_⟩, hc'.delivered⟩
  have hnext := hc.next s.height (by rw [nextHeight, hready]; rfl)
  rw [hc.queue, ← hnext, Int.add_sub_cancel]

/-- One block is fetched at a time. -/
def sampleRules : FetchRules where
  maxFetchBlocks := fun _ ↦ 1
  genesisBlock := .ok

/-- Block 0 is handed over while block 1 is being fetched. -/
def sampleFetches : List FetchEvent :=
  [.height 1, .poll, .height 1, .acquire, .hexHashes ["a"], .rawBlocks [[0]], .get,
    .hexHashes ["b"], .advance, .rawBlocks [[1]]]

/-- Block 1 is handed over behind block 0. -/
theorem sampleFetches_get : ∃ s s', runEvents (step sampleRules) (fun _ _ ↦ True) (start (-1))
      sampleFetches = some s ∧ s.step sampleRules .get = some s' ∧ s'.delivered = [0, 1] ∧
    (∃ blocks, s'.processor = .holding blocks ∧
      blocks.map (·.height) = heightsFrom (s.height + 1) blocks.length) ∧
    s'.delivered = heightsFrom (s'.base + 1) s'.delivered.length := by
  obtain ⟨s, hs, s', hs', hd⟩ : ∃ s ∈ runEvents (step sampleRules) (fun _ _ ↦ True) (start (-1))
      sampleFetches, ∃ s' ∈ s.step sampleRules .get, s'.delivered = [0, 1] := by decide +kernel
  exact ⟨s, s', hs, hs', hd, get_contiguous (.ofEvents hs fun _ _ _ ↦ trivial) hs'⟩

end Prefetcher
end ElectrumX.Server
