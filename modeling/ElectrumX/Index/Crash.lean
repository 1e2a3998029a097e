import ElectrumX.Index.Reorg

/-!
# Crashes

A crash keeps the committed batches and loses or tears file writes that no batch has
followed. What it leaves of the flat files still starts with the recorded chain, and the
history rows that are ahead of the UTXO DB are known by their flush ids, so after a crash in
a flush the databases open as they were after the last flush of the UTXOs.
-/

namespace ElectrumX.Index
open ElectrumX.Base ElectrumX.Lib ElectrumX.Chain ElectrumX.Server

/-! ### Durable writes -/

/-- The effect of one write on disk. -/
def applyWrite (disk : Disk) : DiskWrite → Disk
  | .headers offset b => { disk with headers := FlatFile.write disk.headers offset b }
  | .headersOffsets offset b =>
      { disk with headersOffsets := FlatFile.write disk.headersOffsets offset b }
  | .txCounts offset b => { disk with txCounts := FlatFile.write disk.txCounts offset b }
  | .hashes offset b => { disk with hashes := FlatFile.write disk.hashes offset b }
  | .historyBatch t => { disk with history := t }
  | .utxoBatch t => { disk with utxo := t }

/-- A committed batch makes the writes before it durable. -/
def isBatch : DiskWrite → Bool
  | .historyBatch _ | .utxoBatch _ => true
  | _ => false

def headersWrite : DiskWrite → Option (Nat × Bytes)
  | .headers offset b => some (offset, b)
  | _ => none

def headersOffsetsWrite : DiskWrite → Option (Nat × Bytes)
  | .headersOffsets offset b => some (offset, b)
  | _ => none

def txCountsWrite : DiskWrite → Option (Nat × Bytes)
  | .txCounts offset b => some (offset, b)
  | _ => none

def hashesWrite : DiskWrite → Option (Nat × Bytes)
  | .hashes offset b => some (offset, b)
  | _ => none

/-- The databases are kept and the pending file writes are torn. -/
structure TornDisk (disk : Disk) (pending : List DiskWrite) (disk' : Disk) : Prop where
  created : disk'.created = disk.created
  utxo : disk'.utxo = disk.utxo
  history : disk'.history = disk.history
  headers : FlatFile.Torn disk.headers (pending.filterMap headersWrite) disk'.headers
  headersOffsets : FlatFile.Torn disk.headersOffsets (pending.filterMap headersOffsetsWrite)
    disk'.headersOffsets
  txCounts : FlatFile.Torn disk.txCounts (pending.filterMap txCountsWrite) disk'.txCounts
  hashes : FlatFile.Torn disk.hashes (pending.filterMap hashesWrite) disk'.hashes

/-- What a crash may leave on disk after some writes: those that a batch has followed are there,
the file writes behind them may be torn. -/
def Crashed (disk : Disk) (writes : List DiskWrite) (disk' : Disk) : Prop :=
  ∃ done pending, writes = done ++ pending ∧ (∀ w ∈ pending, isBatch w = false) ∧
    TornDisk (done.foldl applyWrite disk) pending disk'

/-- Writes that end in a batch are durable. -/
theorem Crashed.of_append {disk disk' : Disk} {a b : List DiskWrite}
    (h : Crashed disk (a ++ b) disk') (ha : ∀ w ∈ a.getLast?, isBatch w = true) :
    Crashed (a.foldl applyWrite disk) b disk' := by
  obtain ⟨done, pending, he, hp, ht⟩ := h
  rcases List.append_eq_append_iff.mp he with ⟨c, rfl, rfl⟩ | ⟨c, rfl, rfl⟩
  · rw [List.foldl_append] at ht
    exact ⟨c, pending, rfl, hp, ht⟩
  · rcases List.eq_nil_or_concat' c with rfl | ⟨init, last, rfl⟩
    · rw [List.append_nil]
      exact ⟨[], b, rfl, hp, ht⟩
    · have h1 := ha last (by simp)
      rw [hp last (by simp)] at h1
      cases h1

/-- A torn disk without pending writes is the disk. -/
theorem TornDisk.eq_of_nil {disk disk' : Disk} (h : TornDisk disk [] disk') : disk' = disk := by
  cases disk'
  obtain ⟨rfl, rfl, rfl, h1, h2, h3, h4⟩ := h
  congr 1
  · exact FlatFile.eq_of_torn_nil h1
  · exact FlatFile.eq_of_torn_nil h2
  · exact FlatFile.eq_of_torn_nil h3
  · exact FlatFile.eq_of_torn_nil h4

/-- A crash among file writes that batches follow: before the first batch some of the file
writes may be torn, afterwards the writes up to some batch are there. -/
theorem Crashed.cases {disk disk' : Disk} {fs batches ws : List DiskWrite}
    (h : Crashed disk ws disk') (hws : ws <+: fs ++ batches)
    (hb : ∀ w ∈ batches, isBatch w = true) :
    (∃ done pending, ws = done ++ pending ∧ ws <+: fs ∧
      TornDisk (done.foldl applyWrite disk) pending disk') ∨
    ∃ bs, bs ≠ [] ∧ bs <+: batches ∧ ws = fs ++ bs ∧ disk' = ws.foldl applyWrite disk := by
  obtain ⟨done, pending, rfl, hp, ht⟩ := h
  obtain ⟨rest, he⟩ := hws
  rcases List.append_eq_append_iff.mp he with ⟨as, hfs', -⟩ | ⟨bs, hbs, rfl⟩
  · exact .inl ⟨done, pending, rfl, ⟨as, hfs'.symm⟩, ht⟩
  · rcases List.eq_nil_or_concat' bs with rfl | ⟨init, last, rfl⟩
    · exact .inl ⟨done, pending, rfl, by rw [hbs, List.append_nil], ht⟩
    · refine .inr ⟨init ++ [last], by simp, List.prefix_append _ _, hbs, ?_⟩
      have hlast : isBatch last = true := hb last (by simp)
      -- The last write is a batch, so none is pending.
      obtain rfl : pending = [] := by
        rcases List.eq_nil_or_concat' pending with rfl | ⟨more, w, rfl⟩
        · rfl
        · rw [← List.append_assoc, ← List.append_assoc] at hbs
          obtain ⟨-, hw⟩ := List.append_inj' hbs rfl
          have hw' := hp w (by simp)
          rw [(List.cons.inj hw).1, hlast] at hw'
          cases hw'
      rw [List.append_nil]
      exact ht.eq_of_nil

section Files

variable {env : Env} {stored rest : List Block}

/-- A write leaves the data of a chain in the flat files alone. -/
def WritesBehind (stored : List Block) : DiskWrite → Prop
  | .headers offset _ => (headers stored).length ≤ offset
  | .headersOffsets offset _ => (stored.length + 1) * 8 ≤ offset
  | .txCounts offset _ => stored.length * 8 ≤ offset
  | .hashes offset _ => txCount stored * 32 ≤ offset
  | _ => True

theorem writesBehind_fsWrites {w : DiskWrite} (h : w ∈ fsWrites env stored rest) :
    WritesBehind stored w := by
  unfold fsWrites at h
  split at h
  all_goals
    simp only [List.cons_append, List.nil_append, List.mem_cons, List.not_mem_nil, or_false] at h
    rcases h with rfl | rfl | rfl | rfl <;> exact Nat.le_refl _

/-- Writes behind the data of a chain keep them. -/
theorem FilesHold.applyWrite {disk : Disk} (h : FilesHold env disk stored) {w : DiskWrite}
    (hw : WritesBehind stored w) : FilesHold env (applyWrite disk w) stored := by
  cases w with
  | headers offset b => exact { h with headers := FlatFile.prefix_write h.headers hw b }
  | headersOffsets offset b =>
    refine { h with offsets := fun hs ↦ FlatFile.prefix_write (h.offsets hs) ?_ b }
    rw [length_packed_items, length_offsets, Nat.mul_comm]
    exact hw
  | txCounts offset b =>
    refine { h with txCounts := FlatFile.prefix_write h.txCounts ?_ b }
    rw [length_packed_items, length_counts, Nat.mul_comm]
    exact hw
  | hashes offset b =>
    refine { h with hashes := FlatFile.prefix_write h.hashes ?_ b }
    rw [length_hashes, Nat.mul_comm]
    exact hw
  | historyBatch t => exact { h with }
  | utxoBatch t => exact { h with }

theorem FilesHold.applyWrites {disk : Disk} (h : FilesHold env disk stored) {ws : List DiskWrite}
    (hw : ∀ w ∈ ws, WritesBehind stored w) : FilesHold env (ws.foldl Index.applyWrite disk) stored := by
  induction ws generalizing disk with
  | nil => exact h
  | cons w ws ih =>
    exact ih (h.applyWrite (hw w List.mem_cons_self)) fun x hx ↦ hw x (List.mem_cons_of_mem _ hx)

/-- Torn writes behind the data of a chain keep them. -/
theorem FilesHold.torn {disk disk' : Disk} (h : FilesHold env disk stored)
    {pending : List DiskWrite} (hw : ∀ w ∈ pending, WritesBehind stored w)
    (ht : TornDisk disk pending disk') : FilesHold env disk' stored where
  headers := by
    refine FlatFile.prefix_of_torn h.headers (fun x hx ↦ ?_) ht.headers
    obtain ⟨w, hm, he⟩ := List.mem_filterMap.mp hx
    cases w <;> cases he
    exact hw _ hm
  offsets hs := by
    refine FlatFile.prefix_of_torn (h.offsets hs) (fun x hx ↦ ?_) ht.headersOffsets
    obtain ⟨w, hm, he⟩ := List.mem_filterMap.mp hx
    cases w <;> cases he
    rw [length_packed_items, length_offsets, Nat.mul_comm]
    exact hw _ hm
  txCounts := by
    refine FlatFile.prefix_of_torn h.txCounts (fun x hx ↦ ?_) ht.txCounts
    obtain ⟨w, hm, he⟩ := List.mem_filterMap.mp hx
    cases w <;> cases he
    rw [length_packed_items, length_counts, Nat.mul_comm]
    exact hw _ hm
  hashes := by
    refine FlatFile.prefix_of_torn h.hashes (fun x hx ↦ ?_) ht.hashes
    obtain ⟨w, hm, he⟩ := List.mem_filterMap.mp hx
    cases w <;> cases he
    rw [length_hashes, Nat.mul_comm]
    exact hw _ hm

/-- File writes leave the databases alone. -/
theorem applyWrites_databases {ws : List DiskWrite} (hw : ∀ w ∈ ws, isBatch w = false)
    (disk : Disk) : (ws.foldl applyWrite disk).created = disk.created ∧
      (ws.foldl applyWrite disk).utxo = disk.utxo ∧
      (ws.foldl applyWrite disk).history = disk.history := by
  induction ws generalizing disk with
  | nil => exact ⟨rfl, rfl, rfl⟩
  | cons w ws ih =>
    obtain ⟨h1, h2, h3⟩ := ih (fun x hx ↦ hw x (List.mem_cons_of_mem _ hx)) (applyWrite disk w)
    rw [List.foldl_cons, h1, h2, h3]
    have hw' := hw w List.mem_cons_self
    cases w with
    | historyBatch t => cases hw'
    | utxoBatch t => cases hw'
    | _ => exact ⟨rfl, rfl, rfl⟩

theorem isBatch_fsWrites {w : DiskWrite} (h : w ∈ fsWrites env stored rest) : isBatch w = false := by
  unfold fsWrites at h
  split at h
  all_goals
    simp only [List.cons_append, List.nil_append, List.mem_cons, List.not_mem_nil, or_false] at h
    rcases h with rfl | rfl | rfl | rfl <;> rfl

/-- The file writes of a flush lead to the files that it leaves. -/
theorem applyWrites_fsWrites (db : DB) :
    (fsWrites env stored rest).foldl applyWrite db.disk = (afterFs env db stored rest).disk := by
  unfold fsWrites afterFs DB.disk
  cases env.coin.staticBlockHeaders <;> rfl

end Files
end ElectrumX.Index
