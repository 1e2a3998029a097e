import ElectrumX.Base.Reach
import ElectrumX.Lib.MerkleCache

/-!
# The header Merkle cache and reorgs

The model of `DB.header_mc` under concurrency: requests, the initialization and the thread that
backs up or flushes run step by step between the awaits of `lib/merkle.py`. The source's read
is a step of its own. The DB is given by the hashes of its headers up to `db_height`.
-/

namespace ElectrumX.Server
open ElectrumX.Base ElectrumX.Lib

/-- A call of `source_func` that is awaited, and what it has returned. -/
structure SourceRead where
  start : Nat
  count : Nat
  reply : Option (Except PyError (List Bytes)) := none
  deriving DecidableEq

/-- Where a request is suspended in `branch_and_root`, `merkle.py:240–263`. -/
inductive HeaderStage where
  /-- At `self.initialized.wait()`. -/
  | waiting
  /-- In `_extend_to`, which will write from `start` on. -/
  | extending (start : Nat)
  /-- At the leaf hashes. -/
  | leaves
  /-- In `_level_for`, with the leaf hashes and the whole segments of the level. -/
  | level (leafHashes level : List Bytes)
  deriving DecidableEq

/-- A request of `header_branch_and_root`, `db.py:212–213`, with the number of backups that
the DB had finished when it started. -/
structure HeaderCall where
  length : Nat
  index : Nat
  backups : Nat
  stage : HeaderStage := .waiting
  read : SourceRead := { start := 0, count := 0 }
  deriving DecidableEq

/-- The cache over the hashes of the headers up to `db_height`. -/
structure HeaderCache where
  headers : List Bytes
  mc : MerkleCache := {}
  /-- The height that `backup_fs` has cut to, until `flush_utxo_db` has lowered `db_height`. -/
  backingUp : Option Nat := none
  backups : Nat := 0
  populating : Option SourceRead := none
  calls : List HeaderCall := []
  deriving DecidableEq

/-- The steps between awaits. -/
inductive HeaderCacheEvent where
  /-- `populate_header_merkle_cache`, `db.py:204–208`. -/
  | populate (reorgLimit : Nat)
  /-- The source read of the initialization. -/
  | readAll
  /-- `initialize` after its await. -/
  | populated
  /-- `_merkle_proof`, `session.py:1286–1294`. -/
  | request (length index : Nat)
  /-- The source read of a request. -/
  | read (i : Nat)
  /-- A request goes on. -/
  | resume (i : Nat)
  /-- `backup_fs`, `db.py:412–417`. -/
  | backupFs (height : Nat)
  /-- `flush_utxo_db` lowers `db_height`. -/
  | lower
  /-- A flush overwrites the headers above `db_height` and raises it. -/
  | flush (headers : List Bytes)

/-- `fs_block_hashes` over the headers up to `db_height`, `db.py:480–492`. -/
def readHashes (headers : List Bytes) (start count : Nat) : Except PyError (List Bytes) :=
  if count ≤ headers.length - start then .ok ((headers.drop start).take count)
  else .error (.dbError (.headersMissing (headers.length - start) start count))

theorem serves_readHashes (headers : List Bytes) :
    MerkleCache.Serves (readHashes headers) headers :=
  fun _ _ h ↦ if_pos (by omega)

/-- The source answers. -/
def SourceRead.answered (r : SourceRead) (headers : List Bytes) : SourceRead :=
  { r with reply := some (readHashes headers r.start r.count) }

namespace HeaderCall

variable (m : Merkle)

/-- After `_extend_to`: the request asks for its leaf hashes, `merkle.py:255–257`. -/
def askLeaves (mc : MerkleCache) (call : HeaderCall) : HeaderCall :=
  { call with
    stage := .leaves
    read := {
      start := (mc.leafRequest call.length call.index).1
      count := (mc.leafRequest call.length call.index).2 } }

/-- `_extend_to` before its await. -/
def extend (mc : MerkleCache) (call : HeaderCall) : HeaderCall :=
  match mc.extendRequest call.length with
  | none => call.askLeaves mc
  | some (start, count) => { call with stage := .extending start, read := { start, count } }

/-- A request goes on to its next await or returns, and leaves the cache behind. -/
def resume (mc : MerkleCache) (call : HeaderCall) :
    Option (MerkleCache × (HeaderCall ⊕ Except PyError (List Bytes × Bytes))) :=
  match call.stage, call.read.reply with
  | .waiting, _ => if mc.initialized then some (mc, .inl (call.extend mc)) else none
  | _, none => none
  | _, some (.error e) => some (mc, .inr (.error e))
  | .extending start, some (.ok hashes) =>
    match mc.extendWith m call.length start hashes with
    | .error e => some (mc, .inr (.error e))
    | .ok mc => some (mc, .inl (call.askLeaves mc))
  | .leaves, some (.ok leafHashes) =>
    if call.length < mc.segmentLength then
      some (mc, .inr (m.branchAndRoot leafHashes call.index none))
    else
      match mc.levelRequest call.length with
      | .inl level =>
        some (mc, .inr (m.branchAndRootFromLevel level leafHashes call.index mc.depthHigher))
      | .inr (level, start, count) =>
        some (mc, .inl { call with stage := .level leafHashes level, read := { start, count } })
  | .level leafHashes level, some (.ok hashes) =>
    some (mc, .inr (do
      m.branchAndRootFromLevel (← mc.levelWith m level hashes) leafHashes call.index
        mc.depthHigher))

end HeaderCall

namespace HeaderCache

variable (m : Merkle)

/-- One step, if it can be taken. -/
def step (s : HeaderCache) : HeaderCacheEvent → Option HeaderCache
  | .populate reorgLimit =>
    if s.mc.initialized ∨ s.populating.isSome then none
    else
      let length := max 1 (s.headers.length - 1 - reorgLimit)
      match s.mc.initializeRequest length with
      | .error _ => none
      | .ok mc => some { s with mc, populating := some { start := 0, count := length } }
  | .readAll => do
    let read ← s.populating
    if read.reply.isSome then none
    else return { s with populating := some (read.answered s.headers) }
  | .populated => do
    let read ← s.populating
    match ← read.reply with
    | .error _ => none
    | .ok hashes =>
      match s.mc.initializeWith m hashes with
      | .error _ => none
      | .ok mc => return { s with mc, populating := none }
  | .request length index =>
    if index < length ∧ length ≤ s.headers.length then
      some { s with calls := s.calls ++ [{ length, index, backups := s.backups }] }
    else none
  | .read i => do
    let call ← s.calls[i]?
    if call.stage = .waiting ∨ call.read.reply.isSome then none
    else
      return { s with calls := s.calls.set i { call with read := call.read.answered s.headers } }
  | .resume i => do
    let call ← s.calls[i]?
    match ← call.resume m s.mc with
    | (mc, .inl call) => return { s with mc, calls := s.calls.set i call }
    | (mc, .inr _) => return { s with mc, calls := s.calls.eraseIdx i }
  | .backupFs height =>
    if s.backingUp.isSome ∨ ¬height + 1 < s.headers.length then none
    else
      match s.mc.truncate (height + 1 : Nat) with
      | .error _ => none
      | .ok mc => some { s with mc, backingUp := some height }
  | .lower => do
    let height ← s.backingUp
    return { s with
      headers := s.headers.take (height + 1)
      backingUp := none
      backups := s.backups + 1 }
  | .flush headers =>
    if s.backingUp.isSome then none else some { s with headers := s.headers ++ headers }

/-- No backup has begun since the request started. -/
def Fresh (s : HeaderCache) (call : HeaderCall) : Prop :=
  s.backingUp = none ∧ call.backups = s.backups

instance (s : HeaderCache) (call : HeaderCall) : Decidable (s.Fresh call) :=
  inferInstanceAs (Decidable (_ ∧ _))

/-- When a request goes on, what it writes has been read from the headers that the DB has and
follows on what the cache has, and what it takes from the cache is there. -/
def callTimely (s : HeaderCache) (call : HeaderCall) : Bool :=
  match call.stage, call.read.reply with
  | .extending start, some (.ok hashes) =>
    start ≤ s.mc.length ∧ call.length ≤ s.headers.length ∧
      hashes = (s.headers.drop start).take (call.length - start)
  | .leaves, _ =>
    s.Fresh call → call.length ≤ s.mc.length ∨ call.length < s.mc.segmentLength
  | _, _ => true

/-- A step does not meet hashes or parts of the cache that another step has overtaken. -/
def timely (s : HeaderCache) : HeaderCacheEvent → Bool
  | .populated =>
    match s.populating.bind SourceRead.reply with
    | some (.ok hashes) =>
      s.mc.length ≤ s.headers.length ∧ hashes = s.headers.take s.mc.length
    | _ => true
  | .resume i => (s.calls[i]?).all s.callTimely
  | .lower => s.backingUp.all fun height ↦ s.mc.initialized → s.mc.length ≤ height + 1
  | _ => true

/-- The states that are reached from an empty cache over some headers. -/
def Run (s : HeaderCache) : Prop := ∃ headers, Reach (step m) (fun _ _ ↦ True) { headers } s

/-- The states that are reached by timely steps. -/
def TimelyRun (s : HeaderCache) : Prop :=
  ∃ headers, Reach (step m) (fun s e ↦ s.timely e = true) { headers } s

end HeaderCache

/-! ### Where a request stands -/

namespace HeaderCall

open MerkleCache

variable (m : Merkle)

/-- A request past the wait has an initialized cache, and will write from a segment on. -/
structure Placed (mc : MerkleCache) (backups : Nat) (call : HeaderCall) : Prop where
  initialized : call.stage ≠ .waiting → mc.initialized = true
  aligned : ∀ start, call.stage = .extending start →
    2 ^ mc.depthHigher ∣ start ∧ start ≤ call.length
  backups : call.backups ≤ backups

/-- What a request has asked for and holds are parts of its first headers. -/
def Asked (mc : MerkleCache) (headers : List Bytes) (call : HeaderCall) : Prop :=
  match call.stage with
  | .waiting => True
  | .extending start => call.read.start = start ∧ call.read.count = call.length - start
  | .leaves => (call.read.start, call.read.count) = mc.leafRequest call.length call.index
  | .level leafHashes level =>
    ¬call.length < mc.segmentLength ∧
      leafHashes =
        ((headers.take call.length).drop (mc.leafStart call.index)).take mc.segmentLength ∧
      level = (m.row mc.depthHigher (headers.take call.length)).take
        (call.length / 2 ^ mc.depthHigher) ∧
      (call.read.start, call.read.count) = mc.leafRequest call.length call.length

/-- A request over headers that are still there. -/
structure Current (mc : MerkleCache) (headers : List Bytes) (call : HeaderCall) : Prop where
  index_lt : call.index < call.length
  length_le : call.length ≤ headers.length
  within : call.read.start + call.read.count ≤ call.length
  reply : ∀ r, call.read.reply = some r →
    r = .ok ((headers.drop call.read.start).take call.read.count)
  asked : call.Asked m mc headers

/-- The ways in which a request goes on. -/
inductive Resumed (mc : MerkleCache) (call : HeaderCall) :
    MerkleCache → HeaderCall ⊕ Except PyError (List Bytes × Bytes) → Prop
  | started : call.stage = .waiting → mc.initialized = true →
      Resumed mc call mc (.inl (call.extend mc))
  | failed (e : PyError) : call.stage ≠ .waiting → call.read.reply = some (.error e) →
      Resumed mc call mc (.inr (.error e))
  | extended {start : Nat} {hashes : List Bytes} {mc' : MerkleCache} :
      call.stage = .extending start → call.read.reply = some (.ok hashes) →
      mc.extendWith m call.length start hashes = .ok mc' →
      Resumed mc call mc' (.inl (call.askLeaves mc'))
  | short {leafHashes : List Bytes} : call.stage = .leaves →
      call.read.reply = some (.ok leafHashes) → call.length < mc.segmentLength →
      Resumed mc call mc (.inr (m.branchAndRoot leafHashes call.index none))
  | cached {leafHashes : List Bytes} : call.stage = .leaves →
      call.read.reply = some (.ok leafHashes) → ¬call.length < mc.segmentLength →
      call.length = mc.length →
      Resumed mc call mc
        (.inr (m.branchAndRootFromLevel mc.level leafHashes call.index mc.depthHigher))
  | cut {leafHashes : List Bytes} : call.stage = .leaves →
      call.read.reply = some (.ok leafHashes) → ¬call.length < mc.segmentLength →
      Resumed mc call mc (.inl { call with
        stage := .level leafHashes (mc.level.take (call.length / 2 ^ mc.depthHigher))
        read := {
          start := (mc.leafRequest call.length call.length).1
          count := (mc.leafRequest call.length call.length).2 } })
  | levelled {leafHashes level hashes : List Bytes} : call.stage = .level leafHashes level →
      call.read.reply = some (.ok hashes) →
      Resumed mc call mc (.inr (do
        m.branchAndRootFromLevel (← mc.levelWith m level hashes) leafHashes call.index
          mc.depthHigher))

variable {m : Merkle} {mc mc' : MerkleCache} {headers : List Bytes} {call call' : HeaderCall}
  {backups : Nat} {next : HeaderCall ⊕ Except PyError (List Bytes × Bytes)}

theorem resumed_of_resume (h : call.resume m mc = some (mc', next)) :
    Resumed m mc call mc' next := by
  rw [resume] at h
  split at h
  · next hs =>
    split_ifs at h with hinit
    cases h
    exact .started hs hinit
  · cases h
  · next e hr hs =>
    cases h
    exact .failed e hs hr
  · next start hashes hs hr =>
    cases hw : mc.extendWith m call.length start hashes with
    | error e =>
      rw [extendWith, levelOf, m.level_eq_row] at hw
      cases hw
    | ok mc'' =>
      rw [hw] at h
      cases h
      exact .extended hs hr hw
  · next leafHashes hs hr =>
    split_ifs at h with hshort
    · cases h
      exact .short hs hr hshort
    · rw [levelRequest] at h
      split_ifs at h with hlen
      · cases h
        exact .cached hs hr hshort hlen
      · cases h
        exact .cut hs hr hshort
  · next leafHashes level hashes hs hr =>
    cases h
    exact .levelled hs hr

/-- What a request asks for depends on the cache's depth only. -/
theorem Current.congr (h : call.Current m mc headers) (hd : mc'.depthHigher = mc.depthHigher) :
    call.Current m mc' headers := by
  refine ⟨h.index_lt, h.length_le, h.within, h.reply, ?_⟩
  have ha := h.asked
  rw [Asked] at ha ⊢
  split at ha
  · trivial
  · exact ha
  · rwa [leafRequest, leafStart, segmentLength, hd]
  · rwa [leafRequest, leafStart, leafStart, segmentLength, hd]

theorem Placed.congr (h : call.Placed mc backups) (hd : mc'.depthHigher = mc.depthHigher)
    (hi : mc.initialized = true → mc'.initialized = true) : call.Placed mc' backups :=
  ⟨fun hs ↦ hi (h.initialized hs), fun start hs ↦ hd ▸ h.aligned start hs, h.backups⟩

theorem Current.askLeaves (hindex : call.index < call.length)
    (hlength : call.length ≤ headers.length) : (call.askLeaves mc).Current m mc headers := by
  have hstart := mc.leafStart_le call.index
  refine ⟨hindex, hlength, ?_, (fun r hr ↦ by cases hr), rfl⟩
  change mc.leafStart call.index + min mc.segmentLength (call.length - mc.leafStart call.index) ≤
    call.length
  omega

theorem Current.extend (hindex : call.index < call.length)
    (hlength : call.length ≤ headers.length) : (call.extend mc).Current m mc headers := by
  have hstart := mc.leafStart_le mc.length
  rw [HeaderCall.extend, extendRequest]
  split_ifs with hle
  · exact .askLeaves hindex hlength
  · refine ⟨hindex, hlength, ?_, (fun r hr ↦ by cases hr), rfl, rfl⟩
    dsimp only
    omega

theorem Placed.askLeaves (hi : mc.initialized = true) (hb : call.backups ≤ backups) :
    (call.askLeaves mc).Placed mc backups :=
  ⟨fun _ ↦ hi, (fun start hs ↦ by cases hs), hb⟩

theorem Placed.extend (hi : mc.initialized = true) (hb : call.backups ≤ backups) :
    (call.extend mc).Placed mc backups := by
  have hstart := mc.leafStart_le mc.length
  rw [HeaderCall.extend, extendRequest]
  split_ifs with hle
  · exact .askLeaves hi hb
  · refine ⟨fun _ ↦ hi, fun start hs ↦ ?_, hb⟩
    obtain rfl := HeaderStage.extending.inj hs
    exact ⟨mc.dvd_leafStart _, by dsimp only; omega⟩

@[simp] theorem backups_askLeaves (mc : MerkleCache) (call : HeaderCall) :
    (call.askLeaves mc).backups = call.backups := rfl

@[simp] theorem backups_extend (mc : MerkleCache) (call : HeaderCall) :
    (call.extend mc).backups = call.backups := by
  rw [HeaderCall.extend]
  split
  · rfl
  · rfl

theorem Current.answered (h : call.Current m mc headers) :
    ({ call with read := call.read.answered headers } : HeaderCall).Current m mc headers := by
  refine ⟨h.index_lt, h.length_le, h.within, fun r hr ↦ ?_, h.asked⟩
  have hwithin := h.within
  have hlength := h.length_le
  obtain rfl := Option.some.inj hr
  exact serves_readHashes headers _ _ (by omega)

theorem Current.append (h : call.Current m mc headers) (more : List Bytes) :
    call.Current m mc (headers ++ more) := by
  have hwithin := h.within
  have hlength := h.length_le
  refine ⟨h.index_lt, by rw [List.length_append]; omega, hwithin, fun r hr ↦ ?_, ?_⟩
  · rw [h.reply r hr, List.drop_append_of_le_length (by omega),
      List.take_append_of_le_length (by rw [List.length_drop]; omega)]
  · have ha := h.asked
    rw [Asked] at ha ⊢
    rwa [List.take_append_of_le_length hlength]

/-- A request that goes on leaves a cache of the headers. -/
theorem Resumed.caches (h : Resumed m mc call mc' next)
    (hc : mc.initialized = true → Caches m headers mc.length mc) (hp : call.Placed mc backups)
    (ht : ∀ start hashes, call.stage = .extending start →
      call.read.reply = some (.ok hashes) → start ≤ mc.length ∧ call.length ≤ headers.length ∧
        hashes = (headers.drop start).take (call.length - start)) :
    (mc'.initialized = true → Caches m headers mc'.length mc') ∧
      mc'.depthHigher = mc.depthHigher ∧ (mc.initialized = true → mc'.initialized = true) ∧
      ∀ call', next = .inl call' → call'.Placed mc' backups ∧ call'.backups = call.backups := by
  have hi : call.stage ≠ .waiting → mc.initialized = true := hp.initialized
  cases h with
  | started hs hinit =>
    refine ⟨hc, rfl, id, fun call' hn ↦ ?_⟩
    obtain rfl := Sum.inl.inj hn
    exact ⟨.extend hinit hp.backups, backups_extend ..⟩
  | failed e hs hr => exact ⟨hc, rfl, id, fun call' hn ↦ by cases hn⟩
  | @extended start hashes mc' hs hr hw =>
    have hinit := hi (by rw [hs]; exact fun h ↦ by cases h)
    obtain ⟨hold, hlength, rfl⟩ := ht start hashes hs hr
    obtain ⟨hdvd, hstart⟩ := hp.aligned start hs
    obtain ⟨mc'', hw', hc', hd, hl⟩ := (hc hinit).extendWith hdvd hold hstart hlength
    cases hw.symm.trans hw'
    refine ⟨fun _ ↦ hc'.self, hd, fun _ ↦ hc'.initialized, fun call' hn ↦ ?_⟩
    obtain rfl := Sum.inl.inj hn
    exact ⟨.askLeaves hc'.initialized hp.backups, rfl⟩
  | short hs hr hshort => exact ⟨hc, rfl, id, fun call' hn ↦ by cases hn⟩
  | cached hs hr hlong hlen => exact ⟨hc, rfl, id, fun call' hn ↦ by cases hn⟩
  | cut hs hr hlong =>
    have hinit := hi (by rw [hs]; exact fun h ↦ by cases h)
    refine ⟨hc, rfl, id, fun call' hn ↦ ?_⟩
    obtain rfl := Sum.inl.inj hn
    exact ⟨⟨fun _ ↦ hinit, (fun start hs ↦ by cases hs), hp.backups⟩, rfl⟩
  | levelled hs hr => exact ⟨hc, rfl, id, fun call' hn ↦ by cases hn⟩

/-- A request over headers that are still there goes on over them, and returns what the plain
tree does. -/
theorem Resumed.current (h : Resumed m mc call mc' next)
    (hc : mc.initialized = true → Caches m headers mc.length mc) (hp : call.Placed mc backups)
    (hcur : call.Current m mc headers)
    (ht : call.stage = .leaves → call.length ≤ mc.length ∨ call.length < mc.segmentLength) :
    (∀ call', next = .inl call' → call'.Current m mc' headers) ∧
      ∀ result, next = .inr result →
        result = m.branchAndRoot (headers.take call.length) call.index none := by
  have hi : call.stage ≠ .waiting → mc.initialized = true := hp.initialized
  have hindex := hcur.index_lt
  have hlength := hcur.length_le
  have ha := hcur.asked
  have hleaves (leafHashes : List Bytes) (hs : call.stage = .leaves)
      (hr : call.read.reply = some (.ok leafHashes)) : leafHashes =
        ((headers.take call.length).drop (mc.leafStart call.index)).take mc.segmentLength := by
    rw [Asked, hs] at ha
    have hstart : call.read.start = (mc.leafRequest call.length call.index).1 :=
      congrArg Prod.fst ha
    have hcount : call.read.count = (mc.leafRequest call.length call.index).2 :=
      congrArg Prod.snd ha
    rw [Except.ok.inj (hcur.reply _ hr), hstart, hcount, leaves_eq]
  cases h with
  | started hs hinit =>
    refine ⟨fun call' hn ↦ ?_, fun result hn ↦ by cases hn⟩
    obtain rfl := Sum.inl.inj hn
    exact .extend hindex hlength
  | failed e hs hr => cases hcur.reply _ hr
  | @extended start hashes mc' hs hr hw =>
    refine ⟨fun call' hn ↦ ?_, fun result hn ↦ by cases hn⟩
    obtain rfl := Sum.inl.inj hn
    exact .askLeaves hindex hlength
  | @short leafHashes hs hr hshort =>
    refine ⟨(fun call' hn ↦ by cases hn), fun result hn ↦ ?_⟩
    rw [← Sum.inr.inj hn, hleaves leafHashes hs hr, leaves_short hindex hshort]
  | @cached leafHashes hs hr hlong hlen =>
    have hinit := hi (by rw [hs]; exact fun h ↦ by cases h)
    refine ⟨(fun call' hn ↦ by cases hn), fun result hn ↦ ?_⟩
    rw [← Sum.inr.inj hn, hleaves leafHashes hs hr, (hc hinit).level, ← hlen,
      fromLevel_eq hindex hlength hlong]
  | @cut leafHashes hs hr hlong =>
    have hinit := hi (by rw [hs]; exact fun h ↦ by cases h)
    have hle := (ht hs).resolve_right hlong
    refine ⟨fun call' hn ↦ ?_, fun result hn ↦ by cases hn⟩
    obtain rfl := Sum.inl.inj hn
    have hlast := mc.leafStart_le call.length
    refine ⟨hindex, hlength, ?_, (fun r hr ↦ by cases hr), hlong, hleaves leafHashes hs hr,
      (hc hinit).take_level hle, rfl⟩
    dsimp only
    rw [leafRequest_last]
    dsimp only
    omega
  | @levelled leafHashes level hashes hs hr =>
    refine ⟨(fun call' hn ↦ by cases hn), fun result hn ↦ ?_⟩
    rw [Asked, hs] at ha
    obtain ⟨hlong, rfl, rfl, hread⟩ := ha
    rw [leafRequest_last] at hread
    have hstart : call.read.start = mc.leafStart call.length := congrArg Prod.fst hread
    have hcount : call.read.count = call.length - mc.leafStart call.length :=
      congrArg Prod.snd hread
    have hhashes := Except.ok.inj (hcur.reply _ hr)
    rw [hstart, hcount] at hhashes
    rw [← Sum.inr.inj hn, hhashes, levelWith_eq hlength]
    exact fromLevel_eq hindex hlength hlong

end HeaderCall

/-! ### Timely runs -/

namespace HeaderCache

open MerkleCache

variable {m : Merkle} {s s' : HeaderCache} {call : HeaderCall}

/-- The cache is one of the headers, and so is what the requests hold that have seen no backup. -/
structure Sound (m : Merkle) (s : HeaderCache) : Prop where
  caches : s.mc.initialized = true → Caches m s.headers s.mc.length s.mc
  placed : ∀ call ∈ s.calls, call.Placed s.mc s.backups
  current : ∀ call ∈ s.calls, s.Fresh call → call.Current m s.mc s.headers

theorem Sound.start (m : Merkle) (headers : List Bytes) : Sound m { headers } :=
  ⟨(fun hi ↦ by cases hi), fun _ hm ↦ absurd hm List.not_mem_nil,
    fun _ hm ↦ absurd hm List.not_mem_nil⟩

theorem Sound.populate (h : Sound m s) {reorgLimit : Nat}
    (hs : s.step m (.populate reorgLimit) = some s') : Sound m s' := by
  rw [step] at hs
  split_ifs at hs with hno
  dsimp only at hs
  split at hs
  · cases hs
  · next mc hinit =>
    cases hs
    obtain ⟨depth, -, hmc⟩ := bind_eq_ok.mp hinit
    cases hmc
    have hnot : s.mc.initialized ≠ true := fun hi ↦ hno (.inl hi)
    have hwaiting {call : HeaderCall} (hm : call ∈ s.calls) : call.stage = .waiting := by
      by_contra hstage
      exact hnot ((h.placed call hm).initialized hstage)
    refine ⟨fun hi ↦ absurd hi hnot, fun call hm ↦ ?_, fun call hm hf ↦ ?_⟩
    · refine ⟨fun hstage ↦ absurd (hwaiting hm) hstage, fun start hstage ↦ ?_,
        (h.placed call hm).backups⟩
      cases (hwaiting hm).symm.trans hstage
    · have hcur := h.current call hm hf
      refine ⟨hcur.index_lt, hcur.length_le, hcur.within, hcur.reply, ?_⟩
      rw [HeaderCall.Asked, hwaiting hm]
      trivial

theorem Sound.populated (h : Sound m s) (ht : s.timely .populated = true)
    (hs : s.step m .populated = some s') : Sound m s' := by
  obtain ⟨read, hread, hs⟩ := Option.bind_eq_some_iff.mp hs
  obtain ⟨reply, hreply, hs⟩ := Option.bind_eq_some_iff.mp hs
  rw [timely, hread, Option.bind_some, hreply] at ht
  split at hs
  · cases hs
  · next hashes =>
    obtain ⟨hlength, rfl⟩ := of_decide_eq_true ht
    rw [initializeWith, levelOf, m.level_eq_row] at hs
    cases hs
    refine ⟨fun _ ↦ ⟨rfl, le_rfl, hlength, rfl⟩, fun call hm ↦ ?_, fun call hm hf ↦ ?_⟩
    · exact (h.placed call hm).congr rfl fun _ ↦ rfl
    · exact (h.current call hm hf).congr rfl

theorem Sound.request (h : Sound m s) {length index : Nat}
    (hs : s.step m (.request length index) = some s') : Sound m s' := by
  rw [step] at hs
  split_ifs at hs with hguard
  cases hs
  refine ⟨h.caches, fun call hm ↦ ?_, fun call hm hf ↦ ?_⟩
  · rcases List.mem_append.mp hm with hm | hm
    · exact h.placed call hm
    · obtain rfl := List.mem_singleton.mp hm
      exact ⟨fun hstage ↦ absurd rfl hstage, (fun start hstage ↦ by cases hstage), le_rfl⟩
  · rcases List.mem_append.mp hm with hm | hm
    · exact h.current call hm hf
    · obtain rfl := List.mem_singleton.mp hm
      exact ⟨hguard.1, hguard.2, Nat.zero_le _, (fun r hr ↦ by cases hr), trivial⟩

theorem Sound.read (h : Sound m s) {i : Nat} (hs : s.step m (.read i) = some s') :
    Sound m s' := by
  obtain ⟨call, hcall, hs⟩ := Option.bind_eq_some_iff.mp hs
  have hmem := List.mem_of_getElem? hcall
  split_ifs at hs
  cases hs
  refine ⟨h.caches, fun call' hm ↦ ?_, fun call' hm hf ↦ ?_⟩
  · rcases List.mem_or_eq_of_mem_set hm with hm | rfl
    · exact h.placed call' hm
    · have hp := h.placed call hmem
      exact ⟨hp.initialized, hp.aligned, hp.backups⟩
  · rcases List.mem_or_eq_of_mem_set hm with hm | rfl
    · exact h.current call' hm hf
    · exact (h.current call hmem hf).answered

theorem callTimely_extending (ht : s.callTimely call = true) :
    ∀ start hashes, call.stage = .extending start → call.read.reply = some (.ok hashes) →
      start ≤ s.mc.length ∧ call.length ≤ s.headers.length ∧
        hashes = (s.headers.drop start).take (call.length - start) := by
  intro start hashes hs hr
  rw [callTimely, hs, hr] at ht
  exact of_decide_eq_true ht

theorem callTimely_leaves (ht : s.callTimely call = true) (hf : s.Fresh call)
    (hs : call.stage = .leaves) :
    call.length ≤ s.mc.length ∨ call.length < s.mc.segmentLength := by
  rw [callTimely, hs] at ht
  exact of_decide_eq_true ht hf

theorem Sound.resume (h : Sound m s) {i : Nat} (ht : s.timely (.resume i) = true)
    (hs : s.step m (.resume i) = some s') : Sound m s' := by
  obtain ⟨call, hcall, hs⟩ := Option.bind_eq_some_iff.mp hs
  obtain ⟨⟨mc', next⟩, hresume, hs⟩ := Option.bind_eq_some_iff.mp hs
  have hmem := List.mem_of_getElem? hcall
  have hp := h.placed call hmem
  rw [timely, hcall] at ht
  have hr := HeaderCall.resumed_of_resume hresume
  obtain ⟨hc', hd, hi, hnext⟩ := hr.caches h.caches hp (callTimely_extending ht)
  have hcurrent (hf : s.Fresh call) :=
    (hr.current h.caches hp (h.current call hmem hf) (callTimely_leaves ht hf)).1
  cases next with
  | inl call' =>
    cases hs
    obtain ⟨hp', hb⟩ := hnext call' rfl
    refine ⟨hc', fun call'' hm ↦ ?_, fun call'' hm hf ↦ ?_⟩
    · rcases List.mem_or_eq_of_mem_set hm with hm | rfl
      · exact (h.placed call'' hm).congr hd hi
      · exact hp'
    · rcases List.mem_or_eq_of_mem_set hm with hm | rfl
      · exact (h.current call'' hm hf).congr hd
      · exact hcurrent ⟨hf.1, hb ▸ hf.2⟩ _ rfl
  | inr result =>
    cases hs
    exact ⟨hc', fun call'' hm ↦ (h.placed call'' (List.mem_of_mem_eraseIdx hm)).congr hd hi,
      fun call'' hm hf ↦ (h.current call'' (List.mem_of_mem_eraseIdx hm) hf).congr hd⟩

theorem Sound.backupFs (h : Sound m s) {height : Nat}
    (hs : s.step m (.backupFs height) = some s') : Sound m s' := by
  rw [step] at hs
  split_ifs at hs with hguard
  split at hs
  · cases hs
  · next mc hmc =>
    cases hs
    have hkeeps : mc.depthHigher = s.mc.depthHigher ∧ mc.initialized = s.mc.initialized := by
      rw [MerkleCache.truncate, if_neg (by omega)] at hmc
      change (if _ then _ else _) = _ at hmc
      split_ifs at hmc
      · cases hmc
        exact ⟨rfl, rfl⟩
      · cases hmc
        exact ⟨rfl, rfl⟩
    refine ⟨fun hi ↦ ?_, fun call hm ↦ ?_, fun call _ hf ↦ by cases hf.1⟩
    · obtain ⟨mc', hmc', hc⟩ := (h.caches (hkeeps.2 ▸ hi)).truncate (Nat.succ_pos height)
      cases hmc.symm.trans hmc'
      exact hc.self
    · exact (h.placed call hm).congr hkeeps.1 fun hi ↦ hkeeps.2 ▸ hi

theorem Sound.lower (h : Sound m s) (ht : s.timely .lower = true)
    (hs : s.step m .lower = some s') : Sound m s' := by
  obtain ⟨height, hheight, hs⟩ := Option.bind_eq_some_iff.mp hs
  cases hs
  rw [timely, hheight] at ht
  refine ⟨fun hi ↦ ?_, fun call hm ↦ ?_, fun call hm hf ↦ ?_⟩
  · have hle := of_decide_eq_true ht hi
    exact (h.caches hi).replace le_rfl (by rw [List.take_take, Nat.min_eq_left hle])
  · have hp := h.placed call hm
    exact ⟨hp.initialized, hp.aligned, hp.backups.trans (Nat.le_succ _)⟩
  · have hb := (h.placed call hm).backups
    have hnew : call.backups = s.backups + 1 := hf.2
    omega

theorem Sound.flush (h : Sound m s) {headers : List Bytes}
    (hs : s.step m (.flush headers) = some s') : Sound m s' := by
  rw [step] at hs
  split_ifs at hs
  cases hs
  exact ⟨fun hi ↦ (h.caches hi).append headers, h.placed,
    fun call hm hf ↦ (h.current call hm hf).append headers⟩

/-- A timely step keeps the cache and the requests sound. -/
theorem Sound.step (h : Sound m s) (e : HeaderCacheEvent) (ht : s.timely e = true)
    (hs : s.step m e = some s') : Sound m s' := by
  cases e with
  | populate reorgLimit => exact h.populate hs
  | readAll =>
    obtain ⟨read, -, hs⟩ := Option.bind_eq_some_iff.mp hs
    split_ifs at hs
    cases hs
    exact ⟨h.caches, h.placed, h.current⟩
  | populated => exact h.populated ht hs
  | request length index => exact h.request hs
  | read i => exact h.read hs
  | resume i => exact h.resume ht hs
  | backupFs height => exact h.backupFs hs
  | lower => exact h.lower ht hs
  | flush headers => exact h.flush hs

theorem TimelyRun.sound (r : TimelyRun m s) : Sound m s := by
  obtain ⟨headers, r⟩ := r
  exact r.invariant (.start m headers) fun _ _ e h ht hs ↦ h.step e ht hs

/-- In every run of timely steps a request that has started after the last backup, and sees no
other, returns the branch and root of the headers up to `db_height`. -/
theorem TimelyRun.header_answers (r : TimelyRun m s) {i : Nat} {mc' : MerkleCache}
    {result : Except PyError (List Bytes × Bytes)} (hcall : s.calls[i]? = some call)
    (hf : s.Fresh call) (ht : s.timely (.resume i) = true)
    (hr : call.resume m s.mc = some (mc', .inr result)) :
    result = m.branchAndRoot (s.headers.take call.length) call.index none ∧
      ∃ answer, result = .ok answer := by
  have h := r.sound
  have hmem := List.mem_of_getElem? hcall
  have hcur := h.current call hmem hf
  rw [timely, hcall] at ht
  have heq := ((HeaderCall.resumed_of_resume hr).current h.caches (h.placed call hmem) hcur
    (callTimely_leaves ht hf)).2 result rfl
  obtain ⟨answer, hplain⟩ := exists_plain m hcur.index_lt hcur.length_le
  exact ⟨heq, answer, heq.trans hplain⟩

/-! ### A stale write -/

/-- A cache of one header. -/
def samplePopulate : List HeaderCacheEvent := [.populate 10, .readAll, .populated]

/-- A request for the second header has read what it needs next. -/
def sampleRequest : List HeaderCacheEvent := [.request 2 0, .resume 0, .read 0]

/-- The request writes the cache and reads its leaf. -/
def sampleWrite : List HeaderCacheEvent := [.resume 0, .read 0]

/-- The second header is backed up and another takes its place. -/
def sampleReplace : List HeaderCacheEvent := [.backupFs 0, .lower, .flush [[2]]]

/-- The request has returned when the header is backed up, and the next one extends the cache
by the header that took its place. -/
theorem sampleReplace_header_answers :
    ∃ s call mc' result, TimelyRun ⟨id⟩ s ∧ s.headers = [[0], [2]] ∧ s.calls = [call] ∧
      call.resume ⟨id⟩ s.mc = some (mc', .inr result) ∧
      result = (⟨id⟩ : Merkle).branchAndRoot [[0], [2]] 0 none := by
  have hs : runEvents (HeaderCache.step ⟨id⟩) (fun s e ↦ s.timely e = true)
      { headers := [[0], [1]] } (samplePopulate ++ sampleRequest ++ sampleWrite ++
        [.resume 0] ++ sampleReplace ++ sampleRequest ++ sampleWrite) =
        some {
          headers := [[0], [2]]
          mc := { length := 2, level := [[0], [2]], initialized := true }
          backups := 1
          calls := [{
            length := 2
            index := 0
            backups := 1
            stage := .leaves
            read := { start := 0, count := 1, reply := some (.ok [[0]]) } }] } := by
    decide +kernel
  have r : TimelyRun ⟨id⟩ _ := ⟨_, Reach.refl.runEvents hs⟩
  exact ⟨_, _, _, _, r, rfl, rfl, rfl,
    (r.header_answers (i := 0) rfl (by decide) (by decide) rfl).1⟩

/-- The request has read the second header before it is backed up, and writes it into the cache
afterwards: the next request returns the root of the old headers. -/
theorem not_header_answers :
    ∃ s call mc' result, Run ⟨id⟩ s ∧ s.headers = [[0], [2]] ∧ s.backups = 1 ∧
      s.calls = [call] ∧ s.Fresh call ∧ call.length = 2 ∧ call.index = 0 ∧
      call.resume ⟨id⟩ s.mc = some (mc', .inr (.ok result)) ∧ result = ([[1]], [0, 1]) ∧
      (⟨id⟩ : Merkle).branchAndRoot [[0], [2]] 0 none = .ok ([[2]], [0, 2]) := by
  have hs : runEvents (HeaderCache.step ⟨id⟩) (fun _ _ ↦ True) { headers := [[0], [1]] }
      (samplePopulate ++ sampleRequest ++ sampleReplace ++ sampleWrite ++ [.resume 0] ++
        sampleRequest) =
        some {
          headers := [[0], [2]]
          mc := { length := 2, level := [[0], [1]], initialized := true }
          backups := 1
          calls := [{
            length := 2
            index := 0
            backups := 1
            stage := .leaves
            read := { start := 0, count := 1, reply := some (.ok [[0]]) } }] } := by
    decide +kernel
  have r : Run ⟨id⟩ _ := ⟨_, Reach.refl.runEvents hs⟩
  exact ⟨_, _, _, _, r, rfl, rfl, rfl, by decide, rfl, rfl, rfl, rfl, by decide⟩

end HeaderCache
end ElectrumX.Server
