import ElectrumX.Base.Reach
import ElectrumX.Lib.LRUCache
import ElectrumX.Server.Daemon

/-!
# Fee estimates

The model of `estimatefee` in `server/session.py`. Any number of requests are under way; each runs
until it awaits the lock of its cache entry or the daemon, and steps of the others and of the block
processor come in between. Tips are numbered in the order in which the block processor sets them. A
free lock goes to any of those that wait for it. Costs are left out, and so is the cache of the RPCs
that the daemon has.
-/

namespace ElectrumX.Server
open ElectrumX.Base ElectrumX.Lib

/-- What a coin says about fee estimates. -/
structure EstimateRules where
  modes : List (Option String)
  bucket : Nat → Nat

/-- `ESTIMATEFEE_MODES`, `coins.py:112`. -/
def estimatefeeModes : List (Option String) := [none, some "CONSERVATIVE", some "ECONOMICAL"]

/-- `Bitcoin.bucket_estimatefee_block_target`, `coins.py:347–359`. -/
def bucketEstimatefeeBlockTarget (n : Nat) : Nat :=
  if n ≤ 1 then 1
  else if n ≤ 12 then n
  else if n = 25 then n
  else if n ≤ 48 then n / 2 * 2
  else if n ≤ 1008 then n / 24 * 24
  else 1008

/-- The rules of `FixedCoin`, which inherits those of `Bitcoin`. -/
def fixedCoinEstimates : EstimateRules := ⟨estimatefeeModes, bucketEstimatefeeBlockTarget⟩

/-- The rules of `Coin`, `coins.py:285–290`. -/
def coinEstimates : EstimateRules := ⟨estimatefeeModes, id⟩

/-- A key of `estimatefee_cache`: the number of blocks, in its bucket, and the mode. -/
abbrev FeeKey := Nat × Option String

/-- An item of `estimatefee_cache`. A lock stands for its `asyncio.Lock`. -/
structure FeeItem (φ : Type) where
  blockhash : Option Bytes
  feerate : Option φ
  lock : Nat

inductive FeeError where
  /-- `unknown estimatefee mode: …`, `session.py:1405`. -/
  | unknownMode (mode : Option String)
  | raised (e : PyError)
  /-- `daemon error: …`, `session.py:779`. -/
  | daemonError (errs : List RpcErr)
  /-- The session is gone. -/
  | cancelled
  deriving DecidableEq, Repr

/-- Where a request is. -/
inductive FeePhase (φ : Type) where
  /-- It awaits the lock. -/
  | waiting (lock : Nat)
  /-- It holds the lock and awaits the daemon. Its local variables are the lock of the item that it
  has found, and the block hash, which is that of the tip when it asked. -/
  | asking (held lock : Nat) (blockhash : Bytes) (asked : Nat)
  /-- It has answered, at this tip. -/
  | done (answer : Except FeeError (Option φ)) (tip : Nat)

/-- A request, with the tip when it came. -/
structure FeeRequest (φ : Type) where
  key : FeeKey
  since : Nat
  phase : FeePhase φ

/-- A fee rate that the daemon has returned, with the tip when it was asked. -/
structure FeeReply (φ : Type) where
  key : FeeKey
  asked : Nat
  feerate : φ

/-- The requests over their cache, which is made at `session.py:155`. -/
structure FeeEstimates (φ : Type) where
  tip : Nat := 0
  cache : LRUCache FeeKey (FeeItem φ) := .create 1000 none
  locks : Nat := 0
  requests : List (FeeRequest φ) := []
  replies : List (FeeReply φ) := []

/-- The steps between awaits. -/
inductive FeeEvent (φ : Type) where
  | request (number : Nat) (mode : Option String)
  /-- A request gets the lock that it waits for. -/
  | acquire (i : Nat)
  /-- The daemon's answer gets to a request. -/
  | reply (i : Nat) (feerate : Except (List RpcErr) (Option φ))
  /-- A request is cancelled. -/
  | cancel (i : Nat)
  /-- The block processor sets another tip. -/
  | newTip

/-- Whether a request holds a lock. -/
def FeePhase.holds {φ : Type} (lock : Nat) : FeePhase φ → Bool
  | .asking held _ _ _ => held = lock
  | _ => false

namespace FeeEstimates

variable {φ : Type}

/-- Whether a lock is held. -/
def locked (s : FeeEstimates φ) (lock : Nat) : Bool := s.requests.any (·.phase.holds lock)

/-- `estimatefee` up to its lock, `session.py:1408–1419`. -/
def lookUp (s : FeeEstimates φ) (tip : Bytes) (key : FeeKey) :
    Except PyError (FeeEstimates φ × FeePhase φ) := do
  let (cacheItem, cache) ← s.cache.get key
  match cacheItem with
  | some item =>
    if item.blockhash = some tip ∧ tip ≠ [] then
      .ok ({ s with cache := cache }, .done (.ok item.feerate) s.tip)
    else .ok ({ s with cache := cache }, .waiting item.lock)
  | none =>
    let cache ← cache.setItem key ⟨none, none, s.locks⟩
    .ok ({ s with cache := cache, locks := s.locks + 1 }, .waiting s.locks)

/-- `estimatefee` under its lock up to the daemon, `session.py:1421–1431`. -/
def underLock (s : FeeEstimates φ) (tip : Bytes) (key : FeeKey) (held : Nat) :
    Except PyError (FeeEstimates φ × FeePhase φ) := do
  let (cacheItem, cache) ← s.cache.get key
  let s := { s with cache := cache }
  match cacheItem with
  | some item =>
    if item.blockhash = some tip then .ok (s, .done (.ok item.feerate) s.tip)
    else .ok (s, .asking held item.lock tip s.tip)
  | none => .ok (s, .asking held held tip s.tip)

/-- `estimatefee` from the daemon on, `session.py:1428–1435`. -/
def fromDaemon (s : FeeEstimates φ) (key : FeeKey) (lock : Nat) (blockhash : Bytes) (asked : Nat) :
    Except (List RpcErr) (Option φ) → Except PyError (FeeEstimates φ × FeePhase φ)
  | .error errs => .ok (s, .done (.error (.daemonError errs)) s.tip)
  | .ok none => .error .assertionError
  | .ok (some feerate) => do
    let cache ← s.cache.setItem key ⟨some blockhash, some feerate, lock⟩
    .ok ({ s with cache := cache, replies := s.replies ++ [⟨key, asked, feerate⟩] },
      .done (.ok (some feerate)) s.tip)

/-- An exception ends the request. -/
def orRaise (s : FeeEstimates φ) :
    Except PyError (FeeEstimates φ × FeePhase φ) → FeeEstimates φ × FeePhase φ
  | .ok r => r
  | .error e => (s, .done (.error (.raised e)) s.tip)

/-- A request goes on to another phase. -/
def goOn (r : FeeEstimates φ × FeePhase φ) (i : Nat) (request : FeeRequest φ) : FeeEstimates φ :=
  { r.1 with requests := r.1.requests.set i { request with phase := r.2 } }

/-- A step, over the block hashes of the tips. -/
def step (rules : EstimateRules) (tips : Nat → Bytes) (s : FeeEstimates φ) :
    FeeEvent φ → Option (FeeEstimates φ)
  | .request number mode =>
    let (s', phase) :=
      if mode ∉ rules.modes then (s, .done (.error (.unknownMode mode)) s.tip)
      else s.orRaise (s.lookUp (tips s.tip) (rules.bucket number, mode))
    some { s' with requests := s'.requests ++ [⟨(rules.bucket number, mode), s.tip, phase⟩] }
  | .acquire i =>
    match s.requests[i]? with
    | some ⟨key, since, .waiting lock⟩ =>
      if s.locked lock then none
      else some (goOn (s.orRaise (s.underLock (tips s.tip) key lock)) i ⟨key, since, .waiting lock⟩)
    | _ => none
  | .reply i feerate =>
    match s.requests[i]? with
    | some ⟨key, since, .asking held lock blockhash asked⟩ =>
      some (goOn (s.orRaise (s.fromDaemon key lock blockhash asked feerate)) i
        ⟨key, since, .asking held lock blockhash asked⟩)
    | _ => none
  | .cancel i =>
    match s.requests[i]? with
    | some ⟨_, _, .done _ _⟩ | none => none
    | some request => some (goOn (s, .done (.error .cancelled) s.tip) i request)
  | .newTip => some { s with tip := s.tip + 1 }

/-- The states of the server's runs. -/
abbrev Run (rules : EstimateRules) (tips : Nat → Bytes) : FeeEstimates φ → Prop :=
  Reach (step rules tips) (fun _ _ ↦ True) {}

/-! ### What a step does -/

/-- The cache is a recency list of items. -/
def Cached (cache : LRUCache FeeKey (FeeItem φ)) : Prop :=
  ∃ r : Recency FeeKey (FeeItem φ) (fun _ ↦ 1) 1000, cache.Holds r

theorem cached_create : Cached (.create 1000 none : LRUCache FeeKey (FeeItem φ)) :=
  ⟨_, LRUCache.holds_create 1000 none⟩

/-- Looking an item up changes the order of the keys only. -/
theorem Cached.get {cache : LRUCache FeeKey (FeeItem φ)} (h : Cached cache) (key : FeeKey) :
    ∃ cache', cache.get key = .ok (cache.data.get? key, cache') ∧ Cached cache' ∧
      ∀ k, cache'.data.get? k = cache.data.get? k := by
  obtain ⟨r, hr⟩ := h
  obtain ⟨cache', hget, hr'⟩ := hr.get key
  refine ⟨cache', ?_, ⟨_, hr'⟩, fun k ↦ ?_⟩
  · rw [hget, hr.data]
    rfl
  · rw [hr'.data, hr.data]
    exact Recency.find?_touch r key k

/-- Storing an item may evict others. It does not where the keys are few. -/
theorem Cached.setItem {cache : LRUCache FeeKey (FeeItem φ)} (h : Cached cache) (key : FeeKey)
    (item : FeeItem φ) :
    ∃ cache', cache.setItem key item = .ok cache' ∧ Cached cache' ∧
      (∀ k v, cache'.data.get? k = some v →
        (k = key ∧ v = item) ∨ (k ≠ key ∧ cache.data.get? k = some v)) ∧
      ∀ keys : List FeeKey, keys.length ≤ 1000 → key ∈ keys →
        (∀ k v, cache.data.get? k = some v → k ∈ keys) →
        ∀ k, cache'.data.get? k = if k = key then some item else cache.data.get? k := by
  obtain ⟨r, hr⟩ := h
  have hle : (fun _ : FeeItem φ ↦ 1) item ≤ 1000 := Nat.le_of_ble_eq_true rfl
  obtain ⟨cache', hset, hr'⟩ := hr.setItem key hle
  refine ⟨cache', hset, ⟨_, hr'⟩, fun k v hv ↦ ?_, fun keys hlen hkey hkeys k ↦ ?_⟩
  · rw [hr'.data] at hv
    rw [hr.data]
    exact Recency.find?_store hv
  · rw [hr'.data, hr.data]
    refine Recency.find?_store_of_subset hlen hkey (fun k hk ↦ ?_) k
    obtain ⟨v, hv⟩ := OrderedDict.mem_keys_iff.mp hk
    exact hkeys k v ((hr.data k).trans hv)

/-- The caches hold the same items. -/
def SameItems (cache cache' : LRUCache FeeKey (FeeItem φ)) : Prop :=
  Cached cache' ∧ ∀ k, cache'.data.get? k = cache.data.get? k

/-- An item is stored, and others may be gone. -/
def Stored (cache : LRUCache FeeKey (FeeItem φ)) (key : FeeKey) (item : FeeItem φ)
    (cache' : LRUCache FeeKey (FeeItem φ)) : Prop :=
  Cached cache' ∧
    (∀ k v, cache'.data.get? k = some v →
      (k = key ∧ v = item) ∨ (k ≠ key ∧ cache.data.get? k = some v)) ∧
    ∀ keys : List FeeKey, keys.length ≤ 1000 → key ∈ keys →
      (∀ k v, cache.data.get? k = some v → k ∈ keys) →
      ∀ k, cache'.data.get? k = if k = key then some item else cache.data.get? k

theorem SameItems.stored {cache cache' cache'' : LRUCache FeeKey (FeeItem φ)} {key : FeeKey}
    {item : FeeItem φ} (h : SameItems cache cache') (h' : Stored cache' key item cache'') :
    Stored cache key item cache'' := by
  have heq : cache'.data.get? = cache.data.get? := funext h.2
  unfold Stored at h' ⊢
  rwa [heq] at h'

/-- What a part of a request leaves of the cache, the locks and the replies, and the phase that it
takes the request to. -/
inductive Moved (tip : Bytes) (s : FeeEstimates φ) (key : FeeKey) :
    Option (FeePhase φ) → FeeEstimates φ → FeePhase φ → Prop
  /-- The request fails. -/
  | failed (phase : Option (FeePhase φ)) (e : FeeError) :
      Moved tip s key phase s (.done (.error e) s.tip)
  /-- There is an item for the tip. -/
  | hit (phase : Option (FeePhase φ)) {cache : LRUCache FeeKey (FeeItem φ)} {item : FeeItem φ}
      (hsame : SameItems s.cache cache) (hitem : s.cache.data.get? key = some item)
      (htip : item.blockhash = some tip) :
      Moved tip s key phase { s with cache := cache } (.done (.ok item.feerate) s.tip)
  /-- There is an item whose lock is to be awaited. -/
  | joins {cache : LRUCache FeeKey (FeeItem φ)} {item : FeeItem φ}
      (hsame : SameItems s.cache cache) (hitem : s.cache.data.get? key = some item) :
      Moved tip s key none { s with cache := cache } (.waiting item.lock)
  /-- There is no item yet. -/
  | creates {cache : LRUCache FeeKey (FeeItem φ)} (hitem : s.cache.data.get? key = none)
      (hstored : Stored s.cache key ⟨none, none, s.locks⟩ cache) :
      Moved tip s key none { s with cache := cache, locks := s.locks + 1 } (.waiting s.locks)
  /-- The daemon is asked. -/
  | asks {held lock : Nat} {cache : LRUCache FeeKey (FeeItem φ)} (hsame : SameItems s.cache cache)
      (hitem : ∀ item, s.cache.data.get? key = some item →
        item.blockhash ≠ some tip ∧ lock = item.lock)
      (hfree : s.locked held = false) :
      Moved tip s key (some (.waiting held)) { s with cache := cache }
        (.asking held lock tip s.tip)
  /-- The daemon has answered. -/
  | answered {held lock asked : Nat} {blockhash : Bytes} {feerate : φ}
      {cache : LRUCache FeeKey (FeeItem φ)}
      (hstored : Stored s.cache key ⟨some blockhash, some feerate, lock⟩ cache) :
      Moved tip s key (some (.asking held lock blockhash asked))
        { s with cache := cache, replies := s.replies ++ [⟨key, asked, feerate⟩] }
        (.done (.ok (some feerate)) s.tip)

theorem moved_lookUp {s : FeeEstimates φ} (h : Cached s.cache) (tip : Bytes) (key : FeeKey) :
    Moved tip s key none (s.orRaise (s.lookUp tip key)).1 (s.orRaise (s.lookUp tip key)).2 := by
  obtain ⟨cache, hget, hcached, hsame⟩ := h.get key
  cases hitem : s.cache.data.get? key with
  | some item =>
    by_cases htip : item.blockhash = some tip ∧ tip ≠ []
    · have heq : s.lookUp tip key =
          .ok ({ s with cache := cache }, .done (.ok item.feerate) s.tip) := by
        rw [lookUp, hget, hitem]
        exact if_pos htip
      rw [heq]
      exact .hit none ⟨hcached, hsame⟩ hitem htip.1
    · have heq : s.lookUp tip key = .ok ({ s with cache := cache }, .waiting item.lock) := by
        rw [lookUp, hget, hitem]
        exact if_neg htip
      rw [heq]
      exact .joins ⟨hcached, hsame⟩ hitem
  | none =>
    obtain ⟨cache', hset, hstored⟩ := hcached.setItem key ⟨none, none, s.locks⟩
    have heq : s.lookUp tip key =
        .ok ({ s with cache := cache', locks := s.locks + 1 }, .waiting s.locks) := by
      rw [lookUp, hget, hitem]
      change (do
        let cache ← cache.setItem key ⟨none, none, s.locks⟩
        Except.ok ({ s with cache := cache, locks := s.locks + 1 }, FeePhase.waiting s.locks)) = _
      rw [hset]
      rfl
    rw [heq]
    exact .creates hitem (SameItems.stored ⟨hcached, hsame⟩ hstored)

theorem moved_underLock {s : FeeEstimates φ} (h : Cached s.cache) (tip : Bytes) (key : FeeKey)
    {held : Nat} (hfree : s.locked held = false) :
    Moved tip s key (some (.waiting held)) (s.orRaise (s.underLock tip key held)).1
      (s.orRaise (s.underLock tip key held)).2 := by
  obtain ⟨cache, hget, hcached, hsame⟩ := h.get key
  cases hitem : s.cache.data.get? key with
  | some item =>
    by_cases htip : item.blockhash = some tip
    · have heq : s.underLock tip key held =
          .ok ({ s with cache := cache }, .done (.ok item.feerate) s.tip) := by
        rw [underLock, hget, hitem]
        exact if_pos htip
      rw [heq]
      exact .hit _ ⟨hcached, hsame⟩ hitem htip
    · have heq : s.underLock tip key held =
          .ok ({ s with cache := cache }, .asking held item.lock tip s.tip) := by
        rw [underLock, hget, hitem]
        exact if_neg htip
      rw [heq]
      refine .asks ⟨hcached, hsame⟩ (fun item' hitem' ↦ ?_) hfree
      cases hitem.symm.trans hitem'
      exact ⟨htip, rfl⟩
  | none =>
    have heq : s.underLock tip key held =
        .ok ({ s with cache := cache }, .asking held held tip s.tip) := by
      rw [underLock, hget, hitem]
      rfl
    rw [heq]
    refine .asks ⟨hcached, hsame⟩ (fun item' hitem' ↦ ?_) hfree
    cases hitem.symm.trans hitem'

theorem moved_fromDaemon {s : FeeEstimates φ} (h : Cached s.cache) (tip : Bytes) (key : FeeKey)
    {held lock asked : Nat} {blockhash : Bytes} (feerate : Except (List RpcErr) (Option φ)) :
    Moved tip s key (some (.asking held lock blockhash asked))
      (s.orRaise (s.fromDaemon key lock blockhash asked feerate)).1
      (s.orRaise (s.fromDaemon key lock blockhash asked feerate)).2 := by
  cases feerate with
  | error errs => exact .failed _ _
  | ok feerate =>
    cases feerate with
    | none => exact .failed _ _
    | some feerate =>
      obtain ⟨cache, hset, hstored⟩ := h.setItem key ⟨some blockhash, some feerate, lock⟩
      rw [fromDaemon, hset]
      exact .answered hstored

/-- A key that requests for fee estimates get to. -/
def IsKey (rules : EstimateRules) (key : FeeKey) : Prop :=
  key.2 ∈ rules.modes ∧ ∃ number, key.1 = rules.bucket number

/-- What a step does. -/
inductive Stepped (rules : EstimateRules) (tips : Nat → Bytes) (s : FeeEstimates φ) :
    FeeEstimates φ → Prop
  | newTip : Stepped rules tips s { s with tip := s.tip + 1 }
  /-- A request with an unknown mode. -/
  | refused (key : FeeKey) (e : FeeError) :
      Stepped rules tips s { s with
        requests := s.requests ++ [⟨key, s.tip, .done (.error e) s.tip⟩] }
  | comes {key : FeeKey} {s' : FeeEstimates φ} {phase : FeePhase φ} (hkey : IsKey rules key)
      (h : Moved (tips s.tip) s key none s' phase) :
      Stepped rules tips s { s' with requests := s'.requests ++ [⟨key, s.tip, phase⟩] }
  | goesOn {i : Nat} {request : FeeRequest φ} {s' : FeeEstimates φ} {phase : FeePhase φ}
      (hi : s.requests[i]? = some request)
      (h : Moved (tips s.tip) s request.key (some request.phase) s' phase) :
      Stepped rules tips s (goOn (s', phase) i request)

theorem stepped {rules : EstimateRules} {tips : Nat → Bytes} {s s' : FeeEstimates φ}
    {e : FeeEvent φ} (h : Cached s.cache) (hs : step rules tips s e = some s') :
    Stepped rules tips s s' := by
  cases e with
  | request number mode =>
    by_cases hmode : mode ∉ rules.modes
    · rw [step, if_pos hmode] at hs
      cases hs
      exact .refused _ _
    · rw [step, if_neg hmode] at hs
      cases hs
      exact .comes ⟨not_not.mp hmode, number, rfl⟩ (moved_lookUp h _ _)
  | acquire i =>
    rw [step] at hs
    split at hs
    · next key since lock hi =>
      split at hs
      · cases hs
      · next hfree =>
        cases hs
        exact .goesOn hi (moved_underLock h _ _ (Bool.eq_false_iff.mpr hfree))
    · cases hs
  | reply i feerate =>
    rw [step] at hs
    split at hs
    · next key since held lock blockhash asked hi =>
      cases hs
      exact .goesOn hi (moved_fromDaemon h _ _ _)
    · cases hs
  | cancel i =>
    rw [step] at hs
    split at hs
    · cases hs
    · cases hs
    · next request _ hi =>
      cases hs
      exact .goesOn hi (.failed _ _)
  | newTip =>
    cases hs
    exact .newTip

/-- A property of requests holds of all after one more has come. -/
theorem forall_mem_append {P : FeeRequest φ → Prop} {requests : List (FeeRequest φ)}
    {request : FeeRequest φ} (h : ∀ r ∈ requests, P r) (hnew : P request) :
    ∀ r ∈ requests ++ [request], P r := by
  intro r hr
  rcases List.mem_append.mp hr with hr | hr
  · exact h r hr
  · rw [List.mem_singleton.mp hr]
    exact hnew

/-- A property of requests holds of all after one of them has gone on. -/
theorem forall_mem_set {P : FeeRequest φ → Prop} {requests : List (FeeRequest φ)} {i : Nat}
    {request : FeeRequest φ} (h : ∀ r ∈ requests, P r) (hnew : P request) :
    ∀ r ∈ requests.set i request, P r := by
  intro r hr
  rcases List.mem_or_eq_of_mem_set hr with hr | rfl
  · exact h r hr
  · exact hnew

/-! ### Where an answer comes from -/

section Fresh

variable {rules : EstimateRules} {tips : Nat → Bytes} {s s' : FeeEstimates φ} {key : FeeKey}
  {since : Nat} {phase : FeePhase φ}

/-- The daemon has returned a fee rate for the key at a tip that some number of the tips has the
hash of. -/
def Returned (tips : Nat → Bytes) (s : FeeEstimates φ) (key : FeeKey) (feerate : Option φ)
    (u : Nat) : Prop :=
  ∃ reply ∈ s.replies, reply.key = key ∧ feerate = some reply.feerate ∧ tips reply.asked = tips u

/-- What a phase says of the tips and of the replies. -/
def Backed (tips : Nat → Bytes) (s : FeeEstimates φ) (key : FeeKey) (since : Nat) :
    FeePhase φ → Prop
  | .waiting _ => True
  | .asking _ _ blockhash asked => blockhash = tips asked ∧ since ≤ asked ∧ asked ≤ s.tip
  | .done (.error _) _ => True
  | .done (.ok feerate) tip => ∃ u, since ≤ u ∧ u ≤ tip ∧ Returned tips s key feerate u

/-- Every item with a block hash, and every answer, is from the daemon. -/
structure Fresh (tips : Nat → Bytes) (s : FeeEstimates φ) : Prop where
  cached : Cached s.cache
  items : ∀ key item, s.cache.data.get? key = some item → ∀ blockhash,
    item.blockhash = some blockhash → ∃ u, blockhash = tips u ∧ Returned tips s key item.feerate u
  requests : ∀ r ∈ s.requests, r.since ≤ s.tip ∧ Backed tips s r.key r.since r.phase

theorem Returned.mono {feerate : Option φ} {u : Nat} (h : Returned tips s key feerate u)
    (hreplies : s.replies ⊆ s'.replies) : Returned tips s' key feerate u := by
  obtain ⟨reply, hreply, hrest⟩ := h
  exact ⟨reply, hreplies hreply, hrest⟩

theorem Backed.mono (h : Backed tips s key since phase) (hreplies : s.replies ⊆ s'.replies)
    (htip : s.tip ≤ s'.tip) : Backed tips s' key since phase := by
  cases phase with
  | waiting lock => trivial
  | asking held lock blockhash asked => exact ⟨h.1, h.2.1, Nat.le_trans h.2.2 htip⟩
  | done answer tip =>
    cases answer with
    | error e => trivial
    | ok feerate =>
      obtain ⟨u, hsince, htip, hu⟩ := h
      exact ⟨u, hsince, htip, hu.mono hreplies⟩

/-- A part of a request leaves the tip and the requests, and at most adds to the replies. -/
theorem Moved.frame {tip : Bytes} {old : Option (FeePhase φ)} (h : Moved tip s key old s' phase) :
    s'.tip = s.tip ∧ s'.requests = s.requests ∧ s.replies ⊆ s'.replies := by
  cases h with
  | failed _ e => exact ⟨rfl, rfl, List.Subset.refl _⟩
  | hit _ hsame hitem htip => exact ⟨rfl, rfl, List.Subset.refl _⟩
  | joins hsame hitem => exact ⟨rfl, rfl, List.Subset.refl _⟩
  | creates hitem hstored => exact ⟨rfl, rfl, List.Subset.refl _⟩
  | asks hsame hitem hfree => exact ⟨rfl, rfl, List.Subset.refl _⟩
  | answered hstored => exact ⟨rfl, rfl, List.subset_append_left _ _⟩

/-- A part of a request that came before the tip keeps what the items and its phase say. -/
theorem Fresh.moved {old : Option (FeePhase φ)} (h : Fresh tips s)
    (hm : Moved (tips s.tip) s key old s' phase) (hsince : since ≤ s.tip)
    (hold : ∀ p, old = some p → Backed tips s key since p) :
    Cached s'.cache ∧ (∀ key item, s'.cache.data.get? key = some item → ∀ blockhash,
      item.blockhash = some blockhash →
        ∃ u, blockhash = tips u ∧ Returned tips s' key item.feerate u) ∧
      Backed tips s' key since phase := by
  have hframe := hm.frame
  cases hm with
  | failed _ e => exact ⟨h.cached, h.items, trivial⟩
  | @hit _ cache item hsame hitem htip =>
    refine ⟨hsame.1, fun k v hv ↦ h.items k v (by rwa [← hsame.2]), s.tip, hsince, le_rfl, ?_⟩
    obtain ⟨u, hu, reply, hreply, hkey, hfee, hasked⟩ := h.items key item hitem _ htip
    exact ⟨reply, hreply, hkey, hfee, hasked.trans hu.symm⟩
  | joins hsame hitem =>
    exact ⟨hsame.1, fun k v hv ↦ h.items k v (by rwa [← hsame.2]), trivial⟩
  | creates hitem hstored =>
    refine ⟨hstored.1, fun k v hv blockhash hb ↦ ?_, trivial⟩
    rcases hstored.2.1 k v hv with ⟨rfl, rfl⟩ | ⟨-, hv⟩
    · cases hb
    · exact h.items k v hv blockhash hb
  | asks hsame hitem hfree =>
    exact ⟨hsame.1, fun k v hv ↦ h.items k v (by rwa [← hsame.2]), rfl, hsince, le_rfl⟩
  | @answered held lock asked blockhash feerate cache hstored =>
    obtain ⟨rfl, hle, hasked⟩ := hold _ rfl
    have hnew : Returned tips
        { s with cache := cache, replies := s.replies ++ [⟨key, asked, feerate⟩] } key
        (some feerate) asked :=
      ⟨⟨key, asked, feerate⟩, List.mem_append_right _ (List.mem_singleton_self _), rfl, rfl, rfl⟩
    refine ⟨hstored.1, fun k v hv b hb ↦ ?_, asked, hle, hasked, hnew⟩
    rcases hstored.2.1 k v hv with ⟨rfl, rfl⟩ | ⟨-, hv⟩
    · cases hb
      exact ⟨asked, rfl, hnew⟩
    · obtain ⟨u, hu, hreturned⟩ := h.items k v hv b hb
      exact ⟨u, hu, hreturned.mono hframe.2.2⟩

theorem Fresh.stepped (h : Fresh tips s) (hs : Stepped rules tips s s') : Fresh tips s' := by
  cases hs with
  | newTip =>
    refine ⟨h.cached, h.items, fun r hr ↦ ?_⟩
    obtain ⟨hsince, hbacked⟩ := h.requests r hr
    exact ⟨Nat.le_succ_of_le hsince, hbacked.mono (List.Subset.refl _) (Nat.le_succ _)⟩
  | refused key e =>
    exact ⟨h.cached, h.items, forall_mem_append h.requests ⟨le_rfl, trivial⟩⟩
  | comes hkey hm =>
    obtain ⟨htip, hrequests, hreplies⟩ := hm.frame
    obtain ⟨hcached, hitems, hbacked⟩ := h.moved hm le_rfl fun p hp ↦ by cases hp
    refine ⟨hcached, hitems, forall_mem_append ?_ ⟨htip.ge, hbacked⟩⟩
    rw [hrequests]
    intro r hr
    obtain ⟨hsince, hr⟩ := h.requests r hr
    exact ⟨hsince.trans htip.ge, hr.mono hreplies htip.ge⟩
  | @goesOn i request s'' phase hi hm =>
    obtain ⟨htip, hrequests, hreplies⟩ := hm.frame
    obtain ⟨hsince, hold⟩ := h.requests request (List.mem_of_getElem? hi)
    obtain ⟨hcached, hitems, hbacked⟩ := h.moved hm hsince fun p hp ↦ by
      cases hp
      exact hold
    refine ⟨hcached, hitems, forall_mem_set ?_ ⟨hsince.trans htip.ge, hbacked⟩⟩
    rw [hrequests]
    intro r hr
    obtain ⟨hsince, hr⟩ := h.requests r hr
    exact ⟨hsince.trans htip.ge, hr.mono hreplies htip.ge⟩

theorem fresh_init : Fresh tips ({} : FeeEstimates φ) where
  cached := cached_create
  items key item h := by cases h
  requests r h := by cases h

theorem Run.fresh (h : Run rules tips s) : Fresh tips s :=
  h.invariant fresh_init fun _ _ _ hfresh _ hs ↦
    hfresh.stepped (FeeEstimates.stepped hfresh.cached hs)

/-- **No fee estimate is made up or stale**: whatever the interleaving, a request is answered with a
fee rate that the daemon has returned for the same bucket and mode, asked for when the tip was a
block that was also the tip at some time between the request and its answer. -/
theorem Run.answer_fresh (h : Run rules tips s) {r : FeeRequest φ} (hr : r ∈ s.requests)
    {feerate : Option φ} {tip : Nat} (hdone : r.phase = .done (.ok feerate) tip) :
    ∃ reply ∈ s.replies, reply.key = r.key ∧ feerate = some reply.feerate ∧
      ∃ u, r.since ≤ u ∧ u ≤ tip ∧ tips reply.asked = tips u := by
  have hbacked := (h.fresh.requests r hr).2
  rw [hdone] at hbacked
  obtain ⟨u, hsince, htip, reply, hreply, hkey, hfee, hasked⟩ := hbacked
  exact ⟨reply, hreply, hkey, hfee, u, hsince, htip, hasked⟩

end Fresh

/-! ### One request to the daemon at a time -/

section Exclusive

variable {rules : EstimateRules} {tips : Nat → Bytes} {keys : List FeeKey}
  {s s' : FeeEstimates φ} {key : FeeKey} {phase : FeePhase φ}

/-- The lock that a phase awaits or holds. -/
def awaited : FeePhase φ → Option Nat
  | .waiting lock => some lock
  | .asking held _ _ _ => some held
  | .done _ _ => none

/-- What a phase says of the items and of the replies: a request awaits and holds the lock of its
item, and while it asks there is no reply from its tip on. -/
def Attached (tips : Nat → Bytes) (s : FeeEstimates φ) (key : FeeKey) (phase : FeePhase φ) : Prop :=
  (∀ lock, awaited phase = some lock →
      ∃ item, s.cache.data.get? key = some item ∧ item.lock = lock) ∧
    ∀ held lock blockhash asked, phase = .asking held lock blockhash asked →
      held = lock ∧ blockhash = tips asked ∧ asked ≤ s.tip ∧
        ∀ reply ∈ s.replies, reply.key = key → reply.asked < asked

/-- No two requests hold the same lock. -/
def Apart (requests : List (FeeRequest φ)) : Prop :=
  ∀ (i j : Nat) (r r' : FeeRequest φ) (lock : Nat), requests[i]? = some r →
    requests[j]? = some r' → r.phase.holds lock = true → r'.phase.holds lock = true → i = j

/-- As long as no item is evicted, no two requests hold the same lock, and the replies for the tip
are in the cache. -/
structure Exclusive (tips : Nat → Bytes) (keys : List FeeKey) (s : FeeEstimates φ) : Prop where
  cached : Cached s.cache
  keys : ∀ key item, s.cache.data.get? key = some item → key ∈ keys
  attached : ∀ r ∈ s.requests, Attached tips s r.key r.phase
  apart : Apart s.requests
  replies : ∀ reply ∈ s.replies, reply.asked ≤ s.tip ∧ (reply.asked = s.tip →
    ∃ item, s.cache.data.get? reply.key = some item ∧ item.blockhash = some (tips s.tip))
  nodup : (s.replies.map fun reply ↦ (reply.key, reply.asked)).Nodup

theorem holds_iff {phase : FeePhase φ} {lock : Nat} : phase.holds lock = true ↔
    ∃ found blockhash asked, phase = .asking lock found blockhash asked := by
  cases phase with
  | waiting l => exact iff_of_false Bool.false_ne_true (by rintro ⟨_, _, _, h⟩; cases h)
  | asking held found blockhash asked =>
    refine ⟨fun h ↦ ?_, ?_⟩
    · obtain rfl : held = lock := of_decide_eq_true h
      exact ⟨_, _, _, rfl⟩
    · rintro ⟨_, _, _, h⟩
      cases h
      exact decide_eq_true rfl
  | done answer tip => exact iff_of_false Bool.false_ne_true (by rintro ⟨_, _, _, h⟩; cases h)

/-- What a phase says depends on the item of its key, on the replies and on the tip. -/
theorem Attached.congr (h : Attached tips s key phase)
    (hitem : s'.cache.data.get? key = s.cache.data.get? key) (hreplies : s'.replies = s.replies)
    (htip : s.tip ≤ s'.tip) : Attached tips s' key phase := by
  refine ⟨fun lock hlock ↦ ?_, fun held lock blockhash asked hp ↦ ?_⟩
  · rw [hitem]
    exact h.1 lock hlock
  · obtain ⟨hheld, hb, hasked, hlt⟩ := h.2 held lock blockhash asked hp
    refine ⟨hheld, hb, hasked.trans htip, ?_⟩
    rwa [hreplies]

theorem attached_done (answer : Except FeeError (Option φ)) (tip : Nat) :
    Attached tips s key (.done answer tip) := by
  constructor
  · intro lock h
    cases h
  · intro held lock blockhash asked h
    cases h

/-- Two phases of one key that ask hold the same lock. -/
theorem Attached.holds_of_asking {key : FeeKey} {held lock held' lock' : Nat} {b b' : Bytes}
    {asked asked' : Nat} (h : Attached tips s key (.asking held lock b asked))
    (h' : Attached tips s key (.asking held' lock' b' asked')) : held' = held := by
  obtain ⟨item, hitem, hheld⟩ := h.1 held rfl
  obtain ⟨item', hitem', hheld'⟩ := h'.1 held' rfl
  cases hitem.symm.trans hitem'
  exact hheld'.symm.trans hheld

/-- What a part of a request keeps, of itself and of the others. -/
structure Kept (tips : Nat → Bytes) (keys : List FeeKey) (s s' : FeeEstimates φ) (key : FeeKey)
    (old : Option (FeePhase φ)) (phase : FeePhase φ) : Prop where
  cached : Cached s'.cache
  keys : ∀ key item, s'.cache.data.get? key = some item → key ∈ keys
  attached : Attached tips s' key phase
  others : ∀ key' phase', Attached tips s key' phase' →
    (∀ p, old = some p → ∀ lock, p.holds lock = true → phase'.holds lock = false) →
    Attached tips s' key' phase'
  replies : ∀ reply ∈ s'.replies, reply.asked ≤ s'.tip ∧ (reply.asked = s'.tip →
    ∃ item, s'.cache.data.get? reply.key = some item ∧ item.blockhash = some (tips s'.tip))
  nodup : (s'.replies.map fun reply ↦ (reply.key, reply.asked)).Nodup

/-- A part of a request that changes neither the items nor the replies. -/
theorem Exclusive.kept_of_same (h : Exclusive tips keys s) {old : Option (FeePhase φ)}
    {cache : LRUCache FeeKey (FeeItem φ)} (hsame : SameItems s.cache cache)
    (hphase : Attached tips s key phase) :
    Kept tips keys s { s with cache := cache } key old phase where
  cached := hsame.1
  keys k item hitem := h.keys k item (by rwa [← hsame.2])
  attached := hphase.congr (hsame.2 key) rfl le_rfl
  others key' phase' hother _ := hother.congr (hsame.2 key') rfl le_rfl
  replies reply hreply := by
    rw [hsame.2]
    exact h.replies reply hreply
  nodup := h.nodup

/-- A new item, for a key that no request has yet. -/
theorem Exclusive.kept_of_creates (h : Exclusive tips keys s) (hlen : keys.length ≤ 1000)
    (hkey : key ∈ keys) {cache : LRUCache FeeKey (FeeItem φ)}
    (hitem : s.cache.data.get? key = none)
    (hstored : Stored s.cache key ⟨none, none, s.locks⟩ cache) :
    Kept tips keys s { s with cache := cache, locks := s.locks + 1 } key none
      (.waiting s.locks) := by
  have hget := hstored.2.2 keys hlen hkey h.keys
  have hne {k : FeeKey} {item : FeeItem φ} (hk : s.cache.data.get? k = some item) : k ≠ key :=
    fun he ↦ by
      rw [he, hitem] at hk
      cases hk
  refine ⟨hstored.1, fun k item hk ↦ ?_, ⟨fun lock hlock ↦ ?_, fun _ _ _ _ hp ↦ by cases hp⟩,
    fun key' phase' hother _ ↦ ?_, fun reply hreply ↦ ?_, h.nodup⟩
  · rcases hstored.2.1 k item hk with ⟨rfl, -⟩ | ⟨-, hk⟩
    · exact hkey
    · exact h.keys k item hk
  · cases hlock
    exact ⟨_, (hget key).trans (if_pos rfl), rfl⟩
  · refine ⟨fun lock hlock ↦ ?_, hother.2⟩
    obtain ⟨item, hk, hlock⟩ := hother.1 lock hlock
    exact ⟨item, (hget key').trans ((if_neg (hne hk)).trans hk), hlock⟩
  · obtain ⟨hasked, hcached⟩ := h.replies reply hreply
    refine ⟨hasked, fun htip ↦ ?_⟩
    obtain ⟨item, hk, hb⟩ := hcached htip
    exact ⟨item, (hget reply.key).trans ((if_neg (hne hk)).trans hk), hb⟩

/-- An item from the daemon, for the key of the one request that asks for it. -/
theorem Exclusive.kept_of_answered (h : Exclusive tips keys s) (hlen : keys.length ≤ 1000)
    {held lock asked : Nat} {blockhash : Bytes} {feerate : φ}
    {cache : LRUCache FeeKey (FeeItem φ)}
    (hold : Attached tips s key (.asking held lock blockhash asked))
    (hstored : Stored s.cache key ⟨some blockhash, some feerate, lock⟩ cache) :
    Kept tips keys s { s with cache := cache, replies := s.replies ++ [⟨key, asked, feerate⟩] } key
      (some (.asking held lock blockhash asked)) (.done (.ok (some feerate)) s.tip) := by
  obtain ⟨hheld, hb, hasked, hlt⟩ := hold.2 held lock blockhash asked rfl
  obtain ⟨item, hitem, hlock⟩ := hold.1 held rfl
  have hget := hstored.2.2 keys hlen (h.keys key item hitem) h.keys
  refine ⟨hstored.1, fun k item hk ↦ ?_, attached_done _ _, fun key' phase' hother hfree ↦ ?_,
    fun reply hreply ↦ ?_, ?_⟩
  · rcases hstored.2.1 k item hk with ⟨rfl, -⟩ | ⟨-, hk⟩
    · exact h.keys _ _ hitem
    · exact h.keys k item hk
  · refine ⟨fun l hl ↦ ?_, fun held' lock' b' asked' hp ↦ ?_⟩
    · obtain ⟨item', hitem', hl'⟩ := hother.1 l hl
      by_cases hk : key' = key
      · -- the new item has the lock of the old one
        rw [hk, hitem] at hitem'
        cases hitem'
        exact ⟨_, (hget key').trans (if_pos hk), hheld.symm.trans (hlock.symm.trans hl')⟩
      · exact ⟨item', (hget key').trans ((if_neg hk).trans hitem'), hl'⟩
    · obtain ⟨hheld', hb', hasked', hlt'⟩ := hother.2 held' lock' b' asked' hp
      refine ⟨hheld', hb', hasked', fun reply hreply hkey ↦ ?_⟩
      rcases List.mem_append.mp hreply with hreply | hreply
      · exact hlt' reply hreply hkey
      · -- no other request asks for the same key
        rw [List.mem_singleton.mp hreply] at hkey
        change key = key' at hkey
        subst hkey hp
        have hsame := hold.holds_of_asking hother
        have hholds := hfree _ rfl held (holds_iff.mpr ⟨_, _, _, rfl⟩)
        rw [hsame, holds_iff.mpr ⟨_, _, _, rfl⟩] at hholds
        cases hholds
  · rcases List.mem_append.mp hreply with hreply | hreply
    · obtain ⟨hle, hcached⟩ := h.replies reply hreply
      refine ⟨hle, fun htip ↦ ?_⟩
      obtain ⟨item', hitem', hb'⟩ := hcached htip
      have hne : reply.key ≠ key := fun he ↦ by
        have := hlt reply hreply he
        change reply.asked = s.tip at htip
        omega
      exact ⟨item', (hget reply.key).trans ((if_neg hne).trans hitem'), hb'⟩
    · rw [List.mem_singleton.mp hreply]
      refine ⟨hasked, fun htip ↦ ⟨_, (hget key).trans (if_pos rfl), ?_⟩⟩
      change asked = s.tip at htip
      rw [hb, htip]
  · rw [List.map_append, List.map_singleton, List.nodup_append]
    refine ⟨h.nodup, List.nodup_singleton _, fun a ha b hb' hab ↦ ?_⟩
    obtain ⟨reply, hreply, rfl⟩ := List.mem_map.mp ha
    rw [List.mem_singleton.mp hb'] at hab
    obtain ⟨hk, ha⟩ := Prod.mk.inj hab
    exact absurd ha (Nat.ne_of_lt (hlt reply hreply hk))

theorem Exclusive.kept (h : Exclusive tips keys s) (hlen : keys.length ≤ 1000)
    {old : Option (FeePhase φ)} (hm : Moved (tips s.tip) s key old s' phase)
    (hkey : old = none → key ∈ keys) (hold : ∀ p, old = some p → Attached tips s key p) :
    Kept tips keys s s' key old phase := by
  cases hm with
  | failed _ e =>
    have hsame : SameItems s.cache s.cache := ⟨h.cached, fun _ ↦ rfl⟩
    exact h.kept_of_same hsame (attached_done _ _)
  | hit _ hsame hitem htip => exact h.kept_of_same hsame (attached_done _ _)
  | @joins cache item hsame hitem =>
    refine h.kept_of_same hsame ⟨fun lock hlock ↦ ?_, fun _ _ _ _ hp ↦ by cases hp⟩
    cases hlock
    exact ⟨item, hitem, rfl⟩
  | creates hitem hstored => exact h.kept_of_creates hlen (hkey rfl) hitem hstored
  | @asks held lock cache hsame hitem hfree =>
    obtain ⟨item, hget, hheld⟩ := (hold _ rfl).1 held rfl
    obtain ⟨hne, rfl⟩ := hitem item hget
    refine h.kept_of_same hsame ⟨fun lock hlock ↦ ?_, fun _ _ _ _ hp ↦ ?_⟩
    · cases hlock
      exact ⟨item, hget, hheld⟩
    · cases hp
      refine ⟨hheld.symm, rfl, le_rfl, fun reply hreply hreplykey ↦ ?_⟩
      obtain ⟨hle, hcached⟩ := h.replies reply hreply
      refine lt_of_le_of_ne hle fun htip ↦ ?_
      obtain ⟨item', hget', hb⟩ := hcached htip
      rw [hreplykey, hget] at hget'
      cases hget'
      exact hne hb
  | answered hstored => exact h.kept_of_answered hlen (hold _ rfl) hstored

/-- The phase that a part of a request takes it to holds a lock only if it was free. -/
theorem Moved.free {tip : Bytes} {old : Option (FeePhase φ)} (h : Moved tip s key old s' phase)
    {lock : Nat} (hholds : phase.holds lock = true) : s.locked lock = false := by
  cases h with
  | asks hsame hitem hfree =>
    obtain ⟨_, _, _, hp⟩ := holds_iff.mp hholds
    cases hp
    exact hfree
  | failed | hit | joins | creates | answered =>
    obtain ⟨_, _, _, hp⟩ := holds_iff.mp hholds
    cases hp

theorem holds_of_locked {lock : Nat} (h : s.locked lock = false) {r : FeeRequest φ}
    (hr : r ∈ s.requests) : r.phase.holds lock = false :=
  Bool.eq_false_iff.mpr (List.any_eq_false.mp h r hr)

/-- A request comes, and holds a lock only if nobody does. -/
theorem Apart.append {requests : List (FeeRequest φ)} {request : FeeRequest φ}
    (h : Apart requests)
    (hnew : ∀ lock, request.phase.holds lock = true → ∀ r ∈ requests, r.phase.holds lock = false) :
    Apart (requests ++ [request]) := by
  have hcases {i : Nat} {r : FeeRequest φ} (hi : (requests ++ [request])[i]? = some r) :
      requests[i]? = some r ∨ (i = requests.length ∧ r = request) := by
    by_cases hlt : i < requests.length
    · rw [List.getElem?_append_left hlt] at hi
      exact .inl hi
    · rw [List.getElem?_append_right (Nat.not_lt.mp hlt)] at hi
      rw [List.getElem?_singleton] at hi
      split at hi
      · next hzero => exact .inr ⟨by omega, (Option.some.inj hi).symm⟩
      · cases hi
  intro i j r r' lock hi hj hr hr'
  rcases hcases hi with hold | ⟨hlast, rfl⟩
  · rcases hcases hj with hold' | ⟨-, rfl⟩
    · exact h i j r r' lock hold hold' hr hr'
    · rw [hnew lock hr' r (List.mem_of_getElem? hold)] at hr
      cases hr
  · rcases hcases hj with hold' | ⟨hlast', -⟩
    · rw [hnew lock hr r' (List.mem_of_getElem? hold')] at hr'
      cases hr'
    · exact hlast.trans hlast'.symm

/-- A request goes on, and holds a lock only if nobody did. -/
theorem Apart.set {requests : List (FeeRequest φ)} {request : FeeRequest φ} (h : Apart requests)
    (k : Nat)
    (hnew : ∀ lock, request.phase.holds lock = true → ∀ r ∈ requests, r.phase.holds lock = false) :
    Apart (requests.set k request) := by
  have hcases {i : Nat} {r : FeeRequest φ} (hi : (requests.set k request)[i]? = some r) :
      requests[i]? = some r ∨ (i = k ∧ r = request) := by
    by_cases hk : k = i
    · obtain ⟨hlt, -⟩ := List.getElem?_eq_some_iff.mp hi
      rw [List.length_set] at hlt
      rw [← hk, List.getElem?_set_self (hk ▸ hlt)] at hi
      exact .inr ⟨hk.symm, (Option.some.inj hi).symm⟩
    · rw [List.getElem?_set_ne hk] at hi
      exact .inl hi
  intro i j r r' lock hi hj hr hr'
  rcases hcases hi with hold | ⟨hlast, rfl⟩
  · rcases hcases hj with hold' | ⟨-, rfl⟩
    · exact h i j r r' lock hold hold' hr hr'
    · rw [hnew lock hr' r (List.mem_of_getElem? hold)] at hr
      cases hr
  · rcases hcases hj with hold' | ⟨hlast', -⟩
    · rw [hnew lock hr r' (List.mem_of_getElem? hold')] at hr'
      cases hr'
    · exact hlast.trans hlast'.symm

theorem Exclusive.stepped (h : Exclusive tips keys s) (hlen : keys.length ≤ 1000)
    (hkeys : ∀ key, IsKey rules key → key ∈ keys) (hs : Stepped rules tips s s') :
    Exclusive tips keys s' := by
  cases hs with
  | newTip =>
    refine ⟨h.cached, h.keys, fun r hr ↦ (h.attached r hr).congr rfl rfl (Nat.le_succ _), h.apart,
      fun reply hreply ↦ ?_, h.nodup⟩
    have hle := (h.replies reply hreply).1
    exact ⟨Nat.le_succ_of_le hle, fun htip ↦ absurd htip (Nat.ne_of_lt (Nat.lt_succ_of_le hle))⟩
  | refused key e =>
    refine ⟨h.cached, h.keys, forall_mem_append h.attached (attached_done _ _),
      h.apart.append fun lock hlock ↦ ?_, h.replies, h.nodup⟩
    cases hlock
  | @comes key s'' phase hkey hm =>
    obtain ⟨-, hrequests, -⟩ := hm.frame
    have hkept := h.kept hlen hm (fun _ ↦ hkeys _ hkey) fun p hp ↦ by cases hp
    refine ⟨hkept.cached, hkept.keys, forall_mem_append ?_ hkept.attached, ?_, hkept.replies,
      hkept.nodup⟩
    · rw [hrequests]
      exact fun r hr ↦ hkept.others _ _ (h.attached r hr) fun p hp ↦ by cases hp
    · rw [hrequests]
      exact h.apart.append fun lock hlock r hr ↦ holds_of_locked (hm.free hlock) hr
  | @goesOn i request s'' phase hi hm =>
    obtain ⟨-, hrequests, -⟩ := hm.frame
    have hold := h.attached request (List.mem_of_getElem? hi)
    have hkept := h.kept hlen hm (fun hnone ↦ by cases hnone) fun p hp ↦ by
      cases hp
      exact hold
    refine ⟨hkept.cached, hkept.keys, fun r hr ↦ ?_, ?_, hkept.replies, hkept.nodup⟩
    · change r ∈ s''.requests.set i _ at hr
      rw [hrequests] at hr
      obtain ⟨j, hj⟩ := List.getElem?_of_mem hr
      by_cases hij : i = j
      · rw [← hij, List.getElem?_set_self (List.getElem?_eq_some_iff.mp hi).1] at hj
        cases hj
        exact hkept.attached
      · rw [List.getElem?_set_ne hij] at hj
        refine hkept.others _ _ (h.attached r (List.mem_of_getElem? hj)) fun p hp lock hlock ↦ ?_
        cases hp
        exact Bool.eq_false_iff.mpr fun hr' ↦ hij (h.apart i j request r lock hi hj hlock hr')
    · change Apart (s''.requests.set i _)
      rw [hrequests]
      exact h.apart.set i fun lock hlock r hr ↦ holds_of_locked (hm.free hlock) hr

theorem exclusive_init : Exclusive tips keys ({} : FeeEstimates φ) where
  cached := cached_create
  keys key item h := by cases h
  attached r h := by cases h
  apart i j r r' lock h := by cases h
  replies reply h := by cases h
  nodup := List.nodup_nil

theorem Run.exclusive (h : Run rules tips s) (hlen : keys.length ≤ 1000)
    (hkeys : ∀ key, IsKey rules key → key ∈ keys) : Exclusive tips keys s :=
  h.invariant exclusive_init fun _ _ _ hexcl _ hs ↦
    hexcl.stepped hlen hkeys (FeeEstimates.stepped hexcl.cached hs)

/-- The numbers of blocks that FixedCoin asks its daemon for. -/
def fixedCoinBuckets : List Nat :=
  List.range' 1 12 ++ [25] ++ List.range' 12 19 2 ++ List.range' 48 41 24

/-- The keys of FixedCoin's cache, which is large enough for all of them. -/
def fixedCoinKeys : List FeeKey :=
  fixedCoinBuckets.flatMap fun number ↦ estimatefeeModes.map fun mode ↦ (number, mode)

theorem length_fixedCoinKeys_le : fixedCoinKeys.length ≤ 1000 := by
  simp only [fixedCoinKeys, List.length_flatMap, List.length_map, estimatefeeModes,
    List.map_const', List.sum_replicate_nat, fixedCoinBuckets, List.length_append,
    List.length_range', List.length_cons, List.length_nil]
  decide

theorem bucket_mem (n : Nat) : bucketEstimatefeeBlockTarget n ∈ fixedCoinBuckets := by
  simp only [fixedCoinBuckets, List.mem_append, List.mem_range', List.mem_singleton]
  unfold bucketEstimatefeeBlockTarget
  split_ifs
  · exact .inl (.inl (.inl ⟨0, by omega, by omega⟩))
  · exact .inl (.inl (.inl ⟨n - 1, by omega, by omega⟩))
  · exact .inl (.inl (.inr ‹_›))
  · exact .inl (.inr ⟨n / 2 - 6, by omega, by omega⟩)
  · exact .inr ⟨n / 24 - 2, by omega, by omega⟩
  · exact .inr ⟨40, by omega, by omega⟩

theorem key_mem {key : FeeKey} (h : IsKey fixedCoinEstimates key) : key ∈ fixedCoinKeys := by
  obtain ⟨hmode, number, hnumber⟩ := h
  refine List.mem_flatMap.mpr ⟨key.1, ?_, List.mem_map.mpr ⟨key.2, hmode, rfl⟩⟩
  rw [hnumber]
  exact bucket_mem number

/-- **FixedCoin's daemon is asked once**: whatever the interleaving, no two requests ask it for the
same bucket and mode at a time, and of those that ask it between two changes of the tip it answers
at most one with a fee rate. -/
theorem Run.asks_once (h : Run fixedCoinEstimates tips s) :
    (∀ (i j : Nat) (r r' : FeeRequest φ) (held held' lock lock' : Nat) (b b' : Bytes)
      (asked asked' : Nat), s.requests[i]? = some r → s.requests[j]? = some r' →
      r.phase = .asking held lock b asked → r'.phase = .asking held' lock' b' asked' →
      r.key = r'.key → i = j) ∧
    (s.replies.map fun reply ↦ (reply.key, reply.asked)).Nodup := by
  have hexcl := h.exclusive length_fixedCoinKeys_le fun _ ↦ key_mem
  refine ⟨fun i j r r' held held' lock lock' b b' asked asked' hi hj hr hr' hkey ↦ ?_, hexcl.nodup⟩
  have hattached := hexcl.attached r (List.mem_of_getElem? hi)
  have hattached' := hexcl.attached r' (List.mem_of_getElem? hj)
  rw [hr] at hattached
  rw [hr', ← hkey] at hattached'
  have hheld := hattached.holds_of_asking hattached'
  refine hexcl.apart i j r r' held hi hj ?_ ?_
  · rw [hr]
    exact holds_iff.mpr ⟨_, _, _, rfl⟩
  · rw [hr', hheld]
    exact holds_iff.mpr ⟨_, _, _, rfl⟩

end Exclusive

/-! ### A run with two requests for the same estimate -/

def sampleFeeEvents : List (FeeEvent Nat) :=
  [.request 2 none, .request 2 none, .acquire 0, .newTip, .reply 0 (.ok (some 7)), .request 2 none,
    .acquire 1, .reply 1 (.ok (some 8)), .acquire 2]

def sampleTips (n : Nat) : Bytes := [1, n.toUInt8]

def sampleFees : FeeEstimates Nat :=
  (runEvents (step fixedCoinEstimates sampleTips) (fun _ _ ↦ True) {} sampleFeeEvents).getD {}

theorem sampleFees_run : Run fixedCoinEstimates sampleTips sampleFees :=
  Reach.ofEvents (show runEvents _ _ _ sampleFeeEvents = some sampleFees from rfl)
    fun _ _ _ ↦ trivial

theorem sampleFees_fresh : ∃ reply ∈ sampleFees.replies, reply.key = (2, none) ∧
    some 8 = some reply.feerate ∧
    ∃ u, 1 ≤ u ∧ u ≤ 1 ∧ sampleTips reply.asked = sampleTips u :=
  sampleFees_run.answer_fresh
    (show ⟨(2, none), 1, .done (.ok (some 8)) 1⟩ ∈ sampleFees.requests from
      List.mem_of_getElem? (i := 2) rfl) rfl

theorem sampleFees_once :
    (∀ (i j : Nat) (r r' : FeeRequest Nat) (held held' lock lock' : Nat) (b b' : Bytes)
      (asked asked' : Nat), sampleFees.requests[i]? = some r → sampleFees.requests[j]? = some r' →
      r.phase = .asking held lock b asked → r'.phase = .asking held' lock' b' asked' →
      r.key = r'.key → i = j) ∧
    (sampleFees.replies.map fun reply ↦ (reply.key, reply.asked)).Nodup :=
  sampleFees_run.asks_once

end FeeEstimates
end ElectrumX.Server
