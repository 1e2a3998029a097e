import ElectrumX.Base.Reach
import ElectrumX.Server.Notifications

/-!
# The history cache of the session manager

The model of `limited_history` and `_notify_sessions` in `server/session.py`, with the DB
flushes between which they run. Each await is a point where other steps may come in between:
a history is looked up in the cache, read from the DB in a thread and stored; a change of
height is noticed, the header is fetched and the cache is invalidated. The cache evicts an
entry whenever it likes.
-/

namespace ElectrumX.Server
open ElectrumX.Base ElectrumX.Lib

/-- The `(tx_hash, height)` pairs of a confirmed history. -/
abbrev TxHistory := List (Hash32 × Int)

/-- What `limited_history` stores for a confirmed history, `session.py:812–816`. -/
def limitedResult (limit : Nat) (history : TxHistory) : Except PyError TxHistory :=
  let result := history.take limit
  if result.length ≥ limit then .error (.rpcError .historyTooLarge) else .ok result

/-- A call of `limited_history` that missed the cache, and its DB read once that is done. -/
structure HistoryRead where
  hashX : HashX
  result : Option (Except PyError TxHistory)

/-- A call of `_notify_sessions` that awaits the header: the height to be recorded, and the
script hashes to invalidate. -/
structure Refresh where
  height : Int
  touched : Finset HashX

/-- The session manager over a DB. `changed` has the script hashes whose history was changed by a
flush that no `_notify_sessions` call has followed yet. -/
structure SessionManager where
  db : HashX → TxHistory
  dbHeight : Int
  historyCache : HashX → Option (Except PyError TxHistory) := fun _ ↦ none
  notifiedHeight : Option Int := none
  reads : List HistoryRead := []
  refreshes : List Refresh := []
  changed : Finset HashX := ∅

/-- The steps between awaits. -/
inductive CacheEvent where
  /-- `limited_history` looks a script hash up. -/
  | lookup (hashX : HashX)
  /-- The DB read of a call in a thread. -/
  | read (i : Nat)
  /-- A call stores what it has read. -/
  | store (i : Nat)
  | evict (hashX : HashX)
  /-- A flush or a back-up brings new histories. -/
  | flush (histories : List (HashX × TxHistory)) (height : Int)
  /-- `_notify_sessions` is called. -/
  | notify (height : Int) (touched : Finset HashX)
  /-- `_refresh_hsub_results` returns and the cache is invalidated. -/
  | refreshed (i : Nat)

namespace SessionManager

/-- The histories after a flush. -/
def flushed (db : HashX → TxHistory) (histories : List (HashX × TxHistory)) : HashX → TxHistory :=
  fun hashX ↦ (histories.lookup hashX).getD (db hashX)

/-- One step, if it can be taken. -/
def step (limit : Nat) (s : SessionManager) : CacheEvent → Option SessionManager
  | .lookup hashX =>
    -- A hit returns at once.
    match s.historyCache hashX with
    | some _ => some s
    | none => some { s with reads := s.reads ++ [⟨hashX, none⟩] }
  | .read i => do
    let call ← s.reads[i]?
    if call.result.isSome then none
    else
      let result := limitedResult limit (s.db call.hashX)
      return { s with reads := s.reads.set i ⟨call.hashX, some result⟩ }
  | .store i => do
    let call ← s.reads[i]?
    let result ← call.result
    return { s with
      historyCache := Function.update s.historyCache call.hashX (some result)
      reads := s.reads.eraseIdx i }
  | .evict hashX => some { s with historyCache := Function.update s.historyCache hashX none }
  | .flush histories height =>
    let db := flushed s.db histories
    some { s with
      db := db
      dbHeight := height
      changed := s.changed ∪ (histories.map Prod.fst).toFinset.filter fun x ↦ db x ≠ s.db x }
  | .notify height touched =>
    if ¬ s.changed ⊆ touched then none
    else if s.notifiedHeight = some height then some { s with changed := ∅ }
    else some { s with
      changed := ∅
      refreshes := s.refreshes ++ [⟨min height s.dbHeight, touched⟩] }
  | .refreshed i => do
    let call ← s.refreshes[i]?
    return { s with
      notifiedHeight := some call.height
      historyCache := fun hashX ↦ if hashX ∈ call.touched then none else s.historyCache hashX
      refreshes := s.refreshes.eraseIdx i }

/-- The states that are reached from an empty cache. The guard may restrict the steps. -/
def Run (limit : Nat) (guard : SessionManager → CacheEvent → Prop) (s : SessionManager) : Prop :=
  ∃ db dbHeight, Reach (step limit) guard { db, dbHeight } s

/-- Every change has been followed by a completed notification, and no call is in progress. -/
def Quiescent (s : SessionManager) : Prop := s.changed = ∅ ∧ s.refreshes = [] ∧ s.reads = []

/-! ### Staleness -/

/-- An invalidation of a script hash is still to come. -/
def Awaited (s : SessionManager) (hashX : HashX) : Prop :=
  hashX ∈ s.changed ∨ ∃ call ∈ s.refreshes, hashX ∈ call.touched

/-- A result is that of the current history, or will be invalidated. -/
def Fresh (limit : Nat) (s : SessionManager) (hashX : HashX) (result : Except PyError TxHistory) :
    Prop := result = limitedResult limit (s.db hashX) ∨ s.Awaited hashX

/-- A call stores a history that was changed since its read only while the invalidation is still
to come; and when a notification does not change the height, no script hash whose history was
changed since the last one has an outdated entry that no other call is about to invalidate. -/
def InvalidatesInTime (limit : Nat) (s : SessionManager) : CacheEvent → Prop
  | .store i => ∀ call ∈ s.reads[i]?, ∀ result ∈ call.result, s.Fresh limit call.hashX result
  | .notify height _ => s.notifiedHeight = some height → ∀ hashX ∈ s.changed,
      ∀ result ∈ s.historyCache hashX, { s with changed := ∅ }.Fresh limit hashX result
  | _ => True

instance (s : SessionManager) (hashX : HashX) : Decidable (s.Awaited hashX) :=
  inferInstanceAs (Decidable (_ ∨ _))

instance (limit : Nat) (s : SessionManager) (hashX : HashX) (result : Except PyError TxHistory) :
    Decidable (s.Fresh limit hashX result) := inferInstanceAs (Decidable (_ ∨ _))

instance (limit : Nat) (s : SessionManager) : DecidablePred (s.InvalidatesInTime limit)
  | .lookup _ | .read _ | .evict _ | .flush _ _ | .refreshed _ => isTrue trivial
  | .store i => inferInstanceAs (Decidable (∀ call ∈ s.reads[i]?, _))
  | .notify height _ => inferInstanceAs (Decidable (s.notifiedHeight = some height → _))

/-- Every entry is fresh. -/
def CacheFresh (limit : Nat) (s : SessionManager) : Prop :=
  ∀ hashX result, s.historyCache hashX = some result → s.Fresh limit hashX result

section Steps

variable {limit : Nat} {s s' : SessionManager}

/-- A flush makes only those entries outdated whose script hash it changed. -/
private theorem fresh_flush (h : s.CacheFresh limit) (histories : List (HashX × TxHistory))
    (height : Int) (hs : s.step limit (.flush histories height) = some s') :
    s'.CacheFresh limit := by
  cases hs
  intro hashX result hc
  by_cases hne : flushed s.db histories hashX = s.db hashX
  · rcases h hashX result hc with hr | hm | hm
    · exact .inl (hr.trans (congrArg _ hne.symm))
    · exact .inr (.inl (Finset.mem_union_left _ hm))
    · exact .inr (.inr hm)
  · refine .inr (.inl (Finset.mem_union_right _ (Finset.mem_filter.mpr ⟨?_, hne⟩)))
    rw [List.mem_toFinset]
    by_contra hnot
    apply hne
    rw [flushed, List.lookup_eq_none_iff.mpr]
    · rfl
    · intro e he
      simp only [ne_eq, bne_iff_ne]
      rintro rfl
      exact hnot (List.mem_map_of_mem he)

private theorem fresh_notify (h : s.CacheFresh limit) {height : Int} {touched : Finset HashX}
    (hg : s.InvalidatesInTime limit (.notify height touched))
    (hs : s.step limit (.notify height touched) = some s') : s'.CacheFresh limit := by
  simp only [step] at hs
  split at hs
  · cases hs
  · next hsub =>
    have hsub' : s.changed ⊆ touched := by simpa using hsub
    split at hs
    · next he =>
      cases hs
      intro hashX result hc
      by_cases hm : hashX ∈ s.changed
      · exact hg he hashX hm result hc
      · rcases h hashX result hc with hr | hm' | hm'
        · exact .inl hr
        · exact absurd hm' hm
        · exact .inr (.inr hm')
    · cases hs
      intro hashX result hc
      rcases h hashX result hc with hr | hm | ⟨call, hcall, hm⟩
      · exact .inl hr
      · exact .inr (.inr ⟨_, List.mem_append_right _ List.mem_cons_self, hsub' hm⟩)
      · exact .inr (.inr ⟨call, List.mem_append_left _ hcall, hm⟩)

private theorem fresh_refreshed (h : s.CacheFresh limit) {i : Nat}
    (hs : s.step limit (.refreshed i) = some s') : s'.CacheFresh limit := by
  simp only [step] at hs
  cases hi : s.refreshes[i]? with
  | none =>
    rw [hi] at hs
    cases hs
  | some call =>
    rw [hi] at hs
    cases hs
    intro hashX result hc
    by_cases hm : hashX ∈ call.touched
    · simp [hm] at hc
    · simp only [hm, if_false] at hc
      rcases h hashX result hc with hr | hm' | ⟨call', hcall, hm'⟩
      · exact .inl hr
      · exact .inr (.inl hm')
      · refine .inr (.inr ⟨call', ?_, hm'⟩)
        rw [List.mem_eraseIdx_iff_getElem?]
        obtain ⟨j, hj⟩ := List.mem_iff_getElem?.mp hcall
        refine ⟨j, ?_, hj⟩
        rintro rfl
        cases hi.symm.trans hj
        exact hm hm'

private theorem fresh_store (h : s.CacheFresh limit) {i : Nat}
    (hg : s.InvalidatesInTime limit (.store i)) (hs : s.step limit (.store i) = some s') :
    s'.CacheFresh limit := by
  simp only [step] at hs
  cases hi : s.reads[i]? with
  | none =>
    rw [hi] at hs
    cases hs
  | some call =>
    rw [hi] at hs
    cases hr : call.result with
    | none => simp [hr] at hs
    | some result =>
      simp only [hr, Option.bind_eq_bind, Option.bind_some] at hs
      cases hs
      intro hashX result' hc
      change Function.update s.historyCache call.hashX (some result) hashX = _ at hc
      by_cases he : hashX = call.hashX
      · subst he
        rw [Function.update_self] at hc
        cases hc
        exact hg call hi result hr
      · rw [Function.update_of_ne he] at hc
        exact h hashX result' hc

private theorem fresh_evict (h : s.CacheFresh limit) (x : HashX)
    (hs : s.step limit (.evict x) = some s') : s'.CacheFresh limit := by
  cases hs
  intro hashX result hc
  change Function.update s.historyCache x none hashX = _ at hc
  by_cases he : hashX = x
  · subst he
    rw [Function.update_self] at hc
    cases hc
  · rw [Function.update_of_ne he] at hc
    exact h hashX result hc

/-- A step of `limited_history` before it stores changes nothing but the calls. -/
private theorem fresh_of_same (h : s.CacheFresh limit) (hdb : s'.db = s.db)
    (hc : s'.historyCache = s.historyCache) (hch : s'.changed = s.changed)
    (hr : s'.refreshes = s.refreshes) : s'.CacheFresh limit := by
  intro hashX result hget
  rw [hc] at hget
  rw [Fresh, Awaited, hdb, hch, hr]
  exact h hashX result hget

/-- A step that invalidates in time keeps every entry fresh. -/
theorem CacheFresh.step (h : s.CacheFresh limit) {e : CacheEvent}
    (hg : s.InvalidatesInTime limit e) (hs : s.step limit e = some s') : s'.CacheFresh limit := by
  cases e with
  | lookup hashX =>
    simp only [SessionManager.step] at hs
    split at hs
    · cases hs
      exact h
    · cases hs
      exact fresh_of_same h rfl rfl rfl rfl
  | read i =>
    simp only [SessionManager.step] at hs
    cases hi : s.reads[i]? with
    | none =>
      rw [hi] at hs
      cases hs
    | some call =>
      rw [hi] at hs
      simp only [Option.bind_eq_bind, Option.bind_some] at hs
      split at hs
      · cases hs
      · cases hs
        exact fresh_of_same h rfl rfl rfl rfl
  | store i => exact fresh_store h hg hs
  | evict hashX => exact fresh_evict h hashX hs
  | flush histories height => exact fresh_flush h histories height hs
  | notify height touched => exact fresh_notify h hg hs
  | refreshed i => exact fresh_refreshed h hs

end Steps

theorem Run.cacheFresh {limit : Nat} {s : SessionManager}
    (r : Run limit (InvalidatesInTime limit) s) : s.CacheFresh limit := by
  obtain ⟨db, dbHeight, r⟩ := r
  exact r.invariant (fun _ _ hc ↦ by cases hc) fun _ _ _ h hg hs ↦ h.step hg hs

/-- Only whole histories are stored. -/
theorem eq_of_limitedResult {limit : Nat} {history list : TxHistory}
    (h : limitedResult limit history = .ok list) : list = history := by
  simp only [limitedResult] at h
  split at h
  · cases h
  · next hlt =>
    cases h
    apply List.take_of_length_le
    rw [List.length_take] at hlt
    omega

/-- In a run whose steps invalidate in time every list in the cache is the confirmed history
whenever every change has been notified and no call is in progress. -/
theorem Run.cache_current {limit : Nat} {s : SessionManager}
    (r : Run limit (InvalidatesInTime limit) s) (hq : s.Quiescent) {hashX : HashX}
    {list : TxHistory} (hc : s.historyCache hashX = some (.ok list)) : list = s.db hashX := by
  obtain ⟨hchanged, hrefreshes, -⟩ := hq
  rcases r.cacheFresh hashX _ hc with hr | hm | ⟨call, hcall, -⟩
  · exact eq_of_limitedResult hr.symm
  · rw [hchanged] at hm
    cases hm
  · rw [hrefreshes] at hcall
    cases hcall

/-! ### A sample DB -/

def sampleTxid : Hash32 := zeroHash

def sampleManager : SessionManager where
  db := fun _ ↦ []
  dbHeight := 4

/-- The history is read once the notification is done. -/
theorem sampleLate_current : ∃ s, runEvents (step 10) (InvalidatesInTime 10) sampleManager
      [.lookup (sampleHashX 1), .flush [(sampleHashX 1, [(sampleTxid, 5)])] 5,
        .notify 5 {sampleHashX 1}, .refreshed 0, .read 0, .store 0] = some s ∧
    s.historyCache (sampleHashX 1) = some (.ok (s.db (sampleHashX 1))) := by
  obtain ⟨s, hs, hc, hr, hp, list, hlist, -⟩ : ∃ s ∈ runEvents (step 10) (InvalidatesInTime 10)
      sampleManager [.lookup (sampleHashX 1), .flush [(sampleHashX 1, [(sampleTxid, 5)])] 5,
        .notify 5 {sampleHashX 1}, .refreshed 0, .read 0, .store 0],
      s.changed = ∅ ∧ s.refreshes.length = 0 ∧ s.reads.length = 0 ∧
      ∃ list ∈ (s.historyCache (sampleHashX 1)).bind Except.toOption, True := by decide +kernel
  have r : Run 10 (InvalidatesInTime 10) s := ⟨fun _ ↦ [], 4, Reach.refl.runEvents hs⟩
  have hq : s.Quiescent :=
    ⟨hc, List.eq_nil_of_length_eq_zero hr, List.eq_nil_of_length_eq_zero hp⟩
  obtain ⟨result, hget, hok⟩ := Option.bind_eq_some_iff.mp hlist
  cases result with
  | error e => cases hok
  | ok list' =>
    rw [r.cache_current hq hget] at hget
    exact ⟨s, hs, hget⟩

/-- A history is read, changed by the next block, and stored after the block's notification. -/
theorem not_cache_current : ¬ ∀ (limit : Nat) (s : SessionManager),
    Run limit (fun _ _ ↦ True) s → s.Quiescent → ∀ hashX list,
    s.historyCache hashX = some (.ok list) → list = s.db hashX := by
  intro h
  obtain ⟨s, hs, hc, hr, hp, hcache, hdb⟩ : ∃ s ∈ runEvents (step 10) (fun _ _ ↦ True) sampleManager
      [.lookup (sampleHashX 1), .read 0, .flush [(sampleHashX 1, [(sampleTxid, 5)])] 5,
        .notify 5 {sampleHashX 1}, .refreshed 0, .store 0],
      s.changed = ∅ ∧ s.refreshes.length = 0 ∧ s.reads.length = 0 ∧
      s.historyCache (sampleHashX 1) = some (.ok []) ∧ s.db (sampleHashX 1) ≠ [] := by
    decide +kernel
  have r : Run 10 (fun _ _ ↦ True) s := ⟨fun _ ↦ [], 4, Reach.refl.runEvents hs⟩
  have hq : s.Quiescent :=
    ⟨hc, List.eq_nil_of_length_eq_zero hr, List.eq_nil_of_length_eq_zero hp⟩
  exact hdb (h 10 s r hq _ _ hcache).symm

end SessionManager
end ElectrumX.Server
