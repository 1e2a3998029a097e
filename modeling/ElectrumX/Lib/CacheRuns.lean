import ElectrumX.Lib.LRUCache

/-!
# What a run leaves in the LRU cache

A run of calls is read with its replies. A lookup finds what was stored last under its key, or
nothing; and as long as no call removes a key, the cache holds the keys that were used last.
-/

namespace ElectrumX.Lib
open ElectrumX.Base

variable {κ ν : Type} [DecidableEq κ]

/-- A call that removes no key itself. -/
def CacheCall.Keeps : CacheCall κ ν → Prop
  | .contains _ | .getItem _ | .get _ | .setItem _ _ | .setDefault _ _ => True
  | .delItem _ | .pop _ _ | .popItem | .clear => False

namespace LRUCache

open Classical in
/-- What was stored last under a key, and not removed since, after one more call and its reply. A
`setdefault` that returns another value than its default has stored nothing. -/
noncomputable def lastStored (key : κ) (old : Option ν) :
    CacheCall κ ν × CacheReply κ ν → Option ν
  | (.setItem k value, .done) => if k = key then some value else old
  | (.setDefault k default, .value value) =>
    if k = key ∧ value = some default then some default else old
  | (.delItem k, .done) => if k = key then none else old
  | (.pop k _, .value _) => if k = key then none else old
  | (.popItem, .item k _) => if k = key then none else old
  | (.clear, .done) => none
  | _ => old

/-- The key that a call used, if it did. -/
def usedKey : CacheCall κ ν × CacheReply κ ν → Option κ
  | (.getItem k, .value _) => some k
  | (.get k, .value (some _)) => some k
  | (.setItem k _, .done) => some k
  | (.setDefault k _, .value _) => some k
  | _ => none

section Spec

variable {weight : ν → Nat} {budget : Nat} {r : Recency κ ν weight budget}

/-- What a recency list holds after a call was stored by it, or was there before. -/
theorem spec_lastStored {key : κ} {old : Option ν} (call : CacheCall κ ν)
    (h : ∀ v, r.find? key = some v → old = some v) {v : ν}
    (hv : (call.spec r).1.find? key = some v) :
    lastStored key old (call, (call.spec r).2) = some v := by
  have hremove : ∀ k, (r.remove k).find? key = some v → k ≠ key ∧ old = some v := by
    intro k hk
    rw [Recency.find?_remove] at hk
    split at hk
    · cases hk
    · next hne => exact ⟨Ne.symm hne, h v hk⟩
  cases call with
  | contains k => exact h v hv
  | getItem k =>
    rw [CacheCall.spec] at *
    cases hf : r.find? k with
    | none =>
      rw [hf] at hv
      exact h v hv
    | some u =>
      rw [hf] at hv
      exact h v (by rwa [Recency.find?_touch] at hv)
  | get k => exact h v (by rwa [CacheCall.spec, Recency.find?_touch] at hv)
  | setItem k u =>
    rw [CacheCall.spec] at *
    by_cases hle : weight u ≤ budget
    · rw [dif_pos hle] at *
      rcases Recency.find?_store (h := hle) hv with ⟨rfl, rfl⟩ | ⟨hne, hr⟩
      · exact if_pos rfl
      · exact (if_neg (Ne.symm hne)).trans (h v hr)
    · rw [dif_neg hle] at *
      exact h v hv
  | delItem k =>
    rw [CacheCall.spec] at *
    split at hv
    · next hk =>
      obtain ⟨hne, hold⟩ := hremove k hv
      rw [if_pos hk]
      exact (if_neg hne).trans hold
    · next hk =>
      rw [if_neg hk]
      exact h v hv
  | pop k default =>
    rw [CacheCall.spec] at *
    cases hf : (r.find? k).or default with
    | none =>
      rw [hf] at hv
      exact h v hv
    | some u =>
      rw [hf] at hv
      obtain ⟨hne, hold⟩ := hremove k hv
      exact (if_neg hne).trans hold
  | popItem =>
    rw [CacheCall.spec] at *
    cases he : r.dict.entries with
    | nil =>
      rw [he] at hv
      exact h v hv
    | cons e es =>
      rw [he] at hv
      obtain ⟨hne, hold⟩ := hremove e.1 hv
      exact (if_neg hne).trans hold
  | setDefault k u =>
    rw [CacheCall.spec] at *
    cases hf : r.find? k with
    | some w =>
      rw [hf] at hv
      have hv' : r.find? key = some v := by rwa [Recency.find?_touch] at hv
      rw [lastStored]
      split
      · next hk =>
        rw [← hk.1, hf, hk.2] at hv'
        exact hv'
      · exact h v hv'
    | none =>
      rw [hf] at hv
      dsimp only at hv ⊢
      by_cases hle : weight u ≤ budget
      · rw [dif_pos hle] at *
        rcases Recency.find?_store (h := hle) hv with ⟨rfl, rfl⟩ | ⟨hne, hr⟩
        · rw [lastStored, if_pos ⟨rfl, rfl⟩]
        · rw [lastStored, if_neg fun hk ↦ hne hk.1.symm, h v hr]
      · rw [dif_neg hle] at *
        exact h v hv
  | clear => cases hv

theorem specCalls_lastStored {key : κ} {old : Option ν} (calls : List (CacheCall κ ν))
    (h : ∀ v, r.find? key = some v → old = some v) {v : ν}
    (hv : (specCalls r calls).1.find? key = some v) :
    (calls.zip (specCalls r calls).2).foldl (lastStored key) old = some v := by
  induction calls generalizing r old with
  | nil => exact h v hv
  | cons call calls ih => exact ih (fun u hu ↦ spec_lastStored call h hu) hv

end Spec

/-- After any run a lookup finds nothing or what was stored last under the key, if that was not
removed since. -/
theorem getItem_lastStored (maxsize : Nat) (getsizeof : Option (ν → Nat))
    (calls : List (CacheCall κ ν)) (key : κ) :
    let cache := (create maxsize getsizeof : LRUCache κ ν).calls calls
    cache.1.getItem key = .error .keyError ∨
      ∃ value cache', cache.1.getItem key = .ok (value, cache') ∧
        (calls.zip cache.2).foldl (lastStored key) none = some value := by
  obtain ⟨h, hreplies⟩ := Holds.calls (holds_create maxsize getsizeof) calls
  dsimp only
  have hget := h.getItem key
  rw [hreplies]
  cases hv : (specCalls Recency.empty calls).1.find? key with
  | none =>
    rw [hv] at hget
    exact .inl hget
  | some value =>
    rw [hv] at hget
    obtain ⟨cache', hcache', -⟩ := hget
    refine .inr ⟨value, cache', hcache', specCalls_lastStored calls (fun v hv ↦ ?_) hv⟩
    cases hv

section Recent

variable {budget : Nat} {r : Recency κ ν (fun _ ↦ 1) budget}

/-- A call that removes nothing leaves the keys used last. -/
theorem spec_keys {used : List κ} {call : CacheCall κ ν} (hcall : call.Keeps)
    (h : r.dict.keys = used.dedup.rtake budget) :
    (call.spec r).1.dict.keys =
      (used ++ (usedKey (call, (call.spec r).2)).toList).dedup.rtake budget := by
  have huse : ∀ k,
      (used ++ [k]).dedup.rtake budget = (r.dict.keys.erase k ++ [k]).rtake budget := by
    intro k
    rw [dedup_concat, h, rtake_use (List.nodup_dedup _)]
  have hnone : r.dict.keys = (used ++ []).dedup.rtake budget := by rwa [List.append_nil]
  cases call with
  | contains k => exact hnone
  | getItem k =>
    rw [CacheCall.spec]
    cases hf : r.find? k with
    | none => exact hnone
    | some u => exact (Recency.keys_touch_one hf).trans (huse k).symm
  | get k =>
    rw [CacheCall.spec]
    cases hf : r.find? k with
    | none =>
      rw [Recency.touch_of_none hf]
      exact hnone
    | some u => exact (Recency.keys_touch_one hf).trans (huse k).symm
  | setItem k u =>
    rw [CacheCall.spec]
    split
    · next hle => exact (r.keys_store_one k u hle).trans (huse k).symm
    · exact hnone
  | setDefault k u =>
    rw [CacheCall.spec]
    cases hf : r.find? k with
    | some w => exact (Recency.keys_touch_one hf).trans (huse k).symm
    | none =>
      dsimp only
      split
      · next hle => exact (r.keys_store_one k u hle).trans (huse k).symm
      · exact hnone
  | delItem k => exact hcall.elim
  | pop k default => exact hcall.elim
  | popItem => exact hcall.elim
  | clear => exact hcall.elim

theorem specCalls_keys {used : List κ} {calls : List (CacheCall κ ν)}
    (hcalls : ∀ call ∈ calls, call.Keeps) (h : r.dict.keys = used.dedup.rtake budget) :
    (specCalls r calls).1.dict.keys =
      (used ++ (calls.zip (specCalls r calls).2).filterMap usedKey).dedup.rtake budget := by
  induction calls generalizing r used with
  | nil => simpa [specCalls] using h
  | cons call calls ih =>
    have hstep := spec_keys (hcalls call List.mem_cons_self) h
    have hrun := ih (fun c hc ↦ hcalls c (List.mem_cons_of_mem _ hc)) hstep
    rw [List.append_assoc] at hrun
    rw [specCalls]
    dsimp only
    rw [hrun, List.zip_cons_cons, List.filterMap_cons]
    cases usedKey (call, (call.spec r).2) with
    | none => rfl
    | some k => rfl

end Recent

/-- A cache with the default sizes whose keys are only looked up and stored holds the last
`maxsize` distinct keys that were used, in the order of their last use. -/
theorem keys_recent (maxsize : Nat) (calls : List (CacheCall κ ν))
    (hcalls : ∀ call ∈ calls, call.Keeps) :
    let cache := (create maxsize none : LRUCache κ ν).calls calls
    let recent := ((calls.zip cache.2).filterMap usedKey).dedup.rtake maxsize
    cache.1.order.keys = recent ∧ ∀ key, cache.1.contains key = true ↔ key ∈ recent := by
  obtain ⟨h, hreplies⟩ := Holds.calls (holds_create maxsize none) calls
  have hempty : (Recency.empty : Recency κ ν (fun _ ↦ 1) maxsize).dict.keys =
      ([] : List κ).dedup.rtake maxsize := by
    rw [List.dedup_nil, List.rtake_nil]
    rfl
  have hkeys := specCalls_keys hcalls hempty
  rw [List.nil_append] at hkeys
  dsimp only
  rw [hreplies]
  refine ⟨h.keys.trans hkeys, fun key ↦ ?_⟩
  rw [h.contains, ← hkeys, Option.isSome_iff_exists]
  exact OrderedDict.mem_keys_iff.symm

/-- Of three keys stored under two, one looked up in between, the one not used goes. -/
theorem sampleCalls_recent :
    let calls := [CacheCall.setItem 1 'a', .setItem 2 'b', .get 1, .setItem 3 'c', .get 2]
    let cache := (create 2 none : LRUCache Nat Char).calls calls
    cache.1.order.keys = [1, 3] ∧ (∀ key, cache.1.contains key = true ↔ key ∈ [1, 3]) :=
  keys_recent 2 [.setItem 1 'a', .setItem 2 'b', .get 1, .setItem 3 'c', .get 2] (by
    simp [CacheCall.Keeps])

end LRUCache
end ElectrumX.Lib
