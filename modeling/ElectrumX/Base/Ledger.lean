import Mathlib.Logic.Function.Basic
import Mathlib.Data.List.Nodup
import Mathlib.Data.List.Flatten

/-!
# Ledgers of single-use keys

A ledger is a sequence of entries, each of which spends keys and creates keys with
values. In a valid ledger every key is created at most once and spent at most once, and
only after the entry that created it. The live keys are those created and not spent.
Appending an entry spends its keys one by one and then adds the new ones; undoing it
removes the new ones and puts the spent ones back.
-/

namespace ElectrumX.Base

/-- One entry of a ledger: the keys it spends and those it creates. -/
structure LedgerEntry (K V : Type) where
  spends : List K
  creates : List (K × V)

namespace Ledger

variable {K V : Type}

/-- All keys ever created, with their values, in order. -/
def created (entries : List (LedgerEntry K V)) : List (K × V) := entries.flatMap (·.creates)

/-- All keys ever spent, in order. -/
def spent (entries : List (LedgerEntry K V)) : List K := entries.flatMap (·.spends)

/-- Every key is created once, and spent at most once after its creation. -/
structure Valid (entries : List (LedgerEntry K V)) : Prop where
  keys_nodup : ((created entries).map Prod.fst).Nodup
  spent_nodup : (spent entries).Nodup
  spends_earlier : ∀ pre e post, entries = pre ++ e :: post →
    ∀ k ∈ e.spends, k ∈ (created pre).map Prod.fst

/-- What is spent has been created, in whatever order. -/
def Closed (entries : List (LedgerEntry K V)) : Prop :=
  ∀ k ∈ spent entries, k ∈ (created entries).map Prod.fst

theorem created_append (a b : List (LedgerEntry K V)) :
    created (a ++ b) = created a ++ created b := List.flatMap_append

theorem spent_append (a b : List (LedgerEntry K V)) : spent (a ++ b) = spent a ++ spent b :=
  List.flatMap_append

theorem created_concat (a : List (LedgerEntry K V)) (e : LedgerEntry K V) :
    created (a ++ [e]) = created a ++ e.creates := by
  rw [created_append]
  simp [created]

theorem spent_concat (a : List (LedgerEntry K V)) (e : LedgerEntry K V) :
    spent (a ++ [e]) = spent a ++ e.spends := by
  rw [spent_append]
  simp [spent]

namespace Valid

/-- The empty ledger is valid. -/
theorem nil : Valid ([] : List (LedgerEntry K V)) where
  keys_nodup := List.nodup_nil
  spent_nodup := List.nodup_nil
  spends_earlier pre e post h := by simp at h

/-- A prefix of a valid ledger is valid. -/
theorem left {a b : List (LedgerEntry K V)} (h : Valid (a ++ b)) : Valid a where
  keys_nodup := by
    have hn := h.keys_nodup
    rw [created_append, List.map_append] at hn
    exact hn.of_append_left
  spent_nodup := by
    have hn := h.spent_nodup
    rw [spent_append] at hn
    exact hn.of_append_left
  spends_earlier pre e post he := h.spends_earlier pre e (post ++ b) (by simp [he])

variable {a : List (LedgerEntry K V)} {e : LedgerEntry K V}

/-- The spent keys have been created. -/
theorem spent_subset (h : Valid a) {k : K} (hk : k ∈ spent a) :
    k ∈ (created a).map Prod.fst := by
  obtain ⟨e, he, hke⟩ := List.mem_flatMap.mp hk
  obtain ⟨pre, post, hs⟩ := List.append_of_mem he
  have hm := h.spends_earlier pre e post hs k hke
  rw [hs, created_append, List.map_append]
  exact List.mem_append_left _ hm

theorem closed (h : Valid a) : Closed a := fun _ ↦ h.spent_subset

/-- The keys that the next entry creates are new. -/
theorem notMem_of_creates (h : Valid (a ++ [e])) {k : K} (hk : k ∈ e.creates.map Prod.fst) :
    k ∉ (created a).map Prod.fst := by
  have hn := h.keys_nodup
  rw [created_concat, List.map_append] at hn
  exact fun hc ↦ (List.disjoint_of_nodup_append hn) hc hk

/-- The next entry creates each of its keys once. -/
theorem creates_nodup (h : Valid (a ++ [e])) : (e.creates.map Prod.fst).Nodup := by
  have hn := h.keys_nodup
  rw [created_concat, List.map_append] at hn
  exact hn.of_append_right

/-- The next entry spends each of its keys once. -/
theorem spends_nodup (h : Valid (a ++ [e])) : e.spends.Nodup := by
  have hn := h.spent_nodup
  rw [spent_concat] at hn
  exact hn.of_append_right

/-- The keys that the next entry creates are not spent by it or before. -/
theorem creates_not_spent (h : Valid (a ++ [e])) {k : K} (hk : k ∈ e.creates.map Prod.fst) :
    k ∉ spent (a ++ [e]) := by
  intro hs
  apply h.notMem_of_creates hk
  rw [spent_concat] at hs
  rcases List.mem_append.mp hs with hs | hs
  · exact h.left.spent_subset hs
  · exact h.spends_earlier a e [] rfl k hs

/-- The keys that the next entry spends have not been spent before. -/
theorem notMem_spent (h : Valid (a ++ [e])) {k : K} (hk : k ∈ e.spends) : k ∉ spent a := by
  have hn := h.spent_nodup
  rw [spent_concat] at hn
  exact fun hs ↦ (List.disjoint_of_nodup_append hn) hs hk

end Valid

private theorem valid_iff (entries : List (LedgerEntry K V)) :
    Valid entries ↔ ((created entries).map Prod.fst).Nodup ∧ (spent entries).Nodup ∧
      ∀ i, (hi : i < entries.length) → ∀ k ∈ entries[i].spends,
        k ∈ (created (entries.take i)).map Prod.fst := by
  constructor
  · intro h
    refine ⟨h.keys_nodup, h.spent_nodup, fun i hi ↦ h.spends_earlier _ _ (entries.drop (i + 1)) ?_⟩
    rw [List.getElem_cons_drop, List.take_append_drop]
  · rintro ⟨h1, h2, h3⟩
    refine ⟨h1, h2, ?_⟩
    rintro pre e post rfl
    have h := h3 pre.length (by simp)
    simpa [List.take_left] using h

variable [DecidableEq K]

instance (entries : List (LedgerEntry K V)) : Decidable (Valid entries) :=
  decidable_of_iff' _ (valid_iff entries)

/-- The keys created and not spent. -/
def live (entries : List (LedgerEntry K V)) (k : K) : Option V :=
  if k ∈ spent entries then none else (created entries).lookup k

/-- Remove keys from a partial map, one after the other. -/
def spendAll (m : K → Option V) (ks : List K) : K → Option V :=
  ks.foldl (fun m k ↦ Function.update m k none) m

/-- Add pairs to a partial map, one after the other. -/
def createAll (m : K → Option V) (ps : List (K × V)) : K → Option V :=
  ps.foldl (fun m p ↦ Function.update m p.1 (some p.2)) m

theorem spendAll_apply (m : K → Option V) (ks : List K) (k : K) :
    spendAll m ks k = if k ∈ ks then none else m k := by
  induction ks generalizing m with
  | nil => simp [spendAll]
  | cons x xs ih =>
    have hc : spendAll m (x :: xs) = spendAll (Function.update m x none) xs := rfl
    rw [hc, ih, Function.update_apply]
    by_cases hx : k = x
    · simp [hx]
    · simp [hx]

theorem createAll_of_notMem {m : K → Option V} {ps : List (K × V)} {k : K}
    (h : k ∉ ps.map Prod.fst) : createAll m ps k = m k := by
  induction ps generalizing m with
  | nil => rfl
  | cons p ps ih =>
    rw [List.map_cons, List.mem_cons, not_or] at h
    change createAll (Function.update m p.1 (some p.2)) ps k = m k
    rw [ih h.2, Function.update_of_ne h.1]

theorem createAll_of_mem {m : K → Option V} {ps : List (K × V)} {k : K} {v : V}
    (hn : (ps.map Prod.fst).Nodup) (h : (k, v) ∈ ps) : createAll m ps k = some v := by
  induction ps generalizing m with
  | nil => simp at h
  | cons p ps ih =>
    rw [List.map_cons, List.nodup_cons] at hn
    change createAll (Function.update m p.1 (some p.2)) ps k = some v
    rcases List.mem_cons.mp h with he | hm
    · subst he
      rw [createAll_of_notMem hn.1, Function.update_self]
    · exact ih hn.2 hm

/-- With distinct keys, looking a key up finds exactly its pair. -/
theorem lookup_eq_some_iff {ps : List (K × V)} (hn : (ps.map Prod.fst).Nodup) {k : K} {v : V} :
    ps.lookup k = some v ↔ (k, v) ∈ ps := by
  induction ps with
  | nil => simp
  | cons p ps ih =>
    rw [List.map_cons, List.nodup_cons] at hn
    rw [List.lookup_cons, List.mem_cons]
    by_cases hk : k = p.1
    · subst hk
      have hm : (p.1, v) ∉ ps := fun hm ↦ hn.1 (List.mem_map.mpr ⟨_, hm, rfl⟩)
      simp [hm, Prod.ext_iff, eq_comm]
    · have hb : (k == p.1) = false := by simpa using hk
      simp [hb, ih hn.2, Prod.ext_iff, hk]

/-- A key that is looked up in vain is not among the pairs. -/
theorem lookup_eq_none_iff_notMem {ps : List (K × V)} {k : K} :
    ps.lookup k = none ↔ k ∉ ps.map Prod.fst := by
  induction ps with
  | nil => simp
  | cons p ps ih =>
    rw [List.lookup_cons, List.map_cons, List.mem_cons]
    by_cases hk : k = p.1
    · simp [hk]
    · have hb : (k == p.1) = false := by simpa using hk
      simp [hb, ih, hk]

variable {a : List (LedgerEntry K V)} {e : LedgerEntry K V}

/-- The keys that the next entry spends are live, with the value of their creation. -/
theorem Valid.live_of_spends (h : Valid (a ++ [e])) {k : K} (hk : k ∈ e.spends) :
    ∃ v, live a k = some v ∧ (k, v) ∈ created a := by
  obtain ⟨⟨k', v⟩, hm, rfl⟩ := List.mem_map.mp (h.spends_earlier a e [] rfl k hk)
  refine ⟨v, ?_, hm⟩
  rw [live, if_neg (h.notMem_spent hk), lookup_eq_some_iff h.left.keys_nodup]
  exact hm

/-- When no key is created twice, a key is live with the value of its creation, unless spent. -/
theorem live_eq_some_iff_of_nodup (hn : ((created a).map Prod.fst).Nodup) {k : K} {v : V} :
    live a k = some v ↔ (k, v) ∈ created a ∧ k ∉ spent a := by
  unfold live
  split
  · next hs => simp [hs]
  · next hs => rw [lookup_eq_some_iff hn]; simp [hs]

/-- In a valid ledger a key is live with the value of its creation, unless spent. -/
theorem live_eq_some_iff (h : Valid a) {k : K} {v : V} :
    live a k = some v ↔ (k, v) ∈ created a ∧ k ∉ spent a := live_eq_some_iff_of_nodup h.keys_nodup

/-- A key that was never created is not live. -/
theorem live_eq_none_of_notMem {k : K} (hk : k ∉ (created a).map Prod.fst) : live a k = none := by
  unfold live
  split
  · rfl
  · exact lookup_eq_none_iff_notMem.mpr hk

/-- A spent key is not live. -/
theorem live_eq_none_of_spent {k : K} (hk : k ∈ spent a) : live a k = none := if_pos hk

/-- The next entry spends its keys one by one and then adds the new ones. -/
theorem live_concat (h : Valid (a ++ [e])) :
    live (a ++ [e]) = createAll (spendAll (live a) e.spends) e.creates := by
  funext k
  by_cases hc : k ∈ e.creates.map Prod.fst
  · obtain ⟨⟨k', v⟩, hm, rfl⟩ := List.mem_map.mp hc
    rw [createAll_of_mem h.creates_nodup hm, live_eq_some_iff h, created_concat]
    exact ⟨List.mem_append_right _ hm, h.creates_not_spent hc⟩
  · rw [createAll_of_notMem hc, spendAll_apply]
    by_cases hs : k ∈ e.spends
    · rw [if_pos hs, live_eq_none_of_spent]
      rw [spent_concat]
      exact List.mem_append_right _ hs
    · have hl : (created (a ++ [e])).lookup k = (created a).lookup k := by
        rw [created_concat, List.lookup_append, lookup_eq_none_iff_notMem.mpr hc, Option.or_none]
      rw [if_neg hs, live, live, hl, spent_concat]
      simp [hs]

/-- Removing the keys of the last entry again leaves what it had spent missing. -/
theorem spendAll_creates (h : Valid (a ++ [e])) :
    spendAll (live (a ++ [e])) (e.creates.map Prod.fst) = spendAll (live a) e.spends := by
  funext k
  rw [live_concat h, spendAll_apply]
  split
  · next hc =>
    rw [spendAll_apply, live_eq_none_of_notMem (h.notMem_of_creates hc), ite_self]
  · next hc => rw [createAll_of_notMem hc]

/-- Putting the spent keys of the last entry back restores the earlier live keys. -/
theorem createAll_spends (h : Valid (a ++ [e])) (ps : List (K × V))
    (hk : ∀ k, k ∈ ps.map Prod.fst ↔ k ∈ e.spends) (hn : (ps.map Prod.fst).Nodup)
    (hv : ∀ p ∈ ps, p ∈ created a) : createAll (spendAll (live a) e.spends) ps = live a := by
  funext k
  by_cases hm : k ∈ ps.map Prod.fst
  · obtain ⟨⟨k', v⟩, hp, rfl⟩ := List.mem_map.mp hm
    obtain ⟨w, hw, hc⟩ := h.live_of_spends ((hk _).mp hm)
    have hvw : v = w := by
      have h1 := (lookup_eq_some_iff h.left.keys_nodup).mpr (hv _ hp)
      have h2 := (lookup_eq_some_iff h.left.keys_nodup).mpr hc
      exact Option.some.inj (h1.symm.trans h2)
    rw [createAll_of_mem hn hp, hw, hvw]
  · have hs : k ∉ e.spends := fun hs ↦ hm ((hk k).mpr hs)
    rw [createAll_of_notMem hm, spendAll_apply, if_neg hs]

/-! ### Batches whose entries stand in any order -/

section Batch

variable {b : List (LedgerEntry K V)}

omit [DecidableEq K] in
private theorem notMem_created (hn : ((created (a ++ b)).map Prod.fst).Nodup) {k : K}
    (hk : k ∈ (created b).map Prod.fst) : k ∉ (created a).map Prod.fst := by
  rw [created_append, List.map_append] at hn
  exact fun hc ↦ List.disjoint_of_nodup_append hn hc hk

omit [DecidableEq K] in
private theorem created_nodup (hn : ((created (a ++ b)).map Prod.fst).Nodup) :
    ((created a).map Prod.fst).Nodup ∧ ((created b).map Prod.fst).Nodup := by
  rw [created_append, List.map_append] at hn
  exact ⟨hn.of_append_left, hn.of_append_right⟩

/-- Once a batch has created all its keys, those that it spends have the values of their
creation. -/
theorem createAll_of_spent (hn : ((created (a ++ b)).map Prod.fst).Nodup)
    (hs : (spent (a ++ b)).Nodup) (hc : Closed (a ++ b)) {k : K} (hk : k ∈ spent b) :
    ∃ v, createAll (live a) (created b) k = some v ∧ (created (a ++ b)).lookup k = some v := by
  obtain ⟨⟨k', v⟩, hm, rfl⟩ := List.mem_map.mp (hc k (by
    rw [spent_append]
    exact List.mem_append_right _ hk))
  refine ⟨v, ?_, (lookup_eq_some_iff hn).mpr hm⟩
  rw [created_append] at hm
  rcases List.mem_append.mp hm with hm | hm
  · have hnew : k' ∉ (created b).map Prod.fst := fun hb ↦
      notMem_created hn hb (List.mem_map.mpr ⟨_, hm, rfl⟩)
    rw [spent_append] at hs
    rw [createAll_of_notMem hnew, live_eq_some_iff_of_nodup (created_nodup hn).1]
    exact ⟨hm, fun ha ↦ List.disjoint_of_nodup_append hs ha hk⟩
  · exact createAll_of_mem (created_nodup hn).2 hm

/-- A batch creates all its keys, and spends what it spends of the old and the new ones. -/
theorem live_append (hn : ((created (a ++ b)).map Prod.fst).Nodup) (hc : Closed a) :
    live (a ++ b) = spendAll (createAll (live a) (created b)) (spent b) := by
  funext k
  rw [spendAll_apply]
  split
  · next hk =>
    apply live_eq_none_of_spent
    rw [spent_append]
    exact List.mem_append_right _ hk
  · next hk =>
    by_cases hb : k ∈ (created b).map Prod.fst
    · obtain ⟨⟨k', v⟩, hm, rfl⟩ := List.mem_map.mp hb
      rw [createAll_of_mem (created_nodup hn).2 hm, live_eq_some_iff_of_nodup hn, created_append,
        spent_append]
      refine ⟨List.mem_append_right _ hm, fun hs ↦ ?_⟩
      rcases List.mem_append.mp hs with hs | hs
      · exact notMem_created hn hb (hc _ hs)
      · exact hk hs
    · have hl : (created (a ++ b)).lookup k = (created a).lookup k := by
        rw [created_append, List.lookup_append, lookup_eq_none_iff_notMem.mpr hb, Option.or_none]
      rw [createAll_of_notMem hb, live, live, hl, spent_append]
      simp [hk]

/-- Putting back what a batch has spent leaves what it had before it spent. -/
theorem createAll_spent (hn : ((created (a ++ b)).map Prod.fst).Nodup)
    (hs : (spent (a ++ b)).Nodup) (ha : Closed a) (hc : Closed (a ++ b)) {ps : List (K × V)}
    (hk : ps.map Prod.fst = spent b) (hv : ∀ p ∈ ps, (created (a ++ b)).lookup p.1 = some p.2) :
    createAll (live (a ++ b)) ps = createAll (live a) (created b) := by
  have hps : (ps.map Prod.fst).Nodup := by
    rw [spent_append] at hs
    exact hk ▸ hs.of_append_right
  funext k
  by_cases hm : k ∈ ps.map Prod.fst
  · obtain ⟨⟨k', v⟩, hp, rfl⟩ := List.mem_map.mp hm
    obtain ⟨w, hw, hl⟩ := createAll_of_spent hn hs hc (hk ▸ hm)
    rw [createAll_of_mem hps hp, hw, ← hl, hv _ hp]
  · rw [createAll_of_notMem hm, live_append hn ha, spendAll_apply, if_neg (hk ▸ hm)]

/-- Removing what a batch has created leaves what there was before it. -/
theorem spendAll_created (hn : ((created (a ++ b)).map Prod.fst).Nodup) :
    spendAll (createAll (live a) (created b)) ((created b).map Prod.fst) = live a := by
  funext k
  rw [spendAll_apply]
  split
  · next hb => exact (live_eq_none_of_notMem (notMem_created hn hb)).symm
  · next hb => exact createAll_of_notMem hb

end Batch

end Ledger
end ElectrumX.Base
