import Mathlib.Algebra.GroupWithZero.Nat
import Mathlib.Data.List.Nodup
import Mathlib.Data.List.Perm.Basic

/-!
# Insertion-ordered dictionaries

A dictionary lists its keys in the order in which they were inserted, each once. Replacing a value
keeps the place of its key; a key can be moved to the end.
-/

namespace ElectrumX.Base

/-- A finite map that remembers the order in which its keys were inserted. -/
structure OrderedDict (κ ν : Type) where
  entries : List (κ × ν)
  nodup_keys : (entries.map Prod.fst).Nodup

namespace OrderedDict

variable {κ ν : Type}

/-- The keys, oldest first. -/
def keys (d : OrderedDict κ ν) : List κ := d.entries.map Prod.fst

def empty : OrderedDict κ ν := ⟨[], List.nodup_nil⟩

instance : Inhabited (OrderedDict κ ν) := ⟨empty⟩

@[ext] theorem ext {d d' : OrderedDict κ ν} (h : d.entries = d'.entries) : d = d' := by
  cases d
  cases d'
  cases h
  rfl

theorem nodup (d : OrderedDict κ ν) : d.keys.Nodup := d.nodup_keys

theorem entries_nodup (d : OrderedDict κ ν) : d.entries.Nodup := d.nodup_keys.of_map _

theorem mem_keys {d : OrderedDict κ ν} {k : κ} : k ∈ d.keys ↔ ∃ v, (k, v) ∈ d.entries := by
  rw [keys, List.mem_map]
  constructor
  · rintro ⟨⟨_, v⟩, he, rfl⟩
    exact ⟨v, he⟩
  · rintro ⟨v, he⟩
    exact ⟨(k, v), he, rfl⟩

/-- A key has one value. -/
theorem value_unique {d : OrderedDict κ ν} {k : κ} {v w : ν} (hv : (k, v) ∈ d.entries)
    (hw : (k, w) ∈ d.entries) : v = w :=
  congrArg Prod.snd (List.inj_on_of_nodup_map d.nodup_keys hv hw rfl)

@[simp] theorem keys_empty : (empty : OrderedDict κ ν).keys = [] := rfl

/-- The entries that are left without the oldest ones. -/
def drop (d : OrderedDict κ ν) (n : Nat) : OrderedDict κ ν :=
  ⟨d.entries.drop n, ((List.drop_sublist n _).map _).nodup d.nodup_keys⟩

@[simp] theorem entries_drop (d : OrderedDict κ ν) (n : Nat) :
    (d.drop n).entries = d.entries.drop n := rfl

theorem keys_drop (d : OrderedDict κ ν) (n : Nat) : (d.drop n).keys = d.keys.drop n :=
  List.map_drop

theorem drop_drop (d : OrderedDict κ ν) (m n : Nat) : (d.drop m).drop n = d.drop (m + n) :=
  ext List.drop_drop

/-- The sum of the weights of the values. -/
def total (weight : ν → Nat) (d : OrderedDict κ ν) : Nat := (d.entries.map fun e ↦ weight e.2).sum

theorem total_drop_le (weight : ν → Nat) (d : OrderedDict κ ν) (n : Nat) :
    (d.drop n).total weight ≤ d.total weight := by
  have hsplit := congrArg List.sum (congrArg (List.map fun e ↦ weight e.2)
    (List.take_append_drop n d.entries))
  rw [List.map_append, List.sum_append] at hsplit
  rw [total, total, entries_drop]
  omega

variable [DecidableEq κ]

/-- The value of a key. -/
def get? (d : OrderedDict κ ν) (k : κ) : Option ν :=
  (d.entries.find? fun e ↦ e.1 = k).map Prod.snd

/-- Store a value: in place when the key is there, at the end when it is not. -/
def set (d : OrderedDict κ ν) (k : κ) (v : ν) : OrderedDict κ ν :=
  if h : k ∈ d.keys then
    ⟨d.entries.map fun e ↦ if e.1 = k then (k, v) else e, by
      have hmap : (d.entries.map fun e ↦ if e.1 = k then (k, v) else e).map Prod.fst = d.keys := by
        rw [List.map_map, keys]
        apply List.map_congr_left
        intro e _
        simp only [Function.comp]
        split
        · next he => exact he.symm
        · rfl
      rw [hmap]
      exact d.nodup⟩
  else
    ⟨d.entries ++ [(k, v)], by
      rw [List.map_append, List.nodup_append]
      refine ⟨d.nodup, List.nodup_singleton _, ?_⟩
      rintro a ha b hb rfl
      rw [List.mem_singleton.mp hb] at ha
      exact h ha⟩

/-- Remove a key. -/
def erase (d : OrderedDict κ ν) (k : κ) : OrderedDict κ ν :=
  ⟨d.entries.filter fun e ↦ e.1 ≠ k, (List.filter_sublist.map _).nodup d.nodup_keys⟩

theorem mem_entries_iff {d : OrderedDict κ ν} {k : κ} {v : ν} :
    (k, v) ∈ d.entries ↔ d.get? k = some v := by
  rw [get?, Option.map_eq_some_iff]
  constructor
  · intro h
    cases hf : d.entries.find? fun e ↦ e.1 = k with
    | none =>
      have hne := List.find?_eq_none.mp hf (k, v) h
      simp at hne
    | some e =>
      have he := List.mem_of_find?_eq_some hf
      have hk := List.find?_some hf
      rw [decide_eq_true_eq] at hk
      obtain ⟨a, w⟩ := e
      cases hk
      exact ⟨_, rfl, value_unique he h⟩
  · rintro ⟨e, hf, rfl⟩
    have he := List.mem_of_find?_eq_some hf
    have hk := List.find?_some hf
    rw [decide_eq_true_eq] at hk
    cases hk
    exact he

theorem mem_keys_iff {d : OrderedDict κ ν} {k : κ} : k ∈ d.keys ↔ ∃ v, d.get? k = some v := by
  simp only [mem_keys, mem_entries_iff]

theorem get?_eq_none {d : OrderedDict κ ν} {k : κ} : d.get? k = none ↔ k ∉ d.keys := by
  rw [mem_keys_iff]
  cases d.get? k with
  | none => simp
  | some v => simp

@[simp] theorem get?_empty (k : κ) : (empty : OrderedDict κ ν).get? k = none := rfl

/-- Keys in the same order and the same values make the same dictionary. -/
theorem ext_get? {d d' : OrderedDict κ ν} (hk : d.keys = d'.keys) (hg : ∀ k, d.get? k = d'.get? k) :
    d = d' := by
  have hentries : ∀ {d : OrderedDict κ ν}, d.entries = d.keys.filterMap fun k ↦
      (d.get? k).map fun v ↦ (k, v) := by
    intro d
    rw [keys, List.filterMap_map, List.filterMap_congr (g := some), List.filterMap_some]
    intro e he
    simp only [Function.comp, mem_entries_iff.mp (show (e.1, e.2) ∈ d.entries from he)]
    rfl
  apply ext
  rw [hentries, hentries (d := d'), hk]
  simp only [hg]

/-! ### Storing and removing -/

theorem get?_set (d : OrderedDict κ ν) (k a : κ) (v : ν) :
    (d.set k v).get? a = if a = k then some v else d.get? a := by
  apply Option.ext
  intro w
  rw [← mem_entries_iff, set]
  by_cases hk : k ∈ d.keys
  · obtain ⟨u, hu⟩ := mem_keys.mp hk
    rw [dif_pos hk, List.mem_map]
    constructor
    · rintro ⟨e, he, hw⟩
      split at hw
      · cases hw
        rw [if_pos rfl]
      · next hne =>
        obtain rfl : e = (a, w) := hw
        rw [if_neg hne]
        exact mem_entries_iff.mp he
    · intro hw
      split at hw
      · next ha =>
        cases ha
        cases hw
        exact ⟨_, hu, if_pos rfl⟩
      · next ha =>
        exact ⟨_, mem_entries_iff.mpr hw, if_neg ha⟩
  · rw [dif_neg hk, List.mem_append, List.mem_singleton, mem_entries_iff]
    by_cases ha : a = k
    · rw [ha, get?_eq_none.mpr hk, if_pos rfl]
      simp [eq_comm]
    · simp [ha]

theorem keys_set (d : OrderedDict κ ν) (k : κ) (v : ν) :
    (d.set k v).keys = if k ∈ d.keys then d.keys else d.keys ++ [k] := by
  rw [set]
  split
  · rw [keys, keys, List.map_map]
    apply List.map_congr_left
    intro e _
    simp only [Function.comp]
    split
    · next he => exact he.symm
    · rfl
  · rw [keys, List.map_append]
    rfl

theorem get?_erase (d : OrderedDict κ ν) (k a : κ) :
    (d.erase k).get? a = if a = k then none else d.get? a := by
  apply Option.ext
  intro w
  rw [← mem_entries_iff, erase, List.mem_filter, mem_entries_iff, decide_eq_true_eq]
  by_cases ha : a = k
  · simp [ha]
  · simp [ha]

/-- The entries that meet a condition. -/
def filter (d : OrderedDict κ ν) (p : κ × ν → Bool) : OrderedDict κ ν :=
  ⟨d.entries.filter p, (List.filter_sublist.map _).nodup d.nodup_keys⟩

theorem get?_filter (d : OrderedDict κ ν) (p : κ × ν → Bool) (k : κ) :
    (d.filter p).get? k = (d.get? k).filter fun v ↦ p (k, v) := by
  apply Option.ext
  intro v
  rw [← mem_entries_iff, filter, List.mem_filter, mem_entries_iff, Option.filter_eq_some_iff]

theorem keys_erase (d : OrderedDict κ ν) (k : κ) : (d.erase k).keys = d.keys.erase k := by
  rw [d.nodup.erase_eq_filter, erase, keys, keys, List.filter_map]
  congr 1
  apply List.filter_congr
  intro e _
  simp [bne, Bool.beq_eq_decide_eq]

theorem erase_of_notMem {d : OrderedDict κ ν} {k : κ} (h : k ∉ d.keys) : d.erase k = d := by
  apply ext_get?
  · rw [keys_erase, List.erase_of_not_mem h]
  · intro a
    rw [get?_erase]
    split
    · next ha => rw [ha, get?_eq_none.mpr h]
    · rfl

/-- A value stored under a key that was removed goes to the end. -/
theorem entries_set_of_notMem {d : OrderedDict κ ν} {k : κ} (h : k ∉ d.keys) (v : ν) :
    (d.set k v).entries = d.entries ++ [(k, v)] := by
  rw [set, dif_neg h]

/-! ### Moving to the end -/

/-- Move a key to the end, with a new value. -/
def refresh (d : OrderedDict κ ν) (k : κ) (v : ν) : OrderedDict κ ν := (d.erase k).set k v

theorem notMem_erase (d : OrderedDict κ ν) (k : κ) : k ∉ (d.erase k).keys := by
  rw [keys_erase]
  exact d.nodup.not_mem_erase

theorem entries_refresh (d : OrderedDict κ ν) (k : κ) (v : ν) :
    (d.refresh k v).entries = (d.erase k).entries ++ [(k, v)] :=
  entries_set_of_notMem (d.notMem_erase k) v

theorem keys_refresh (d : OrderedDict κ ν) (k : κ) (v : ν) :
    (d.refresh k v).keys = d.keys.erase k ++ [k] := by
  rw [refresh, keys_set, if_neg (d.notMem_erase k), keys_erase]

theorem get?_refresh (d : OrderedDict κ ν) (k a : κ) (v : ν) :
    (d.refresh k v).get? a = if a = k then some v else d.get? a := by
  rw [refresh, get?_set, get?_erase]
  split
  · rfl
  · rfl

theorem erase_refresh (d : OrderedDict κ ν) (k : κ) (v : ν) :
    (d.refresh k v).erase k = d.erase k := by
  apply ext_get?
  · rw [keys_erase, keys_refresh, keys_erase, List.erase_append_right _ d.nodup.not_mem_erase,
      List.erase_cons_head, List.append_nil]
  · intro a
    rw [get?_erase, get?_refresh, get?_erase]
    split
    · rfl
    · rfl

/-- Move a key to the end, if it is there. -/
def moveToEnd (d : OrderedDict κ ν) (k : κ) : Option (OrderedDict κ ν) :=
  (d.get? k).map (d.refresh k)

/-! ### Dropping the oldest entries -/

/-- Removing the first key drops the first entry. -/
theorem erase_head {d : OrderedDict κ ν} {k : κ} {v : ν} {es : List (κ × ν)}
    (h : d.entries = (k, v) :: es) : d.erase k = d.drop 1 := by
  have hnodup := d.nodup_keys
  rw [h, List.map_cons, List.nodup_cons] at hnodup
  apply ext
  change d.entries.filter (fun e ↦ decide (e.1 ≠ k)) = d.entries.drop 1
  rw [h, List.filter_cons_of_neg (by simp), List.drop_one, List.tail_cons, List.filter_eq_self]
  intro e he
  rw [decide_eq_true_eq]
  intro hk
  exact hnodup.1 (List.mem_map.mpr ⟨e, he, hk⟩)

/-! ### Weights -/

section Total

variable {weight : ν → Nat}

/-- A key carries its part of the weight. -/
theorem total_erase (weight : ν → Nat) {d : OrderedDict κ ν} {k : κ} {v : ν}
    (h : d.get? k = some v) :
    (d.erase k).total weight + weight v = d.total weight := by
  have hloop : ∀ es : List (κ × ν), (es.map Prod.fst).Nodup → (k, v) ∈ es →
      ((es.filter fun e ↦ e.1 ≠ k).map fun e ↦ weight e.2).sum + weight v =
        (es.map fun e ↦ weight e.2).sum := by
    intro es
    induction es with
    | nil =>
      intro _ hm
      cases hm
    | cons e es ih =>
      intro hnodup hm
      rw [List.map_cons, List.nodup_cons] at hnodup
      rcases List.mem_cons.mp hm with rfl | hm
      · have hrest : (es.filter fun e ↦ e.1 ≠ k) = es := by
          rw [List.filter_eq_self]
          intro e he
          rw [decide_eq_true_eq]
          intro hk
          exact hnodup.1 (List.mem_map.mpr ⟨e, he, hk⟩)
        rw [List.filter_cons_of_neg (by simp), hrest, List.map_cons, List.sum_cons, Nat.add_comm]
      · have hk : e.1 ≠ k := by
          intro hk
          exact hnodup.1 (List.mem_map.mpr ⟨(k, v), hm, hk.symm⟩)
        rw [List.filter_cons_of_pos (by simpa using hk), List.map_cons, List.sum_cons,
          List.map_cons, List.sum_cons, Nat.add_assoc, ih hnodup.2 hm]
  exact hloop d.entries d.nodup_keys (mem_entries_iff.mpr h)

theorem total_erase_le (weight : ν → Nat) (d : OrderedDict κ ν) (k : κ) :
    (d.erase k).total weight ≤ d.total weight := by
  cases h : d.get? k with
  | none =>
    have hsame := erase_of_notMem (get?_eq_none.mp h)
    exact Nat.le_of_eq (congrArg (total weight) hsame)
  | some v =>
    have := total_erase weight h
    omega

theorem total_refresh (d : OrderedDict κ ν) (k : κ) (v : ν) :
    (d.refresh k v).total weight = (d.erase k).total weight + weight v := by
  rw [total, entries_refresh, List.map_append, List.sum_append]
  rfl

end Total

end OrderedDict
end ElectrumX.Base
