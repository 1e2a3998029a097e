import ElectrumX.Base.OrderedDict
import Mathlib.Data.List.Dedup
import Mathlib.Data.List.DropRight

/-!
# Bounded recency lists

A recency list keeps entries from the least to the most recently used one, up to a budget on their
total weight. Storing drops the entries that were least recently used until the new one fits.
-/

namespace ElectrumX.Base

variable {κ ν : Type}

/-- How many of the first entries must go for the others to fit. -/
def excess (weight : ν → Nat) (room : Nat) : List (κ × ν) → Nat
  | [] => 0
  | e :: es =>
    if ((e :: es).map fun e ↦ weight e.2).sum ≤ room then 0 else excess weight room es + 1

/-- The entries from the least to the most recently used one, within the budget. -/
structure Recency (κ ν : Type) (weight : ν → Nat) (budget : Nat) where
  dict : OrderedDict κ ν
  le_budget : dict.total weight ≤ budget

theorem total_drop_excess (weight : ν → Nat) (room : Nat) (d : OrderedDict κ ν) :
    (d.drop (excess weight room d.entries)).total weight ≤ room := by
  rw [OrderedDict.total, OrderedDict.entries_drop]
  induction d.entries with
  | nil => exact Nat.zero_le _
  | cons e es ih =>
    rw [excess]
    split
    · next h => exact h
    · exact ih

/-- Entries that fit stay. -/
theorem excess_eq_zero {weight : ν → Nat} {room : Nat} {es : List (κ × ν)}
    (h : (es.map fun e ↦ weight e.2).sum ≤ room) : excess weight room es = 0 := by
  cases es with
  | nil => rfl
  | cons e es => rw [excess, if_pos h]

/-- Entries of weight one. -/
theorem excess_one (room : Nat) (es : List (κ × ν)) :
    excess (fun _ ↦ 1) room es = es.length - room := by
  induction es with
  | nil => simp [excess]
  | cons e es ih =>
    have hsum : ((e :: es).map fun _ ↦ 1).sum = es.length + 1 := by
      simp [Nat.add_comm]
    rw [excess, hsum, ih, List.length_cons]
    split
    · omega
    · omega

namespace Recency

variable {weight : ν → Nat} {budget : Nat}

def empty : Recency κ ν weight budget := ⟨.empty, Nat.zero_le _⟩

@[ext] theorem ext {r r' : Recency κ ν weight budget} (h : r.dict = r'.dict) : r = r' := by
  cases r
  cases r'
  cases h
  rfl

/-- Drop the least recently used entries, as few as leaves the others in so much room. -/
def makeRoom (r : Recency κ ν weight budget) (room : Nat) : Recency κ ν weight budget :=
  ⟨r.dict.drop (excess weight room r.dict.entries),
    Nat.le_trans (r.dict.total_drop_le weight _) r.le_budget⟩

@[simp] theorem dict_makeRoom (r : Recency κ ν weight budget) (room : Nat) :
    (r.makeRoom room).dict = r.dict.drop (excess weight room r.dict.entries) := rfl

/-- There is nothing to drop when all fits. -/
theorem makeRoom_of_le {r : Recency κ ν weight budget} {room : Nat}
    (h : r.dict.total weight ≤ room) : r.makeRoom room = r := by
  apply ext
  rw [dict_makeRoom, excess_eq_zero h]
  rfl

theorem length_keys_le (r : Recency κ ν (fun _ ↦ 1) budget) : r.dict.keys.length ≤ budget := by
  have h := r.le_budget
  rw [OrderedDict.total, List.map_const', List.sum_replicate_nat, Nat.mul_one] at h
  rw [OrderedDict.keys, List.length_map]
  exact h

variable [DecidableEq κ]

/-- The value of a key, without using it. -/
def find? (r : Recency κ ν weight budget) (k : κ) : Option ν := r.dict.get? k

/-- Use a key: it becomes the most recently used one. -/
def touch (r : Recency κ ν weight budget) (k : κ) : Recency κ ν weight budget :=
  match h : r.dict.get? k with
  | none => r
  | some v => ⟨r.dict.refresh k v, by
    rw [OrderedDict.total_refresh, OrderedDict.total_erase weight h]
    exact r.le_budget⟩

def remove (r : Recency κ ν weight budget) (k : κ) : Recency κ ν weight budget :=
  ⟨r.dict.erase k, Nat.le_trans (r.dict.total_erase_le weight k) r.le_budget⟩

/-- What stays when a value is to be stored: all, when it replaces one that weighs no less, and
else what leaves room for the value beside all the rest. -/
def kept (r : Recency κ ν weight budget) (k : κ) (v : ν) : Recency κ ν weight budget :=
  if ∃ u ∈ r.dict.get? k, weight v ≤ weight u then r else r.makeRoom (budget - weight v)

/-- Store a value, as the most recently used one. -/
def store (r : Recency κ ν weight budget) (k : κ) (v : ν) (h : weight v ≤ budget) :
    Recency κ ν weight budget :=
  ⟨(r.kept k v).dict.refresh k v, by
    rw [OrderedDict.total_refresh, kept]
    split
    · next hu =>
      obtain ⟨u, hu, hle⟩ := hu
      have htotal := OrderedDict.total_erase weight hu
      have := r.le_budget
      omega
    · have hroom := total_drop_excess weight (budget - weight v) r.dict
      have herase := OrderedDict.total_erase_le weight (r.makeRoom (budget - weight v)).dict k
      have := Nat.le_trans herase hroom
      omega⟩

@[simp] theorem dict_remove (r : Recency κ ν weight budget) (k : κ) :
    (r.remove k).dict = r.dict.erase k := rfl

theorem dict_touch {r : Recency κ ν weight budget} {k : κ} {v : ν} (h : r.find? k = some v) :
    (r.touch k).dict = r.dict.refresh k v := by
  rw [touch]
  split
  · next hn => cases hn.symm.trans h
  · next w hw =>
    cases hw.symm.trans h
    rfl

theorem touch_of_none {r : Recency κ ν weight budget} {k : κ} (h : r.find? k = none) :
    r.touch k = r := by
  rw [touch]
  split
  · rfl
  · next v hv => cases hv.symm.trans h

@[simp] theorem find?_empty (k : κ) : (empty : Recency κ ν weight budget).find? k = none := rfl

@[simp] theorem find?_touch (r : Recency κ ν weight budget) (k a : κ) :
    (r.touch k).find? a = r.find? a := by
  rw [touch]
  split
  · rfl
  · next v h =>
    simp only [find?, OrderedDict.get?_refresh]
    split
    · next ha => rw [ha, h]
    · rfl

theorem find?_remove (r : Recency κ ν weight budget) (k a : κ) :
    (r.remove k).find? a = if a = k then none else r.find? a := r.dict.get?_erase k a

/-- What is found after a store was stored now, or was there before. -/
theorem find?_store {r : Recency κ ν weight budget} {k a : κ} {v w : ν} {h : weight v ≤ budget}
    (hw : (r.store k v h).find? a = some w) :
    (a = k ∧ w = v) ∨ (a ≠ k ∧ r.find? a = some w) := by
  rw [find?, store, OrderedDict.get?_refresh] at hw
  split at hw
  · next ha =>
    cases hw
    exact .inl ⟨ha, rfl⟩
  · next ha =>
    refine .inr ⟨ha, ?_⟩
    rw [kept] at hw
    split at hw
    · exact hw
    · exact OrderedDict.mem_entries_iff.mp
        (List.mem_of_mem_drop (OrderedDict.mem_entries_iff.mpr hw))

/-- A store evicts nothing as long as all keys are among so few that each has room. -/
theorem find?_store_of_subset {r : Recency κ ν (fun _ ↦ 1) budget} {keys : List κ} {k : κ} {v : ν}
    (hlen : keys.length ≤ budget) (hk : k ∈ keys) (hkeys : ∀ a ∈ r.dict.keys, a ∈ keys)
    {h : (fun _ ↦ 1) v ≤ budget} (a : κ) :
    (r.store k v h).find? a = if a = k then some v else r.find? a := by
  have hkept : r.kept k v = r := by
    rw [kept]
    split
    · rfl
    · next hnew =>
      apply makeRoom_of_le
      have hnot : k ∉ r.dict.keys := fun hmem ↦ by
        obtain ⟨u, hu⟩ := OrderedDict.mem_keys_iff.mp hmem
        exact hnew ⟨u, hu, Nat.le_refl 1⟩
      have hsub : k :: r.dict.keys ⊆ keys := List.cons_subset.mpr ⟨hk, hkeys⟩
      have hcount := (List.subperm_of_subset
        (List.nodup_cons.mpr ⟨hnot, r.dict.nodup⟩) hsub).length_le
      rw [List.length_cons, OrderedDict.keys, List.length_map] at hcount
      rw [OrderedDict.total, List.map_const', List.sum_replicate_nat, Nat.mul_one]
      omega
  rw [find?, store, OrderedDict.get?_refresh, hkept]
  rfl

/-- Removing forgets that the key was used. -/
@[simp] theorem remove_touch (r : Recency κ ν weight budget) (k : κ) :
    (r.touch k).remove k = r.remove k := by
  rw [touch]
  split
  · rfl
  · next v h => exact ext (OrderedDict.erase_refresh _ _ _)

/-- Making room removes the least recently used key and goes on, as long as the rest does not
fit. -/
theorem makeRoom_remove {r : Recency κ ν weight budget} {k : κ} {v : ν} {es : List (κ × ν)}
    {room : Nat} (h : r.dict.entries = (k, v) :: es) (hroom : ¬r.dict.total weight ≤ room) :
    (r.remove k).makeRoom room = r.makeRoom room := by
  have hdrop := OrderedDict.erase_head h
  have hes : (r.dict.drop 1).entries = es := by
    rw [OrderedDict.entries_drop, h, List.drop_one, List.tail_cons]
  apply ext
  rw [OrderedDict.total, h] at hroom
  rw [dict_makeRoom, dict_makeRoom, dict_remove, hdrop, hes, h, excess, if_neg hroom,
    OrderedDict.drop_drop, Nat.add_comm]

end Recency

/-! ### The keys in the order of their last use -/

section Uses

theorem rtake_append_of_le (xs : List κ) {ys : List κ} {n : Nat} (h : n ≤ ys.length) :
    (xs ++ ys).rtake n = ys.rtake n := by
  rw [List.rtake, List.rtake, List.length_append, Nat.add_sub_assoc h, List.drop_length_add_append]

variable [DecidableEq κ]

/-- Using a key once more moves it to the end of the distinct keys used. -/
theorem dedup_concat (ks : List κ) (k : κ) : (ks ++ [k]).dedup = ks.dedup.erase k ++ [k] := by
  induction ks with
  | nil => simp
  | cons a ks ih =>
    by_cases hk : a = k
    · subst hk
      rw [List.cons_append, List.dedup_cons_of_mem (by simp), ih]
      by_cases ha : a ∈ ks
      · rw [List.dedup_cons_of_mem ha]
      · rw [List.dedup_cons_of_notMem ha, List.erase_cons_head,
          List.erase_of_not_mem (by rwa [List.mem_dedup])]
    · by_cases ha : a ∈ ks
      · rw [List.cons_append, List.dedup_cons_of_mem (by simp [ha]), ih, List.dedup_cons_of_mem ha]
      · rw [List.cons_append, List.dedup_cons_of_notMem (by simp [ha, hk]), ih,
          List.dedup_cons_of_notMem ha, List.erase_cons_tail (by simpa using hk), List.cons_append]

/-- Of the keys used, only the last ones matter for the last ones after one more use. -/
theorem rtake_use {ks : List κ} (h : ks.Nodup) (n : Nat) (k : κ) :
    ((ks.rtake n).erase k ++ [k]).rtake n = (ks.erase k ++ [k]).rtake n := by
  obtain ⟨old, recent, rfl, hrecent, hold⟩ : ∃ old recent, ks = old ++ recent ∧
      recent = ks.rtake n ∧ (old ≠ [] → recent.length = n) := by
    refine ⟨ks.take (ks.length - n), ks.rtake n, (List.take_append_drop _ _).symm, rfl, ?_⟩
    intro hne
    have hpos := List.length_pos_iff.mpr hne
    rw [List.length_take] at hpos
    rw [List.rtake, List.length_drop]
    omega
  rw [← hrecent]
  by_cases hk : k ∈ old
  · have hlen := hold (List.ne_nil_of_mem hk)
    have hn : k ∉ recent := fun hr ↦ List.disjoint_of_nodup_append h hk hr
    rw [List.erase_append_left _ hk, List.erase_of_not_mem hn, List.append_assoc,
      rtake_append_of_le (old.erase k)]
    rw [List.length_append, hlen]
    exact Nat.le_add_right _ _
  · rw [List.erase_append_right _ hk, List.append_assoc]
    by_cases hne : old = []
    · rw [hne, List.nil_append]
    · rw [rtake_append_of_le old]
      rw [List.length_append, List.length_singleton, ← hold hne]
      have := List.le_length_erase (l := recent) (a := k)
      omega

namespace Recency

variable {budget : Nat}

theorem keys_touch_one {r : Recency κ ν (fun _ ↦ 1) budget} {k : κ} {v : ν}
    (h : r.find? k = some v) :
    (r.touch k).dict.keys = (r.dict.keys.erase k ++ [k]).rtake budget := by
  have hkeys : (r.touch k).dict.keys = r.dict.keys.erase k ++ [k] := by
    rw [dict_touch h, OrderedDict.keys_refresh]
  have hle := length_keys_le (r.touch k)
  rw [hkeys] at hle
  rw [hkeys, List.rtake, Nat.sub_eq_zero_of_le hle, List.drop_zero]

/-- With all entries of one weight, a store keeps the keys that were used last. -/
theorem keys_store_one (r : Recency κ ν (fun _ ↦ 1) budget) (k : κ) (v : ν) (h : 1 ≤ budget) :
    (r.store k v h).dict.keys = (r.dict.keys.erase k ++ [k]).rtake budget := by
  rw [store, OrderedDict.keys_refresh, kept]
  cases hv : r.find? k with
  | some u =>
    have hle := length_keys_le (r.touch k)
    rw [dict_touch hv, OrderedDict.keys_refresh] at hle
    rw [if_pos ⟨u, hv, le_rfl⟩, List.rtake, Nat.sub_eq_zero_of_le hle, List.drop_zero]
  | none =>
    have hk : k ∉ r.dict.keys := OrderedDict.get?_eq_none.mp hv
    have hdrop : k ∉ (r.makeRoom (budget - 1)).dict.keys := by
      rw [dict_makeRoom, OrderedDict.keys_drop]
      exact fun hm ↦ hk (List.mem_of_mem_drop hm)
    have hlen : r.dict.entries.length = r.dict.keys.length := (List.length_map _).symm
    rw [if_neg]
    · rw [List.erase_of_not_mem hdrop, List.erase_of_not_mem hk, dict_makeRoom,
        OrderedDict.keys_drop, excess_one, hlen, List.rtake, List.length_append,
        List.length_singleton, List.drop_append_of_le_length (by omega)]
      congr 2
      omega
    · rintro ⟨u, hu, -⟩
      cases hu.symm.trans hv

end Recency
end Uses
end ElectrumX.Base
