import Mathlib.Data.List.AList

/-!
# Inverted indexes

A dictionary from keys to sets of items, each set a list without duplicates, in which a key
without items is absent. An item is filed under several keys at once and withdrawn from them.
-/

namespace ElectrumX.Base

/-- A finite map. -/
abbrev Dict (κ α : Type) := AList fun _ : κ ↦ α

/-- The items filed under each key. -/
abbrev InvertedIndex (κ ι : Type) := Dict κ (List ι)

namespace InvertedIndex

variable {κ ι : Type} [DecidableEq κ] [DecidableEq ι]

/-- The items under a key, none if it is absent. -/
def items (x : InvertedIndex κ ι) (k : κ) : List ι := (x.lookup k).getD []

/-- File an item under a key. -/
def add (x : InvertedIndex κ ι) (i : ι) (k : κ) : InvertedIndex κ ι :=
  x.insert k ((x.items k).insert i)

/-- File an item under some keys. -/
def addAll (x : InvertedIndex κ ι) (i : ι) (ks : List κ) : InvertedIndex κ ι :=
  ks.foldl (fun x k ↦ x.add i k) x

/-- Withdraw an item that is filed under a key, and the key with its last item. -/
def remove (x : InvertedIndex κ ι) (i : ι) (k : κ) : Option (InvertedIndex κ ι) :=
  if i ∈ x.items k then
    some (if (x.items k).erase i = [] then x.erase k else x.insert k ((x.items k).erase i))
  else none

/-- Withdraw an item from some keys under each of which it is filed. -/
def removeAll (x : InvertedIndex κ ι) (i : ι) (ks : List κ) : Option (InvertedIndex κ ι) :=
  ks.foldlM (fun x k ↦ x.remove i k) x

/-- The index holds exactly the pairs of a relation. -/
structure Mirrors (x : InvertedIndex κ ι) (R : κ → ι → Prop) : Prop where
  mem : ∀ k i, i ∈ x.items k ↔ R k i
  ne_nil : ∀ k is, x.lookup k = some is → is ≠ []
  nodup : ∀ k, (x.items k).Nodup

variable {x : InvertedIndex κ ι} {R S : κ → ι → Prop}

theorem items_add (x : InvertedIndex κ ι) (i : ι) (k l : κ) :
    (x.add i k).items l = if l = k then (x.items k).insert i else x.items l := by
  by_cases h : l = k
  · subst h
    rw [if_pos rfl, items, add, AList.lookup_insert, Option.getD_some]
  · rw [if_neg h, items, add, AList.lookup_insert_ne h, items]

/-- Filing an item under some keys adds it to what is under these. -/
theorem mem_items_addAll (x : InvertedIndex κ ι) (i : ι) (ks : List κ) (k : κ) (j : ι) :
    j ∈ (x.addAll i ks).items k ↔ j ∈ x.items k ∨ k ∈ ks ∧ j = i := by
  induction ks generalizing x with
  | nil => simp [addAll]
  | cons l ks ih =>
    have hcons : x.addAll i (l :: ks) = (x.add i l).addAll i ks := rfl
    rw [hcons, ih, items_add]
    split
    · next he =>
      subst he
      rw [List.mem_insert_iff, List.mem_cons]
      tauto
    · next he =>
      rw [List.mem_cons]
      tauto

/-- Withdrawing an item from some keys leaves what is under the others. -/
theorem items_removeAll {x' : InvertedIndex κ ι} {i : ι} {ks : List κ}
    (h : x.removeAll i ks = some x') {k : κ} (hk : k ∉ ks) : x'.items k = x.items k := by
  induction ks generalizing x with
  | nil =>
    cases h
    rfl
  | cons l ks ih =>
    rw [removeAll, List.foldlM_cons] at h
    obtain ⟨x1, h1, h2⟩ := Option.bind_eq_some_iff.mp h
    rw [List.mem_cons, not_or] at hk
    rw [ih h2 hk.2]
    rw [remove] at h1
    split at h1
    · cases h1
      split
      · rw [items, AList.lookup_erase_ne hk.1, items]
      · rw [items, AList.lookup_insert_ne hk.1, items]
    · cases h1

namespace Mirrors

omit [DecidableEq ι] in
theorem empty : (∅ : InvertedIndex κ ι).Mirrors fun _ _ ↦ False where
  mem k i := by simp [items]
  ne_nil k is h := by simp at h
  nodup k := by simp [items]

omit [DecidableEq ι] in
theorem congr (h : x.Mirrors R) (hRS : ∀ k i, R k i ↔ S k i) : x.Mirrors S where
  mem k i := (h.mem k i).trans (hRS k i)
  ne_nil := h.ne_nil
  nodup := h.nodup

theorem add (h : x.Mirrors R) (i : ι) (k : κ) :
    (x.add i k).Mirrors fun l j ↦ R l j ∨ l = k ∧ j = i where
  mem l j := by
    rw [items_add, ← h.mem l j]
    split
    · next he =>
      subst he
      rw [List.mem_insert_iff]
      tauto
    · tauto
  ne_nil l is hl := by
    by_cases he : l = k
    · subst he
      rw [InvertedIndex.add, AList.lookup_insert, Option.some_inj] at hl
      rw [← hl]
      exact List.ne_nil_of_mem List.mem_insert_self
    · rw [InvertedIndex.add, AList.lookup_insert_ne he] at hl
      exact h.ne_nil l is hl
  nodup l := by
    rw [items_add]
    split
    · exact (h.nodup k).insert
    · exact h.nodup l

theorem addAll (h : x.Mirrors R) (i : ι) (ks : List κ) :
    (x.addAll i ks).Mirrors fun l j ↦ R l j ∨ l ∈ ks ∧ j = i := by
  induction ks generalizing x R with
  | nil => exact h.congr fun l j ↦ by simp
  | cons k ks ih =>
    refine (ih (h.add i k)).congr fun l j ↦ ?_
    rw [List.mem_cons]
    tauto

/-- An item that is filed under a key can be withdrawn from it. -/
theorem remove (h : x.Mirrors R) {i : ι} {k : κ} (hk : R k i) : ∃ x', x.remove i k = some x' ∧
    x'.Mirrors fun l j ↦ R l j ∧ ¬ (l = k ∧ j = i) := by
  refine ⟨_, if_pos ((h.mem k i).mpr hk), ?_⟩
  have herase (j : ι) : j ∈ (x.items k).erase i ↔ R k j ∧ j ≠ i := by
    rw [(h.nodup k).mem_erase_iff, h.mem]
    tauto
  split
  · next hnil =>
    have hnone (j : ι) : ¬ (R k j ∧ j ≠ i) := by
      rw [← herase j, hnil]
      exact List.not_mem_nil
    have hitems (l : κ) : items (x.erase k) l = if l = k then [] else x.items l := by
      by_cases he : l = k
      · subst he
        simp [items]
      · simp [items, AList.lookup_erase_ne he, he]
    refine ⟨fun l j ↦ ?_, fun l is hl ↦ ?_, fun l ↦ ?_⟩
    · rw [hitems]
      split
      · next he =>
        subst he
        have := hnone j
        simp only [List.not_mem_nil, true_and, false_iff]
        tauto
      · rw [h.mem]
        tauto
    · by_cases he : l = k
      · subst he
        simp at hl
      · rw [AList.lookup_erase_ne he] at hl
        exact h.ne_nil l is hl
    · rw [hitems]
      split
      · exact List.nodup_nil
      · exact h.nodup l
  · next hne =>
    have hitems (l : κ) : items (x.insert k ((x.items k).erase i)) l =
        if l = k then (x.items k).erase i else x.items l := by
      by_cases he : l = k
      · subst he
        simp [items]
      · simp [items, AList.lookup_insert_ne he, he]
    refine ⟨fun l j ↦ ?_, fun l is hl ↦ ?_, fun l ↦ ?_⟩
    · rw [hitems]
      split
      · next he =>
        subst he
        rw [herase]
        tauto
      · rw [h.mem]
        tauto
    · by_cases he : l = k
      · subst he
        rw [AList.lookup_insert, Option.some_inj] at hl
        exact hl ▸ hne
      · rw [AList.lookup_insert_ne he] at hl
        exact h.ne_nil l is hl
    · rw [hitems]
      split
      · exact (h.nodup k).erase i
      · exact h.nodup l

/-- An item that is filed under some keys can be withdrawn from them all. -/
theorem removeAll (h : x.Mirrors R) {i : ι} {ks : List κ} (hks : ks.Nodup)
    (hR : ∀ k ∈ ks, R k i) : ∃ x', x.removeAll i ks = some x' ∧
      x'.Mirrors fun l j ↦ R l j ∧ ¬ (l ∈ ks ∧ j = i) := by
  induction ks generalizing x R with
  | nil => exact ⟨x, rfl, h.congr fun l j ↦ by simp⟩
  | cons k ks ih =>
    obtain ⟨hk, hks⟩ := List.nodup_cons.mp hks
    obtain ⟨x1, hx1, h1⟩ := h.remove (hR k List.mem_cons_self)
    obtain ⟨x2, hx2, h2⟩ := ih h1 hks fun l hl ↦
      ⟨hR l (List.mem_cons_of_mem _ hl), fun he ↦ hk (he.1 ▸ hl)⟩
    refine ⟨x2, ?_, h2.congr fun l j ↦ ?_⟩
    · rw [InvertedIndex.removeAll, List.foldlM_cons, hx1]
      exact hx2
    · rw [List.mem_cons]
      tauto

end Mirrors
end InvertedIndex
end ElectrumX.Base
