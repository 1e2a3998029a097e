import ElectrumX.Base.Bytes
import Std.Data.ExtTreeMap.Lemmas
import Mathlib.Data.List.Perm.Basic

/-!
# Ordered byte tables with atomic write batches

A key-value store maps byte keys to byte values and iterates in key order. A write
batch is a list of puts and deletes that is applied in order and at once. When every
key under a prefix ends in a big-endian counter of one width, iterating the prefix
visits the counters in numeric order.
-/

namespace ElectrumX.Base

/-- An ordered store of byte values under byte keys. -/
abbrev Table := Std.ExtTreeMap Bytes Bytes

/-- One operation of a write batch. -/
inductive BatchOp where
  | put (key value : Bytes)
  | delete (key : Bytes)
  deriving DecidableEq, Repr

/-- The key that an operation changes. -/
def BatchOp.key : BatchOp → Bytes
  | .put key _ => key
  | .delete key => key

namespace Table

/-- The effect of one batch operation. -/
def apply (t : Table) : BatchOp → Table
  | .put key value => t.insert key value
  | .delete key => t.erase key

/-- Commit a write batch, its operations in order. -/
def write (t : Table) (ops : List BatchOp) : Table := ops.foldl apply t

/-- The pairs whose key starts with the prefix, sorted by key. -/
def iterator (t : Table) (pre : Bytes) : List (Bytes × Bytes) :=
  t.toList.filter fun e ↦ pre.isPrefixOf e.1

/-- Lookup after an insertion. -/
theorem getElem?_insert (t : Table) (k v a : Bytes) :
    (t.insert k v)[a]? = if k = a then some v else t[a]? := by
  simp [Std.ExtTreeMap.getElem?_insert]

/-- Lookup after an erasure. -/
theorem getElem?_erase (t : Table) (k a : Bytes) :
    (t.erase k)[a]? = if k = a then none else t[a]? := by
  simp [Std.ExtTreeMap.getElem?_erase]

/-! ### Batches -/

/-- An empty batch changes nothing. -/
@[simp] theorem write_nil (t : Table) : t.write [] = t := rfl

/-- The first operation of a batch takes effect first. -/
@[simp] theorem write_cons (t : Table) (op : BatchOp) (ops : List BatchOp) :
    t.write (op :: ops) = write (t.apply op) ops := rfl

/-- Consecutive parts of a batch compose. -/
theorem write_append (t : Table) (ops ops' : List BatchOp) :
    t.write (ops ++ ops') = write (t.write ops) ops' := List.foldl_append

/-- Lookup after one operation. -/
theorem getElem?_apply (t : Table) (op : BatchOp) (a : Bytes) :
    (t.apply op)[a]? = match op with
      | .put k v => if k = a then some v else t[a]?
      | .delete k => if k = a then none else t[a]? := by
  cases op with
  | put k v => exact getElem?_insert t k v a
  | delete k => exact getElem?_erase t k a

/-- Lookup after a single put. -/
@[simp] theorem getElem?_write_put (t : Table) (k v a : Bytes) :
    (t.write [.put k v])[a]? = if k = a then some v else t[a]? := by
  rw [write_cons, write_nil, getElem?_apply]

/-- A batch leaves the keys alone that none of its operations changes. -/
theorem getElem?_write_of_ne {t : Table} {ops : List BatchOp} {a : Bytes}
    (h : ∀ op ∈ ops, op.key ≠ a) : (t.write ops)[a]? = t[a]? := by
  induction ops generalizing t with
  | nil => rfl
  | cons op ops ih =>
    rw [write_cons, ih fun x hx ↦ h x (List.mem_cons_of_mem _ hx), getElem?_apply]
    have hne := h op List.mem_cons_self
    cases op with
    | put k v => exact if_neg hne
    | delete k => exact if_neg hne

/-- Repeating the last put of a batch changes nothing. -/
theorem write_put_again (t : Table) (ops : List BatchOp) (k v : Bytes) :
    write (t.write (ops ++ [.put k v])) [.put k v] = t.write (ops ++ [.put k v]) := by
  apply Std.ExtTreeMap.ext_getElem?
  intro a
  rw [write_append, getElem?_write_put, getElem?_write_put]
  split
  · rfl
  · rfl

/-- What a batch does to a key depends only on what lies there. -/
theorem getElem?_write_congr {t t' : Table} {a : Bytes} (h : t[a]? = t'[a]?)
    (ops : List BatchOp) : (t.write ops)[a]? = (t'.write ops)[a]? := by
  induction ops generalizing t t' with
  | nil => exact h
  | cons op ops ih =>
    rw [write_cons, write_cons]
    apply ih
    rw [getElem?_apply, getElem?_apply, h]

/-- A batch of deletes removes exactly the listed keys. -/
theorem getElem?_write_deletes (t : Table) (ks : List Bytes) (a : Bytes) :
    (t.write (ks.map .delete))[a]? = if a ∈ ks then none else t[a]? := by
  induction ks generalizing t with
  | nil => simp
  | cons k ks ih =>
    rw [List.map_cons, write_cons, ih, getElem?_apply]
    by_cases hm : a ∈ ks
    · simp [hm]
    · by_cases hk : k = a
      · simp [hk]
      · simp [hm, hk, Ne.symm hk]

/-- A batch of puts leaves the other keys alone. -/
theorem getElem?_write_puts_of_notMem (t : Table) (ps : List (Bytes × Bytes)) (a : Bytes)
    (h : ∀ v, (a, v) ∉ ps) : (t.write (ps.map fun p ↦ .put p.1 p.2))[a]? = t[a]? := by
  induction ps generalizing t with
  | nil => rfl
  | cons p ps ih =>
    have hp : p.1 ≠ a := by
      intro hp
      exact h p.2 (by rw [← hp]; exact List.mem_cons_self)
    have hs : ∀ v, (a, v) ∉ ps := fun v hv ↦ h v (List.mem_cons_of_mem _ hv)
    rw [List.map_cons, write_cons, ih _ hs, getElem?_apply]
    simp [hp]

/-- A batch of puts that agree on a key stores their value there. -/
theorem getElem?_write_puts_of_mem (t : Table) (ps : List (Bytes × Bytes)) (a v : Bytes)
    (hm : (a, v) ∈ ps) (hu : ∀ w, (a, w) ∈ ps → w = v) :
    (t.write (ps.map fun p ↦ .put p.1 p.2))[a]? = some v := by
  induction ps generalizing t with
  | nil => simp at hm
  | cons p ps ih =>
    rw [List.map_cons, write_cons]
    by_cases hs : ∃ w, (a, w) ∈ ps
    · obtain ⟨w, hw⟩ := hs
      have hwv := hu w (List.mem_cons_of_mem _ hw)
      subst hwv
      exact ih _ hw fun w' hw' ↦ hu w' (List.mem_cons_of_mem _ hw')
    · have hn : ∀ w, (a, w) ∉ ps := fun w hw ↦ hs ⟨w, hw⟩
      have hp : p = (a, v) := by
        rcases List.mem_cons.mp hm with h | h
        · exact h.symm
        · exact absurd h (hn v)
      rw [getElem?_write_puts_of_notMem _ _ _ hn, getElem?_apply, hp]
      simp

/-! ### Iteration -/

/-- Iteration visits exactly the stored pairs under the prefix. -/
theorem mem_iterator {t : Table} {pre : Bytes} {e : Bytes × Bytes} :
    e ∈ t.iterator pre ↔ t[e.1]? = some e.2 ∧ pre <+: e.1 := by
  rw [iterator, List.mem_filter, List.isPrefixOf_iff_prefix]
  exact and_congr_left fun _ ↦ Std.ExtTreeMap.mem_toList_iff_getElem?_eq_some

/-- Iteration is in strictly increasing key order. -/
theorem iterator_pairwise (t : Table) (pre : Bytes) :
    (t.iterator pre).Pairwise fun a b ↦ compare a.1 b.1 = .lt :=
  t.ordered_keys_toList.filter _

/-- No key comes before itself. -/
theorem compare_irrefl (a : Bytes) : compare a a ≠ .lt := by
  have ha : compare a a = .eq := Std.ReflCmp.compare_self
  rw [ha]
  decide

/-- Lists in strictly increasing key order with the same pairs are equal. -/
theorem eq_of_ordered (xs ys : List (Bytes × Bytes))
    (hx : xs.Pairwise fun a b ↦ compare a.1 b.1 = .lt)
    (hy : ys.Pairwise fun a b ↦ compare a.1 b.1 = .lt)
    (h : ∀ e, e ∈ xs ↔ e ∈ ys) : xs = ys := by
  have nodup (zs : List (Bytes × Bytes)) (hz : zs.Pairwise fun a b ↦ compare a.1 b.1 = .lt) :
      zs.Nodup := by
    apply hz.imp
    rintro a b hab rfl
    exact compare_irrefl a.1 hab
  apply List.Perm.eq_of_pairwise _ hx hy
    ((List.perm_ext_iff_of_nodup (nodup xs hx) (nodup ys hy)).mpr h)
  intro a b _ _ hab hba
  have hgt : compare b.1 a.1 = .gt := Std.OrientedCmp.gt_of_lt hab
  rw [hgt] at hba
  cases hba

/-- Looking a key up among the pairs under a prefix is looking it up in the table. -/
theorem lookup_iterator {t : Table} {pre k v : Bytes} :
    (t.iterator pre).lookup k = some v ↔ t[k]? = some v ∧ pre <+: k := by
  have hlookup : ∀ es : List (Bytes × Bytes),
      es.Pairwise (fun a b ↦ compare a.1 b.1 = .lt) → (es.lookup k = some v ↔ (k, v) ∈ es) := by
    intro es
    induction es with
    | nil => simp
    | cons e es ih =>
      intro h
      rw [List.pairwise_cons] at h
      rw [List.lookup_cons, List.mem_cons]
      by_cases hk : k = e.1
      · have hn : (k, v) ∉ es := by
          intro hm
          have hlt := h.1 _ hm
          rw [← hk] at hlt
          exact compare_irrefl k hlt
        have he : (k, v) = e ↔ e.2 = v := by
          constructor
          · rintro rfl
            rfl
          · rintro rfl
            rw [hk]
        rw [beq_iff_eq.mpr hk, or_iff_left hn, he]
        exact Option.some_inj
      · have he : (k, v) ≠ e := by
          rintro rfl
          exact hk rfl
        rw [beq_eq_false_iff_ne.mpr hk, or_iff_right he]
        exact ih h.2
  rw [hlookup _ (t.iterator_pairwise pre), mem_iterator]

/-- Under a prefix whose keys all end in a big-endian counter of one width, iteration
visits the counters in numeric order. -/
theorem iterator_eq_counters (t : Table) (pre : Bytes) (w : Nat)
    (h : ∀ k v, t[k]? = some v → pre <+: k → ∃ n, n < 256 ^ w ∧ k = pre ++ packBE w n) :
    t.iterator pre = (List.range (256 ^ w)).filterMap fun n ↦
      (t[pre ++ packBE w n]?).map fun v ↦ (pre ++ packBE w n, v) := by
  apply eq_of_ordered _ _ (t.iterator_pairwise pre)
  · rw [List.pairwise_filterMap]
    apply List.pairwise_lt_range.imp_of_mem
    intro m n hm hn hmn a ha b hb
    obtain ⟨u, -, rfl⟩ := Option.map_eq_some_iff.mp ha
    obtain ⟨v, -, rfl⟩ := Option.map_eq_some_iff.mp hb
    rw [compare_append_left, compare_packBE (List.mem_range.mp hm) (List.mem_range.mp hn)]
    exact Nat.compare_eq_lt.mpr hmn
  · rintro ⟨k, v⟩
    rw [mem_iterator, List.mem_filterMap]
    constructor
    · rintro ⟨hk, hp⟩
      obtain ⟨n, hn, rfl⟩ := h k v hk hp
      exact ⟨n, List.mem_range.mpr hn, by rw [hk]; rfl⟩
    · rintro ⟨n, hn, hv⟩
      obtain ⟨u, hu, he⟩ := Option.map_eq_some_iff.mp hv
      obtain ⟨rfl, rfl⟩ := Prod.mk.inj he
      exact ⟨hu, List.prefix_append _ _⟩

/-! ### Batches over a prefix -/

/-- Rewriting the values of some of the keys under a prefix. -/
theorem getElem?_write_rewrite (t : Table) (pre : Bytes) (p : Bytes → Bool)
    (g : Bytes → Bytes) (a : Bytes) :
    (t.write (((t.iterator pre).filter fun e ↦ p e.1).map fun e ↦ .put e.1 (g e.2)))[a]? =
      if pre <+: a ∧ p a then (t[a]?).map g else t[a]? := by
  have hputs : (((t.iterator pre).filter fun e ↦ p e.1).map fun e ↦ BatchOp.put e.1 (g e.2)) =
      (((t.iterator pre).filter fun e ↦ p e.1).map fun e ↦ (e.1, g e.2)).map
        fun e ↦ .put e.1 e.2 := by
    rw [List.map_map]
    rfl
  have hmem : ∀ v, (a, v) ∈ ((t.iterator pre).filter fun e ↦ p e.1).map (fun e ↦ (e.1, g e.2)) ↔
      (pre <+: a ∧ p a) ∧ ∃ w, t[a]? = some w ∧ v = g w := by
    intro v
    rw [List.mem_map]
    constructor
    · rintro ⟨e, he, hv⟩
      obtain ⟨rfl, rfl⟩ := Prod.mk.inj hv
      obtain ⟨he, hp⟩ := List.mem_filter.mp he
      obtain ⟨ht, hpre⟩ := mem_iterator.mp he
      exact ⟨⟨hpre, hp⟩, e.2, ht, rfl⟩
    · rintro ⟨⟨hpre, hp⟩, w, ht, rfl⟩
      exact ⟨(a, w), List.mem_filter.mpr ⟨mem_iterator.mpr ⟨ht, hpre⟩, hp⟩, rfl⟩
  rw [hputs]
  by_cases ha : (pre <+: a ∧ p a) ∧ ∃ w, t[a]? = some w
  · obtain ⟨hcond, w, hw⟩ := ha
    rw [if_pos hcond, hw]
    apply getElem?_write_puts_of_mem _ _ _ _ ((hmem _).mpr ⟨hcond, w, hw, rfl⟩)
    intro v hv
    obtain ⟨-, w', hw', rfl⟩ := (hmem v).mp hv
    rw [hw] at hw'
    cases hw'
    rfl
  · rw [getElem?_write_puts_of_notMem]
    · split
      · next hcond =>
        cases hw : t[a]? with
        | none => rfl
        | some w => exact absurd ⟨hcond, w, hw⟩ ha
      · rfl
    · intro v hv
      obtain ⟨hcond, w, hw, -⟩ := (hmem v).mp hv
      exact ha ⟨hcond, w, hw⟩

/-- Moving some rows to new keys that are not keys of these rows. -/
private theorem getElem?_write_moves (g : Bytes → Bytes) (es : List (Bytes × Bytes))
    (hinj : ∀ e ∈ es, ∀ e' ∈ es, g e.1 = g e'.1 → e = e')
    (hfresh : ∀ e ∈ es, ∀ e' ∈ es, g e.1 ≠ e'.1) (t : Table) (a v : Bytes) :
    (t.write (es.flatMap fun e ↦ [.delete e.1, .put (g e.1) e.2]))[a]? = some v ↔
      (∃ e ∈ es, a = g e.1 ∧ v = e.2) ∨
        ((∀ e ∈ es, e.1 ≠ a ∧ g e.1 ≠ a) ∧ t[a]? = some v) := by
  induction es generalizing t with
  | nil => simp
  | cons e es ih =>
    have hes := ih
      (fun x hx y hy ↦ hinj x (List.mem_cons_of_mem _ hx) y (List.mem_cons_of_mem _ hy))
      (fun x hx y hy ↦ hfresh x (List.mem_cons_of_mem _ hx) y (List.mem_cons_of_mem _ hy))
    rw [List.flatMap_cons, write_append, hes, write_cons, write_cons, write_nil, getElem?_apply,
      getElem?_apply]
    dsimp only
    constructor
    · rintro (⟨x, hx, ha⟩ | ⟨hne, ht⟩)
      · exact .inl ⟨x, List.mem_cons_of_mem _ hx, ha⟩
      · split at ht
        · next hg =>
          cases ht
          exact .inl ⟨e, List.mem_cons_self, hg.symm, rfl⟩
        · next hg =>
          split at ht
          · cases ht
          · next he =>
            refine .inr ⟨fun x hx ↦ ?_, ht⟩
            rcases List.mem_cons.mp hx with rfl | hx
            · exact ⟨he, hg⟩
            · exact hne x hx
    · rintro (⟨x, hx, rfl, rfl⟩ | ⟨hne, ht⟩)
      · rcases List.mem_cons.mp hx with rfl | hxs
        · by_cases hlater : ∃ y ∈ es, g y.1 = g x.1
          · obtain ⟨y, hy, hg⟩ := hlater
            have heq := hinj y (List.mem_cons_of_mem _ hy) x List.mem_cons_self hg
            exact .inl ⟨y, hy, hg.symm, by rw [heq]⟩
          · refine .inr ⟨fun y hy ↦ ⟨?_, fun hg ↦ hlater ⟨y, hy, hg⟩⟩, if_pos rfl⟩
            exact (hfresh x List.mem_cons_self y (List.mem_cons_of_mem _ hy)).symm
        · exact .inl ⟨x, hxs, rfl, rfl⟩
      · obtain ⟨he, hg⟩ := hne e List.mem_cons_self
        refine .inr ⟨fun x hx ↦ hne x (List.mem_cons_of_mem _ hx), ?_⟩
        rw [if_neg hg, if_neg he, ht]

/-- Moving the rows under a prefix to new keys under it. -/
theorem getElem?_write_rekey (t : Table) (pre : Bytes) (g : Bytes → Bytes)
    (hpre : ∀ k v, t[k]? = some v → pre <+: k → pre <+: g k)
    (hinj : ∀ k v k' v', t[k]? = some v → pre <+: k → t[k']? = some v' → pre <+: k' →
      g k = g k' → k = k')
    (hfresh : ∀ k v k' v', t[k]? = some v → pre <+: k → t[k']? = some v' → pre <+: k' → g k ≠ k')
    (a v : Bytes) :
    (t.write ((t.iterator pre).flatMap fun e ↦ [.delete e.1, .put (g e.1) e.2]))[a]? = some v ↔
      (¬pre <+: a ∧ t[a]? = some v) ∨ ∃ k, t[k]? = some v ∧ pre <+: k ∧ a = g k := by
  rw [getElem?_write_moves]
  · constructor
    · rintro (⟨e, he, rfl, rfl⟩ | ⟨hne, ht⟩)
      · obtain ⟨hk, hp⟩ := mem_iterator.mp he
        exact .inr ⟨e.1, hk, hp, rfl⟩
      · refine .inl ⟨fun hp ↦ ?_, ht⟩
        exact (hne (a, v) (mem_iterator.mpr ⟨ht, hp⟩)).1 rfl
    · rintro (⟨hp, ht⟩ | ⟨k, hk, hp, rfl⟩)
      · refine .inr ⟨fun e he ↦ ?_, ht⟩
        obtain ⟨hk, hpe⟩ := mem_iterator.mp he
        refine ⟨?_, ?_⟩
        · rintro rfl
          exact hp hpe
        · rintro rfl
          exact hp (hpre _ _ hk hpe)
      · exact .inl ⟨(k, v), mem_iterator.mpr ⟨hk, hp⟩, rfl, rfl⟩
  · intro e he e' he' hg
    obtain ⟨hk, hp⟩ := mem_iterator.mp he
    obtain ⟨hk', hp'⟩ := mem_iterator.mp he'
    have heq := hinj _ _ _ _ hk hp hk' hp' hg
    rw [heq, hk'] at hk
    exact Prod.ext heq (Option.some.inj hk).symm
  · intro e he e' he'
    obtain ⟨hk, hp⟩ := mem_iterator.mp he
    obtain ⟨hk', hp'⟩ := mem_iterator.mp he'
    exact hfresh _ _ _ _ hk hp hk' hp'

end Table
end ElectrumX.Base
