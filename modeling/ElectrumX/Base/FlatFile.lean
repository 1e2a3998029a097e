import ElectrumX.Base.Bytes

/-!
# Flat files and torn writes

A file is one byte array that is overwritten in place or extended. Contents that are
a prefix of the file survive every write behind them, and writing directly behind them
extends them. After a crash the bytes that no pending write covers are those on disk;
the covered ones are arbitrary, so contents in front of every pending write survive.
-/

namespace ElectrumX.Base.FlatFile

/-- Overwrite in place from `start`, extending the file when needed. A gap beyond the
end is filled with zeros; writing nothing touches nothing. -/
def write (f : Bytes) (start : Nat) (b : Bytes) : Bytes :=
  if b = [] then f
  else f.take start ++ List.replicate (start - f.length) 0 ++ b ++ f.drop (start + b.length)

/-- Read up to `size` bytes from `start`. -/
def read (f : Bytes) (start size : Nat) : Bytes := (f.drop start).take size

/-- A file `g` that a crash may leave of `f` while the pending writes are not yet durable. -/
def Torn (f : Bytes) (pending : List (Nat × Bytes)) (g : Bytes) : Prop :=
  ∀ i, (∀ w ∈ pending, ¬(w.1 ≤ i ∧ i < w.1 + w.2.length)) → g[i]? = f[i]?

/-- Writing directly behind the contents extends them. -/
theorem prefix_write_append {f c : Bytes} (h : c <+: f) (b : Bytes) :
    c ++ b <+: write f c.length b := by
  obtain ⟨r, rfl⟩ := h
  unfold write
  split
  · next hb => rw [hb, List.append_nil]; exact List.prefix_append c r
  · rw [List.take_left, List.length_append, Nat.sub_eq_zero_of_le (Nat.le_add_right _ _),
      List.replicate_zero, List.append_nil]
    exact List.prefix_append _ _

/-- Contents in front of a write are unchanged. -/
theorem prefix_write {f c : Bytes} (h : c <+: f) {start : Nat} (hs : c.length ≤ start)
    (b : Bytes) : c <+: write f start b := by
  unfold write
  split
  · exact h
  · rw [List.append_assoc, List.append_assoc]
    refine List.IsPrefix.trans ?_ (List.prefix_append _ _)
    exact List.prefix_take_iff.mpr ⟨h, hs⟩

/-- Reading inside the contents does not see what lies behind them. -/
theorem read_contents {f c : Bytes} (h : c <+: f) {start size : Nat}
    (hs : start + size ≤ c.length) : read f start size = (c.drop start).take size := by
  obtain ⟨r, rfl⟩ := h
  have hl : size ≤ (c.drop start).length := by rw [List.length_drop]; omega
  rw [read, List.drop_append_of_le_length (by omega), List.take_append_of_le_length hl]

/-- Reading all of the contents from the start returns them. -/
theorem read_all {f c : Bytes} (h : c <+: f) : read f 0 c.length = c := by
  rw [read_contents h (by omega), List.drop_zero, List.take_length]

/-- Reading a row of contents that are rows of one width returns it. -/
theorem read_row {α : Type} {f : Bytes} {g : α → Bytes} {xs : List α} {size k : Nat} {x : α}
    (h : xs.flatMap g <+: f) (hw : ∀ x ∈ xs, (g x).length = size) (hx : xs[k]? = some x) :
    read f (k * size) size = g x := by
  obtain ⟨hk, rfl⟩ := List.getElem?_eq_some_iff.mp hx
  have hl := length_flatMap_of_width g xs hw
  have hle : k * size + size ≤ size * xs.length := by
    calc k * size + size = size * (k + 1) := by ring
      _ ≤ size * xs.length := Nat.mul_le_mul_left _ hk
  rw [read_contents h (by omega), drop_flatMap_of_width g xs hw, List.drop_eq_getElem_cons hk,
    List.flatMap_cons]
  exact List.take_left' (hw _ (List.getElem_mem hk))

theorem length_write {f : Bytes} {start : Nat} (h : start ≤ f.length) (b : Bytes) :
    (write f start b).length = max f.length (start + b.length) := by
  unfold write
  split
  · next hb => rw [hb, List.length_nil]; omega
  · simp only [List.length_append, List.length_take, List.length_replicate, List.length_drop]
    omega

/-- A write inside the file or at its end changes the bytes that it covers and no others. -/
theorem getElem?_write {f : Bytes} {start : Nat} (h : start ≤ f.length) (b : Bytes) (i : Nat) :
    (write f start b)[i]? =
      if start ≤ i ∧ i < start + b.length then b[i - start]? else f[i]? := by
  unfold write
  split
  · next hb =>
    subst hb
    have hn : ¬(start ≤ i ∧ i < start + ([] : Bytes).length) := by
      rw [List.length_nil]
      omega
    rw [if_neg hn]
  · have hlen : (f.take start ++ List.replicate (start - f.length) 0 : Bytes).length = start := by
      simp only [List.length_append, List.length_take, List.length_replicate]
      omega
    by_cases hi : i < start
    · have hn : ¬(start ≤ i ∧ i < start + b.length) := by omega
      rw [if_neg hn, List.append_assoc, List.getElem?_append_left (by omega),
        Nat.sub_eq_zero_of_le h, List.replicate_zero, List.append_nil, List.getElem?_take_of_lt hi]
    · rw [List.append_assoc, List.getElem?_append_right (by omega), hlen]
      by_cases hb : i < start + b.length
      · rw [if_pos ⟨by omega, hb⟩, List.getElem?_append_left (by omega)]
      · rw [if_neg (fun hc ↦ hb hc.2), List.getElem?_append_right (by omega), List.getElem?_drop]
        congr 1
        omega

/-- A write is done piece by piece. -/
theorem write_write {f : Bytes} {start : Nat} (h : start ≤ f.length) (b : Bytes) (n : Nat) :
    write (write f start (b.take n)) (start + (b.take n).length) (b.drop n) = write f start b := by
  have hl := length_write h (b.take n)
  apply List.ext_getElem?
  intro i
  rw [getElem?_write (by omega), getElem?_write h, getElem?_write h]
  simp only [List.length_take, List.length_drop, List.getElem?_drop, List.getElem?_take]
  by_cases hi : start ≤ i ∧ i < start + b.length
  · rw [if_pos hi]
    by_cases hn : i < start + min n b.length
    · rw [if_neg (by omega), if_pos (by omega), if_pos (by omega)]
    · rw [if_pos (by omega)]
      congr 1
      omega
  · rw [if_neg hi, if_neg (by omega), if_neg (by omega)]

/-- Contents in front of every pending write survive a crash. -/
theorem prefix_of_torn {f c g : Bytes} {pending : List (Nat × Bytes)} (h : c <+: f)
    (hp : ∀ w ∈ pending, c.length ≤ w.1) (ht : Torn f pending g) : c <+: g := by
  rw [List.prefix_iff_getElem?] at h ⊢
  intro i hi
  rw [ht i, h i hi]
  intro w hw hc
  have := hp w hw
  omega

/-- Without pending writes a crash leaves the file as it is. -/
theorem eq_of_torn_nil {f g : Bytes} (h : Torn f [] g) : g = f :=
  List.ext_getElem? fun i ↦ h i (by simp)

/-- A crash may drop every pending write. -/
theorem torn_self (f : Bytes) (pending : List (Nat × Bytes)) : Torn f pending f :=
  fun _ _ ↦ rfl

end ElectrumX.Base.FlatFile
