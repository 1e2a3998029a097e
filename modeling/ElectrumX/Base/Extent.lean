import ElectrumX.Base.Reader

/-!
# Readers that measure an extent

A reader may first find out how far an encoding extends, moving its cursor without looking at what
it passes and beyond the end of the buffer, and only then take the whole. Such a reader does not
stay within the buffer; it is stable when what it yields stays the same in a longer buffer.
-/

namespace ElectrumX.Base
namespace Reader

variable {σ ε α β : Type}

/-- Move the cursor on. -/
def skip (n : Nat) : Reader σ ε Unit := ⟨fun _ cursor ↦ .ok ((), cursor + n)⟩

/-- Move the cursor to a position. -/
def seek (n : Nat) : Reader σ ε Unit := ⟨fun _ _ ↦ .ok ((), n)⟩

/-- All that a reader moves over. -/
def extent (e : ε) (r : Reader σ ε α) : Reader σ ε (List σ) := do
  let start ← cursor
  let _ ← r
  let stop ← cursor
  seek start
  let xs ← take e (stop - start)
  return xs.val

/-- A reader yields the same when the buffer is extended. -/
def Stable (r : Reader σ ε α) : Prop :=
  ∀ binary start stop a, r.run binary start = .ok (a, stop) →
    ∀ after, r.run (binary ++ after) start = .ok (a, stop)

/-- A reader fails beyond the end of the buffer. -/
def Anchored (r : Reader σ ε α) : Prop :=
  ∀ binary start, binary.length < start → ∃ e, r.run binary start = .error e

section Stable

variable {r : Reader σ ε α} {f : α → Reader σ ε β}

theorem Stable.pure (a : α) : (Pure.pure a : Reader σ ε α).Stable := by
  intro binary start stop a' h after
  cases h
  rfl

theorem Stable.bind (h : r.Stable) (h' : ∀ a, (f a).Stable) : (r >>= f).Stable := by
  intro binary start stop b hb after
  obtain ⟨a, mid, hr, hf⟩ := bind_eq_ok.mp hb
  exact (run_bind (h _ _ _ _ hr after)).trans (h' a _ _ _ _ hf after)

theorem Stable.cursor : (cursor : Reader σ ε Nat).Stable := by
  intro binary start stop a h after
  cases h
  rfl

theorem Stable.skip (n : Nat) : (skip n : Reader σ ε Unit).Stable := by
  intro binary start stop a h after
  cases h
  rfl

theorem Stable.seek (n : Nat) : (seek n : Reader σ ε Unit).Stable := by
  intro binary start stop a h after
  cases h
  rfl

/-- A reader that stays within the buffer is stable, when it fails beyond the end. -/
theorem Local.stable (h : r.Local) (ha : r.Anchored) : r.Stable := by
  intro binary start stop a hr after
  by_cases hle : start ≤ binary.length
  · exact (h _ _ _ _ hle hr).2 after
  · obtain ⟨e, he⟩ := ha _ _ (Nat.not_le.mp hle)
    rw [hr] at he
    cases he

theorem run_bind_error {binary : List σ} {start : Nat} {e : ε}
    (h : r.run binary start = .error e) : (r >>= f).run binary start = .error e := by
  change (r.run binary start >>= fun p ↦ (f p.1).run binary p.2) = _
  rw [h]
  rfl

theorem Anchored.bind (h : r.Anchored) : (r >>= f).Anchored := by
  intro binary start hlt
  obtain ⟨e, he⟩ := h _ _ hlt
  exact ⟨e, run_bind_error he⟩

theorem Anchored.bind_cursor {f : Nat → Reader σ ε β} (h : ∀ n, (f n).Anchored) :
    (Reader.cursor >>= f).Anchored := fun _ start hlt ↦ h start _ _ hlt

/-- No element is left at the end of the buffer. -/
theorem run_next_end {e : ε} {binary : List σ} {start : Nat} (h : binary.length ≤ start) :
    (next e : Reader σ ε σ).run binary start = .error e := by
  rw [Reader.next]
  dsimp only
  rw [List.getElem?_eq_none h]

theorem Anchored.next {e : ε} : (next e : Reader σ ε σ).Anchored :=
  fun _ _ hlt ↦ ⟨e, run_next_end hlt.le⟩

theorem Anchored.peek {e : ε} (distance : Nat) : (peek e distance : Reader σ ε σ).Anchored := by
  intro binary start hlt
  refine ⟨e, ?_⟩
  rw [Reader.peek]
  dsimp only
  rw [List.getElem?_eq_none (by omega)]

theorem Anchored.take {e : ε} (n : Nat) : (take e n : Reader σ ε _).Anchored := by
  intro binary start hlt
  exact ⟨e, dif_neg (by omega)⟩

/-- What is taken lies within the buffer. -/
theorem take_le {e : ε} {n : Nat} {binary : List σ} {start stop : Nat}
    {xs : { xs : List σ // xs.length = n }} (h : (take e n).run binary start = .ok (xs, stop)) :
    stop = start + n ∧ stop ≤ binary.length := by
  rw [take] at h
  dsimp only at h
  split at h
  · next hle =>
    cases h
    exact ⟨rfl, hle⟩
  · cases h

theorem Local.of_stable (h : r.Stable) (hle : ∀ binary start stop a,
    r.run binary start = .ok (a, stop) → stop ≤ binary.length) : r.Local :=
  fun _ _ _ _ _ hr ↦ ⟨hle _ _ _ _ hr, h _ _ _ _ hr⟩

theorem Stable.take {e : ε} (n : Nat) : (take e n : Reader σ ε _).Stable :=
  (Local.take n).stable (.take n)

theorem Stable.extent {e : ε} (h : r.Stable) : (extent e r).Stable :=
  Stable.cursor.bind fun start ↦ h.bind fun _ ↦ Stable.cursor.bind fun _ ↦
    (Stable.seek start).bind fun _ ↦ (Stable.take _).bind fun _ ↦ .pure _

/-- A reader that takes the extent of another stays within the buffer. -/
theorem Stable.extent_local {e : ε} (h : r.Stable) : (Reader.extent e r).Local := by
  refine Local.of_stable h.extent fun binary start stop xs hr ↦ ?_
  obtain ⟨begin, mid, -, hr⟩ := bind_eq_ok.mp hr
  obtain ⟨a, mid', -, hr⟩ := bind_eq_ok.mp hr
  obtain ⟨stop', mid'', -, hr⟩ := bind_eq_ok.mp hr
  obtain ⟨u, back, -, hr⟩ := bind_eq_ok.mp hr
  obtain ⟨taken, stop'', htake, hr⟩ := bind_eq_ok.mp hr
  cases hr
  exact (take_le htake).2

end Stable

section Reads

variable {r : Reader σ ε α} {before enc after : List σ} {a : α}

theorem Reads.skip (enc : List σ) {n : Nat} (h : enc.length = n) :
    (skip n : Reader σ ε Unit).Reads enc () := by
  intro before after
  rw [ReadsAt, ← h]
  rfl

/-- The extent of an encoding is the encoding. -/
theorem ReadsAt.extent {e : ε} (h : r.ReadsAt before enc after a) :
    (Reader.extent e r).ReadsAt before enc after enc := by
  have hback : (Reader.seek before.length >>= fun _ ↦
      Reader.take e (before.length + enc.length - before.length) >>= fun xs ↦ Pure.pure xs.val).run
      (before ++ (enc ++ after)) (before.length + enc.length) =
      .ok (enc, before.length + enc.length) := by
    rw [Nat.add_sub_cancel_left]
    exact (Reads.take (e := e) enc).map (fun xs ↦ xs.val) before after
  have hstart : (Reader.extent e r).run (before ++ (enc ++ after)) before.length =
      (r >>= fun _ ↦ Reader.cursor >>= fun stop ↦ Reader.seek before.length >>= fun _ ↦
        Reader.take e (stop - before.length) >>= fun xs ↦ Pure.pure xs.val).run
        (before ++ (enc ++ after)) before.length := rfl
  rw [ReadsAt, hstart, run_bind h]
  exact hback

end Reads
end Reader
end ElectrumX.Base
