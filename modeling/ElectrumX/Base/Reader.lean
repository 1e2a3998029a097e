import Mathlib.Data.List.Forall2
import Mathlib.Data.List.Infix

/-!
# Readers of a buffer

A reader moves a cursor over a buffer and yields a value or fails. It reads an encoding when it
moves over it and yields the encoded value; it is local when it stays within the buffer and does
not depend on what follows. Both compose along the sequence of readers, and together they make a
reader fail on what is cut off within an encoding.
-/

namespace ElectrumX.Base

/-- A reader of a buffer, from the cursor to a value and the new cursor. -/
structure Reader (σ ε α : Type) where
  run : List σ → Nat → Except ε (α × Nat)

namespace Reader

variable {σ ε α β : Type}

instance : Monad (Reader σ ε) where
  pure a := ⟨fun _ cursor ↦ .ok (a, cursor)⟩
  bind r f := ⟨fun binary cursor ↦ do
    let (a, cursor) ← r.run binary cursor
    (f a).run binary cursor⟩

/-- The position of the cursor. -/
def cursor : Reader σ ε Nat := ⟨fun _ cursor ↦ .ok (cursor, cursor)⟩

/-- The length of the buffer. -/
def length : Reader σ ε Nat := ⟨fun binary cursor ↦ .ok (binary.length, cursor)⟩

/-- The part of the buffer from a position to the cursor. -/
def sliceFrom (start : Nat) : Reader σ ε (List σ) :=
  ⟨fun binary cursor ↦ .ok ((binary.take cursor).drop start, cursor)⟩

/-- The element at a distance from the cursor, which stays. -/
def peek (e : ε) (distance : Nat) : Reader σ ε σ :=
  ⟨fun binary cursor ↦
    match binary[cursor + distance]? with
    | some x => .ok (x, cursor)
    | none => .error e⟩

/-- The next element. -/
def next (e : ε) : Reader σ ε σ :=
  ⟨fun binary cursor ↦
    match binary[cursor]? with
    | some x => .ok (x, cursor + 1)
    | none => .error e⟩

/-- The next `n` elements, of which none may be missing. -/
def take (e : ε) (n : Nat) : Reader σ ε { xs : List σ // xs.length = n } :=
  ⟨fun binary cursor ↦
    if h : cursor + n ≤ binary.length then
      .ok (⟨(binary.drop cursor).take n, by rw [List.length_take, List.length_drop]; omega⟩,
        cursor + n)
    else .error e⟩

/-- A number of values, read one after the other. -/
def replicate (r : Reader σ ε α) : Nat → Reader σ ε (List α)
  | 0 => pure []
  | n + 1 => do
    let x ← r
    let xs ← r.replicate n
    return x :: xs

@[simp] theorem run_pure (a : α) (binary : List σ) (cursor : Nat) :
    (pure a : Reader σ ε α).run binary cursor = .ok (a, cursor) := rfl

theorem run_bind {r : Reader σ ε α} {f : α → Reader σ ε β} {binary : List σ} {start stop : Nat}
    {a : α} (h : r.run binary start = .ok (a, stop)) :
    (r >>= f).run binary start = (f a).run binary stop := by
  change (do
    let (a, cursor) ← r.run binary start
    (f a).run binary cursor) = _
  rw [h]
  rfl

theorem bind_eq_ok {r : Reader σ ε α} {f : α → Reader σ ε β} {binary : List σ} {start stop : Nat}
    {b : β} : (r >>= f).run binary start = .ok (b, stop) ↔
      ∃ a mid, r.run binary start = .ok (a, mid) ∧ (f a).run binary mid = .ok (b, stop) := by
  constructor
  · intro h
    cases hr : r.run binary start with
    | error e =>
      change (do
        let (a, cursor) ← r.run binary start
        (f a).run binary cursor) = _ at h
      rw [hr] at h
      cases h
    | ok p => exact ⟨p.1, p.2, rfl, (run_bind hr).symm.trans h⟩
  · rintro ⟨a, mid, hr, h⟩
    exact (run_bind hr).trans h

theorem next_eq_ok {e : ε} {binary : List σ} {start stop : Nat} {x : σ} :
    (next e : Reader σ ε σ).run binary start = .ok (x, stop) ↔
      binary[start]? = some x ∧ stop = start + 1 := by
  rw [next]
  dsimp only
  cases binary[start]? with
  | none => simp
  | some y =>
    simp only [Except.ok.injEq, Prod.mk.injEq, Option.some.injEq]
    exact and_congr_right fun _ ↦ eq_comm

/-! ### Reading an encoding -/

/-- A reader moves over an encoding at one place and yields a value. -/
def ReadsAt (r : Reader σ ε α) (before enc after : List σ) (a : α) : Prop :=
  r.run (before ++ (enc ++ after)) before.length = .ok (a, before.length + enc.length)

/-- A reader reads an encoding, whatever is around it. -/
def Reads (r : Reader σ ε α) (enc : List σ) (a : α) : Prop :=
  ∀ before after, r.ReadsAt before enc after a

section Reads

variable {r : Reader σ ε α} {f : α → Reader σ ε β} {before enc enc' after : List σ} {a : α} {b : β}

theorem ReadsAt.pure (a : α) : (Pure.pure a : Reader σ ε α).ReadsAt before [] after a := rfl

theorem ReadsAt.bind (h : r.ReadsAt before enc (enc' ++ after) a)
    (h' : (f a).ReadsAt (before ++ enc) enc' after b) :
    (r >>= f).ReadsAt before (enc ++ enc') after b := by
  rw [ReadsAt, List.append_assoc] at *
  rw [run_bind h, ← List.length_append, h', List.length_append, List.length_append,
    Nat.add_assoc]

/-- A step that stays where it is. -/
theorem ReadsAt.bind_nil (h : r.ReadsAt before [] (enc ++ after) a)
    (h' : (f a).ReadsAt before enc after b) : (r >>= f).ReadsAt before enc after b := by
  have hb : (r >>= f).ReadsAt before ([] ++ enc) after b :=
    ReadsAt.bind h (by rwa [List.append_nil])
  exact hb

/-- A step after which the reader stays where it is. -/
theorem ReadsAt.bind_last (h : r.ReadsAt before enc after a)
    (h' : (f a).ReadsAt (before ++ enc) [] after b) : (r >>= f).ReadsAt before enc after b := by
  have hb : (r >>= f).ReadsAt before (enc ++ []) after b := ReadsAt.bind h h'
  rwa [List.append_nil] at hb

theorem ReadsAt.cursor : (cursor : Reader σ ε Nat).ReadsAt before [] after before.length := rfl

theorem ReadsAt.length {n : Nat} (h : n = (before ++ after).length) :
    (length : Reader σ ε Nat).ReadsAt before [] after n := by
  subst h
  rfl

theorem ReadsAt.sliceFrom (enc : List σ) {whole : List σ} (h : whole = before ++ enc) :
    (sliceFrom before.length : Reader σ ε _).ReadsAt whole [] after enc := by
  subst h
  simp only [ReadsAt, Reader.sliceFrom, List.nil_append, List.take_left, List.drop_left,
    List.length_nil, Nat.add_zero]

theorem ReadsAt.peek {e : ε} {distance : Nat} {x : σ} (h : after[distance]? = some x) :
    (peek e distance : Reader σ ε σ).ReadsAt before [] after x := by
  have hx : (before ++ after)[before.length + distance]? = some x := by
    rw [List.getElem?_append_right (by omega), Nat.add_sub_cancel_left, h]
  simp only [ReadsAt, Reader.peek, List.nil_append, hx, List.length_nil, Nat.add_zero]

theorem Reads.pure (a : α) : (Pure.pure a : Reader σ ε α).Reads [] a := fun _ _ ↦ ReadsAt.pure a

theorem Reads.bind (h : r.Reads enc a) (h' : (f a).Reads enc' b) :
    (r >>= f).Reads (enc ++ enc') b := fun _ _ ↦ ReadsAt.bind (h _ _) (h' _ _)

theorem Reads.map (g : α → β) (h : r.Reads enc a) :
    (r >>= fun a ↦ Pure.pure (g a)).Reads enc (g a) := by
  have hb := h.bind (f := fun a ↦ Pure.pure (g a)) (Reads.pure (g a))
  rwa [List.append_nil] at hb

theorem Reads.next {e : ε} (x : σ) : (next e : Reader σ ε σ).Reads [x] x := by
  intro before after
  have hx : (before ++ ([x] ++ after))[before.length]? = some x := by
    rw [List.getElem?_append_right (Nat.le_refl _), Nat.sub_self]
    rfl
  simp only [ReadsAt, Reader.next, hx, List.length_singleton]

theorem Reads.take {e : ε} (xs : List σ) :
    (take e xs.length : Reader σ ε _).Reads xs ⟨xs, rfl⟩ := by
  intro before after
  have hl : before.length + xs.length ≤ (before ++ (xs ++ after)).length := by
    simp only [List.length_append]
    omega
  simp only [ReadsAt, Reader.take, dif_pos hl, List.drop_left, List.take_left]

theorem Reads.take_of_length {e : ε} {xs : List σ} {n : Nat} (h : xs.length = n) :
    (Reader.take e n : Reader σ ε _).Reads xs ⟨xs, h⟩ := by
  subst h
  exact .take xs

theorem Reads.replicate {encs : List (List σ)} {xs : List α} (h : List.Forall₂ r.Reads encs xs) :
    (r.replicate xs.length).Reads encs.flatten xs := by
  induction h with
  | nil => exact .pure []
  | cons h _ ih => exact h.bind (ih.map _)

end Reads

/-! ### Locality -/

/-- A reader stays within the buffer, and yields the same when the buffer is extended. -/
def Local (r : Reader σ ε α) : Prop :=
  ∀ binary start stop a, start ≤ binary.length → r.run binary start = .ok (a, stop) →
    stop ≤ binary.length ∧ ∀ after, r.run (binary ++ after) start = .ok (a, stop)

section Local

variable {r : Reader σ ε α} {f : α → Reader σ ε β}

theorem Local.pure (a : α) : (Pure.pure a : Reader σ ε α).Local := by
  intro binary start stop a' hs h
  cases h
  exact ⟨hs, fun _ ↦ rfl⟩

theorem Local.bind (h : r.Local) (h' : ∀ a, (f a).Local) : (r >>= f).Local := by
  intro binary start stop b hs hb
  obtain ⟨a, mid, hr, hf⟩ := bind_eq_ok.mp hb
  obtain ⟨hmid, hr'⟩ := h _ _ _ _ hs hr
  obtain ⟨hstop, hf'⟩ := h' a _ _ _ _ hmid hf
  exact ⟨hstop, fun after ↦ (run_bind (hr' after)).trans (hf' after)⟩

theorem Local.map {g : α → β} (h : r.Local) : (r >>= fun a ↦ Pure.pure (g a)).Local :=
  h.bind fun _ ↦ .pure _

theorem Local.cursor : (cursor : Reader σ ε Nat).Local := by
  intro binary start stop a hs h
  cases h
  exact ⟨hs, fun _ ↦ rfl⟩

theorem Local.sliceFrom (n : Nat) : (sliceFrom n : Reader σ ε _).Local := by
  intro binary start stop a hs h
  cases h
  refine ⟨hs, fun after ↦ ?_⟩
  simp only [Reader.sliceFrom, List.take_append_of_le_length hs]

theorem Local.peek {e : ε} (distance : Nat) : (peek e distance : Reader σ ε σ).Local := by
  intro binary start stop a hs h
  simp only [Reader.peek] at h
  split at h
  · next x hx =>
    cases h
    refine ⟨hs, fun after ↦ ?_⟩
    have hlt := (List.getElem?_eq_some_iff.mp hx).1
    simp only [Reader.peek, List.getElem?_append_left hlt, hx]
  · cases h

theorem Local.next {e : ε} : (next e : Reader σ ε σ).Local := by
  intro binary start stop a hs h
  simp only [Reader.next] at h
  split at h
  · next x hx =>
    cases h
    have hlt := (List.getElem?_eq_some_iff.mp hx).1
    refine ⟨hlt, fun after ↦ ?_⟩
    simp only [Reader.next, List.getElem?_append_left hlt, hx]
  · cases h

theorem Local.take {e : ε} (n : Nat) : (take e n : Reader σ ε _).Local := by
  intro binary start stop a hs h
  simp only [Reader.take] at h
  split at h
  · next hn =>
    cases h
    refine ⟨hn, fun after ↦ ?_⟩
    have hl : start + n ≤ (binary ++ after).length := by
      rw [List.length_append]
      omega
    have he : ((binary ++ after).drop start).take n = (binary.drop start).take n := by
      rw [List.drop_append_of_le_length hs, List.take_append_of_le_length]
      rw [List.length_drop]
      omega
    simp only [Reader.take, dif_pos hl, he]
  · cases h

theorem Local.replicate (h : r.Local) (n : Nat) : (r.replicate n).Local := by
  induction n with
  | zero => exact .pure []
  | succ n ih => exact h.bind fun _ ↦ ih.map

/-- A reader stays within the buffer, and one part of its value stays the same when the buffer is
extended. -/
def LocalIn (r : Reader σ ε α) (g : α → β) : Prop :=
  ∀ binary start stop a, start ≤ binary.length → r.run binary start = .ok (a, stop) →
    stop ≤ binary.length ∧
      ∀ after, ∃ a', r.run (binary ++ after) start = .ok (a', stop) ∧ g a' = g a

theorem LocalIn.length {g : α → β} {k : Nat → α} (h : ∀ m n, g (k m) = g (k n)) :
    (Reader.length >>= fun n ↦ Pure.pure (k n) : Reader σ ε α).LocalIn g := by
  intro binary start stop a hs hr
  cases hr
  exact ⟨hs, fun _ ↦ ⟨_, rfl, h _ _⟩⟩

theorem LocalIn.bind {γ : Type} {g : β → γ} (h : r.Local) (h' : ∀ a, (f a).LocalIn g) :
    (r >>= f).LocalIn g := by
  intro binary start stop b hs hb
  obtain ⟨a, mid, hr, hf⟩ := bind_eq_ok.mp hb
  obtain ⟨hmid, hr'⟩ := h _ _ _ _ hs hr
  obtain ⟨hstop, hf'⟩ := h' a _ _ _ _ hmid hf
  refine ⟨hstop, fun after ↦ ?_⟩
  obtain ⟨b', hb', hg⟩ := hf' after
  exact ⟨b', (run_bind (hr' after)).trans hb', hg⟩

theorem LocalIn.map {g : α → β} (h : r.LocalIn g) : (r >>= fun a ↦ Pure.pure (g a)).Local := by
  intro binary start stop b hs hb
  obtain ⟨a, mid, hr, hf⟩ := bind_eq_ok.mp hb
  cases hf
  obtain ⟨hstop, hr'⟩ := h _ _ _ _ hs hr
  refine ⟨hstop, fun after ↦ ?_⟩
  obtain ⟨a', ha', hg⟩ := hr' after
  rw [run_bind ha', hg]
  rfl

/-- A reader fails when its encoding is cut off. -/
theorem Reads.error_of_prefix {enc : List σ} {a : α} (h : r.Reads enc a) (hl : r.Local)
    {part : List σ} (hp : part <+: enc) (hne : part ≠ enc) (before : List σ) :
    ∃ e, r.run (before ++ part) before.length = .error e := by
  cases hr : r.run (before ++ part) before.length with
  | error e => exact ⟨e, rfl⟩
  | ok p =>
    obtain ⟨rest, rfl⟩ := hp
    obtain ⟨hstop, hrun⟩ := hl _ _ _ _ (by rw [List.length_append]; omega) hr
    have hwhole := h before []
    rw [ReadsAt, List.append_nil, ← List.append_assoc, hrun rest] at hwhole
    have he := congrArg Prod.snd (Except.ok.inj hwhole)
    have hrest : rest.length = 0 := by
      simp only [List.length_append] at he hstop
      omega
    rw [List.length_eq_zero_iff.mp hrest, List.append_nil] at hne
    exact absurd rfl hne

end Local

/-! ### What a value was read from -/

/-- Whatever a reader yields, it has moved over an encoding of it. -/
def Spells (r : Reader σ ε α) (enc : α → List σ → Prop) : Prop :=
  ∀ binary start stop a, start ≤ binary.length → r.run binary start = .ok (a, stop) →
    ∃ e, enc a e ∧ binary.drop start = e ++ binary.drop stop ∧ stop ≤ binary.length

section Spells

variable {r : Reader σ ε α} {f : α → Reader σ ε β} {enc : α → List σ → Prop}

theorem Spells.pure {a : α} (h : enc a []) : (Pure.pure a : Reader σ ε α).Spells enc := by
  intro binary start stop a' hs hr
  cases hr
  exact ⟨[], h, rfl, hs⟩

theorem Spells.mono {enc' : α → List σ → Prop} (h : r.Spells enc)
    (himp : ∀ a e, enc a e → enc' a e) : r.Spells enc' := by
  intro binary start stop a hs hr
  obtain ⟨e, he, hd, hstop⟩ := h _ _ _ _ hs hr
  exact ⟨e, himp a e he, hd, hstop⟩

/-- The first reader of a sequence and the run of the rest. -/
theorem Spells.of_bind (h : r.Spells enc) {binary : List σ} {start stop : Nat} {b : β}
    (hs : start ≤ binary.length) (hr : (r >>= f).run binary start = .ok (b, stop)) :
    ∃ a mid e, enc a e ∧ binary.drop start = e ++ binary.drop mid ∧ mid ≤ binary.length ∧
      (f a).run binary mid = .ok (b, stop) := by
  obtain ⟨a, mid, ha, hb⟩ := bind_eq_ok.mp hr
  obtain ⟨e, he, hd, hmid⟩ := h _ _ _ _ hs ha
  exact ⟨a, mid, e, he, hd, hmid, hb⟩

theorem Spells.next {e : ε} : (next e : Reader σ ε σ).Spells fun x enc ↦ enc = [x] := by
  intro binary start stop x hs hr
  obtain ⟨hx, rfl⟩ := next_eq_ok.mp hr
  obtain ⟨hlt, rfl⟩ := List.getElem?_eq_some_iff.mp hx
  exact ⟨_, rfl, List.drop_eq_getElem_cons hlt, hlt⟩

theorem Spells.take {e : ε} {n : Nat} :
    (take e n : Reader σ ε _).Spells fun xs enc ↦ enc = xs.val := by
  intro binary start stop xs hs hr
  simp only [Reader.take] at hr
  split at hr
  · next hle =>
    cases hr
    refine ⟨_, rfl, ?_, hle⟩
    rw [← List.drop_drop, List.take_append_drop]
  · cases hr

theorem Spells.replicate (h : r.Spells enc) (n : Nat) : (r.replicate n).Spells
    fun xs e ↦ xs.length = n ∧ ∃ es, List.Forall₂ enc xs es ∧ e = es.flatten := by
  induction n with
  | zero => exact .pure ⟨rfl, [], .nil, rfl⟩
  | succ n ih =>
    intro binary start stop xs hs hr
    obtain ⟨x, mid, e, he, hd, hmid, hr⟩ := h.of_bind hs hr
    obtain ⟨ys, last, -, ⟨hlen, es, hes, rfl⟩, hd', hlast, hr⟩ := ih.of_bind hmid hr
    cases hr
    exact ⟨e ++ es.flatten, ⟨by rw [List.length_cons, hlen], e :: es, .cons he hes, rfl⟩,
      by rw [hd, hd', List.append_assoc], hlast⟩

/-- What was moved over is the part of the buffer up to the cursor. -/
theorem drop_take_of_drop_eq {binary e : List σ} {start stop : Nat} (hstop : stop ≤ binary.length)
    (hs : start ≤ binary.length) (h : binary.drop start = e ++ binary.drop stop) :
    (binary.take stop).drop start = e ∧ stop = start + e.length := by
  have hl := congrArg List.length h
  rw [List.length_append, List.length_drop, List.length_drop] at hl
  have hsum : stop = start + e.length := by omega
  refine ⟨?_, hsum⟩
  rw [List.drop_take, h, hsum, Nat.add_sub_cancel_left, List.take_left]

end Spells

/-! ### Refusing more -/

/-- A reader yields what another one yields, or refuses. -/
def Refines (r r' : Reader σ ε α) : Prop :=
  ∀ binary start x, r.run binary start = .ok x → r'.run binary start = .ok x

section Refines

variable {r r' : Reader σ ε α} {f f' : α → Reader σ ε β}

theorem Refines.refl (r : Reader σ ε α) : r.Refines r := fun _ _ _ h ↦ h

theorem Refines.bind (h : r.Refines r') (h' : ∀ a, (f a).Refines (f' a)) :
    (r >>= f).Refines (r' >>= f') := by
  intro binary start x hx
  obtain ⟨a, mid, hr, hf⟩ := bind_eq_ok.mp hx
  exact bind_eq_ok.mpr ⟨a, mid, h _ _ _ hr, h' a _ _ _ hf⟩

theorem Refines.ite {p : Prop} [Decidable p] {s s' : Reader σ ε α} (h : r.Refines r')
    (hs : s.Refines s') : (if p then r else s).Refines (if p then r' else s') := by
  split
  · exact h
  · exact hs

theorem Refines.replicate (h : r.Refines r') (n : Nat) :
    (r.replicate n).Refines (r'.replicate n) := by
  induction n with
  | zero => exact .refl _
  | succ n ih => exact h.bind fun _ ↦ ih.bind fun _ ↦ .refl _

end Refines
end Reader
end ElectrumX.Base
