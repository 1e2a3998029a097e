import Mathlib.Order.Basic

/-!
# Reachable states

A system is given by a partial function from a state and an event to the next state. A guard
restricts the events of a run.
-/

namespace ElectrumX.Base

variable {σ ε : Type}

/-- The states that are reached from `s` by steps that meet the guard. -/
inductive Reach (step : σ → ε → Option σ) (guard : σ → ε → Prop) (s : σ) : σ → Prop
  | refl : Reach step guard s s
  | step {s' s'' : σ} {e : ε} (r : Reach step guard s s') (hg : guard s' e)
      (h : step s' e = some s'') : Reach step guard s s''

/-- The state after some events, if each of them meets the guard and can be taken. -/
def runEvents (step : σ → ε → Option σ) (guard : σ → ε → Prop) [∀ s, DecidablePred (guard s)]
    (s : σ) (es : List ε) : Option σ :=
  es.foldlM (fun s e ↦ if guard s e then step s e else none) s

namespace Reach

variable {step : σ → ε → Option σ} {guard guard' : σ → ε → Prop} {s s' s'' : σ}

/-- What every step that meets the guard preserves holds of every state that is reached. -/
theorem invariant {P : σ → Prop} (r : Reach step guard s s') (hs : P s)
    (hstep : ∀ t t' e, P t → guard t e → step t e = some t' → P t') : P s' := by
  induction r with
  | refl => exact hs
  | step _ hg h ih => exact hstep _ _ _ ih hg h

theorem mono (r : Reach step guard s s') (h : ∀ t e, guard t e → guard' t e) :
    Reach step guard' s s' := by
  induction r with
  | refl => exact .refl
  | step _ hg hs ih => exact ih.step (h _ _ hg) hs

theorem trans (r : Reach step guard s s') (r' : Reach step guard s' s'') :
    Reach step guard s s'' := by
  induction r' with
  | refl => exact r
  | step _ hg h ih => exact ih.step hg h

theorem runEvents [∀ s, DecidablePred (guard s)] {es : List ε} (r : Reach step guard s s')
    (h : runEvents step guard s' es = some s'') : Reach step guard s s'' := by
  induction es generalizing s' with
  | nil =>
    cases h
    exact r
  | cons e es ih =>
    rw [Base.runEvents, List.foldlM_cons] at h
    split at h
    · next hg =>
      cases hs : step s' e with
      | none =>
        rw [hs] at h
        cases h
      | some t =>
        rw [hs] at h
        exact ih (r.step hg hs) h
    · cases h

/-- Events that meet the guard in every state make a run. -/
theorem ofEvents {es : List ε} (h : Base.runEvents step (fun _ _ ↦ True) s es = some s')
    (hg : ∀ e ∈ es, ∀ t, guard t e) : Reach step guard s s' := by
  have hloop : ∀ (es : List ε) (t : σ), (∀ e ∈ es, ∀ t, guard t e) → Reach step guard s t →
      Base.runEvents step (fun _ _ ↦ True) t es = some s' → Reach step guard s s' := by
    intro es
    induction es with
    | nil =>
      intro t _ r h
      cases h
      exact r
    | cons e es ih =>
      intro t hg r h
      rw [Base.runEvents, List.foldlM_cons, if_pos trivial] at h
      obtain ⟨t', ht, h⟩ := Option.bind_eq_some_iff.mp h
      exact ih t' (fun e he ↦ hg e (List.mem_cons_of_mem _ he))
        (r.step (hg e List.mem_cons_self t) ht) h
  exact hloop es s hg .refl h

end Reach
end ElectrumX.Base
