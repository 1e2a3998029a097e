import Mathlib.Data.List.DropRight
import ElectrumX.Server.Peers

/-!
# When a peer is forgotten

The model of `_monitor_peer` and of the counting of `_should_drop_peer` in `server/peers.py`. How
each connection of an attempt ends is a parameter: the remote server is verified, it is found bad,
or the connection fails. Times are rationals.
-/

namespace ElectrumX.Server

/-- How a connection ends. -/
inductive PeerConnection where
  | verified
  /-- A `BadPeerError`. -/
  | badPeer
  /-- An RPC error, or an exception of the transport. -/
  | failed
deriving DecidableEq, Repr

/-- A call of `_should_drop_peer`: whether a proxy is needed and missing, how the connections to
the peer's ports would end, and the time. -/
structure PeerAttempt where
  noProxy : Bool
  connections : List PeerConnection
  now : ℚ

/-- The attributes of a peer that an attempt writes. -/
structure MonitoredPeer where
  tryCount : Nat := 0
  lastGood : ℚ := 0
  bad : Bool := false

namespace PeerAttempt

variable (a : PeerAttempt)

/-- The attempt returns before it connects, `peers.py:273–275`. -/
def Unconnected : Prop := a.noProxy = true ∧ a.connections ≠ []

instance : Decidable a.Unconnected := inferInstanceAs (Decidable (_ ∧ _))

/-- The connection that ends the loop, `peers.py:266–311`. -/
def decided : Option PeerConnection := a.connections.find? (· ≠ .failed)

/-- The peer is verified. -/
def Good : Prop := ¬ a.Unconnected ∧ a.decided = some .verified

instance : Decidable a.Good := inferInstanceAs (Decidable (_ ∧ _))

/-- The peer is marked bad. -/
def MarksBad : Prop := ¬ a.Unconnected ∧ a.decided = some .badPeer

instance : Decidable a.MarksBad := inferInstanceAs (Decidable (_ ∧ _))

end PeerAttempt

namespace MonitoredPeer

/-- `try_limit`, `peers.py:339–342`. -/
def tryLimit (p : MonitoredPeer) : Nat := if p.lastGood ≠ 0 ∧ p.bad = false then 10 else 3

/-- The peer after the connections failed, or none if it is forgotten. -/
def failed (p : MonitoredPeer) : Option MonitoredPeer :=
  if p.tryLimit ≤ p.tryCount then none else some p

/-- `_should_drop_peer`, `peers.py:263–347`, with the `discard` of `_monitor_peer`. -/
def attempt (p : MonitoredPeer) (a : PeerAttempt) : Option MonitoredPeer :=
  let p := { p with tryCount := p.tryCount + 1 }
  if a.Unconnected then some p
  else
    match a.decided with
    | some .verified => some { p with tryCount := 0, lastGood := a.now }
    | some .badPeer => { p with bad := true }.failed
    | _ => p.failed

/-- `_monitor_peer`, `peers.py:246–261`, over the attempts. -/
def monitor (attempts : List PeerAttempt) : Option MonitoredPeer :=
  attempts.foldlM attempt {}

/-! ### What the attempts so far say -/

/-- The attempts since the peer was verified. -/
def streak (attempts : List PeerAttempt) : Nat :=
  (attempts.rtakeWhile fun a ↦ ¬ a.Good).length

/-- How many attempts in a row a peer has: more if it was verified before and never found bad. -/
def limit (attempts : List PeerAttempt) : Nat :=
  if (∃ a ∈ attempts, a.Good) ∧ ∀ a ∈ attempts, ¬ a.MarksBad then 10 else 3

/-- The last attempt connects, does not verify the peer, and is one too many. -/
def Forgets (attempts : List PeerAttempt) : Prop :=
  ∃ a ∈ attempts.getLast?, ¬ a.Unconnected ∧ ¬ a.Good ∧ limit attempts ≤ streak attempts

/-- What a monitored peer holds of the attempts. -/
structure Holds (p : MonitoredPeer) (attempts : List PeerAttempt) : Prop where
  tryCount : p.tryCount = streak attempts
  lastGood : p.lastGood ≠ 0 ↔ ∃ a ∈ attempts, a.Good
  bad : p.bad = true ↔ ∃ a ∈ attempts, a.MarksBad

theorem streak_concat_good {a : PeerAttempt} (h : a.Good) (attempts : List PeerAttempt) :
    streak (attempts ++ [a]) = 0 := by
  rw [streak, List.rtakeWhile_concat_neg _ _ _ (by simpa using h)]
  rfl

theorem streak_concat {a : PeerAttempt} (h : ¬ a.Good) (attempts : List PeerAttempt) :
    streak (attempts ++ [a]) = streak attempts + 1 := by
  rw [streak, List.rtakeWhile_concat_pos _ _ _ (by simpa using h), List.length_append]
  rfl

theorem exists_mem_concat {P : PeerAttempt → Prop} (attempts : List PeerAttempt) (a : PeerAttempt) :
    (∃ b ∈ attempts ++ [a], P b) ↔ (∃ b ∈ attempts, P b) ∨ P a := by
  simp [or_and_right, exists_or]

theorem forgets_concat (attempts : List PeerAttempt) (a : PeerAttempt) :
    Forgets (attempts ++ [a]) ↔ ¬ a.Unconnected ∧ ¬ a.Good ∧
      limit (attempts ++ [a]) ≤ streak (attempts ++ [a]) := by
  simp [Forgets]

namespace Holds

variable {p : MonitoredPeer} {attempts : List PeerAttempt} {a : PeerAttempt}

theorem tryLimit (h : p.Holds attempts) : p.tryLimit = limit attempts := by
  rw [MonitoredPeer.tryLimit, limit]
  refine if_congr (and_congr h.lastGood ?_) rfl rfl
  rw [← Bool.not_eq_true, h.bad]
  exact ⟨fun h a ha hb ↦ h ⟨a, ha, hb⟩, fun h ⟨a, ha, hb⟩ ↦ h a ha hb⟩

/-- The attributes after an attempt, apart from the limit. -/
theorem next {q : MonitoredPeer} (h : p.Holds attempts) (hgood : ¬ a.Good)
    (hcount : q.tryCount = p.tryCount + 1) (hlast : q.lastGood = p.lastGood)
    (hbad : q.bad = true ↔ p.bad = true ∨ a.MarksBad) : q.Holds (attempts ++ [a]) where
  tryCount := by rw [hcount, h.tryCount, streak_concat hgood]
  lastGood := by
    rw [hlast, h.lastGood, exists_mem_concat]
    exact ⟨.inl, fun hor ↦ hor.resolve_right hgood⟩
  bad := by rw [hbad, h.bad, exists_mem_concat]

/-- A failed attempt forgets the peer if it is one too many, and changes nothing else. -/
theorem failed (h : p.Holds attempts) :
    (p.failed = none ↔ limit attempts ≤ streak attempts) ∧
      ∀ q, p.failed = some q → q.Holds attempts := by
  rw [MonitoredPeer.failed, h.tryLimit, h.tryCount]
  split
  · next hle => exact ⟨iff_of_true rfl hle, fun q hq ↦ by cases hq⟩
  · next hle =>
    refine ⟨iff_of_false (fun heq ↦ by cases heq) hle, fun q hq ↦ ?_⟩
    cases hq
    exact h

/-- What an attempt does. -/
theorem attempt (h : p.Holds attempts) (hnow : a.now ≠ 0) :
    (p.attempt a = none ↔ Forgets (attempts ++ [a])) ∧
      ∀ q, p.attempt a = some q → q.Holds (attempts ++ [a]) := by
  have hfail : ¬ a.Unconnected → ¬ a.Good → ∀ q : MonitoredPeer, q.Holds (attempts ++ [a]) →
      (q.failed = none ↔ Forgets (attempts ++ [a])) ∧
        ∀ r, q.failed = some r → r.Holds (attempts ++ [a]) := by
    intro hconnected hgood q hq
    rw [forgets_concat, and_iff_right hconnected, and_iff_right hgood]
    exact hq.failed
  rw [MonitoredPeer.attempt]
  by_cases hunconnected : a.Unconnected
  · have hgood : ¬ a.Good := fun hg ↦ hg.1 hunconnected
    rw [if_pos hunconnected]
    refine ⟨iff_of_false (fun heq ↦ by cases heq) fun hf ↦ ?_, fun q hq ↦ ?_⟩
    · exact ((forgets_concat attempts a).mp hf).1 hunconnected
    · cases hq
      exact h.next hgood rfl rfl ⟨.inl, fun hor ↦ hor.resolve_right fun hm ↦ hm.1 hunconnected⟩
  · rw [if_neg hunconnected]
    cases hdecided : a.decided with
    | none =>
      have hgood : ¬ a.Good := fun hg ↦ by cases hdecided.symm.trans hg.2
      exact hfail hunconnected hgood _ (h.next hgood rfl rfl
        ⟨.inl, fun hor ↦ hor.resolve_right fun hm ↦ by cases hdecided.symm.trans hm.2⟩)
    | some connection =>
      cases connection with
      | verified =>
        have hgood : a.Good := ⟨hunconnected, hdecided⟩
        refine ⟨iff_of_false (fun heq ↦ by cases heq) fun hf ↦ ?_, fun q hq ↦ ?_⟩
        · exact ((forgets_concat attempts a).mp hf).2.1 hgood
        · cases hq
          refine ⟨(streak_concat_good hgood attempts).symm, ?_, ?_⟩
          · exact iff_of_true hnow ⟨a, List.mem_concat_self, hgood⟩
          · rw [exists_mem_concat, ← h.bad]
            exact ⟨.inl, fun hor ↦ hor.resolve_right fun hm ↦ by cases hdecided.symm.trans hm.2⟩
      | badPeer =>
        have hgood : ¬ a.Good := fun hg ↦ by cases hdecided.symm.trans hg.2
        exact hfail hunconnected hgood _ (h.next hgood rfl rfl
          (iff_of_true rfl (.inr ⟨hunconnected, hdecided⟩)))
      | failed =>
        have hgood : ¬ a.Good := fun hg ↦ by cases hdecided.symm.trans hg.2
        exact hfail hunconnected hgood _ (h.next hgood rfl rfl
          ⟨.inl, fun hor ↦ hor.resolve_right fun hm ↦ by cases hdecided.symm.trans hm.2⟩)

end Holds

/-- **When a peer is forgotten**: whatever the attempts, a peer is forgotten exactly when one of
them connects without verifying it after so many attempts in a row, ten for a peer that was
verified and never found bad, three for any other. While it is known, its counter is the number of
attempts since the last one that verified it. -/
theorem monitor_forgets {attempts : List PeerAttempt} (hnow : ∀ a ∈ attempts, a.now ≠ 0) :
    (monitor attempts = none ↔ ∃ before, before <+: attempts ∧ Forgets before) ∧
      ∀ p, monitor attempts = some p → p.Holds attempts := by
  induction attempts using List.reverseRecOn with
  | nil =>
    refine ⟨iff_of_false (fun heq ↦ by cases heq) ?_, fun p hp ↦ ?_⟩
    · rintro ⟨before, hprefix, a, ha, -⟩
      rw [List.prefix_nil.mp hprefix] at ha
      cases ha
    · cases hp
      exact ⟨rfl, by simp, by simp⟩
  | append_singleton attempts a ih =>
    obtain ⟨hnone, hsome⟩ := ih fun b hb ↦ hnow b (List.mem_append_left _ hb)
    have hrun : monitor (attempts ++ [a]) = (monitor attempts).bind (attempt · a) := by
      simp [monitor]
    have hsplit : (∃ before, before <+: attempts ++ [a] ∧ Forgets before) ↔
        (∃ before, before <+: attempts ∧ Forgets before) ∨ Forgets (attempts ++ [a]) := by
      simp only [List.prefix_concat_iff, or_and_right, exists_or, exists_eq_left, or_comm]
    rw [hrun, hsplit, ← hnone]
    cases hp : monitor attempts with
    | none => exact ⟨iff_of_true rfl (.inl rfl), fun q hq ↦ by cases hq⟩
    | some p =>
      have hstep := (hsome p hp).attempt (hnow a List.mem_concat_self)
      refine ⟨hstep.1.trans ⟨.inr, fun hor ↦ hor.resolve_left fun heq ↦ by cases heq⟩, hstep.2⟩

/-- A peer that is verified and then never reached again. -/
def sampleAttempts : List PeerAttempt :=
  ⟨false, [.failed, .verified], 100⟩ :: List.replicate 10 ⟨false, [.failed, .failed], 200⟩

theorem sampleAttempts_forgets : monitor sampleAttempts = none := by
  have hnow : ∀ a ∈ sampleAttempts, a.now ≠ 0 := by
    intro a ha
    rcases List.mem_cons.mp ha with rfl | ha
    · decide
    · rw [List.eq_of_mem_replicate ha]
      decide
  exact (monitor_forgets hnow).1.mpr ⟨sampleAttempts, List.prefix_rfl,
    ⟨false, [.failed, .failed], 200⟩, rfl, by decide, by decide, by decide⟩

end MonitoredPeer
end ElectrumX.Server
