import ElectrumX.Base.OrderedDict
import ElectrumX.Lib.Util
import Mathlib.Algebra.BigOperators.Group.Finset.Basic
import Mathlib.Algebra.Order.Field.Rat
import Mathlib.Logic.Function.Basic
import Mathlib.Tactic.Ring

/-!
# Session groups

The model of the session groups of `server/session.py`: sessions from one subnet share a group,
which keeps the cost of those that have gone. A group is an object to which the manager and the
sessions refer, and which is dropped once nothing is left of it. Costs are rationals; what a session
spends is an event.
-/

namespace ElectrumX.Server
open ElectrumX.Base ElectrumX.Lib

/-- `SessionGroup`, `session.py:97–108`. -/
structure SessionGroup where
  name : String
  weight : ℚ
  sessions : Finset Nat
  retainedCost : ℚ

/-- The attributes of `SessionManager` that concern groups, the groups that were made, by their
references, and the cost of each session. -/
structure SessionGroups where
  sessions : OrderedDict Nat (List Nat) := .empty
  sessionGroups : OrderedDict String Nat := .empty
  objects : Nat → SessionGroup := fun _ ↦ ⟨"", 1, ∅, 0⟩
  allocated : Nat := 0
  cost : Nat → ℚ := fun _ ↦ 0

namespace SessionGroups

/-- An assignment to the attributes of a group. -/
def modify (m : SessionGroups) (r : Nat) (f : SessionGroup → SessionGroup) : SessionGroups :=
  { m with objects := Function.update m.objects r (f (m.objects r)) }

/-- A new group, registered under its name. -/
def register (m : SessionGroups) (name : String) (weight : ℚ) : SessionGroups :=
  { m with
    objects := Function.update m.objects m.allocated ⟨name, weight, ∅, 0⟩
    allocated := m.allocated + 1
    sessionGroups := m.sessionGroups.set name m.allocated }

/-- `_session_group`, `session.py:853–860`. -/
def sessionGroup (m : SessionGroups) (name : Option String) (weight : ℚ) :
    Option Nat × SessionGroups :=
  match name with
  | none => (none, m)
  | some name =>
    match m.sessionGroups.get? name with
    | some r => (some r, m)
    | none => (some m.allocated, m.register name weight)

/-- `add_session`, `session.py:862–871`, with the group name of the session's address. -/
def addSession (m : SessionGroups) (session : Nat) (name : Option String) : SessionGroups :=
  let (group, m) := m.sessionGroup name 1
  let m := { m with sessions := m.sessions.set session group.toList }
  group.toList.foldl
    (fun m r ↦ m.modify r fun g ↦ { g with sessions := insert session g.sessions }) m

/-- The body of the loop of `remove_session`, `session.py:878–879`. -/
def leaveGroup (session : Nat) (m : SessionGroups) (r : Nat) : Except PyError SessionGroups :=
  let m := m.modify r fun g ↦ { g with retainedCost := g.retainedCost + m.cost session }
  if session ∈ (m.objects r).sessions then
    .ok (m.modify r fun g ↦ { g with sessions := g.sessions.erase session })
  else .error .keyError

/-- `remove_session`, `session.py:873–879`. -/
def removeSession (m : SessionGroups) (session : Nat) : Except PyError SessionGroups :=
  match m.sessions.get? session with
  | none => .error .keyError
  | some groups =>
    groups.foldlM (leaveGroup session) { m with sessions := m.sessions.erase session }

/-- A group after a refund. -/
def refunded (refund : ℚ) (g : SessionGroup) : SessionGroup :=
  { g with retainedCost := max 0 (g.retainedCost - refund) }

/-- Nothing is left of a group. -/
def Dead (g : SessionGroup) : Prop := g.retainedCost = 0 ∧ g.sessions = ∅

instance : DecidablePred Dead := fun _ ↦ inferInstanceAs (Decidable (_ ∧ _))

/-- The body of the first loop of `_recalc_concurrency`, `session.py:304–307`. -/
def refundGroup (refund : ℚ) (acc : SessionGroups × List Nat) (r : Nat) :
    SessionGroups × List Nat :=
  let m := acc.1.modify r (refunded refund)
  (m, if Dead (m.objects r) then acc.2 ++ [r] else acc.2)

/-- The body of the loop over the dead groups, `session.py:309–310`. -/
def popGroup (m : SessionGroups) (r : Nat) : Except PyError SessionGroups :=
  let name := (m.objects r).name
  if name ∈ m.sessionGroups.keys then
    .ok { m with sessionGroups := m.sessionGroups.erase name }
  else .error .keyError

/-- The groups in `_recalc_concurrency`, `session.py:301–310`. -/
def recalcGroups (m : SessionGroups) (refund : ℚ) : Except PyError SessionGroups :=
  let (m, deadGroups) :=
    (m.sessionGroups.entries.map Prod.snd).foldl (refundGroup refund) (m, [])
  deadGroups.foldlM popGroup m

/-- `SessionGroup.session_cost`, `session.py:104`. -/
def sessionCost (m : SessionGroups) (group : SessionGroup) : ℚ := ∑ s ∈ group.sessions, m.cost s

/-- `SessionGroup.cost`, `session.py:107`. -/
def groupCost (m : SessionGroups) (group : SessionGroup) : ℚ :=
  group.retainedCost + m.sessionCost group

/-- `extra_cost`, `session.py:689–696`. -/
def extraCost (m : SessionGroups) (session : Nat) : ℚ :=
  match m.sessions.get? session with
  | none => 0
  | some groups =>
    (groups.map fun r ↦
      (m.groupCost (m.objects r) - m.cost session) * (m.objects r).weight).sum

end SessionGroups

/-- What happens to the sessions. -/
inductive SessionsEvent where
  | connected (session : Nat)
  | disconnected (session : Nat)
  /-- A session has spent, or what it spent has decayed. -/
  | spent (session : Nat) (cost : ℚ)
  /-- The periodic refund. -/
  | refunded (refund : ℚ)

/-- A step of the manager; `names` gives the group name of each session's address. -/
def SessionGroups.step (names : Nat → Option String) (m : SessionGroups) :
    SessionsEvent → Except PyError SessionGroups
  | .connected session => .ok (m.addSession session (names session))
  | .disconnected session => m.removeSession session
  | .spent session cost => .ok { m with cost := Function.update m.cost session cost }
  | .refunded refund => m.recalcGroups refund

/-! ### The accounts -/

/-- The sessions that are connected, what each has spent, and what is retained for each subnet. -/
structure Accounts where
  live : Finset Nat := ∅
  cost : Nat → ℚ := fun _ ↦ 0
  retained : String → ℚ := fun _ ↦ 0

namespace Accounts

/-- The cost of a session that leaves is retained for its subnet, and refunds take from all. -/
def step (names : Nat → Option String) (l : Accounts) : SessionsEvent → Accounts
  | .connected session => { l with live := insert session l.live }
  | .disconnected session =>
    { l with
      live := l.live.erase session
      retained := fun n ↦
        if names session = some n then l.retained n + l.cost session else l.retained n }
  | .spent session cost => { l with cost := Function.update l.cost session cost }
  | .refunded refund => { l with retained := fun n ↦ max 0 (l.retained n - refund) }

/-- A session disconnects when it is connected, and refunds are not negative. -/
def Admits (l : Accounts) : SessionsEvent → Prop
  | .connected _ => True
  | .disconnected session => session ∈ l.live
  | .spent _ _ => True
  | .refunded refund => 0 ≤ refund

/-- What a session is charged for its subnet: what is retained, and what the other sessions have
spent. -/
def extraCost (names : Nat → Option String) (l : Accounts) (session : Nat) : ℚ :=
  match names session with
  | none => 0
  | some n => l.retained n + ∑ s ∈ l.live.filter (fun s ↦ names s = some n ∧ s ≠ session), l.cost s

end Accounts

/-! ### The loops of a refund -/

namespace SessionGroups

/-- The first loop refunds the groups it goes over and collects those of which nothing is left. -/
theorem foldl_refundGroup (refund : ℚ) {rs : List Nat} (hrs : rs.Nodup) (m : SessionGroups)
    (dead : List Nat) : rs.foldl (refundGroup refund) (m, dead) =
      ({ m with objects := fun r ↦ if r ∈ rs then refunded refund (m.objects r) else m.objects r },
        dead ++ rs.filter fun r ↦ Dead (refunded refund (m.objects r))) := by
  induction rs generalizing m dead with
  | nil => simp only [List.foldl_nil, List.not_mem_nil, if_false, List.filter_nil, List.append_nil]
  | cons r rs ih =>
    obtain ⟨hr, hrs⟩ := List.nodup_cons.mp hrs
    have hsame {r' : Nat} (hne : r' ≠ r) :
        (m.modify r (refunded refund)).objects r' = m.objects r' := Function.update_of_ne hne ..
    have hself : (m.modify r (refunded refund)).objects r = refunded refund (m.objects r) :=
      Function.update_self ..
    have hobjects : (fun r' ↦ if r' ∈ rs then
          refunded refund ((m.modify r (refunded refund)).objects r')
        else (m.modify r (refunded refund)).objects r') =
        fun r' ↦ if r' ∈ r :: rs then refunded refund (m.objects r') else m.objects r' := by
      funext r'
      by_cases heq : r' = r
      · rw [heq, if_neg hr, if_pos List.mem_cons_self, hself]
      · rw [hsame heq]
        simp only [List.mem_cons, heq, false_or]
    have hfilter : (rs.filter fun r' ↦
          Dead (refunded refund ((m.modify r (refunded refund)).objects r'))) =
        rs.filter fun r' ↦ Dead (refunded refund (m.objects r')) := by
      apply List.filter_congr
      intro r' hr'
      rw [hsame fun heq ↦ hr (heq ▸ hr')]
    rw [List.foldl_cons, refundGroup, ih hrs, hobjects, hfilter, hself, List.filter_cons]
    congr 1
    by_cases hdead : Dead (refunded refund (m.objects r))
    · rw [if_pos hdead, if_pos (decide_eq_true hdead), List.append_assoc]
      rfl
    · rw [if_neg hdead, if_neg fun h ↦ hdead (of_decide_eq_true h)]

/-- The second loop pops the dead groups and no others. -/
theorem foldlM_popGroup {dead : List Nat} (hdead : dead.Nodup) (m : SessionGroups)
    (hname : ∀ n r, m.sessionGroups.get? n = some r → (m.objects r).name = n)
    (hregistered : ∀ r ∈ dead, ∃ n, m.sessionGroups.get? n = some r) :
    ∃ d, dead.foldlM popGroup m = .ok { m with sessionGroups := d } ∧
      ∀ n, d.get? n = (m.sessionGroups.get? n).filter fun r ↦ r ∉ dead := by
  induction dead generalizing m with
  | nil =>
    refine ⟨m.sessionGroups, rfl, fun n ↦ ?_⟩
    cases m.sessionGroups.get? n <;> rfl
  | cons r dead ih =>
    obtain ⟨hr, hdead⟩ := List.nodup_cons.mp hdead
    obtain ⟨⟨n, hn⟩, hregistered⟩ := List.forall_mem_cons.mp hregistered
    have hpop : popGroup m r = .ok { m with sessionGroups := m.sessionGroups.erase n } := by
      rw [popGroup, hname n r hn]
      exact if_pos (OrderedDict.mem_keys_iff.mpr ⟨r, hn⟩)
    have hkept {n' : String} {r' : Nat} (h : m.sessionGroups.get? n' = some r') (hne : r' ≠ r) :
        (m.sessionGroups.erase n).get? n' = some r' := by
      rw [OrderedDict.get?_erase, if_neg, h]
      intro heq
      rw [heq, hn] at h
      exact hne (Option.some.inj h).symm
    have hstill : ∀ r' ∈ dead, ∃ n', (m.sessionGroups.erase n).get? n' = some r' := by
      intro r' hr'
      obtain ⟨n', hn'⟩ := hregistered r' hr'
      exact ⟨n', hkept hn' fun heq ↦ hr (heq ▸ hr')⟩
    have hname' : ∀ n' r', (m.sessionGroups.erase n).get? n' = some r' →
        (m.objects r').name = n' := by
      intro n' r' h
      rw [OrderedDict.get?_erase] at h
      split at h
      · cases h
      · exact hname n' r' h
    obtain ⟨d, hd, hget⟩ :=
      ih hdead { m with sessionGroups := m.sessionGroups.erase n } hname' hstill
    refine ⟨d, ?_, fun n' ↦ ?_⟩
    · rw [List.foldlM_cons, hpop]
      exact hd
    · rw [hget n']
      cases hn' : m.sessionGroups.get? n' with
      | none =>
        rw [OrderedDict.get?_erase, hn', ite_self]
        rfl
      | some r' =>
        by_cases hne : r' = r
        · subst hne
          have heq : n' = n := (hname n' r' hn').symm.trans (hname n r' hn)
          rw [OrderedDict.get?_erase, if_pos heq]
          simp [Option.filter]
        · rw [hkept hn' hne]
          simp [Option.filter, hne]

end SessionGroups

/-! ### The groups keep the accounts -/

/-- The group of a subnet, as the accounts have it. -/
def Accounts.group (names : Nat → Option String) (l : Accounts) (n : String) : SessionGroup :=
  ⟨n, 1, l.live.filter fun s ↦ names s = some n, l.retained n⟩

section Group

variable {names : Nat → Option String} {l : Accounts} {session : Nat} {n : String}

theorem Accounts.group_connected_of_eq (h : names session = some n) :
    (l.step names (.connected session)).group names n =
      { l.group names n with sessions := insert session (l.group names n).sessions } := by
  rw [group, step, group, Finset.filter_insert, if_pos h]

theorem Accounts.group_connected_of_ne (h : names session ≠ some n) :
    (l.step names (.connected session)).group names n = l.group names n := by
  rw [group, step, group, Finset.filter_insert, if_neg h]

theorem Accounts.group_disconnected_of_eq (h : names session = some n) :
    (l.step names (.disconnected session)).group names n =
      { l.group names n with
        sessions := (l.group names n).sessions.erase session
        retainedCost := (l.group names n).retainedCost + l.cost session } := by
  rw [group, step, group]
  dsimp only
  rw [if_pos h, Finset.filter_erase]

theorem Accounts.group_disconnected_of_ne (h : names session ≠ some n) :
    (l.step names (.disconnected session)).group names n = l.group names n := by
  rw [group, step, group]
  dsimp only
  have hnot : session ∉ l.live.filter fun s ↦ names s = some n := fun hs ↦
    h (Finset.mem_filter.mp hs).2
  rw [if_neg h, Finset.filter_erase, Finset.erase_eq_of_notMem hnot]

end Group

/-- The manager keeps the accounts: a group that is registered holds what is retained for its subnet
and exactly the sessions from there; where none is registered nothing is retained and no session is
connected. -/
structure KeepsAccounts (names : Nat → Option String) (m : SessionGroups) (l : Accounts) :
    Prop where
  allocated_lt : ∀ n r, m.sessionGroups.get? n = some r → r < m.allocated
  group_eq : ∀ n r, m.sessionGroups.get? n = some r → m.objects r = l.group names n
  retained_zero : ∀ n, m.sessionGroups.get? n = none → l.retained n = 0
  gone : ∀ s ∉ l.live, m.sessions.get? s = none
  groupless : ∀ s ∈ l.live, names s = none → m.sessions.get? s = some []
  grouped : ∀ s ∈ l.live, ∀ n, names s = some n →
    ∃ r, m.sessionGroups.get? n = some r ∧ m.sessions.get? s = some [r]
  cost_eq : m.cost = l.cost

namespace KeepsAccounts

variable {names : Nat → Option String} {m : SessionGroups} {l : Accounts} {session r : Nat}
  {n : String}

/-- Different names have different groups. -/
theorem ref_inj (h : KeepsAccounts names m l) {n' : String} (hn : m.sessionGroups.get? n = some r)
    (hn' : m.sessionGroups.get? n' = some r) : n = n' := by
  have hname := congrArg SessionGroup.name ((h.group_eq n r hn).symm.trans (h.group_eq n' r hn'))
  exact hname

theorem empty : KeepsAccounts names {} {} where
  allocated_lt := fun _ _ h ↦ by cases h
  group_eq := fun _ _ h ↦ by cases h
  retained_zero := fun _ _ ↦ rfl
  gone := fun _ _ ↦ rfl
  groupless := fun s hs ↦ absurd hs (Finset.notMem_empty s)
  grouped := fun s hs ↦ absurd hs (Finset.notMem_empty s)
  cost_eq := rfl

/-- A new group is that of a subnet from which no session is connected. -/
theorem register (h : KeepsAccounts names m l) (hn : m.sessionGroups.get? n = none) :
    KeepsAccounts names (m.register n 1) l := by
  have hnone (s : Nat) (hs : s ∈ l.live) : names s ≠ some n := by
    intro hname
    obtain ⟨r, hr, -⟩ := h.grouped s hs n hname
    rw [hn] at hr
    cases hr
  refine ⟨fun n' r hr ↦ ?_, fun n' r hr ↦ ?_, fun n' hr ↦ ?_, h.gone, h.groupless, ?_, h.cost_eq⟩
  · rw [SessionGroups.register, OrderedDict.get?_set] at hr
    split at hr
    · cases hr
      exact Nat.lt_succ_self _
    · exact Nat.lt_succ_of_lt (h.allocated_lt n' r hr)
  · rw [SessionGroups.register, OrderedDict.get?_set] at hr
    rw [SessionGroups.register]
    dsimp only
    split at hr
    · next heq =>
      cases hr
      rw [Function.update_self, heq, Accounts.group, Finset.filter_false_of_mem hnone,
        h.retained_zero n hn]
    · rw [Function.update_of_ne (h.allocated_lt n' r hr).ne, h.group_eq n' r hr]
  · rw [SessionGroups.register, OrderedDict.get?_set] at hr
    split at hr
    · cases hr
    · exact h.retained_zero n' hr
  · intro s hs n' hname
    obtain ⟨r, hr, hsession⟩ := h.grouped s hs n' hname
    refine ⟨r, ?_, hsession⟩
    have hne : n' ≠ n := fun heq ↦ hnone s hs (heq ▸ hname)
    rw [SessionGroups.register, OrderedDict.get?_set, if_neg hne, hr]

/-- The group of a subnet is there or is made. -/
theorem sessionGroup (h : KeepsAccounts names m l) (n : String) :
    ∃ r m', m.sessionGroup (some n) 1 = (some r, m') ∧ m'.sessionGroups.get? n = some r ∧
      KeepsAccounts names m' l := by
  cases hn : m.sessionGroups.get? n with
  | some r => exact ⟨r, m, by simp only [SessionGroups.sessionGroup, hn], hn, h⟩
  | none =>
    refine ⟨_, _, by simp only [SessionGroups.sessionGroup, hn]; rfl, ?_, h.register hn⟩
    rw [SessionGroups.register, OrderedDict.get?_set, if_pos rfl]

/-- A group that is registered is the only one that an assignment to it changes. -/
theorem modify_objects (h : KeepsAccounts names m l) (hr : m.sessionGroups.get? n = some r)
    (f : SessionGroup → SessionGroup) {n' : String} {r' : Nat}
    (hr' : m.sessionGroups.get? n' = some r') :
    Function.update m.objects r (f (m.objects r)) r' =
      if n' = n then f (l.group names n) else l.group names n' := by
  split
  · next heq =>
    subst heq
    cases hr.symm.trans hr'
    rw [Function.update_self, h.group_eq n' r hr]
  · next hne =>
    rw [Function.update_of_ne, h.group_eq n' r' hr']
    intro heq
    subst heq
    exact hne (h.ref_inj hr' hr)

theorem connected (h : KeepsAccounts names m l) (session : Nat) :
    KeepsAccounts names (m.addSession session (names session))
      (l.step names (.connected session)) := by
  cases hname : names session with
  | none =>
    -- no group is concerned
    have hne (n : String) : names session ≠ some n := by
      intro heq
      rw [hname] at heq
      cases heq
    have hadd : m.addSession session none = { m with sessions := m.sessions.set session [] } := rfl
    rw [hadd]
    refine ⟨h.allocated_lt, fun n r hr ↦ ?_, h.retained_zero, fun s hs ↦ ?_, fun s hs hs' ↦ ?_,
      fun s hs n hs' ↦ ?_, h.cost_eq⟩
    · rw [h.group_eq n r hr, Accounts.group_connected_of_ne (hne n)]
    · have hs := mt Finset.mem_insert.mpr hs
      rw [not_or] at hs
      rw [OrderedDict.get?_set, if_neg hs.1, h.gone s hs.2]
    · rw [OrderedDict.get?_set]
      split
      · rfl
      · next hne => exact h.groupless s (Finset.mem_of_mem_insert_of_ne hs hne) hs'
    · have hne : s ≠ session := fun heq ↦ by
        rw [heq, hname] at hs'
        cases hs'
      obtain ⟨r, hr, hsession⟩ := h.grouped s (Finset.mem_of_mem_insert_of_ne hs hne) n hs'
      exact ⟨r, hr, by rw [OrderedDict.get?_set, if_neg hne, hsession]⟩
  | some n =>
    obtain ⟨r, m', hgroup, hr, h⟩ := h.sessionGroup n
    have hadd : m.addSession session (some n) =
        { m' with sessions := m'.sessions.set session [r] }.modify r
          fun g ↦ { g with sessions := insert session g.sessions } := by
      rw [SessionGroups.addSession, hgroup]
      rfl
    rw [hadd]
    refine ⟨h.allocated_lt, fun n' r' hr' ↦ ?_, h.retained_zero, fun s hs ↦ ?_, fun s hs hs' ↦ ?_,
      fun s hs n' hs' ↦ ?_, h.cost_eq⟩
    · refine (h.modify_objects hr (fun g ↦ { g with sessions := insert session g.sessions })
        hr').trans ?_
      split
      · next heq =>
        rw [heq, Accounts.group_connected_of_eq hname]
      · next hne =>
        have hne : names session ≠ some n' := fun heq ↦
          hne (Option.some.inj (heq.symm.trans hname))
        rw [Accounts.group_connected_of_ne hne]
    · have hs := mt Finset.mem_insert.mpr hs
      rw [not_or] at hs
      change (m'.sessions.set session [r]).get? s = none
      rw [OrderedDict.get?_set, if_neg hs.1, h.gone s hs.2]
    · have hne : s ≠ session := fun heq ↦ by
        rw [heq, hname] at hs'
        cases hs'
      change (m'.sessions.set session [r]).get? s = some []
      rw [OrderedDict.get?_set, if_neg hne]
      exact h.groupless s (Finset.mem_of_mem_insert_of_ne hs hne) hs'
    · change ∃ r', m'.sessionGroups.get? n' = some r' ∧
        (m'.sessions.set session [r]).get? s = some [r']
      rw [OrderedDict.get?_set]
      split
      · next heq =>
        rw [heq, hname] at hs'
        cases hs'
        exact ⟨r, hr, rfl⟩
      · next hne => exact h.grouped s (Finset.mem_of_mem_insert_of_ne hs hne) n' hs'

theorem disconnected (h : KeepsAccounts names m l) (hlive : session ∈ l.live) :
    ∃ m', m.removeSession session = .ok m' ∧
      KeepsAccounts names m' (l.step names (.disconnected session)) := by
  have hother {s : Nat} (hs : s ∈ l.live.erase session) :
      (m.sessions.erase session).get? s = m.sessions.get? s := by
    rw [OrderedDict.get?_erase, if_neg (Finset.ne_of_mem_erase hs)]
  have hgone : ∀ s ∉ l.live.erase session, (m.sessions.erase session).get? s = none := by
    intro s hs
    rw [OrderedDict.get?_erase]
    split
    · rfl
    · next hne => exact h.gone s fun hmem ↦ hs (Finset.mem_erase.mpr ⟨hne, hmem⟩)
  have hgroupless : ∀ s ∈ l.live.erase session, names s = none →
      (m.sessions.erase session).get? s = some [] := fun s hs hs' ↦
    (hother hs).trans (h.groupless s (Finset.mem_of_mem_erase hs) hs')
  have hgrouped : ∀ s ∈ l.live.erase session, ∀ n, names s = some n →
      ∃ r, m.sessionGroups.get? n = some r ∧ (m.sessions.erase session).get? s = some [r] := by
    intro s hs n hs'
    obtain ⟨r, hr, hsession⟩ := h.grouped s (Finset.mem_of_mem_erase hs) n hs'
    exact ⟨r, hr, (hother hs).trans hsession⟩
  cases hname : names session with
  | none =>
    have hne (n : String) : names session ≠ some n := by
      intro heq
      rw [hname] at heq
      cases heq
    have hremove : m.removeSession session =
        .ok { m with sessions := m.sessions.erase session } := by
      rw [SessionGroups.removeSession, h.groupless session hlive hname]
      rfl
    refine ⟨_, hremove, h.allocated_lt, fun n r hr ↦ ?_, fun n hr ↦ ?_, hgone, hgroupless,
      hgrouped, h.cost_eq⟩
    · rw [h.group_eq n r hr, Accounts.group_disconnected_of_ne (hne n)]
    · have hretained := congrArg SessionGroup.retainedCost
        (Accounts.group_disconnected_of_ne (l := l) (hne n))
      exact hretained.trans (h.retained_zero n hr)
  | some n =>
    obtain ⟨r, hr, hsession⟩ := h.grouped session hlive n hname
    let leave (g : SessionGroup) : SessionGroup :=
      { g with
        sessions := g.sessions.erase session
        retainedCost := g.retainedCost + l.cost session }
    have hremove : m.removeSession session =
        .ok ({ m with sessions := m.sessions.erase session }.modify r leave) := by
      have hmem : session ∈ (m.objects r).sessions := by
        rw [h.group_eq n r hr]
        exact Finset.mem_filter.mpr ⟨hlive, hname⟩
      rw [SessionGroups.removeSession, hsession]
      dsimp only
      rw [List.foldlM_cons, SessionGroups.leaveGroup]
      simp only [SessionGroups.modify, Function.update_self, if_pos hmem, Function.update_idem,
        h.cost_eq]
      rfl
    refine ⟨_, hremove, h.allocated_lt, fun n' r' hr' ↦ ?_, fun n' hr' ↦ ?_, hgone, hgroupless,
      hgrouped, h.cost_eq⟩
    · refine (h.modify_objects hr leave hr').trans ?_
      split
      · next heq => rw [heq, Accounts.group_disconnected_of_eq hname]
      · next hne =>
        have hne : names session ≠ some n' := fun heq ↦
          hne (Option.some.inj (heq.symm.trans hname))
        rw [Accounts.group_disconnected_of_ne hne]
    · have hne : names session ≠ some n' := by
        intro heq
        cases hname.symm.trans heq
        change m.sessionGroups.get? n = none at hr'
        rw [hr] at hr'
        cases hr'
      have hretained := congrArg SessionGroup.retainedCost
        (Accounts.group_disconnected_of_ne (l := l) hne)
      exact hretained.trans (h.retained_zero n' hr')

/-- The references of the registered groups. -/
theorem mem_refs : r ∈ m.sessionGroups.entries.map Prod.snd ↔
    ∃ n, m.sessionGroups.get? n = some r := by
  rw [List.mem_map]
  constructor
  · rintro ⟨⟨n, r'⟩, he, rfl⟩
    exact ⟨n, OrderedDict.mem_entries_iff.mp he⟩
  · rintro ⟨n, hn⟩
    exact ⟨(n, r), OrderedDict.mem_entries_iff.mpr hn, rfl⟩

theorem nodup_refs (h : KeepsAccounts names m l) :
    (m.sessionGroups.entries.map Prod.snd).Nodup := by
  refine List.Nodup.map_on ?_ m.sessionGroups.entries_nodup
  rintro ⟨n, r⟩ he ⟨n', r'⟩ he' heq
  dsimp only at heq
  subst heq
  rw [h.ref_inj (OrderedDict.mem_entries_iff.mp he) (OrderedDict.mem_entries_iff.mp he')]

/-- A refund takes from what is retained for each subnet, and drops exactly the groups of which
nothing is left. -/
theorem refunded (h : KeepsAccounts names m l) {refund : ℚ} (hrefund : 0 ≤ refund) :
    ∃ m', m.recalcGroups refund = .ok m' ∧
      KeepsAccounts names m' (l.step names (.refunded refund)) ∧
      ∀ n, n ∈ m'.sessionGroups.keys ↔ n ∈ m.sessionGroups.keys ∧
        ¬SessionGroups.Dead ((l.step names (.refunded refund)).group names n) := by
  have hgroup (n : String) : (l.step names (.refunded refund)).group names n =
      SessionGroups.refunded refund (l.group names n) := rfl
  have hloop := SessionGroups.foldl_refundGroup refund h.nodup_refs m []
  let objects (r : Nat) : SessionGroup :=
    if r ∈ m.sessionGroups.entries.map Prod.snd then SessionGroups.refunded refund (m.objects r)
    else m.objects r
  let dead := (m.sessionGroups.entries.map Prod.snd).filter fun r ↦
    SessionGroups.Dead (SessionGroups.refunded refund (m.objects r))
  have hobjects {n : String} {r : Nat} (hn : m.sessionGroups.get? n = some r) :
      objects r = (l.step names (.refunded refund)).group names n := by
    rw [hgroup, ← h.group_eq n r hn]
    exact if_pos (mem_refs.mpr ⟨n, hn⟩)
  have hdead {n : String} {r : Nat} (hn : m.sessionGroups.get? n = some r) :
      r ∈ dead ↔ SessionGroups.Dead ((l.step names (.refunded refund)).group names n) := by
    rw [List.mem_filter, hgroup, ← h.group_eq n r hn]
    exact ⟨fun hmem ↦ of_decide_eq_true hmem.2, fun hd ↦
      ⟨mem_refs.mpr ⟨n, hn⟩, decide_eq_true hd⟩⟩
  obtain ⟨d, hpop, hget⟩ := SessionGroups.foldlM_popGroup (h.nodup_refs.filter _)
    { m with objects := objects }
    (fun n r hn ↦ congrArg SessionGroup.name (hobjects hn))
    (fun r hr ↦ mem_refs.mp (List.mem_of_mem_filter hr))
  have hsome {n : String} {r : Nat} (hn : d.get? n = some r) :
      m.sessionGroups.get? n = some r ∧ r ∉ dead := by
    rw [hget n, Option.filter_eq_some_iff] at hn
    exact ⟨hn.1, of_decide_eq_true hn.2⟩
  have hstill {n : String} {r : Nat} (hn : m.sessionGroups.get? n = some r) (hr : r ∉ dead) :
      d.get? n = some r := by
    rw [hget n, Option.filter_eq_some_iff]
    exact ⟨hn, decide_eq_true hr⟩
  have hkeep : KeepsAccounts names { m with objects := objects, sessionGroups := d }
      (l.step names (.refunded refund)) := by
    refine ⟨fun n r hn ↦ h.allocated_lt n r (hsome hn).1, fun n r hn ↦ hobjects (hsome hn).1,
      fun n hn ↦ ?_, h.gone, h.groupless, fun s hs n hname ↦ ?_, h.cost_eq⟩
    · cases hr : m.sessionGroups.get? n with
      | none =>
        change max 0 (l.retained n - refund) = 0
        rw [h.retained_zero n hr, zero_sub]
        exact max_eq_left (neg_nonpos.mpr hrefund)
      | some r =>
        by_contra hne
        have hr' : r ∉ dead := fun hmem ↦ hne ((hdead hr).mp hmem).1
        have hfound := hstill hr hr'
        rw [show d.get? n = none from hn] at hfound
        cases hfound
    · obtain ⟨r, hr, hsession⟩ := h.grouped s hs n hname
      refine ⟨r, hstill hr fun hmem ↦ ?_, hsession⟩
      have hempty := ((hdead hr).mp hmem).2
      exact Finset.notMem_empty s (hempty ▸ Finset.mem_filter.mpr ⟨hs, hname⟩)
  refine ⟨_, ?_, hkeep, fun n ↦ ?_⟩
  · rw [SessionGroups.recalcGroups, hloop]
    exact hpop
  · rw [OrderedDict.mem_keys_iff, OrderedDict.mem_keys_iff]
    constructor
    · rintro ⟨r, hn⟩
      obtain ⟨hn, hr⟩ := hsome hn
      exact ⟨⟨r, hn⟩, fun hd ↦ hr ((hdead hn).mpr hd)⟩
    · rintro ⟨⟨r, hn⟩, hd⟩
      exact ⟨r, hstill hn fun hr ↦ hd ((hdead hn).mp hr)⟩

/-- Every step of the manager keeps the accounts. -/
theorem step (h : KeepsAccounts names m l) {e : SessionsEvent} (he : l.Admits e) :
    ∃ m', m.step names e = .ok m' ∧ KeepsAccounts names m' (l.step names e) := by
  cases e with
  | connected session => exact ⟨_, rfl, h.connected session⟩
  | disconnected session => exact h.disconnected he
  | spent session cost =>
    refine ⟨_, rfl, h.allocated_lt, h.group_eq, h.retained_zero, h.gone, h.groupless, h.grouped, ?_⟩
    exact congrArg (Function.update · session cost) h.cost_eq
  | refunded refund =>
    obtain ⟨m', hm', hkeep, -⟩ := h.refunded he
    exact ⟨m', hm', hkeep⟩

/-- What a session is charged is what the accounts have. -/
theorem extraCost_eq (h : KeepsAccounts names m l) (hlive : session ∈ l.live) :
    m.extraCost session = l.extraCost names session := by
  rw [SessionGroups.extraCost, Accounts.extraCost]
  cases hname : names session with
  | none =>
    rw [h.groupless session hlive hname]
    rfl
  | some n =>
    obtain ⟨r, hr, hsession⟩ := h.grouped session hlive n hname
    have hmem : session ∈ l.live.filter fun s ↦ names s = some n :=
      Finset.mem_filter.mpr ⟨hlive, hname⟩
    have hothers : (l.live.filter fun s ↦ names s = some n ∧ s ≠ session) =
        (l.live.filter fun s ↦ names s = some n).erase session := by
      ext s
      simp only [Finset.mem_filter, Finset.mem_erase]
      exact ⟨fun hs ↦ ⟨hs.2.2, hs.1, hs.2.1⟩, fun hs ↦ ⟨hs.2.1, hs.2.2, hs.1⟩⟩
    have hsum := Finset.add_sum_erase _ l.cost hmem
    rw [hsession]
    dsimp only
    rw [hothers, List.map_singleton, List.sum_singleton, SessionGroups.groupCost,
      SessionGroups.sessionCost, h.group_eq n r hr, h.cost_eq, Accounts.group]
    dsimp only
    rw [← hsum, mul_one]
    ring

end KeepsAccounts

/-! ### Runs -/

namespace Accounts

variable {names : Nat → Option String} {l : Accounts}

/-- Events that are admitted one after the other. -/
def AdmitsAll (names : Nat → Option String) (l : Accounts) : List SessionsEvent → Prop
  | [] => True
  | e :: es => l.Admits e ∧ (l.step names e).AdmitsAll names es

def run (names : Nat → Option String) (l : Accounts) (es : List SessionsEvent) : Accounts :=
  es.foldl (step names) l

/-- A session that leaves charges the others as much as before. -/
theorem extraCost_disconnected {session s : Nat} (hlive : session ∈ l.live) (hne : s ≠ session) :
    (l.step names (.disconnected session)).extraCost names s = l.extraCost names s := by
  rw [extraCost, extraCost]
  cases names s with
  | none => rfl
  | some n =>
    rw [step]
    dsimp only
    rw [Finset.filter_erase]
    split
    · next hname =>
      have hmem : session ∈ l.live.filter fun s' ↦ names s' = some n ∧ s' ≠ s :=
        Finset.mem_filter.mpr ⟨hlive, hname, hne.symm⟩
      rw [add_assoc, Finset.add_sum_erase _ l.cost hmem]
    · next hname =>
      rw [Finset.erase_eq_of_notMem fun hmem ↦ hname (Finset.mem_filter.mp hmem).2.1]

end Accounts

section Runs

variable {names : Nat → Option String}

theorem KeepsAccounts.run {m : SessionGroups} {l : Accounts} (h : KeepsAccounts names m l)
    {es : List SessionsEvent} (hes : l.AdmitsAll names es) :
    ∃ m', es.foldlM (SessionGroups.step names) m = .ok m' ∧
      KeepsAccounts names m' (l.run names es) := by
  induction es generalizing m l with
  | nil => exact ⟨m, rfl, h⟩
  | cons e es ih =>
    obtain ⟨m', hstep, h⟩ := h.step hes.1
    obtain ⟨m'', hrun, h⟩ := ih h hes.2
    refine ⟨m'', ?_, h⟩
    rw [List.foldlM_cons, hstep]
    exact hrun

/-- **Sessions are charged for their subnets**: however sessions connect, spend, disconnect and are
refunded, no step fails, and a session that is connected is charged what is retained of the sessions
that have left its subnet and what the others from there have spent, although groups are dropped and
made anew; and when a session leaves, the others are charged as much as before. -/
theorem runs_charge {es : List SessionsEvent} (hes : ({} : Accounts).AdmitsAll names es) :
    ∃ m, es.foldlM (SessionGroups.step names) {} = .ok m ∧
      (∀ s ∈ (({} : Accounts).run names es).live,
        m.extraCost s = (({} : Accounts).run names es).extraCost names s) ∧
      (∀ s ∉ (({} : Accounts).run names es).live, m.extraCost s = 0) ∧
      ∀ session ∈ (({} : Accounts).run names es).live, ∃ m',
        m.step names (.disconnected session) = .ok m' ∧
        ∀ s ∈ (({} : Accounts).run names es).live, s ≠ session →
          m'.extraCost s = m.extraCost s := by
  obtain ⟨m, hm, h⟩ := KeepsAccounts.empty.run hes
  refine ⟨m, hm, fun s hs ↦ h.extraCost_eq hs, fun s hs ↦ ?_, fun session hsession ↦ ?_⟩
  · rw [SessionGroups.extraCost, h.gone s hs]
  · obtain ⟨m', hm', h'⟩ := h.disconnected hsession
    refine ⟨m', hm', fun s hs hne ↦ ?_⟩
    have hlive : s ∈
        (Accounts.step names (({} : Accounts).run names es) (.disconnected session)).live :=
      Finset.mem_erase.mpr ⟨hne, hs⟩
    rw [h'.extraCost_eq hlive, Accounts.extraCost_disconnected hsession hne, h.extraCost_eq hs]

/-- **No group outlives its use**: after a refund the manager has a group for exactly those subnets
from which a session is connected or for which something is retained. -/
theorem runs_drop {es : List SessionsEvent} (hes : ({} : Accounts).AdmitsAll names es) {refund : ℚ}
    (hrefund : 0 ≤ refund) :
    ∃ m m', es.foldlM (SessionGroups.step names) {} = .ok m ∧
      m.step names (.refunded refund) = .ok m' ∧
      ∀ n, n ∈ m'.sessionGroups.keys ↔
        ((({} : Accounts).run names es).step names (.refunded refund)).retained n ≠ 0 ∨
        ∃ s ∈ (({} : Accounts).run names es).live, names s = some n := by
  obtain ⟨m, hm, h⟩ := KeepsAccounts.empty.run hes
  obtain ⟨m', hm', h', hkeys⟩ := h.refunded hrefund
  refine ⟨m, m', hm, hm', fun n ↦ ⟨fun hn ↦ ?_, fun hused ↦ ?_⟩⟩
  · have halive := ((hkeys n).mp hn).2
    by_contra hunused
    obtain ⟨hzero, hnone⟩ := not_or.mp hunused
    refine halive ⟨not_not.mp hzero, Finset.filter_eq_empty_iff.mpr fun s hs hname ↦ ?_⟩
    exact hnone ⟨s, hs, hname⟩
  · by_contra hn
    have hget := OrderedDict.get?_eq_none.mpr hn
    rcases hused with hretained | ⟨s, hs, hname⟩
    · exact hretained (h'.retained_zero n hget)
    · obtain ⟨r, hr, -⟩ := h'.grouped s hs n hname
      rw [hget] at hr
      cases hr

/-- Two sessions from one subnet, of which the first leaves. -/
def sampleSessions : List SessionsEvent :=
  [.connected 1, .connected 2, .spent 1 30, .spent 2 4, .disconnected 1]

def sampleNames (_ : Nat) : Option String := some "10.0.0.0/24"

theorem sampleSessions_admitted : ({} : Accounts).AdmitsAll sampleNames sampleSessions := by
  have hlive : 1 ∈ insert 2 (insert 1 (∅ : Finset Nat)) := by decide
  exact ⟨trivial, trivial, trivial, trivial, hlive, trivial⟩

theorem sampleSessions_charge : ∃ m,
    sampleSessions.foldlM (SessionGroups.step sampleNames) {} = .ok m ∧
    (∀ s ∈ (({} : Accounts).run sampleNames sampleSessions).live,
      m.extraCost s = (({} : Accounts).run sampleNames sampleSessions).extraCost sampleNames s) ∧
    (∀ s ∉ (({} : Accounts).run sampleNames sampleSessions).live, m.extraCost s = 0) ∧
    ∀ session ∈ (({} : Accounts).run sampleNames sampleSessions).live, ∃ m',
      m.step sampleNames (.disconnected session) = .ok m' ∧
      ∀ s ∈ (({} : Accounts).run sampleNames sampleSessions).live, s ≠ session →
        m'.extraCost s = m.extraCost s :=
  runs_charge sampleSessions_admitted

theorem sampleSessions_drop : ∃ m m',
    sampleSessions.foldlM (SessionGroups.step sampleNames) {} = .ok m ∧
    m.step sampleNames (.refunded 600) = .ok m' ∧
    ∀ n, n ∈ m'.sessionGroups.keys ↔
      ((({} : Accounts).run sampleNames sampleSessions).step sampleNames
        (.refunded 600)).retained n ≠ 0 ∨
      ∃ s ∈ (({} : Accounts).run sampleNames sampleSessions).live, sampleNames s = some n :=
  runs_drop sampleSessions_admitted (by norm_num)

example : (({} : Accounts).run sampleNames sampleSessions).extraCost sampleNames 2 = 30 := by
  decide +kernel

end Runs
end ElectrumX.Server
