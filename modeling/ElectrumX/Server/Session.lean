import ElectrumX.Server.Mempool
import ElectrumX.Server.SessionManager

/-!
# The subscriptions and queries of a session

The model of `hashX_subscribe` and `_notify_inner` in `server/session.py` for one session, and of
`hashX_listunspent` and `get_balance` between which nothing happens.
Handlers and notify tasks run interleaved: a status is computed from the confirmed history and
then the mempool, and sent at some later step. The alias of a script hash is left out, and a
status stands for its hash.
-/

namespace ElectrumX.Server
open ElectrumX.Base ElectrumX.Lib

/-- What the status of a script hash is the hash of, `session.py:1175–1182`: the confirmed
history, and the mempool transactions with whether they have unconfirmed inputs. The empty one
is `None`. -/
structure Status where
  history : TxHistory := []
  mempool : List (Hash32 × Bool) := []
  deriving DecidableEq

/-- A dictionary assignment, but for the order: the entry comes first, where a dictionary keeps the
place of a key that it has and appends another. Only the order in which the script hashes are gone
over and sent differs. -/
def assign {α : Type} (d : List (HashX × α)) (hashX : HashX) (v : α) : List (HashX × α) :=
  (hashX, v) :: d.filter fun e ↦ e.1 ≠ hashX

/-- The handlers and notify tasks, between awaits. -/
inductive SessionTask where
  /-- `hashX_subscribe`, before the history is read. -/
  | subscribe (hashX : HashX)
  | subscribeHistory (hashX : HashX) (history : TxHistory)
  /-- The status has been computed. -/
  | subscribed (hashX : HashX) (status : Status)
  /-- The subscription has been stored. -/
  | reply (hashX : HashX) (status : Status)
  /-- `notify` has been spawned. -/
  | notify (touched : List HashX) (heightChanged : Bool)
  /-- The loop over the touched script hashes. -/
  | first (todo : List HashX) (reading : Option (HashX × TxHistory))
      (changed : List (HashX × Status))
  /-- The loop over the script hashes with mempool transactions. -/
  | second (todo : List (HashX × Status)) (reading : Option (HashX × Status × TxHistory))
      (changed : List (HashX × Status))
  | send (changed : List (HashX × Status))

/-- A session with what the server and the client know. `changed` has the script hashes whose
status has changed since the last notification was spawned. -/
structure Session where
  confirmed : HashX → TxHistory
  summaries : HashX → List (Hash32 × Bool)
  hashXSubs : Finset HashX := ∅
  mempoolStatuses : List (HashX × Status) := []
  client : HashX → Option Status := fun _ ↦ none
  changed : Finset HashX := ∅
  tasks : List SessionTask := []

/-- What happens between awaits. -/
inductive SessionEvent where
  /-- The server's state changes. -/
  | change (histories : List (HashX × TxHistory)) (summaries : List (HashX × List (Hash32 × Bool)))
  | subscribe (hashX : HashX)
  | notify (touched : List HashX) (heightChanged : Bool)
  /-- A task runs to its next await. -/
  | run (i : Nat)

/-- The status that a task is about to store a subscription with, or to send. -/
def SessionTask.outgoing : SessionTask → Option (HashX × Status)
  | .subscribed hashX status | .reply hashX status | .send ((hashX, status) :: _) =>
    some (hashX, status)
  | _ => none

namespace Session

/-- The status that the current state gives. -/
def status (s : Session) (hashX : HashX) : Status := ⟨s.confirmed hashX, s.summaries hashX⟩

/-- The status of `address_status` once the history has been read, `session.py:1173–1190`. -/
def addressStatus (s : Session) (hashX : HashX) (history : TxHistory) : Status :=
  ⟨history, s.summaries hashX⟩

/-- The status is kept while there are mempool transactions, `session.py:1192–1195`. -/
def keepStatus (s : Session) (hashX : HashX) (status : Status) : Session :=
  { s with
    mempoolStatuses := if status.mempool ≠ [] then assign s.mempoolStatuses hashX status
      else s.mempoolStatuses.filter fun e ↦ e.1 ≠ hashX }

/-- `unsubscribe_hashX`, `session.py:1094–1096`. -/
def unsubscribeHashX (s : Session) (hashX : HashX) : Session :=
  { s with
    hashXSubs := s.hashXSubs.erase hashX
    mempoolStatuses := s.mempoolStatuses.filter fun e ↦ e.1 ≠ hashX }

/-- The client receives a status. -/
def receive (s : Session) (hashX : HashX) (status : Status) : Session :=
  { s with client := Function.update s.client hashX (some status) }

/-- The next step of a task, `session.py:1109–1143,1198–1226`; a task that is done is `none`. -/
def runTask (limit : Nat) (s : Session) : SessionTask → Session × Option SessionTask
  | .subscribe hashX =>
    match limitedResult limit (s.confirmed hashX) with
    | .error _ => (s, none)
    | .ok history => (s, some (.subscribeHistory hashX history))
  | .subscribeHistory hashX history =>
    let status := s.addressStatus hashX history
    (s.keepStatus hashX status, some (.subscribed hashX status))
  | .subscribed hashX status =>
    ({ s with hashXSubs := insert hashX s.hashXSubs }, some (.reply hashX status))
  | .reply hashX status => (s.receive hashX status, none)
  | .notify touched heightChanged =>
    let touched := touched.filter (· ∈ s.hashXSubs)
    if touched ≠ [] ∨ heightChanged ∧ s.mempoolStatuses ≠ [] then (s, some (.first touched none []))
    else (s, none)
  | .first [] none changed => (s, some (.second s.mempoolStatuses none changed))
  | .first (hashX :: rest) none changed =>
    if hashX ∈ s.hashXSubs then
      match limitedResult limit (s.confirmed hashX) with
      | .error _ => (s.unsubscribeHashX hashX, some (.first rest none (assign changed hashX {})))
      | .ok history => (s, some (.first rest (some (hashX, history)) changed))
    else (s, some (.first rest none changed))
  | .first todo (some (hashX, history)) changed =>
    let status := s.addressStatus hashX history
    (s.keepStatus hashX status, some (.first todo none (assign changed hashX status)))
  | .second [] none changed => (s, some (.send changed))
  | .second ((hashX, oldStatus) :: rest) none changed =>
    if hashX ∈ s.hashXSubs then
      match limitedResult limit (s.confirmed hashX) with
      | .error _ => (s.unsubscribeHashX hashX, some (.second rest none
          (if ({} : Status) ≠ oldStatus then assign changed hashX {} else changed)))
      | .ok history => (s, some (.second rest (some (hashX, oldStatus, history)) changed))
    else (s, some (.second rest none changed))
  | .second todo (some (hashX, oldStatus, history)) changed =>
    let status := s.addressStatus hashX history
    (s.keepStatus hashX status, some (.second todo none
      (if status ≠ oldStatus then assign changed hashX status else changed)))
  | .send [] => (s, none)
  | .send ((hashX, status) :: rest) => (s.receive hashX status, some (.send rest))

/-- One step, if it can be taken. -/
def step (limit : Nat) (s : Session) : SessionEvent → Option Session
  | .change histories summaries =>
    let confirmed := fun x ↦ (histories.lookup x).getD (s.confirmed x)
    let summaries' := fun x ↦ (summaries.lookup x).getD (s.summaries x)
    some { s with
      confirmed := confirmed
      summaries := summaries'
      changed := s.changed ∪
        (histories.map Prod.fst ++ summaries.map Prod.fst).toFinset.filter fun x ↦
          (⟨confirmed x, summaries' x⟩ : Status) ≠ s.status x }
  | .subscribe hashX => some { s with tasks := s.tasks ++ [.subscribe hashX] }
  | .notify touched heightChanged =>
    if ∀ x ∈ s.changed, x ∈ touched then
      some { s with changed := ∅, tasks := s.tasks ++ [.notify touched heightChanged] }
    else none
  | .run i => do
    let task ← s.tasks[i]?
    let (s', task') := s.runTask limit task
    return { s' with tasks := s.tasks.take i ++ task'.toList ++ s.tasks.drop (i + 1) }

/-- The states that are reached without subscriptions at the start. The guard may restrict the
steps. -/
def Run (limit : Nat) (guard : Session → SessionEvent → Prop) (s : Session) : Prop :=
  ∃ confirmed summaries, Reach (step limit) guard { confirmed, summaries } s

/-- No handler and no notify task is in progress, and every change has been notified. -/
def Quiescent (s : Session) : Prop := s.changed = ∅ ∧ s.tasks = []

/-! ### What is due -/

/-- A task will compute the status of a script hash anew, or has its current one to send. -/
def TaskDue (s : Session) (hashX : HashX) : SessionTask → Prop
  | .reply x status => x = hashX ∧ status = s.status hashX
  | .notify touched _ => hashX ∈ touched
  | .first todo reading changed => hashX ∈ todo ∨ reading = some (hashX, s.confirmed hashX) ∨
      changed.lookup hashX = some (s.status hashX) ∧ ∀ history, reading ≠ some (hashX, history)
  | .second _ reading changed => changed.lookup hashX = some (s.status hashX) ∧
      ∀ old history, reading = some (hashX, old, history) → history = s.confirmed hashX
  | .send changed => changed.lookup hashX = some (s.status hashX)
  | _ => False

/-- The current status of a script hash is still to be sent, by one of some tasks or after the
next notification. -/
def Due (s : Session) (tasks : List SessionTask) (hashX : HashX) : Prop :=
  hashX ∈ s.changed ∨ ∃ t ∈ tasks, s.TaskDue hashX t

/-- An outdated status is sent, and a subscription with an outdated status is stored, only while
the current status is due from elsewhere. -/
def SendsInTime (s : Session) : SessionEvent → Prop
  | .run i => ∀ t ∈ s.tasks[i]?, ∀ sent ∈ t.outgoing,
      sent.2 = s.status sent.1 ∨ s.Due (s.tasks.eraseIdx i) sent.1
  | _ => True

instance (s : Session) (hashX : HashX) : DecidablePred (s.TaskDue hashX)
  | .reply _ _ => inferInstanceAs (Decidable (_ ∧ _))
  | .notify touched _ => inferInstanceAs (Decidable (hashX ∈ touched))
  | .first todo reading changed => decidable_of_iff (hashX ∈ todo ∨
      reading = some (hashX, s.confirmed hashX) ∨
      changed.lookup hashX = some (s.status hashX) ∧ ∀ r ∈ reading, r.1 ≠ hashX) <| by
    simp only [TaskDue, Prod.forall, Option.mem_def]
    exact or_congr_right (or_congr_right (and_congr_right' ⟨fun h history hr ↦ h _ _ hr rfl,
      fun h x history hr he ↦ h history (he ▸ hr)⟩))
  | .second _ reading changed => decidable_of_iff (changed.lookup hashX = some (s.status hashX) ∧
      ∀ r ∈ reading, r.1 = hashX → r.2.2 = s.confirmed hashX) <| by
    simp only [TaskDue, Prod.forall, Option.mem_def]
    exact and_congr_right' ⟨fun h old history hr ↦ h _ _ _ hr rfl,
      fun h x old history hr he ↦ h old history (he ▸ hr)⟩
  | .send changed => inferInstanceAs (Decidable (changed.lookup hashX = some (s.status hashX)))
  | .subscribe _ | .subscribeHistory _ _ | .subscribed _ _ => isFalse id

instance (s : Session) (tasks : List SessionTask) (hashX : HashX) : Decidable (s.Due tasks hashX) :=
  inferInstanceAs (Decidable (_ ∨ _))

instance (s : Session) : DecidablePred s.SendsInTime
  | .change _ _ | .subscribe _ | .notify _ _ => isTrue trivial
  | .run i => inferInstanceAs (Decidable (∀ t ∈ s.tasks[i]?, ∀ sent ∈ t.outgoing, _))

/-- The client has the current status of every subscription, or it is due. -/
def Informed (s : Session) : Prop :=
  ∀ hashX ∈ s.hashXSubs, s.client hashX = some (s.status hashX) ∨ s.Due s.tasks hashX

section Steps

variable {limit : Nat} {s s' : Session} {hashX : HashX}

@[simp] theorem lookup_assign_self {α : Type} (d : List (HashX × α)) (x : HashX) (v : α) :
    (assign d x v).lookup x = some v := List.lookup_cons_self

private theorem lookup_filter_ne {α : Type} (d : List (HashX × α)) {x y : HashX} (h : x ≠ y) :
    (d.filter fun e ↦ e.1 ≠ y).lookup x = d.lookup x := by
  induction d with
  | nil => rfl
  | cons e d ih =>
    obtain ⟨k, w⟩ := e
    by_cases hk : k = y
    · subst hk
      rw [List.filter_cons_of_neg (by simp), List.lookup_cons, beq_false_of_ne h]
      exact ih
    · rw [List.filter_cons_of_pos (by simpa using hk), List.lookup_cons, List.lookup_cons, ih]

theorem lookup_assign_of_ne {α : Type} (d : List (HashX × α)) {x y : HashX} (v : α)
    (h : x ≠ y) : (assign d y v).lookup x = d.lookup x := by
  rw [assign, List.lookup_cons, beq_false_of_ne h]
  exact lookup_filter_ne d h

/-- A task leaves what the server knows alone. -/
theorem runTask_same (limit : Nat) (s : Session) (t : SessionTask) :
    (s.runTask limit t).1.confirmed = s.confirmed ∧ (s.runTask limit t).1.summaries = s.summaries ∧
      (s.runTask limit t).1.changed = s.changed := by
  fun_cases runTask limit s t <;> exact ⟨rfl, rfl, rfl⟩

/-- Only a reply and a notification reach the client. -/
theorem runTask_client (limit : Nat) (s : Session) (t : SessionTask) (hashX : HashX) :
    (s.runTask limit t).1.client hashX = s.client hashX ∨ ∃ status,
      (t = .reply hashX status ∨ ∃ rest, t = .send ((hashX, status) :: rest)) ∧
      (s.runTask limit t).1.client hashX = some status := by
  have hreceive (x : HashX) (v : Status) : (s.receive x v).client hashX = s.client hashX ∨
      x = hashX ∧ (s.receive x v).client hashX = some v := by
    by_cases he : hashX = x
    · subst he
      exact .inr ⟨rfl, Function.update_self ..⟩
    · exact .inl (Function.update_of_ne he ..)
  fun_cases runTask limit s t
  all_goals try exact .inl rfl
  case case5 x v =>
    rcases hreceive x v with h | ⟨rfl, h⟩
    · exact .inl h
    · exact .inr ⟨v, .inl rfl, h⟩
  case case19 x v rest =>
    rcases hreceive x v with h | ⟨rfl, h⟩
    · exact .inl h
    · exact .inr ⟨v, .inr ⟨rest, rfl⟩, h⟩

/-- Only a handler adds a subscription. -/
theorem runTask_hashXSubs (limit : Nat) (s : Session) (t : SessionTask)
    (h : hashX ∈ (s.runTask limit t).1.hashXSubs) :
    hashX ∈ s.hashXSubs ∨ ∃ status, t = .subscribed hashX status := by
  revert h
  fun_cases runTask limit s t
  all_goals try exact .inl
  case case4 x v =>
    intro h
    rcases Finset.mem_insert.mp h with rfl | h
    · exact .inr ⟨v, rfl⟩
    · exact .inl h
  all_goals exact fun h ↦ .inl (Finset.mem_of_mem_erase h)

theorem taskDue_congr {t : SessionTask} (he : s'.status hashX = s.status hashX) :
    s'.TaskDue hashX t ↔ s.TaskDue hashX t := by
  have hc : s'.confirmed hashX = s.confirmed hashX := congrArg Status.history he
  unfold TaskDue
  rw [hc, he]

/-- A status that was kept or computed for another script hash leaves the lookup alone. -/
private theorem lookup_ite_assign {changed : List (HashX × Status)} {y : HashX}
    {status oldStatus v : Status} (h : changed.lookup hashX = some v)
    (hv : hashX = y → status = v) :
    (if status ≠ oldStatus then assign changed y status else changed).lookup hashX = some v := by
  split
  · by_cases he : hashX = y
    · subst he
      rw [lookup_assign_self, hv rfl]
    · rw [lookup_assign_of_ne _ _ he, h]
  · exact h

/-- A task whose script hash stays subscribed comes nearer to sending its current status. -/
theorem runTask_due (limit : Nat) (s : Session) (t : SessionTask) (h : s.TaskDue hashX t)
    (hs : hashX ∈ (s.runTask limit t).1.hashXSubs) :
    (∃ t', (s.runTask limit t).2 = some t' ∧ s.TaskDue hashX t') ∨
      (s.runTask limit t).1.client hashX = some (s.status hashX) := by
  revert hs h
  fun_cases runTask limit s t
  all_goals intro h hs
  all_goals try exact h.elim
  case case5 y status =>
    obtain ⟨rfl, rfl⟩ := h
    exact .inr (Function.update_self ..)
  case case6 touched heightChanged filtered hne =>
    have hmem : hashX ∈ filtered := List.mem_filter.mpr ⟨h, decide_eq_true hs⟩
    exact .inl ⟨_, rfl, .inl hmem⟩
  case case7 touched heightChanged filtered hne =>
    have hmem : hashX ∈ filtered := List.mem_filter.mpr ⟨h, decide_eq_true hs⟩
    exact absurd (.inl (List.ne_nil_of_mem hmem)) hne
  case case8 changed =>
    rcases h with h | h | ⟨h, -⟩
    · cases h
    · cases h
    · exact .inl ⟨_, rfl, h, fun _ _ he ↦ by cases he⟩
  case case9 y rest changed hy e he =>
    have hne : hashX ≠ y := Finset.ne_of_mem_erase hs
    refine .inl ⟨_, rfl, ?_⟩
    rcases h with h | h | ⟨h, -⟩
    · exact .inl (List.mem_of_ne_of_mem hne h)
    · cases h
    · exact .inr (.inr ⟨(lookup_assign_of_ne _ _ hne).trans h, fun _ he ↦ by cases he⟩)
  case case10 y rest changed hy history hhistory =>
    have hread : history = s.confirmed y := SessionManager.eq_of_limitedResult hhistory
    refine .inl ⟨_, rfl, ?_⟩
    by_cases he : hashX = y
    · subst he
      exact .inr (.inl (by rw [hread]))
    · rcases h with h | h | ⟨h, -⟩
      · exact .inl (List.mem_of_ne_of_mem he h)
      · cases h
      · refine .inr (.inr ⟨h, fun _ hr ↦ ?_⟩)
        cases hr
        exact he rfl
  case case11 y rest changed hy =>
    have hne : hashX ≠ y := fun he ↦ hy (he ▸ hs)
    refine .inl ⟨_, rfl, ?_⟩
    rcases h with h | h | h
    · exact .inl (List.mem_of_ne_of_mem hne h)
    · cases h
    · exact .inr (.inr h)
  case case12 todo y history changed status =>
    refine .inl ⟨_, rfl, ?_⟩
    rcases h with h | h | ⟨h, hne⟩
    · exact .inl h
    · cases h
      exact .inr (.inr ⟨lookup_assign_self .., fun _ hr ↦ by cases hr⟩)
    · refine .inr (.inr ⟨?_, fun _ hr ↦ by cases hr⟩)
      rw [lookup_assign_of_ne _ _ fun he ↦ hne history (by rw [he]), h]
  case case13 changed => exact .inl ⟨_, rfl, h.1⟩
  case case14 y oldStatus rest changed hy e he =>
    have hne : hashX ≠ y := Finset.ne_of_mem_erase hs
    exact .inl ⟨_, rfl, lookup_ite_assign h.1 fun he ↦ absurd he hne, fun _ _ hr ↦ by cases hr⟩
  case case15 y oldStatus rest changed hy history hhistory =>
    refine .inl ⟨_, rfl, h.1, fun _ _ hr ↦ ?_⟩
    cases hr
    exact SessionManager.eq_of_limitedResult hhistory
  case case16 y oldStatus rest changed hy => exact .inl ⟨_, rfl, h⟩
  case case17 todo y oldStatus history changed status =>
    refine .inl ⟨_, rfl, lookup_ite_assign h.1 fun he ↦ ?_, fun _ _ hr ↦ by cases hr⟩
    subst he
    change s.addressStatus hashX history = s.status hashX
    rw [h.2 oldStatus history rfl]
    rfl
  case case18 => cases h
  case case19 y status rest =>
    change List.lookup hashX ((y, status) :: rest) = _ at h
    rw [List.lookup_cons] at h
    by_cases he : hashX = y
    · subst he
      rw [beq_self_eq_true] at h
      cases h
      exact .inr (Function.update_self ..)
    · rw [beq_false_of_ne he] at h
      exact .inl ⟨_, rfl, h⟩

theorem Due.mono {tasks tasks' : List SessionTask} (h : s.Due tasks hashX)
    (he : s'.status hashX = s.status hashX) (hc : s.changed ⊆ s'.changed)
    (ht : ∀ t ∈ tasks, t ∈ tasks') : s'.Due tasks' hashX := by
  rcases h with h | ⟨t, hmem, h⟩
  · exact .inl (hc h)
  · exact .inr ⟨t, ht t hmem, (taskDue_congr he).mpr h⟩

private theorem informed_change (h : s.Informed) {histories : List (HashX × TxHistory)}
    {summaries : List (HashX × List (Hash32 × Bool))}
    (hs : s.step limit (.change histories summaries) = some s') : s'.Informed := by
  cases hs
  intro x hx
  by_cases he : s.status x = ⟨(histories.lookup x).getD (s.confirmed x),
      (summaries.lookup x).getD (s.summaries x)⟩
  · rcases h x hx with h | h
    · exact .inl (h.trans (congrArg some he))
    · exact .inr (h.mono he.symm Finset.subset_union_left fun _ ↦ id)
  · refine .inr (.inl (Finset.mem_union_right _ (Finset.mem_filter.mpr ⟨?_, Ne.symm he⟩)))
    rw [List.mem_toFinset, List.mem_append]
    by_contra hnot
    obtain ⟨hh, hm⟩ := not_or.mp hnot
    have hnone {α : Type} {d : List (HashX × α)} (hd : x ∉ d.map Prod.fst) :
        d.lookup x = none := by
      rw [List.lookup_eq_none_iff]
      intro e hmem
      simp only [ne_eq, bne_iff_ne]
      rintro rfl
      exact hd (List.mem_map_of_mem hmem)
    apply he
    rw [hnone hh, hnone hm]
    rfl

private theorem informed_notify (h : s.Informed) {touched : List HashX} {heightChanged : Bool}
    (hs : s.step limit (.notify touched heightChanged) = some s') : s'.Informed := by
  simp only [step] at hs
  split at hs
  · next hsub =>
    cases hs
    intro x hx
    rcases h x hx with h | h | ⟨t, hmem, h⟩
    · exact .inl h
    · exact .inr (.inr ⟨_, List.mem_append_right _ List.mem_cons_self, hsub x h⟩)
    · exact .inr (.inr ⟨t, List.mem_append_left _ hmem, h⟩)
  · cases hs

/-- A task runs to its next await, and the other tasks stay. -/
theorem step_run {i : Nat} (hs : s.step limit (.run i) = some s') : ∃ t, s.tasks[i]? = some t ∧
    s' = { (s.runTask limit t).1 with
      tasks := s.tasks.take i ++ (s.runTask limit t).2.toList ++ s.tasks.drop (i + 1) } := by
  simp only [step] at hs
  cases ht : s.tasks[i]? with
  | none =>
    rw [ht] at hs
    cases hs
  | some t =>
    rw [ht] at hs
    cases hs
    exact ⟨t, rfl, rfl⟩

private theorem informed_run (h : s.Informed) {i : Nat} (hg : s.SendsInTime (.run i))
    (hs : s.step limit (.run i) = some s') : s'.Informed := by
  obtain ⟨t, ht, hs'⟩ := step_run hs
  obtain ⟨hconfirmed, hsummaries, hchanged⟩ := runTask_same limit s t
  have hstatus (x : HashX) : s'.status x = s.status x := by
    rw [hs', status, status]
    change (⟨(s.runTask limit t).1.confirmed x, (s.runTask limit t).1.summaries x⟩ : Status) = _
    rw [hconfirmed, hsummaries]
  have hchanged' : s.changed ⊆ s'.changed := by
    rw [hs']
    exact hchanged.ge
  have hothers (t' : SessionTask) (hmem : t' ∈ s.tasks.eraseIdx i) : t' ∈ s'.tasks := by
    rw [List.eraseIdx_eq_take_drop_succ, List.mem_append] at hmem
    rw [hs', List.mem_append, List.mem_append]
    exact hmem.imp .inl id
  have hnext (t' : SessionTask) (he : (s.runTask limit t).2 = some t') : t' ∈ s'.tasks := by
    rw [hs', he]
    simp
  -- What is due from the other tasks stays due.
  have hdue (x : HashX) (hd : s.Due (s.tasks.eraseIdx i) x) : s'.Due s'.tasks x :=
    hd.mono (hstatus x) hchanged' hothers
  intro x hx
  have hx' : x ∈ (s.runTask limit t).1.hashXSubs := by rwa [hs'] at hx
  have hclient : s'.client x = (s.runTask limit t).1.client x := by rw [hs']
  rcases runTask_hashXSubs limit s t hx' with hsub | ⟨status, rfl⟩
  · rcases h x hsub with hcur | hd | ⟨t', hmem, hd⟩
    · rcases runTask_client limit s t x with he | ⟨status, htask, he⟩
      · exact .inl (by rw [hclient, he, hcur, hstatus])
      · have hg' : status = s.status x ∨ s.Due (s.tasks.eraseIdx i) x := by
          rcases htask with rfl | ⟨rest, rfl⟩ <;> exact hg _ ht _ rfl
        rcases hg' with rfl | hd
        · exact .inl (by rw [hclient, he, hstatus])
        · exact .inr (hdue x hd)
    · exact .inr (.inl (hchanged' hd))
    · by_cases he : t' ∈ s.tasks.eraseIdx i
      · exact .inr (hdue x (.inr ⟨t', he, hd⟩))
      · have htt : t' = t := by
          rw [List.mem_eraseIdx_iff_getElem?] at he
          obtain ⟨j, hj⟩ := List.mem_iff_getElem?.mp hmem
          by_contra hne
          refine he ⟨j, ?_, hj⟩
          rintro rfl
          exact hne (Option.some.inj (hj.symm.trans ht))
        subst htt
        rcases runTask_due limit s t' hd hx' with ⟨t'', hrun, hd'⟩ | hsent
        · exact .inr (.inr ⟨t'', hnext t'' hrun, (taskDue_congr (hstatus x)).mpr hd'⟩)
        · exact .inl (by rw [hclient, hsent, hstatus])
  · rcases hg _ ht _ rfl with hcur | hd
    · refine .inr (.inr ⟨_, hnext _ rfl, (taskDue_congr (hstatus x)).mpr ⟨rfl, hcur⟩⟩)
    · exact .inr (hdue x hd)

/-- A step that sends in time keeps the client informed. -/
theorem Informed.step (h : s.Informed) {e : SessionEvent} (hg : s.SendsInTime e)
    (hs : s.step limit e = some s') : s'.Informed := by
  cases e with
  | change histories summaries => exact informed_change h hs
  | subscribe hashX =>
    cases hs
    intro x hx
    exact (h x hx).imp id fun hd ↦
      hd.mono rfl (Finset.Subset.refl _) fun _ ↦ List.mem_append_left _
  | notify touched heightChanged => exact informed_notify h hs
  | run i => exact informed_run h hg hs

end Steps

theorem Run.informed {limit : Nat} {s : Session} (r : Run limit SendsInTime s) : s.Informed := by
  obtain ⟨confirmed, summaries, r⟩ := r
  refine r.invariant ?_ fun _ _ _ h hg hs ↦ h.step hg hs
  intro x hx
  cases hx

/-- In a run that sends in time the client has the current status of every subscription whenever
no handler and no notify task is in progress. -/
theorem Run.client_current {limit : Nat} {s : Session} (r : Run limit SendsInTime s)
    (hq : s.Quiescent) {hashX : HashX} (h : hashX ∈ s.hashXSubs) :
    s.client hashX = some (s.status hashX) := by
  obtain ⟨hchanged, htasks⟩ := hq
  rcases r.informed hashX h with hc | hm | ⟨t, hmem, -⟩
  · exact hc
  · rw [hchanged] at hm
    cases hm
  · rw [htasks] at hmem
    cases hmem

/-! ### A sample session -/

def sampleSession : Session where
  confirmed := fun _ ↦ []
  summaries := fun _ ↦ []

/-- A script hash is subscribed to and then has a new transaction, which is notified. -/
theorem sampleSession_informed : ∃ s, runEvents (step 10) SendsInTime sampleSession
      ([.subscribe (sampleHashX 1), .run 0, .run 0, .run 0, .run 0,
        .change [(sampleHashX 1, [(SessionManager.sampleTxid, 5)])] [],
        .notify [sampleHashX 1] true] ++ List.replicate 7 (.run 0)) = some s ∧
    s.client (sampleHashX 1) = some (s.status (sampleHashX 1)) := by
  obtain ⟨s, hs, hc, ht, hm⟩ : ∃ s ∈ runEvents (step 10) SendsInTime sampleSession
      ([.subscribe (sampleHashX 1), .run 0, .run 0, .run 0, .run 0,
        .change [(sampleHashX 1, [(SessionManager.sampleTxid, 5)])] [],
        .notify [sampleHashX 1] true] ++ List.replicate 7 (.run 0)),
      s.changed = ∅ ∧ s.tasks.length = 0 ∧ sampleHashX 1 ∈ s.hashXSubs := by decide +kernel
  have r : Run 10 SendsInTime s := ⟨fun _ ↦ [], fun _ ↦ [], Reach.refl.runEvents hs⟩
  exact ⟨s, hs, r.client_current ⟨hc, List.eq_nil_of_length_eq_zero ht⟩ hm⟩

/-- A status is computed, and changed before the subscription is stored: the notification of the
change does not find the subscription. -/
theorem not_client_current : ¬ ∀ (limit : Nat) (s : Session), Run limit (fun _ _ ↦ True) s →
    s.Quiescent → ∀ hashX ∈ s.hashXSubs, s.client hashX = some (s.status hashX) := by
  intro h
  obtain ⟨s, hs, hc, ht, hm, hne⟩ : ∃ s ∈ runEvents (step 10) (fun _ _ ↦ True) sampleSession
      [.subscribe (sampleHashX 1), .run 0,
        .change [(sampleHashX 1, [(SessionManager.sampleTxid, 5)])] [],
        .notify [sampleHashX 1] true, .run 1, .run 0, .run 0, .run 0],
      s.changed = ∅ ∧ s.tasks.length = 0 ∧ sampleHashX 1 ∈ s.hashXSubs ∧
      s.client (sampleHashX 1) ≠ some (s.status (sampleHashX 1)) := by decide +kernel
  have r : Run 10 (fun _ _ ↦ True) s := ⟨fun _ ↦ [], fun _ ↦ [], Reach.refl.runEvents hs⟩
  exact hne (h 10 s r ⟨hc, List.eq_nil_of_length_eq_zero ht⟩ _ hm)

end Session

/-! ### Queries -/

end ElectrumX.Server
