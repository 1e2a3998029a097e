import Mathlib.Data.List.Lex
import Mathlib.Order.Bounds.Basic

/-!
# The version of a session

The model of `protocol_tuple`, `version_string` and `protocol_version` in `lib/util.py`, and of
`handle_request`, `server_version` and `set_request_handlers` in `server/session.py`. A version is
the tuple of its parts, in Python's order of tuples. Python's `int` of a text and the match with
`DROP_CLIENT` are parameters; costs, logging and the sending of the notifications are left out.
-/

namespace ElectrumX.Server

/-- The `protocol_version` that a client sends: `None`, a list of two values, or another value,
which is one version. A value that is not a string is `none`. -/
inductive VersionRequest where
  | missing
  | range (clientMin clientMax : Option String)
  | single (version : Option String)
deriving DecidableEq, Repr

/-- `protocol_tuple`, `util.py:272–279`. -/
def protocolTuple (pyInt : String → Option Int) : Option String → List Int
  | some s => (((s.toList.splitOn '.').map String.ofList).mapM pyInt).getD [0]
  | none => [0]

/-- `version_string`, `util.py:282–287`. -/
def versionString (ptuple : List Int) : String :=
  ".".intercalate ((ptuple ++ List.replicate (2 - ptuple.length) 0).map toString)

/-- `client_min` and `client_max` of `protocol_version`, `util.py:300–308`. -/
def clientRange (pyInt : String → Option Int) (minTuple : List Int) :
    VersionRequest → List Int × List Int
  | .missing => (minTuple, minTuple)
  | .range clientMin clientMax => (protocolTuple pyInt clientMin, protocolTuple pyInt clientMax)
  | .single version => (protocolTuple pyInt version, protocolTuple pyInt version)

/-- `protocol_version`, `util.py:290–313`. -/
def protocolVersion (pyInt : String → Option Int) (clientReq : VersionRequest)
    (minTuple maxTuple : List Int) : Option (List Int) × List Int :=
  let range := clientRange pyInt minTuple clientReq
  let result := min range.2 maxTuple
  (if result < max range.1 minTuple ∨ result = [0] then none else some result, range.1)

/-- The versions that both sides speak. -/
def commonVersions (pyInt : String → Option Int) (clientReq : VersionRequest)
    (minTuple maxTuple : List Int) : Set (List Int) :=
  Set.Icc (clientRange pyInt minTuple clientReq).1 (clientRange pyInt minTuple clientReq).2 ∩
    Set.Icc minTuple maxTuple

/-! ### The greatest common version -/

section Common

variable (pyInt : String → Option Int) (clientReq : VersionRequest) {minTuple maxTuple : List Int}

theorem isGreatest_commonVersions_iff {v : List Int} :
    IsGreatest (commonVersions pyInt clientReq minTuple maxTuple) v ↔
      v = min (clientRange pyInt minTuple clientReq).2 maxTuple ∧
        max (clientRange pyInt minTuple clientReq).1 minTuple ≤ v := by
  generalize hr : clientRange pyInt minTuple clientReq = r
  rw [commonVersions, hr]
  constructor
  · intro ⟨⟨⟨hlo, hhi⟩, hmin, hmax⟩, hub⟩
    have hlow : max r.1 minTuple ≤ v := max_le hlo hmin
    have htop : v ≤ min r.2 maxTuple := le_min hhi hmax
    have hmem : min r.2 maxTuple ∈ Set.Icc r.1 r.2 ∩ Set.Icc minTuple maxTuple :=
      ⟨⟨(le_max_left _ _).trans (hlow.trans htop), min_le_left _ _⟩,
        (le_max_right _ _).trans (hlow.trans htop), min_le_right _ _⟩
    exact ⟨le_antisymm htop (hub hmem), hlow⟩
  · intro ⟨hv, hlow⟩
    refine ⟨⟨⟨(le_max_left _ _).trans hlow, ?_⟩, (le_max_right _ _).trans hlow, ?_⟩, ?_⟩
    · rw [hv]
      exact min_le_left _ _
    · rw [hv]
      exact min_le_right _ _
    · intro w hw
      rw [hv]
      exact le_min hw.1.2 hw.2.2

/-- A version is negotiated exactly when it is the greatest one that both sides speak. -/
theorem protocolVersion_eq_some_iff (hmin : [0] < minTuple) {v : List Int} :
    (protocolVersion pyInt clientReq minTuple maxTuple).1 = some v ↔
      IsGreatest (commonVersions pyInt clientReq minTuple maxTuple) v := by
  rw [isGreatest_commonVersions_iff, protocolVersion]
  generalize clientRange pyInt minTuple clientReq = r
  constructor
  · intro h
    dsimp only at h
    split at h
    · cases h
    · next hn =>
      obtain rfl := Option.some.inj h
      exact ⟨rfl, not_lt.mp fun hlt ↦ hn (.inl hlt)⟩
  · intro ⟨hv, hlow⟩
    dsimp only
    rw [if_neg, hv]
    rintro (hlt | hzero)
    · exact absurd (hv ▸ hlow) (not_le.mpr hlt)
    · -- no version of the server is as low as the tuple of a bad version
      exact absurd ((le_max_right _ _).trans hlow) (not_le.mpr (by rwa [hv, hzero]))

theorem protocolVersion_eq_none_iff (hmin : [0] < minTuple) :
    (protocolVersion pyInt clientReq minTuple maxTuple).1 = none ↔
      ∀ v, ¬ IsGreatest (commonVersions pyInt clientReq minTuple maxTuple) v := by
  rw [Option.eq_none_iff_forall_ne_some]
  exact forall_congr' fun v ↦ not_congr (protocolVersion_eq_some_iff pyInt clientReq hmin)

/-- Where both sides speak a version, there is a greatest one. -/
theorem commonVersions_nonempty_iff :
    (commonVersions pyInt clientReq minTuple maxTuple).Nonempty ↔
      ∃ v, IsGreatest (commonVersions pyInt clientReq minTuple maxTuple) v := by
  constructor
  · rintro ⟨w, ⟨hlo, hhi⟩, hmin, hmax⟩
    exact ⟨_, (isGreatest_commonVersions_iff pyInt clientReq).mpr
      ⟨rfl, (max_le hlo hmin).trans (le_min hhi hmax)⟩⟩
  · rintro ⟨v, hv, -⟩
    exact ⟨v, hv⟩

end Common

/-! ### The session -/

/-- `PROTOCOL_MIN`, `session.py:1029`. -/
def protocolMin : List Int := [1, 4]

/-- `PROTOCOL_MAX`, `session.py:1030`. -/
def protocolMax : List Int := [1, 4, 3]

/-- The requests that `set_request_handlers` knows, `session.py:1625–1654`. -/
def requestHandlers (ptuple : List Int) : List String :=
  ["blockchain.block.header", "blockchain.block.headers", "blockchain.estimatefee",
    "blockchain.headers.subscribe", "blockchain.relayfee", "blockchain.scripthash.get_balance",
    "blockchain.scripthash.get_history", "blockchain.scripthash.get_mempool",
    "blockchain.scripthash.listunspent", "blockchain.scripthash.subscribe",
    "blockchain.transaction.broadcast", "blockchain.transaction.get",
    "blockchain.transaction.get_merkle", "blockchain.transaction.id_from_pos",
    "mempool.get_fee_histogram", "server.add_peer", "server.banner", "server.donation_address",
    "server.features", "server.peers.subscribe", "server.ping", "server.version"] ++
  (if [1, 4, 2] ≤ ptuple then ["blockchain.scripthash.unsubscribe"] else []) ++
  ["blockchain.transaction.broadcast_package"]

/-- The configuration that a handshake reads: Python's `int` of a text, the match with
`DROP_CLIENT`, `DROP_CLIENT_UNKNOWN` and the coin's `CRASH_CLIENT_VER`. -/
structure HandshakeEnv where
  pyInt : String → Option Int
  dropClient : String → Bool
  dropClientUnknown : Bool
  crashClientVer : Option (List Int)

/-- What a session answers. After `unsupportedClient`, `unsupportedVersion` and `unknownClient` it
disconnects. -/
inductive HandshakeReply where
  | version (text : String)
  | alreadySent
  | unsupportedClient (clientName : String)
  | unsupportedVersion (clientReq : VersionRequest)
  | unknownClient
  | methodNotFound
  | invoked (method : String)
deriving DecidableEq, Repr

/-- The part of `ElectrumX` that a handshake writes. A `server.version` that waits for the
notifications to an old client holds its protocol tuple and what was asked for. -/
structure Negotiation where
  svSeen : Bool := false
  client : String := "unknown"
  protocolTuple : List Int := protocolMin
  requestHandlers : List String := requestHandlers protocolMin
  waiting : Option (Option (List Int) × VersionRequest) := none

/-- The steps between awaits. -/
inductive HandshakeEvent where
  /-- A `server.version`, with `str` of the client name unless the name is false. -/
  | version (clientName : Option String) (clientReq : VersionRequest)
  /-- Another message, with its method if it is a request. -/
  | request (method : Option String)
  /-- The notifications to an old client are sent. -/
  | notified
  /-- Sending them fails. -/
  | notifyFailed
deriving DecidableEq, Repr

def HandshakeEvent.isVersion : HandshakeEvent → Bool
  | .version _ _ => true
  | _ => false

namespace Negotiation

variable (env : HandshakeEnv)

/-- The client's name in the session, `session.py:1462`. -/
def shortName (clientName : String) : String := String.ofList (clientName.toList.take 17)

/-- Whether `server_version` drops the client for its name, `session.py:1455–1458`. -/
def drops (clientName : Option String) : Bool := clientName.any env.dropClient

/-- Whether `crash_old_client` sends its notifications, `session.py:1482–1486`. -/
def crashes (client : String) (ptuple : Option (List Int)) : Bool :=
  env.crashClientVer.any fun crashVer ↦
    crashVer ≠ [] ∧ ptuple.all (· ≤ [1, 2]) ∧
      Server.protocolTuple env.pyInt (some client) ≠ [0] ∧
      Server.protocolTuple env.pyInt (some client) ≤ crashVer

/-- `set_request_handlers`, `session.py:1622–1656`. -/
def setRequestHandlers (s : Negotiation) (ptuple : List Int) : Negotiation :=
  { s with protocolTuple := ptuple, requestHandlers := Server.requestHandlers ptuple }

/-- `server_version` from its await on, `session.py:1470–1479`. -/
def finish (s : Negotiation) (clientReq : VersionRequest) :
    Option (List Int) → Negotiation × Option HandshakeReply
  | none => (s, some (.unsupportedVersion clientReq))
  | some ptuple =>
    (s.setRequestHandlers ptuple,
      some (.version (versionString (s.setRequestHandlers ptuple).protocolTuple)))

/-- `server_version` from the negotiation on, `session.py:1465–1479`. -/
def negotiate (s : Negotiation) (clientReq : VersionRequest) :
    Negotiation × Option HandshakeReply :=
  let ptuple := (protocolVersion env.pyInt clientReq protocolMin protocolMax).1
  if crashes env s.client ptuple then ({ s with waiting := some (ptuple, clientReq) }, none)
  else s.finish clientReq ptuple

/-- `server_version`, `session.py:1444–1479`. -/
def serverVersion (s : Negotiation) (clientName : Option String) (clientReq : VersionRequest) :
    Negotiation × Option HandshakeReply :=
  if s.svSeen then (s, some .alreadySent)
  else if drops env clientName then
    ({ s with svSeen := true }, clientName.map .unsupportedClient)
  else
    negotiate env { s with svSeen := true, client := clientName.elim s.client shortName } clientReq

/-- `handle_request`, `session.py:1001–1020`, over what the handler does. -/
def handleRequest (s : Negotiation) (method : Option String)
    (invocation : Negotiation × Option HandshakeReply) : Negotiation × Option HandshakeReply :=
  let handler := method.filter (· ∈ s.requestHandlers)
  if env.dropClientUnknown ∧ handler ≠ some "server.version" ∧ s.client = "unknown" then
    (s, some .unknownClient)
  else if handler = none then (s, some .methodNotFound)
  else invocation

def step (s : Negotiation) : HandshakeEvent → Negotiation × Option HandshakeReply
  | .version clientName clientReq =>
    handleRequest env s (some "server.version") (serverVersion env s clientName clientReq)
  | .request method => handleRequest env s method (s, method.map .invoked)
  | .notified => s.waiting.elim (s, none) fun (ptuple, clientReq) ↦
    finish { s with waiting := none } clientReq ptuple
  | .notifyFailed => ({ s with waiting := none }, none)

/-- The session after some events. -/
def run (es : List HandshakeEvent) : Negotiation := es.foldl (fun s e ↦ (step env s e).1) {}

/-! ### What a step does -/

theorem version_mem_requestHandlers (ptuple : List Int) :
    "server.version" ∈ Server.requestHandlers ptuple := by
  simp [Server.requestHandlers]

theorem unsubscribe_mem_requestHandlers_iff (ptuple : List Int) :
    "blockchain.scripthash.unsubscribe" ∈ Server.requestHandlers ptuple ↔ [1, 4, 2] ≤ ptuple := by
  by_cases h : [1, 4, 2] ≤ ptuple <;> simp [Server.requestHandlers, h]

theorem handleRequest_state (s : Negotiation) (method : Option String) (r : Option HandshakeReply) :
    (handleRequest env s method (s, r)).1 = s := by
  rw [handleRequest]
  split
  · rfl
  · split <;> rfl

theorem handleRequest_version {s : Negotiation} (h : "server.version" ∈ s.requestHandlers)
    (r : Negotiation × Option HandshakeReply) :
    handleRequest env s (some "server.version") r = r := by
  have hfound : (some "server.version").filter (· ∈ s.requestHandlers) = some "server.version" := by
    simp [h]
  simp [handleRequest, hfound]

/-- An old client of a version that the server speaks is not sent the notifications. -/
theorem crashes_of_le (client : String) {v : List Int} (h : protocolMin ≤ v) :
    crashes env client (some v) = false := by
  have hlt : ([1, 2] : List Int) < v := lt_of_lt_of_le (by decide) h
  simp [crashes, not_le.mpr hlt]

/-- What the first `server.version` of a session does to it, and the answer. -/
inductive Shakes (clientName : Option String) (clientReq : VersionRequest) :
    Negotiation → Option HandshakeReply → Prop
  | dropped (r : Option HandshakeReply) (h : drops env clientName = true)
      (hr : ∀ text, r ≠ some (.version text)) :
      Shakes clientName clientReq { svSeen := true } r
  | agreed (v : List Int) (h : drops env clientName = false)
      (hv : IsGreatest (commonVersions env.pyInt clientReq protocolMin protocolMax) v) :
      Shakes clientName clientReq
        (setRequestHandlers { svSeen := true, client := clientName.elim "unknown" shortName } v)
        (some (.version (versionString v)))
  /-- No version is common, whether the refusal waits for the notifications or not. -/
  | refused (r : Option HandshakeReply) (waiting : Option (Option (List Int) × VersionRequest))
      (h : drops env clientName = false)
      (hv : ∀ v, ¬ IsGreatest (commonVersions env.pyInt clientReq protocolMin protocolMax) v)
      (hr : ∀ text, r ≠ some (.version text)) (hwaiting : ∀ w ∈ waiting, w.1 = none) :
      Shakes clientName clientReq
        { svSeen := true, client := clientName.elim "unknown" shortName, waiting := waiting } r

namespace Shakes

variable {env} {clientName : Option String} {clientReq : VersionRequest} {s : Negotiation}
  {r : Option HandshakeReply}

theorem seen (h : Shakes env clientName clientReq s r) :
    s.svSeen = true ∧ ∀ w ∈ s.waiting, w.1 = none := by
  cases h with
  | dropped => exact ⟨rfl, fun w h ↦ by cases h⟩
  | agreed => exact ⟨rfl, fun w h ↦ by cases h⟩
  | refused r waiting h hv hr hwaiting => exact ⟨rfl, hwaiting⟩

theorem requestHandlers_eq (h : Shakes env clientName clientReq s r) :
    s.requestHandlers = Server.requestHandlers s.protocolTuple := by
  cases h <;> rfl

theorem version_iff (h : Shakes env clientName clientReq s r) :
    (∃ text, r = some (.version text)) ↔ drops env clientName = false ∧
      (commonVersions env.pyInt clientReq protocolMin protocolMax).Nonempty := by
  rw [commonVersions_nonempty_iff]
  cases h with
  | dropped r h hr => simp [h, hr]
  | agreed v h hv => exact ⟨fun _ ↦ ⟨h, v, hv⟩, fun _ ↦ ⟨_, rfl⟩⟩
  | refused r waiting h hv hr hwaiting => simp [h, hv, hr]

theorem protocolTuple_eq_iff (h : Shakes env clientName clientReq s r) {v : List Int}
    (hv : v ≠ protocolMin) :
    s.protocolTuple = v ↔ drops env clientName = false ∧
      IsGreatest (commonVersions env.pyInt clientReq protocolMin protocolMax) v := by
  cases h with
  | dropped r h hr => simp [h, hv.symm]
  | agreed w h hw => exact ⟨fun heq ↦ ⟨h, heq ▸ hw⟩, fun hg ↦ hw.unique hg.2⟩
  | refused r waiting h hnone hr hwaiting => simp [hnone, hv.symm]

/-- A session has another client than `unknown` once its first `server.version` names one. -/
theorem client_ne_iff (h : Shakes env clientName clientReq s r) :
    s.client ≠ "unknown" ↔ ∃ name, clientName = some name ∧ drops env clientName = false ∧
      shortName name ≠ "unknown" := by
  cases h with
  | dropped r h hr => simp [h]
  | agreed v h hv => cases clientName <;> simp [h, setRequestHandlers]
  | refused r waiting h hv hr hwaiting => cases clientName <;> simp [h]

end Shakes

theorem shakes (clientName : Option String) (clientReq : VersionRequest) :
    Shakes env clientName clientReq (step env {} (.version clientName clientReq)).1
      (step env {} (.version clientName clientReq)).2 := by
  have hmin : ([0] : List Int) < protocolMin := by decide
  rw [step, handleRequest_version env (version_mem_requestHandlers protocolMin), serverVersion,
    if_neg (by decide)]
  cases hdrops : drops env clientName with
  | true =>
    refine .dropped _ hdrops fun text h ↦ ?_
    cases clientName <;> cases h
  | false =>
    rw [if_neg Bool.false_ne_true, negotiate]
    dsimp only
    cases hv : (protocolVersion env.pyInt clientReq protocolMin protocolMax).1 with
    | some v =>
      have hgreatest := (protocolVersion_eq_some_iff env.pyInt clientReq hmin).mp hv
      rw [crashes_of_le env _ hgreatest.1.2.1, if_neg Bool.false_ne_true]
      exact .agreed v hdrops hgreatest
    | none =>
      have hnone := (protocolVersion_eq_none_iff env.pyInt clientReq hmin).mp hv
      split
      · refine .refused none _ hdrops hnone (fun _ h ↦ by cases h) fun w hw ↦ ?_
        cases hw
        rfl
      · exact .refused _ none hdrops hnone (fun _ h ↦ by cases h) fun w hw ↦ by cases hw

/-- A session that a message leaves as it is, up to a refusal that waits. -/
def Keeps (s t : Negotiation) : Prop :=
  ∃ waiting, t = { s with waiting := waiting } ∧ ∀ w ∈ waiting, w.1 = none

theorem step_unseen {e : HandshakeEvent} (h : e.isVersion = false) : (step env {} e).1 = {} := by
  cases e with
  | version => cases h
  | request method => exact handleRequest_state env {} method _
  | notified => rfl
  | notifyFailed => rfl

/-- Once `server.version` is seen and no version waits to be set, none is set. -/
theorem step_seen {s : Negotiation} (hseen : s.svSeen = true)
    (hwaiting : ∀ w ∈ s.waiting, w.1 = none) (e : HandshakeEvent) : Keeps s (step env s e).1 := by
  cases e with
  | version clientName clientReq =>
    rw [step, serverVersion, if_pos hseen, handleRequest_state]
    exact ⟨s.waiting, rfl, hwaiting⟩
  | request method =>
    rw [step, handleRequest_state]
    exact ⟨s.waiting, rfl, hwaiting⟩
  | notified =>
    rw [step]
    cases hw : s.waiting with
    | none => exact ⟨s.waiting, rfl, hwaiting⟩
    | some w =>
      obtain ⟨ptuple, clientReq⟩ := w
      obtain rfl := hwaiting _ hw
      exact ⟨none, rfl, fun w h ↦ by cases h⟩
  | notifyFailed => exact ⟨none, rfl, fun w h ↦ by cases h⟩

/-! ### Whole runs -/

theorem run_unseen {es : List HandshakeEvent} (h : ∀ e ∈ es, e.isVersion = false) :
    run env es = {} := by
  induction es with
  | nil => rfl
  | cons e es ih =>
    rw [run, List.foldl_cons, step_unseen env (h e List.mem_cons_self)]
    exact ih fun e he ↦ h e (List.mem_cons_of_mem _ he)

theorem foldl_seen {s : Negotiation} (hseen : s.svSeen = true)
    (hwaiting : ∀ w ∈ s.waiting, w.1 = none) (es : List HandshakeEvent) :
    Keeps s (es.foldl (fun s e ↦ (step env s e).1) s) := by
  induction es generalizing s with
  | nil => exact ⟨s.waiting, rfl, hwaiting⟩
  | cons e es ih =>
    rw [List.foldl_cons]
    obtain ⟨waiting, ht, hw⟩ := step_seen env hseen hwaiting e
    rw [ht]
    exact ih hseen hw

variable {before : List HandshakeEvent} {clientName : Option String} {clientReq : VersionRequest}

/-- What a run is like after its first `server.version`. -/
theorem run_seen (hbefore : ∀ e ∈ before, e.isVersion = false) (clientName : Option String)
    (clientReq : VersionRequest) (after : List HandshakeEvent) :
    Keeps (step env {} (.version clientName clientReq)).1
      (run env (before ++ .version clientName clientReq :: after)) := by
  have hseen := (shakes env clientName clientReq).seen
  rw [run, List.foldl_append, ← run, run_unseen env hbefore, List.foldl_cons]
  exact foldl_seen env hseen.1 hseen.2 after

/-- **A session speaks the greatest common version, and settles it once.** Whatever messages come
before and after its first `server.version`, a session speaks another version than `PROTOCOL_MIN`
exactly when this is the greatest version that the client asked for and the server speaks, and the
client is not dropped for its name. Before, the session is as it started; that request is answered
with a version exactly when there is such a version; every later one is refused and changes nothing;
and a subscription can be taken back from version 1.4.2 on. -/
theorem run_negotiates (hbefore : ∀ e ∈ before, e.isVersion = false) (after : List HandshakeEvent) :
    run env before = {} ∧
    ((∃ text, (step env (run env before) (.version clientName clientReq)).2 =
        some (.version text)) ↔
      drops env clientName = false ∧
        (commonVersions env.pyInt clientReq protocolMin protocolMax).Nonempty) ∧
    (∀ v, v ≠ protocolMin →
      ((run env (before ++ .version clientName clientReq :: after)).protocolTuple = v ↔
        drops env clientName = false ∧
          IsGreatest (commonVersions env.pyInt clientReq protocolMin protocolMax) v)) ∧
    (∀ clientName' clientReq',
      step env (run env (before ++ .version clientName clientReq :: after))
          (.version clientName' clientReq') =
        (run env (before ++ .version clientName clientReq :: after), some .alreadySent)) ∧
    ("blockchain.scripthash.unsubscribe" ∈
        (run env (before ++ .version clientName clientReq :: after)).requestHandlers ↔
      [1, 4, 2] ≤ (run env (before ++ .version clientName clientReq :: after)).protocolTuple) := by
  have hshakes := shakes env clientName clientReq
  obtain ⟨waiting, hrun, -⟩ := run_seen env hbefore clientName clientReq after
  rw [hrun, run_unseen env hbefore]
  refine ⟨rfl, hshakes.version_iff, fun v hv ↦ hshakes.protocolTuple_eq_iff hv,
    fun clientName' clientReq' ↦ ?_, ?_⟩
  · rw [step, handleRequest_version, serverVersion, if_pos hshakes.seen.1]
    exact hshakes.requestHandlers_eq ▸ version_mem_requestHandlers _
  · exact hshakes.requestHandlers_eq ▸ unsubscribe_mem_requestHandlers_iff _

/-- Python's `int` on the parts of the versions below. -/
def samplePyInt (s : String) : Option Int :=
  [("1", 1), ("2", 2), ("3", 3), ("4", 4), ("9", 9)].lookup s

def sampleHandshakeEnv : HandshakeEnv where
  pyInt := samplePyInt
  dropClient name := name = "bad"
  dropClientUnknown := true
  crashClientVer := some [3, 2, 3]

def sampleMessages : List HandshakeEvent :=
  [.request (some "server.ping"), .version (some "wallet") (.range (some "1.4.1") (some "1.9")),
    .version (some "bad") .missing, .request (some "server.ping"), .notified]

theorem sampleMessages_negotiates :
    (run sampleHandshakeEnv sampleMessages).protocolTuple = [1, 4, 3] :=
  ((run_negotiates sampleHandshakeEnv
    (show ∀ e ∈ [HandshakeEvent.request (some "server.ping")], e.isVersion = false by decide)
    (sampleMessages.drop 2)).2.2.1 [1, 4, 3] (by decide)).mpr
      ⟨by decide, (isGreatest_commonVersions_iff _ _).mpr ⟨by decide, by decide⟩⟩

/-- The first `server.version` names a client who is not dropped, and not as `unknown`. -/
def Identifies (es : List HandshakeEvent) : Prop :=
  ∃ name clientReq, es.find? (·.isVersion) = some (.version (some name) clientReq) ∧
    drops env (some name) = false ∧ shortName name ≠ "unknown"

theorem run_client_ne_iff (es : List HandshakeEvent) :
    (run env es).client ≠ "unknown" ↔ Identifies env es := by
  cases hfind : es.find? (·.isVersion) with
  | none =>
    rw [run_unseen env fun e he ↦ by simpa using List.find?_eq_none.mp hfind e he]
    refine iff_of_false (fun h ↦ h rfl) fun ⟨name, clientReq, hfirst, _⟩ ↦ ?_
    cases hfind.symm.trans hfirst
  | some e =>
    obtain ⟨hversion, before, after, rfl, hbefore⟩ := List.find?_eq_some_iff_append.mp hfind
    cases e with
    | version clientName clientReq =>
      obtain ⟨waiting, hrun, -⟩ := run_seen env (fun e he ↦ by simpa using hbefore e he)
        clientName clientReq after
      rw [hrun, Identifies, hfind, (shakes env clientName clientReq).client_ne_iff]
      constructor
      · rintro ⟨name, rfl, hdrops, hname⟩
        exact ⟨name, clientReq, rfl, hdrops, hname⟩
      · rintro ⟨name, clientReq', hfirst, hdrops, hname⟩
        obtain ⟨rfl, rfl⟩ := HandshakeEvent.version.inj (Option.some.inj hfirst)
        exact ⟨name, rfl, hdrops, hname⟩
    | _ => cases hversion

/-- **An unknown client gets no other answer**: with `DROP_CLIENT_UNKNOWN`, whatever a session has
handled, a message other than `server.version` is answered with `unknownClient` and changes nothing
exactly when no `server.version` has named the client before, and invokes the handler of its method
exactly when one has and the session knows the method. -/
theorem run_drops_unknown (hdrop : env.dropClientUnknown = true) (es : List HandshakeEvent)
    {method : Option String} (hmethod : method ≠ some "server.version") :
    (step env (run env es) (.request method) = (run env es, some .unknownClient) ↔
      ¬ Identifies env es) ∧
    ∀ m, step env (run env es) (.request method) = (run env es, some (.invoked m)) ↔
      Identifies env es ∧ method = some m ∧ m ∈ (run env es).requestHandlers := by
  rw [← run_client_ne_iff, step, handleRequest]
  generalize run env es = s
  have hhandler : method.filter (· ∈ s.requestHandlers) ≠ some "server.version" := by
    intro h
    exact hmethod (Option.filter_eq_some_iff.mp h).1
  by_cases hclient : s.client = "unknown"
  · rw [if_pos ⟨hdrop, hhandler, hclient⟩]
    simp [hclient]
  · rw [if_neg fun h ↦ hclient h.2.2]
    cases method with
    | none => simp [hclient]
    | some method =>
      by_cases hknown : method ∈ s.requestHandlers
      · simp only [Option.filter_some, hknown, decide_true, if_true, reduceCtorEq, if_false,
          Option.map_some, Prod.mk.injEq, true_and, Option.some.injEq,
          HandshakeReply.invoked.injEq, hclient, not_true_eq_false, ne_eq, not_false_eq_true]
        exact fun m ↦ ⟨fun h ↦ ⟨h, h ▸ hknown⟩, fun h ↦ h.1⟩
      · simp [hknown, hclient]

theorem sampleMessages_identifies :
    step sampleHandshakeEnv (run sampleHandshakeEnv sampleMessages)
        (.request (some "server.ping")) =
      (run sampleHandshakeEnv sampleMessages, some (.invoked "server.ping")) :=
  ((run_drops_unknown sampleHandshakeEnv rfl sampleMessages (by decide)).2 "server.ping").mpr
    ⟨⟨"wallet", _, rfl, by decide, by decide⟩, rfl, by decide⟩

end Negotiation
end ElectrumX.Server
