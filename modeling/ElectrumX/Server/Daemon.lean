import ElectrumX.Lib.Util
import Mathlib.Algebra.Order.Field.Rat
import Mathlib.Order.Bounds.Basic
import Mathlib.Tactic.Linarith
import Mathlib.Tactic.Positivity

/-!
# Requests to the daemon

The model of `_send` in `server/daemon.py` and of the processors of `_send_single` and
`_send_vector`. What an attempt at a URL brings is a parameter: a result, an error that the
request raises, or one of the failures after which it sleeps and tries again. Every attempt that
fails at the longest delay fails over to the next URL. Delays are rationals; logging, the semaphore
and the connection itself are left out.
-/

namespace ElectrumX.Server
open ElectrumX.Lib

/-- The failures that `_send` catches, `daemon.py:160–182`. -/
inductive TemporaryFailure where
  | timeout
  | disconnected
  | connectionReset
  | connectionProblem
  | clientError
  | serviceRefused
  | warmingUp
  | parseError
  deriving DecidableEq, Repr

/-- An `error` of a JSON-RPC response. -/
structure RpcErr where
  code : Option Int
  message : String
  deriving DecidableEq, Repr

/-- What an attempt brings, after the processor has run. -/
inductive Attempt (α : Type) where
  | result (a : α)
  /-- A `DaemonError` with the errors of the response. -/
  | daemonError (errs : List RpcErr)
  | temporary (f : TemporaryFailure)
  deriving DecidableEq, Repr

/-- What the request returns or raises, unless it is to try again. -/
def Attempt.answer {α : Type} : Attempt α → Option (Except (List RpcErr) α)
  | .result a => some (.ok a)
  | .daemonError errs => some (.error errs)
  | .temporary _ => none

/-- An item of a JSON-RPC response. -/
structure RpcItem (α : Type) where
  error : Option RpcErr
  result : α

/-- `RPC_IN_WARMUP` and `RPC_PARSE_ERROR`, `daemon.py:51–52`. -/
def rpcInWarmup : Int := -28
def rpcParseError : Int := -32700

/-- The processor of `_send_single`, `daemon.py:189–197`. -/
def singleProcessor {α : Type} (item : RpcItem α) : Attempt α :=
  match item.error with
  | none => .result item.result
  | some err =>
    if err.code = some rpcInWarmup then .temporary .warmingUp
    else if err.code = some rpcParseError then .temporary .parseError
    else .daemonError [err]

/-- The processor of `_send_vector`, `daemon.py:210–218`. -/
def vectorProcessor {α : Type} (replaceErrs : Bool) (items : List (RpcItem α)) :
    Attempt (List α) :=
  let errs := items.filterMap (·.error)
  if errs.any (·.code = some rpcInWarmup) then .temporary .warmingUp
  else if errs.any (·.code = some rpcParseError) then .temporary .parseError
  else if errs = [] ∨ replaceErrs then .result (items.map (·.result))
  else .daemonError errs

/-- An attempt of `_send`, `daemon.py:154–159`: the reply to the posted data, when there is one,
goes through the processor. -/
def attempt {α β : Type} (processor : β → Attempt α) : Except TemporaryFailure β → Attempt α
  | .error f => .temporary f
  | .ok reply => processor reply

/-- `_send_vector` returns the results of all items in their order, and without `replace_errs` only
where no item has an error. -/
theorem vectorProcessor_eq_result_iff {α : Type} {replaceErrs : Bool} {items : List (RpcItem α)}
    {results : List α} :
    vectorProcessor replaceErrs items = .result results ↔ results = items.map (·.result) ∧
      ∀ item ∈ items, ∀ err, item.error = some err →
        replaceErrs = true ∧ err.code ≠ some rpcInWarmup ∧ err.code ≠ some rpcParseError := by
  unfold vectorProcessor
  dsimp only
  split_ifs with hwarm hparse herrs
  · rw [List.any_eq_true] at hwarm
    obtain ⟨err, herr, hcode⟩ := hwarm
    obtain ⟨item, hitem, herror⟩ := List.mem_filterMap.mp herr
    refine iff_of_false (by simp) fun hall ↦ ?_
    exact (hall.2 item hitem err herror).2.1 (of_decide_eq_true hcode)
  · rw [List.any_eq_true] at hparse
    obtain ⟨err, herr, hcode⟩ := hparse
    obtain ⟨item, hitem, herror⟩ := List.mem_filterMap.mp herr
    refine iff_of_false (by simp) fun hall ↦ ?_
    exact (hall.2 item hitem err herror).2.2 (of_decide_eq_true hcode)
  · rw [Attempt.result.injEq, eq_comm]
    refine ⟨fun h ↦ ⟨h, fun item hitem err herror ↦ ?_⟩, And.left⟩
    have herr : err ∈ items.filterMap (·.error) := List.mem_filterMap.mpr ⟨item, hitem, herror⟩
    have hnwarm := mt List.any_eq_true.mpr hwarm
    have hnparse := mt List.any_eq_true.mpr hparse
    refine ⟨herrs.resolve_left (List.ne_nil_of_mem herr), fun hcode ↦ ?_, fun hcode ↦ ?_⟩
    · exact hnwarm ⟨err, herr, decide_eq_true hcode⟩
    · exact hnparse ⟨err, herr, decide_eq_true hcode⟩
  · obtain ⟨hne, hreplace⟩ := not_or.mp herrs
    obtain ⟨err, herr⟩ := List.exists_mem_of_ne_nil _ hne
    obtain ⟨item, hitem, herror⟩ := List.mem_filterMap.mp herr
    exact iff_of_false (by simp) fun hall ↦ hreplace (hall.2 item hitem err herror).1

/-- The attributes of `Daemon` that a request reads and writes. -/
structure Daemon where
  urls : List String
  urlIndex : Nat := 0
  initRetry : ℚ := 1 / 4
  maxRetry : ℚ := 4

namespace Daemon

/-- `current_url`, `daemon.py:104–106`. -/
def currentUrl (d : Daemon) : Option String := d.urls[d.urlIndex]?

/-- `failover`, `daemon.py:113–122`. -/
def failover (d : Daemon) : Bool × Daemon :=
  if d.urls.length > 1 then (true, { d with urlIndex := (d.urlIndex + 1) % d.urls.length })
  else (false, d)

/-- `log_error`, `daemon.py:140–147`: the delay and the URL after a failure. -/
def logError (d : Daemon) (retry : ℚ) : ℚ × Daemon :=
  if retry = d.maxRetry then
    let (failed, d) := d.failover
    (if failed then 0 else retry, d)
  else (retry, d)

/-- The delay of the attempt after a sleep, `daemon.py:185`. -/
def nextRetry (d : Daemon) (retry : ℚ) : ℚ := max (min d.maxRetry (retry * 2)) d.initRetry

/-- The URL and the delay with which an attempt starts. -/
structure Sending where
  daemon : Daemon
  retry : ℚ

/-- `_send` before its first attempt, `daemon.py:149–152`. -/
def send (d : Daemon) : Sending := ⟨d, d.initRetry⟩

/-- What a failed attempt leaves for the next one. -/
def Sending.failed (s : Sending) : Sending :=
  let (retry, d) := s.daemon.logError s.retry
  ⟨d, d.nextRetry retry⟩

/-- Where the attempt stands after so many failures. -/
def Sending.after (s : Sending) : Nat → Sending
  | 0 => s
  | n + 1 => (s.after n).failed

/-- The loop of `_send`, `daemon.py:153–185`, over so many attempts: the first result or error,
with the number of attempts that failed before it. -/
def Sending.loop {α : Type} (outcome : Nat → Option String → Attempt α) (s : Sending) :
    Nat → Nat → Option (Except (List RpcErr) α × Nat)
  | 0, _ => none
  | fuel + 1, i =>
    match (outcome i s.daemon.currentUrl).answer with
    | some r => some (r, i)
    | none => s.failed.loop outcome fuel (i + 1)

theorem Sending.after_failed (s : Sending) (n : Nat) : s.failed.after n = s.after (n + 1) := by
  induction n with
  | zero => rfl
  | succ n ih => rw [after, ih, after.eq_def s (n + 1 + 1)]

/-- The loop returns what the first attempt brings that does not fail, if one of the attempts it
makes does not. -/
theorem Sending.loop_of_answer {α : Type} {outcome : Nat → Option String → Attempt α}
    {r : Except (List RpcErr) α} {k : Nat} : ∀ {s : Sending} {i fuel : Nat}, k < fuel →
    (outcome (i + k) (s.after k).daemon.currentUrl).answer = some r →
    (∀ k' < k, (outcome (i + k') (s.after k').daemon.currentUrl).answer = none) →
    s.loop outcome fuel i = some (r, i + k) := by
  induction k with
  | zero =>
    intro s i fuel hfuel hr hnone
    obtain ⟨fuel, rfl⟩ := Nat.exists_eq_add_of_lt hfuel
    simp only [after, Nat.add_zero] at hr
    simp only [loop, hr, Nat.add_zero]
  | succ k ih =>
    intro s i fuel hfuel hr hnone
    obtain ⟨fuel, rfl⟩ := Nat.exists_eq_add_of_lt hfuel
    have hfirst := hnone 0 k.succ_pos
    simp only [after, Nat.add_zero] at hfirst
    have hrest : s.failed.loop outcome (k + 1 + fuel) (i + 1) = some (r, i + 1 + k) := by
      refine ih (by omega) ?_ fun k' hk' ↦ ?_
      · rwa [after_failed, show i + 1 + k = i + (k + 1) by omega]
      · rw [after_failed, show i + 1 + k' = i + (k' + 1) by omega]
        exact hnone (k' + 1) (by omega)
    rw [show i + (k + 1) = i + 1 + k by omega, ← hrest, loop, hfirst]

/-! ### The schedule of a request -/

section Schedule

variable {d : Daemon} {doublings : Nat}

/-- After so many doublings the delay has reached its limit, and not before. -/
def Doublings (d : Daemon) (n : Nat) : Prop :=
  IsLeast {k : Nat | d.maxRetry ≤ d.initRetry * 2 ^ k} n

/-- Below its limit a delay doubles. -/
theorem nextRetry_doubling (hinit : 0 < d.initRetry) (hle : d.initRetry ≤ d.maxRetry) (k : Nat) :
    d.nextRetry (min d.maxRetry (d.initRetry * 2 ^ k))
      = min d.maxRetry (d.initRetry * 2 ^ (k + 1)) := by
  have hpow : (1 : ℚ) ≤ 2 ^ k := one_le_pow₀ (by norm_num)
  have hge : d.initRetry ≤ d.initRetry * 2 ^ k := le_mul_of_one_le_right hinit.le hpow
  rw [nextRetry, pow_succ, ← mul_assoc]
  rcases le_total d.maxRetry (d.initRetry * 2 ^ k) with h | h
  · rw [min_eq_left h, min_eq_left (by linarith), min_eq_left (by linarith), max_eq_left hle]
  · rw [min_eq_right h, max_eq_left (le_min hle (by linarith))]

/-- A delay of zero, which failing over sets, is followed by the shortest one. -/
theorem nextRetry_zero (hinit : 0 < d.initRetry) (hle : d.initRetry ≤ d.maxRetry) :
    d.nextRetry 0 = d.initRetry := by
  rw [nextRetry, zero_mul, min_eq_right (hinit.le.trans hle), max_eq_right hinit.le]

/-- A single URL is tried again and again, with delays that double up to the longest one. -/
theorem after_send_of_single (hinit : 0 < d.initRetry) (hle : d.initRetry ≤ d.maxRetry)
    (hurls : ¬ 1 < d.urls.length) (j : Nat) :
    d.send.after j = ⟨d, min d.maxRetry (d.initRetry * 2 ^ j)⟩ := by
  induction j with
  | zero => rw [pow_zero, mul_one, min_eq_right hle]; rfl
  | succ j ih =>
    have hlog (retry : ℚ) : d.logError retry = (retry, d) := by
      unfold logError failover
      simp [hurls]
    rw [Sending.after, ih, Sending.failed, hlog, ← nextRetry_doubling hinit hle]

/-- With several URLs each of them is tried with delays that double up to the longest one, and then
the next one, from the shortest delay on. -/
theorem after_send_of_several (hinit : 0 < d.initRetry) (hle : d.initRetry ≤ d.maxRetry)
    (hn : d.Doublings doublings) (hurls : 1 < d.urls.length) (hindex : d.urlIndex < d.urls.length)
    (j : Nat) :
    d.send.after j = ⟨{ d with urlIndex := (d.urlIndex + j / (doublings + 1)) % d.urls.length },
      min d.maxRetry (d.initRetry * 2 ^ (j % (doublings + 1)))⟩ := by
  induction j with
  | zero =>
    rw [Nat.zero_div, Nat.zero_mod, Nat.add_zero, Nat.mod_eq_of_lt hindex, pow_zero, mul_one,
      min_eq_right hle]
    rfl
  | succ j ih =>
    rw [Sending.after, ih, Sending.failed, logError]
    dsimp only
    have hlt : j % (doublings + 1) < doublings + 1 := Nat.mod_lt j doublings.succ_pos
    by_cases hr : j % (doublings + 1) = doublings
    · -- the longest delay has been reached: the next URL, and the delay starts over
      have hmod : (j + 1) % (doublings + 1) = 0 := Nat.succ_mod_succ_eq_zero_iff.mpr hr
      have hdiv : (j + 1) / (doublings + 1) = j / (doublings + 1) + 1 :=
        Nat.succ_div_of_mod_eq_zero hmod
      rw [hr, min_eq_left hn.1, if_pos rfl, failover, if_pos hurls, hmod, hdiv, pow_zero, mul_one,
        min_eq_right hle]
      dsimp only
      rw [if_pos rfl, Nat.mod_add_mod, ← Nat.add_assoc]
      congr 1
      exact nextRetry_zero hinit hle
    · have hmod : (j + 1) % (doublings + 1) ≠ 0 := fun h ↦ hr (Nat.succ_mod_succ_eq_zero_iff.mp h)
      have hdiv : (j + 1) / (doublings + 1) = j / (doublings + 1) :=
        Nat.succ_div_of_mod_ne_zero hmod
      have hnext : (j + 1) % (doublings + 1) = j % (doublings + 1) + 1 := by
        have hj := Nat.div_add_mod j (doublings + 1)
        have hsucc := Nat.div_add_mod (j + 1) (doublings + 1)
        rw [hdiv] at hsucc
        omega
      have hlow : d.initRetry * 2 ^ (j % (doublings + 1)) < d.maxRetry := by
        by_contra hnot
        have hmin := hn.2 (not_lt.mp hnot)
        omega
      rw [if_neg (by rw [min_eq_right hlow.le]; exact hlow.ne), hnext, hdiv]
      congr 1
      exact nextRetry_doubling hinit hle _

/-- The URL of an attempt: the URLs take turns, as many attempts each as there are delays. -/
theorem currentUrl_after (hinit : 0 < d.initRetry) (hle : d.initRetry ≤ d.maxRetry)
    (hn : d.Doublings doublings) (hindex : d.urlIndex < d.urls.length) (j : Nat) :
    (d.send.after j).daemon.currentUrl
      = d.urls[(d.urlIndex + j / (doublings + 1)) % d.urls.length]? := by
  by_cases hurls : 1 < d.urls.length
  · rw [after_send_of_several hinit hle hn hurls hindex]
    rfl
  · rw [after_send_of_single hinit hle hurls, show d.urls.length = 1 by omega, Nat.mod_one]
    rw [currentUrl, show d.urlIndex = 0 by omega]

/-- From any attempt on, a URL has its turn within one turn of every other URL. -/
theorem exists_turn (hinit : 0 < d.initRetry) (hle : d.initRetry ≤ d.maxRetry)
    (hn : d.Doublings doublings) (hindex : d.urlIndex < d.urls.length) {u : Nat}
    (hu : u < d.urls.length) (i₀ : Nat) :
    ∃ j, i₀ ≤ j ∧ j ≤ i₀ + (d.urls.length - 1) * (doublings + 1) ∧
      (d.send.after j).daemon.currentUrl = d.urls[u]? := by
  -- so many fail-overs stand before the attempt, and so many are left before the URL's turn
  obtain ⟨turns, hturns⟩ : ∃ turns, i₀ / (doublings + 1) = turns := ⟨_, rfl⟩
  obtain ⟨left, hlt, hleft⟩ : ∃ left < d.urls.length,
      (d.urlIndex + (turns + left)) % d.urls.length = u := by
    have hmod : (d.urlIndex + turns) % d.urls.length < d.urls.length := Nat.mod_lt _ (by omega)
    refine ⟨(u + (d.urls.length - (d.urlIndex + turns) % d.urls.length)) % d.urls.length,
      Nat.mod_lt _ (by omega), ?_⟩
    rw [← Nat.add_assoc, ← Nat.mod_add_mod, Nat.add_mod_mod,
      show (d.urlIndex + turns) % d.urls.length +
        (u + (d.urls.length - (d.urlIndex + turns) % d.urls.length)) = u + d.urls.length by omega,
      Nat.add_mod_right, Nat.mod_eq_of_lt hu]
  have hurl {j : Nat} (hj : j / (doublings + 1) = turns + left) :
      (d.send.after j).daemon.currentUrl = d.urls[u]? := by
    rw [currentUrl_after hinit hle hn hindex, hj, hleft]
  have hsplit : turns * (doublings + 1) + i₀ % (doublings + 1) = i₀ := by
    rw [← hturns, Nat.mul_comm]
    exact Nat.div_add_mod i₀ (doublings + 1)
  have hrest : i₀ % (doublings + 1) < doublings + 1 := Nat.mod_lt _ doublings.succ_pos
  rcases Nat.eq_zero_or_pos left with h0 | h0
  · exact ⟨i₀, Nat.le_refl i₀, Nat.le_add_right _ _, hurl (by omega)⟩
  · have hone : doublings + 1 ≤ left * (doublings + 1) := Nat.le_mul_of_pos_left _ h0
    have hmost : left * (doublings + 1) ≤ (d.urls.length - 1) * (doublings + 1) :=
      Nat.mul_le_mul_right _ (by omega)
    refine ⟨(turns + left) * (doublings + 1), ?_, ?_,
      hurl (Nat.mul_div_cancel _ doublings.succ_pos)⟩
    all_goals rw [Nat.add_mul]; omega

/-- **A request that runs alone ends once one of the URLs answers**: if from some attempt on no
attempt at one of the URLs fails, then after at most one more turn of every other URL the request
has returned the result, or raised the error, of the first attempt that did not fail. -/
theorem send_answers {α β : Type} (hinit : 0 < d.initRetry) (hle : d.initRetry ≤ d.maxRetry)
    (hn : d.Doublings doublings) (hindex : d.urlIndex < d.urls.length)
    (processor : β → Attempt α) (reply : Nat → Option String → Except TemporaryFailure β)
    (u i₀ : Nat) (hu : u < d.urls.length)
    (hgood : ∀ i, i₀ ≤ i → (attempt processor (reply i d.urls[u]?)).answer ≠ none) :
    ∃ r j, j ≤ i₀ + (d.urls.length - 1) * (doublings + 1) ∧
      (∀ fuel, j < fuel →
        d.send.loop (fun i url ↦ attempt processor (reply i url)) fuel 0 = some (r, j)) ∧
      (attempt processor (reply j (d.send.after j).daemon.currentUrl)).answer = some r ∧
      ∀ i < j, (attempt processor (reply i (d.send.after i).daemon.currentUrl)).answer = none := by
  let answered (j : Nat) : Prop :=
    (attempt processor (reply j (d.send.after j).daemon.currentUrl)).answer ≠ none
  obtain ⟨turn, hfrom, hto, hat⟩ := exists_turn hinit hle hn hindex hu i₀
  have hanswered : answered turn := by
    change (attempt processor (reply _ (d.send.after _).daemon.currentUrl)).answer ≠ none
    rw [hat]
    exact hgood turn hfrom
  classical
  have hex : ∃ j, answered j := ⟨_, hanswered⟩
  obtain ⟨r, hr⟩ := Option.ne_none_iff_exists'.mp (Nat.find_spec hex)
  have hbefore (i : Nat) (hi : i < Nat.find hex) :
      (attempt processor (reply i (d.send.after i).daemon.currentUrl)).answer = none :=
    not_not.mp (Nat.find_min hex hi)
  refine ⟨r, Nat.find hex, (Nat.find_min' hex hanswered).trans hto, fun fuel hfuel ↦ ?_, hr,
    hbefore⟩
  have hloop : d.send.loop (fun i url ↦ attempt processor (reply i url)) fuel 0
      = some (r, 0 + Nat.find hex) :=
    Sending.loop_of_answer hfuel (by rwa [Nat.zero_add]) fun i hi ↦ by
      rw [Nat.zero_add]
      exact hbefore i hi
  rwa [Nat.zero_add] at hloop

/-- A daemon with the delays of the code and two URLs. -/
def sampleTwoUrls : Daemon := { urls := ["http://first/", "http://second/"] }

theorem sampleTwoUrls_doublings : sampleTwoUrls.Doublings 4 := by
  refine ⟨by norm_num [sampleTwoUrls], fun k hk ↦ ?_⟩
  by_contra hlt
  obtain rfl | rfl | rfl | rfl : k = 0 ∨ k = 1 ∨ k = 2 ∨ k = 3 := by omega
  all_goals norm_num [sampleTwoUrls] at hk

/-- The first URL never replies; the second one is warming up in its first turn. -/
def sampleReply (i : Nat) (url : Option String) : Except TemporaryFailure (RpcItem Nat) :=
  if url = some "http://second/" then
    .ok ⟨if i < 10 then some ⟨some rpcInWarmup, "Loading block index"⟩ else none, 7⟩
  else .error .timeout

theorem sampleTwoUrls_answers : ∃ r j, j ≤ 10 + 5 ∧
    (∀ fuel, j < fuel → sampleTwoUrls.send.loop
      (fun i url ↦ attempt singleProcessor (sampleReply i url)) fuel 0 = some (r, j)) ∧
    (attempt singleProcessor (sampleReply j
      (sampleTwoUrls.send.after j).daemon.currentUrl)).answer = some r ∧
    ∀ i < j, (attempt singleProcessor (sampleReply i
      (sampleTwoUrls.send.after i).daemon.currentUrl)).answer = none :=
  send_answers (by norm_num [sampleTwoUrls]) (by norm_num [sampleTwoUrls]) sampleTwoUrls_doublings
    (by decide) singleProcessor sampleReply 1 10 (by decide) fun i hi ↦ by
      simp [sampleTwoUrls, sampleReply, attempt, singleProcessor, Attempt.answer, Nat.not_lt.mpr hi]

end Schedule

end Daemon
end ElectrumX.Server
