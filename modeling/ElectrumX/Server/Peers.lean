import ElectrumX.Base.OrderedDict
import Mathlib.Algebra.Order.Field.Rat
import Mathlib.Data.Finset.Card
import Mathlib.Data.List.Induction
import Mathlib.Tactic.Linarith

/-!
# Requests about peers

The model of `on_add_peer` in `server/peers.py` and of what limits it: one request for each domain
in ten minutes, and one onion peer in a random interval. What resolving a host finds and what is
drawn at random are part of a request; `lower` stands for `str.lower`. Times are rationals. The
second part is the model of `on_peers_subscribe`, which reports some of the peers, chosen at random.
-/

namespace ElectrumX.Server
open ElectrumX.Base

/-- `PEER_ADD_PAUSE`, `peers.py:40`. -/
def peerAddPause : ℚ := 600

/-- A request to add a peer that names its source and a peer. -/
structure AddRequest where
  host : String
  /-- Whether the host is an IP address. -/
  ipAddress : Bool
  now : ℚ
  /-- `random.randrange(0, 1200)`. -/
  draw : ℚ
  /-- Whether the host resolves to the source of the request. -/
  resolves : Bool

/-- The attributes of `PeerManager` that limit requests. -/
structure PeerLimits where
  recentPeerAdds : OrderedDict String ℚ := .empty
  permitOnionPeerTime : ℚ := 0

/-- What concerns the limits: a request, and that a peer has been verified. -/
inductive PeerEvent where
  | addPeer (request : AddRequest)
  | verified (now : ℚ)

def PeerEvent.now : PeerEvent → ℚ
  | .addPeer request => request.now
  | .verified now => now

section Limits

variable (lower : String → String)

/-- The last two labels of a host. -/
def secondLevelDomain (host : String) : String :=
  let labels := host.splitOn "."
  ".".intercalate (labels.drop (labels.length - 2))

/-- The bucket of a request, `peers.py:541–544`. -/
def AddRequest.bucket (request : AddRequest) : String :=
  if request.ipAddress then "ip_addr" else secondLevelDomain (lower request.host)

/-- `Peer.is_tor`, `lib/peer.py:150`. -/
def AddRequest.isTor (request : AddRequest) : Bool := request.host.endsWith ".onion"

namespace PeerLimits

/-- Whether a request passes the limit of its bucket, `peers.py:545,547`. -/
def Passes (m : PeerLimits) (request : AddRequest) : Prop :=
  ¬(m.recentPeerAdds.get? (request.bucket lower)).getD 0 + peerAddPause ≥ request.now

instance (m : PeerLimits) (request : AddRequest) : Decidable (m.Passes lower request) :=
  inferInstanceAs (Decidable (¬_))

/-- `_permit_new_onion_peer`, `peers.py:131–136`. -/
def permitNewOnionPeer (m : PeerLimits) (request : AddRequest) : Bool × PeerLimits :=
  if request.now < m.permitOnionPeerTime then (false, m)
  else (true, { m with permitOnionPeerTime := request.now + request.draw })

/-- The request is remembered, `peers.py:546`. -/
def note (m : PeerLimits) (request : AddRequest) : PeerLimits :=
  { m with recentPeerAdds := m.recentPeerAdds.set (request.bucket lower) request.now }

/-- `on_add_peer`, `peers.py:535–571`, from the first peer on. -/
def onAddPeer (m : PeerLimits) (request : AddRequest) : Bool × PeerLimits :=
  if m.Passes lower request then
    if request.isTor then (m.note lower request).permitNewOnionPeer request
    else (request.resolves, m.note lower request)
  else (false, m.note lower request)

/-- What a verified peer does to the limits, `peers.py:335–336`. -/
def trim (m : PeerLimits) (now : ℚ) : PeerLimits :=
  { m with recentPeerAdds := m.recentPeerAdds.filter fun e ↦ e.2 + peerAddPause < now }

def step (m : PeerLimits) : PeerEvent → PeerLimits
  | .addPeer request => (m.onAddPeer lower request).2
  | .verified now => m.trim now

def run (m : PeerLimits) (es : List PeerEvent) : PeerLimits := es.foldl (step lower) m

/-! ### The limit of a bucket -/

variable {lower} {m : PeerLimits}

theorem recentPeerAdds_onAddPeer (m : PeerLimits) (request : AddRequest) :
    (m.onAddPeer lower request).2.recentPeerAdds =
      m.recentPeerAdds.set (request.bucket lower) request.now := by
  unfold onAddPeer
  split
  · split
    · unfold permitNewOnionPeer
      split
      · rfl
      · rfl
    · rfl
  · rfl

/-- What is remembered of a bucket is a request, and no peer was verified since within the pause
after it. -/
theorem exists_of_get? {es : List PeerEvent} {bucket : String} {last : ℚ}
    (h : (({} : PeerLimits).run lower es).recentPeerAdds.get? bucket = some last) :
    ∃ before earlier after, es = before ++ .addPeer earlier :: after ∧
      earlier.bucket lower = bucket ∧ earlier.now = last ∧
      ∀ now, .verified now ∈ after → last + peerAddPause < now := by
  induction es using List.reverseRecOn generalizing last with
  | nil => cases h
  | append_singleton es e ih =>
    rw [run, List.foldl_append] at h
    cases e with
    | addPeer request =>
      change ((PeerLimits.run lower {} es).onAddPeer lower request).2.recentPeerAdds.get? bucket =
        some last at h
      rw [recentPeerAdds_onAddPeer, OrderedDict.get?_set] at h
      split at h
      · next heq =>
        exact ⟨es, request, [], rfl, heq.symm, Option.some.inj h, fun _ hmem ↦ by cases hmem⟩
      · obtain ⟨before, earlier, after, rfl, hbucket, hlast, hverified⟩ := ih h
        refine ⟨before, earlier, after ++ [.addPeer request], by simp, hbucket, hlast, ?_⟩
        intro now hmem
        rcases List.mem_append.mp hmem with hmem | hmem
        · exact hverified now hmem
        · cases List.mem_singleton.mp hmem
    | verified now =>
      change ((PeerLimits.run lower {} es).trim now).recentPeerAdds.get? bucket = some last at h
      rw [trim, OrderedDict.get?_filter, Option.filter_eq_some_iff] at h
      obtain ⟨before, earlier, after, rfl, hbucket, hlast, hverified⟩ := ih h.1
      refine ⟨before, earlier, after ++ [.verified now], by simp, hbucket, hlast, ?_⟩
      intro now' hmem
      rcases List.mem_append.mp hmem with hmem | hmem
      · exact hverified now' hmem
      · cases List.mem_singleton.mp hmem
        exact of_decide_eq_true h.2

/-- Without a verification a bucket is remembered, with the time of its last request. -/
theorem exists_get? {es : List PeerEvent} {bucket : String} {last : ℚ}
    (h : m.recentPeerAdds.get? bucket = some last) (hlater : ∀ e ∈ es, last ≤ e.now)
    (hunverified : ∀ now, .verified now ∉ es) :
    ∃ last', (m.run lower es).recentPeerAdds.get? bucket = some last' ∧ last ≤ last' := by
  induction es using List.reverseRecOn with
  | nil => exact ⟨last, h, le_rfl⟩
  | append_singleton es e ih =>
    obtain ⟨last', hget, hle⟩ := ih (fun e he ↦ hlater e (List.mem_append_left _ he))
      (fun now he ↦ hunverified now (List.mem_append_left _ he))
    rw [run, List.foldl_append]
    cases e with
    | addPeer request =>
      change ∃ last', ((m.run lower es).onAddPeer lower request).2.recentPeerAdds.get? bucket =
        some last' ∧ last ≤ last'
      rw [recentPeerAdds_onAddPeer, OrderedDict.get?_set]
      split
      · exact ⟨_, rfl, hlater (.addPeer request) (List.mem_append_right _ List.mem_cons_self)⟩
      · exact ⟨last', hget, hle⟩
    | verified now =>
      exact absurd (List.mem_append_right _ List.mem_cons_self) (hunverified now)

/-- **Requests are limited by domain until a peer is verified**: in every run whose times do not
decrease, a request passes the limit exactly when each earlier one for its bucket within the pause
has been followed by the verification of some peer, which forgets it. -/
theorem passes_iff {es : List PeerEvent} (htimes : es.Pairwise fun e e' ↦ e.now ≤ e'.now)
    {request : AddRequest} (hlast : ∀ e ∈ es, e.now ≤ request.now)
    (hpause : peerAddPause < request.now) :
    (({} : PeerLimits).run lower es).Passes lower request ↔
      ∀ before earlier after, es = before ++ .addPeer earlier :: after →
        earlier.bucket lower = request.bucket lower →
        request.now ≤ earlier.now + peerAddPause → ∃ now, .verified now ∈ after := by
  constructor
  · intro hpass before earlier after hes hbucket hwithin
    by_contra hnone
    have hunverified : ∀ now, PeerEvent.verified now ∉ after := fun now hmem ↦ hnone ⟨now, hmem⟩
    rw [hes, List.pairwise_append, List.pairwise_cons] at htimes
    have hset : ((({} : PeerLimits).run lower before).onAddPeer lower
        earlier).2.recentPeerAdds.get? (request.bucket lower) = some earlier.now := by
      rw [recentPeerAdds_onAddPeer, OrderedDict.get?_set, if_pos hbucket.symm]
    obtain ⟨last, hget, hle⟩ := exists_get? hset htimes.2.1.1 hunverified
    have hrun : ({} : PeerLimits).run lower es =
        ((({} : PeerLimits).run lower before).onAddPeer lower earlier).2.run lower after := by
      rw [hes, run, List.foldl_append, List.foldl_cons]
      rfl
    rw [Passes, hrun, hget, Option.getD_some] at hpass
    exact hpass (by linarith)
  · intro hall hblocked
    cases hget : (({} : PeerLimits).run lower es).recentPeerAdds.get? (request.bucket lower) with
    | none =>
      rw [hget, Option.getD_none] at hblocked
      linarith
    | some last =>
      rw [hget, Option.getD_some] at hblocked
      obtain ⟨before, earlier, after, hes, hbucket, rfl, hverified⟩ := exists_of_get? hget
      obtain ⟨now, hmem⟩ := hall before earlier after hes hbucket hblocked
      have hlate := hverified now hmem
      have hle := hlast (.verified now) (by rw [hes]; simp [hmem])
      have hle : now ≤ request.now := hle
      linarith

/-- A request of a server from a domain. -/
def sampleRequest (now : ℚ) : AddRequest := ⟨"a.example.org", false, now, 0, true⟩

/-- A request, and the verification of some peer shortly after it. -/
def samplePeerEvents : List PeerEvent := [.addPeer (sampleRequest 1000), .verified 1100]

theorem samplePeerEvents_passes :
    (({} : PeerLimits).run id samplePeerEvents).Passes id (sampleRequest 1200) ↔
      ∀ before earlier after, samplePeerEvents = before ++ .addPeer earlier :: after →
        earlier.bucket id = (sampleRequest 1200).bucket id →
        (sampleRequest 1200).now ≤ earlier.now + peerAddPause → ∃ now, .verified now ∈ after := by
  have htimes : samplePeerEvents.Pairwise fun e e' ↦ e.now ≤ e'.now := by
    refine List.Pairwise.cons ?_ (List.pairwise_singleton _ _)
    intro e he
    rw [List.mem_singleton.mp he]
    norm_num [PeerEvent.now, sampleRequest]
  have hlast : ∀ e ∈ samplePeerEvents, e.now ≤ (sampleRequest 1200).now := by
    refine List.forall_mem_cons.mpr ⟨?_, List.forall_mem_singleton.mpr ?_⟩
    · norm_num [PeerEvent.now, sampleRequest]
    · norm_num [PeerEvent.now, sampleRequest]
  exact passes_iff htimes hlast (by norm_num [peerAddPause, sampleRequest])

end PeerLimits
end Limits

/-! ### Reported peers -/

/-- `STALE_SECS`, `peers.py:38`. -/
def staleSecs : ℚ := 3 * 3600

/-- What `on_peers_subscribe` reads of a peer. -/
structure Peer where
  /-- The identity of the object. -/
  ident : Nat
  host : String
  ipAddr : Option String
  lastGood : ℚ
  bad : Bool
  isPublic : Bool
  /-- `bucket_for_external_interface`. -/
  bucket : String
  deriving DecidableEq

/-- `Peer.is_tor`, `lib/peer.py:150`. -/
def Peer.isTor (p : Peer) : Bool := p.host.endsWith ".onion"

/-- The attributes of `PeerManager` that reports are made from, `peers` in the order of
iteration. -/
structure KnownPeers where
  myselves : List Peer
  peers : List Peer
  nodup_peers : peers.Nodup
  blacklist : List String

namespace KnownPeers

variable (lower : String → String) (m : KnownPeers) (now : ℚ)

/-- `_is_blacklisted`, `peers.py:171–175`. -/
def isBlacklisted (p : Peer) : Bool :=
  let host := lower p.host
  host ∈ m.blacklist ∨ "*." ++ secondLevelDomain host ∈ m.blacklist ∨
    p.ipAddr.any (· ∈ m.blacklist)

/-- `_get_recent_good_peers`, `peers.py:177–183`. -/
def recentGoodPeers : List Peer :=
  (m.peers.filter fun p ↦ p.lastGood > now - staleSecs ∧ p.bad = false ∧ p.isPublic = true).filter
    fun p ↦ m.isBlacklisted lower p = false

/-- `buckets[…].append(peer)`, `peers.py:597`. -/
def addToBucket (buckets : OrderedDict String (List Peer)) (p : Peer) :
    OrderedDict String (List Peer) :=
  buckets.set p.bucket ((buckets.get? p.bucket).getD [] ++ [p])

/-- The clearnet peers by their buckets. -/
def clearnetBuckets : OrderedDict String (List Peer) :=
  ((m.recentGoodPeers lower now).filter fun p ↦ p.isTor = false).foldl addToBucket .empty

/-- Ourselves, `peers.py:583–588`. -/
def mine : Finset Peer := (m.myselves.filter fun p ↦ p.lastGood > now - staleSecs).toFinset

/-- Ourselves and up to two peers from each bucket, `peers.py:583–600`; `shuffle` gives what the
calls of `random.shuffle` make of their lists. -/
def clearnetPeers (shuffle : Nat → List Peer → List Peer) : Finset Peer :=
  m.mine now ∪ (((m.clearnetBuckets lower now).entries.map Prod.snd).mapIdx fun k bucketPeers ↦
    (shuffle k bucketPeers).take 2).flatten.toFinset

/-- `max_onion`, `peers.py:604`. -/
def maxOnion (shuffle : Nat → List Peer → List Peer) (isTor : Bool) : Nat :=
  if isTor then 50 else max 10 ((m.clearnetPeers lower now shuffle).card / 4)

/-- `on_peers_subscribe`, `peers.py:573–608`: the set of peers whose tuples are returned. -/
def onPeersSubscribe (shuffle : Nat → List Peer → List Peer) (isTor : Bool) : Finset Peer :=
  let onionPeers := shuffle (m.clearnetBuckets lower now).entries.length
    ((m.recentGoodPeers lower now).filter fun p ↦ p.isTor = true)
  m.clearnetPeers lower now shuffle ∪
    (onionPeers.take (m.maxOnion lower now shuffle isTor)).toFinset

variable {lower m now} {shuffle : Nat → List Peer → List Peer} {bucket : String} {p : Peer}

theorem getD_foldl_addToBucket (ps : List Peer) (d : OrderedDict String (List Peer))
    (bucket : String) : ((ps.foldl addToBucket d).get? bucket).getD [] =
      (d.get? bucket).getD [] ++ ps.filter fun p ↦ p.bucket = bucket := by
  induction ps generalizing d with
  | nil => simp
  | cons p ps ih =>
    rw [List.foldl_cons, ih, addToBucket, OrderedDict.get?_set, List.filter_cons]
    by_cases h : p.bucket = bucket
    · simp [h]
    · simp [h, Ne.symm h]

/-- The peers of a bucket. -/
theorem getD_clearnetBuckets (bucket : String) :
    ((m.clearnetBuckets lower now).get? bucket).getD [] =
      (m.recentGoodPeers lower now).filter fun p ↦ p.isTor = false ∧ p.bucket = bucket := by
  rw [clearnetBuckets, getD_foldl_addToBucket, List.filter_filter]
  change [] ++ _ = _
  rw [List.nil_append]
  apply List.filter_congr
  intro p _
  simp only [Bool.decide_and, Bool.and_comm]

theorem eq_of_mem_clearnetBuckets {bucketPeers : List Peer}
    (h : (bucket, bucketPeers) ∈ (m.clearnetBuckets lower now).entries) :
    bucketPeers = (m.recentGoodPeers lower now).filter fun p ↦
      p.isTor = false ∧ p.bucket = bucket := by
  rw [← getD_clearnetBuckets bucket, OrderedDict.mem_entries_iff.mp h, Option.getD_some]

/-- A bucket that has peers is listed. -/
theorem exists_entry (h : (m.recentGoodPeers lower now).filter (fun p ↦
      p.isTor = false ∧ p.bucket = bucket) ≠ []) :
    ∃ k : Nat, (m.clearnetBuckets lower now).entries[k]? = some (bucket,
      (m.recentGoodPeers lower now).filter fun p ↦ p.isTor = false ∧ p.bucket = bucket) := by
  have hget : ((m.clearnetBuckets lower now).get? bucket).getD [] = _ :=
    getD_clearnetBuckets bucket
  cases hb : (m.clearnetBuckets lower now).get? bucket with
  | none =>
    rw [hb] at hget
    exact absurd hget.symm h
  | some bucketPeers =>
    rw [hb, Option.getD_some] at hget
    rw [← hget]
    exact List.getElem?_of_mem (OrderedDict.mem_entries_iff.mpr hb)

theorem mem_clearnetPeers : p ∈ m.clearnetPeers lower now shuffle ↔ p ∈ m.mine now ∨
    ∃ (k : Nat) (bucket : String) (bucketPeers : List Peer),
      (m.clearnetBuckets lower now).entries[k]? = some (bucket, bucketPeers) ∧
      p ∈ (shuffle k bucketPeers).take 2 := by
  rw [clearnetPeers, Finset.mem_union, List.mem_toFinset, List.mem_flatten]
  refine or_congr_right ⟨fun h ↦ ?_, fun h ↦ ?_⟩
  · obtain ⟨l, hl, hp⟩ := h
    obtain ⟨k, hk, rfl⟩ := List.mem_mapIdx.mp hl
    have hk' : k < (m.clearnetBuckets lower now).entries.length := by
      rwa [List.length_map] at hk
    refine ⟨k, _, _, List.getElem?_eq_getElem hk', ?_⟩
    rwa [List.getElem_map] at hp
  · obtain ⟨k, bucket, bucketPeers, hk, hp⟩ := h
    refine ⟨_, List.mem_mapIdx.mpr ⟨k, ?_, rfl⟩, ?_⟩
    · rw [List.length_map]
      exact (List.getElem?_eq_some_iff.mp hk).1
    · rwa [List.getElem_map, (List.getElem?_eq_some_iff.mp hk).2]

/-- What is taken from a bucket comes from it. -/
theorem mem_recent_of_mem_take (hshuffle : ∀ k l, (shuffle k l).Perm l) {k : Nat}
    {bucketPeers : List Peer}
    (hk : (m.clearnetBuckets lower now).entries[k]? = some (bucket, bucketPeers))
    (hp : p ∈ (shuffle k bucketPeers).take 2) :
    p ∈ m.recentGoodPeers lower now ∧ p.isTor = false ∧ p.bucket = bucket := by
  have hmem := (hshuffle k bucketPeers).mem_iff.mp (List.mem_of_mem_take hp)
  rw [eq_of_mem_clearnetBuckets (List.mem_of_getElem? hk)] at hmem
  obtain ⟨hrecent, hrest⟩ := List.mem_filter.mp hmem
  exact ⟨hrecent, of_decide_eq_true hrest⟩

theorem nodup_recentGoodPeers : (m.recentGoodPeers lower now).Nodup :=
  (m.nodup_peers.filter _).filter _

/-- The buckets are told apart by their positions. -/
theorem entries_inj {j k : Nat} {l l' : List Peer}
    (hj : (m.clearnetBuckets lower now).entries[j]? = some (bucket, l))
    (hk : (m.clearnetBuckets lower now).entries[k]? = some (bucket, l')) : j = k := by
  have hkeys := (m.clearnetBuckets lower now).nodup
  have hkey {i : Nat} {l : List Peer}
      (h : (m.clearnetBuckets lower now).entries[i]? = some (bucket, l)) :
      (m.clearnetBuckets lower now).keys[i]? = some bucket := by
    rw [OrderedDict.keys, List.getElem?_map, h]
    rfl
  obtain ⟨hjlt, hjeq⟩ := List.getElem?_eq_some_iff.mp (hkey hj)
  obtain ⟨hklt, hkeq⟩ := List.getElem?_eq_some_iff.mp (hkey hk)
  exact (hkeys.getElem_inj_iff).mp (hjeq.trans hkeq.symm)

/-- **Reports are spread over the networks**: however the lists are shuffled, a report has ourselves
and recent good peers only; from each bucket it has as many clearnet peers as there are, up to two,
and apart from ourselves never more; and it has at most fifty onion peers for a client of the onion
network, and for others at most ten or a quarter of the rest. -/
theorem onPeersSubscribe_spread (hshuffle : ∀ k l, (shuffle k l).Perm l) (isTor : Bool) :
    m.mine now ⊆ m.onPeersSubscribe lower now shuffle isTor ∧
    (∀ p ∈ m.onPeersSubscribe lower now shuffle isTor,
      p ∈ m.mine now ∨ p ∈ m.recentGoodPeers lower now) ∧
    (∀ bucket, min 2 ((m.recentGoodPeers lower now).filter fun p ↦
        p.isTor = false ∧ p.bucket = bucket).length ≤
      ((m.onPeersSubscribe lower now shuffle isTor).filter fun p ↦
        p.isTor = false ∧ p.bucket = bucket).card) ∧
    (∀ bucket, ((m.onPeersSubscribe lower now shuffle isTor).filter fun p ↦
        (p.isTor = false ∧ p.bucket = bucket) ∧ p ∉ m.mine now).card ≤ 2) ∧
    ((m.onPeersSubscribe lower now shuffle isTor).filter fun p ↦
        p.isTor = true ∧ p ∉ m.mine now).card ≤
      if isTor then 50 else max 10 (((m.onPeersSubscribe lower now shuffle isTor).filter fun p ↦
        p.isTor = false ∨ p ∈ m.mine now).card / 4) := by
  let onionPeers := (shuffle (m.clearnetBuckets lower now).entries.length
    ((m.recentGoodPeers lower now).filter fun p ↦ p.isTor = true)).take
      (m.maxOnion lower now shuffle isTor)
  have hmem {p : Peer} : p ∈ m.onPeersSubscribe lower now shuffle isTor ↔
      p ∈ m.clearnetPeers lower now shuffle ∨ p ∈ onionPeers := by
    rw [onPeersSubscribe, Finset.mem_union, List.mem_toFinset]
  have honion {p : Peer} (hp : p ∈ onionPeers) :
      p ∈ m.recentGoodPeers lower now ∧ p.isTor = true := by
    obtain ⟨hrecent, htor⟩ :=
      List.mem_filter.mp ((hshuffle _ _).mem_iff.mp (List.mem_of_mem_take hp))
    exact ⟨hrecent, of_decide_eq_true htor⟩
  have hclear {p : Peer} (hp : p ∈ m.clearnetPeers lower now shuffle) :
      p ∈ m.mine now ∨ p ∈ m.recentGoodPeers lower now ∧ p.isTor = false := by
    refine (mem_clearnetPeers.mp hp).imp_right fun h ↦ ?_
    obtain ⟨k, bucket, bucketPeers, hk, hp⟩ := h
    obtain ⟨hrecent, htor, -⟩ := mem_recent_of_mem_take hshuffle hk hp
    exact ⟨hrecent, htor⟩
  refine ⟨fun p hp ↦ hmem.mpr (.inl (mem_clearnetPeers.mpr (.inl hp))), fun p hp ↦ ?_,
    fun bucket ↦ ?_, fun bucket ↦ ?_, ?_⟩
  · rcases hmem.mp hp with hp | hp
    · exact (hclear hp).imp_right And.left
    · exact .inr (honion hp).1
  · -- the first two of a bucket that has peers are taken
    by_cases hnone : (m.recentGoodPeers lower now).filter
        (fun p ↦ p.isTor = false ∧ p.bucket = bucket) = []
    · rw [hnone, List.length_nil, Nat.min_zero]
      exact Nat.zero_le _
    · obtain ⟨k, hk⟩ := exists_entry hnone
      generalize hgroup : (m.recentGoodPeers lower now).filter
        (fun p ↦ p.isTor = false ∧ p.bucket = bucket) = group at hk
      have hnodup : ((shuffle k group).take 2).Nodup := by
        refine (List.take_sublist _ _).nodup ((hshuffle k group).nodup_iff.mpr ?_)
        rw [← hgroup]
        exact nodup_recentGoodPeers.filter _
      have hcard : ((shuffle k group).take 2).toFinset.card = min 2 group.length := by
        rw [List.toFinset_card_of_nodup hnodup, List.length_take, (hshuffle k group).length_eq]
      rw [← hcard]
      apply Finset.card_le_card
      intro p hp
      have hp := List.mem_toFinset.mp hp
      exact Finset.mem_filter.mpr
        ⟨hmem.mpr (.inl (mem_clearnetPeers.mpr (.inr ⟨k, bucket, group, hk, hp⟩))),
          (mem_recent_of_mem_take hshuffle hk hp).2⟩
  · -- what is not ourselves was taken from the one list of the bucket
    have htaken {p : Peer} (hp : p ∈ (m.onPeersSubscribe lower now shuffle isTor).filter fun p ↦
        (p.isTor = false ∧ p.bucket = bucket) ∧ p ∉ m.mine now) :
        ∃ k bucketPeers, (m.clearnetBuckets lower now).entries[k]? = some (bucket, bucketPeers) ∧
          p ∈ (shuffle k bucketPeers).take 2 := by
      obtain ⟨hin, ⟨htor, rfl⟩, hmine⟩ := Finset.mem_filter.mp hp
      rcases hmem.mp hin with hp | hp
      · obtain ⟨k, bucket, bucketPeers, hk, hp⟩ := (mem_clearnetPeers.mp hp).resolve_left hmine
        rw [← (mem_recent_of_mem_take hshuffle hk hp).2.2] at hk
        exact ⟨k, bucketPeers, hk, hp⟩
      · rw [(honion hp).2] at htor
        cases htor
    by_cases hlisted : ∃ (k : Nat) (bucketPeers : List Peer),
        (m.clearnetBuckets lower now).entries[k]? = some (bucket, bucketPeers)
    · obtain ⟨k, bucketPeers, hk⟩ := hlisted
      refine (Finset.card_le_card (t := ((shuffle k bucketPeers).take 2).toFinset) ?_).trans ?_
      · intro p hp
        obtain ⟨k', bucketPeers', hk', hp⟩ := htaken hp
        cases entries_inj hk' hk
        cases hk'.symm.trans hk
        exact List.mem_toFinset.mpr hp
      · exact (List.toFinset_card_le _).trans (List.length_take_le _ _)
    · rw [Finset.card_eq_zero.mpr (Finset.eq_empty_of_forall_notMem fun p hp ↦ ?_)]
      · exact Nat.zero_le _
      · obtain ⟨k, bucketPeers, hk, -⟩ := htaken hp
        exact hlisted ⟨k, bucketPeers, hk⟩
  · -- the rest is what the limit was computed from
    have hrest : (m.onPeersSubscribe lower now shuffle isTor).filter (fun p ↦
        p.isTor = false ∨ p ∈ m.mine now) = m.clearnetPeers lower now shuffle := by
      ext p
      rw [Finset.mem_filter, hmem]
      constructor
      · rintro ⟨hp | hp, hrest⟩
        · exact hp
        · rcases hrest with htor | hmine
          · rw [(honion hp).2] at htor
            cases htor
          · exact mem_clearnetPeers.mpr (.inl hmine)
      · intro hp
        refine ⟨.inl hp, ?_⟩
        rcases hclear hp with hmine | hrecent
        · exact .inr hmine
        · exact .inl hrecent.2
    rw [hrest]
    refine (Finset.card_le_card (t := onionPeers.toFinset) ?_).trans ?_
    · intro p hp
      obtain ⟨hp, htor, hmine⟩ := Finset.mem_filter.mp hp
      rcases hmem.mp hp with hp | hp
      · rcases hclear hp with hin | hrecent
        · exact absurd hin hmine
        · rw [hrecent.2] at htor
          cases htor
      · exact List.mem_toFinset.mpr hp
    · exact (List.toFinset_card_le _).trans (List.length_take_le _ _)

/-- Three peers from one network and one of the onion network. -/
def sampleKnownPeers : KnownPeers where
  myselves := []
  peers := [⟨0, "a.org", some "1.2.3.4", 5, false, true, "1.2.0.0/16"⟩,
    ⟨1, "b.org", some "1.2.3.5", 5, false, true, "1.2.0.0/16"⟩,
    ⟨2, "c.org", some "1.2.3.6", 5, false, true, "1.2.0.0/16"⟩,
    ⟨3, "d.onion", none, 5, false, true, "onion"⟩]
  nodup_peers := by decide +kernel
  blacklist := []

theorem sampleKnownPeers_spread :
    sampleKnownPeers.mine 10 ⊆ sampleKnownPeers.onPeersSubscribe id 10 (fun _ l ↦ l.reverse) false ∧
    (∀ p ∈ sampleKnownPeers.onPeersSubscribe id 10 (fun _ l ↦ l.reverse) false,
      p ∈ sampleKnownPeers.mine 10 ∨ p ∈ sampleKnownPeers.recentGoodPeers id 10) ∧
    (∀ bucket, min 2 ((sampleKnownPeers.recentGoodPeers id 10).filter fun p ↦
        p.isTor = false ∧ p.bucket = bucket).length ≤
      ((sampleKnownPeers.onPeersSubscribe id 10 (fun _ l ↦ l.reverse) false).filter fun p ↦
        p.isTor = false ∧ p.bucket = bucket).card) ∧
    (∀ bucket, ((sampleKnownPeers.onPeersSubscribe id 10 (fun _ l ↦ l.reverse) false).filter
        fun p ↦ (p.isTor = false ∧ p.bucket = bucket) ∧ p ∉ sampleKnownPeers.mine 10).card ≤ 2) ∧
    ((sampleKnownPeers.onPeersSubscribe id 10 (fun _ l ↦ l.reverse) false).filter fun p ↦
        p.isTor = true ∧ p ∉ sampleKnownPeers.mine 10).card ≤
      if false then 50 else
        max 10 (((sampleKnownPeers.onPeersSubscribe id 10 (fun _ l ↦ l.reverse) false).filter
          fun p ↦ p.isTor = false ∨ p ∈ sampleKnownPeers.mine 10).card / 4) :=
  onPeersSubscribe_spread (fun _ l ↦ List.reverse_perm l) false

end KnownPeers
end ElectrumX.Server
