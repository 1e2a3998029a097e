import ElectrumX.Lib.Util
import Mathlib.Data.Nat.Size
import Mathlib.Data.Rat.Defs

/-!
# The padded transport

The model of `server/transport.py:18–106`. Messages are framed into a send buffer, from which
packets are cut at the end of a message and padded to a power of two with spaces in front of
its last bracket. Clock readings and the switches of the transport are arbitrary.
-/

namespace ElectrumX.Server
open ElectrumX.Base ElectrumX.Lib

/-- `PaddedRSTransport`, `transport.py:18–36`, with the packets given to the asyncio
transport. -/
structure Transport where
  sbuffer : Bytes := []
  hasData : Bool := false
  lastSend : Rat := 0
  forceSend : Bool := false
  canSend : Bool := true
  closing : Bool := false
  wire : List Bytes := []

namespace Transport

/-- `MIN_PACKET_SIZE`, `transport.py:25`. -/
def minPacketSize : Nat := 1024

/-- `WAIT_FOR_BUFFER_GROWTH_SECONDS`, `transport.py:26`. -/
def waitForBufferGrowthSeconds : Rat := 1

/-- The bytes of `\n`, `}`, `]` and the space. -/
def newline : UInt8 := 10
def closingBrace : UInt8 := 125
def closingBracket : UInt8 := 93
def space : UInt8 := 32

/-- The framer of a raw socket: a newline ends each message. -/
def frame (message : Bytes) : Bytes := message ++ [newline]

/-- `b.rfind(x)`. -/
def rfind (x : UInt8) : Bytes → Option Nat
  | [] => none
  | b :: bs =>
    match rfind x bs with
    | some i => some (i + 1)
    | none => if b = x then some 0 else none

/-- The assertions on the last two bytes, `transport.py:62,87`. -/
def isTerminator (b : Bytes) : Prop := b = [closingBrace, newline] ∨ b = [closingBracket, newline]

instance (b : Bytes) : Decidable (isTerminator b) := inferInstanceAs (Decidable (_ ∨ _))

/-- The length of the larger packet, `transport.py:65`. -/
def totalLsize (payload : Nat) : Nat := max minPacketSize (2 ^ payload.size)

/-- The length of the smaller packet, `transport.py:69`. -/
def totalSsize (payload : Nat) : Nat := max minPacketSize (totalLsize payload / 2)

/-- The choice between the packets, `transport.py:63–84`: the number of spaces and of bytes
consumed. -/
def choosePacket (forceSend : Bool) (buf : Bytes) : Int × Nat :=
  let payloadLsize := buf.length
  let npadLsize : Int := (totalLsize payloadLsize : Int) - payloadLsize
  match rfind newline (buf.take (totalSsize payloadLsize)) with
  | none => (npadLsize, payloadLsize)
  | some i =>
    let payloadSsize := i + 1
    let npadSsize : Int := (totalSsize payloadLsize : Int) - payloadSsize
    if forceSend ∨ npadLsize ≤ npadSsize then (npadLsize, payloadLsize)
    else (npadSsize, payloadSsize)

/-- `_maybe_consume_sbuffer`, `transport.py:48–93`. The clock is read twice. -/
def maybeConsumeSbuffer (t : Transport) (now later : Rat) : Except PyError Transport := do
  if ¬t.canSend ∨ t.closing then return t
  let buf := t.sbuffer
  if buf = [] then return t
  if ¬(t.forceSend ∨ buf.length ≥ minPacketSize ∨
      t.lastSend + waitForBufferGrowthSeconds < now) then
    return t
  assertThat (isTerminator (pySlice buf (-2) buf.length))
  let (npad, pIdx) := choosePacket t.forceSend buf
  let jsonRpcTerminator := pySlice buf ((pIdx : Int) - 2) pIdx
  assertThat (isTerminator jsonRpcTerminator)
  let buf2 := pySlice buf 0 ((pIdx : Int) - 2) ++ List.replicate npad.toNat space ++
    jsonRpcTerminator
  return { t with
    wire := t.wire ++ [buf2]
    lastSend := later
    sbuffer := buf.drop pIdx
    hasData := decide (buf.drop pIdx ≠ []) && t.hasData }

/-- `write` after its await, `transport.py:39–46`. -/
def write (t : Transport) (message : Bytes) (now later : Rat) : Except PyError Transport := do
  if t.closing then return t
  let t := { t with sbuffer := t.sbuffer ++ frame message, hasData := true }
  t.maybeConsumeSbuffer now later

/-- What happens to a transport between two awaits. `_poll_sbuffer` consumes at any time, and
sessions and the event loop move the switches. -/
inductive Event where
  | write (message : Bytes) (now later : Rat)
  | consume (now later : Rat)
  | setForceSend (forceSend : Bool)
  | setCanSend (canSend : Bool)
  | close

/-- One event. -/
def step (t : Transport) : Event → Except PyError Transport
  | .write message now later => t.write message now later
  | .consume now later => t.maybeConsumeSbuffer now later
  | .setForceSend forceSend => return { t with forceSend }
  | .setCanSend canSend => return { t with canSend }
  | .close => return { t with closing := true }

/-! ### Messages in the buffer -/

/-- A message as a session sends it: JSON without newlines, of an object or an array. -/
structure Message (message : Bytes) : Prop where
  no_newline : newline ∉ message
  last : ∃ body c, message = body ++ [c] ∧ (c = closingBrace ∨ c = closingBracket)

/-- Framed messages one behind the other. -/
def frames (messages : List Bytes) : Bytes := messages.flatMap frame

theorem frames_append (a b : List Bytes) : frames (a ++ b) = frames a ++ frames b :=
  List.flatMap_append

theorem rfind_eq_some {x : UInt8} {b : Bytes} {i : Nat} (h : rfind x b = some i) :
    b[i]? = some x := by
  induction b generalizing i with
  | nil => cases h
  | cons y ys ih =>
    rw [rfind] at h
    split at h
    · next j hj =>
      cases h
      rw [List.getElem?_cons_succ, ih hj]
    · split at h
      · next hy =>
        cases h
        rw [List.getElem?_cons_zero, hy]
      · cases h

/-- Messages end in a terminator. -/
theorem frames_terminator {messages : List Bytes} (hm : ∀ m ∈ messages, Message m)
    (hne : messages ≠ []) : ∃ a b, frames messages = a ++ b ∧ b.length = 2 ∧ isTerminator b := by
  obtain ⟨init, m, rfl⟩ : ∃ init m, messages = init ++ [m] :=
    ⟨_, _, (List.dropLast_append_getLast hne).symm⟩
  obtain ⟨body, c, rfl, hc⟩ := (hm m (by simp)).last
  refine ⟨frames init ++ body, [c, newline], ?_, rfl, ?_⟩
  · rw [frames_append]
    simp [frames, frame]
  · rcases hc with rfl | rfl
    · exact .inl rfl
    · exact .inr rfl

/-- A newline in the buffer is the end of a message. -/
theorem exists_cut {messages : List Bytes} (hm : ∀ m ∈ messages, Message m) {i : Nat}
    (h : (frames messages)[i]? = some newline) :
    ∃ pre post, messages = pre ++ post ∧ pre ≠ [] ∧ (frames pre).length = i + 1 := by
  induction messages generalizing i with
  | nil => cases h
  | cons m rest ih =>
    have hcat : frames (m :: rest) = m ++ ([newline] ++ frames rest) := by
      simp [frames, frame]
    rw [hcat] at h
    rcases Nat.lt_trichotomy i m.length with hlt | rfl | hgt
    · rw [List.getElem?_append_left hlt] at h
      exact absurd (List.mem_of_getElem? h) (hm m List.mem_cons_self).no_newline
    · exact ⟨[m], rest, rfl, List.cons_ne_nil _ _, by simp [frames, frame]⟩
    · rw [List.getElem?_append_right hgt.le, List.getElem?_append_right (by simp; omega)] at h
      obtain ⟨pre, post, rfl, -, hlen⟩ := ih (fun x hx ↦ hm x (List.mem_cons_of_mem _ hx)) h
      refine ⟨m :: pre, post, rfl, List.cons_ne_nil _ _, ?_⟩
      have hl : (frames (m :: pre)).length = m.length + 1 + (frames pre).length := by
        rw [frames, List.flatMap_cons, List.length_append, frame, List.length_append, frames]
        rfl
      rw [hl, hlen, List.length_singleton]
      omega

/-! ### Packets -/

/-- A payload with spaces in front of its last two bytes. -/
def pad (payload : Bytes) (n : Nat) : Bytes :=
  payload.take (payload.length - 2) ++ List.replicate n space ++ payload.drop (payload.length - 2)

/-- A packet: the messages in it and the number of spaces. -/
structure Packet where
  messages : List Bytes
  npad : Nat

namespace Packet

/-- The payload, without the padding. -/
def payload (p : Packet) : Bytes := frames p.messages

/-- What is put on the wire. -/
def bytes (p : Packet) : Bytes := pad p.payload p.npad

/-- A packet of complete messages whose length is a power of two. -/
structure Valid (p : Packet) : Prop where
  ne_nil : p.messages ≠ []
  messages : ∀ m ∈ p.messages, Message m
  length : ∃ k, p.bytes.length = 2 ^ k
  le_length : minPacketSize ≤ p.bytes.length

end Packet

private theorem two_pow_max (a b : Nat) : 2 ^ max a b = max (2 ^ a) (2 ^ b) := by
  rcases le_total a b with h | h
  · rw [max_eq_right h, max_eq_right (Nat.pow_le_pow_right (by decide) h)]
  · rw [max_eq_left h, max_eq_left (Nat.pow_le_pow_right (by decide) h)]

private theorem totalLsize_eq (n : Nat) : totalLsize n = 2 ^ max 10 n.size := by
  rw [totalLsize, two_pow_max]
  rfl

private theorem totalSsize_eq (n : Nat) : totalSsize n = 2 ^ max 10 (max 10 n.size - 1) := by
  have hhalf : totalLsize n / 2 = 2 ^ (max 10 n.size - 1) := by
    rw [totalLsize_eq]
    obtain ⟨k, hk⟩ : ∃ k, max 10 n.size = k + 1 := ⟨max 10 n.size - 1, by omega⟩
    rw [hk, Nat.pow_succ, Nat.mul_div_cancel _ (by decide), Nat.add_sub_cancel]
  rw [totalSsize, hhalf, two_pow_max]
  rfl

/-- Either packet takes up whole messages and fits a power of two. -/
theorem choosePacket_eq {messages : List Bytes} (hm : ∀ m ∈ messages, Message m)
    (hne : messages ≠ []) (forceSend : Bool) :
    ∃ pre post k, messages = pre ++ post ∧ pre ≠ [] ∧ 10 ≤ k ∧ (frames pre).length ≤ 2 ^ k ∧
      choosePacket forceSend (frames messages) =
        (((2 ^ k : Nat) : Int) - (frames pre).length, (frames pre).length) := by
  have hlarge : ∃ pre post k, messages = pre ++ post ∧ pre ≠ [] ∧ 10 ≤ k ∧
      (frames pre).length ≤ 2 ^ k ∧
        ((totalLsize (frames messages).length : Int) - (frames messages).length,
          (frames messages).length) =
            (((2 ^ k : Nat) : Int) - (frames pre).length, (frames pre).length) := by
    refine ⟨messages, [], max 10 (frames messages).length.size, by simp, hne, le_max_left _ _, ?_,
      by rw [totalLsize_eq]⟩
    exact (Nat.lt_size_self _).le.trans (Nat.pow_le_pow_right (by decide) (le_max_right _ _))
  rw [choosePacket]
  dsimp only
  split
  · exact hlarge
  · next i hi =>
    split
    · exact hlarge
    · have hget := rfind_eq_some hi
      have hlt := (List.getElem?_eq_some_iff.mp hget).1
      rw [List.length_take] at hlt
      rw [List.getElem?_take_of_lt (by omega)] at hget
      obtain ⟨pre, post, hcat, hpre, hlen⟩ := exists_cut hm hget
      refine ⟨pre, post, _, hcat, hpre, le_max_left _ _, ?_, by rw [hlen, totalSsize_eq]⟩
      rw [hlen, ← totalSsize_eq]
      omega

private theorem pySlice_last_two (a : Bytes) {b : Bytes} (hb : b.length = 2) :
    pySlice (a ++ b) (-2) (a ++ b).length = b := by
  have hl : (a ++ b).length = a.length + 2 := by rw [List.length_append, hb]
  have hstart : (-2 + ((a.length + 2 : Nat) : Int)).toNat = a.length := by omega
  simp only [pySlice, hl, hstart, Int.reduceNeg, Int.reduceLT, if_true, Int.toNat_natCast,
    if_neg (show ¬((a.length + 2 : Nat) : Int) < 0 by omega), Nat.min_self]
  rw [List.drop_left, Nat.add_sub_cancel_left, ← hb, List.take_length]

theorem pad_append (a : Bytes) {b : Bytes} (hb : b.length = 2) (n : Nat) :
    pad (a ++ b) n = a ++ List.replicate n space ++ b := by
  have hl : (a ++ b).length - 2 = a.length := by rw [List.length_append, hb, Nat.add_sub_cancel]
  rw [pad, hl, List.take_left, List.drop_left]

/-- `_maybe_consume_sbuffer` passes its assertions; it sends nothing, or one valid packet with
the first messages of the buffer. -/
theorem maybeConsumeSbuffer_cases (t : Transport) {pending : List Bytes}
    (hm : ∀ m ∈ pending, Message m) (hs : t.sbuffer = frames pending) (now later : Rat) :
    t.maybeConsumeSbuffer now later = .ok t ∨
      ∃ (t' : Transport) (p : Packet) (post : List Bytes),
        t.maybeConsumeSbuffer now later = .ok t' ∧ pending = p.messages ++ post ∧ p.Valid ∧
        t'.wire = t.wire ++ [p.bytes] ∧ t'.sbuffer = frames post := by
  rw [maybeConsumeSbuffer]
  split
  · exact .inl rfl
  · dsimp only [pure_bind]
    split
    · exact .inl rfl
    · next hbuf =>
      split
      · exact .inl rfl
      · have hne : pending ≠ [] := by
          rintro rfl
          exact hbuf hs
        obtain ⟨pre, post, k, rfl, hpre, hk, hfit, hchoose⟩ :=
          choosePacket_eq hm hne t.forceSend
        have hmpre : ∀ m ∈ pre, Message m := fun m h ↦ hm m (List.mem_append_left _ h)
        obtain ⟨a, b, hab, hb, hterm⟩ := frames_terminator hm hne
        obtain ⟨c, d, hcd, hd, hterm'⟩ := frames_terminator hmpre hpre
        have hlen : (frames pre).length = c.length + 2 := by
          rw [hcd, List.length_append, hd]
        have hbuf' : frames (pre ++ post) = c ++ d ++ frames post := by
          rw [frames_append, hcd]
        have hidx : ((frames pre).length : Int) - 2 = c.length := by omega
        have hidx' : ((frames pre).length : Int) = c.length + d.length := by omega
        have hlast := pySlice_last_two a hb
        rw [← hab] at hlast
        have hcut : pySlice (frames (pre ++ post)) (((frames pre).length : Int) - 2)
            (frames pre).length = d := by
          rw [hidx, hidx', hbuf', pySlice_append]
        have hbody : pySlice (frames (pre ++ post)) 0 (((frames pre).length : Int) - 2) = c := by
          have h0 := pySlice_append [] c (d ++ frames post)
          simp only [List.nil_append, List.length_nil, Int.natCast_zero, Int.zero_add] at h0
          rw [hidx, hbuf', List.append_assoc, h0]
        have hrest : (frames (pre ++ post)).drop (frames pre).length = frames post := by
          rw [frames_append, List.drop_left]
        have hpad : (((2 ^ k : Nat) : Int) - (frames pre).length).toNat =
            2 ^ k - (frames pre).length := by omega
        rw [hs, hlast, assertThat_of hterm, hchoose]
        dsimp only
        rw [hcut, assertThat_of hterm', hbody, hrest, hpad]
        have hbytes : (Packet.mk pre (2 ^ k - (frames pre).length)).bytes =
            c ++ List.replicate (2 ^ k - (frames pre).length) space ++ d := by
          rw [Packet.bytes, Packet.payload, hcd, pad_append c hd]
        have hlength : (Packet.mk pre (2 ^ k - (frames pre).length)).bytes.length = 2 ^ k := by
          rw [hbytes]
          simp only [List.length_append, List.length_replicate, hd]
          omega
        refine .inr ⟨_, ⟨pre, 2 ^ k - (frames pre).length⟩, post, rfl, rfl,
          ⟨hpre, hmpre, ⟨k, hlength⟩, ?_⟩, by rw [hbytes], rfl⟩
        rw [hlength]
        change 2 ^ 10 ≤ 2 ^ k
        exact Nat.pow_le_pow_right (by decide) hk

/-! ### Runs -/

/-- A write is of a message. -/
def Event.WellFormed : Event → Prop
  | .write message _ _ => Message message
  | _ => True

/-- The messages that an event frames: a closing transport frames none. -/
def framed (t : Transport) : Event → List Bytes
  | .write message _ _ => if t.closing then [] else [message]
  | _ => []

/-- The states that a new transport reaches, with the messages framed on the way. -/
inductive Run : Transport → List Bytes → Prop
  | start (lastSend : Rat) : Run { lastSend } []
  | step {t t' : Transport} {messages : List Bytes} {e : Event} (r : Run t messages)
      (he : e.WellFormed) (h : t.step e = .ok t') : Run t' (messages ++ t.framed e)

/-- Packets are on the wire, and the messages framed are in them or in the buffer. -/
structure Conveys (t : Transport) (messages : List Bytes) (packets : List Packet)
    (pending : List Bytes) : Prop where
  wire : t.wire = packets.map Packet.bytes
  sbuffer : t.sbuffer = frames pending
  messages_eq : packets.flatMap Packet.messages ++ pending = messages
  valid : ∀ p ∈ packets, p.Valid
  pending : ∀ m ∈ pending, Message m

section Step

variable {t : Transport} {messages pending : List Bytes} {packets : List Packet}

theorem Conveys.maybeConsumeSbuffer (h : Conveys t messages packets pending) (now later : Rat) :
    ∃ t' packets' pending', t.maybeConsumeSbuffer now later = .ok t' ∧
      Conveys t' messages packets' pending' := by
  rcases t.maybeConsumeSbuffer_cases h.pending h.sbuffer now later with
    heq | ⟨t', p, post, heq, rfl, hp, hwire, hbuf⟩
  · exact ⟨t, packets, pending, heq, h⟩
  · refine ⟨t', packets ++ [p], post, heq, ?_, hbuf, ?_, ?_, ?_⟩
    · rw [hwire, h.wire, List.map_append, List.map_singleton]
    · rw [← h.messages_eq, List.flatMap_append, List.flatMap_singleton, List.append_assoc]
    · intro q hq
      rcases List.mem_append.mp hq with hq | hq
      · exact h.valid q hq
      · rwa [List.mem_singleton.mp hq]
    · exact fun m hm ↦ h.pending m (List.mem_append_right _ hm)

/-- An event raises nothing, and conveys what it frames. -/
theorem Conveys.step (h : Conveys t messages packets pending) {e : Event} (he : e.WellFormed) :
    ∃ t' packets' pending', t.step e = .ok t' ∧
      Conveys t' (messages ++ t.framed e) packets' pending' := by
  cases e with
  | write message now later =>
    rw [Transport.step, Transport.write, framed]
    by_cases hc : t.closing = true
    · rw [if_pos hc, if_pos hc, List.append_nil]
      exact ⟨t, packets, pending, rfl, h⟩
    · rw [if_neg hc, if_neg hc]
      have hnext : Conveys { t with sbuffer := t.sbuffer ++ frame message, hasData := true }
          (messages ++ [message]) packets (pending ++ [message]) := by
        refine ⟨h.wire, ?_, ?_, h.valid, fun m hm ↦ ?_⟩
        · rw [frames_append, ← h.sbuffer]
          simp [frames]
        · rw [← h.messages_eq, List.append_assoc]
        · rcases List.mem_append.mp hm with hm | hm
          · exact h.pending m hm
          · rwa [List.mem_singleton.mp hm]
      exact hnext.maybeConsumeSbuffer now later
  | consume now later =>
    simp only [framed, List.append_nil]
    exact h.maybeConsumeSbuffer now later
  | setForceSend forceSend =>
    simp only [framed, List.append_nil]
    exact ⟨_, packets, pending, rfl, { h with }⟩
  | setCanSend canSend =>
    simp only [framed, List.append_nil]
    exact ⟨_, packets, pending, rfl, { h with }⟩
  | close =>
    simp only [framed, List.append_nil]
    exact ⟨_, packets, pending, rfl, { h with }⟩

end Step

theorem Run.conveys {t : Transport} {messages : List Bytes} (r : Run t messages) :
    ∃ packets pending, Conveys t messages packets pending := by
  induction r with
  | start lastSend => exact ⟨[], [], rfl, rfl, rfl, by simp, by simp⟩
  | step _ he h ih =>
    obtain ⟨packets, pending, hc⟩ := ih
    obtain ⟨t', packets', pending', heq, hc'⟩ := hc.step he
    cases heq.symm.trans h
    exact ⟨packets', pending', hc'⟩

/-- In every run the payloads of the packets on the wire and the buffer are the framed messages in
order, each packet holds complete messages and has a power of two as its length, and no assertion
fails whatever happens next. -/
theorem Run.packets_exact {t : Transport} {messages : List Bytes} (r : Run t messages) :
    (∃ packets : List Packet, t.wire = packets.map Packet.bytes ∧
      packets.flatMap Packet.payload ++ t.sbuffer = frames messages ∧ ∀ p ∈ packets, p.Valid) ∧
    ∀ e : Event, e.WellFormed → ∃ t', t.step e = .ok t' := by
  obtain ⟨packets, pending, h⟩ := r.conveys
  refine ⟨⟨packets, h.wire, ?_, h.valid⟩, fun e he ↦ ?_⟩
  · have hpayload : packets.flatMap Packet.payload = frames (packets.flatMap Packet.messages) :=
      List.flatMap_assoc.symm
    rw [hpayload, h.sbuffer, ← frames_append, h.messages_eq]
  · obtain ⟨t', -, -, heq, -⟩ := h.step he
    exact ⟨t', heq⟩

/-- An object with spaces in it. -/
def sampleObject (spaces : Nat) : Bytes := 123 :: List.replicate spaces space ++ [closingBrace]

theorem sampleObject_message (spaces : Nat) : Message (sampleObject spaces) where
  no_newline := by simp [sampleObject, newline, space, closingBrace]
  last := ⟨_, closingBrace, rfl, .inl rfl⟩

/-- Two objects in quick succession: both would take a packet of 2048 bytes, the first one alone
takes one of 1024 with fewer spaces. -/
def sampleSent : Except PyError Transport := do
  let t ← ({ lastSend := 0 } : Transport).step (.write (sampleObject 898) 0 0)
  t.step (.write (sampleObject 598) 0 0)

theorem sampleSent_packets : ∃ t, sampleSent = .ok t ∧ t.wire.map List.length = [1024] ∧
    t.sbuffer = frames [sampleObject 598] ∧
    ∃ packets : List Packet, t.wire = packets.map Packet.bytes ∧
      packets.flatMap Packet.payload = frames [sampleObject 898] ∧ ∀ p ∈ packets, p.Valid := by
  obtain ⟨t1, h1, hclosing, t, h2, hwire, hbuf⟩ : ∃ t1,
      ({ lastSend := 0 } : Transport).step (.write (sampleObject 898) 0 0) = .ok t1 ∧
      t1.closing = false ∧ ∃ t, t1.step (.write (sampleObject 598) 0 0) = .ok t ∧
      t.wire.map List.length = [1024] ∧ t.sbuffer = frames [sampleObject 598] := by
    decide +kernel
  have hfirst : (Event.write (sampleObject 898) 0 0).WellFormed := sampleObject_message 898
  have hsecond : (Event.write (sampleObject 598) 0 0).WellFormed := sampleObject_message 598
  have r := ((Run.start 0).step hfirst h1).step hsecond h2
  simp only [framed, hclosing] at r
  obtain ⟨⟨packets, heq, hpayload, hvalid⟩, -⟩ := r.packets_exact
  have hsplit : packets.flatMap Packet.payload ++ frames [sampleObject 598] =
      frames [sampleObject 898] ++ frames [sampleObject 598] := by
    rw [← frames_append, ← hbuf, hpayload]
    rfl
  exact ⟨t, bind_eq_ok.mpr ⟨t1, h1, h2⟩, hwire, hbuf, packets, heq,
    List.append_cancel_right hsplit, hvalid⟩

end Transport
end ElectrumX.Server
