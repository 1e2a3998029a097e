import ElectrumX.Lib.Names

/-!
# The script parser and its grammar

`Script.get_ops` and `find_end_position_of_name` walk a script with a cursor. A round of either
reads one well-formed element exactly when the script goes on with the encoding of one, and
raises an exception otherwise.
-/

namespace ElectrumX.Lib
open ElectrumX.Base

/-- The exception of `Script.get_ops`, `lib/script.py:156`. -/
inductive ScriptError
  | truncatedScript
  deriving DecidableEq, Repr

/-- `unpack_le_uint16_from`, `lib/util.py:327`: the first two bytes. -/
def unpackLeUint16From (b : Bytes) : Except PyError Nat :=
  if 2 ≤ b.length then .ok (unpackLE (b.take 2)) else .error .structError

/-- `unpack_le_uint32_from`, `lib/util.py:328`: the first four bytes. -/
def unpackLeUint32From (b : Bytes) : Except PyError Nat :=
  if 4 ≤ b.length then .ok (unpackLE (b.take 4)) else .error .structError

/-- `struct.unpack('<H', b)`. -/
def unpackLeUint16 (b : Bytes) : Except PyError Nat :=
  if b.length = 2 then .ok (unpackLE b) else .error .structError

namespace ScriptParser

/-- The length of the data of a push and the cursor behind it, `lib/script.py:136–146` and
`lib/coins.py:667–677`. The two loops differ in how they unpack integers. -/
def readDlen (unpack16 unpack32 : Bytes → Except PyError Nat) (script : Bytes) (op : UInt8)
    (n : Nat) : Except PyError (Nat × Nat) :=
  if op < 76 then .ok (op.toNat, n)
  else if op = 76 then do return ((← getItem script n).toNat, n + 1)
  else if op = 77 then do return (← unpack16 ((script.drop n).take 2), n + 2)
  else do return (← unpack32 ((script.drop n).take 4), n + 4)

/-- A round of `get_ops`, `lib/script.py:131–152`: the element and the cursor behind it. -/
def getOpsRound (script : Bytes) (n : Nat) : Except PyError (ScriptOp × Nat) := do
  let op ← getItem script n
  if op ≤ 78 then
    let (dlen, n) ← readDlen unpackLeUint16From unpackLeUint32From script op (n + 1)
    if n + dlen > script.length then throw .indexError
    return (.push op ((script.drop n).take dlen), n + dlen)
  else return (.code op, n + 1)

/-- A round of `find_end_position_of_name`, `lib/coins.py:662–680`: the cursor behind the
element. -/
def findEndRound (script : Bytes) (n : Nat) : Except PyError Nat := do
  let op ← getItem script n
  if op ≤ 78 then
    let (dlen, n) ← readDlen unpackLeUint16 unpackLeUint32 script op (n + 1)
    if n + dlen > script.length then throw .indexError
    return n + dlen
  else return n + 1

/-- `find_end_position_of_name`, `lib/coins.py:652–681`, from a cursor. -/
def findEndPositionOfName (script : Bytes) : Nat → Nat → Except PyError Nat
  | n, 0 => .ok n
  | n, length + 1 => do findEndPositionOfName script (← findEndRound script n) length

/-! ### The grammar -/

/-- The width of the length field behind a push opcode. -/
def lengthWidth (op : UInt8) : Nat :=
  if op < 76 then 0 else if op = 76 then 1 else if op = 77 then 2 else 4

/-- A single byte above `OP_PUSHDATA4`, or a push with as much data as its opcode or its length
field says. -/
def WellFormed : ScriptOp → Prop
  | .code op => 78 < op
  | .push op data => op ≤ 78 ∧
      if op < 76 then data.length = op.toNat else data.length < 256 ^ lengthWidth op

/-- The opcode, the length field and the data. -/
def encode : ScriptOp → Bytes
  | .code op => [op]
  | .push op data => op :: packLE (lengthWidth op) data.length ++ data

theorem encode_ne_nil (op : ScriptOp) : encode op ≠ [] := by
  cases op <;> simp [encode]

/-- A push reads its length field. -/
theorem pushLen_eq_some {op : UInt8} {s rest : Bytes} {dlen : Nat} :
    Script.pushLen op s = some (dlen, rest) ↔
      (if op < 76 then dlen = op.toNat else dlen < 256 ^ lengthWidth op) ∧
        s = packLE (lengthWidth op) dlen ++ rest := by
  unfold Script.pushLen lengthWidth
  by_cases h76 : op < 76
  · simp only [h76, if_true, Option.some.injEq, Prod.mk.injEq, packLE, List.nil_append]
    exact and_congr eq_comm Iff.rfl
  · simp only [h76, if_false]
    generalize (if op = 76 then 1 else if op = 77 then 2 else 4) = width
    split
    · next hlen =>
      constructor
      · intro h
        cases h
      · rintro ⟨-, rfl⟩
        rw [List.length_append, length_packLE] at hlen
        omega
    · next hlen =>
      rw [Option.some.injEq, Prod.mk.injEq]
      constructor
      · rintro ⟨rfl, rfl⟩
        have hw : (s.take width).length = width := by
          rw [List.length_take]
          omega
        refine ⟨?_, ?_⟩
        · have := unpackLE_lt (s.take width)
          rwa [hw] at this
        · have := packLE_unpackLE (s.take width)
          rw [hw] at this
          rw [this, List.take_append_drop]
      · rintro ⟨hlt, rfl⟩
        rw [List.take_left' (length_packLE _ _), List.drop_left' (length_packLE _ _)]
        exact ⟨unpackLE_packLE_of_lt hlt, rfl⟩

/-- What a script starts with is read exactly when it is the encoding of a well-formed element. -/
theorem nextOp_eq_some {s rest : Bytes} {op : ScriptOp} :
    Script.nextOp s = some (op, rest) ↔ WellFormed op ∧ s = encode op ++ rest := by
  cases s with
  | nil =>
    simp only [Script.nextOp, false_iff, reduceCtorEq]
    rintro ⟨-, h⟩
    exact encode_ne_nil op (List.append_eq_nil_iff.mp h.symm).1
  | cons x s =>
    rw [Script.nextOp]
    split
    · next hx =>
      constructor
      · intro h
        split at h
        · cases h
        · next dlen next hp =>
          split at h
          · cases h
          · next hlen =>
            cases h
            obtain ⟨hd, rfl⟩ := pushLen_eq_some.mp hp
            have hl : (next.take dlen).length = dlen := by
              rw [List.length_take]
              omega
            refine ⟨⟨hx, by rwa [hl]⟩, ?_⟩
            rw [encode, hl, List.append_assoc, List.take_append_drop]
            rfl
      · rintro ⟨hw, h⟩
        cases op with
        | code c =>
          cases h
          exact absurd hx (UInt8.not_le.mpr hw)
        | push c data =>
          rw [encode, List.cons_append, List.cons_append, List.append_assoc] at h
          cases h
          rw [pushLen_eq_some.mpr ⟨hw.2, rfl⟩]
          dsimp only
          rw [if_neg (by rw [List.length_append]; omega), List.take_left, List.drop_left]
    · next hx =>
      rw [Option.some.injEq, Prod.mk.injEq]
      constructor
      · rintro ⟨rfl, rfl⟩
        exact ⟨UInt8.not_le.mp hx, rfl⟩
      · rintro ⟨hw, h⟩
        cases op with
        | code c =>
          cases h
          exact ⟨rfl, rfl⟩
        | push c data =>
          cases h
          exact absurd hw.1 hx

/-! ### The cursor -/

/-- An unpacker that reads an integer of a width from a buffer of that width, and raises on a
shorter one. -/
def Unpacks (width : Nat) (unpack : Bytes → Except PyError Nat) : Prop :=
  (∀ b, b.length = width → unpack b = .ok (unpackLE b)) ∧
    ∀ b, b.length < width → ∃ e, unpack b = .error e

theorem unpacks_unpackLeUint16From : Unpacks 2 unpackLeUint16From :=
  ⟨fun b h ↦ by rw [unpackLeUint16From, if_pos h.ge, List.take_of_length_le h.le],
    fun b h ↦ ⟨_, if_neg (by omega)⟩⟩

theorem unpacks_unpackLeUint32From : Unpacks 4 unpackLeUint32From :=
  ⟨fun b h ↦ by rw [unpackLeUint32From, if_pos h.ge, List.take_of_length_le h.le],
    fun b h ↦ ⟨_, if_neg (by omega)⟩⟩

theorem unpacks_unpackLeUint16 : Unpacks 2 unpackLeUint16 :=
  ⟨fun _ h ↦ if_pos h, fun _ h ↦ ⟨_, if_neg (by omega)⟩⟩

theorem unpacks_unpackLeUint32 : Unpacks 4 unpackLeUint32 :=
  ⟨fun _ h ↦ if_pos h, fun _ h ↦ ⟨_, if_neg (by omega)⟩⟩

/-- Reading at a cursor into the script is reading from the rest of the script, and moves the
cursor by what is read. -/
def Follows {α : Type} (script : Bytes) (n : Nat) (x : Except PyError (α × Nat))
    (y : Option (α × Bytes)) : Prop :=
  (∃ a n', x = .ok (a, n') ∧ y = some (a, script.drop n') ∧ n ≤ n' ∧ n' ≤ script.length) ∨
    (∃ e, x = .error e) ∧ y = none

/-- A length field. -/
private theorem follows_field {x : Except PyError Nat} {script : Bytes} {n width : Nat}
    (hw : 0 < width)
    (hok : width ≤ (script.drop n).length → x = .ok (unpackLE ((script.drop n).take width)))
    (herr : (script.drop n).length < width → ∃ e, x = .error e) :
    Follows script n (do return (← x, n + width))
      (if (script.drop n).length < width then none
        else some (unpackLE ((script.drop n).take width), (script.drop n).drop width)) := by
  by_cases hl : (script.drop n).length < width
  · obtain ⟨e, he⟩ := herr hl
    exact .inr ⟨⟨e, by rw [he]; rfl⟩, if_pos hl⟩
  · have hx := hok (by omega)
    refine .inl ⟨_, n + width, by rw [hx]; rfl, ?_, by omega, ?_⟩
    · rw [if_neg hl, List.drop_drop]
    · rw [List.length_drop] at hl
      omega

/-- The length of a push. -/
theorem follows_readDlen {unpack16 unpack32 : Bytes → Except PyError Nat}
    (h16 : Unpacks 2 unpack16) (h32 : Unpacks 4 unpack32) (script : Bytes) (op : UInt8) {n : Nat}
    (hn : n ≤ script.length) :
    Follows script n (readDlen unpack16 unpack32 script op n)
      (Script.pushLen op (script.drop n)) := by
  unfold Script.pushLen readDlen
  by_cases h76 : op < 76
  · rw [if_pos h76, if_pos h76]
    exact .inl ⟨op.toNat, n, rfl, rfl, le_rfl, hn⟩
  rw [if_neg h76, if_neg h76]
  have htake : ∀ {width}, width ≤ (script.drop n).length →
      ((script.drop n).take width).length = width := fun h ↦ List.length_take_of_le h
  have hshort : ∀ {width}, (script.drop n).length < width →
      ((script.drop n).take width).length < width := by
    intro width h
    rw [List.length_take]
    omega
  by_cases h1 : op = 76
  · rw [if_pos h1, if_pos h1]
    have hget : script[n]? = (script.drop n)[0]? := by rw [List.getElem?_drop]; rfl
    have hf := @follows_field (do return (← getItem script n).toNat) script n 1 (by omega) ?_ ?_
    · simpa [bind_assoc] using hf
    · intro hl
      rw [getItem, hget]
      cases hd : script.drop n with
      | nil =>
        rw [hd] at hl
        cases hl
      | cons b rest => simp [unpackLE]
    · intro hl
      rw [getItem, hget, List.eq_nil_of_length_eq_zero (Nat.lt_one_iff.mp hl)]
      exact ⟨.indexError, rfl⟩
  rw [if_neg h1, if_neg h1]
  by_cases h2 : op = 77
  · rw [if_pos h2, if_pos h2]
    exact follows_field (by omega) (fun h ↦ h16.1 _ (htake h)) fun h ↦ h16.2 _ (hshort h)
  · rw [if_neg h2, if_neg h2]
    exact follows_field (by omega) (fun h ↦ h32.1 _ (htake h)) fun h ↦ h32.2 _ (hshort h)

/-- A round that reads one element with some unpackers. -/
private def readRound (unpack16 unpack32 : Bytes → Except PyError Nat) (script : Bytes) (n : Nat) :
    Except PyError (ScriptOp × Nat) := do
  let op ← getItem script n
  if op ≤ 78 then
    let (dlen, n) ← readDlen unpack16 unpack32 script op (n + 1)
    if n + dlen > script.length then throw .indexError
    return (.push op ((script.drop n).take dlen), n + dlen)
  else return (.code op, n + 1)

private theorem follows_readRound {unpack16 unpack32 : Bytes → Except PyError Nat}
    (h16 : Unpacks 2 unpack16) (h32 : Unpacks 4 unpack32) (script : Bytes) (n : Nat) :
    Follows script n (readRound unpack16 unpack32 script n) (Script.nextOp (script.drop n)) := by
  unfold readRound
  by_cases hn : n < script.length
  · rw [List.drop_eq_getElem_cons hn, getItem_of_some (List.getElem?_eq_getElem hn), Script.nextOp]
    generalize script[n] = op
    change Follows script n (if op ≤ 78 then _ else _) _
    by_cases hop : op ≤ 78
    · rw [if_pos hop, if_pos hop]
      rcases follows_readDlen h16 h32 script op (show n + 1 ≤ script.length from hn) with
        ⟨dlen, n', hx, hy, hle, hend⟩ | ⟨⟨e, hx⟩, hy⟩
      · rw [hx, hy]
        change Follows script n (if n' + dlen > script.length then _ else _) _
        dsimp only
        rw [List.length_drop]
        by_cases hd : n' + dlen > script.length
        · rw [if_pos hd, if_pos (by omega)]
          exact .inr ⟨⟨_, rfl⟩, rfl⟩
        · rw [if_neg hd, if_neg (by omega), List.drop_drop]
          exact .inl ⟨_, n' + dlen, rfl, rfl, by omega, by omega⟩
      · rw [hx, hy]
        exact .inr ⟨⟨e, rfl⟩, rfl⟩
    · rw [if_neg hop, if_neg hop]
      exact .inl ⟨_, n + 1, rfl, rfl, by omega, hn⟩
  · rw [List.drop_eq_nil_of_le (by omega), getItem, List.getElem?_eq_none (by omega)]
    exact .inr ⟨⟨_, rfl⟩, rfl⟩

/-- A round of `get_ops`. -/
theorem follows_getOpsRound (script : Bytes) (n : Nat) :
    Follows script n (getOpsRound script n) (Script.nextOp (script.drop n)) :=
  follows_readRound unpacks_unpackLeUint16From unpacks_unpackLeUint32From script n

/-- A round of `find_end_position_of_name` moves the cursor as a round of `get_ops`. -/
theorem findEndRound_eq (script : Bytes) (n : Nat) :
    (∃ op n', getOpsRound script n = .ok (op, n') ∧ findEndRound script n = .ok n') ∨
      (∃ e, getOpsRound script n = .error e) ∧ ∃ e, findEndRound script n = .error e := by
  have hf : findEndRound script n =
      (readRound unpackLeUint16 unpackLeUint32 script n).map Prod.snd := by
    unfold findEndRound readRound
    cases getItem script n with
    | error e => rfl
    | ok op =>
      change (if op ≤ 78 then _ else _) = Except.map Prod.snd (if op ≤ 78 then _ else _)
      split
      · cases readDlen unpackLeUint16 unpackLeUint32 script op (n + 1) with
        | error e => rfl
        | ok r =>
          change (if r.2 + r.1 > script.length then _ else _) =
            Except.map Prod.snd (if r.2 + r.1 > script.length then _ else _)
          split <;> rfl
      · rfl
  rw [hf]
  rcases follows_getOpsRound script n with ⟨op, n', hx, hy, -, hend⟩ | ⟨hx, hy⟩
  · rcases follows_readRound unpacks_unpackLeUint16 unpacks_unpackLeUint32 script n with
      ⟨op', m, hx', hy', -, hend'⟩ | ⟨-, hy'⟩
    · rw [hy, Option.some.injEq, Prod.mk.injEq] at hy'
      have hl := congrArg List.length hy'.2
      rw [List.length_drop, List.length_drop] at hl
      have hm : m = n' := by omega
      exact .inl ⟨op, n', hx, by rw [hx', hm]; rfl⟩
    · cases hy.symm.trans hy'
  · rcases follows_readRound unpacks_unpackLeUint16 unpacks_unpackLeUint32 script n with
      ⟨op', m, hx', hy', -, hend'⟩ | ⟨⟨e, hx'⟩, -⟩
    · cases hy.symm.trans hy'
    · exact .inr ⟨hx, e, by rw [hx']; rfl⟩

/-- A round reads an element exactly when the script goes on with its encoding. -/
theorem getOpsRound_eq_ok {script : Bytes} {n n' : Nat} {op : ScriptOp} :
    getOpsRound script n = .ok (op, n') ↔
      WellFormed op ∧ script.drop n = encode op ++ script.drop n' ∧ n' ≤ script.length := by
  rw [← and_assoc, ← nextOp_eq_some]
  rcases follows_getOpsRound script n with ⟨a, m, hx, hy, -, hend⟩ | ⟨⟨e, hx⟩, hy⟩
  · rw [hx, hy, Except.ok.injEq, Option.some.injEq, Prod.mk.injEq, Prod.mk.injEq]
    constructor
    · rintro ⟨rfl, rfl⟩
      exact ⟨⟨rfl, rfl⟩, hend⟩
    · rintro ⟨⟨rfl, hd⟩, hend'⟩
      have hl := congrArg List.length hd
      rw [List.length_drop, List.length_drop] at hl
      exact ⟨rfl, by omega⟩
  · rw [hx, hy]
    simp

theorem lt_of_getOpsRound {script : Bytes} {n n' : Nat} {op : ScriptOp}
    (h : getOpsRound script n = .ok (op, n')) : n < n' ∧ n' ≤ script.length := by
  obtain ⟨-, hd, hend⟩ := getOpsRound_eq_ok.mp h
  have hl := congrArg List.length hd
  have hpos := List.length_pos_iff.mpr (encode_ne_nil op)
  rw [List.length_append, List.length_drop, List.length_drop] at hl
  omega

/-! ### The parser -/

/-- The loop of `get_ops`, `lib/script.py:130–152`. -/
def getOpsLoop (script : Bytes) (n : Nat) (ops : List ScriptOp) :
    Except PyError (List ScriptOp) :=
  if n < script.length then
    match _h : getOpsRound script n with
    | .error e => .error e
    | .ok (op, n') => getOpsLoop script n' (ops ++ [op])
  else .ok ops
termination_by script.length - n
decreasing_by
  have := lt_of_getOpsRound _h
  omega

/-- `Script.get_ops`, `lib/script.py:124–158`; every exception of the loop is caught. -/
def getOps (script : Bytes) : Except ScriptError (List ScriptOp) :=
  match getOpsLoop script 0 [] with
  | .ok ops => .ok ops
  | .error _ => .error .truncatedScript

/-- `Script.push_data`, `lib/script.py:161–172`. -/
def pushData (data : Bytes) : Except PyError Bytes :=
  let n := data.length
  if n < 76 then .ok (UInt8.ofNat n :: data)
  else if n < 256 then .ok (76 :: UInt8.ofNat n :: data)
  else if n < 65536 then do return 77 :: (← packLeUint16 n) ++ data
  else do return 78 :: (← packLeUint32 n) ++ data

theorem getOpsLoop_eq_ok {script : Bytes} {n : Nat} {ops result : List ScriptOp} :
    getOpsLoop script n ops = .ok result ↔ ∃ more, result = ops ++ more ∧
      (∀ op ∈ more, WellFormed op) ∧ more.flatMap encode = script.drop n := by
  induction hm : script.length - n using Nat.strong_induction_on generalizing n ops with
  | _ m ih =>
    rw [getOpsLoop]
    split
    · next hn =>
      have hne : script.drop n ≠ [] := by simpa using hn
      constructor
      · intro h
        split at h
        · cases h
        · next op n' hr =>
          have hlt := lt_of_getOpsRound hr
          obtain ⟨hw, hd, -⟩ := getOpsRound_eq_ok.mp hr
          obtain ⟨more, rfl, hmore, hf⟩ := (ih _ (by omega) rfl).mp h
          refine ⟨op :: more, by rw [List.append_assoc]; rfl, ?_, ?_⟩
          · rintro x (- | ⟨-, hx⟩)
            · exact hw
            · exact hmore x hx
          · rw [List.flatMap_cons, hf, hd]
      · rintro ⟨more, rfl, hmore, hf⟩
        cases more with
        | nil => exact absurd hf.symm hne
        | cons op more =>
          rw [List.flatMap_cons] at hf
          have hr : getOpsRound script n = .ok (op, script.length - (more.flatMap encode).length) := by
            have hl := congrArg List.length hf
            rw [List.length_append, List.length_drop] at hl
            refine getOpsRound_eq_ok.mpr ⟨hmore op List.mem_cons_self, ?_, Nat.sub_le _ _⟩
            rw [← hf]
            congr 1
            apply List.suffix_iff_eq_drop.mp
            exact (hf ▸ List.suffix_append _ _).trans (List.drop_suffix n script)
          have hlt := lt_of_getOpsRound hr
          have hd := (getOpsRound_eq_ok.mp hr).2.1
          rw [← hf, List.append_cancel_left_eq] at hd
          split
          · next e he => cases he.symm.trans hr
          · next op' n' hr' =>
            cases hr'.symm.trans hr
            refine (ih _ (by omega) rfl).mpr ⟨more, by rw [List.append_assoc]; rfl, ?_, hd⟩
            exact fun x hx ↦ hmore x (List.mem_cons_of_mem _ hx)
    · next hn =>
      rw [List.drop_eq_nil_of_le (by omega), Except.ok.injEq]
      constructor
      · rintro rfl
        exact ⟨[], by simp, by simp, rfl⟩
      · rintro ⟨more, rfl, -, hf⟩
        cases more with
        | nil => simp
        | cons op more =>
          exact absurd (List.append_eq_nil_iff.mp hf).1 (encode_ne_nil op)

/-- The parser accepts the concatenations of encodings, and returns what they encode. -/
theorem getOps_eq_ok {script : Bytes} {ops : List ScriptOp} :
    getOps script = .ok ops ↔ (∀ op ∈ ops, WellFormed op) ∧ ops.flatMap encode = script := by
  have hloop := @getOpsLoop_eq_ok script 0 [] ops
  rw [List.drop_zero] at hloop
  have hget : getOps script = .ok ops ↔ getOpsLoop script 0 [] = .ok ops := by
    unfold getOps
    cases getOpsLoop script 0 [] with
    | error e => simp
    | ok r => simp
  rw [hget, hloop]
  simp

/-- Everything else is a truncated script. -/
theorem getOps_eq_error {script : Bytes} {e : ScriptError} :
    getOps script = .error e ↔
      ¬∃ ops : List ScriptOp, (∀ op ∈ ops, WellFormed op) ∧ ops.flatMap encode = script := by
  have hiff := fun ops ↦ @getOps_eq_ok script ops
  simp only [← hiff]
  cases getOps script with
  | error e' => cases e; cases e'; simp
  | ok ops => simp

/-- The parser of a concatenation. -/
theorem getOps_append {a b : Bytes} {xs ys : List ScriptOp} (ha : getOps a = .ok xs)
    (hb : getOps b = .ok ys) : getOps (a ++ b) = .ok (xs ++ ys) := by
  obtain ⟨hx, rfl⟩ := getOps_eq_ok.mp ha
  obtain ⟨hy, rfl⟩ := getOps_eq_ok.mp hb
  refine getOps_eq_ok.mpr ⟨fun op hop ↦ ?_, List.flatMap_append⟩
  rcases List.mem_append.mp hop with hop | hop
  · exact hx op hop
  · exact hy op hop

/-- What is pushed is the encoding of one push. -/
theorem pushData_eq {data : Bytes} (h : data.length < 2 ^ 32) :
    ∃ op, WellFormed (.push op data) ∧ pushData data = .ok (encode (.push op data)) := by
  unfold pushData
  dsimp only
  split
  · next h76 =>
    have hop : (UInt8.ofNat data.length).toNat = data.length := by
      rw [UInt8.toNat_ofNat']
      omega
    have hlt : UInt8.ofNat data.length < 76 := by
      rw [UInt8.lt_iff_toNat_lt, hop]
      exact h76
    have hle : UInt8.ofNat data.length ≤ 78 := by
      rw [UInt8.le_iff_toNat_le, hop]
      exact h76.le.trans (by decide)
    exact ⟨UInt8.ofNat data.length, ⟨hle, by rw [if_pos hlt, hop]⟩,
      by rw [encode, lengthWidth, if_pos hlt]; rfl⟩
  · split
    · next h256 => exact ⟨76, ⟨by decide, h256⟩, by rw [encode]; rfl⟩
    · split
      · next h16 =>
        exact ⟨77, ⟨by decide, h16⟩, by rw [packLeUint16_of_lt h16]; rfl⟩
      · exact ⟨78, ⟨by decide, h⟩, by rw [packLeUint32_of_lt h]; rfl⟩

/-- The two models of `push_data` agree where it does not raise. -/
theorem pushData_eq_script {data : Bytes} (h : data.length < 2 ^ 32) :
    pushData data = .ok (Script.pushData data) := by
  unfold pushData Script.pushData
  dsimp only
  split
  · rfl
  · split
    · rfl
    · split
      · next h16 => rw [packLeUint16_of_lt h16]; rfl
      · rw [packLeUint32_of_lt h]; rfl

/-- The parser of the rest of a script is that of the script itself. -/
theorem getOpsLoop_eq_some {rounds : Nat} {script : Bytes} {ops : List ScriptOp}
    (hr : script.length ≤ rounds) : Script.getOpsLoop rounds script = some ops ↔
      (∀ op ∈ ops, WellFormed op) ∧ ops.flatMap encode = script := by
  induction rounds generalizing script ops with
  | zero =>
    have hnil := List.eq_nil_of_length_eq_zero (Nat.le_zero.mp hr)
    subst hnil
    rw [Script.getOpsLoop, Option.some.injEq]
    constructor
    · rintro rfl
      exact ⟨by simp, rfl⟩
    · rintro ⟨-, hf⟩
      cases ops with
      | nil => rfl
      | cons op ops => exact absurd (List.append_eq_nil_iff.mp hf).1 (encode_ne_nil op)
  | succ rounds ih =>
    cases script with
    | nil =>
      rw [Script.getOpsLoop, Option.some.injEq]
      constructor
      · rintro rfl
        exact ⟨by simp, rfl⟩
      · rintro ⟨-, hf⟩
        cases ops with
        | nil => rfl
        | cons op ops => exact absurd (List.append_eq_nil_iff.mp hf).1 (encode_ne_nil op)
    | cons b script =>
      rw [Script.getOpsLoop]
      constructor
      · intro h
        obtain ⟨⟨op, rest⟩, hop, h⟩ := Option.bind_eq_some_iff.mp h
        obtain ⟨more, hmore, h⟩ := Option.bind_eq_some_iff.mp h
        cases h
        obtain ⟨hw, hs⟩ := nextOp_eq_some.mp hop
        have hpos := List.length_pos_iff.mpr (encode_ne_nil op)
        have hl := congrArg List.length hs
        rw [List.length_append] at hl
        obtain ⟨hall, hf⟩ := (ih (by omega)).mp hmore
        refine ⟨?_, by rw [List.flatMap_cons, hf, hs]⟩
        rintro x (- | ⟨-, hx⟩)
        · exact hw
        · exact hall x hx
      · rintro ⟨hall, hf⟩
        cases ops with
        | nil => cases hf
        | cons op ops =>
          rw [List.flatMap_cons] at hf
          have hpos := List.length_pos_iff.mpr (encode_ne_nil op)
          have hl := congrArg List.length hf
          rw [List.length_append] at hl
          have hop := nextOp_eq_some.mpr ⟨hall op List.mem_cons_self, hf.symm⟩
          have hmore := (@ih (ops.flatMap encode) ops (by omega)).mpr
            ⟨fun x hx ↦ hall x (List.mem_cons_of_mem _ hx), rfl⟩
          exact Option.bind_eq_some_iff.mpr ⟨_, hop, Option.bind_eq_some_iff.mpr ⟨_, hmore, rfl⟩⟩

/-- The two parsers agree. -/
theorem getOps_eq_some {script : Bytes} {ops : List ScriptOp} :
    Script.getOps script = some ops ↔ getOps script = .ok ops := by
  rw [Script.getOps, getOpsLoop_eq_some le_rfl, getOps_eq_ok]

/-- The parser accepts exactly the concatenations of well-formed elements and raises `ScriptError`
on every other script; a push is one element, and concatenations are parsed part by part. -/
theorem getOps_grammar :
    (∀ script ops, getOps script = .ok ops ↔
      (∀ op ∈ ops, WellFormed op) ∧ ops.flatMap encode = script) ∧
    (∀ script, (¬∃ ops : List ScriptOp,
      (∀ op ∈ ops, WellFormed op) ∧ ops.flatMap encode = script) →
        getOps script = .error .truncatedScript) ∧
    (∀ data : Bytes, data.length < 2 ^ 32 → ∃ script op, pushData data = .ok script ∧
      getOps script = .ok [.push op data]) ∧
    ∀ a b xs ys, getOps a = .ok xs → getOps b = .ok ys → getOps (a ++ b) = .ok (xs ++ ys) := by
  refine ⟨fun _ _ ↦ getOps_eq_ok, fun _ h ↦ getOps_eq_error.mpr h, fun data h ↦ ?_,
    fun _ _ _ _ ↦ getOps_append⟩
  obtain ⟨op, hw, hp⟩ := pushData_eq h
  exact ⟨_, op, hp, getOps_eq_ok.mpr ⟨by simpa using hw, by simp⟩⟩

/-- A push of two bytes, and two opcodes one after the other. -/
theorem getOps_grammar_sample :
    (∃ script op, pushData [7, 8] = .ok script ∧ getOps script = .ok [.push op [7, 8]]) ∧
      getOps ([0x51] ++ [0x75]) = .ok ([.code 0x51] ++ [.code 0x75]) :=
  ⟨getOps_grammar.2.2.1 [7, 8] (by decide),
    getOps_grammar.2.2.2 [0x51] [0x75] [.code 0x51] [.code 0x75]
      ((getOps_grammar.1 _ _).mpr ⟨by simp [WellFormed], rfl⟩)
      ((getOps_grammar.1 _ _).mpr ⟨by simp [WellFormed], rfl⟩)⟩

end ScriptParser
end ElectrumX.Lib
