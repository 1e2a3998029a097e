import ElectrumX.Lib.Coins

/-!
# Name scripts

The script parser of `lib/script.py:84–172` and `NameIndexMixin` of `lib/coins.py`. A coin with
names looks for a name prefix at the start of a script; the rest is the address script, and
the name in the prefix gives the script under which it is indexed.
-/

namespace ElectrumX.Lib
open ElectrumX.Base

/-- An element of `get_ops`: an opcode, or a push with its data. -/
inductive ScriptOp
  | code (op : UInt8)
  | push (op : UInt8) (data : Bytes)
  deriving DecidableEq, Repr

namespace Script

/-- The length of pushed data and what follows the length, `lib/script.py:136–146`. -/
def pushLen (op : UInt8) (rest : Bytes) : Option (Nat × Bytes) :=
  if op < 76 then some (op.toNat, rest)
  else
    let width := if op = 76 then 1 else if op = 77 then 2 else 4
    if rest.length < width then none
    else some (unpackLE (rest.take width), rest.drop width)

/-- One round of the loop of `get_ops`, `lib/script.py:131–152`: the element and the rest. -/
def nextOp : Bytes → Option (ScriptOp × Bytes)
  | [] => none
  | op :: rest =>
    if op ≤ 78 then
      match pushLen op rest with
      | none => none
      | some (dlen, rest) =>
        if rest.length < dlen then none else some (.push op (rest.take dlen), rest.drop dlen)
    else some (.code op, rest)

/-- The loop of `get_ops`, `lib/script.py:130–152`, which takes at most a round for each byte. -/
def getOpsLoop : Nat → Bytes → Option (List ScriptOp)
  | _, [] => some []
  | 0, _ :: _ => none
  | fuel + 1, op :: rest => do
    let (x, rest) ← nextOp (op :: rest)
    return x :: (← getOpsLoop fuel rest)

/-- `get_ops`, `lib/script.py:124`; `none` stands for `ScriptError`. -/
def getOps (script : Bytes) : Option (List ScriptOp) := getOpsLoop script.length script

/-- `push_data`, `lib/script.py:161`. -/
def pushData (data : Bytes) : Bytes :=
  let n := data.length
  if n < 76 then packLE 1 n ++ data
  else if n < 256 then 76 :: packLE 1 n ++ data
  else if n < 65536 then 77 :: packLE 2 n ++ data
  else 78 :: packLE 4 n ++ data

end Script

/-- An element of a name prefix: an opcode, `-1` for ignored data, `-2` for any number of ignored
data, or a named datum, `lib/coins.py:575–578`. -/
inductive NameOp
  | code (op : UInt8)
  | data
  | dataMultiple
  | named (name : String)
  deriving DecidableEq, Repr

/-- An element of a template: an opcode, or `-1`. -/
inductive TemplateOp
  | code (op : UInt8)
  | data
  deriving DecidableEq, Repr

/-- One comparison of `_match_ops`, `lib/script.py:88–93`. -/
def TemplateOp.fits : TemplateOp → ScriptOp → Bool
  | .code c, .code op => c == op
  | .data, .push _ _ => true
  | _, _ => false

/-- `_match_ops`, `lib/script.py:85`. -/
def matchOps (ops : List ScriptOp) (pattern : List TemplateOp) : Bool :=
  ops.length == pattern.length && (ops.zip pattern).all fun p ↦ p.2.fits p.1

/-- The parameters of a coin class with `NameIndexMixin`. -/
structure NameCoin where
  opNameUpdate : UInt8
  nameOperations : List (List NameOp)

namespace NameCoin

/-- `_read_data_placeholders_count`, `lib/coins.py:641`. -/
def readDataPlaceholdersCount : List ScriptOp → Nat
  | .push _ _ :: rest => readDataPlaceholdersCount rest + 1
  | _ => 0

/-- What `_add_data_placeholders_to_template` adds, `lib/coins.py:626`. -/
def dataPlaceholders (ops : List ScriptOp) : List TemplateOp :=
  let numDp := readDataPlaceholdersCount ops
  List.replicate numDp .data ++ List.replicate (numDp / 2) (.code 0x6d) ++
    List.replicate (numDp % 2) (.code 0x75)

/-- The template of a prefix and the positions of its names, `lib/coins.py:590–608`. A name stands
at `i + offset`, which is the length of the template so far. -/
def template : List ScriptOp → List TemplateOp → List (String × Nat) → List NameOp →
    List TemplateOp × List (String × Nat)
  | _, acc, named, [] => (acc, named)
  | ops, acc, named, pop :: pops =>
    match pop with
    | .code op => template ops.tail (acc ++ [.code op]) named pops
    | .data => template ops.tail (acc ++ [.data]) named pops
    | .dataMultiple => template ops.tail (acc ++ dataPlaceholders ops) named pops
    | .named name => template ops.tail (acc ++ [.data]) ((name, acc.length) :: named) pops

/-- The first prefix that the script starts with: the number of its elements and the positions of
its names, `lib/coins.py:588–618`. -/
def findPrefix (ops : List ScriptOp) : List (List NameOp) → Option (Nat × List (String × Nat))
  | [] => none
  | pops :: rest =>
    let (pattern, named) := template ops [] [] pops
    if matchOps (ops.take pattern.length) pattern then some (pattern.length, named)
    else findPrefix ops rest

/-- `find_end_position_of_name`, `lib/coins.py:653`: what follows the given number of elements. -/
def dropOps : Nat → Bytes → Option Bytes
  | 0, script => some script
  | n + 1, script => do dropOps n (← Script.nextOp script).2

/-- `interpret_name_prefix`, `lib/coins.py:568`: the data of the names, and the address script. -/
def interpretNamePrefix (script : Bytes) (possibleOps : List (List NameOp)) :
    Option (List (String × ScriptOp)) × Bytes :=
  match Script.getOps script with
  | none => (none, script)
  | some ops =>
    match findPrefix ops possibleOps with
    | none => (none, script)
    | some (count, named) =>
      match dropOps count script with
      | none => (none, script)
      | some addressScript =>
        (some (named.filterMap fun p ↦ ops[p.2]?.map fun op ↦ (p.1, op)), addressScript)

/-- A prefix that was found is not longer than the script. -/
theorem findPrefix_le {ops : List ScriptOp} {possibleOps : List (List NameOp)} {count : Nat}
    {named : List (String × Nat)} (h : findPrefix ops possibleOps = some (count, named)) :
    count ≤ ops.length := by
  induction possibleOps with
  | nil => cases h
  | cons pops rest ih =>
    rw [findPrefix] at h
    dsimp only at h
    split at h
    · next hm =>
      obtain ⟨rfl, -⟩ := Prod.mk.inj (Option.some.inj h)
      have hlen : (ops.take (template ops [] [] pops).1.length).length =
          (template ops [] [] pops).1.length :=
        beq_iff_eq.mp (Bool.and_eq_true_iff.mp hm).1
      rw [List.length_take] at hlen
      omega
    · exact ih h

/-- The elements that `get_ops` has read can be dropped one by one. -/
theorem exists_dropOps {fuel : Nat} {script : Bytes} {ops : List ScriptOp}
    (h : Script.getOpsLoop fuel script = some ops) {n : Nat} (hn : n ≤ ops.length) :
    ∃ rest, dropOps n script = some rest := by
  induction n generalizing fuel script ops with
  | zero => exact ⟨script, rfl⟩
  | succ n ih =>
    cases script with
    | nil =>
      rw [Script.getOpsLoop] at h
      cases h
      cases hn
    | cons op rest =>
      cases fuel with
      | zero => cases h
      | succ fuel =>
        obtain ⟨⟨x, next⟩, hx, h⟩ := Option.bind_eq_some_iff.mp h
        obtain ⟨xs, hxs, h⟩ := Option.bind_eq_some_iff.mp h
        cases h
        obtain ⟨last, hl⟩ := ih hxs (Nat.le_of_succ_le_succ hn)
        exact ⟨last, by rw [dropOps, hx]; exact hl⟩

/-- Where a prefix was found, the position of its end is found. -/
theorem exists_dropOps_of_findPrefix {script : Bytes} {ops : List ScriptOp}
    {possibleOps : List (List NameOp)} {count : Nat} {named : List (String × Nat)}
    (h : Script.getOps script = some ops) (hf : findPrefix ops possibleOps = some (count, named)) :
    ∃ rest, dropOps count script = some rest := exists_dropOps h (findPrefix_le hf)

/-- The data of a push. -/
def pushedData : ScriptOp → Option Bytes
  | .push _ data => some data
  | .code _ => none

variable (nc : NameCoin)

/-- `build_name_index_script`, `lib/coins.py:695`. -/
def buildNameIndexScript (name : Bytes) : Bytes :=
  nc.opNameUpdate :: Script.pushData name ++ Script.pushData [] ++ [0x6d, 0x75, 0x6a]

/-- `split_name_script`, `lib/coins.py:712`. -/
def splitNameScript (script : Bytes) : Option Bytes × Bytes :=
  let (named, addressScript) := interpretNamePrefix script nc.nameOperations
  let name := (named.bind (·.lookup "name")).bind pushedData
  (name.map nc.buildNameIndexScript, addressScript)

/-- A coin class with `NameIndexMixin`: it overrides `hashX_from_script`, `lib/coins.py:721`. -/
def coin (base : Coin) : Coin :=
  { base with addressScript := fun s ↦ base.addressScript (nc.splitNameScript s).2 }

/-- `name_hashX_from_script`, `lib/coins.py:731`. -/
def nameHashXFromScript (base : Coin) (script : Bytes) : Option HashX :=
  (nc.splitNameScript script).1.map base.hashXFromScript

/-- `Namecoin`, `lib/coins.py:1279–1293`. -/
def namecoin : NameCoin where
  opNameUpdate := 0x53
  nameOperations := [
    [.code 0x51, .data, .code 0x6d],
    [.code 0x52, .named "name", .data, .data, .code 0x6d, .code 0x6d],
    [.code 0x53, .named "name", .data, .code 0x6d, .code 0x75]]

/-- `Xaya`, `lib/coins.py:3484–3496`. -/
def xaya : NameCoin where
  opNameUpdate := 0x52
  nameOperations := [
    [.code 0x51, .named "name", .data, .code 0x6d, .code 0x75],
    [.code 0x52, .named "name", .data, .code 0x6d, .code 0x75]]

end NameCoin
end ElectrumX.Lib
