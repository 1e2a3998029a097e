import ElectrumX.Base.Recency
import ElectrumX.Lib.Util

/-!
# The LRU cache

The model of `lib/lrucache.py`. A dictionary of values, one of sizes and one that orders the keys
by their last use stand side by side, with a running total of the sizes; `Recency` is what they
are together. The counters of lookups and hits, which the users of a cache bump, are left out.
-/

namespace ElectrumX.Lib
open ElectrumX.Base

/-- What `__size` holds: a `_DefaultSize`, or the sizes by key, `lrucache.py:55–56`. -/
inductive Sizes (κ : Type) where
  | default
  | dict (sizes : OrderedDict κ Nat)

/-- `LRUCache` with the attributes of `Cache`, `lrucache.py:52–59,154–156`. -/
structure LRUCache (κ ν : Type) where
  getsizeof : ν → Nat
  size : Sizes κ
  data : OrderedDict κ ν := .empty
  currsize : Int := 0
  maxsize : Nat
  order : OrderedDict κ Unit := .empty

variable {κ ν : Type} [DecidableEq κ]

namespace Sizes

/-- `__size[key]`, `lrucache.py:35–36`. -/
def getItem (s : Sizes κ) (key : κ) : Except PyError Nat :=
  match s with
  | default => .ok 1
  | dict sizes =>
    match sizes.get? key with
    | some size => .ok size
    | none => .error .keyError

/-- `__size[key] = size`, `lrucache.py:38–39`. -/
def setItem (s : Sizes κ) (key : κ) (size : Nat) : Except PyError (Sizes κ) :=
  match s with
  | default => if size = 1 then .ok default else .error .assertionError
  | dict sizes => .ok (dict (sizes.set key size))

/-- `__size.pop(key)`, `lrucache.py:41–42`. -/
def pop (s : Sizes κ) (key : κ) : Except PyError (Nat × Sizes κ) :=
  match s with
  | default => .ok (1, default)
  | dict sizes =>
    match sizes.get? key with
    | some size => .ok (size, dict (sizes.erase key))
    | none => .error .keyError

end Sizes

namespace LRUCache

/-- `__init__`, `lrucache.py:52–63,154–156`. -/
def create (maxsize : Nat) (getsizeof : Option (ν → Nat)) : LRUCache κ ν :=
  match getsizeof with
  | none => { getsizeof := fun _ ↦ 1, size := .default, maxsize }
  | some getsizeof => { getsizeof, size := .dict .empty, maxsize }

/-- `__contains__`, `lrucache.py:100–101`. -/
def contains (self : LRUCache κ ν) (key : κ) : Bool := (self.data.get? key).isSome

/-- `__update`, `lrucache.py:181–185`. -/
def update (self : LRUCache κ ν) (key : κ) : LRUCache κ ν :=
  match self.order.moveToEnd key with
  | some order => { self with order }
  | none => { self with order := self.order.set key () }

/-- `__getitem__`, `lrucache.py:73–77,158–162`. -/
def getItem (self : LRUCache κ ν) (key : κ) : Except PyError (ν × LRUCache κ ν) :=
  match self.data.get? key with
  | none => .error .keyError
  | some value => .ok (value, if self.contains key then self.update key else self)

/-- `__delitem__`, `lrucache.py:95–98,168–170`. -/
def delItem (self : LRUCache κ ν) (key : κ) : Except PyError (LRUCache κ ν) := do
  let (size, sizes) ← self.size.pop key
  if (self.data.get? key).isNone then throw .keyError
  if (self.order.get? key).isNone then throw .keyError
  return { self with
    size := sizes
    data := self.data.erase key
    currsize := self.currsize - size
    order := self.order.erase key }

/-- `pop`, `lrucache.py:118–126`. -/
def pop (self : LRUCache κ ν) (key : κ) (default : Option ν) :
    Except PyError (ν × LRUCache κ ν) :=
  if self.contains key then do
    let (value, self) ← self.getItem key
    return (value, ← self.delItem key)
  else
    match default with
    | none => .error .keyError
    | some value => .ok (value, self)

/-- `popitem`, `lrucache.py:172–179`. -/
def popItem (self : LRUCache κ ν) : Except PyError ((κ × ν) × LRUCache κ ν) :=
  match self.order.keys with
  | [] => .error .keyError
  | key :: _ => do
    let (value, self) ← self.pop key none
    return ((key, value), self)

/-- The loop of `__setitem__`, `lrucache.py:85–86`, on a cache of so many keys: without any,
`popitem` raises. -/
def makeRoom (size : Nat) : Nat → LRUCache κ ν → Except PyError (LRUCache κ ν)
  | 0, self => if self.currsize + size > self.maxsize then .error .keyError else .ok self
  | n + 1, self =>
    if self.currsize + size > self.maxsize then do
      let (_, self) ← self.popItem
      makeRoom size n self
    else .ok self

/-- `self.__size[key]` of a key that is in the cache, `lrucache.py:84,87–90`. -/
def sizeOf? (self : LRUCache κ ν) (key : κ) : Except PyError (Option Nat) :=
  if self.contains key then some <$> self.size.getItem key else .ok none

/-- The room that `__setitem__` makes, `lrucache.py:84–86`. -/
def evictFor (self : LRUCache κ ν) (key : κ) (size : Nat) : Except PyError (LRUCache κ ν) := do
  match ← self.sizeOf? key with
  | some old => if old < size then self.makeRoom size self.order.keys.length else return self
  | none => self.makeRoom size self.order.keys.length

/-- `diffsize`, `lrucache.py:87–90`. -/
def diffsize (size : Nat) : Option Nat → Int
  | some old => size - old
  | none => size

/-- The write of `__setitem__`, `lrucache.py:87–93,166`. -/
def write (self : LRUCache κ ν) (key : κ) (value : ν) (size : Nat) :
    Except PyError (LRUCache κ ν) := do
  let old ← self.sizeOf? key
  let sizes ← self.size.setItem key size
  let self := { self with
    data := self.data.set key value
    size := sizes
    currsize := self.currsize + diffsize size old }
  return self.update key

/-- `__setitem__`, `lrucache.py:79–93,164–166`. -/
def setItem (self : LRUCache κ ν) (key : κ) (value : ν) : Except PyError (LRUCache κ ν) := do
  let size := self.getsizeof value
  if size > self.maxsize then throw .valueError
  let self ← self.evictFor key size
  self.write key value size

/-- `get`, `lrucache.py:112–116`. -/
def get (self : LRUCache κ ν) (key : κ) : Except PyError (Option ν × LRUCache κ ν) :=
  if self.contains key then do
    let (value, self) ← self.getItem key
    return (some value, self)
  else return (none, self)

/-- `setdefault`, `lrucache.py:128–133`. -/
def setDefault (self : LRUCache κ ν) (key : κ) (default : ν) :
    Except PyError (ν × LRUCache κ ν) :=
  if self.contains key then self.getItem key
  else do return (default, ← self.setItem key default)

/-- `clear` of `MutableMapping`, on a cache of so many keys: `popitem` until it raises. -/
def clear : Nat → LRUCache κ ν → LRUCache κ ν
  | 0, self => self
  | n + 1, self =>
    match self.popItem with
    | .ok (_, self) => clear n self
    | .error _ => self

end LRUCache

/-! ### Operations and what they answer -/

/-- A call of one of the methods. -/
inductive CacheCall (κ ν : Type) where
  | contains (key : κ)
  | getItem (key : κ)
  | get (key : κ)
  | setItem (key : κ) (value : ν)
  | delItem (key : κ)
  | pop (key : κ) (default : Option ν)
  | popItem
  | setDefault (key : κ) (default : ν)
  | clear
  deriving DecidableEq, Repr

/-- What a call returns. -/
inductive CacheReply (κ ν : Type) where
  | found (present : Bool)
  | value (value : Option ν)
  | item (key : κ) (value : ν)
  | done
  | raised (e : PyError)
  deriving DecidableEq, Repr

/-- The method that a call names. -/
def LRUCache.method (self : LRUCache κ ν) :
    CacheCall κ ν → Except PyError (LRUCache κ ν × CacheReply κ ν)
  | .contains key => .ok (self, .found (self.contains key))
  | .getItem key => (self.getItem key).map fun r ↦ (r.2, .value (some r.1))
  | .get key => (self.get key).map fun r ↦ (r.2, .value r.1)
  | .setItem key value => (self.setItem key value).map fun self ↦ (self, .done)
  | .delItem key => (self.delItem key).map fun self ↦ (self, .done)
  | .pop key default => (self.pop key default).map fun r ↦ (r.2, .value (some r.1))
  | .popItem => self.popItem.map fun r ↦ (r.2, .item r.1.1 r.1.2)
  | .setDefault key default => (self.setDefault key default).map fun r ↦ (r.2, .value (some r.1))
  | .clear => .ok (self.clear self.order.keys.length, .done)

/-- One call. A call that raises leaves the cache as it was. -/
def LRUCache.call (self : LRUCache κ ν) (call : CacheCall κ ν) : LRUCache κ ν × CacheReply κ ν :=
  match self.method call with
  | .ok r => r
  | .error e => (self, .raised e)

/-- The calls of a run, one after the other. -/
def LRUCache.calls (self : LRUCache κ ν) : List (CacheCall κ ν) →
    LRUCache κ ν × List (CacheReply κ ν)
  | [] => (self, [])
  | call :: rest =>
    let (self, reply) := self.call call
    let (self, replies) := self.calls rest
    (self, reply :: replies)


/-! ### What the cache is for -/

section Spec

variable {weight : ν → Nat} {budget : Nat}

/-- What a call does to a recency list, and what it returns. -/
def CacheCall.spec (r : Recency κ ν weight budget) : CacheCall κ ν →
    Recency κ ν weight budget × CacheReply κ ν
  | contains key => (r, .found (r.find? key).isSome)
  | getItem key =>
    match r.find? key with
    | some value => (r.touch key, .value (some value))
    | none => (r, .raised .keyError)
  | get key => (r.touch key, .value (r.find? key))
  | setItem key value =>
    if h : weight value ≤ budget then (r.store key value h, .done) else (r, .raised .valueError)
  | delItem key =>
    if (r.find? key).isSome then (r.remove key, .done) else (r, .raised .keyError)
  | pop key default =>
    match (r.find? key).or default with
    | some value => (r.remove key, .value (some value))
    | none => (r, .raised .keyError)
  | popItem =>
    match r.dict.entries with
    | (key, value) :: _ => (r.remove key, .item key value)
    | [] => (r, .raised .keyError)
  | setDefault key default =>
    match r.find? key with
    | some value => (r.touch key, .value (some value))
    | none =>
      if h : weight default ≤ budget then (r.store key default h, .value (some default))
      else (r, .raised .valueError)
  | clear => (.empty, .done)

/-- The calls of a run on a recency list. -/
def specCalls (r : Recency κ ν weight budget) : List (CacheCall κ ν) →
    Recency κ ν weight budget × List (CacheReply κ ν)
  | [] => (r, [])
  | call :: rest =>
    let (r, reply) := call.spec r
    let (r, replies) := specCalls r rest
    (r, reply :: replies)

end Spec

namespace LRUCache

/-- The sizes are those of the values, or all of them are one. -/
inductive Sized (getsizeof : ν → Nat) (data : OrderedDict κ ν) : Sizes κ → Prop
  | default (h : ∀ v, getsizeof v = 1) : Sized getsizeof data .default
  | dict {sizes : OrderedDict κ Nat} (h : ∀ k, sizes.get? k = (data.get? k).map getsizeof) :
      Sized getsizeof data (.dict sizes)

/-- A cache holds the entries of a recency list, and the running total is theirs. -/
structure Holds {weight : ν → Nat} {budget : Nat} (cache : LRUCache κ ν)
    (r : Recency κ ν weight budget) : Prop where
  getsizeof : cache.getsizeof = weight
  maxsize : cache.maxsize = budget
  keys : cache.order.keys = r.dict.keys
  data : ∀ k, cache.data.get? k = r.dict.get? k
  size : Sized cache.getsizeof cache.data cache.size
  currsize : cache.currsize = r.dict.total weight

section Sized

variable {getsizeof : ν → Nat} {data : OrderedDict κ ν} {sizes : Sizes κ} {key : κ} {value : ν}

theorem Sized.getItem (h : Sized getsizeof data sizes) (hv : data.get? key = some value) :
    sizes.getItem key = .ok (getsizeof value) := by
  cases h with
  | default hone => rw [Sizes.getItem, hone]
  | dict hs =>
    rw [Sizes.getItem, hs, hv]
    rfl

theorem Sized.pop (h : Sized getsizeof data sizes) (hv : data.get? key = some value) :
    ∃ sizes', sizes.pop key = .ok (getsizeof value, sizes') ∧
      Sized getsizeof (data.erase key) sizes' := by
  cases h with
  | default hone => exact ⟨.default, by rw [Sizes.pop, hone], .default hone⟩
  | @dict sizes hs =>
    refine ⟨.dict (sizes.erase key), ?_, .dict fun k ↦ ?_⟩
    · rw [Sizes.pop, hs, hv]
      rfl
    · rw [OrderedDict.get?_erase, OrderedDict.get?_erase, hs k]
      split
      · rfl
      · rfl

theorem Sized.setItem (h : Sized getsizeof data sizes) (key : κ) (value : ν) :
    ∃ sizes', sizes.setItem key (getsizeof value) = .ok sizes' ∧
      Sized getsizeof (data.set key value) sizes' := by
  cases h with
  | default hone => exact ⟨.default, if_pos (hone value), .default hone⟩
  | @dict sizes hs =>
    refine ⟨.dict (sizes.set key (getsizeof value)), rfl, .dict fun k ↦ ?_⟩
    rw [OrderedDict.get?_set, OrderedDict.get?_set, hs k]
    split
    · rfl
    · rfl

end Sized

section Holds

variable {weight : ν → Nat} {budget : Nat} {self : LRUCache κ ν} {r : Recency κ ν weight budget}
  {key : κ} {value : ν}

theorem keys_update (self : LRUCache κ ν) (key : κ) :
    (self.update key).order.keys = self.order.keys.erase key ++ [key] := by
  rw [update, OrderedDict.moveToEnd]
  cases h : self.order.get? key with
  | some u => exact OrderedDict.keys_refresh _ _ _
  | none =>
    have hk := OrderedDict.get?_eq_none.mp h
    change (self.order.set key ()).keys = _
    rw [OrderedDict.keys_set, if_neg hk, List.erase_of_not_mem hk]

/-- Marking a key as used changes the order only. -/
theorem update_eq (self : LRUCache κ ν) (key : κ) :
    self.update key = { self with order := (self.update key).order } := by
  rw [update]
  cases self.order.moveToEnd key with
  | some order => rfl
  | none => rfl

theorem Holds.contains (h : self.Holds r) (key : κ) : self.contains key = (r.find? key).isSome := by
  rw [LRUCache.contains, h.data]
  rfl

theorem Holds.update (h : self.Holds r) (hv : r.find? key = some value) :
    (self.update key).Holds (r.touch key) := by
  have hdict := Recency.dict_touch hv
  rw [update_eq]
  refine ⟨h.getsizeof, h.maxsize, ?_, fun k ↦ ?_, h.size, ?_⟩
  · dsimp only
    rw [keys_update, h.keys, hdict, OrderedDict.keys_refresh]
  · exact (h.data k).trans (r.find?_touch key k).symm
  · dsimp only
    rw [h.currsize, hdict, OrderedDict.total_refresh, OrderedDict.total_erase weight hv]

/-- A lookup finds what the recency list has, and uses it. -/
theorem Holds.getItem (h : self.Holds r) (key : κ) :
    match r.find? key with
    | some value => ∃ self', self.getItem key = .ok (value, self') ∧ self'.Holds (r.touch key)
    | none => self.getItem key = .error .keyError := by
  cases hv : r.find? key with
  | none => rw [LRUCache.getItem, h.data, show r.dict.get? key = none from hv]
  | some value =>
    refine ⟨self.update key, ?_, h.update hv⟩
    rw [LRUCache.getItem, h.contains, h.data, show r.dict.get? key = some value from hv, hv]
    rfl

theorem Holds.delItem_of_none (h : self.Holds r) (hv : r.find? key = none) :
    self.delItem key = .error .keyError := by
  have hd : self.data.get? key = none := (h.data key).trans hv
  have hsized := h.size
  rw [LRUCache.delItem]
  generalize self.size = sizes at hsized
  cases hsized with
  | default hone =>
    change (if (self.data.get? key).isNone = true then _ else _) = _
    rw [hd]
    rfl
  | dict hs =>
    rw [Sizes.pop, hs, hd]
    rfl

/-- Deleting a key removes it from the recency list. -/
theorem Holds.delItem (h : self.Holds r) (hv : r.find? key = some value) :
    ∃ self', self.delItem key = .ok self' ∧ self'.Holds (r.remove key) := by
  have hd : self.data.get? key = some value := (h.data key).trans hv
  have hk : key ∈ self.order.keys := by
    rw [h.keys]
    exact OrderedDict.mem_keys_iff.mpr ⟨value, hv⟩
  obtain ⟨u, hu⟩ := OrderedDict.mem_keys_iff.mp hk
  obtain ⟨sizes, hpop, hsized⟩ := h.size.pop hd
  have htotal := OrderedDict.total_erase weight hv
  refine ⟨{ self with
    size := sizes
    data := self.data.erase key
    currsize := self.currsize - self.getsizeof value
    order := self.order.erase key }, ?_, h.getsizeof, h.maxsize, ?_, fun k ↦ ?_, hsized, ?_⟩
  · rw [LRUCache.delItem, hpop]
    change (if (self.data.get? key).isNone = true then _
      else if (self.order.get? key).isNone = true then _ else _) = _
    rw [hd, hu]
    rfl
  · dsimp only
    rw [OrderedDict.keys_erase, h.keys, Recency.dict_remove, OrderedDict.keys_erase]
  · dsimp only
    rw [OrderedDict.get?_erase, h.data, Recency.dict_remove, OrderedDict.get?_erase]
  · dsimp only
    rw [h.currsize, h.getsizeof, Recency.dict_remove, ← htotal]
    omega

theorem Holds.pop (h : self.Holds r) (key : κ) (default : Option ν) :
    match r.find? key with
    | some value => ∃ self', self.pop key default = .ok (value, self') ∧ self'.Holds (r.remove key)
    | none => self.pop key default =
        (default.map fun value ↦ Except.ok (value, self)).getD (.error .keyError) := by
  have hget := h.getItem key
  have hcontains := h.contains key
  unfold LRUCache.pop
  rw [hcontains]
  cases hv : r.find? key with
  | none =>
    cases default with
    | none => rfl
    | some value => rfl
  | some value =>
    rw [hv] at hget
    obtain ⟨self', hself', h'⟩ := hget
    obtain ⟨self'', hself'', h''⟩ := h'.delItem (by rw [Recency.find?_touch, hv])
    rw [Recency.remove_touch] at h''
    refine ⟨self'', ?_, h''⟩
    rw [Option.isSome_some, if_pos rfl, hself']
    change (do return (value, ← self'.delItem key)) = _
    rw [hself'']
    rfl

/-- `popitem` takes the least recently used entry. -/
theorem Holds.popItem (h : self.Holds r) :
    match r.dict.entries with
    | (key, value) :: _ => ∃ self', self.popItem = .ok ((key, value), self') ∧
        self'.Holds (r.remove key)
    | [] => self.popItem = .error .keyError := by
  have hkeys := h.keys
  rw [OrderedDict.keys] at hkeys
  rw [LRUCache.popItem, OrderedDict.keys]
  cases he : r.dict.entries with
  | nil =>
    rw [hkeys, OrderedDict.keys, he]
    rfl
  | cons e es =>
    have hv : r.find? e.1 = some e.2 :=
      OrderedDict.mem_entries_iff.mp (by rw [he]; exact List.mem_cons_self)
    have hpop := h.pop e.1 none
    rw [hv] at hpop
    obtain ⟨self', hself', h'⟩ := hpop
    refine ⟨self', ?_, h'⟩
    rw [hkeys, OrderedDict.keys, he, List.map_cons]
    change (do
      let (value, self) ← self.pop e.1 none
      return ((e.1, value), self)) = _
    rw [hself']
    rfl

/-- The loop drops the least recently used entries, as few as make room. -/
theorem Holds.makeRoom {size : Nat} (h : self.Holds r) (hsize : size ≤ budget) :
    ∃ self', self.makeRoom size r.dict.keys.length = .ok self' ∧
      self'.Holds (r.makeRoom (budget - size)) := by
  generalize hn : r.dict.keys.length = n
  induction n generalizing self r with
  | zero =>
    have he : r.dict.entries = [] := List.map_eq_nil_iff.mp (List.length_eq_zero_iff.mp hn)
    have htotal : r.dict.total weight = 0 := by
      rw [OrderedDict.total, he]
      rfl
    refine ⟨self, ?_, ?_⟩
    · rw [LRUCache.makeRoom, if_neg]
      rw [h.currsize, h.maxsize, htotal]
      omega
    · rw [Recency.makeRoom_of_le (by omega)]
      exact h
  | succ n ih =>
    by_cases hroom : r.dict.total weight ≤ budget - size
    · refine ⟨self, ?_, ?_⟩
      · rw [LRUCache.makeRoom, if_neg]
        rw [h.currsize, h.maxsize]
        omega
      · rw [Recency.makeRoom_of_le hroom]
        exact h
    · have hpop := h.popItem
      cases he : r.dict.entries with
      | nil =>
        rw [OrderedDict.keys, he] at hn
        cases hn
      | cons e es =>
        rw [he] at hpop
        obtain ⟨self', hself', h'⟩ := hpop
        have hlen : (r.remove e.1).dict.keys.length = n := by
          rw [Recency.dict_remove, OrderedDict.erase_head he, OrderedDict.keys_drop,
            List.length_drop, hn]
          rfl
        obtain ⟨self'', hself'', h''⟩ := ih h' hlen
        refine ⟨self'', ?_, ?_⟩
        · rw [LRUCache.makeRoom, if_pos, hself']
          · exact hself''
          · rw [h.currsize, h.maxsize]
            omega
        · rw [← Recency.makeRoom_remove he hroom]
          exact h''

theorem Holds.sizeOf? (h : self.Holds r) (key : κ) :
    self.sizeOf? key = .ok ((r.find? key).map weight) := by
  rw [LRUCache.sizeOf?, h.contains]
  cases hv : r.find? key with
  | none => rfl
  | some value =>
    rw [Option.isSome_some, if_pos rfl, h.size.getItem ((h.data key).trans hv), h.getsizeof]
    rfl

theorem Holds.evictFor (h : self.Holds r) (key : κ) (hle : weight value ≤ budget) :
    ∃ self', self.evictFor key (weight value) = .ok self' ∧ self'.Holds (r.kept key value) := by
  have hkeys : self.order.keys.length = r.dict.keys.length := by rw [h.keys]
  obtain ⟨self', hself', h'⟩ := h.makeRoom hle
  rw [LRUCache.evictFor, h.sizeOf?, hkeys, Recency.kept]
  cases hv : r.find? key with
  | none =>
    refine ⟨self', hself', ?_⟩
    rw [if_neg]
    · exact h'
    · rintro ⟨u, hu, -⟩
      cases hu.symm.trans hv
  | some old =>
    change ∃ self', (if weight old < weight value then _ else _) = _ ∧ _
    by_cases hlt : weight old < weight value
    · refine ⟨self', (if_pos hlt).trans hself', ?_⟩
      rw [if_neg]
      · exact h'
      · rintro ⟨u, hu, hu'⟩
        cases hu.symm.trans hv
        omega
    · refine ⟨self, if_neg hlt, ?_⟩
      rw [if_pos ⟨old, hv, by omega⟩]
      exact h

/-- Writing a value moves its key to the end, whatever was there. -/
theorem Holds.write (h : self.Holds r) {r' : Recency κ ν weight budget}
    (hdict : r'.dict = r.dict.refresh key value) :
    ∃ self', self.write key value (weight value) = .ok self' ∧ self'.Holds r' := by
  obtain ⟨sizes, hsizes, hsized⟩ := h.size.setItem key value
  rw [h.getsizeof] at hsizes
  refine ⟨LRUCache.update { self with
    data := self.data.set key value
    size := sizes
    currsize := self.currsize + diffsize (weight value) ((r.find? key).map weight) } key, ?_, ?_⟩
  · rw [LRUCache.write, h.sizeOf?]
    change (do
      let sizes ← self.size.setItem key (weight value)
      return LRUCache.update _ key) = _
    rw [hsizes]
    rfl
  · rw [update_eq]
    refine ⟨h.getsizeof, h.maxsize, ?_, fun k ↦ ?_, hsized, ?_⟩
    · rw [hdict, OrderedDict.keys_refresh, ← h.keys]
      exact keys_update _ key
    · rw [hdict, OrderedDict.get?_refresh, ← h.data]
      exact OrderedDict.get?_set _ _ _ _
    · dsimp only
      rw [hdict, OrderedDict.total_refresh, h.currsize]
      cases hv : r.find? key with
      | none =>
        rw [OrderedDict.erase_of_notMem (OrderedDict.get?_eq_none.mp hv), Nat.cast_add]
        rfl
      | some old =>
        rw [← OrderedDict.total_erase weight hv, Option.map_some, diffsize]
        omega

theorem Holds.setItem_of_lt (h : self.Holds r) (hlt : budget < weight value) :
    self.setItem key value = .error .valueError := by
  rw [LRUCache.setItem, h.getsizeof, h.maxsize]
  dsimp only
  rw [if_pos hlt]
  rfl

/-- Storing a value that fits the cache at all succeeds. -/
theorem Holds.setItem (h : self.Holds r) (key : κ) (hle : weight value ≤ budget) :
    ∃ self', self.setItem key value = .ok self' ∧ self'.Holds (r.store key value hle) := by
  obtain ⟨kept, hkept, h'⟩ := h.evictFor key hle
  obtain ⟨self', hself', h''⟩ : ∃ self', kept.write key value (weight value) = .ok self' ∧
      self'.Holds (r.store key value hle) := h'.write rfl
  refine ⟨self', ?_, h''⟩
  rw [LRUCache.setItem, h.getsizeof, h.maxsize]
  dsimp only
  rw [if_neg (by omega)]
  rw [hkept]
  exact hself'

theorem Holds.get (h : self.Holds r) (key : κ) :
    ∃ self', self.get key = .ok (r.find? key, self') ∧ self'.Holds (r.touch key) := by
  have hget := h.getItem key
  rw [LRUCache.get, h.contains]
  cases hv : r.find? key with
  | none =>
    refine ⟨self, rfl, ?_⟩
    rw [Recency.touch_of_none hv]
    exact h
  | some value =>
    rw [hv] at hget
    obtain ⟨self', hself', h'⟩ := hget
    refine ⟨self', ?_, h'⟩
    rw [Option.isSome_some, if_pos rfl, hself']
    rfl

/-- Clearing removes every entry. -/
theorem Holds.clear (h : self.Holds r) :
    (self.clear self.order.keys.length).Holds (Recency.empty : Recency κ ν weight budget) := by
  generalize hn : self.order.keys.length = n
  induction n generalizing self r with
  | zero =>
    have he : r.dict = .empty := by
      rw [h.keys] at hn
      exact OrderedDict.ext (List.map_eq_nil_iff.mp (List.length_eq_zero_iff.mp hn))
    have hr : r = .empty := Recency.ext he
    rw [← hr]
    exact h
  | succ n ih =>
    have hpop := h.popItem
    cases he : r.dict.entries with
    | nil =>
      rw [h.keys, OrderedDict.keys, he] at hn
      cases hn
    | cons e es =>
      rw [he] at hpop
      obtain ⟨self', hself', h'⟩ := hpop
      rw [LRUCache.clear, hself']
      apply ih h'
      rw [h'.keys, Recency.dict_remove, OrderedDict.erase_head he, OrderedDict.keys_drop,
        List.length_drop, ← h.keys, hn]
      rfl

/-- Each call does to the cache what it does to the recency list, and returns the same. -/
theorem Holds.call (h : self.Holds r) (call : CacheCall κ ν) :
    (self.call call).1.Holds (call.spec r).1 ∧ (self.call call).2 = (call.spec r).2 := by
  rw [LRUCache.call]
  cases call with
  | contains key =>
    rw [method, h.contains]
    exact ⟨h, rfl⟩
  | getItem key =>
    have hget := h.getItem key
    rw [method, CacheCall.spec]
    cases hv : r.find? key with
    | none =>
      rw [hv] at hget
      rw [hget]
      exact ⟨h, rfl⟩
    | some value =>
      rw [hv] at hget
      obtain ⟨self', hself', h'⟩ := hget
      rw [hself']
      exact ⟨h', rfl⟩
  | get key =>
    obtain ⟨self', hself', h'⟩ := h.get key
    rw [method, hself']
    exact ⟨h', rfl⟩
  | setItem key value =>
    rw [method, CacheCall.spec]
    by_cases hle : weight value ≤ budget
    · obtain ⟨self', hself', h'⟩ := h.setItem key hle
      rw [hself', dif_pos hle]
      exact ⟨h', rfl⟩
    · rw [h.setItem_of_lt (Nat.lt_of_not_le hle), dif_neg hle]
      exact ⟨h, rfl⟩
  | delItem key =>
    rw [method, CacheCall.spec]
    cases hv : r.find? key with
    | none =>
      rw [h.delItem_of_none hv]
      exact ⟨h, rfl⟩
    | some value =>
      obtain ⟨self', hself', h'⟩ := h.delItem hv
      rw [hself']
      exact ⟨h', rfl⟩
  | pop key default =>
    have hpop := h.pop key default
    rw [method, CacheCall.spec]
    cases hv : r.find? key with
    | none =>
      rw [hv] at hpop
      rw [hpop]
      cases default with
      | none => exact ⟨h, rfl⟩
      | some value =>
        have hr : r.remove key = r :=
          Recency.ext (OrderedDict.erase_of_notMem (OrderedDict.get?_eq_none.mp hv))
        refine ⟨?_, rfl⟩
        change self.Holds (r.remove key)
        rw [hr]
        exact h
    | some value =>
      rw [hv] at hpop
      obtain ⟨self', hself', h'⟩ := hpop
      rw [hself']
      exact ⟨h', rfl⟩
  | popItem =>
    have hpop := h.popItem
    rw [method, CacheCall.spec]
    cases he : r.dict.entries with
    | nil =>
      rw [he] at hpop
      rw [hpop]
      exact ⟨h, rfl⟩
    | cons e es =>
      rw [he] at hpop
      obtain ⟨self', hself', h'⟩ := hpop
      rw [hself']
      exact ⟨h', rfl⟩
  | setDefault key default =>
    have hget := h.getItem key
    rw [method, CacheCall.spec, LRUCache.setDefault, h.contains]
    cases hv : r.find? key with
    | some value =>
      rw [hv] at hget
      obtain ⟨self', hself', h'⟩ := hget
      rw [Option.isSome_some, if_pos rfl, hself']
      exact ⟨h', rfl⟩
    | none =>
      rw [Option.isSome_none, if_neg Bool.false_ne_true]
      by_cases hle : weight default ≤ budget
      · obtain ⟨self', hself', h'⟩ := h.setItem key hle
        rw [hself', dif_pos hle]
        exact ⟨h', rfl⟩
      · rw [h.setItem_of_lt (Nat.lt_of_not_le hle), dif_neg hle]
        exact ⟨h, rfl⟩
  | clear => exact ⟨h.clear, rfl⟩

/-- A run of calls on a cache is the same run on the recency list that it holds. -/
theorem Holds.calls (h : self.Holds r) (calls : List (CacheCall κ ν)) :
    (self.calls calls).1.Holds (specCalls r calls).1 ∧
      (self.calls calls).2 = (specCalls r calls).2 := by
  induction calls generalizing self r with
  | nil => exact ⟨h, rfl⟩
  | cons call calls ih =>
    obtain ⟨hstep, hreply⟩ := h.call call
    obtain ⟨hrun, hreplies⟩ := ih hstep
    exact ⟨hrun, congrArg₂ List.cons hreply hreplies⟩

theorem holds_create (maxsize : Nat) (getsizeof : Option (ν → Nat)) :
    (create maxsize getsizeof : LRUCache κ ν).Holds
      (Recency.empty : Recency κ ν (getsizeof.getD fun _ ↦ 1) maxsize) := by
  cases getsizeof with
  | none => exact ⟨rfl, rfl, rfl, fun _ ↦ rfl, .default fun _ ↦ rfl, rfl⟩
  | some getsizeof => exact ⟨rfl, rfl, rfl, fun _ ↦ rfl, .dict fun _ ↦ rfl, rfl⟩

end Holds

/-- For every run of calls the cache answers as a recency list does that starts empty: it then
holds the entries of that list in their order, and its running total is theirs and within
`maxsize`. -/
theorem calls_refine (maxsize : Nat) (getsizeof : Option (ν → Nat)) (calls : List (CacheCall κ ν)) :
    let cache := (create maxsize getsizeof : LRUCache κ ν).calls calls
    let r := specCalls
      (Recency.empty : Recency κ ν (getsizeof.getD fun _ ↦ 1) maxsize) calls
    cache.2 = r.2 ∧ cache.1.order.keys = r.1.dict.keys ∧
      (∀ key, cache.1.data.get? key = r.1.dict.get? key) ∧
      cache.1.currsize = r.1.dict.total (getsizeof.getD fun _ ↦ 1) ∧
      cache.1.currsize ≤ maxsize := by
  obtain ⟨h, hreplies⟩ := Holds.calls (holds_create maxsize getsizeof) calls
  refine ⟨hreplies, h.keys, h.data, h.currsize, ?_⟩
  rw [h.currsize]
  exact Int.ofNat_le.mpr (Recency.le_budget _)

end LRUCache
end ElectrumX.Lib
