import ElectrumX.Lib.Coins
import ElectrumX.Lib.Util
import Mathlib.Data.Finset.Lattice.Fold
import Std.Data.ExtTreeMap.Lemmas

/-!
# Notifications of touched script hashes

The model of `Notifications` in `server/controller.py`: what the block processor and the
mempool touch is kept by height until both have reached a height, and is then handed on in
one notification. A pending set that a later call at its height replaces, and a pending
mempool set below the notified height, are dropped.
-/

namespace ElectrumX.Server
open ElectrumX.Base ElectrumX.Lib

/-- `Notifications`, `controller.py:32–35`. -/
structure Notifications where
  touchedMp : Std.ExtTreeMap Int (Finset HashX) := ∅
  touchedBp : Std.ExtTreeMap Int (Finset HashX) := ∅
  highestBlock : Int := -1

/-- The calls of the two sources. -/
inductive NotifyCall where
  | onMempool (touched : Finset HashX) (height : Int)
  | onBlock (touched : Finset HashX) (height : Int)
  deriving DecidableEq

namespace NotifyCall

/-- The touched set of a call. -/
def touched : NotifyCall → Finset HashX
  | onMempool t _ => t
  | onBlock t _ => t

/-- The height of a call. -/
def height : NotifyCall → Int
  | onMempool _ h => h
  | onBlock _ h => h

end NotifyCall

namespace Notifications

/-- The height that `_maybe_notify` notifies, `controller.py:38–48`. -/
def notifyHeight (n : Notifications) : Option Int :=
  let common := n.touchedMp.keys.filter (n.touchedBp.contains ·)
  match common.max? with
  | some height => some height
  | none =>
    if n.touchedMp.keys.max? = some n.highestBlock then some n.highestBlock else none

/-- The block entries up to a height, `controller.py:52–53`. -/
def blockSets (n : Notifications) (height : Int) : List (Finset HashX) :=
  (n.touchedBp.toList.filter fun e ↦ e.1 ≤ height).map Prod.snd

/-- The entries behind a height, `controller.py:49–53`. -/
def above (n : Notifications) (height : Int) : Notifications :=
  { n with
    touchedMp := n.touchedMp.filter fun h _ ↦ ¬ h ≤ height
    touchedBp := n.touchedBp.filter fun h _ ↦ ¬ h ≤ height }

/-- `_maybe_notify`, `controller.py:38–55`: the height and the set of the notification. -/
def maybeNotify (n : Notifications) :
    Except PyError (Notifications × Option (Int × Finset HashX)) := do
  match n.notifyHeight with
  | none => return (n, none)
  | some height =>
    match n.touchedMp[height]? with
    | none => throw .keyError
    | some touched =>
      return (n.above height, some (height, (n.blockSets height).foldl (· ∪ ·) touched))

/-- The dictionary entry of a call, `controller.py:66,70–71`. -/
def put (n : Notifications) : NotifyCall → Notifications
  | .onMempool touched height => { n with touchedMp := n.touchedMp.insert height touched }
  | .onBlock touched height =>
    { n with touchedBp := n.touchedBp.insert height touched, highestBlock := height }

/-- `on_mempool` and `on_block`, `controller.py:69–72`. -/
def call (n : Notifications) (c : NotifyCall) :
    Except PyError (Notifications × Option (Int × Finset HashX)) :=
  (n.put c).maybeNotify

/-- `start`, `controller.py:60–63`, with the notification that it sends. -/
def start (height : Int) : Notifications × Int × Finset HashX :=
  ({ highestBlock := height }, height, ∅)

/-! ### What a call does -/

/-- A script hash is in the mempool entry of a height or in a block entry up to it. -/
def Pending (n : Notifications) (height : Int) (x : HashX) : Prop :=
  (∃ t, n.touchedMp[height]? = some t ∧ x ∈ t) ∨
    ∃ h t, h ≤ height ∧ n.touchedBp[h]? = some t ∧ x ∈ t

/-- The entry that a call replaces. -/
def replaced (n : Notifications) : NotifyCall → Option (Finset HashX)
  | .onMempool _ height => n.touchedMp[height]?
  | .onBlock _ height => n.touchedBp[height]?

theorem mem_keys_of_notifyHeight {n : Notifications} {height : Int}
    (h : n.notifyHeight = some height) : height ∈ n.touchedMp := by
  simp only [notifyHeight] at h
  split at h
  · next hmax =>
    cases h
    have hm := List.mem_of_mem_filter (List.max?_mem hmax)
    simpa using hm
  · split at h
    · next hmax =>
      cases h
      simpa using List.max?_mem hmax
    · cases h

private theorem mem_foldl_union (ts : List (Finset HashX)) (t : Finset HashX) (x : HashX) :
    x ∈ ts.foldl (· ∪ ·) t ↔ x ∈ t ∨ ∃ u ∈ ts, x ∈ u := by
  induction ts generalizing t with
  | nil => simp
  | cons u ts ih =>
    rw [List.foldl_cons, ih, Finset.mem_union, or_assoc, List.exists_mem_cons_iff]

private theorem getElem?_above (t : Std.ExtTreeMap Int (Finset HashX)) (height h : Int) :
    (t.filter fun h _ ↦ ¬ h ≤ height)[h]? = if h ≤ height then none else t[h]? := by
  rw [Std.ExtTreeMap.getElem?_filter']
  split
  · next hle => cases t[h]? <;> simp [Option.filter, hle]
  · next hle => cases t[h]? <;> simp [Option.filter, hle]

/-- `_maybe_notify` does nothing, or hands on what is pending up to a height and forgets it. -/
theorem maybeNotify_cases (n : Notifications) :
    n.notifyHeight = none ∧ n.maybeNotify = .ok (n, none) ∨
    ∃ height touched n', n.notifyHeight = some height ∧
      n.maybeNotify = .ok (n', some (height, touched)) ∧ (∀ x, x ∈ touched ↔ n.Pending height x) ∧
      (∀ h, n'.touchedMp[h]? = if h ≤ height then none else n.touchedMp[h]?) ∧
      ∀ h, n'.touchedBp[h]? = if h ≤ height then none else n.touchedBp[h]? := by
  cases hn : n.notifyHeight with
  | none => exact .inl ⟨rfl, by rw [maybeNotify, hn]; rfl⟩
  | some height =>
    obtain ⟨t, ht⟩ : ∃ t, n.touchedMp[height]? = some t :=
      Option.isSome_iff_exists.mp (by simpa using mem_keys_of_notifyHeight hn)
    refine .inr ⟨height, (n.blockSets height).foldl (· ∪ ·) t, n.above height, rfl, ?_,
      fun x ↦ ?_, getElem?_above _ _, getElem?_above _ _⟩
    · rw [maybeNotify, hn]
      simp only [ht]
      rfl
    · rw [mem_foldl_union, Pending, ht]
      refine or_congr (by simp) ?_
      constructor
      · rintro ⟨u, hu, hx⟩
        obtain ⟨⟨h, u'⟩, he, rfl⟩ := List.mem_map.mp hu
        obtain ⟨hm, hle⟩ := List.mem_filter.mp he
        exact ⟨h, u', by simpa using hle,
          Std.ExtTreeMap.mem_toList_iff_getElem?_eq_some.mp hm, hx⟩
      · rintro ⟨h, u, hle, hu, hx⟩
        refine ⟨u, List.mem_map.mpr ⟨(h, u), List.mem_filter.mpr ⟨?_, by simpa using hle⟩, rfl⟩, hx⟩
        exact Std.ExtTreeMap.mem_toList_iff_getElem?_eq_some.mpr hu

theorem replaced_put_self (n : Notifications) (c : NotifyCall) :
    (n.put c).replaced c = some c.touched := by
  cases c with
  | onMempool t h => exact Std.ExtTreeMap.getElem?_insert_self
  | onBlock t h => exact Std.ExtTreeMap.getElem?_insert_self

/-- A call replaces its own entry only. -/
theorem replaced_put (n : Notifications) (c c' : NotifyCall) :
    n.replaced c' = n.replaced c ∧ (n.put c).replaced c' = some c.touched ∨
      (n.put c).replaced c' = n.replaced c' := by
  cases c with
  | onMempool t h =>
    cases c' with
    | onMempool t' h' =>
      by_cases he : h = h'
      · subst he
        exact .inl ⟨rfl, Std.ExtTreeMap.getElem?_insert_self⟩
      · refine .inr ?_
        rw [put, replaced, Std.ExtTreeMap.getElem?_insert, if_neg (by simpa using he)]
        rfl
    | onBlock t' h' => exact .inr rfl
  | onBlock t h =>
    cases c' with
    | onMempool t' h' => exact .inr rfl
    | onBlock t' h' =>
      by_cases he : h = h'
      · subst he
        exact .inl ⟨rfl, Std.ExtTreeMap.getElem?_insert_self⟩
      · refine .inr ?_
        rw [put, replaced, Std.ExtTreeMap.getElem?_insert, if_neg (by simpa using he)]
        rfl

/-! ### Runs -/

/-- A script hash has been in a notification. -/
def Notified (sent : List (Int × Finset HashX)) (x : HashX) : Prop := ∃ e ∈ sent, x ∈ e.2

/-- The states of a run of calls, with the calls and the notifications so far. The guard may
restrict the calls. -/
inductive Run (guard : Notifications → List (Int × Finset HashX) → NotifyCall → Prop) :
    Notifications → List NotifyCall → List (Int × Finset HashX) → Prop
  | start (height : Int) : Run guard (start height).1 [] [(start height).2]
  | call {n n' : Notifications} {calls : List NotifyCall} {sent : List (Int × Finset HashX)}
      {c : NotifyCall} {out : Option (Int × Finset HashX)} (r : Run guard n calls sent)
      (hg : guard n sent c) (h : n.call c = .ok (n', out)) :
      Run guard n' (calls ++ [c]) (sent ++ out.toList)

/-- A call replaces no pending script hash, and drops no mempool entry below the height that it
notifies, unless it notifies that script hash or an earlier notification had it. -/
structure LosesNothing (n : Notifications) (sent : List (Int × Finset HashX)) (c : NotifyCall) :
    Prop where
  replaced : ∀ old, n.replaced c = some old → ∀ x ∈ old, x ∈ c.touched ∨ Notified sent x
  below : ∀ height, (n.put c).notifyHeight = some height → ∀ h < height, ∀ old,
    (n.put c).touchedMp[h]? = some old → ∀ x ∈ old, (n.put c).Pending height x ∨ Notified sent x

/-- What the calls touched is pending or has been notified. -/
def Kept (n : Notifications) (calls : List NotifyCall) (sent : List (Int × Finset HashX)) : Prop :=
  ∀ c ∈ calls, ∀ x ∈ c.touched, Notified sent x ∨ ∃ t, n.replaced c = some t ∧ x ∈ t

theorem Notified.append {sent more : List (Int × Finset HashX)} {x : HashX}
    (h : Notified sent x) : Notified (sent ++ more) x := by
  obtain ⟨e, he, hx⟩ := h
  exact ⟨e, List.mem_append_left _ he, hx⟩

/-- The new entry keeps what it replaces. -/
private theorem Kept.put {n : Notifications} {calls : List NotifyCall}
    {sent : List (Int × Finset HashX)} {c : NotifyCall} (h : Kept n calls sent)
    (hg : LosesNothing n sent c) : Kept (n.put c) (calls ++ [c]) sent := by
  intro c' hc' x hx
  rcases List.mem_append.mp hc' with hc' | hc'
  · rcases h c' hc' x hx with hn | ⟨t, ht, hxt⟩
    · exact .inl hn
    · rcases replaced_put n c c' with ⟨he, hp⟩ | hp
      · rcases hg.replaced t (he ▸ ht) x hxt with hm | hn
        · exact .inr ⟨_, hp, hm⟩
        · exact .inl hn
      · exact .inr ⟨t, hp.trans ht, hxt⟩
  · obtain rfl := List.mem_singleton.mp hc'
    exact .inr ⟨_, replaced_put_self n c', hx⟩

/-- A pending script hash of a call up to the notified height is notified. -/
private theorem pending_of_replaced {n : Notifications} {sent : List (Int × Finset HashX)}
    {height : Int} (hbelow : ∀ h < height, ∀ old, n.touchedMp[h]? = some old →
      ∀ x ∈ old, n.Pending height x ∨ Notified sent x)
    {c : NotifyCall} (hle : c.height ≤ height) {t : Finset HashX} (ht : n.replaced c = some t)
    {x : HashX} (hx : x ∈ t) : n.Pending height x ∨ Notified sent x := by
  cases c with
  | onMempool u h =>
    rcases lt_or_eq_of_le hle with hlt | rfl
    · exact hbelow h hlt t ht x hx
    · exact .inl (.inl ⟨t, ht, hx⟩)
  | onBlock u h => exact .inl (.inr ⟨h, t, hle, ht, hx⟩)

/-- What a notification up to a height does to the entries. -/
private theorem replaced_above {n n' : Notifications} {height : Int}
    (hmp : ∀ h, n'.touchedMp[h]? = if h ≤ height then none else n.touchedMp[h]?)
    (hbp : ∀ h, n'.touchedBp[h]? = if h ≤ height then none else n.touchedBp[h]?)
    {c : NotifyCall} (hgt : ¬ c.height ≤ height) : n'.replaced c = n.replaced c := by
  cases c with
  | onMempool u h => exact (hmp h).trans (if_neg hgt)
  | onBlock u h => exact (hbp h).trans (if_neg hgt)

/-- A call that loses nothing succeeds, keeps the invariant, and notifies what was touched. -/
theorem Kept.call {n : Notifications} {calls : List NotifyCall} {sent : List (Int × Finset HashX)}
    {c : NotifyCall} (h : Kept n calls sent) (hg : LosesNothing n sent c) :
    ∃ n' out, n.call c = .ok (n', out) ∧ Kept n' (calls ++ [c]) (sent ++ out.toList) ∧
      ∀ height touched, out = some (height, touched) → ∀ c' ∈ calls ++ [c], c'.height ≤ height →
        ∀ x ∈ c'.touched, x ∈ touched ∨ Notified sent x := by
  have hput := h.put hg
  rcases maybeNotify_cases (n.put c) with ⟨-, hm⟩ | ⟨height, touched, n', hh, hm, ht, hmp, hbp⟩
  · exact ⟨_, none, hm, by simpa using hput, fun _ _ he ↦ by cases he⟩
  · have hsent : ∀ c' ∈ calls ++ [c], c'.height ≤ height → ∀ x ∈ c'.touched,
        x ∈ touched ∨ Notified sent x := by
      intro c' hc' hle x hx
      rcases hput c' hc' x hx with hn | ⟨t, hr, hxt⟩
      · exact .inr hn
      · exact (pending_of_replaced (hg.below height hh) hle hr hxt).imp_left (ht x).mpr
    refine ⟨n', _, hm, fun c' hc' x hx ↦ ?_, fun _ _ he ↦ ?_⟩
    · by_cases hle : c'.height ≤ height
      · rcases hsent c' hc' hle x hx with hxt | hn
        · exact .inl ⟨(height, touched), by simp, hxt⟩
        · exact .inl hn.append
      · rcases hput c' hc' x hx with hn | ⟨t, hr, hxt⟩
        · exact .inl hn.append
        · exact .inr ⟨t, (replaced_above hmp hbp hle).trans hr, hxt⟩
    · cases he
      exact hsent

theorem Run.kept {n : Notifications} {calls : List NotifyCall} {sent : List (Int × Finset HashX)}
    (r : Run LosesNothing n calls sent) : Kept n calls sent := by
  induction r with
  | start height => exact fun c hc ↦ by cases hc
  | call _ hg h ih =>
    obtain ⟨n', out, h', hk, -⟩ := ih.call hg
    cases h'.symm.trans h
    exact hk

/-- In a run whose calls lose nothing every call succeeds, and a notification together with the
earlier ones has all that was touched up to its height. -/
theorem Run.notifies_touched {n : Notifications} {calls : List NotifyCall}
    {sent : List (Int × Finset HashX)} (r : Run LosesNothing n calls sent) {c : NotifyCall}
    (hg : LosesNothing n sent c) :
    ∃ n' out, n.call c = .ok (n', out) ∧ ∀ height touched, out = some (height, touched) →
      ∀ c' ∈ calls ++ [c], c'.height ≤ height → ∀ x ∈ c'.touched, x ∈ touched ∨ Notified sent x := by
  obtain ⟨n', out, h, -, hs⟩ := r.kept.call hg
  exact ⟨n', out, h, hs⟩

/-- The mempool and then the block processor reach the next height. -/
theorem sampleCalls_notify : ∃ n n' touched,
    (start 4).1.call (.onMempool {sampleHashX 1} 5) = .ok (n, none) ∧
    n.call (.onBlock {sampleHashX 2} 5) = .ok (n', some (5, touched)) ∧
    sampleHashX 1 ∈ touched ∧ sampleHashX 2 ∈ touched := by
  obtain ⟨⟨n, out⟩, h1, rfl, ⟨n', out'⟩, h2, h3⟩ :
      ∃ r, (start 4).1.call (.onMempool {sampleHashX 1} 5) = .ok r ∧ r.2 = none ∧
      ∃ r', r.1.call (.onBlock {sampleHashX 2} 5) = .ok r' ∧ r'.2.map Prod.fst = some 5 := by
    decide +kernel
  have hnone (c : NotifyCall) : (start 4).1.replaced c = none := by
    cases c <;> exact Std.ExtTreeMap.getElem?_empty
  have hg1 : LosesNothing (start 4).1 [(start 4).2] (.onMempool {sampleHashX 1} 5) := by
    refine ⟨fun old ho ↦ ?_, fun height hh ↦ ?_⟩
    · rw [hnone] at ho
      cases ho
    · have h0 : ((start 4).1.put (.onMempool {sampleHashX 1} 5)).notifyHeight = none := by
        decide +kernel
      cases h0.symm.trans hh
  have hn : n = (start 4).1.put (.onMempool {sampleHashX 1} 5) := by
    rcases maybeNotify_cases ((start 4).1.put (.onMempool {sampleHashX 1} 5)) with
      ⟨-, hm⟩ | ⟨_, _, _, _, hm, -⟩
    · exact (Prod.mk.inj (Except.ok.inj (h1.symm.trans hm))).1
    · cases (Prod.mk.inj (Except.ok.inj (h1.symm.trans hm))).2
  have hg2 : LosesNothing n ([(start 4).2] ++ Option.toList none) (.onBlock {sampleHashX 2} 5) := by
    subst hn
    refine ⟨fun old ho ↦ ?_, fun height hh h hlt old ho ↦ ?_⟩
    · cases (hnone (.onBlock {sampleHashX 2} 5)).symm.trans ho
    · have h5 : (((start 4).1.put (.onMempool {sampleHashX 1} 5)).put
          (.onBlock {sampleHashX 2} 5)).notifyHeight = some 5 := by decide +kernel
      cases h5.symm.trans hh
      have ho' := ho
      rw [put, put, Std.ExtTreeMap.getElem?_insert, if_neg (by simp; omega)] at ho'
      cases (hnone (.onMempool ∅ h)).symm.trans ho'
  have r := Run.call (.start 4) hg1 h1
  obtain ⟨n'', out'', h', ht⟩ := r.notifies_touched hg2
  cases h'.symm.trans h2
  obtain ⟨⟨height, touched⟩, rfl, rfl⟩ := Option.map_eq_some_iff.mp h3
  have h5 : (start 4).2 = (4, ∅) := rfl
  refine ⟨n, n', touched, h1, h2, ?_, ?_⟩
  · exact (ht _ _ rfl (.onMempool {sampleHashX 1} 5) (by simp) (le_refl _) _
      (Finset.mem_singleton_self _)).resolve_right (by simp [Notified, h5])
  · exact (ht _ _ rfl (.onBlock {sampleHashX 2} 5) (by simp) (le_refl _) _
      (Finset.mem_singleton_self _)).resolve_right (by simp [Notified, h5])

/-- The mempool reports a touched script hash at the old height after the next block, and is then
asked again. -/
theorem not_notifies_touched : ¬ ∀ (n : Notifications) (calls : List NotifyCall)
    (sent : List (Int × Finset HashX)), Run (fun _ _ _ ↦ True) n calls sent →
    ∀ c n' height touched, n.call c = .ok (n', some (height, touched)) →
    ∀ c' ∈ calls ++ [c], c'.height ≤ height → ∀ x ∈ c'.touched, x ∈ touched ∨ Notified sent x := by
  intro h
  obtain ⟨⟨n1, out1⟩, h1, rfl, ⟨n2, out2⟩, h2, rfl, ⟨n3, out3⟩, h3, h5⟩ :
      ∃ r, (start 4).1.call (.onBlock ∅ 5) = .ok r ∧ r.2 = none ∧
      ∃ r', r.1.call (.onMempool {sampleHashX 1} 4) = .ok r' ∧ r'.2 = none ∧
      ∃ r'', r'.1.call (.onMempool ∅ 5) = .ok r'' ∧ r''.2.any (fun e ↦ e.1 = 5 ∧ e.2 = ∅) := by
    decide +kernel
  obtain ⟨⟨height, touched⟩, rfl, h5⟩ := (Option.any_eq_true _ _).mp h5
  obtain ⟨rfl, rfl⟩ : height = 5 ∧ touched = ∅ := of_decide_eq_true h5
  have r : Run (fun _ _ _ ↦ True) n2 _ _ := .call (.call (.start 4) trivial h1) trivial h2
  have hx := h n2 _ _ r _ n3 5 ∅ h3 (.onMempool {sampleHashX 1} 4) (by simp) (by decide)
    (sampleHashX 1) (Finset.mem_singleton_self _)
  have h4 : (start 4).2 = (4, ∅) := rfl
  simp [Notified, h4] at hx

end Notifications
end ElectrumX.Server
