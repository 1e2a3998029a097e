import ElectrumX.Lib.ScriptParser
import Std.Data.ExtTreeMap.Lemmas

/-!
# Name prefixes

`interpret_name_prefix` turns each template into op codes and placeholders, compares them with the
first elements of the script, and cuts the script behind the elements of the first template that
fits. What a template means is a relation between it and the elements.
-/

namespace ElectrumX.Lib.ScriptParser
open ElectrumX.Base Std

/-! ### The code -/

/-- The slice `ops[:n]`. -/
def sliceTo {α : Type} (ops : List α) (n : Int) : List α :=
  if n < 0 then ops.take (ops.length + n).toNat else ops.take n.toNat

/-- The item `ops[i]`. -/
def itemAt {α : Type} (ops : List α) (i : Int) : Except PyError α :=
  if i < 0 then
    if 0 ≤ ops.length + i then getItem ops (ops.length + i).toNat else .error .indexError
  else getItem ops i.toNat

/-- `template`, `named_index` and `offset`, `lib/coins.py:592–596`. -/
structure TemplateState where
  template : List TemplateOp := []
  namedIndex : ExtTreeMap String Int := ∅
  offset : Int := 0

/-- `_add_data_placeholders_to_template`, `lib/coins.py:625–638`. -/
def addDataPlaceholdersToTemplate (opcodes : List ScriptOp) (template : List TemplateOp) :
    Nat × List TemplateOp :=
  let numDp := NameCoin.readDataPlaceholdersCount opcodes
  let num2drop := numDp / 2
  let numDrop := numDp % 2
  let twoDrops := List.replicate num2drop (TemplateOp.code 0x6d)
  let oneDrops := List.replicate numDrop (TemplateOp.code 0x75)
  let elementsAdded := numDp + num2drop + numDrop
  let placeholders := List.replicate numDp TemplateOp.data
  (elementsAdded, template ++ placeholders ++ (twoDrops ++ oneDrops))

/-- A round of the loop over a template, `lib/coins.py:597–607`. -/
def templateStep (ops : List ScriptOp) (s : TemplateState) (p : NameOp × Nat) : TemplateState :=
  match p.1 with
  | .dataMultiple =>
    let (added, template) := addDataPlaceholdersToTemplate (ops.drop p.2) s.template
    { s with template, offset := s.offset + (added - 1) }
  | .named name =>
    { s with
      template := s.template ++ [.data]
      namedIndex := s.namedIndex.insert name (p.2 + s.offset) }
  | .data => { s with template := s.template ++ [.data] }
  | .code op => { s with template := s.template ++ [.code op] }

/-- The loop over a template, `lib/coins.py:592–607`. -/
def buildTemplate (ops : List ScriptOp) (pops : List NameOp) : TemplateState :=
  pops.zipIdx.foldl (templateStep ops) {}

/-- The loop over the templates, `lib/coins.py:588–616`: the number of elements of the prefix and
the items of `named_values`. -/
def findMatch (ops : List ScriptOp) :
    List (List NameOp) → Except PyError (Option (Int × List (String × ScriptOp)))
  | [] => .ok none
  | pops :: possibleOps => do
    let s := buildTemplate ops pops
    let n := pops.length + s.offset
    if matchOps (sliceTo ops n) s.template then
      let values ← s.namedIndex.toList.mapM fun p ↦ do return (p.1, ← itemAt ops p.2)
      return some (n, values)
    else findMatch ops possibleOps

/-- `interpret_name_prefix`, `lib/coins.py:567–623`. -/
def interpretNamePrefix (script : Bytes) (possibleOps : List (List NameOp)) :
    Except PyError (Option (List (String × ScriptOp)) × Bytes) :=
  match getOps script with
  | .error _ => .ok (none, script)
  | .ok ops => do
    match ← findMatch ops possibleOps with
    | none => return (none, script)
    | some (nameOpCount, namedValues) =>
      let nameEndPos ← findEndPositionOfName script 0 nameOpCount.toNat
      return (some namedValues, script.drop nameEndPos)

/-! ### What a template means -/

/-- A data push. -/
def isPush : ScriptOp → Bool
  | .push _ _ => true
  | .code _ => false

/-- An element stands where a template has an op code or a placeholder. -/
def Fits : NameOp → ScriptOp → Prop
  | .code c, op => op = .code c
  | .data, op => isPush op
  | .named _, op => isPush op
  | .dataMultiple, _ => False

/-- As many `OP_2DROP` and `OP_DROP` as drop some pushes. -/
def drops (pushes : Nat) : List ScriptOp :=
  List.replicate (pushes / 2) (.code 0x6d) ++ List.replicate (pushes % 2) (.code 0x75)

/-- A template matches the elements in front of others. A trailing `-2` stands for the maximal run
of pushes and what drops them. -/
inductive Matches : List NameOp → List ScriptOp → List ScriptOp → Prop
  | nil {after : List ScriptOp} : Matches [] [] after
  | cons {pop : NameOp} {op : ScriptOp} {pops : List NameOp} {ops after : List ScriptOp}
      (h : Fits pop op) (hm : Matches pops ops after) : Matches (pop :: pops) (op :: ops) after
  | multiple {pushes after : List ScriptOp} (hp : ∀ op ∈ pushes, isPush op)
      (hmax : ∀ op ∈ (drops pushes.length ++ after).head?, isPush op = false) :
      Matches [.dataMultiple] (pushes ++ drops pushes.length) after

/-- A template matches a leading segment. -/
def MatchesLeading (pops : List NameOp) (ops : List ScriptOp) : Prop :=
  ∃ segment after, ops = segment ++ after ∧ Matches pops segment after

/-- The last placeholder with a name. -/
def LastAt (pops : List NameOp) (name : String) (i : Nat) : Prop :=
  pops[i]? = some (.named name) ∧ ∀ j, i < j → pops[j]? ≠ some (.named name)

/-- `-2` is at the end of a template, if anywhere. -/
def Trailing (pops : List NameOp) : Prop := .dataMultiple ∉ pops.dropLast

/-! ### Matching -/

/-- What stands in the template for an element other than `-2`. -/
def templateOp : NameOp → TemplateOp
  | .code op => .code op
  | _ => .data

theorem matchOps_eq_true {ops : List ScriptOp} {pattern : List TemplateOp} :
    matchOps ops pattern = true ↔ List.Forall₂ (fun p op ↦ p.fits op = true) pattern ops := by
  induction ops generalizing pattern with
  | nil => cases pattern <;> simp [matchOps]
  | cons op ops ih =>
    cases pattern with
    | nil => simp [matchOps]
    | cons p pattern =>
      rw [List.forall₂_cons, ← ih]
      simp [matchOps]
      tauto

theorem fits_data {op : ScriptOp} : TemplateOp.data.fits op = true ↔ isPush op := by
  cases op <;> simp [TemplateOp.fits, isPush]

theorem fits_code {c : UInt8} {op : ScriptOp} :
    (TemplateOp.code c).fits op = true ↔ op = .code c := by
  cases op with
  | code x => rw [TemplateOp.fits, beq_iff_eq, ScriptOp.code.injEq, eq_comm]
  | push x data => simp [TemplateOp.fits]

theorem fits_templateOp {pop : NameOp} (h : pop ≠ .dataMultiple) {op : ScriptOp} :
    (templateOp pop).fits op = true ↔ Fits pop op := by
  cases pop with
  | code c => exact fits_code
  | data => exact fits_data
  | named name => exact fits_data
  | dataMultiple => exact absurd rfl h

theorem forall₂_append_left {α β : Type} {R : α → β → Prop} {xs ys : List α} {bs : List β} :
    List.Forall₂ R (xs ++ ys) bs ↔
      ∃ cs ds, bs = cs ++ ds ∧ List.Forall₂ R xs cs ∧ List.Forall₂ R ys ds := by
  constructor
  · intro h
    refine ⟨bs.take xs.length, bs.drop xs.length, (List.take_append_drop _ _).symm, ?_, ?_⟩
    · exact List.forall₂_take_append _ _ _ h.flip |>.flip
    · exact List.forall₂_drop_append _ _ _ h.flip |>.flip
  · rintro ⟨cs, ds, rfl, hc, hd⟩
    exact List.rel_append hc hd

theorem forall₂_replicate_left {α β : Type} {R : α → β → Prop} {a : α} {n : Nat} {bs : List β} :
    List.Forall₂ R (List.replicate n a) bs ↔ bs.length = n ∧ ∀ b ∈ bs, R a b := by
  induction n generalizing bs with
  | zero => cases bs <;> simp
  | succ n ih =>
    rw [List.replicate_succ]
    cases bs with
    | nil => simp
    | cons b bs =>
      rw [List.forall₂_cons, ih]
      simp
      tauto

/-- The count of a run of pushes that ends. -/
theorem readDataPlaceholdersCount_append {pushes after : List ScriptOp}
    (hp : ∀ op ∈ pushes, isPush op) (hmax : ∀ op ∈ after.head?, isPush op = false) :
    NameCoin.readDataPlaceholdersCount (pushes ++ after) = pushes.length := by
  induction pushes with
  | nil =>
    cases after with
    | nil => rfl
    | cons op after =>
      cases op with
      | code c => rfl
      | push c data => exact absurd (hmax _ rfl) (by simp [isPush])
  | cons op pushes ih =>
    cases op with
    | code c => exact absurd (hp _ List.mem_cons_self) (by simp [isPush])
    | push c data =>
      rw [List.cons_append, NameCoin.readDataPlaceholdersCount,
        ih fun x hx ↦ hp x (List.mem_cons_of_mem _ hx), List.length_cons]

/-- A run of pushes that was counted ends there. -/
theorem head?_of_readDataPlaceholdersCount {pushes after : List ScriptOp}
    (hp : ∀ op ∈ pushes, isPush op)
    (h : NameCoin.readDataPlaceholdersCount (pushes ++ after) = pushes.length) :
    ∀ op ∈ after.head?, isPush op = false := by
  induction pushes with
  | nil =>
    intro op hop
    cases after with
    | nil => cases hop
    | cons x after =>
      cases hop
      cases op with
      | code c => rfl
      | push c data => cases h
  | cons op pushes ih =>
    cases op with
    | code c => exact absurd (hp _ List.mem_cons_self) (by simp [isPush])
    | push c data =>
      rw [List.cons_append, NameCoin.readDataPlaceholdersCount, List.length_cons] at h
      exact ih (fun x hx ↦ hp x (List.mem_cons_of_mem _ hx)) (Nat.succ_injective h)

/-- The drops behind the placeholders. -/
theorem forall₂_dataPlaceholders {opcodes ops : List ScriptOp} :
    List.Forall₂ (fun p op ↦ TemplateOp.fits p op = true) (NameCoin.dataPlaceholders opcodes) ops ↔
      ∃ pushes, (∀ op ∈ pushes, isPush op) ∧
        pushes.length = NameCoin.readDataPlaceholdersCount opcodes ∧
        ops = pushes ++ drops pushes.length := by
  unfold NameCoin.dataPlaceholders
  generalize NameCoin.readDataPlaceholdersCount opcodes = n
  dsimp only
  have hcode : ∀ {c : UInt8} {k : Nat} {xs : List ScriptOp},
      List.Forall₂ (fun p op ↦ TemplateOp.fits p op = true) (List.replicate k (.code c)) xs ↔
        xs = List.replicate k (.code c) := by
    intro c k xs
    rw [forall₂_replicate_left, List.eq_replicate_iff]
    simp only [fits_code]
  have hdata : ∀ {xs : List ScriptOp},
      List.Forall₂ (fun p op ↦ TemplateOp.fits p op = true) (List.replicate n .data) xs ↔
        xs.length = n ∧ ∀ op ∈ xs, isPush op := by
    intro xs
    rw [forall₂_replicate_left]
    simp only [fits_data]
  simp only [List.append_assoc, forall₂_append_left, hcode, hdata]
  constructor
  · rintro ⟨pushes, rest, rfl, ⟨hn, hp⟩, twos, ones, rfl, rfl, rfl⟩
    exact ⟨pushes, hp, hn, by rw [drops, hn]⟩
  · rintro ⟨pushes, hp, hn, rfl⟩
    exact ⟨pushes, _, rfl, ⟨hn, hp⟩, _, _, by rw [drops, hn], rfl, rfl⟩

/-- A template without `-2` matches what fits it element by element. -/
theorem matches_of_notMem {front : List NameOp} (h : .dataMultiple ∉ front)
    {segment after : List ScriptOp} : Matches front segment after ↔
      List.Forall₂ (fun p op ↦ TemplateOp.fits p op = true) (front.map templateOp) segment := by
  induction front generalizing segment with
  | nil =>
    rw [List.map_nil, List.forall₂_nil_left_iff]
    constructor
    · intro hm
      cases hm
      rfl
    · rintro rfl
      exact .nil
  | cons pop front ih =>
    have ⟨hne, hfront⟩ : .dataMultiple ≠ pop ∧ .dataMultiple ∉ front := by
      simpa only [List.mem_cons, not_or] using h
    have hfit := fun op ↦ @fits_templateOp pop (Ne.symm hne) op
    constructor
    · intro hm
      cases hm with
      | cons hf hm => exact .cons ((hfit _).mpr hf) ((ih hfront).mp hm)
      | multiple => exact absurd rfl hne
    · intro hm
      cases hm with
      | cons hf hm => exact .cons ((hfit _).mp hf) ((ih hfront).mpr hm)

/-- A template with a trailing `-2` matches what fits its other elements and the placeholders
for what follows these. -/
theorem matches_append_multiple {front : List NameOp} (h : .dataMultiple ∉ front)
    {segment after : List ScriptOp} : Matches (front ++ [.dataMultiple]) segment after ↔
      List.Forall₂ (fun p op ↦ TemplateOp.fits p op = true) (front.map templateOp ++
        NameCoin.dataPlaceholders ((segment ++ after).drop front.length)) segment := by
  induction front generalizing segment with
  | nil =>
    rw [List.map_nil, List.nil_append, List.nil_append, List.length_nil, List.drop_zero,
      forall₂_dataPlaceholders]
    constructor
    · intro hm
      cases hm with
      | cons hf => cases hf
      | @multiple pushes _ hp hmax =>
        refine ⟨pushes, hp, ?_, rfl⟩
        rw [List.append_assoc]
        exact (readDataPlaceholdersCount_append hp hmax).symm
    · rintro ⟨pushes, hp, hn, rfl⟩
      rw [List.append_assoc] at hn
      exact .multiple hp (head?_of_readDataPlaceholdersCount hp hn.symm)
  | cons pop front ih =>
    have ⟨hne, hfront⟩ : .dataMultiple ≠ pop ∧ .dataMultiple ∉ front := by
      simpa only [List.mem_cons, not_or] using h
    have hfit := fun op ↦ @fits_templateOp pop (Ne.symm hne) op
    rw [List.cons_append, List.map_cons, List.cons_append, List.length_cons]
    constructor
    · intro hm
      generalize htail : front ++ [NameOp.dataMultiple] = tail at hm
      cases hm with
      | cons hf hm => exact .cons ((hfit _).mpr hf) ((ih hfront).mp (htail ▸ hm))
      | multiple => exact absurd rfl hne
    · intro hm
      cases hm with
      | cons hf hm => exact .cons ((hfit _).mp hf) ((ih hfront).mpr hm)

/-! ### The template -/

/-- The last placeholder with a name, when a template gets one more element. -/
theorem lastAt_concat {front : List NameOp} {pop : NameOp} {name : String} {k : Nat} :
    LastAt (front ++ [pop]) name k ↔
      pop = .named name ∧ k = front.length ∨ pop ≠ .named name ∧ LastAt front name k := by
  have hget : ∀ j, (front ++ [pop])[j]? =
      if j < front.length then front[j]? else if j = front.length then some pop else none := by
    intro j
    split
    · next hj => exact List.getElem?_append_left hj
    · next hj =>
      rw [List.getElem?_append_right (by omega)]
      split
      · next he => rw [he, Nat.sub_self]; rfl
      · next he => exact List.getElem?_eq_none (by simp; omega)
  have hlt : ∀ {j : Nat}, front[j]? = some (.named name) → j < front.length :=
    fun h ↦ (List.getElem?_eq_some_iff.mp h).1
  constructor
  · rintro ⟨hk, hlast⟩
    rw [hget] at hk
    by_cases hp : pop = .named name
    · refine .inl ⟨hp, ?_⟩
      by_contra hne
      have hkl : k < front.length := by
        by_contra hge
        rw [if_neg hge, if_neg hne] at hk
        cases hk
      refine hlast front.length hkl ?_
      rw [hget, if_neg (by omega), if_pos rfl, hp]
    · refine .inr ⟨hp, ?_⟩
      have hkl : k < front.length := by
        by_contra hge
        rw [if_neg hge] at hk
        split at hk
        · exact hp (Option.some.inj hk)
        · cases hk
      rw [if_pos hkl] at hk
      refine ⟨hk, fun j hj hjs ↦ hlast j hj ?_⟩
      rw [hget, if_pos (hlt hjs), hjs]
  · rintro (⟨rfl, rfl⟩ | ⟨hp, hk, hlast⟩)
    · refine ⟨by rw [hget, if_neg (by omega), if_pos rfl], fun j hj ↦ ?_⟩
      rw [hget, if_neg (by omega), if_neg (by omega)]
      simp
    · refine ⟨by rw [hget, if_pos (hlt hk), hk], fun j hj ↦ ?_⟩
      rw [hget]
      split
      · exact hlast j hj
      · split
        · exact fun h ↦ hp (Option.some.inj h)
        · simp

theorem buildTemplate_concat (ops : List ScriptOp) (front : List NameOp) (pop : NameOp) :
    buildTemplate ops (front ++ [pop]) =
      templateStep ops (buildTemplate ops front) (pop, front.length) := by
  simp [buildTemplate, List.zipIdx_append]

/-- The named placeholders are the last ones with their names. -/
def Names (s : TemplateState) (pops : List NameOp) : Prop :=
  ∀ (name : String) (i : Int), s.namedIndex[name]? = some i ↔
    ∃ k : Nat, i = k ∧ LastAt pops name k

/-- The template of elements without `-2`. -/
theorem buildTemplate_of_notMem (ops : List ScriptOp) {front : List NameOp}
    (h : .dataMultiple ∉ front) :
    (buildTemplate ops front).template = front.map templateOp ∧
      (buildTemplate ops front).offset = 0 ∧ Names (buildTemplate ops front) front := by
  induction front using List.reverseRecOn with
  | nil =>
    refine ⟨rfl, rfl, fun name i ↦ ?_⟩
    have hnone : (buildTemplate ops []).namedIndex[name]? = none := ExtTreeMap.getElem?_empty
    rw [hnone]
    simp [LastAt]
  | append_singleton front pop ih =>
    obtain ⟨ht, ho, hn⟩ := ih fun hm ↦ h (List.mem_append_left _ hm)
    rw [buildTemplate_concat, List.map_append, List.map_singleton]
    cases pop with
    | dataMultiple => exact absurd (by simp) h
    | named name =>
      refine ⟨by rw [templateStep, ht]; rfl, ho, fun other i ↦ ?_⟩
      simp only [templateStep, ho, ExtTreeMap.getElem?_insert, lastAt_concat]
      by_cases he : name = other
      · subst he
        simp [eq_comm]
      · rw [if_neg (by simpa using he), hn other i]
        simp [he]
    | data =>
      refine ⟨by rw [templateStep, ht]; rfl, ho, fun other i ↦ ?_⟩
      simp only [templateStep, lastAt_concat]
      rw [hn other i]
      simp
    | code c =>
      refine ⟨by rw [templateStep, ht]; rfl, ho, fun other i ↦ ?_⟩
      simp only [templateStep, lastAt_concat]
      rw [hn other i]
      simp

/-- A template with `-2` at most at its end. -/
theorem Trailing.cases {pops : List NameOp} (h : Trailing pops) :
    .dataMultiple ∉ pops ∨ ∃ front, .dataMultiple ∉ front ∧ pops = front ++ [.dataMultiple] := by
  rcases List.eq_nil_or_concat pops with rfl | ⟨front, pop, rfl⟩
  · exact .inl (by simp)
  · rw [List.concat_eq_append] at h ⊢
    rw [Trailing, List.dropLast_concat] at h
    by_cases hp : pop = .dataMultiple
    · exact .inr ⟨front, h, by rw [hp]⟩
    · refine .inl fun hm ↦ ?_
      rcases List.mem_append.mp hm with hm | hm
      · exact h hm
      · exact hp (List.mem_singleton.mp hm).symm

/-- What the loop over a template finds: as many template elements as it counts, which fit a
segment of the script exactly when the template matches it, and the names. -/
theorem buildTemplate_spec {ops : List ScriptOp} {pops : List NameOp} (h : Trailing pops) :
    ((buildTemplate ops pops).template.length : Int) =
        pops.length + (buildTemplate ops pops).offset ∧
      Names (buildTemplate ops pops) pops ∧
      ∀ segment after, ops = segment ++ after → (Matches pops segment after ↔
        List.Forall₂ (fun p op ↦ TemplateOp.fits p op = true)
          (buildTemplate ops pops).template segment) := by
  rcases h.cases with hfront | ⟨front, hfront, rfl⟩
  · obtain ⟨ht, ho, hn⟩ := buildTemplate_of_notMem ops hfront
    rw [ht, ho]
    refine ⟨by simp, hn, fun segment after _ ↦ matches_of_notMem hfront⟩
  · obtain ⟨ht, ho, hn⟩ := buildTemplate_of_notMem ops hfront
    rw [buildTemplate_concat]
    have htemplate : (templateStep ops (buildTemplate ops front)
        (.dataMultiple, front.length)).template =
          front.map templateOp ++ NameCoin.dataPlaceholders (ops.drop front.length) := by
      simp only [templateStep, addDataPlaceholdersToTemplate, ht, NameCoin.dataPlaceholders,
        List.append_assoc]
    rw [htemplate]
    refine ⟨?_, fun name i ↦ ?_, ?_⟩
    · simp only [templateStep, addDataPlaceholdersToTemplate, ho, NameCoin.dataPlaceholders,
        List.length_append, List.length_map, List.length_replicate, List.length_singleton]
      omega
    · simp only [lastAt_concat]
      change (buildTemplate ops front).namedIndex[name]? = some i ↔ _
      rw [hn name i]
      simp
    · rintro segment after rfl
      exact matches_append_multiple hfront

/-! ### Splitting a script -/

/-- The cursor passes the elements that the parser has read. -/
theorem findEndPositionOfName_eq {script : Bytes} {n : Nat} {segment : List ScriptOp}
    {rest : Bytes} (hw : ∀ op ∈ segment, WellFormed op)
    (hs : script.drop n = segment.flatMap encode ++ rest) (hn : n ≤ script.length) :
    findEndPositionOfName script n segment.length =
      .ok (n + (segment.flatMap encode).length) := by
  induction segment generalizing n with
  | nil => rfl
  | cons op segment ih =>
    rw [List.flatMap_cons, List.append_assoc] at hs
    have hl := congrArg List.length hs
    rw [List.length_append, List.length_drop] at hl
    have hpos := List.length_pos_iff.mpr (encode_ne_nil op)
    have hdrop : script.drop (n + (encode op).length) = segment.flatMap encode ++ rest := by
      rw [← List.drop_drop, hs, List.drop_left]
    have hround : getOpsRound script n = .ok (op, n + (encode op).length) :=
      getOpsRound_eq_ok.mpr ⟨hw op List.mem_cons_self, by rw [hs, hdrop], by omega⟩
    have hend : findEndRound script n = .ok (n + (encode op).length) := by
      rcases findEndRound_eq script n with ⟨op', n', hx, hy⟩ | ⟨⟨e, he⟩, -⟩
      · cases hx.symm.trans hround
        exact hy
      · cases he.symm.trans hround
    rw [List.length_cons, findEndPositionOfName, hend]
    change findEndPositionOfName script (n + (encode op).length) segment.length = _
    rw [ih (fun x hx ↦ hw x (List.mem_cons_of_mem _ hx)) hdrop (by omega), List.flatMap_cons,
      List.length_append, Nat.add_assoc]

/-- The values of the names are the pushes at their placeholders. -/
def NamedValues (pops : List NameOp) (segment : List ScriptOp)
    (values : List (String × ScriptOp)) : Prop :=
  ∀ name op, (name, op) ∈ values ↔
    isPush op ∧ ∃ i, LastAt pops name i ∧ segment[i]? = some op

/-- A named placeholder of a template that matches stands for a push. -/
theorem Matches.isPush_of_named {pops : List NameOp} {segment after : List ScriptOp}
    (h : Matches pops segment after) {i : Nat} {name : String}
    (hi : pops[i]? = some (.named name)) : ∃ op, segment[i]? = some op ∧ isPush op := by
  induction h generalizing i with
  | nil => cases hi
  | cons hf _ ih =>
    cases i with
    | zero =>
      cases hi
      exact ⟨_, rfl, hf⟩
    | succ i => exact ih hi
  | multiple =>
    cases i with
    | zero => cases hi
    | succ i => cases hi

/-- The items of `named_values`, `lib/coins.py:614`. -/
theorem exists_namedValues {ops : List ScriptOp} {pops : List NameOp} {s : TemplateState}
    (hn : Names s pops) {count : Nat} {after : List ScriptOp}
    (hm : Matches pops (ops.take count) after) :
    ∃ values, (s.namedIndex.toList.mapM fun p ↦ do return (p.1, ← itemAt ops p.2)) =
      Except.ok values ∧ NamedValues pops (ops.take count) values := by
  have hitem : ∀ {name : String} {i : Int}, (name, i) ∈ s.namedIndex.toList →
      ∃ k : Nat, i = k ∧ LastAt pops name k ∧
        ∃ op, (ops.take count)[k]? = some op ∧ isPush op ∧ itemAt ops i = .ok op := by
    intro name i hi
    obtain ⟨k, rfl, hk⟩ := (hn name i).mp (ExtTreeMap.mem_toList_iff_getElem?_eq_some.mp hi)
    obtain ⟨op, hop, hpush⟩ := hm.isPush_of_named hk.1
    refine ⟨k, rfl, hk, op, hop, hpush, ?_⟩
    rw [List.getElem?_take] at hop
    split at hop
    · rw [itemAt, if_neg (by omega), Int.toNat_natCast]
      exact getItem_of_some hop
    · cases hop
  have hall : ∀ p ∈ s.namedIndex.toList, ∃ y : String × ScriptOp,
      (do return (p.1, ← itemAt ops p.2) : Except PyError (String × ScriptOp)) = .ok y := by
    intro p hp
    obtain ⟨k, -, -, op, -, -, ho⟩ := hitem hp
    exact ⟨(p.1, op), by rw [ho]; rfl⟩
  obtain ⟨values, hv⟩ := exists_mapM_eq_ok hall
  refine ⟨values, hv, fun name op ↦ ?_⟩
  rw [mem_of_mapM_eq_ok hv]
  constructor
  · rintro ⟨⟨name', i⟩, hp, hy⟩
    obtain ⟨k, -, hk, op', hop, hpush, ho⟩ := hitem hp
    rw [ho] at hy
    cases hy
    exact ⟨hpush, k, hk, hop⟩
  · rintro ⟨-, k, hk, hop⟩
    have hp : (name, (k : Int)) ∈ s.namedIndex.toList :=
      ExtTreeMap.mem_toList_iff_getElem?_eq_some.mpr ((hn name k).mpr ⟨k, rfl, hk⟩)
    obtain ⟨k', hkk, -, op', hop', -, ho⟩ := hitem hp
    obtain rfl : k = k' := Int.ofNat_inj.mp hkk
    rw [hop] at hop'
    cases hop'
    exact ⟨_, hp, by rw [ho]; rfl⟩

/-- What the loop over the templates returns. -/
theorem findMatch_spec {ops : List ScriptOp} {possibleOps : List (List NameOp)}
    (h : ∀ pops ∈ possibleOps, Trailing pops) :
    (findMatch ops possibleOps = .ok none ∧ ∀ pops ∈ possibleOps, ¬MatchesLeading pops ops) ∨
      ∃ before pops behind segment after values,
        possibleOps = before ++ pops :: behind ∧ (∀ p ∈ before, ¬MatchesLeading p ops) ∧
        ops = segment ++ after ∧ Matches pops segment after ∧ NamedValues pops segment values ∧
        findMatch ops possibleOps = .ok (some (segment.length, values)) := by
  induction possibleOps with
  | nil => exact .inl ⟨rfl, by simp⟩
  | cons pops possibleOps ih =>
    obtain ⟨hlen, hnames, hmatch⟩ := @buildTemplate_spec ops pops (h pops List.mem_cons_self)
    have hslice : sliceTo ops (pops.length + (buildTemplate ops pops).offset) =
        ops.take (buildTemplate ops pops).template.length := by
      rw [← hlen, sliceTo, if_neg (by omega), Int.toNat_natCast]
    rw [findMatch, hslice]
    by_cases hm : matchOps (ops.take (buildTemplate ops pops).template.length)
        (buildTemplate ops pops).template = true
    · rw [if_pos hm]
      have hf := matchOps_eq_true.mp hm
      have hmatches := (hmatch _ _ (List.take_append_drop _ ops).symm).mpr hf
      obtain ⟨values, hv, hnv⟩ := exists_namedValues hnames hmatches
      refine .inr ⟨[], pops, possibleOps, _, _, values, rfl, by simp,
        (List.take_append_drop _ ops).symm, hmatches, hnv, ?_⟩
      rw [hv, hf.length_eq.symm, hlen]
      rfl
    · rw [if_neg hm]
      have hno : ¬MatchesLeading pops ops := by
        rintro ⟨segment, after, hs, hseg⟩
        have hf := (hmatch segment after hs).mp hseg
        refine hm (matchOps_eq_true.mpr ?_)
        rw [hf.length_eq, hs, List.take_left]
        rwa [← hs]
      rcases ih fun p hp ↦ h p (List.mem_cons_of_mem _ hp) with ⟨hx, hall⟩ |
        ⟨before, p, behind, segment, after, values, rfl, hbefore, hs, hp, hv, hx⟩
      · refine .inl ⟨hx, ?_⟩
        rintro p (- | ⟨-, hp⟩)
        · exact hno
        · exact hall p hp
      · refine .inr ⟨pops :: before, p, behind, segment, after, values, rfl, ?_, hs, hp, hv, hx⟩
        rintro q (- | ⟨-, hq⟩)
        · exact hno
        · exact hbefore q hq

/-! ### The name scripts of an index

`NameCoin` has the same function over the rest of the script instead of a cursor. -/

/-- A template and the positions of its names, as the loop over a template has them. -/
structure SameTemplate (s : TemplateState) (pattern : List TemplateOp)
    (named : List (String × Nat)) (count : Int) : Prop where
  template : s.template = pattern
  length : (pattern.length : Int) = count
  positions : ∀ name : String, s.namedIndex[name]? = (named.lookup name).map Int.ofNat
  bound : ∀ p ∈ named, p.2 < pattern.length

theorem SameTemplate.step (ops : List ScriptOp) {s : TemplateState} {pattern : List TemplateOp}
    {named : List (String × Nat)} {i : Nat} (h : SameTemplate s pattern named (i + s.offset))
    (pop : NameOp) :
    ∃ pattern' named', SameTemplate (templateStep ops s (pop, i)) pattern' named'
        (i + 1 + (templateStep ops s (pop, i)).offset) ∧
      ∀ pops, NameCoin.template (ops.drop i) pattern named (pop :: pops) =
        NameCoin.template (ops.drop (i + 1)) pattern' named' pops := by
  have hlen := h.length
  have hone (op : TemplateOp) : ((pattern ++ [op]).length : Int) = i + 1 + s.offset := by
    rw [List.length_append, List.length_singleton]
    omega
  have hlt : ∀ {added : List TemplateOp}, ∀ p ∈ named, p.2 < (pattern ++ added).length := by
    intro added p hp
    rw [List.length_append]
    exact Nat.lt_add_right _ (h.bound p hp)
  cases pop with
  | code op =>
    refine ⟨pattern ++ [.code op], named, ⟨congrArg (· ++ _) h.template, hone _, h.positions,
      hlt⟩, fun pops ↦ ?_⟩
    rw [NameCoin.template, List.tail_drop]
  | data =>
    refine ⟨pattern ++ [.data], named, ⟨congrArg (· ++ _) h.template, hone _, h.positions,
      hlt⟩, fun pops ↦ ?_⟩
    rw [NameCoin.template, List.tail_drop]
  | dataMultiple =>
    refine ⟨pattern ++ NameCoin.dataPlaceholders (ops.drop i), named, ⟨?_, ?_, h.positions,
      hlt⟩, fun pops ↦ ?_⟩
    · simp only [templateStep, addDataPlaceholdersToTemplate, h.template,
        NameCoin.dataPlaceholders, List.append_assoc]
    · simp only [templateStep, addDataPlaceholdersToTemplate, NameCoin.dataPlaceholders,
        List.length_append, List.length_replicate]
      omega
    · rw [NameCoin.template, List.tail_drop]
  | named name =>
    refine ⟨pattern ++ [.data], (name, pattern.length) :: named,
      ⟨congrArg (· ++ _) h.template, hone _, fun other ↦ ?_, fun p hp ↦ ?_⟩, fun pops ↦ ?_⟩
    · simp only [templateStep, ExtTreeMap.getElem?_insert, List.lookup_cons]
      by_cases he : name = other
      · subst he
        rw [if_pos compare_self, ← hlen, beq_self_eq_true]
        rfl
      · rw [if_neg (by simpa using he), h.positions other, beq_false_of_ne (Ne.symm he)]
    · rcases List.mem_cons.mp hp with rfl | hp
      · simp
      · exact hlt p hp
    · rw [NameCoin.template, List.tail_drop]

/-- The loop over a template and the recursion over it build the same one. -/
theorem sameTemplate (ops : List ScriptOp) (pops : List NameOp) :
    SameTemplate (buildTemplate ops pops) (NameCoin.template ops [] [] pops).1
      (NameCoin.template ops [] [] pops).2 (pops.length + (buildTemplate ops pops).offset) := by
  have hloop : ∀ (pops : List NameOp) (i : Nat) (s : TemplateState) (pattern : List TemplateOp)
      (named : List (String × Nat)), SameTemplate s pattern named (i + s.offset) →
      SameTemplate ((pops.zipIdx i).foldl (templateStep ops) s)
        (NameCoin.template (ops.drop i) pattern named pops).1
        (NameCoin.template (ops.drop i) pattern named pops).2
        (i + pops.length + ((pops.zipIdx i).foldl (templateStep ops) s).offset) := by
    intro pops
    induction pops with
    | nil => exact fun i s pattern named h ↦ by simpa [NameCoin.template] using h
    | cons pop pops ih =>
      intro i s pattern named h
      obtain ⟨pattern', named', hstep, hrest⟩ := h.step ops pop
      have h' := ih (i + 1) _ pattern' named' (by exact_mod_cast hstep)
      rw [hrest, List.zipIdx_cons, List.foldl_cons, List.length_cons]
      convert h' using 1
      push_cast
      ring
  have h := hloop pops 0 {} [] [] ⟨rfl, rfl, fun name ↦ ExtTreeMap.getElem?_empty, by simp⟩
  simpa [buildTemplate] using h

/-- Looking a name up in the elements at the positions is looking up its position. -/
theorem lookup_filterMap {ops : List ScriptOp} {named : List (String × Nat)}
    (h : ∀ p ∈ named, p.2 < ops.length) (name : String) :
    (named.filterMap fun p ↦ ops[p.2]?.map fun op ↦ (p.1, op)).lookup name =
      (named.lookup name).bind fun k ↦ ops[k]? := by
  induction named with
  | nil => rfl
  | cons p named ih =>
    have hget := List.getElem?_eq_getElem (h p List.mem_cons_self)
    rw [List.filterMap_cons, hget, Option.map_some]
    dsimp only
    rw [List.lookup_cons, List.lookup_cons, ih fun q hq ↦ h q (List.mem_cons_of_mem _ hq)]
    cases name == p.1 with
    | true => exact hget.symm
    | false => rfl

/-- The items of `named_values` are those of the names at the positions found. -/
theorem SameTemplate.namedValues {ops : List ScriptOp} {s : TemplateState}
    {pattern : List TemplateOp} {named : List (String × Nat)} {count : Int}
    (h : SameTemplate s pattern named count) (hle : pattern.length ≤ ops.length) :
    ∃ values, (s.namedIndex.toList.mapM fun p ↦ do return (p.1, ← itemAt ops p.2)) =
      Except.ok values ∧ ∀ name op, (name, op) ∈ values ↔
        (named.filterMap fun p ↦ ops[p.2]?.map fun op ↦ (p.1, op)).lookup name = some op := by
  have hbound : ∀ p ∈ named, p.2 < ops.length := fun p hp ↦ (h.bound p hp).trans_le hle
  have hitem : ∀ {name : String} {i : Int}, (name, i) ∈ s.namedIndex.toList ↔
      ∃ k, named.lookup name = some k ∧ Int.ofNat k = i := by
    intro name i
    rw [ExtTreeMap.mem_toList_iff_getElem?_eq_some, h.positions, Option.map_eq_some_iff]
  have hget : ∀ {k : Nat} {name : String}, named.lookup name = some k →
      ∃ op, ops[k]? = some op ∧ itemAt ops (Int.ofNat k) = .ok op := by
    intro k name hk
    obtain ⟨l, r, hsplit, -⟩ := List.lookup_eq_some_iff.mp hk
    have hop := List.getElem?_eq_getElem (hbound (name, k) (by simp [hsplit]))
    exact ⟨_, hop, getItem_of_some hop⟩
  have hall : ∀ p ∈ s.namedIndex.toList, ∃ y : String × ScriptOp,
      (do return (p.1, ← itemAt ops p.2) : Except PyError (String × ScriptOp)) = .ok y := by
    rintro ⟨name, i⟩ hp
    obtain ⟨k, hk, rfl⟩ := hitem.mp hp
    obtain ⟨op, -, ho⟩ := hget hk
    exact ⟨(name, op), by rw [ho]; rfl⟩
  obtain ⟨values, hv⟩ := exists_mapM_eq_ok hall
  refine ⟨values, hv, fun name op ↦ ?_⟩
  rw [mem_of_mapM_eq_ok hv, lookup_filterMap hbound, Option.bind_eq_some_iff]
  constructor
  · rintro ⟨⟨name', i⟩, hp, hy⟩
    obtain ⟨k, hk, rfl⟩ := hitem.mp hp
    obtain ⟨op', hop, ho⟩ := hget hk
    rw [ho] at hy
    cases hy
    exact ⟨k, hk, hop⟩
  · rintro ⟨k, hk, hop⟩
    obtain ⟨op', hop', ho⟩ := hget hk
    cases hop.symm.trans hop'
    exact ⟨(name, Int.ofNat k), hitem.mpr ⟨k, hk, rfl⟩, by rw [ho]; rfl⟩

/-- The loop over the templates finds what the recursion over them finds. -/
theorem findMatch_agrees (ops : List ScriptOp) (possibleOps : List (List NameOp)) :
    (NameCoin.findPrefix ops possibleOps = none ∧ findMatch ops possibleOps = .ok none) ∨
      ∃ count named values, NameCoin.findPrefix ops possibleOps = some (count, named) ∧
        findMatch ops possibleOps = .ok (some ((count : Nat), values)) ∧
        ∀ name op, (name, op) ∈ values ↔
          (named.filterMap fun p ↦ ops[p.2]?.map fun op ↦ (p.1, op)).lookup name = some op := by
  induction possibleOps with
  | nil => exact .inl ⟨rfl, rfl⟩
  | cons pops possibleOps ih =>
    have hsame := sameTemplate ops pops
    have hfind : NameCoin.findPrefix ops (pops :: possibleOps) =
        if matchOps (ops.take (NameCoin.template ops [] [] pops).1.length)
          (NameCoin.template ops [] [] pops).1 then
            some ((NameCoin.template ops [] [] pops).1.length, (NameCoin.template ops [] [] pops).2)
          else NameCoin.findPrefix ops possibleOps := rfl
    have hslice : sliceTo ops (pops.length + (buildTemplate ops pops).offset) =
        ops.take (NameCoin.template ops [] [] pops).1.length := by
      rw [← hsame.length, sliceTo, if_neg (by omega), Int.toNat_natCast]
    rw [hfind, findMatch, hslice, hsame.template]
    by_cases hm : matchOps (ops.take (NameCoin.template ops [] [] pops).1.length)
        (NameCoin.template ops [] [] pops).1 = true
    · rw [if_pos hm, if_pos hm]
      have hlen := (matchOps_eq_true.mp hm).length_eq
      rw [List.length_take] at hlen
      have hle : (NameCoin.template ops [] [] pops).1.length ≤ ops.length := by omega
      obtain ⟨values, hv, hvalues⟩ := hsame.namedValues hle
      exact .inr ⟨_, _, values, rfl, by rw [hv, hsame.length]; rfl, hvalues⟩
    · rw [if_neg hm, if_neg hm]
      exact ih

/-- Passing elements with a cursor is dropping them. -/
theorem findEndPositionOfName_eq_drop {script rest : Bytes} {count n : Nat}
    (h : NameCoin.dropOps count (script.drop n) = some rest) (hn : n ≤ script.length) :
    ∃ n', findEndPositionOfName script n count = .ok n' ∧ script.drop n' = rest := by
  induction count generalizing n with
  | zero => exact ⟨n, rfl, Option.some.inj h⟩
  | succ count ih =>
    obtain ⟨⟨op, next⟩, hop, h⟩ := Option.bind_eq_some_iff.mp h
    rcases follows_getOpsRound script n with ⟨op', n', hx, hy, -, hend⟩ | ⟨-, hy⟩
    · cases hop.symm.trans hy
      obtain ⟨n'', hn'', hrest⟩ := ih h hend
      rcases findEndRound_eq script n with ⟨_, m, hx', hround⟩ | ⟨⟨e, he⟩, -⟩
      · cases hx.symm.trans hx'
        exact ⟨n'', by rw [findEndPositionOfName, hround]; exact hn'', hrest⟩
      · cases hx.symm.trans he
    · cases hop.symm.trans hy

/-- **The two models of `interpret_name_prefix` agree** on the address script and on the value of
every name. -/
theorem interpretNamePrefix_agrees (script : Bytes) (possibleOps : List (List NameOp)) :
    (NameCoin.interpretNamePrefix script possibleOps = (none, script) ∧
      interpretNamePrefix script possibleOps = .ok (none, script)) ∨
    ∃ found values rest, NameCoin.interpretNamePrefix script possibleOps = (some found, rest) ∧
      interpretNamePrefix script possibleOps = .ok (some values, rest) ∧
      ∀ name op, (name, op) ∈ values ↔ found.lookup name = some op := by
  rw [NameCoin.interpretNamePrefix, interpretNamePrefix]
  cases hops : Script.getOps script with
  | none =>
    cases hops' : getOps script with
    | error e => exact .inl ⟨rfl, rfl⟩
    | ok ops => cases hops.symm.trans (getOps_eq_some.mpr hops')
  | some ops =>
    rw [getOps_eq_some.mp hops]
    dsimp only
    rcases findMatch_agrees ops possibleOps with ⟨hf, hx⟩ | ⟨count, named, values, hf, hx, hvalues⟩
    · rw [hf, hx]
      exact .inl ⟨rfl, rfl⟩
    · obtain ⟨rest, hd⟩ := NameCoin.exists_dropOps_of_findPrefix hops hf
      obtain ⟨n, hn, rfl⟩ := @findEndPositionOfName_eq_drop script rest count 0 hd (Nat.zero_le _)
      rw [hf, hx]
      dsimp only
      rw [hd]
      refine .inr ⟨_, values, _, rfl, ?_, hvalues⟩
      dsimp only [bind, Except.bind, pure, Except.pure]
      rw [Int.toNat_natCast, hn]

/-! ### The prefix and the rest -/

/-- `interpret_name_prefix` raises nothing. It returns the script as it is when the script does not
parse or no template matches; otherwise it cuts the script behind the elements of the first
template that matches, with the pushes at the last placeholders of the names. -/
theorem interpretNamePrefix_eq (script : Bytes) {possibleOps : List (List NameOp)}
    (h : ∀ pops ∈ possibleOps, Trailing pops) :
    (interpretNamePrefix script possibleOps = .ok (none, script) ∧
      ∀ ops, getOps script = .ok ops → ∀ pops ∈ possibleOps, ¬MatchesLeading pops ops) ∨
    ∃ before pops behind segment after values pre rest,
      possibleOps = before ++ pops :: behind ∧
      getOps script = .ok (segment ++ after) ∧
      (∀ p ∈ before, ¬MatchesLeading p (segment ++ after)) ∧ Matches pops segment after ∧
      script = pre ++ rest ∧ getOps pre = .ok segment ∧ getOps rest = .ok after ∧
      NamedValues pops segment values ∧
      interpretNamePrefix script possibleOps = .ok (some values, rest) := by
  unfold interpretNamePrefix
  cases hops : getOps script with
  | error e => exact .inl ⟨rfl, fun ops ho ↦ by cases ho⟩
  | ok ops =>
    dsimp only
    rcases @findMatch_spec ops _ h with ⟨hx, hall⟩ |
      ⟨before, pops, behind, segment, after, values, hp, hbefore, rfl, hm, hv, hx⟩
    · rw [hx]
      refine .inl ⟨rfl, fun ops' ho ↦ ?_⟩
      cases ho
      exact hall
    · obtain ⟨hw, hs⟩ := getOps_eq_ok.mp hops
      rw [List.flatMap_append] at hs
      have hend := @findEndPositionOfName_eq script 0 segment (after.flatMap encode)
        (fun op ho ↦ hw op (List.mem_append_left _ ho)) (by rw [List.drop_zero, hs])
        (Nat.zero_le _)
      refine .inr ⟨before, pops, behind, segment, after, values, segment.flatMap encode,
        after.flatMap encode, hp, rfl, hbefore, hm, hs.symm,
        getOps_eq_ok.mpr ⟨fun op ho ↦ hw op (List.mem_append_left _ ho), rfl⟩,
        getOps_eq_ok.mpr ⟨fun op ho ↦ hw op (List.mem_append_right _ ho), rfl⟩, hv, ?_⟩
      rw [hx]
      dsimp only [bind, Except.bind, pure, Except.pure]
      rw [Int.toNat_natCast, hend]
      dsimp only
      rw [Nat.zero_add, ← hs, List.drop_left]

/-- A name behind an op code, then a run of pushes and their drop, then an address script. -/
def sampleNameScript : Bytes := [0x51, 0x01, 0x61, 0x02, 0x62, 0x63, 0x01, 0x64, 0x6d, 0xac]

def sampleNameOps : List (List NameOp) := [[.code 0x52], [.code 0x51, .named "name", .dataMultiple]]

theorem interpretNamePrefix_sample : ∃ pre values, sampleNameScript = pre ++ [0xac] ∧
    interpretNamePrefix sampleNameScript sampleNameOps = .ok (some values, [0xac]) ∧
    ("name", .push 1 [0x61]) ∈ values := by
  have hfound : NameCoin.interpretNamePrefix sampleNameScript sampleNameOps =
      (some [("name", .push 1 [0x61])], [0xac]) := by decide
  rcases interpretNamePrefix_agrees sampleNameScript sampleNameOps with
    ⟨hnone, -⟩ | ⟨found, values, rest, hfound', hx, hvalues⟩
  · cases hfound.symm.trans hnone
  cases hfound.symm.trans hfound'
  have htrailing : ∀ pops ∈ sampleNameOps, Trailing pops := by simp [sampleNameOps, Trailing]
  rcases interpretNamePrefix_eq sampleNameScript htrailing with
    ⟨hnone, -⟩ | ⟨-, -, -, -, -, values', pre, rest', -, -, -, -, hs, -, -, -, h⟩
  · cases hx.symm.trans hnone
  · cases hx.symm.trans h
    exact ⟨pre, values, hs, hx, (hvalues _ _).mpr rfl⟩

end ElectrumX.Lib.ScriptParser
