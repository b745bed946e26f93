import Mathlib.Data.List.Range
import UniDb.Locy.BindingLoop

/-!
# Well Scheduled Plans

The steps of a plan are in an order in which they can be evaluated.

The first pass over the conditions of a clause sorts them by what they are, so the scheduler
starts with each of them once. The negated references come after the body of the clause. They
test the variables that the body binds, and may give a YIELD alias a meaning, but bind nothing.

## Main definitions

* `IntakeSpec`: The conditions of a clause, sorted.
* `Negated`: The effect of the negated references.
* `WellScheduled`: What a plan has to satisfy.

## Theorems

* `intake_spec`, `exists_intake`: The first pass.
* `started`: The scheduler starts from the conditions of a clause.
* `scheduleNegations_spec`: The negated references.
* `Computed.wellScheduled`: A plan is well scheduled if every name that is read can be derived.
-/

namespace UniDb.Locy

open ClauseBindingPlan AssocMap Cypher List

/-! ## The first pass -/

/-- A position of a reference, apart from what scheduling adds and the name in the batch. -/
structure PositionShape where
  var : String
  column : String
  isKey : Bool
  kind : ColumnKind
  deriving DecidableEq

/-- A reference, apart from its place among the conditions and what scheduling adds. -/
structure RefShape where
  rule : String
  negated : Bool
  positions : List PositionShape
  deriving DecidableEq

def PositionBinding.shape (p : PositionBinding) : PositionShape :=
  { var := p.var, column := p.column, isKey := p.isKey, kind := p.kind }

def IsRefBinding.shape (b : IsRefBinding) : RefShape :=
  { rule := b.rule, negated := b.negated, positions := b.positions.map PositionBinding.shape }

/-- Scheduling changes only what `erase` drops, so references that agree up to it have one shape.
    -/
theorem shape_of_erase {b b' : IsRefBinding} (h : b.erase = b'.erase) : b.shape = b'.shape := by
  have herase : ∀ c : IsRefBinding, c.erase.shape = c.shape := by
    intro c
    simp only [IsRefBinding.erase, IsRefBinding.shape, map_map]
    rfl
  rw [← herase b, h, herase b']

section Intake

variable (catalog : AssocMap String CompiledRule) (kinds : ColumnKinds)

/-- The reference a condition becomes, if its rule is known and has enough columns. -/
def refShape (isRef : IsReference) : Option RefShape := do
  let targetRule ← catalog.lookup isRef.ruleName
  let columns ← boundColumns targetRule.yieldSchema isRef.subjects.length isRef.target.isSome
  some { rule := isRef.ruleName, negated := isRef.negated,
         positions := (refPositions kinds isRef "" columns).map PositionBinding.shape }

/-- What a condition contributes to the references, the generators and the filters of the first
    pass. A condition contributes to one of them only. -/
def refEntry : RuleCondition × Nat → Option (Nat × RefShape)
  | (.isReference isRef, i) => (refShape catalog kinds isRef).map (Prod.mk i)
  | _ => none

def generatorEntry : RuleCondition × Nat → Option GeneratorBinding
  | (.generator ref, i) => some
      { conditionIndex := i,
        outputs := ref.outputs.map fun o => { var := o, physical := o, binds := true } }
  | _ => none

def filterEntry : RuleCondition × Nat → Option (Nat × List String)
  | (.expression e, i) => some (i, e.freeVariables)
  | _ => none

/-- The indices of the elements of a list that satisfy a predicate. -/
def indicesOf {α : Type} (p : α → Bool) (l : List α) : List Nat :=
  (List.range l.length).filter fun i => (l[i]?).elim false p

/-- The conditions of a clause, sorted by what they are. -/
structure IntakeSpec (conditions : List RuleCondition) (n : Intake) : Prop where
  refs : n.refs.map (fun b => (b.conditionIndex, b.shape)) =
    conditions.zipIdx.filterMap (refEntry catalog kinds)
  generators : n.generators = conditions.zipIdx.filterMap generatorEntry
  filters : n.filters = conditions.zipIdx.filterMap filterEntry
  positive : n.positive = indicesOf (!·.negated) n.refs
  negated : n.negated = indicesOf (·.negated) n.refs
  resolved : ∀ isRef, .isReference isRef ∈ conditions → (refShape catalog kinds isRef).isSome

variable {α : Type} (p : α → Bool) (l : List α)

/-- The first pass appends, so the indices grow at the end. -/
theorem indicesOf_concat (x : α) :
    indicesOf p (l ++ [x]) = indicesOf p l ++ if p x then [l.length] else [] := by
  have hold : (range l.length).filter (fun i => ((l ++ [x])[i]?).elim false p) =
      indicesOf p l := by
    refine filter_congr fun i hi => ?_
    rw [getElem?_append_left (mem_range.mp hi)]
  rw [indicesOf, length_append, length_singleton, range_succ, filter_append,
    hold, filter_singleton, getElem?_concat_length, Option.elim_some, cond_eq_ite]

theorem mem_indicesOf {p : α → Bool} {l : List α} {i : Nat} :
    i ∈ indicesOf p l ↔ ∃ x, l[i]? = some x ∧ p x := by
  rw [indicesOf, mem_filter, mem_range]
  constructor
  · rintro ⟨hlt, hp⟩
    rw [getElem?_eq_getElem hlt] at hp ⊢
    exact ⟨_, rfl, hp⟩
  · rintro ⟨x, hx, hp⟩
    exact ⟨(List.getElem?_eq_some_iff.mp hx).1, by rw [hx]; exact hp⟩

/-- The elements at the indices. -/
theorem filterMap_indicesOf : (indicesOf p l).filterMap (fun i => l[i]?) = l.filter p := by
  induction l using reverseRecOn with
  | nil => rfl
  | append_singleton l x ih =>
    have hold : (indicesOf p l).filterMap (fun i => (l ++ [x])[i]?) = l.filter p := by
      rw [← ih]
      refine filterMap_congr fun i hi => ?_
      obtain ⟨y, hy, -⟩ := mem_indicesOf.mp hi
      rw [List.getElem?_append_left (List.getElem?_eq_some_iff.mp hy).1]
    rw [indicesOf_concat, filterMap_append, hold, filter_append, filter_singleton]
    split <;> simp [*]

/-- The column prefix names the columns of the batch, and the shape does not see it. -/
theorem refPositions_shape (isRef : IsReference) (columnPrefix : String)
    (columns : List YieldColumn) :
    (refPositions kinds isRef columnPrefix columns).map PositionBinding.shape =
      (refPositions kinds isRef "" columns).map PositionBinding.shape := by
  rw [refPositions, refPositions, map_zipWith, map_zipWith]
  rfl

/-- One more condition is one more step of the first pass. -/
theorem intake_concat (conditions : List RuleCondition) (c : RuleCondition) :
    intake catalog kinds (conditions ++ [c]) = (intake catalog kinds conditions).bind
      fun n => n.add catalog kinds (c, conditions.length) := by
  rw [intake, intake, zipIdx_append, foldlM_append]
  simp

/-- A reference is added if it can be resolved. -/
theorem addReference_spec (n : Intake) (index : Nat) (isRef : IsReference) :
    n.addReference catalog kinds index isRef = none ∧ refShape catalog kinds isRef = none ∨
      ∃ b shape, refShape catalog kinds isRef = some shape ∧ b.shape = shape ∧
        b.conditionIndex = index ∧ b.negated = isRef.negated ∧
        n.addReference catalog kinds index isRef = some
          { n with
            refs := n.refs ++ [b]
            positive := n.positive ++ if isRef.negated then [] else [n.refs.length]
            negated := n.negated ++ if isRef.negated then [n.refs.length] else [] } := by
  unfold Intake.addReference refShape
  cases hrule : catalog.lookup isRef.ruleName with
  | none => exact .inl ⟨rfl, rfl⟩
  | some targetRule =>
    cases hcols : boundColumns targetRule.yieldSchema isRef.subjects.length
        isRef.target.isSome with
    | none =>
      refine .inl ?_
      simp [hcols]
    | some columns =>
      refine .inr ?_
      simp only [Option.bind_eq_bind, Option.bind_some, hcols]
      refine ⟨refBinding kinds index isRef (n.nextPrefix isRef.negated) columns, _, rfl, ?_,
        rfl, rfl, ?_⟩
      · simp only [IsRefBinding.shape, refBinding, refPositions_shape]
      · by_cases hneg : isRef.negated <;> simp [hneg]

variable {conditions : List RuleCondition} {n : Intake}

/-- The first pass sorts the conditions. The induction is from the right, in the order in which the
    loop appends. -/
theorem intake_spec (h : intake catalog kinds conditions = some n) :
    IntakeSpec catalog kinds conditions n := by
  induction conditions using reverseRecOn generalizing n with
  | nil =>
    cases h
    exact ⟨rfl, rfl, rfl, rfl, rfl, by simp⟩
  | append_singleton conditions c ih =>
    rw [intake_concat, Option.bind_eq_some_iff] at h
    obtain ⟨m, hm, hadd⟩ := h
    obtain ⟨hrefs, hgenerators, hfilters, hpositive, hnegated, hresolved⟩ := ih hm
    have hzip : (conditions ++ [c]).zipIdx = conditions.zipIdx ++ [(c, conditions.length)] := by
      simp [zipIdx_append]
    cases c with
    | isReference isRef =>
      change m.addReference catalog kinds conditions.length isRef = some n at hadd
      rcases addReference_spec catalog kinds m conditions.length isRef with
        ⟨hnone, -⟩ | ⟨b, shape, hshape, hb, hindex, hneg, hsome⟩
      · rw [hnone] at hadd
        cases hadd
      · rw [hsome] at hadd
        cases hadd
        constructor
        · rw [hzip, filterMap_append, map_append, hrefs]
          simp [refEntry, hshape, hb, hindex]
        · rw [hzip, filterMap_append, hgenerators]
          simp [generatorEntry]
        · rw [hzip, filterMap_append, hfilters]
          simp [filterEntry]
        · rw [indicesOf_concat, ← hpositive, hneg]
          cases isRef.negated <;> rfl
        · rw [indicesOf_concat, ← hnegated, hneg]
        · intro isRef' hmem
          rcases mem_append.mp hmem with hmem | hmem
          · exact hresolved isRef' hmem
          · cases mem_singleton.mp hmem
            rw [hshape]
            rfl
    | generator | expression =>
      cases hadd
      -- a generator or a filter leaves the references alone
      refine ⟨?_, ?_, ?_, hpositive, hnegated, ?_⟩
      · rw [hzip, filterMap_append, hrefs]
        simp [refEntry]
      · rw [hzip, filterMap_append, hgenerators]
        simp [generatorEntry]
      · rw [hzip, filterMap_append, hfilters]
        simp [filterEntry]
      · intro isRef hmem
        exact hresolved isRef (by simpa using hmem)

/-- The first pass fails on a reference that cannot be resolved and on nothing else. -/
theorem exists_intake
    (h : ∀ isRef, .isReference isRef ∈ conditions → (refShape catalog kinds isRef).isSome) :
    ∃ n, intake catalog kinds conditions = some n := by
  induction conditions using reverseRecOn with
  | nil => exact ⟨_, rfl⟩
  | append_singleton conditions c ih =>
    obtain ⟨m, hm⟩ := ih fun isRef hmem => h isRef (mem_append_left _ hmem)
    rw [intake_concat, hm, Option.bind_some]
    cases c with
    | isReference isRef =>
      have hsome := h isRef (mem_append_right _ mem_cons_self)
      rcases addReference_spec catalog kinds m conditions.length isRef with
        ⟨-, hnone⟩ | ⟨b, shape, -, -, -, -, hadd⟩
      · rw [hnone] at hsome
        cases hsome
      · exact ⟨_, hadd⟩
    | generator | expression => exact ⟨_, rfl⟩

/-- Entries that keep the index of what they come from. -/
theorem filterMap_map_sublist {β : Type} {f : α × Nat → Option β} {g : β → Nat}
    (h : ∀ e x, f e = some x → g x = e.2) (l : List (α × Nat)) :
    ((l.filterMap f).map g).Sublist (l.map Prod.snd) := by
  induction l with
  | nil => exact .refl _
  | cons e l ih =>
    rw [filterMap_cons, map_cons]
    split
    · exact ih.cons _
    · next x hx =>
      rw [map_cons, h e x hx]
      exact ih.cons_cons _

/-- Entries of three kinds, each element having an entry of one kind. -/
theorem filterMap_perm_of_one {f g h : α × Nat → Option Nat} {l : List (α × Nat)}
    (hone : ∀ e ∈ l, f e = some e.2 ∧ g e = none ∧ h e = none ∨
      f e = none ∧ g e = some e.2 ∧ h e = none ∨ f e = none ∧ g e = none ∧ h e = some e.2) :
    (l.filterMap f ++ l.filterMap g ++ l.filterMap h).Perm (l.map Prod.snd) := by
  induction l with
  | nil => exact .refl _
  | cons e l ih =>
    have ih' := ih fun e he => hone e (mem_cons_of_mem _ he)
    rcases hone e mem_cons_self with ⟨hf, hg, hh⟩ | ⟨hf, hg, hh⟩ | ⟨hf, hg, hh⟩
    · rw [filterMap_cons_some hf, filterMap_cons_none hg, filterMap_cons_none hh]
      exact ih'.cons _
    · rw [filterMap_cons_none hf, filterMap_cons_some hg, filterMap_cons_none hh,
        append_assoc, cons_append]
      refine perm_middle.trans (List.Perm.cons _ ?_)
      rw [← append_assoc]
      exact ih'
    · rw [filterMap_cons_none hf, filterMap_cons_none hg, filterMap_cons_some hh]
      exact perm_middle.trans (ih'.cons _)

namespace IntakeSpec

variable {catalog kinds} {conditions : List RuleCondition} {n : Intake}

section

variable (h : IntakeSpec catalog kinds conditions n)

include h

theorem conditionIndex_refs :
    n.refs.map (·.conditionIndex) =
      conditions.zipIdx.filterMap fun e => (refEntry catalog kinds e).map Prod.fst := by
  have hmap := congrArg (map Prod.fst) h.refs
  rw [map_map, map_filterMap] at hmap
  exact hmap

/-- Every condition is sorted once: the three lists together hold each index once. -/
theorem perm_range : (n.refs.map (·.conditionIndex) ++ n.generators.map (·.conditionIndex) ++
      n.filters.map Prod.fst).Perm (List.range conditions.length) := by
  rw [h.conditionIndex_refs, h.generators, h.filters, map_filterMap, map_filterMap]
  have hrange : conditions.zipIdx.map Prod.snd = range conditions.length := by
    rw [zipIdx_map_snd, range_eq_range']
  rw [← hrange]
  refine filterMap_perm_of_one ?_
  rintro ⟨c, i⟩ hmem
  have hc := mem_of_getElem? (mem_zipIdx_iff_getElem?.mp hmem)
  cases c with
  | isReference isRef =>
    obtain ⟨shape, hshape⟩ := Option.isSome_iff_exists.mp (h.resolved isRef hc)
    exact .inl ⟨by simp [refEntry, hshape], rfl, rfl⟩
  | generator => exact .inr (.inl ⟨rfl, rfl, rfl⟩)
  | expression => exact .inr (.inr ⟨rfl, rfl, rfl⟩)

/-- A reference of the first pass comes from a condition of the clause. -/
theorem exists_reference {r : Nat} {b : IsRefBinding} (hb : n.refs[r]? = some b) :
    ∃ isRef, conditions[b.conditionIndex]? = some (.isReference isRef) ∧
      refShape catalog kinds isRef = some b.shape := by
  have hmem : (b.conditionIndex, b.shape) ∈ conditions.zipIdx.filterMap
      (refEntry catalog kinds) := by
    rw [← h.refs]
    exact mem_map_of_mem (f := fun b : IsRefBinding => (b.conditionIndex, b.shape))
      (mem_of_getElem? hb)
  obtain ⟨⟨c, i⟩, hci, hentry⟩ := mem_filterMap.mp hmem
  cases c with
  | isReference isRef =>
    rw [refEntry, Option.map_eq_some_iff] at hentry
    obtain ⟨shape, hshape, heq⟩ := hentry
    cases heq
    exact ⟨isRef, mem_zipIdx_iff_getElem?.mp hci, hshape⟩
  | generator | expression => cases hentry

/-- A reference of the clause is among the references of the first pass. -/
theorem exists_binding {isRef : IsReference} (hmem : .isReference isRef ∈ conditions) :
    ∃ (r : Nat) (b : IsRefBinding), n.refs[r]? = some b ∧
      refShape catalog kinds isRef = some b.shape := by
  obtain ⟨i, hi⟩ := getElem?_of_mem hmem
  obtain ⟨shape, hshape⟩ := Option.isSome_iff_exists.mp (h.resolved isRef hmem)
  have hentry : (i, shape) ∈ n.refs.map fun b => (b.conditionIndex, b.shape) := by
    rw [h.refs]
    refine mem_filterMap.mpr
      ⟨(.isReference isRef, i), mem_zipIdx_iff_getElem?.mpr hi, ?_⟩
    simp [refEntry, hshape]
  obtain ⟨b, hb, heq⟩ := mem_map.mp hentry
  obtain ⟨r, hr⟩ := getElem?_of_mem hb
  cases heq
  exact ⟨r, b, hr, hshape⟩

end

end IntakeSpec

/-- The positions are the variables of the reference, subjects first. None is dropped, as there are
    as many columns as variables. -/
theorem vars_refShape {isRef : IsReference} {shape : RefShape}
    (h : refShape catalog kinds isRef = some shape) :
    shape.positions.map (·.var) = isRef.variables ∧ shape.negated = isRef.negated ∧
      shape.rule = isRef.ruleName := by
  unfold refShape at h
  simp only [Option.bind_eq_bind, Option.bind_eq_some_iff] at h
  obtain ⟨targetRule, -, columns, hcols, heq⟩ := h
  cases heq
  refine ⟨?_, rfl, rfl⟩
  have hlen := length_boundColumns hcols
  rw [map_map, refPositions, map_zipWith]
  have hzip : zipWith (fun (v : String) (_ : YieldColumn) => v) isRef.variables columns =
      (isRef.variables.zip columns).map Prod.fst := by
    rw [zip_eq_zipWith, map_zipWith]
  exact hzip.trans (map_fst_zip hlen.ge)

/-! ## Exposed columns -/

/-- A name is exposed by the entries of that name, in their order. -/
theorem lookup_exposure (n : Intake) (real : List String) (name : String) :
    (n.exposure catalog real).lookup name =
      if (n.exposedEntries catalog real).filter (·.1 = name) = [] then none
      else some (exposureOf (((n.exposedEntries catalog real).filter (·.1 = name)).map Prod.snd)) :=
        by
  have hfold : ∀ l : List (String × Nat × String),
      l.foldl (fun owners e => owners ++ [e.2]) [] = l.map Prod.snd := by
    intro l
    induction l using reverseRecOn with
    | nil => rfl
    | append_singleton l e ih => simp [foldl_append, ih]
  rw [Intake.exposure, lookup_filterMapVal,
    AssocMap.lookup_foldl_update Prod.fst (fun owners e => owners ++ [e.2]) []]
  split
  · rfl
  · rw [hfold]
    rfl

theorem mem_exposure_iff (n : Intake) (real : List String) (name : String) :
    name ∈ n.exposure catalog real ↔ name ∈ (n.exposedEntries catalog real).map Prod.fst := by
  rw [mem_iff_lookup, lookup_exposure]
  constructor
  · rintro ⟨e, he⟩
    split at he
    · cases he
    · next hne =>
      obtain ⟨entry, hentry⟩ := exists_mem_of_ne_nil _ hne
      obtain ⟨hmem, hname⟩ := mem_filter.mp hentry
      exact mem_map.mpr ⟨entry, hmem, of_decide_eq_true hname⟩
  · intro hname
    obtain ⟨entry, hmem, hname⟩ := mem_map.mp hname
    rw [if_neg]
    · exact ⟨_, rfl⟩
    · exact ne_nil_of_mem (mem_filter.mpr ⟨hmem, decide_eq_true hname⟩)

theorem owners_exposureOf {l : List (Nat × String)} (h : l ≠ []) :
    (exposureOf l).owners = l.map Prod.fst := by
  match l with
  | [] => exact absurd rfl h
  | [(r, physical)] => rfl
  | (r, physical) :: e :: l => rfl

/-- Only positive references expose columns: an anti-join gives no row. -/
theorem owners_of_exposure {real : List String} {name : String} {e : Exposure}
    (h : (n.exposure catalog real).lookup name = some e) :
    e.owners ≠ [] ∧ ∀ o ∈ e.owners, o ∈ n.positive := by
  rw [lookup_exposure] at h
  split at h
  · cases h
  · next hne =>
    cases h
    have hne' : ((n.exposedEntries catalog real).filter (·.1 = name)).map Prod.snd ≠ [] := by
      simpa using hne
    rw [owners_exposureOf hne']
    refine ⟨by simpa using hne', fun o ho => ?_⟩
    obtain ⟨⟨r, physical⟩, hrp, rfl⟩ := mem_map.mp ho
    obtain ⟨entry, hentry, heq⟩ := mem_map.mp hrp
    obtain ⟨r', hr', hin⟩ := mem_flatMap.mp (mem_filter.mp hentry).1
    cases hb : n.refs[r']? with rw [hb] at hin
    | none => cases hin
    | some =>
      obtain ⟨name', -, rfl⟩ := mem_map.mp hin
      cases heq
      exact hr'

/-! ## The start -/

variable {catalog kinds}

/-- The generators of the first pass are those of the clause. -/
theorem mem_generators (h : IntakeSpec catalog kinds conditions n) {b : GeneratorBinding} :
    b ∈ n.generators ↔ ∃ (i : Nat) (ref : GeneratorRef),
      conditions[i]? = some (.generator ref) ∧ generatorEntry (.generator ref, i) = some b := by
  rw [h.generators, mem_filterMap]
  constructor
  · rintro ⟨⟨c, i⟩, hmem, hentry⟩
    cases c with
    | isReference | expression => cases hentry
    | generator ref => exact ⟨i, ref, mem_zipIdx_iff_getElem?.mp hmem, hentry⟩
  · rintro ⟨i, ref, hi, hentry⟩
    exact ⟨(.generator ref, i), mem_zipIdx_iff_getElem?.mpr hi, hentry⟩

/-- The filters of the first pass are the expressions of the clause, with the names they read. -/
theorem mem_filters (h : IntakeSpec catalog kinds conditions n) {f : Nat × List String} :
    f ∈ n.filters ↔ ∃ e, conditions[f.1]? = some (.expression e) ∧ f.2 = e.freeVariables := by
  rw [h.filters, mem_filterMap]
  constructor
  · rintro ⟨⟨c, i⟩, hmem, hentry⟩
    cases c with
    | isReference | generator => cases hentry
    | expression e =>
      cases hentry
      exact ⟨e, mem_zipIdx_iff_getElem?.mp hmem, rfl⟩
  · rintro ⟨e, hi, heq⟩
    exact ⟨(.expression e, f.1), mem_zipIdx_iff_getElem?.mpr hi, by rw [filterEntry, ← heq]⟩

/-- Entries that keep the position of their condition are apart. -/
theorem nodup_entries {β : Type} {f : RuleCondition × Nat → Option β} {g : β → Nat}
    (hf : ∀ c i b, f (c, i) = some b → g b = i) :
    ((conditions.zipIdx.filterMap f).map g).Nodup := by
  refine List.Sublist.nodup (filterMap_map_sublist (fun p b hb => hf p.1 p.2 b hb) _) ?_
  rw [zipIdx_map_snd]
  exact nodup_range'

variable {clause : CompiledClause}

/-- The scheduler starts from the conditions of a clause. -/
theorem started (rule : String) (sameScc : String → Bool)
    (h : IntakeSpec catalog kinds clause.whereConditions n) :
    Started clause (initialScheduler rule clause sameScc catalog n) n.positive := by
  have hpositive : ∀ r, r ∈ n.positive ↔ ∃ b, n.refs[r]? = some b ∧ b.negated = false := by
    intro r
    rw [h.positive, mem_indicesOf]
    simp
  constructor
  case nodup =>
    have hgens : (n.generators.map (·.conditionIndex)).Nodup := by
      rw [h.generators]
      exact nodup_entries fun c i b hb => (by cases c <;> cases hb; rfl)
    have hfilters : (n.filters.map Prod.fst).Nodup := by
      rw [h.filters]
      exact nodup_entries fun c i f hf => (by cases c <;> cases hf; rfl)
    -- steps of one kind differ by their index, and steps of two kinds by their constructor
    rw [stepsOf, leftSteps, map_genStep_range]
    refine nodup_append.mpr ⟨nodup_append.mpr ⟨?_, ?_, ?_⟩, ?_, ?_⟩
    · rw [h.positive]
      exact (nodup_range.filter _).map fun a b heq => BindingStep.ref.inj heq
    · have hmap := hgens.map fun a b (heq : BindingStep.generator a = .generator b) =>
        BindingStep.generator.inj heq
      rw [map_map] at hmap
      exact hmap
    · intro x hx y hy
      obtain ⟨r, -, rfl⟩ := mem_map.mp hx
      obtain ⟨g, -, rfl⟩ := mem_map.mp hy
      exact fun heq => by cases heq
    · have hsub : ((n.filters.filter fun f =>
          !f.2.all (· ∈ (matchVarKinds clause.matchPattern).keys)).map Prod.fst).Nodup :=
        List.Sublist.nodup (filter_sublist.map _) hfilters
      have hmap := hsub.map fun a b (heq : BindingStep.filter a = .filter b) =>
        BindingStep.filter.inj heq
      rw [map_map] at hmap
      exact hmap
    · intro x hx y hy
      obtain ⟨f, -, rfl⟩ := mem_map.mp hy
      rcases mem_append.mp hx with hx | hx
      · obtain ⟨r, -, rfl⟩ := mem_map.mp hx
        exact fun heq => by cases heq
      · obtain ⟨g, -, rfl⟩ := mem_map.mp hx
        exact fun heq => by cases heq
  case refs =>
    intro r hr
    obtain ⟨b, hb, hneg⟩ := (hpositive r).mp hr
    refine ⟨b, hb, fun p hp => ?_⟩
    obtain ⟨isRef, hcond, hshape⟩ := h.exists_reference hb
    obtain ⟨hvars, hneg', -⟩ := vars_refShape catalog kinds hshape
    refine mem_flatMap.mpr ⟨_, mem_of_getElem? hcond, ?_⟩
    -- a positive reference gives its variables to the body, a negated one none
    have hfalse : isRef.negated = false := hneg'.symm.trans hneg
    simp only [hfalse, Bool.false_eq_true, if_false]
    rw [← hvars]
    exact mem_map.mpr ⟨p.shape, mem_map_of_mem hp, rfl⟩
  case refVariables =>
    intro v hv
    obtain ⟨c, hc, hv⟩ := mem_flatMap.mp hv
    cases c with
    | generator | expression => cases hv
    | isReference isRef =>
      obtain ⟨r, b, hb, hshape⟩ := h.exists_binding hc
      obtain ⟨hvars, hneg, -⟩ := vars_refShape catalog kinds hshape
      cases hfalse : isRef.negated with
      | true =>
        simp only [hfalse, if_true] at hv
        cases hv
      | false =>
        simp only [hfalse, Bool.false_eq_true, if_false] at hv
        refine ⟨r, (hpositive r).mpr ⟨b, hb, hneg.trans hfalse⟩, b, hb, ?_⟩
        rw [← hvars] at hv
        obtain ⟨shape, hmem, rfl⟩ := mem_map.mp hv
        obtain ⟨p, hp, rfl⟩ := mem_map.mp hmem
        exact ⟨p, hp, rfl⟩
  case generators =>
    intro g b hb
    obtain ⟨i, ref, hi, hentry⟩ := (mem_generators h).mp (mem_of_getElem? hb)
    cases hentry
    refine ⟨ref, by rw [generatorAt, hi], ?_⟩
    rw [map_map]
    exact map_id _
  case generatorRefs =>
    intro ref href
    obtain ⟨i, hi⟩ := getElem?_of_mem href
    obtain ⟨g, hg⟩ := getElem?_of_mem ((mem_generators h).mpr ⟨i, ref, hi, rfl⟩)
    exact ⟨g, _, hg, by rw [generatorAt, hi]⟩
  case filters =>
    intro f hf
    obtain ⟨e, he, heq⟩ := (mem_filters h).mp (mem_of_mem_filter hf)
    rw [heq, conditionReads, he]
  case steps => rfl
  case scheduledRefs => rfl
  case scope => rfl
  case varKinds => rfl
  case available =>
    intro v
    change v ∈ (matchVarKinds clause.matchPattern).keys.toFinset ↔ _
    rw [mem_toFinset, AList.mem_keys]
  case waiting =>
    intro f hf
    have hall := (mem_filter.mp hf).2
    simpa [initialScheduler, all_eq_true] using hall
  case owners => exact fun name e he => owners_of_exposure catalog he

/-- The scheduler and the clause mean the same by a variable of the body. -/
theorem mem_bodyVariables (h : IntakeSpec catalog kinds clause.whereConditions n) {v : String} :
    v ∈ n.bodyVariables (matchVarKinds clause.matchPattern).keys ↔ v ∈ bodyVariables clause := by
  -- neither side depends on the rule or on its group
  have hst := started "" (fun _ => false) h
  have hrefs : (v ∈ n.positive.flatMap fun r =>
      (n.refs[r]?).elim [] fun b => b.positions.map (·.var)) ↔ v ∈ refVariables clause := by
    rw [mem_flatMap]
    constructor
    · rintro ⟨r, hr, hv⟩
      obtain ⟨b, hb, hpos⟩ := hst.refs r hr
      change n.refs[r]? = some b at hb
      rw [hb] at hv
      obtain ⟨p, hp, rfl⟩ := mem_map.mp hv
      exact hpos p hp
    · intro hv
      obtain ⟨r, hr, b, hb, p, hp, rfl⟩ := hst.refVariables v hv
      change n.refs[r]? = some b at hb
      refine ⟨r, hr, ?_⟩
      rw [hb]
      exact mem_map_of_mem hp
  have hgens : (v ∈ n.generators.flatMap fun g => g.outputs.map (·.var)) ↔
      v ∈ generatorOutputs clause := by
    rw [mem_flatMap, generatorOutputs, mem_flatMap]
    constructor
    · rintro ⟨g, hg, hv⟩
      obtain ⟨i, ref, hi, hentry⟩ := (mem_generators h).mp hg
      cases hentry
      rw [map_map] at hv
      exact ⟨_, mem_of_getElem? hi, by simpa using hv⟩
    · rintro ⟨c, hc, hv⟩
      cases c with
      | isReference | expression => cases hv
      | generator ref =>
        obtain ⟨i, hi⟩ := getElem?_of_mem hc
        refine ⟨_, (mem_generators h).mpr ⟨i, ref, hi, rfl⟩, ?_⟩
        rw [map_map]
        simpa using hv
  rw [Intake.bodyVariables, bodyVariables, mem_append, mem_append, mem_append,
    mem_append, hrefs, hgens]

/-- A variable of the body shadows the exposed columns of its name. -/
theorem notMem_exposure {real : List String} {v : String} (hv : v ∈ real) :
    v ∉ n.exposure catalog real := by
  rw [mem_exposure_iff]
  intro hmem
  obtain ⟨entry, hentry, rfl⟩ := mem_map.mp hmem
  obtain ⟨r, -, hin⟩ := mem_flatMap.mp hentry
  cases hb : n.refs[r]? with rw [hb] at hin
  | none => cases hin
  | some =>
    obtain ⟨name, hname, rfl⟩ := mem_map.mp hin
    obtain ⟨c, hc, rfl⟩ := mem_map.mp hname
    have hfree := (mem_filter.mp hc).2
    simp only [Bool.and_eq_true, decide_eq_true_eq] at hfree
    exact hfree.2 hv

end Intake

/-! ## Negated references -/

/-- Positions of a negated reference were looked at: a variable in scope is tested, and a YIELD
    alias may have entered the scope. -/
structure Negates (s s' : Scheduler) (occs : List (Occurrence String VarSource)) : Prop where
  mono : ∀ v source, s.plan.scope.lookup v = some source → s'.plan.scope.lookup v = some source
  fresh : ∀ v source, s'.plan.scope.lookup v = some source → s.plan.scope.lookup v = some source ∨
    ∃ a, source = .yieldAlias a
  kinds : (∀ v ∈ s.plan.scope, v ∈ s.varKinds) → ∀ v ∈ s'.plan.scope, v ∈ s'.varKinds
  tests : (∀ v ∈ s.plan.scope, v ∈ s.varKinds) → ∀ o ∈ occs, o.name ∈ s.plan.scope →
    o.role = .tests
  quiet : s'.plan.diagnostics = [] → s.plan.diagnostics = []
  steps : s'.plan.steps = s.plan.steps
  refs : s'.plan.refs = s.plan.refs
  generators : s'.plan.generators = s.plan.generators
  exposure : s'.plan.exposure = s.plan.exposure
  immediateFilters : s'.plan.immediateFilters = s.plan.immediateFilters

namespace Negates

variable {s s₁ s₂ : Scheduler} {occs occs₁ occs₂ : List (Occurrence String VarSource)}

theorem refl (s : Scheduler) : Negates s s [] where
  mono _ _ h := h
  fresh _ _ h := .inl h
  kinds h := h
  tests _ := by simp
  quiet h := h
  steps := rfl
  refs := rfl
  generators := rfl
  exposure := rfl
  immediateFilters := rfl

/-- Positions are looked at one after the other. A variable in scope stays there, so what a later
    position tests is also in the scope of the first. -/
theorem trans (h₁ : Negates s s₁ occs₁) (h₂ : Negates s₁ s₂ occs₂) :
    Negates s s₂ (occs₁ ++ occs₂) where
  mono v source h := h₂.mono v source (h₁.mono v source h)
  fresh v source h := (h₂.fresh v source h).elim (h₁.fresh v source) .inr
  kinds h := h₂.kinds (h₁.kinds h)
  tests h o ho hv := by
    rcases mem_append.mp ho with ho | ho
    · exact h₁.tests h o ho hv
    · obtain ⟨source, hs⟩ := mem_iff_lookup.mp hv
      exact h₂.tests (h₁.kinds h) o ho (mem_of_lookup (h₁.mono _ _ hs))
  quiet h := h₁.quiet (h₂.quiet h)
  steps := h₂.steps.trans h₁.steps
  refs := h₂.refs.trans h₁.refs
  generators := h₂.generators.trans h₁.generators
  exposure := h₂.exposure.trans h₁.exposure
  immediateFilters := h₂.immediateFilters.trans h₁.immediateFilters

theorem diagnose (s : Scheduler) (diagnostic : BindingDiagnostic) :
    Negates s (s.diagnose diagnostic) [] :=
  { refl s with quiet := fun h => absurd h (pushUnique_ne_nil _ _) }

/-- The variable is tested, or it was not in scope. -/
theorem occurrence {o : Occurrence String VarSource} (h : Negates s s₁ [])
    (ho : (∀ v ∈ s.plan.scope, v ∈ s.varKinds) → o.name ∈ s.plan.scope → o.role = .tests) :
    Negates s s₁ [o] :=
  { h with
    tests := by
      intro hkinds o' ho' hv
      cases mem_singleton.mp ho'
      exact ho hkinds hv }

theorem bindAlias (clause : CompiledClause) (s : Scheduler) (var : String) :
    Negates s (s.bindAlias clause var) [] := by
  unfold Scheduler.bindAlias
  split
  · exact refl s
  · next hvar =>
    split
    · exact refl s
    · next source _ =>
      split
      · refine { refl s with mono := ?_, fresh := ?_, kinds := ?_ }
        · intro v source' hv
          -- an alias enters only under a name that is not in scope yet
          rw [lookup_insert_eq, if_neg, hv]
          rintro rfl
          exact hvar (mem_of_lookup hv)
        · intro v source' hv
          rcases lookup_insert_cases hv with ⟨-, rfl⟩ | ⟨-, hv⟩
          · exact .inr ⟨_, rfl⟩
          · exact .inl hv
        · intro hkinds v hv
          rw [AList.mem_insert] at hv ⊢
          exact hv.imp_right (hkinds v)
      · exact refl s

end Negates

section Negations

variable (rule : String) (clause : CompiledClause)

/-- One position of a negated reference. It never binds: a variable in scope is tested. -/
theorem negatePosition_spec (s : Scheduler) (binding : IsRefBinding) (p : PositionBinding)
    (site : VarSource) :
    ∃ action s', s.negatePosition rule clause binding p = (action, s') ∧
      Negates s s' [⟨p.var, site, action.role⟩] := by
  unfold Scheduler.negatePosition
  split
  · split
    · refine ⟨_, _, rfl, (Negates.diagnose s _).occurrence fun _ _ => ?_⟩
      exact role_testAction _
    · next hvar =>
      exact ⟨_, _, rfl, (Negates.refl s).occurrence fun _ hv => absurd hv hvar⟩
  · have halias := Negates.bindAlias clause s p.var
    cases hfound : (s.bindAlias clause p.var).varKinds.lookup p.var with simp only [hfound]
    | some =>
      refine ⟨_, _, rfl, Negates.occurrence ?_ fun _ _ => role_testAction _⟩
      split
      · exact halias.trans (Negates.diagnose _ _)
      · exact halias
    | none =>
      -- no kind is known: with every variable in scope having one, this variable is not in scope
      refine ⟨_, _, rfl, Negates.occurrence (halias.trans (Negates.diagnose _ _)) ?_⟩
      intro hkinds hv
      obtain ⟨source, hs⟩ := mem_iff_lookup.mp hv
      have hmem := halias.kinds hkinds p.var (mem_of_lookup (halias.mono _ _ hs))
      exact absurd hmem (notMem_iff_lookup.mpr hfound)

/-- All positions of a negated reference, one after the other. -/
theorem negatePositions_spec (binding : IsRefBinding) (r pos : Nat) (s : Scheduler)
    (ps : List PositionBinding) :
    ∃ ps' s', Scheduler.negatePositions rule clause binding s ps = (ps', s') ∧
      ps'.map PositionBinding.erase = ps.map PositionBinding.erase ∧
      Negates s s' (positionOccurrences r pos ps') := by
  induction ps generalizing pos s with
  | nil => exact ⟨[], s, rfl, rfl, Negates.refl s⟩
  | cons p ps ih =>
    obtain ⟨action, s₁, h₁, hneg₁⟩ :=
      negatePosition_spec rule clause s binding p (.refPosition r pos)
    obtain ⟨ps', s₂, h₂, herase, hneg₂⟩ := ih (pos + 1) s₁
    refine ⟨{ p with action } :: ps', s₂, ?_, ?_, hneg₁.trans hneg₂⟩
    · simp only [Scheduler.negatePositions, h₁, h₂]
    · rw [map_cons, map_cons, herase]
      rfl

/-- The negated references were scheduled. -/
structure Negated (s s' : Scheduler) (negated : List Nat) : Prop where
  mono : ∀ v source, s.plan.scope.lookup v = some source → s'.plan.scope.lookup v = some source
  fresh : ∀ v source, s'.plan.scope.lookup v = some source → s.plan.scope.lookup v = some source ∨
    ∃ a, source = .yieldAlias a
  kinds : ∀ v ∈ s'.plan.scope, v ∈ s'.varKinds
  tests : ∀ r ∈ negated, ∀ o ∈ s'.plan.occurrencesOf (.antiJoin r), o.name ∈ s.plan.scope →
    o.role = .tests
  quiet : s'.plan.diagnostics = [] → s.plan.diagnostics = []
  steps : s'.plan.steps = s.plan.steps ++ negated.map .antiJoin
  refs : s'.plan.refs.map IsRefBinding.erase = s.plan.refs.map IsRefBinding.erase
  other : ∀ r, r ∉ negated → s'.plan.refs[r]? = s.plan.refs[r]?
  generators : s'.plan.generators = s.plan.generators
  exposure : s'.plan.exposure = s.plan.exposure
  immediateFilters : s'.plan.immediateFilters = s.plan.immediateFilters

variable {s : Scheduler}

/-- One negated reference. -/
theorem scheduleNegation_spec {r : Nat} (hr : r < s.plan.refs.length)
    (hkinds : ∀ v ∈ s.plan.scope, v ∈ s.varKinds) :
    Negated s (s.scheduleNegation rule clause r) [r] := by
  have hb : s.plan.refs[r]? = some s.plan.refs[r] := getElem?_eq_getElem hr
  obtain ⟨ps, s₁, h₁, herase, hneg⟩ := negatePositions_spec rule clause s.plan.refs[r] r 0
    (s.push (.antiJoin r)) s.plan.refs[r].positions
  have hrefs₁ : s₁.plan.refs = s.plan.refs := hneg.refs
  have hresult : s.scheduleNegation rule clause r =
      { s₁ with plan := { s₁.plan with
        refs := s.plan.refs.set r { s.plan.refs[r] with positions := ps } } } := by
    unfold Scheduler.scheduleNegation
    simp only [hb, h₁, hrefs₁]
  rw [hresult]
  constructor
  case mono => exact hneg.mono
  case fresh => exact hneg.fresh
  case kinds => exact hneg.kinds hkinds
  case tests =>
    intro r' hr' o ho hv
    cases mem_singleton.mp hr'
    refine hneg.tests hkinds o ?_ hv
    unfold occurrencesOf at ho
    simpa only [getElem?_set_self hr, Option.elim_some] using ho
  case quiet => exact hneg.quiet
  case steps => exact hneg.steps
  case refs => exact map_set_of_eq hb (by simp only [IsRefBinding.erase, herase])
  case other =>
    intro r' hr'
    exact getElem?_set_ne fun heq => hr' (mem_singleton.mpr heq.symm)
  case generators => exact hneg.generators
  case exposure => exact hneg.exposure
  case immediateFilters => exact hneg.immediateFilters

theorem Negated.trans {s₁ s₂ : Scheduler} {r : Nat} {negated : List Nat} (h₁ : Negated s s₁ [r])
    (h₂ : Negated s₁ s₂ negated) (hr : r ∉ negated) :
    Negated s s₂ (r :: negated) where
  mono v source h := h₂.mono v source (h₁.mono v source h)
  fresh v source h := (h₂.fresh v source h).elim (h₁.fresh v source) .inr
  kinds := h₂.kinds
  tests r' hr' o ho hv := by
    obtain ⟨source, hs⟩ := mem_iff_lookup.mp hv
    rcases mem_cons.mp hr' with rfl | hr'
    · refine h₁.tests r' mem_cons_self o ?_ hv
      unfold occurrencesOf at ho ⊢
      simpa only [h₂.other r' hr] using ho
    · exact h₂.tests r' hr' o ho (mem_of_lookup (h₁.mono _ _ hs))
  quiet h := h₁.quiet (h₂.quiet h)
  steps := by rw [h₂.steps, h₁.steps, append_assoc]; rfl
  refs := h₂.refs.trans h₁.refs
  other r' hr' := by
    rw [mem_cons, not_or] at hr'
    rw [h₂.other r' hr'.2, h₁.other r' (by simpa using hr'.1)]
  generators := h₂.generators.trans h₁.generators
  exposure := h₂.exposure.trans h₁.exposure
  immediateFilters := h₂.immediateFilters.trans h₁.immediateFilters

/-- The negated references test the variables in scope and bind nothing. -/
theorem scheduleNegations_spec {negated : List Nat} (hnodup : negated.Nodup)
    (hlt : ∀ r ∈ negated, r < s.plan.refs.length) (hkinds : ∀ v ∈ s.plan.scope, v ∈ s.varKinds) :
    Negated s (s.scheduleNegations rule clause negated) negated := by
  induction negated generalizing s with
  | nil =>
    refine ⟨fun _ _ h => h, fun _ _ h => .inl h, hkinds, by simp, fun h => h, ?_, rfl,
      fun _ _ => rfl, rfl, rfl, rfl⟩
    simp [Scheduler.scheduleNegations]
  | cons r negated ih =>
    rw [nodup_cons] at hnodup
    have h₁ := scheduleNegation_spec rule clause (hlt r mem_cons_self) hkinds
    have hlen : (s.scheduleNegation rule clause r).plan.refs.length = s.plan.refs.length := by
      simpa using congrArg length h₁.refs
    refine h₁.trans (ih hnodup.2 ?_ h₁.kinds) hnodup.1
    rw [hlen]
    exact fun r' hr' => hlt r' (mem_cons_of_mem _ hr')

/-- The last check only reports: it adds diagnostics and leaves the plan alone. -/
theorem checkAmbiguousReads_spec (plan : ClauseBindingPlan) :
    ∃ diagnostics, checkAmbiguousReads rule clause plan = { plan with diagnostics } ∧
      (diagnostics = [] → plan.diagnostics = []) := by
  let P := fun acc : ClauseBindingPlan × List String =>
    ∃ diagnostics, acc.1 = { plan with diagnostics } ∧
      (diagnostics = [] → plan.diagnostics = [])
  have hread : ∀ slot shadow acc name, P acc → P (reportRead rule slot shadow acc name) := by
    rintro slot shadow ⟨plan', reported⟩ name ⟨diagnostics, heq, hquiet⟩
    cases heq
    unfold reportRead
    dsimp only
    split
    · exact ⟨diagnostics, rfl, hquiet⟩
    · split
      · exact ⟨_, rfl, fun hnil => by simp at hnil⟩
      · exact ⟨diagnostics, rfl, hquiet⟩
  -- two nested loops, over the slots of the clause and the names each of them reads
  have hfold : P ((readSlots clause).foldl
      (fun acc slot => slot.2.1.foldl (reportRead rule slot.1 slot.2.2) acc) (plan, [])) := by
    refine foldlRecOn _ _ ⟨plan.diagnostics, rfl, fun h => h⟩ fun acc hacc slot _ => ?_
    exact foldlRecOn _ _ hacc fun acc' hacc' name _ => hread _ _ _ _ hacc'
  exact hfold

end Negations

/-! ## Well scheduled plans -/

/-- The condition of a step. -/
def ClauseBindingPlan.conditionOf (plan : ClauseBindingPlan) : BindingStep → Option Nat
  | .ref r | .antiJoin r => (plan.refs[r]?).map (·.conditionIndex)
  | .generator cond | .filter cond => some cond

/-- A reference of the plan is a condition of the clause. -/
def RefOf (clause : CompiledClause) (plan : ClauseBindingPlan) (r : Nat) (negated : Bool) : Prop :=
  ∃ b isRef, plan.refs[r]? = some b ∧
    clause.whereConditions[b.conditionIndex]? = some (.isReference isRef) ∧
    isRef.negated = negated ∧ isRef.ruleName = b.rule ∧
    isRef.variables = b.positions.map (·.var)

/-- A step is of the kind of its condition. -/
def StepFits (clause : CompiledClause) (plan : ClauseBindingPlan) : BindingStep → Prop
  | .ref r => RefOf clause plan r false
  | .antiJoin r => RefOf clause plan r true
  | .generator cond => ∃ ref, clause.whereConditions[cond]? = some (.generator ref)
  | .filter cond => ∃ e, clause.whereConditions[cond]? = some (.expression e)

/-- Each condition is evaluated once. Each variable of the body has one binder: its first
    occurrence, which the scope names, and every later one tests it. What a filter or a
    generator reads is bound by the pattern, or bound or exposed by an earlier step. The
    anti-joins come last. -/
structure WellScheduled (clause : CompiledClause) (plan : ClauseBindingPlan) : Prop where
  once : (plan.immediateFilters.map some ++ plan.steps.map plan.conditionOf).Perm
    ((List.range clause.whereConditions.length).map some)
  fits : ∀ step ∈ plan.steps, StepFits clause plan step
  bound : ∀ v ∈ bodyVariables clause, ∃ source rest, plan.scope.lookup v = some source ∧
    (plan.occurrences clause.matchPattern).filter (·.name = v) = ⟨v, source, .binds⟩ :: rest ∧
    ∀ o ∈ rest, o.role = .tests
  immediate : ∀ cond ∈ plan.immediateFilters,
    (∃ e, clause.whereConditions[cond]? = some (.expression e)) ∧
    ∀ n ∈ conditionReads clause cond, n ∈ matchVarKinds clause.matchPattern
  ordered : ∀ (i : Nat) (step : BindingStep), plan.steps[i]? = some step →
    ∀ n ∈ readsOf clause step, plan.Provided clause.matchPattern (plan.steps.take i) n
  antiJoinsLast : ∃ body antiJoins, plan.steps = body ++ List.map BindingStep.antiJoin antiJoins ∧
    ∀ r, .antiJoin r ∉ body

section Plan

variable {catalog : AssocMap String CompiledRule} {kinds : ColumnKinds}
  {rule : String} {clause : CompiledClause} {sameScc : String → Bool} {plan : ClauseBindingPlan}

/-- How a plan comes about. -/
structure Computed (rule : String) (clause : CompiledClause) (sameScc : String → Bool)
    (catalog : AssocMap String CompiledRule) (kinds : ColumnKinds) (plan : ClauseBindingPlan)
    (n : Intake) (body final : Scheduler) : Prop where
  spec : IntakeSpec catalog kinds clause.whereConditions n
  eq : body = (initialScheduler rule clause sameScc catalog n).scheduleBody rule clause n.positive
  inv : BodyInv clause (initialScheduler rule clause sameScc catalog n) n.positive ⟨[], [], body⟩
  negated : Negated body final n.negated
  steps : plan.steps = final.plan.steps
  refs : plan.refs = final.plan.refs
  generators : plan.generators = final.plan.generators
  scope : plan.scope = final.plan.scope
  exposure : plan.exposure = final.plan.exposure
  immediateFilters : plan.immediateFilters = final.plan.immediateFilters
  quiet : plan.diagnostics = [] → body.plan.diagnostics = []
  anchor : plan.anchor = chooseAnchor clause sameScc plan n.positive

/-- The passes of `compute` in their order, with what each of them establishes. -/
theorem exists_computed (h : compute rule clause sameScc catalog kinds = some plan) :
    ∃ n body final, Computed rule clause sameScc catalog kinds plan n body final := by
  unfold compute at h
  simp only [Option.bind_eq_bind, Option.bind_eq_some_iff] at h
  obtain ⟨n, hn, hplan⟩ := h
  have hspec := intake_spec catalog kinds hn
  have hinv := scheduleBody_inv rule (started rule sameScc hspec)
  let body := (initialScheduler rule clause sameScc catalog n).scheduleBody rule clause n.positive
  have hlen : body.plan.refs.length = n.refs.length := by
    have hmap := congrArg length hinv.refs
    rw [length_map, length_map] at hmap
    exact hmap
  have hneg : Negated body (body.scheduleNegations rule clause n.negated) n.negated := by
    refine scheduleNegations_spec rule clause ?_ ?_ hinv.kinds
    · rw [hspec.negated]
      exact nodup_range.filter _
    · intro r hr
      rw [hspec.negated] at hr
      obtain ⟨b, hb, -⟩ := mem_indicesOf.mp hr
      rw [hlen]
      exact (List.getElem?_eq_some_iff.mp hb).1
  obtain ⟨diagnostics, hcheck, hquiet⟩ := checkAmbiguousReads_spec rule clause
    (body.scheduleNegations rule clause n.negated).plan
  rw [hcheck] at hplan
  cases hplan
  exact ⟨n, body, body.scheduleNegations rule clause n.negated,
    { spec := hspec, eq := rfl, inv := hinv, negated := hneg, steps := rfl, refs := rfl
      generators := rfl, scope := rfl, exposure := rfl, immediateFilters := rfl
      quiet := fun h => hneg.quiet (hquiet h), anchor := rfl }⟩

namespace Computed

variable {n : Intake} {body final : Scheduler}
  (h : Computed rule clause sameScc catalog kinds plan n body final)

include h

theorem started :
    Started clause (initialScheduler rule clause sameScc catalog n) n.positive :=
  Locy.started rule sameScc h.spec

variable {r : Nat}

theorem mem_positive : r ∈ n.positive ↔ ∃ b, n.refs[r]? = some b ∧ b.negated = false := by
  rw [h.spec.positive, mem_indicesOf]
  simp

theorem mem_negated : r ∈ n.negated ↔ ∃ b, n.refs[r]? = some b ∧ b.negated = true := by
  rw [h.spec.negated, mem_indicesOf]

/-- Both scheduling passes keep the references up to what scheduling adds. -/
theorem refs_erase : plan.refs.map IsRefBinding.erase = n.refs.map IsRefBinding.erase := by
  rw [h.refs, h.negated.refs]
  exact h.inv.refs

variable {b₀ : IsRefBinding}

theorem exists_ref (hb₀ : n.refs[r]? = some b₀) :
    ∃ b, plan.refs[r]? = some b ∧ b.erase = b₀.erase :=
  exists_of_map_eq h.refs_erase hb₀

theorem conditionOf_ref (hb₀ : n.refs[r]? = some b₀) :
    (plan.refs[r]?).map (·.conditionIndex) = some b₀.conditionIndex := by
  obtain ⟨b, hb, herase⟩ := h.exists_ref hb₀
  have hindex : b.erase.conditionIndex = b₀.erase.conditionIndex :=
    congrArg IsRefBinding.conditionIndex herase
  rw [hb]
  exact congrArg some hindex

/-- A reference of the plan is a condition of the clause, with its rule and its variables. -/
theorem refOf (hb₀ : n.refs[r]? = some b₀) : RefOf clause plan r b₀.negated := by
  obtain ⟨b, hb, herase⟩ := h.exists_ref hb₀
  obtain ⟨isRef, hcond, hshape⟩ := h.spec.exists_reference hb₀
  obtain ⟨hvars, hneg, hrule⟩ := vars_refShape catalog kinds hshape
  have hindex : b.erase.conditionIndex = b₀.erase.conditionIndex :=
    congrArg IsRefBinding.conditionIndex herase
  have hrule' : b.erase.rule = b₀.erase.rule := congrArg IsRefBinding.rule herase
  change b.rule = b₀.rule at hrule'
  refine ⟨b, isRef, hb, hindex ▸ hcond, hneg.symm, ?_, ?_⟩
  · rw [hrule']
    exact hrule.symm
  · rw [vars_of_erase herase, ← hvars, IsRefBinding.shape, map_map]
    rfl

variable {v : String}

/-- Nothing of the body is left out: the pattern, the positive references and the generators have
    all been scheduled. -/
theorem mem_scope (hv : v ∈ bodyVariables clause) : v ∈ body.plan.scope := by
  rw [bodyVariables, mem_append, mem_append] at hv
  rcases hv with (hv | hv) | hv
  · obtain ⟨kind, hk⟩ := mem_iff_lookup.mp (AList.mem_keys.mpr hv)
    exact mem_of_lookup ((h.inv.matched v kind).mpr hk)
  · exact h.inv.refVariables_mem_scope h.started rfl hv
  · obtain ⟨condition, hcond, hout⟩ := mem_flatMap.mp hv
    cases condition with
    | isReference | expression => cases hout
    | generator =>
      obtain ⟨g, hlt, generator, hb, -, hout'⟩ := h.inv.exists_generator_of_mem h.started hcond
      exact h.inv.outputs_mem_scope h.started hlt not_mem_nil hb (hout' ▸ hout)

/-- A positive reference is what the body made of it. -/
theorem refs_positive (hr : r ∈ n.positive) : plan.refs[r]? = body.plan.refs[r]? := by
  rw [h.refs]
  refine h.negated.other r fun hneg => ?_
  obtain ⟨b, hb, htrue⟩ := h.mem_negated.mp hneg
  obtain ⟨b', hb', hfalse⟩ := h.mem_positive.mp hr
  cases hb.symm.trans hb'
  rw [htrue] at hfalse
  cases hfalse

/-- The anti-joins change no occurrence of the body, since no reference is both positive and
    negated. -/
theorem occurrencesOf_body {st : BindingStep} (hst : st ∈ body.plan.steps) :
    plan.occurrencesOf st = body.plan.occurrencesOf st := by
  cases st with
  | ref r =>
    change (plan.refs[r]?).elim [] _ = (body.plan.refs[r]?).elim [] _
    rw [h.refs_positive (h.inv.mem_positive (.inl hst))]
  | generator =>
    change (plan.generators.find? _).elim [] _ = (body.plan.generators.find? _).elim [] _
    rw [h.generators, h.negated.generators]
  | filter => rfl
  | antiJoin r => exact absurd hst (h.inv.notMem_antiJoin r)

theorem occurrences_eq :
    plan.occurrences clause.matchPattern = body.plan.occurrences clause.matchPattern ++
      (n.negated.map .antiJoin).flatMap plan.occurrencesOf := by
  rw [occurrences, h.steps, h.negated.steps, flatMap_append,
    flatMap_congr fun st hst => h.occurrencesOf_body hst, ← append_assoc]
  rfl

/-- Each variable of the body is bound by its first occurrence. -/
theorem bound (hv : v ∈ bodyVariables clause) :
    ∃ source rest, plan.scope.lookup v = some source ∧
      (plan.occurrences clause.matchPattern).filter (·.name = v) = ⟨v, source, .binds⟩ :: rest ∧
      ∀ o ∈ rest, o.role = .tests := by
  have hscope := h.mem_scope hv
  obtain ⟨source, hs⟩ := mem_iff_lookup.mp hscope
  obtain ⟨rest, hrest, htests⟩ := h.inv.first.bound v source hs
  refine ⟨source, rest ++ ((n.negated.map .antiJoin).flatMap plan.occurrencesOf).filter
    (·.name = v), ?_, ?_, ?_⟩
  · rw [h.scope]
    exact h.negated.mono v source hs
  · rw [h.occurrences_eq, filter_append, hrest, cons_append]
  · intro o ho
    -- later occurrences in the body test by the invariant, those of the anti-joins since the scope
    -- of the body has the variable
    rcases mem_append.mp ho with ho | ho
    · exact htests o ho
    · obtain ⟨hmem, hname⟩ := mem_filter.mp ho
      obtain ⟨st, hst, hocc⟩ := mem_flatMap.mp hmem
      obtain ⟨r, hr, rfl⟩ := mem_map.mp hst
      refine h.negated.tests r hr o ?_ ?_
      · unfold occurrencesOf at hocc ⊢
        rw [h.refs] at hocc
        exact hocc
      · rw [of_decide_eq_true hname]
        exact hscope

theorem map_conditionIndex (p : IsRefBinding → Bool) :
    (indicesOf p n.refs).map (fun r => (plan.refs[r]?).map (·.conditionIndex)) =
      ((n.refs.filter p).map (·.conditionIndex)).map some := by
  rw [← filterMap_indicesOf, map_filterMap, map_filterMap, ← filterMap_eq_map]
  refine filterMap_congr fun r hr => ?_
  obtain ⟨b₀, hb₀, -⟩ := mem_indicesOf.mp hr
  rw [Function.comp_apply, h.conditionOf_ref hb₀, hb₀]
  rfl

/-- When the body is done nothing is pending, so its steps are all the steps it had to make. -/
theorem body_perm :
    body.plan.steps.Perm (stepsOf n.generators n.positive (List.range n.generators.length)
      (initialScheduler rule clause sameScc catalog n).pendingFilters) := by
  have hpending : body.pendingFilters = [] := by
    rw [h.eq]
    rfl
  have hperm := h.inv.perm
  rw [hpending] at hperm
  change (body.plan.steps ++ []).Perm _ at hperm
  rw [append_nil] at hperm
  exact hperm

/-- The conditions of the steps: positive references, generators, filters that are not
    immediate and negated references. -/
theorem map_conditionOf_perm : (plan.steps.map plan.conditionOf).Perm
      (((n.refs.filter (!·.negated)).map (·.conditionIndex) ++
        n.generators.map (·.conditionIndex) ++
        (initialScheduler rule clause sameScc catalog n).pendingFilters.map Prod.fst ++
        (n.refs.filter (·.negated)).map (·.conditionIndex)).map some) := by
  rw [h.steps, h.negated.steps, map_append]
  refine ((h.body_perm.map plan.conditionOf).append_right _).trans (List.Perm.of_eq ?_)
  simp only [stepsOf, leftSteps, map_genStep_range, map_append, map_map]
  rw [← map_map (g := some), ← map_map (g := some), ← map_map (g := some),
    ← map_map (g := some), ← h.map_conditionIndex, ← h.map_conditionIndex,
    ← h.spec.positive, ← h.spec.negated]
  simp only [map_map]
  rfl

theorem immediateFilters_eq :
    plan.immediateFilters = (n.filters.filter fun f =>
      f.2.all (· ∈ (matchVarKinds clause.matchPattern).keys)).map Prod.fst := by
  rw [h.immediateFilters, h.negated.immediateFilters]
  exact h.inv.immediateFilters

/-- Each condition is evaluated once. -/
theorem once : (plan.immediateFilters.map some ++ plan.steps.map plan.conditionOf).Perm
      ((List.range clause.whereConditions.length).map some) := by
  refine (h.map_conditionOf_perm.append_left _).trans ?_
  rw [← map_append]
  refine List.Perm.map _ (List.Perm.trans ?_ h.spec.perm_range)
  -- both partitions, references by sign and filters by what they read, are counted
  rw [h.immediateFilters_eq, perm_iff_count]
  intro i
  have hrefs := ((filter_append_perm (fun b : IsRefBinding => b.negated) n.refs).map
    (·.conditionIndex)).count_eq i
  have hfilters := ((filter_append_perm (fun f : Nat × List String =>
    f.2.all (· ∈ (matchVarKinds clause.matchPattern).keys)) n.filters).map Prod.fst).count_eq i
  simp only [map_append, count_append] at hrefs hfilters ⊢
  simp only [initialScheduler]
  omega

/-- Steps are of the kind of their conditions. -/
theorem fits {step : BindingStep} (hstep : step ∈ plan.steps) : StepFits clause plan step := by
  rw [h.steps, h.negated.steps] at hstep
  rcases mem_append.mp hstep with hstep | hstep
  · have hmem := h.inv.perm.subset (mem_append_left _ hstep)
    rcases mem_append.mp hmem with hmem | hmem
    · rcases mem_append.mp hmem with hmem | hmem
      · obtain ⟨r, hr, rfl⟩ := mem_map.mp hmem
        obtain ⟨b₀, hb₀, hneg⟩ := h.mem_positive.mp hr
        have href := h.refOf hb₀
        rw [hneg] at href
        exact href
      · obtain ⟨g, hg, rfl⟩ := mem_map.mp hmem
        obtain ⟨generator, ref, -, hgs, href, -⟩ :=
          h.inv.exists_generator h.started (mem_range.mp hg)
        rw [hgs]
        refine ⟨ref, ?_⟩
        unfold generatorAt at href
        split at href
        · next ref' heq =>
          cases href
          exact heq
        · cases href
    · obtain ⟨f, hf, rfl⟩ := mem_map.mp hmem
      obtain ⟨e, he, -⟩ := (mem_filters h.spec).mp (mem_of_mem_filter hf)
      exact ⟨e, he⟩
  · obtain ⟨r, hr, rfl⟩ := mem_map.mp hstep
    obtain ⟨b₀, hb₀, hneg⟩ := h.mem_negated.mp hr
    have href := h.refOf hb₀
    rw [hneg] at href
    exact href

/-- Immediate filters read the pattern only. -/
theorem immediate {cond : Nat} (hcond : cond ∈ plan.immediateFilters) :
    (∃ e, clause.whereConditions[cond]? = some (.expression e)) ∧
      ∀ n ∈ conditionReads clause cond, n ∈ matchVarKinds clause.matchPattern := by
  rw [h.immediateFilters_eq] at hcond
  obtain ⟨f, hf, rfl⟩ := mem_map.mp hcond
  obtain ⟨hmem, hall⟩ := mem_filter.mp hf
  obtain ⟨e, he, hnames⟩ := (mem_filters h.spec).mp hmem
  refine ⟨⟨e, he⟩, fun v hv => ?_⟩
  rw [conditionReads, he] at hv
  rw [all_eq_true] at hall
  exact AList.mem_keys.mpr (of_decide_eq_true (hall v (hnames ▸ hv)))

theorem exposure_bodyVariables (hv : v ∈ bodyVariables clause) :
    (initialScheduler rule clause sameScc catalog n).plan.exposure.lookup v = none :=
  notMem_iff_lookup.mp (notMem_exposure ((mem_bodyVariables h.spec).mpr hv))

/-- A plan is well scheduled if every name that is read is visible and can be derived. -/
theorem wellScheduled
    (hvisible : ∀ cond, ∀ v ∈ conditionReads clause cond, v ∈ bodyVariables clause ∨
      ∃ r physical, (initialScheduler rule clause sameScc catalog n).plan.exposure.lookup v =
        some (.unique r physical))
    (hderivable : ∀ cond, ∀ v ∈ conditionReads clause cond,
      BodyDerivable clause (· ∈ (initialScheduler rule clause sameScc catalog n).plan.exposure) v) :
    WellScheduled clause plan where
  once := h.once
  fits _ := h.fits
  bound _ := h.bound
  immediate _ := h.immediate
  antiJoinsLast := by
    refine ⟨body.plan.steps, n.negated, ?_, h.inv.notMem_antiJoin⟩
    rw [h.steps, h.negated.steps]
  ordered i step hi v hv := by
    have hexposure : plan.exposure = body.plan.exposure := by
      rw [h.exposure, h.negated.exposure]
    have hsteps : plan.steps = body.plan.steps ++ n.negated.map .antiJoin := by
      rw [h.steps, h.negated.steps]
    rw [hsteps] at hi ⊢
    by_cases hlt : i < body.plan.steps.length
    · rw [getElem?_append_left hlt] at hi
      rw [take_append_of_le_length hlt.le]
      have hreached : Reached body.plan clause.matchPattern (body.plan.steps.take i) v := by
        rw [h.eq] at hi ⊢
        exact scheduleBody_ordered rule h.started hderivable hi hv
      have hplan : Reached plan clause.matchPattern (body.plan.steps.take i) v :=
        hreached.mono hexposure fun st hst hp => ⟨hst,
          provides_congr (h.occurrencesOf_body (mem_of_mem_take hst)) hexposure hp⟩
      refine hplan.resolve_right ?_
      rintro ⟨owners, howners⟩
      have hstart : plan.exposure =
          (initialScheduler rule clause sameScc catalog n).plan.exposure := by
        rw [hexposure]
        exact h.inv.exposure
      rw [hstart] at howners
      have hread : ∃ cond, v ∈ conditionReads clause cond := by
        cases step with
        | filter cond | generator cond => exact ⟨cond, hv⟩
        | ref | antiJoin => cases hv
      obtain ⟨cond, hread⟩ := hread
      rcases hvisible cond v hread with hbody | ⟨r, physical, hunique⟩
      · rw [h.exposure_bodyVariables hbody] at howners
        cases howners
      · rw [hunique] at howners
        cases howners
    · rw [getElem?_append_right (Nat.le_of_not_lt hlt)] at hi
      obtain ⟨r, -, rfl⟩ := mem_map.mp (mem_of_getElem? hi)
      cases hv

end Computed

end Plan

end UniDb.Locy
