import UniDb.Locy.BindingOrder

/-!
# The Order of the Conditions

What the order of the WHERE conditions of a clause decides about its plan.

The scheduler follows the conditions in the order in which they are written, so a reordered
clause has other steps, and other references bind its variables. What it cannot change is which
names can be bound or are exposed, and so whether a plan is well scheduled. The anchor of a plan
is the same reference as well: a reference can be walked from if it has a KEY position over a
node of the pattern, which no condition ever binds, and among those the smallest rule and
variables are chosen, which tell references apart.

## Main definitions

* `CompiledClause.reorder`: A clause with its conditions in another order.
* `ClauseBindingPlan.Visible`: A name that the body of a clause binds or exposes.
* `ClauseBindingPlan.anchorShape`: The reference that the walk starts from.

## Theorems

* `Computed.mem_bodyVariables_of_scope`: The scope has only variables of the body.
* `exposed_perm`: The exposed columns of a reordered clause.
* `BodyDerivable.reorder`: The names that can be derived in a reordered clause.
* `Computed.anchorPosition_eq`: A position to walk from, by the shape of its reference.
* `anchorShape_reorder`: The anchor of a reordered clause.
* `compute_wellScheduled`: Plans are well scheduled, whatever the order of the conditions.
-/

namespace UniDb.Locy

open Cypher List AssocMap

def CompiledClause.reorder (clause : CompiledClause) (conditions : List RuleCondition) :
    CompiledClause :=
  { clause with whereConditions := conditions }

/-- A name that the body of a clause binds, or that one of its references exposes. -/
def ClauseBindingPlan.Visible (plan : ClauseBindingPlan) (name : String) : Prop :=
  (∃ source, plan.scope.lookup name = some source ∧ ∀ a, source ≠ .yieldAlias a) ∨
    ∃ r physical, plan.exposure.lookup name = some (.unique r physical)

/-- The reference that the walk starts from, and how. -/
def ClauseBindingPlan.anchorShape (plan : ClauseBindingPlan) :
    Option (Option RefShape × Nat × AnchorSource) :=
  plan.anchor.map fun a => ((plan.refs[a.r]?).map (·.shape), a.pos, a.source)

section Plan

variable {catalog : AssocMap String CompiledRule} {kinds : ColumnKinds}
  {rule : String} {clause : CompiledClause} {sameScc : String → Bool} {plan : ClauseBindingPlan}
  {n : Intake} {body final : Scheduler}

/-! ## Visible names -/

namespace Computed

variable (h : Computed rule clause sameScc catalog kinds plan n body final)

include h

variable {v : String}

/-- The scope of the body has only variables that the conditions name. -/
theorem mem_bodyVariables_of_scope (hv : v ∈ body.plan.scope) : v ∈ bodyVariables clause := by
  obtain ⟨source, hs⟩ := mem_iff_lookup.mp hv
  rw [bodyVariables, mem_append, mem_append]
  rcases mem_append.mp (h.inv.first.exists_binds hs) with hmem | hmem
  · obtain ⟨⟨v', kind⟩, he, heq⟩ := mem_map.mp hmem
    cases heq
    exact .inl (.inl (AList.mem_keys.mp (mem_of_lookup (mem_toList.mp he))))
  · obtain ⟨step, hstep, hocc⟩ := mem_flatMap.mp hmem
    cases step with
    | filter => cases hocc
    | antiJoin r => exact absurd hstep (h.inv.notMem_antiJoin r)
    | ref r =>
      obtain ⟨b₀, hb₀, hvars⟩ := h.started.refs r (h.inv.mem_positive (.inl hstep))
      obtain ⟨b, hb, herase⟩ := exists_of_map_eq h.inv.refs hb₀
      rw [occurrencesOf_ref body.plan hb] at hocc
      obtain ⟨p, hp, i, heq⟩ := mem_positionOccurrences hocc
      have hmem : p.var ∈ b₀.positions.map (·.var) := by
        rw [← vars_of_erase herase]
        exact mem_map_of_mem hp
      obtain ⟨p₀, hp₀, hvar⟩ := mem_map.mp hmem
      have hname : v = p.var := congrArg Occurrence.name heq
      rw [hname, ← hvar]
      exact .inl (.inr (hvars p₀ hp₀))
    | generator cond =>
      unfold ClauseBindingPlan.occurrencesOf at hocc
      cases hg : body.plan.generators.find? (·.conditionIndex = cond) with simp only [hg] at hocc
      | none => cases hocc
      | some =>
        obtain ⟨output, hout, heq⟩ := mem_map.mp hocc
        obtain ⟨g, hget⟩ := getElem?_of_mem (mem_of_find?_eq_some hg)
        obtain ⟨b₀, hb₀, herase⟩ := exists_of_map_eq h.inv.generators.symm hget
        obtain ⟨ref, href, houts⟩ := h.started.generators g b₀ hb₀
        have hname : output.var = v := congrArg Occurrence.name heq
        have hmem : v ∈ ref.outputs := by
          rw [← houts, outputs_of_erase herase, ← hname]
          exact mem_map_of_mem hout
        unfold generatorAt at href
        split at href
        · next ref' hcond =>
          cases href
          exact .inr (mem_flatMap.mpr ⟨_, mem_of_getElem? hcond, hmem⟩)
        · cases href

/-- A visible name is a variable of the body or a column that one reference exposes. -/
theorem visible (hv : plan.Visible v) : v ∈ bodyVariables clause ∨
      ∃ r physical, (initialScheduler rule clause sameScc catalog n).plan.exposure.lookup v =
        some (.unique r physical) := by
  rcases hv with ⟨source, hs, halias⟩ | ⟨r, physical, he⟩
  · rw [h.scope] at hs
    rcases h.negated.fresh v source hs with hs | ⟨a, ha⟩
    · exact .inl (h.mem_bodyVariables_of_scope (mem_of_lookup hs))
    · exact absurd ha (halias a)
  · refine .inr ⟨r, physical, ?_⟩
    have hexposure : body.plan.exposure =
        (initialScheduler rule clause sameScc catalog n).plan.exposure := h.inv.exposure
    rw [← hexposure, ← h.negated.exposure, ← h.exposure]
    exact he

end Computed

/-! ## Reordered conditions -/

variable {conditions : List RuleCondition}

section

variable (hperm : conditions.Perm clause.whereConditions)

include hperm

theorem mem_bodyVariables_reorder :
    v ∈ bodyVariables (clause.reorder conditions) ↔ v ∈ bodyVariables clause := by
  have hrefs : v ∈ refVariables (clause.reorder conditions) ↔ v ∈ refVariables clause :=
    (hperm.flatMap_right _).mem_iff
  have hgens : v ∈ generatorOutputs (clause.reorder conditions) ↔ v ∈ generatorOutputs clause :=
    (hperm.flatMap_right _).mem_iff
  simp only [bodyVariables, mem_append, hrefs, hgens]
  rfl

theorem exists_conditionReads_reorder {cond : Nat}
    (hv : v ∈ conditionReads (clause.reorder conditions) cond) :
    ∃ cond', v ∈ conditionReads clause cond' := by
  have hget : ∀ c, conditions[cond]? = some c → ∃ i, clause.whereConditions[i]? = some c :=
    fun c hc => getElem?_of_mem (hperm.subset (mem_of_getElem? hc))
  unfold conditionReads at hv
  split at hv
  · next e he =>
    obtain ⟨i, hi⟩ := hget _ he
    exact ⟨i, by rwa [conditionReads, hi]⟩
  · next ref href =>
    obtain ⟨i, hi⟩ := hget _ href
    exact ⟨i, by rwa [conditionReads, hi]⟩
  · cases hv

/-- What can be derived does not depend on the order of the conditions. -/
theorem BodyDerivable.reorder {exposed exposed' : String → Prop}
    (hexposed : ∀ v, exposed v → exposed' v) (h : BodyDerivable clause exposed v) :
    BodyDerivable (clause.reorder conditions) exposed' v := by
  refine h.mem_of_stuck ?_ ?_
  · rintro a (ha | ha | ha)
    · exact .base (.inl ha)
    · exact .base (.inr (.inl ((hperm.flatMap_right _).mem_iff.mpr ha)))
    · exact .base (.inr (.inr (hexposed a ha)))
  · exact fun ref href hneeds a ha => .gives (hperm.mem_iff.mpr href) hneeds ha

end

/-- The shape of the reference that a condition becomes. -/
def conditionShape (catalog : AssocMap String CompiledRule) (kinds : ColumnKinds) :
    RuleCondition → Option RefShape
  | .isReference isRef => refShape catalog kinds isRef
  | _ => none

theorem IntakeSpec.shapes (h : IntakeSpec catalog kinds conditions n) :
    n.refs.map (·.shape) = conditions.filterMap (conditionShape catalog kinds) := by
  have hmap := congrArg (map Prod.snd) h.refs
  rw [map_map, map_filterMap] at hmap
  refine hmap.trans ?_
  conv_rhs => rw [← zipIdx_map_fst 0 conditions, filterMap_map]
  refine filterMap_congr fun entry _ => ?_
  obtain ⟨c, i⟩ := entry
  cases c with
  | isReference isRef =>
    change ((refShape catalog kinds isRef).map (Prod.mk i)).map Prod.snd = _
    rw [Option.map_map]
    exact Option.map_id'
  | generator | expression => rfl

variable {conditions' : List RuleCondition}

theorem IntakeSpec.shapes_perm {n' : Intake} (h : IntakeSpec catalog kinds conditions n)
    (h' : IntakeSpec catalog kinds conditions' n') (hperm : conditions'.Perm conditions) :
    (n'.refs.map (·.shape)).Perm (n.refs.map (·.shape)) := by
  rw [h.shapes, h'.shapes]
  exact hperm.filterMap _

/-- The shapes of the positive references. -/
theorem IntakeSpec.positive_shapes (h : IntakeSpec catalog kinds conditions n) :
    n.positive.filterMap (fun r => (n.refs[r]?).map (·.shape)) =
      (n.refs.map (·.shape)).filter (!·.negated) := by
  rw [h.positive, filter_map, ← map_filterMap, filterMap_indicesOf]
  rfl

/-! ## Exposed columns -/

/-- The columns that a reference exposes. -/
def RefShape.exposed (catalog : AssocMap String CompiledRule) (real : List String)
    (shape : RefShape) : List String :=
  let schema := (catalog.lookup shape.rule).elim [] (·.yieldSchema)
  (((bindingSequence schema).drop shape.positions.length).filter
    fun c => !c.isKey && c.name ∉ real).map (·.name)

theorem exposedColumns_eq (real : List String) (b : IsRefBinding) :
    exposedColumns catalog real b = b.shape.exposed catalog real := by
  simp [exposedColumns, RefShape.exposed, IsRefBinding.shape]

theorem flatMap_filterMap {α β γ : Type} (f : α → Option β) (g : β → List γ) (l : List α) :
    (l.filterMap f).flatMap g = l.flatMap fun a => (f a).elim [] g := by
  induction l with
  | nil => rfl
  | cons a l ih =>
    cases hf : f a with
    | none => rw [filterMap_cons_none hf, flatMap_cons, hf, ih, Option.elim_none,
        nil_append]
    | some => rw [filterMap_cons_some hf, flatMap_cons, flatMap_cons, hf, ih,
        Option.elim_some]

theorem exposedEntries_names (h : IntakeSpec catalog kinds conditions n) (real : List String) :
    (n.exposedEntries catalog real).map Prod.fst =
      ((n.refs.map (·.shape)).filter (!·.negated)).flatMap (RefShape.exposed catalog real) := by
  rw [← h.positive_shapes, Intake.exposedEntries, map_flatMap, flatMap_filterMap]
  refine flatMap_congr fun r _ => ?_
  cases n.refs[r]? with
  | none => rfl
  | some =>
    simp only [Option.elim_some, Option.map_some, map_map, exposedColumns_eq]
    exact map_id _

/-- The exposed columns of a reordered clause. -/
theorem exposed_perm {n' : Intake} {real real' : List String}
    (h : IntakeSpec catalog kinds conditions n) (h' : IntakeSpec catalog kinds conditions' n')
    (hperm : conditions'.Perm conditions) (hreal : ∀ v, v ∈ real' ↔ v ∈ real) :
    ((n'.exposedEntries catalog real').map Prod.fst).Perm
      ((n.exposedEntries catalog real).map Prod.fst) := by
  have hexposed : RefShape.exposed catalog real' = RefShape.exposed catalog real := by
    funext shape
    simp only [RefShape.exposed, hreal]
  rw [exposedEntries_names h, exposedEntries_names h', hexposed]
  exact ((h.shapes_perm h' hperm).filter _).flatMap_right _

theorem exposureOf_unique_iff (l : List (Nat × String)) :
    (∃ r physical, exposureOf l = .unique r physical) ↔ l.length = 1 := by
  match l with
  | [] => simp [exposureOf]
  | [(r, physical)] => simp [exposureOf]
  | (r, physical) :: e :: l => simp [exposureOf]

theorem exposure_unique_iff (n : Intake) (real : List String) (name : String) :
    (∃ r physical, (n.exposure catalog real).lookup name = some (.unique r physical)) ↔
      ((n.exposedEntries catalog real).map Prod.fst).count name = 1 := by
  have hcount : ((n.exposedEntries catalog real).map Prod.fst).count name =
      ((n.exposedEntries catalog real).filter (·.1 = name)).length := by
    rw [count, countP_map, countP_eq_length_filter]
    rfl
  rw [hcount, lookup_exposure]
  split
  · next hnil => simp [hnil]
  · simp only [Option.some.injEq]
    rw [exposureOf_unique_iff, length_map]

/-! ## The anchor -/

/-- A KEY position over a node of the pattern that the walk can start from. -/
def anchorable (clause : CompiledClause) (eligible : String → Bool) (p : PositionShape) : Bool :=
  p.isKey && p.kind = .node && (matchVarKinds clause.matchPattern).lookup p.var = some .node &&
    p.var ∈ walkableNodeVariables clause.matchPattern && eligible p.var

/-- What an anchor says, with the reference in place of its number. -/
def ClauseBindingPlan.viewOf (plan : ClauseBindingPlan) (a : Anchor) :
    Option RefShape × Nat × AnchorSource :=
  ((plan.refs[a.r]?).map (·.shape), a.pos, a.source)

/-- The anchor that a reference can be. -/
def shapeCandidate (clause : CompiledClause) (sameScc : String → Bool) (source : AnchorSource)
    (eligible : String → Bool) (shape : RefShape) : Option (Option RefShape × Nat × AnchorSource) :=
  if sameScc shape.rule = decide (source = .recursive) then
    (shape.positions.findIdx? (anchorable clause eligible)).map fun pos => (some shape, pos, source)
  else none

def shapeRank : Option RefShape × Nat × AnchorSource → String ×ₗ List String
  | (none, _) => toLex ("", [])
  | (some shape, _) => toLex (shape.rule, shape.positions.map (·.var))

theorem anchorRank_eq (plan : ClauseBindingPlan) : anchorRank plan = shapeRank ∘ plan.viewOf := by
  funext a
  simp only [anchorRank, Function.comp_apply, ClauseBindingPlan.viewOf]
  cases plan.refs[a.r]? with
  | none => rfl
  | some =>
    simp only [Option.map_some, shapeRank, IsRefBinding.shape, map_map]
    rfl

theorem findIdx?_congr {α : Type} {p q : α → Bool} {l : List α} (h : ∀ a ∈ l, p a = q a) :
    l.findIdx? p = l.findIdx? q := by
  induction l with
  | nil => rfl
  | cons a l ih =>
    rw [findIdx?_cons, findIdx?_cons, h a mem_cons_self, ih fun b hb => h b (mem_cons_of_mem a hb)]

namespace Computed

variable (h : Computed rule clause sameScc catalog kinds plan n body final)

include h

theorem lookup_ofMatch (v : String) (kind : ColumnKind) :
    plan.scope.lookup v = some (.ofMatch kind) ↔
      (matchVarKinds clause.matchPattern).lookup v = some kind := by
  rw [← h.inv.matched, h.scope]
  constructor
  · intro hv
    refine (h.negated.fresh v _ hv).resolve_right ?_
    rintro ⟨a, ha⟩
    cases ha
  · exact h.negated.mono v _

/-- A position over a variable of the pattern tests it. -/
theorem action_eq {r : Nat} {b : IsRefBinding} (hr : r ∈ n.positive) (hb : plan.refs[r]? = some b)
    {p : PositionBinding} (hp : p ∈ b.positions) {kind : ColumnKind}
    (hkind : (matchVarKinds clause.matchPattern).lookup p.var = some kind) :
    p.action = testAction p.kind := by
  rw [h.refs_positive hr] at hb
  have hstep : .ref r ∈ body.plan.steps := by
    refine h.body_perm.mem_iff.mpr ?_
    exact mem_append_left _ (mem_append_left _ (mem_map_of_mem hr))
  refine (h.inv.positions r b hstep hb p hp).resolve_left fun haction => ?_
  obtain ⟨i, hi⟩ := exists_positionOccurrence r 0 hp
  rw [← occurrencesOf_ref body.plan hb, haction, role_bindAction] at hi
  have hocc := mem_append_right (patternOccurrences clause.matchPattern)
    (mem_flatMap.mpr ⟨_, hstep, hi⟩)
  have hsite := h.inv.first.site_of_binds ((h.inv.matched _ _).mpr hkind) hocc
  cases hsite

/-- The position to walk from depends on the shape of the reference only. -/
theorem anchorPosition_eq {r : Nat} {b : IsRefBinding} (hr : r ∈ n.positive)
    (hb : plan.refs[r]? = some b) (eligible : String → Bool) :
    anchorPosition clause plan eligible b =
      b.shape.positions.findIdx? (anchorable clause eligible) := by
  rw [anchorPosition, IsRefBinding.shape, findIdx?_map]
  refine findIdx?_congr fun p hp => ?_
  have hshape : (anchorable clause eligible ∘ PositionBinding.shape) p = (p.isKey &&
      p.kind = .node && (matchVarKinds clause.matchPattern).lookup p.var = some .node &&
      p.var ∈ walkableNodeVariables clause.matchPattern && eligible p.var) := rfl
  rw [hshape, Bool.eq_iff_iff]
  simp only [Bool.and_eq_true, decide_eq_true_eq, h.lookup_ofMatch]
  by_cases hnode : (matchVarKinds clause.matchPattern).lookup p.var = some .node
  · have haction : p.action = .testNode ↔ p.kind = .node := by
      rw [h.action_eq hr hb hp hnode, testAction]
      split <;> simp_all
    rw [haction]
  · simp [hnode]

/-- The candidates, seen through their references. -/
theorem map_viewOf_candidates (source : AnchorSource) (eligible : String → Bool) :
    (anchorCandidates clause sameScc plan n.positive source eligible).map plan.viewOf =
      ((n.refs.map (·.shape)).filter (!·.negated)).filterMap
        (shapeCandidate clause sameScc source eligible) := by
  rw [← h.spec.positive_shapes, anchorCandidates, map_filterMap, filterMap_filterMap]
  refine filterMap_congr fun r hr => ?_
  obtain ⟨b₀, hb₀, -⟩ := h.mem_positive.mp hr
  obtain ⟨b, hb, herase⟩ := h.exists_ref hb₀
  have hshape := shape_of_erase herase
  have hrule : b.shape.rule = b.rule := rfl
  simp only [hb, hb₀, Option.bind_eq_bind, Option.bind_some, Option.map_some, ← hshape,
    shapeCandidate, hrule, h.anchorPosition_eq hr hb]
  split
  · rw [Option.map_bind]
    cases b.shape.positions.findIdx? (anchorable clause eligible) with
    | none => rfl
    | some =>
      simp [ClauseBindingPlan.viewOf, hb]
  · rfl

theorem mem_equalityAnchoredNodes :
    v ∈ equalityAnchoredNodes clause plan ↔ v ∈ mappedNodes clause.matchPattern ∨
      ∃ e, .expression e ∈ clause.whereConditions ∧
        (∀ x ∈ e.freeVariables, x ∈ matchVarKinds clause.matchPattern) ∧
        v ∈ (conjuncts e).filterMap equatedNode := by
  rw [equalityAnchoredNodes, mem_append, mem_flatMap, h.immediateFilters_eq]
  refine or_congr_right ⟨?_, ?_⟩
  · rintro ⟨index, hindex, hv⟩
    obtain ⟨f, hf, rfl⟩ := mem_map.mp hindex
    obtain ⟨hmem, hall⟩ := mem_filter.mp hf
    obtain ⟨e, he, hnames⟩ := (mem_filters h.spec).mp hmem
    rw [all_eq_true] at hall
    rw [he] at hv
    exact ⟨e, mem_of_getElem? he,
      fun x hx => AList.mem_keys.mpr (of_decide_eq_true (hall x (hnames ▸ hx))), hv⟩
  · rintro ⟨e, he, hall, hv⟩
    obtain ⟨i, hi⟩ := getElem?_of_mem he
    refine ⟨i, mem_map.mpr ⟨(i, e.freeVariables), mem_filter.mpr ⟨?_, ?_⟩, rfl⟩, ?_⟩
    · exact (mem_filters h.spec).mpr ⟨e, hi, rfl⟩
    · rw [all_eq_true]
      exact fun x hx => decide_eq_true (AList.mem_keys.mp (hall x hx))
    · rw [hi]
      exact hv

end Computed

theorem refShape_inj {isRef isRef' : IsReference} {shape shape' : RefShape}
    (h : refShape catalog kinds isRef = some shape)
    (h' : refShape catalog kinds isRef' = some shape') (hneg : shape.negated = shape'.negated)
    (hrule : shape.rule = shape'.rule)
    (hvars : shape.positions.map (·.var) = shape'.positions.map (·.var)) : shape = shape' := by
  obtain ⟨hv, hn, hr⟩ := vars_refShape catalog kinds h
  obtain ⟨hv', hn', hr'⟩ := vars_refShape catalog kinds h'
  have hvariables : isRef.variables = isRef'.variables := hv.symm.trans (hvars.trans hv')
  have hname : isRef.ruleName = isRef'.ruleName := hr.symm.trans (hrule.trans hr')
  have hnegated : isRef.negated = isRef'.negated := hn.symm.trans (hneg.trans hn')
  have hcount : isRef.subjects.length + isRef.target.isSome.toNat =
      isRef'.subjects.length + isRef'.target.isSome.toNat := by
    have hlen := congrArg length hvariables
    cases htarget : isRef.target <;> cases htarget' : isRef'.target <;>
      simpa [IsReference.variables, htarget, htarget'] using hlen
  have hshape : refShape catalog kinds isRef = refShape catalog kinds isRef' := by
    unfold refShape boundColumns refPositions
    rw [hnegated, hvariables, hcount]
    clear hr hr'
    cases isRef
    cases isRef'
    cases hname
    rfl
  rw [h, h'] at hshape
  exact Option.some.inj hshape

/-- The order of the candidates tells them apart. -/
theorem shapeRank_inj (h : IntakeSpec catalog kinds conditions n) {source : AnchorSource}
    {eligible : String → Bool} {x y : Option RefShape × Nat × AnchorSource}
    (hx : x ∈ ((n.refs.map (·.shape)).filter (!·.negated)).filterMap
      (shapeCandidate clause sameScc source eligible))
    (hy : y ∈ ((n.refs.map (·.shape)).filter (!·.negated)).filterMap
      (shapeCandidate clause sameScc source eligible))
    (hrank : shapeRank x = shapeRank y) : x = y := by
  have hmem : ∀ z, z ∈ ((n.refs.map (·.shape)).filter (!·.negated)).filterMap
      (shapeCandidate clause sameScc source eligible) → ∃ shape isRef,
        refShape catalog kinds isRef = some shape ∧ shape.negated = false ∧
        z.1 = some shape ∧ shapeCandidate clause sameScc source eligible shape = some z := by
    intro z hz
    obtain ⟨shape, hshape, hcand⟩ := mem_filterMap.mp hz
    obtain ⟨hmem, hneg⟩ := mem_filter.mp hshape
    obtain ⟨b, hb, rfl⟩ := mem_map.mp hmem
    obtain ⟨r, hr⟩ := getElem?_of_mem hb
    obtain ⟨isRef, -, hisRef⟩ := h.exists_reference hr
    refine ⟨b.shape, isRef, hisRef, by simpa using hneg, ?_, hcand⟩
    unfold shapeCandidate at hcand
    split at hcand
    · obtain ⟨pos, -, rfl⟩ := Option.map_eq_some_iff.mp hcand
      rfl
    · cases hcand
  obtain ⟨shape, isRef, href, hneg, hfst, hcand⟩ := hmem x hx
  obtain ⟨shape', isRef', href', hneg', hfst', hcand'⟩ := hmem y hy
  obtain ⟨x₁, x₂⟩ := x
  obtain ⟨y₁, y₂⟩ := y
  cases hfst
  cases hfst'
  have hpair := toLex_inj.mp hrank
  have hshape : shape = shape' := refShape_inj href href' (hneg.trans hneg'.symm)
    (congrArg Prod.fst hpair) (congrArg Prod.snd hpair)
  subst hshape
  exact Option.some.inj (hcand.symm.trans hcand')

section Reorder

variable {conditions : List RuleCondition} {plan' : ClauseBindingPlan} {n' : Intake}
  {body' final' : Scheduler}

section

variable (h : Computed rule clause sameScc catalog kinds plan n body final)
include h

theorem argmin_reorder
    (h' : Computed rule (clause.reorder conditions) sameScc catalog kinds plan' n' body' final')
    (hperm : conditions.Perm clause.whereConditions) (source : AnchorSource)
    (eligible : String → Bool) :
    ((anchorCandidates (clause.reorder conditions) sameScc plan' n'.positive source
        eligible).argmin (anchorRank plan')).map plan'.viewOf =
      ((anchorCandidates clause sameScc plan n.positive source eligible).argmin
        (anchorRank plan)).map plan.viewOf := by
  rw [anchorRank_eq, anchorRank_eq]
  refine map_argmin_eq_of_perm ?_ ?_
  · rw [h.map_viewOf_candidates, h'.map_viewOf_candidates]
    exact ((h.spec.shapes_perm h'.spec hperm).filter _).filterMap _
  · intro x hx y hy hrank
    rw [h'.map_viewOf_candidates] at hx hy
    exact shapeRank_inj h'.spec hx hy hrank

theorem anchorShape_reorder
    (h' : Computed rule (clause.reorder conditions) sameScc catalog kinds plan' n' body' final')
    (hperm : conditions.Perm clause.whereConditions) : plan'.anchorShape = plan.anchorShape := by
  have heligible : (fun v => (equalityAnchoredNodes (clause.reorder conditions) plan').all (· =
    v)) =
      fun v => (equalityAnchoredNodes clause plan).all (· = v) := by
    funext v
    rw [Bool.eq_iff_iff, all_eq_true, all_eq_true]
    refine forall_congr' fun x => ?_
    rw [h.mem_equalityAnchoredNodes, h'.mem_equalityAnchoredNodes]
    change (x ∈ mappedNodes clause.matchPattern ∨ ∃ e, .expression e ∈ conditions ∧ _) → _ ↔ _
    simp only [hperm.mem_iff]
    rfl
  change plan'.anchor.map plan'.viewOf = plan.anchor.map plan.viewOf
  rw [h.anchor, h'.anchor, chooseAnchor, chooseAnchor, Option.map_or, Option.map_or, heligible,
    argmin_reorder h h' hperm, argmin_reorder h h' hperm]

theorem Computed.reorder_wellScheduled
    (h' : Computed rule (clause.reorder conditions) sameScc catalog kinds plan' n' body' final')
    (hperm : conditions.Perm clause.whereConditions)
    (hvisible : ∀ cond, ∀ v ∈ conditionReads clause cond, v ∈ bodyVariables clause ∨
      ∃ r physical, (initialScheduler rule clause sameScc catalog n).plan.exposure.lookup v =
        some (.unique r physical))
    (hderivable : ∀ cond, ∀ v ∈ conditionReads clause cond, BodyDerivable clause
      (· ∈ (initialScheduler rule clause sameScc catalog n).plan.exposure) v) :
    WellScheduled (clause.reorder conditions) plan' := by
  have hreal : ∀ v, v ∈ n'.bodyVariables (matchVarKinds clause.matchPattern).keys ↔
      v ∈ n.bodyVariables (matchVarKinds clause.matchPattern).keys := by
    intro v
    rw [mem_bodyVariables h.spec]
    exact (mem_bodyVariables h'.spec).trans (mem_bodyVariables_reorder hperm)
  have hnames := exposed_perm h.spec h'.spec hperm hreal
  refine h'.wellScheduled ?_ ?_
  · intro cond v hv
    obtain ⟨cond', hv'⟩ := exists_conditionReads_reorder hperm hv
    refine (hvisible cond' v hv').imp (mem_bodyVariables_reorder hperm).mpr fun hunique => ?_
    refine (exposure_unique_iff n' _ v).mpr ?_
    exact (hnames.count_eq v).trans ((exposure_unique_iff n _ v).mp hunique)
  · intro cond v hv
    obtain ⟨cond', hv'⟩ := exists_conditionReads_reorder hperm hv
    refine (hderivable cond' v hv').reorder hperm fun x hx => ?_
    exact (mem_exposure_iff catalog n' _ x).mpr
      (hnames.mem_iff.mpr ((mem_exposure_iff catalog n _ x).mp hx))

end

end Reorder

end Plan

/-- `MATCH (a) WHERE x = y.p, g(w) -> x, a IS r TO y, b IS NOT q TO u YIELD KEY a AS b`, which is
    written in an order in which it cannot be evaluated. -/
def linkClause : CompiledClause :=
  { matchPattern := ⟨[⟨none, [.node ⟨some "a", .empty, none, none⟩], none⟩]⟩
    whereConditions :=
      [.expression (.binaryOp (.var "x") .eq (.property (.var "y") "p")),
       .generator ⟨"g", [.var "w"], ["x"]⟩,
       .isReference ⟨["a"], "r", some "y", false⟩,
       .isReference ⟨["b"], "q", some "u", true⟩]
    along := [], fold := [], require := [], having := [], bestBy := none
    output := .yield [⟨true, false, .var "a", some "b"⟩]
    modelInvocations := [] }

def linkCatalog : AssocMap String CompiledRule :=
  ((∅ : AssocMap String CompiledRule).insert "r"
    ⟨"r", [], [⟨"k", true, false⟩, ⟨"v", false, false⟩, ⟨"w", false, false⟩]⟩).insert "q"
    ⟨"q", [], [⟨"k", true, false⟩, ⟨"v", false, false⟩]⟩

theorem mem_conditionReads_linkClause {cond : Nat} (hv : v ∈ conditionReads linkClause cond) :
    v = "x" ∨ v = "y" ∨ v = "w" := by
  have hlen : cond < 4 := by
    by_contra hge
    have hnone : linkClause.whereConditions[cond]? = none :=
      getElem?_eq_none (Nat.le_of_not_lt hge)
    rw [conditionReads, hnone] at hv
    cases hv
  have hall : ∀ c < 4, ∀ v ∈ conditionReads linkClause c, v = "x" ∨ v = "y" ∨ v = "w" := by
    decide +kernel
  exact hall cond hlen v hv

end UniDb.Locy
