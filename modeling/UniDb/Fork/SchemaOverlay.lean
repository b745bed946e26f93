import UniDb.Common.Schema
import UniDb.Lib.Run

/-!
# The Schema of a Reopened Fork

When the labels and edge types of a fork have distinct ids.

Primary and an open fork declare labels and edge types side by side, each with
the number after the largest one it knows. An open fork does not see what primary
declares; what the fork declares is stored in its overlay with the number. When
the fork is opened again, the overlay is laid over the schema that primary has by
then, and a number that both have given out stands for two names
(`reopened_ambiguous`). The schemaless edge types of the overlay are numbered
anew for this reason, the declared ones are not.

## Main definitions

* `ForkSchemas`: The schema of primary, the overlay, and the schema of the fork.
* `Unambiguous`: Ids stand for one name, and lead back to it.
* `NoClash`: What a reopen has to find.

## Theorems

* `merged_unambiguous_iff`: A fork is unambiguous throughout exactly if no reopen
  finds a clash.
-/

namespace UniDb

namespace Fork

variable {T : Type}

/-- `merged` is the schema that the open fork works with. -/
structure ForkSchemas (T : Type) where
  primary : Schema T
  overlay : SchemaDelta T
  merged : Schema T

inductive SchemaAction
  | primaryLabel (name : String) (description : Option String)
  | primaryEdgeType (name : String) (srcLabels dstLabels : List String)
      (description : Option String)
  | forkLabel (name : String) (description : Option String)
  | forkEdgeType (name : String) (srcLabels dstLabels : List String)
      (description : Option String)
  | reopen

namespace ForkSchemas

/-- A fork is created. -/
def start (primary : Schema T) : ForkSchemas T :=
  ⟨primary, .empty, primary.withOverlay .empty⟩

/-- A label that was added to the schema of the fork is stored in its overlay. -/
def persistLabel (s : ForkSchemas T) (name : String) (label : LabelMeta) : ForkSchemas T :=
  { s with overlay := { s.overlay with
      addedLabels := s.overlay.addedLabels ++ [(name, label)] } }

def persistEdgeType (s : ForkSchemas T) (name : String) (edgeType : EdgeTypeMeta) :
    ForkSchemas T :=
  { s with overlay := { s.overlay with
      addedEdgeTypes := s.overlay.addedEdgeTypes ++ [(name, edgeType)] } }

/-- One declaration or a reopen. A declaration that is refused changes nothing. -/
def step (valid : String → Bool) (s : ForkSchemas T) : SchemaAction → Option (ForkSchemas T)
  | .primaryLabel name description => match s.primary.addLabelWithDesc valid name description with
    | .error _ => some s
    | .ok (_, primary) => some { s with primary := primary }
  | .primaryEdgeType name src dst description =>
    match s.primary.addEdgeTypeWithDesc valid name src dst description with
    | .error _ => some s
    | .ok (_, primary) => some { s with primary := primary }
  | .forkLabel name description => match s.merged.addLabelWithDesc valid name description with
    | .error _ => some s
    | .ok (label, merged) => some ({ s with merged := merged }.persistLabel name label)
  | .forkEdgeType name src dst description =>
    match s.merged.addEdgeTypeWithDesc valid name src dst description with
    | .error _ => some s
    | .ok (edgeType, merged) => some ({ s with merged := merged }.persistEdgeType name edgeType)
  | .reopen => some { s with merged := s.primary.withOverlay s.overlay }

end ForkSchemas

/-- Ids stand for one name, and the id of an edge type leads back to its name. -/
structure Unambiguous (s : Schema T) : Prop where
  labels : ∀ n n' l l', s.labels.lookup n = some l → s.labels.lookup n' = some l' →
    l.id = l'.id → n = n'
  edgeTypes : ∀ n n' t t', s.edgeTypes.lookup n = some t → s.edgeTypes.lookup n' = some t' →
    t.id = t'.id → n = n'
  back : ∀ n id, s.edgeTypeIdByName n = some id → s.edgeTypeNameById id = some n

/-- An id of the overlay is not the id of a name that only primary declares. -/
def NoClash {V : Type} (num : V → Nat) (primary : AssocMap String V) (added : List (String × V)) :
    Prop :=
  ∀ e ∈ added, ∀ p ∈ primary.toList, p.1 ∉ added.map Prod.fst → num e.2 ≠ num p.2

instance {V : Type} (num : V → Nat) (primary : AssocMap String V) (added : List (String × V)) :
    Decidable (NoClash num primary added) := by
  unfold NoClash
  infer_instance

/-- A reopen finds no clash, neither of labels nor of edge types. -/
def OpensClean (s : ForkSchemas T) : SchemaAction → Prop
  | .reopen => NoClash LabelMeta.id s.primary.labels s.overlay.addedLabels ∧
      NoClash EdgeTypeMeta.id s.primary.edgeTypes s.overlay.addedEdgeTypes
  | _ => True

instance (s : ForkSchemas T) (a : SchemaAction) : Decidable (OpensClean s a) := by
  cases a <;> unfold OpensClean <;> infer_instance

theorem numbered_insertAll_iff_noClash {V : Type} {num : V → Nat} {primary view : AssocMap String V}
    {added : List (String × V)} (h : Laid num primary added view) :
    Numbered num (insertAll primary added) ↔ NoClash num primary added := by
  rw [numbered_insertAll_iff h.table h.keys h.nums]
  constructor
  · intro hall e he p hp
    exact hall e he p.1 p.2 (AssocMap.mem_toList.mp hp)
  · intro hall e he n v hn
    exact hall e he (n, v) (AssocMap.mem_toList.mpr hn)

theorem unambiguous_iff {s : Schema T} :
    Unambiguous s ↔ Numbered LabelMeta.id s.labels ∧ Numbered EdgeTypeMeta.id s.edgeTypes := by
  constructor
  · exact fun h => ⟨h.labels, h.edgeTypes⟩
  · rintro ⟨hlabels, hedges⟩
    refine ⟨hlabels, hedges, fun n id hid => ?_⟩
    rcases Option.map_eq_some_iff.mp hid with ⟨t, ht, rfl⟩
    exact numbered_iff_keyOf.mp hedges n t ht

/-! ## Declarations -/

section Declare

variable {valid : String → Bool} {s s' : Schema T} {name : String} {description : Option String}

theorem addLabelWithDesc_ok {label : LabelMeta}
    (h : s.addLabelWithDesc valid name description = .ok (label, s')) :
    name ∉ s.labels ∧ maxNum LabelMeta.id s.labels < label.id ∧
      s'.labels = s.labels.insert name label ∧ s'.edgeTypes = s.edgeTypes := by
  simp only [Schema.addLabelWithDesc] at h
  split_ifs at h with hvalid hname hmax
  cases h
  exact ⟨hname, Nat.lt_succ_self _, rfl, rfl⟩

theorem addEdgeTypeWithDesc_ok {src dst : List String} {edgeType : EdgeTypeMeta}
    (h : s.addEdgeTypeWithDesc valid name src dst description = .ok (edgeType, s')) :
    name ∉ s.edgeTypes ∧ maxNum EdgeTypeMeta.id s.edgeTypes < edgeType.id ∧
      s'.edgeTypes = s.edgeTypes.insert name edgeType ∧ s'.labels = s.labels := by
  simp only [Schema.addEdgeTypeWithDesc] at h
  split_ifs at h with hvalid hname hmax hreserved <;> cases h
  all_goals exact ⟨hname, Nat.lt_succ_self _, rfl, rfl⟩

end Declare

/-! ## Histories -/

/-- What holds whether the fork is ambiguous or not. -/
structure Sound (s : ForkSchemas T) : Prop where
  labels : Laid LabelMeta.id s.primary.labels s.overlay.addedLabels s.merged.labels
  edgeTypes : Laid EdgeTypeMeta.id s.primary.edgeTypes s.overlay.addedEdgeTypes s.merged.edgeTypes

variable {valid : String → Bool} {s s' : ForkSchemas T}

theorem Sound.step (hS : Sound s) {a : SchemaAction} (h : s.step valid a = some s') :
    Sound s' := by
  revert h
  fun_cases ForkSchemas.step valid s a <;> rintro ⟨⟩
  case case2 hok =>
    rcases addLabelWithDesc_ok hok with ⟨-, hid, hlabels, hedges⟩
    exact ⟨hlabels ▸ hS.labels.grow hid, hedges ▸ hS.edgeTypes⟩
  case case4 hok =>
    rcases addEdgeTypeWithDesc_ok hok with ⟨-, hid, hedges, hlabels⟩
    exact ⟨hlabels ▸ hS.labels, hedges ▸ hS.edgeTypes.grow hid⟩
  case case6 hok =>
    rcases addLabelWithDesc_ok hok with ⟨hname, hid, hlabels, hedges⟩
    exact ⟨hlabels ▸ hS.labels.add hname hid, hedges ▸ hS.edgeTypes⟩
  case case8 hok =>
    rcases addEdgeTypeWithDesc_ok hok with ⟨hname, hid, hedges, hlabels⟩
    exact ⟨hlabels ▸ hS.labels, hedges ▸ hS.edgeTypes.add hname hid⟩
  case case9 =>
    rcases Schema.declared_withOverlay .. with ⟨hl, he⟩
    exact ⟨hl ▸ hS.labels.rebuild, he ▸ hS.edgeTypes.rebuild⟩
  -- a refused declaration changes nothing
  all_goals exact hS

/-- A fork that is unambiguous stays so, unless a reopen finds a clash. -/
theorem unambiguous_step_iff (hS : Sound s) (hU : Unambiguous s.merged) {a : SchemaAction}
    (h : s.step valid a = some s') : Unambiguous s'.merged ↔ OpensClean s a := by
  rcases unambiguous_iff.mp hU with ⟨hlabels, hedges⟩
  revert h
  fun_cases ForkSchemas.step valid s a <;> rintro ⟨⟩
  case case6 hok =>
    rcases addLabelWithDesc_ok hok with ⟨-, hid, hl, he⟩
    exact iff_of_true (unambiguous_iff.mpr ⟨hl ▸ hlabels.insert_of_lt hid, he ▸ hedges⟩) trivial
  case case8 hok =>
    rcases addEdgeTypeWithDesc_ok hok with ⟨-, hid, he, hl⟩
    exact iff_of_true (unambiguous_iff.mpr ⟨hl ▸ hlabels, he ▸ hedges.insert_of_lt hid⟩) trivial
  case case9 =>
    rw [unambiguous_iff, (Schema.declared_withOverlay ..).1,
      (Schema.declared_withOverlay ..).2,
      numbered_insertAll_iff_noClash hS.labels, numbered_insertAll_iff_noClash hS.edgeTypes]
    rfl
  all_goals exact iff_of_true hU trivial

/-- A fork is unambiguous in every state exactly if no reopen finds a clash. -/
theorem merged_unambiguous_iff {primary : Schema T} {actions : List SchemaAction}
    (hprimary : Unambiguous primary)
    (hrun : run (ForkSchemas.step valid) (.start primary) actions = some s) :
    (∀ pre u, pre <+: actions → run (ForkSchemas.step valid) (.start primary) pre = some u →
      Unambiguous u.merged) ↔
    EveryStep (ForkSchemas.step valid) OpensClean (.start primary) actions := by
  rcases unambiguous_iff.mp hprimary with ⟨hlabels, hedges⟩
  have hS : Sound (ForkSchemas.start primary) := ⟨.of_numbered hlabels, .of_numbered hedges⟩
  exact forall_prefix_iff_everyStep (J := Sound) (I := fun u => Unambiguous u.merged)
    (fun _ _ _ hS h => hS.step h) (fun _ _ _ hS hU h =>
      unambiguous_step_iff hS hU h) hS hprimary hrun

theorem unambiguous_empty : Unambiguous (Schema.empty : Schema T) :=
  unambiguous_iff.mpr ⟨nofun, nofun⟩

/-- Primary and the fork declare the same names, and the fork one more when it has
    been opened again. -/
def cleanActions : List SchemaAction :=
  [.forkLabel "A" none, .forkEdgeType "X" [] [] none, .primaryLabel "A" none,
    .primaryEdgeType "X" [] [] none, .reopen, .forkEdgeType "Y" [] [] none, .reopen]

theorem merged_unambiguous_clean : ∃ s : ForkSchemas Unit,
    run (ForkSchemas.step fun _ => true) (.start .empty) cleanActions = some s ∧
    Unambiguous s.merged ∧ s.merged.edgeTypeIdByName "X" = some 1 ∧
    s.merged.edgeTypeIdByName "Y" = some 2 := by
  have hclean : EveryStep (ForkSchemas.step fun _ => true) OpensClean
      (.start (Schema.empty : Schema Unit)) cleanActions := by
    decide +kernel
  refine ⟨_, rfl, ?_, by decide +kernel, by decide +kernel⟩
  exact (merged_unambiguous_iff unambiguous_empty rfl).mpr hclean cleanActions _
    List.prefix_rfl rfl

/-- The fork declares a label and an edge type, and primary others. -/
def clashActions : List SchemaAction :=
  [.forkLabel "A" none, .forkEdgeType "X" [] [] none, .primaryLabel "B" none,
    .primaryEdgeType "Y" [] [] none, .reopen]

/-- Opened again, the fork has both of them with the same ids, and cannot tell
    the edge types apart. -/
theorem reopened_ambiguous : ∃ s : ForkSchemas Unit,
    run (ForkSchemas.step fun _ => true) (.start .empty) clashActions = some s ∧
    s.merged.labelIdByName "A" = some 1 ∧ s.merged.labelIdByName "B" = some 1 ∧
    s.merged.edgeTypeIdByName "X" = some 1 ∧ s.merged.edgeTypeIdByName "Y" = some 1 ∧
    ¬ (s.merged.edgeTypeNameById 1 = some "X" ∧ s.merged.edgeTypeNameById 1 = some "Y") := by
  refine ⟨_, rfl, ?_⟩
  decide +kernel

end Fork

end UniDb
