import Mathlib.Data.List.AList
import Mathlib.Data.Finset.Basic

/-!
# Association Maps

Finite maps with an iteration order, and the lemmas their users rewrite with.

A hash map is modelled by an association list with distinct keys: looking a
key up does not depend on the order of the entries, and iterating over the map
visits the entries in some order that the user cannot choose. Theorems about a
program are stated for every map, hence for every iteration order.

Lookups after an update are stated as an `if` on the key, so that `simp` can
carry out any chain of updates and leave only comparisons of keys.

## Main definitions

* `AssocMap`: A finite map with an iteration order.
* `AssocSet`: A finite set, as a map to the unit type.
* `AssocMap.orInsert`: Insert a value unless the key has one.
* `AssocMap.orInsertSome`, `AssocMap.insertSome`: Insert a value that may be
  absent.
* `AssocMap.toList`: The entries in iteration order.
* `AssocMap.filterMapVal`: Change or drop each value.
* `AssocMap.lookup₂`, `AssocMap.insert₂`: Maps of maps.
* `AssocSet.ofList`: The elements of a list.

## Theorems

* `AssocMap.lookup_insert_eq`, `AssocMap.lookup_erase_eq`,
  `AssocMap.lookup_orInsert`, `AssocMap.lookup_orInsertSome`,
  `AssocMap.lookup_insertSome`: Lookups after an update.
* `AssocMap.mem_iff_lookup`: Membership is a lookup that succeeds.
* `AssocMap.mem_toList`: The entries are what the lookups return.
* `AssocMap.lookup_filterMapVal`: Lookups after each value was changed.
* `AssocMap.lookup₂_insert₂`: Lookups in a map of maps.
-/

namespace UniDb

open List

/-- A finite map with an iteration order. -/
abbrev AssocMap (K V : Type) := AList (fun _ : K => V)

/-- A finite set with an iteration order. -/
abbrev AssocSet (K : Type) := AssocMap K Unit

namespace AssocMap

variable {K V : Type} [DecidableEq K] (m : AssocMap K V)

@[simp] theorem lookup_insert_eq (k a : K) (v : V) :
    (m.insert k v).lookup a = if a = k then some v else m.lookup a := by
  by_cases h : a = k
  · subst h
    rw [if_pos rfl, AList.lookup_insert]
  · rw [if_neg h, AList.lookup_insert_ne h]

@[simp] theorem lookup_erase_eq (k a : K) :
    (m.erase k).lookup a = if a = k then none else m.lookup a := by
  by_cases h : a = k
  · subst h
    rw [if_pos rfl, AList.lookup_erase]
  · rw [if_neg h, AList.lookup_erase_ne h]

variable {m}

theorem lookup_insert_cases {k a : K} {v w : V}
    (h : (m.insert k v).lookup a = some w) :
    a = k ∧ w = v ∨ a ≠ k ∧ m.lookup a = some w := by
  rw [lookup_insert_eq] at h
  split at h
  · next heq => exact .inl ⟨heq, (Option.some.inj h).symm⟩
  · next hne => exact .inr ⟨hne, h⟩

theorem lookup_of_erase {k a : K} {w : V}
    (h : (m.erase k).lookup a = some w) : a ≠ k ∧ m.lookup a = some w := by
  rw [lookup_erase_eq] at h
  split at h
  · cases h
  · next hne => exact ⟨hne, h⟩

theorem mem_iff_lookup {a : K} : a ∈ m ↔ ∃ v, m.lookup a = some v := by
  rw [← AList.lookup_isSome, Option.isSome_iff_exists]

theorem notMem_iff_lookup {a : K} : a ∉ m ↔ m.lookup a = none :=
  AList.lookup_eq_none.symm

theorem mem_of_lookup {a : K} {v : V} (h : m.lookup a = some v) : a ∈ m :=
  mem_iff_lookup.mpr ⟨v, h⟩

variable (m)

/-- Insert a value unless the key already has one. -/
def orInsert (k : K) (v : V) : AssocMap K V :=
  if k ∈ m then m else m.insert k v

@[simp] theorem lookup_orInsert (k a : K) (v : V) :
    (m.orInsert k v).lookup a = if a = k then some ((m.lookup k).getD v) else m.lookup a := by
  unfold orInsert
  by_cases hk : k ∈ m
  · rw [if_pos hk]
    rcases mem_iff_lookup.mp hk with ⟨w, hw⟩
    by_cases h : a = k
    · subst h
      rw [if_pos rfl, hw, Option.getD_some]
    · rw [if_neg h]
  · rw [if_neg hk, lookup_insert_eq, notMem_iff_lookup.mp hk, Option.getD_none]

/-- Insert a value that may be absent, unless the key already has one. -/
def orInsertSome (k : K) : Option V → AssocMap K V
  | none => m
  | some v => m.orInsert k v

theorem lookup_orInsertSome (k a : K) (o : Option V) :
    (m.orInsertSome k o).lookup a = if a = k then (m.lookup a).or o else m.lookup a := by
  cases o with
  | none =>
    rw [orInsertSome, Option.or_none, ite_self]
  | some =>
    rw [orInsertSome, lookup_orInsert]
    by_cases h : a = k
    · subst h
      cases m.lookup a <;> rfl
    · rw [if_neg h, if_neg h]

/-- Insert a value that may be absent. -/
def insertSome (k : K) : Option V → AssocMap K V
  | none => m
  | some v => m.insert k v

theorem lookup_insertSome (k a : K) (o : Option V) :
    (m.insertSome k o).lookup a = if a = k then o.or (m.lookup a) else m.lookup a := by
  cases o with
  | none => rw [insertSome, Option.none_or, ite_self]
  | some => rw [insertSome, lookup_insert_eq, Option.some_or]

/-- The entries of a map, in iteration order. -/
def toList : List (K × V) :=
  m.entries.map fun e => (e.1, e.2)

omit [DecidableEq K] in
theorem toList_map_fst : m.toList.map Prod.fst = m.keys := by
  simp [toList, AList.keys, keys, Function.comp_def]

omit [DecidableEq K] in
theorem toList_keys_nodup : (m.toList.map Prod.fst).Nodup := by
  rw [toList_map_fst]
  exact m.keys_nodup

theorem mem_toList {m : AssocMap K V} {k : K} {v : V} :
    (k, v) ∈ m.toList ↔ m.lookup k = some v := by
  have hlook : m.lookup k = some v ↔ (⟨k, v⟩ : Sigma fun _ : K => V) ∈ m.entries :=
    mem_dlookup_iff m.nodupKeys
  rw [hlook, toList, mem_map]
  constructor
  · rintro ⟨⟨k', v'⟩, he, heq⟩
    simp only [Prod.mk.injEq] at heq
    rcases heq with ⟨rfl, rfl⟩
    exact he
  · intro he
    exact ⟨⟨k, v⟩, he, rfl⟩

omit [DecidableEq K] in
theorem nodupKeys_filterMap {W : Type} (f : K → V → Option W)
    {l : List (Sigma fun _ : K => V)} (h : l.NodupKeys) :
    (l.filterMap fun e => (f e.1 e.2).map (Sigma.mk (β := fun _ => W) e.1)).NodupKeys := by
  rw [nodupKeys_iff_pairwise] at h ⊢
  refine List.Pairwise.filterMap _ ?_ h
  intro a a' hne b hb b' hb'
  rcases Option.map_eq_some_iff.mp hb with ⟨w, _, rfl⟩
  rcases Option.map_eq_some_iff.mp hb' with ⟨w', _, rfl⟩
  exact hne

/-- Change each value, or drop its entry. -/
def filterMapVal {W : Type} (f : K → V → Option W) (m : AssocMap K V) : AssocMap K W :=
  ⟨m.entries.filterMap fun e => (f e.1 e.2).map (Sigma.mk (β := fun _ => W) e.1),
    nodupKeys_filterMap f m.nodupKeys⟩

@[simp] theorem lookup_filterMapVal {W : Type} (f : K → V → Option W) (m : AssocMap K V) (k : K) :
    (m.filterMapVal f).lookup k = (m.lookup k).bind (f k) := by
  ext w
  have hleft : (m.filterMapVal f).lookup k = some w ↔
      (⟨k, w⟩ : Sigma fun _ : K => W) ∈ (m.filterMapVal f).entries :=
    mem_dlookup_iff (m.filterMapVal f).nodupKeys
  have hright : ∀ v, m.lookup k = some v ↔ (⟨k, v⟩ : Sigma fun _ : K => V) ∈ m.entries :=
    fun v => mem_dlookup_iff m.nodupKeys
  rw [hleft, Option.bind_eq_some_iff]
  simp only [hright, filterMapVal, mem_filterMap, Option.map_eq_some_iff]
  constructor
  · rintro ⟨⟨k', v⟩, hmem, w', hf, heq⟩
    cases heq
    exact ⟨v, hmem, hf⟩
  · rintro ⟨v, hmem, hf⟩
    exact ⟨⟨k, v⟩, hmem, w, hf, rfl⟩

section Nested

variable {L : Type} [DecidableEq L]

/-- Look up a key, and then a key of the map found there. -/
def lookup₂ (m : AssocMap K (AssocMap L V)) (k : K) (l : L) : Option V :=
  (m.lookup k).bind fun inner => inner.lookup l

/-- Insert into the map found at a key, or into a new one. -/
def insert₂ (m : AssocMap K (AssocMap L V)) (k : K) (l : L) (v : V) : AssocMap K (AssocMap L V) :=
  m.insert k (AList.insert l v ((m.lookup k).getD ∅))

@[simp] theorem lookup₂_insert₂ (m : AssocMap K (AssocMap L V)) (k a : K) (l b : L) (v : V) :
    (m.insert₂ k l v).lookup₂ a b = if a = k ∧ b = l then some v else m.lookup₂ a b := by
  rw [lookup₂, insert₂, lookup_insert_eq]
  by_cases ha : a = k
  · subst ha
    rw [if_pos rfl, Option.bind_some, lookup_insert_eq, lookup₂]
    by_cases hb : b = l
    · rw [if_pos hb, if_pos ⟨rfl, hb⟩]
    · rw [if_neg hb, if_neg fun h => hb h.2]
      cases m.lookup a <;> rfl
  · rw [if_neg ha, if_neg fun h => ha h.1, lookup₂]

end Nested

end AssocMap

namespace AssocSet

variable {K : Type} [DecidableEq K]

/-- The elements of a list, each once. -/
def ofList (l : List K) : AssocSet K := l.foldl (fun s k => s.insert k ()) ∅

theorem mem_ofList (l : List K) (k : K) : k ∈ ofList l ↔ k ∈ l := by
  have hfold : ∀ s : AssocSet K, k ∈ l.foldl (fun s k => s.insert k ()) s ↔ k ∈ l ∨ k ∈ s := by
    induction l with
    | nil => simp
    | cons a l ih =>
      intro s
      rw [foldl_cons, ih, AList.mem_insert, mem_cons]
      tauto
  rw [ofList, hfold]
  exact or_iff_left (AList.notMem_empty k)

end AssocSet

end UniDb
