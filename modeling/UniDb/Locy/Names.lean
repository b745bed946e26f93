import Mathlib.Data.List.TakeWhile

/-!
# Rule Names

The catalog stores a rule under its module-qualified name, and a reference keeps the name as it is
written. A reference without a dot stands for the key it is equal to, or else for the only key
whose last segment it is.

The scan for that key stops at the second qualified key and has not seen the keys behind it by
then. It finds a key that is the reference itself only if at most one qualified key comes before
it, so the answer depends on the order of the keys.

## Main definitions

* `nameMatches`: Whether a key is a candidate for a reference.
* `resolveUnique`: The scan.
* `resolution`: The key that a reference stands for.

## Theorems

* `resolution_perm`: The order of the keys does not matter for what a reference stands for.
* `scan_eq`: What the scan returns.
* `resolveUnique_eq_resolution_iff`: When it finds the key.
-/

namespace UniDb.Locy

open List

/-- The parts of a name before and after its last dot. -/
def rsplitOnce (name : String) : Option (String × String) :=
  let bare := name.toList.reverse.takeWhile (· ≠ '.')
  match name.toList.reverse.drop bare.length with
  | [] => none
  | _ :: front => some (String.ofList front.reverse, String.ofList bare.reverse)

def nameMatches (key reference : String) : Bool :=
  key = reference ||
    (!reference.toList.contains '.' && (rsplitOnce key).any fun parts => parts.2 = reference)

variable (reference : String)

/-- The loop of `resolveUnique`, with the key that has matched so far. -/
def scan (matched : Option String) : List String → Option String
  | [] => matched
  | key :: keys =>
    if key = reference then some key
    else if !nameMatches key reference then scan matched keys
    -- two qualified keys share this last segment
    else if matched.isSome then none
    else scan (some key) keys

def resolveUnique (keys : List String) : Option String := scan reference none keys

/-- The key itself if it exists, and else the only key that matches. -/
def resolution (keys : List String) : Option String :=
  if reference ∈ keys then some reference
  else match keys.filter (nameMatches · reference) with
    | [key] => some key
    | _ => none

theorem resolution_perm {keys keys' : List String} (h : keys ~ keys') :
    resolution reference keys = resolution reference keys' := by
  have hfilter := h.filter (nameMatches · reference)
  unfold resolution
  simp only [h.mem_iff]
  generalize keys.filter (nameMatches · reference) = l at hfilter
  -- permutations of lists with at most one element are equal
  match l, hfilter with
  | [], hfilter => rw [hfilter.nil_eq]
  | [key], hfilter => rw [singleton_perm.mp hfilter]
  | _ :: _ :: _, hfilter =>
    match keys'.filter (nameMatches · reference), hfilter.length_eq with
    | _ :: _ :: _, _ => rfl

/-- The candidates that the scan meets before the reference itself. -/
def qualifiedBefore (keys : List String) : List String :=
  (keys.takeWhile (· ≠ reference)).filter (nameMatches · reference)

variable {reference}

theorem qualifiedBefore_of_notMem {keys : List String} (h : reference ∉ keys) :
    qualifiedBefore reference keys = keys.filter (nameMatches · reference) := by
  have hall : ∀ key ∈ keys, decide (key ≠ reference) = true := by
    intro key hkey
    exact decide_eq_true fun heq => h (heq ▸ hkey)
  rw [qualifiedBefore, takeWhile_eq_self_iff.mpr hall]

theorem scan_eq (matched : Option String) (keys : List String) : scan reference matched keys =
    if 2 ≤ (matched.toList ++ qualifiedBefore reference keys).length then none
    else if reference ∈ keys then some reference
    else (matched.toList ++ qualifiedBefore reference keys).head? := by
  induction keys generalizing matched with
  | nil => cases matched <;> simp [scan, qualifiedBefore]
  | cons key keys ih =>
    unfold scan
    by_cases heq : key = reference
    · cases matched <;> simp [heq, qualifiedBefore]
    · have hmem : reference ∈ key :: keys ↔ reference ∈ keys := by
        simp [Ne.symm heq]
      simp only [if_neg heq, hmem]
      cases hmatch : nameMatches key reference with
      | false => simp [ih, qualifiedBefore, heq, hmatch]
      | true =>
        cases matched with
        | none => simp [ih, qualifiedBefore, heq, hmatch]
        | some => simp [qualifiedBefore, heq, hmatch]

/-- The scan finds what a reference stands for exactly if the reference is no key or comes after
    at most one candidate. -/
theorem resolveUnique_eq_resolution_iff (keys : List String) :
    resolveUnique reference keys = resolution reference keys ↔
      (reference ∈ keys → (qualifiedBefore reference keys).length < 2) := by
  unfold resolveUnique resolution
  rw [scan_eq]
  by_cases hmem : reference ∈ keys
  · simp [hmem]
  · rw [qualifiedBefore_of_notMem hmem, if_neg hmem, if_neg hmem]
    refine iff_of_true ?_ fun h => absurd h hmem
    match keys.filter (nameMatches · reference) with
    | [] => rfl
    | [key] => rfl
    | _ :: _ :: _ => simp

/-- With two qualified keys in front a rule is not found under its own name. -/
theorem resolveUnique_ambiguous :
    resolveUnique "adult" ["m1.adult", "m2.adult", "adult"] = none ∧
      resolveUnique "adult" ["adult", "m1.adult", "m2.adult"] = some "adult" ∧
      resolution "adult" ["m1.adult", "m2.adult", "adult"] = some "adult" := by
  decide

end UniDb.Locy
