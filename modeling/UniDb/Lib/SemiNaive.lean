import Mathlib.Data.List.Basic
import Mathlib.Data.List.Forall2
import Mathlib.Data.List.Sections

/-!
# Bodies That Distribute over Union

A body reads several lists of rows and derives rows. It is *additive* if it distributes over
the union of the rows at each of its positions: what it derives then comes from tuples of
rows, one row of each list.

If every list is made of old rows and of new ones, the tuples with at least one new row are
covered by one pass for each position. Pass `p` takes the old rows before position `p`, the
new ones at `p`, and all of them after it: a tuple is met in the pass of its first new row.

## Main definitions

* `Additive`: A body distributes over union at each position.
* `Feed`, `feedAt`: What a pass reads at a position.

## Theorems

* `Additive.mem_iff`: A row is derived from a tuple.
* `Additive.of_tuples`: Every function of tuples gives an additive body.
* `exists_pass_from`: A tuple is all old, or is met in one of the passes.
-/

namespace UniDb

open List

variable {ι α β : Type}

/-- A body distributes over the union of the rows at each position, the empty union included. -/
structure Additive (body : List (List α) → List β) : Prop where
  nil : ∀ left right x, x ∉ body (left ++ [] :: right)
  append : ∀ left A B right x, x ∈ body (left ++ (A ++ B) :: right) ↔
    x ∈ body (left ++ A :: right) ∨ x ∈ body (left ++ B :: right)

namespace Additive

variable {body : List (List α) → List β}

/-- One position is split into its rows. -/
theorem mem_split (h : Additive body) (left : List (List α)) (A : List α)
    (right : List (List α)) (x : β) :
    x ∈ body (left ++ A :: right) ↔ ∃ a ∈ A, x ∈ body (left ++ [a] :: right) := by
  induction A with
  | nil => simp [h.nil]
  | cons a A ih =>
    rw [show a :: A = [a] ++ A from rfl, h.append, ih]
    simp

theorem mem_iff_from (h : Additive body) (left right : List (List α)) (x : β) :
    x ∈ body (left ++ right) ↔ ∃ rows, List.Forall₂ (fun data row => row ∈ data) right rows ∧
      x ∈ body (left ++ rows.map fun row => [row]) := by
  -- the positions before have one row each already
  induction right generalizing left with
  | nil =>
    constructor
    · exact fun hx => ⟨[], .nil, hx⟩
    · rintro ⟨rows, hrows, hx⟩
      cases hrows
      exact hx
  | cons A right ih =>
    rw [h.mem_split]
    constructor
    · rintro ⟨a, ha, hx⟩
      rcases (ih (left ++ [[a]])).mp (by simpa using hx) with ⟨rows, hrows, hx⟩
      refine ⟨a :: rows, .cons ha hrows, ?_⟩
      simpa using hx
    · rintro ⟨rows, hrows, hx⟩
      cases hrows with
      | @cons _ a _ rows ha hrows =>
        refine ⟨a, ha, ?_⟩
        have hx' := (ih (left ++ [[a]])).mpr ⟨rows, hrows, by simpa using hx⟩
        simpa using hx'

theorem mem_iff (h : Additive body) (data : List (List α)) (x : β) :
    x ∈ body data ↔ ∃ rows, List.Forall₂ (fun data row => row ∈ data) data rows ∧
      x ∈ body (rows.map fun row => [row]) :=
  h.mem_iff_from [] data x

/-- An empty list derives nothing. -/
theorem eq_nil_of_mem (h : Additive body) {data : List (List α)} (hdata : [] ∈ data) :
    body data = [] := by
  rcases append_of_mem hdata with ⟨left, right, rfl⟩
  exact eq_nil_iff_forall_not_mem.mpr (h.nil left right)

/-- A body that is given on tuples. -/
theorem of_tuples (f : List α → List β) : Additive fun data => data.sections.flatMap f := by
  have hmem : ∀ (A : List α) (right : List (List α)) (rows : List α),
      rows ∈ sections (A :: right) ↔ ∃ rest ∈ right.sections, ∃ a ∈ A, a :: rest = rows := by
    intro A right rows
    simp [sections]
  have hnil : ∀ (left right : List (List α)) (rows : List α),
      rows ∉ sections (left ++ [] :: right) := by
    intro left
    induction left with
    | nil =>
      intro right rows
      simp [sections]
    | cons A left ih =>
      intro right rows
      rw [cons_append, hmem]
      rintro ⟨rest, hrest, -⟩
      exact ih right rest hrest
  have happend : ∀ (left : List (List α)) (A B : List α) (right : List (List α))
      (rows : List α), rows ∈ sections (left ++ (A ++ B) :: right) ↔
        rows ∈ sections (left ++ A :: right) ∨
          rows ∈ sections (left ++ B :: right) := by
    intro left
    induction left with
    | nil =>
      intro A B right rows
      simp only [nil_append, hmem, mem_append, or_and_right, exists_or, and_or_left]
    | cons C left ih =>
      intro A B right rows
      simp only [cons_append, hmem, ih, or_and_right, exists_or]
  constructor
  · intro left right x hx
    rcases mem_flatMap.mp hx with ⟨rows, hrows, -⟩
    exact hnil left right rows hrows
  · intro left A B right x
    simp only [mem_flatMap, happend, or_and_right, exists_or]

end Additive

/-- What a pass reads at a position. -/
inductive Feed where
  | delta
  | old
  | full
  deriving DecidableEq

/-- Pass `pass` reads the new rows at its own position, the old ones before it and all rows
    after it. -/
def feedAt (pass j : Nat) : Feed :=
  match compare j pass with
  | .lt => .old
  | .eq => .delta
  | .gt => .full

section Passes

variable (View : Feed → ι → α → Prop) {scans : List ι} {rows : List α}

theorem forall₂_full_of_gt {pass k : Nat} (hk : pass < k)
    (h : List.Forall₂ (View .full) scans rows) :
    List.Forall₂ (fun p row => View (feedAt pass p.2) p.1 row) (scans.zipIdx k) rows := by
  induction h generalizing k with
  | nil => exact .nil
  | cons hrow _ ih =>
    refine .cons ?_ (ih (Nat.lt_succ_of_lt hk))
    rw [feedAt, Nat.compare_eq_gt.mpr hk]
    exact hrow

/-- A tuple is all old, or is met in one of the passes from position `k` on. -/
theorem exists_pass_from
    (hsplit : ∀ scan row, View .full scan row → View .old scan row ∨ View .delta scan row) (k : Nat)
    (h : List.Forall₂ (View .full) scans rows) :
    List.Forall₂ (View .old) scans rows ∨ ∃ pass, k ≤ pass ∧ pass < k + scans.length ∧
      List.Forall₂ (fun p row => View (feedAt pass p.2) p.1 row) (scans.zipIdx k) rows := by
  induction h generalizing k with
  | nil => exact .inl .nil
  | @cons scan row scans rows hrow hrows ih =>
    rcases hsplit scan row hrow with hold | hdelta
    · rcases ih (k + 1) with hall | ⟨pass, hle, hlt, hpass⟩
      · exact .inl (.cons hold hall)
      · refine .inr ⟨pass, Nat.le_of_succ_le hle, ?_, .cons ?_ hpass⟩
        · rw [length_cons]
          omega
        · rw [feedAt, Nat.compare_eq_lt.mpr hle]
          exact hold
    · refine .inr ⟨k, Nat.le_refl k, ?_,
        .cons ?_ (forall₂_full_of_gt View (Nat.lt_succ_self k) hrows)⟩
      · rw [length_cons]
        omega
      · rw [feedAt, Nat.compare_eq_eq.mpr rfl]
        exact hdelta

end Passes

end UniDb
