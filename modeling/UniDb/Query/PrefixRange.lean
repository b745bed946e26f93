import Mathlib.Data.List.DropRight
import Mathlib.Data.List.Lex
import Mathlib.Order.Basic

/-!
# Prefix Ranges

A test for a prefix is pushed down as a range of strings, from the prefix up to
the next string that does not start with it.

Storage compares the bytes of UTF-8, and these are ordered as the code points
are. The upper bound skips the surrogates, and a prefix of the largest
characters has none.

## Theorems

* `bytes_lt_iff`: The order of the bytes is that of the code points.
* `startsWith_iff`: The range holds exactly what starts with the prefix.
-/

namespace UniDb.Pushdown

open List

/-- A code point that is not a surrogate. -/
abbrev Scalar := {c : Nat // c < 0xD800 ∨ 0xDFFF < c ∧ c ≤ 0x10FFFF}

/-- `char::MAX`. -/
def maxChar : Scalar := ⟨0x10FFFF, by decide⟩

def fromU32 (c : Nat) : Option Scalar := if h : _ then some ⟨c, h⟩ else none

def nextChar (c : Scalar) : Option Scalar :=
  if c.1 = 0xD7FF then some ⟨0xE000, by decide⟩ else fromU32 (c.1 + 1)

def incrementLastChar (s : List Scalar) : Option (List Scalar) := do
  let trimmed := s.rdropWhile (· = maxChar)
  let last ← trimmed.getLast?
  return trimmed.dropLast ++ [← nextChar last]

def utf8 (c : Nat) : List Nat :=
  if c < 0x80 then [c]
  else if c < 0x800 then [0xC0 + c / 64, 0x80 + c % 64]
  else if c < 0x10000 then [0xE0 + c / 4096, 0x80 + c / 64 % 64, 0x80 + c % 64]
  else [0xF0 + c / 262144, 0x80 + c / 4096 % 64, 0x80 + c / 64 % 64, 0x80 + c % 64]

def bytes (s : List Scalar) : List Nat := s.flatMap fun c => utf8 c.1

theorem utf8_ne_nil (c : Nat) : utf8 c ≠ [] := by
  unfold utf8
  split_ifs <;> exact cons_ne_nil _ _

/-- The first byte that differs decides, whatever follows. -/
theorem utf8_lt {c d : Nat} (h : c < d) (hd : d ≤ 0x10FFFF) (x y : List Nat) :
    utf8 c ++ x < utf8 d ++ y := by
  unfold utf8
  split_ifs <;> simp only [cons_append, nil_append, cons_lt_cons_iff] <;> omega

theorem append_lt_append (l x y : List Nat) : l ++ x < l ++ y ↔ x < y := by
  induction l with
  | nil => rfl
  | cons => simp_all

theorem bytes_lt_iff (s t : List Scalar) : bytes s < bytes t ↔ s < t := by
  induction s generalizing t with
  | nil =>
    cases t with
    | nil => simp
    | cons d t =>
      obtain ⟨b, bs, hb⟩ := exists_cons_of_ne_nil (utf8_ne_nil d.1)
      simp [bytes, hb]
  | cons c s ih =>
    cases t with
    | nil => simp [bytes]
    | cons d t =>
      rw [cons_lt_cons_iff]
      change utf8 c.1 ++ bytes s < utf8 d.1 ++ bytes t ↔ _
      -- the first characters decide, unless they are the same
      rcases lt_trichotomy c d with h | rfl | h
      · exact iff_of_true (utf8_lt h (by omega) _ _) (.inl h)
      · rw [append_lt_append, ih]
        simp
      · refine iff_of_false (List.lt_asymm (utf8_lt h (by omega) _ _)) ?_
        rintro (hlt | ⟨rfl, -⟩)
        · exact h.not_gt hlt
        · exact lt_irrefl _ h

theorem le_maxChar (c : Scalar) : c ≤ maxChar := by
  show c.1 ≤ 0x10FFFF
  omega

variable (k : Nat) (l s : List Scalar) {x y : Scalar}

/-- Only what starts with the largest characters is not below them. -/
theorem replicate_prefix_iff :
    replicate k maxChar <+: s ↔ ¬ s < replicate k maxChar := by
  induction k generalizing s with
  | zero => simp
  | succ k ih =>
    rw [replicate_succ]
    cases s with
    | nil => simp
    | cons c s =>
      rw [cons_prefix_cons, cons_lt_cons_iff, ih]
      rcases (le_maxChar c).eq_or_lt with rfl | hlt
      · simp
      · simp [hlt, hlt.ne']

/-- No character lies between `x` and `y`. -/
theorem prefix_iff (hlt : x < y) (hnext : ∀ c : Scalar, x ≤ c → c < y → c = x) :
    l ++ x :: replicate k maxChar <+: s ↔
      ¬ s < l ++ x :: replicate k maxChar ∧ s < l ++ [y] := by
  induction l generalizing s with
  | nil =>
    cases s with
    | nil => simp
    | cons c s =>
      -- below `x`, at `x`, or from `y` on
      simp only [nil_append, cons_prefix_cons, cons_lt_cons_iff, replicate_prefix_iff]
      rcases lt_trichotomy c x with h | rfl | h
      · simp [h, h.ne']
      · simp [hlt]
      · have hy : ¬ c < y := fun hcy => h.ne' (hnext c h.le hcy)
        simp [h.ne, hy]
  | cons a l ih =>
    cases s with
    | nil => simp
    | cons c s =>
      simp only [cons_append, cons_prefix_cons, cons_lt_cons_iff, ih]
      rcases lt_trichotomy c a with h | rfl | h
      · simp [h, h.ne']
      · simp
      · simp [h.ne, h.ne', h.not_gt]

theorem nextChar_spec (h : x ≠ maxChar) :
    ∃ y, nextChar x = some y ∧ x < y ∧ ∀ c : Scalar, x ≤ c → c < y → c = x := by
  have hne : x.1 ≠ 0x10FFFF := fun heq => h (Subtype.ext heq)
  -- between U+D7FF and U+E000 there are only surrogates
  have hbetween : ∀ c y : Scalar, y.1 = x.1 + 1 ∨ x.1 = 0xD7FF ∧ y.1 = 0xE000 →
      x.1 ≤ c.1 → c.1 < y.1 → c = x := by
    intro c y hy hle hlt
    exact Subtype.ext (by omega)
  by_cases hgap : x.1 = 0xD7FF
  · rw [nextChar, if_pos hgap]
    exact ⟨_, rfl, show x.1 < 0xE000 by omega, fun c => hbetween c _ (.inr ⟨hgap, rfl⟩)⟩
  · rw [nextChar, if_neg hgap, fromU32, dif_pos (by omega)]
    exact ⟨_, rfl, Nat.lt_succ_self x.1, fun c => hbetween c _ (.inl rfl)⟩

/-- What is trimmed and what is incremented. -/
theorem incrementLastChar_spec (p : List Scalar) :
    (∃ k, p = replicate k maxChar ∧ incrementLastChar p = none) ∨
    ∃ l x k y, p = l ++ x :: replicate k maxChar ∧ incrementLastChar p = some (l ++ [y]) ∧
      x < y ∧ ∀ c : Scalar, x ≤ c → c < y → c = x := by
  induction p using reverseRecOn with
  | nil => exact .inl ⟨0, rfl, rfl⟩
  | append_singleton p x ih =>
    by_cases hx : x = maxChar
    · -- trimmed, so the prefix before it decides
      subst hx
      have hstep : incrementLastChar (p ++ [maxChar]) = incrementLastChar p := by
        simp [incrementLastChar, rdropWhile_concat_pos]
      rw [hstep]
      rcases ih with ⟨k, rfl, h⟩ | ⟨l, x, k, y, rfl, h⟩
      · exact .inl ⟨k + 1, replicate_succ'.symm, h⟩
      · refine .inr ⟨l, x, k + 1, y, ?_, h⟩
        rw [replicate_succ', append_assoc, cons_append]
    · obtain ⟨y, hy, hbetween⟩ := nextChar_spec hx
      refine .inr ⟨p, x, 0, y, rfl, ?_, hbetween⟩
      simp [incrementLastChar, rdropWhile_concat_neg, hx, hy]

/-- The range of a prefix holds exactly the strings that start with it. -/
theorem startsWith_iff (p s : List Scalar) :
    p <+: s ↔ bytes p ≤ bytes s ∧
      ∀ u, incrementLastChar p = some u → bytes s < bytes u := by
  rw [← not_lt]
  simp only [bytes_lt_iff]
  rcases incrementLastChar_spec p with ⟨k, rfl, h⟩ | ⟨l, x, k, y, rfl, h, hlt, hnext⟩
  · simp [h, replicate_prefix_iff]
  · simp [h, prefix_iff k l s hlt hnext]

end UniDb.Pushdown
