import Mathlib.Data.Nat.Bitwise
import Mathlib.Data.List.Basic

/-!
# Big-Endian Bytes

Numbers as lists of bytes with the most significant byte first, as keys of sorted stores have
them. The order of byte strings of one length is the order of the numbers they stand for.

## Main definitions

* `beBytes`: The bytes of a number, at a given length.
* `ofBeBytes`: The number that bytes stand for.

## Theorems

* `ofBeBytes_beBytes`, `beBytes_ofBeBytes`: Both round trips.
* `lt_iff_ofBeBytes_lt`: Bytes of one length compare as numbers.
* `append_lt_append_iff`: Fields of one length one after the other compare field by field.
-/

namespace UniDb

/-- The last `k` base-256 digits of `n`, from the most significant one on. -/
def beBytes : Nat → Nat → List UInt8
  | 0, _ => []
  | k + 1, n => UInt8.ofNat (n / 256 ^ k) :: beBytes k (n % 256 ^ k)

def ofBeBytes : List UInt8 → Nat
  | [] => 0
  | byte :: bytes => byte.toNat * 256 ^ bytes.length + ofBeBytes bytes

@[simp]
theorem length_beBytes (k n : Nat) : (beBytes k n).length = k := by
  induction k generalizing n with
  | zero => rfl
  | succ k ih => rw [beBytes, List.length_cons, ih]

theorem ofBeBytes_lt (bytes : List UInt8) : ofBeBytes bytes < 256 ^ bytes.length := by
  induction bytes with
  | nil => decide
  | cons byte bytes =>
    have hbyte : byte.toNat + 1 ≤ 256 := byte.toNat_lt
    have hmul := Nat.mul_le_mul_right (256 ^ bytes.length) hbyte
    rw [Nat.succ_mul] at hmul
    rw [ofBeBytes, List.length_cons, pow_succ']
    omega

theorem ofBeBytes_beBytes {k n : Nat} (h : n < 256 ^ k) : ofBeBytes (beBytes k n) = n := by
  induction k generalizing n with
  | zero =>
    rw [pow_zero, Nat.lt_one_iff] at h
    exact h.symm
  | succ k ih =>
    have hpos : 0 < 256 ^ k := Nat.pow_pos (by decide)
    have hhead : n / 256 ^ k < 256 := Nat.div_lt_of_lt_mul (by rwa [← pow_succ])
    rw [beBytes, ofBeBytes, length_beBytes, ih (Nat.mod_lt _ hpos),
      UInt8.toNat_ofNat_of_lt' hhead, Nat.div_add_mod']

theorem beBytes_ofBeBytes (bytes : List UInt8) :
    beBytes bytes.length (ofBeBytes bytes) = bytes := by
  induction bytes with
  | nil => rfl
  | cons byte bytes ih =>
    have hlt := ofBeBytes_lt bytes
    have hpos : 0 < 256 ^ bytes.length := Nat.pow_pos (by decide)
    rw [List.length_cons, beBytes, ofBeBytes, Nat.mul_comm, Nat.mul_add_div hpos,
      Nat.div_eq_of_lt hlt, Nat.mul_add_mod, Nat.mod_eq_of_lt hlt, ih, Nat.add_zero,
      UInt8.ofNat_toNat]

theorem lt_iff_ofBeBytes_lt {as bs : List UInt8} (h : as.length = bs.length) :
    as < bs ↔ ofBeBytes as < ofBeBytes bs := by
  induction as generalizing bs with
  | nil =>
    rw [List.eq_nil_of_length_eq_zero h.symm]
    exact iff_of_false (List.not_lt_nil []) (lt_irrefl _)
  | cons a as ih =>
    obtain _ | ⟨b, bs⟩ := bs
    · cases h
    · have hlen : as.length = bs.length := Nat.succ.inj h
      have ha := ofBeBytes_lt as
      have hb := ofBeBytes_lt bs
      rw [List.cons_lt_cons_iff, ih hlen, ofBeBytes, ofBeBytes, hlen, UInt8.lt_iff_toNat_lt,
        ← UInt8.toNat_inj]
      rw [hlen] at ha
      -- The first byte decides unless both have the same one.
      rcases lt_trichotomy a.toNat b.toNat with hlt | heq | hgt
      · have hmul := Nat.mul_le_mul_right (256 ^ bs.length) (Nat.succ_le_of_lt hlt)
        rw [Nat.succ_mul] at hmul
        exact iff_of_true (.inl hlt) (by omega)
      · rw [heq]
        simp only [lt_self_iff_false, false_or, true_and, Nat.add_lt_add_iff_left]
      · have hmul := Nat.mul_le_mul_right (256 ^ bs.length) (Nat.succ_le_of_lt hgt)
        rw [Nat.succ_mul] at hmul
        exact iff_of_false (by omega) (by omega)

theorem append_lt_append_iff {as bs cs ds : List UInt8} (h : as.length = bs.length) :
    as ++ cs < bs ++ ds ↔ as < bs ∨ as = bs ∧ cs < ds := by
  induction as generalizing bs with
  | nil =>
    rw [List.eq_nil_of_length_eq_zero h.symm]
    simp
  | cons a as ih =>
    obtain _ | ⟨b, bs⟩ := bs
    · cases h
    · rw [List.cons_append, List.cons_append, List.cons_lt_cons_iff, List.cons_lt_cons_iff,
        ih (Nat.succ.inj h), List.cons.injEq]
      tauto

end UniDb
