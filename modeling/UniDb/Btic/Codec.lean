import UniDb.Lib.BigEndian
import Mathlib.Data.Nat.Bitwise

/-!
# The Packed Form of Time Intervals

A BTIC value is a half-open interval of milliseconds with a word that describes its two bounds.
Its packed form has the three words one after the other, in big-endian order, with the sign bits
of the two bounds flipped, so that a store that compares bytes has the values in their order.

## Main definitions

* `RawBtic.validate`: The checks that a value has to pass.
* `Btic`: The values that pass them.
* `Btic.cmp`: The order of values.
* `encode`, `decode`, `decodeSlice`: The packed form.

## Theorems

* `toNat_flipSign`: A flipped sign bit moves the range of a bound up to start at zero.
* `RawBtic.ofBytes_toBytes`, `RawBtic.toBytes_ofBytes`: Both round trips, for all words.
* `decode_encode_canonical`: The packed form is canonical and keeps the order.
-/

namespace UniDb

/-- The order of `i64` turned into the order of `u64`. -/
def signFlip : UInt64 := 0x8000000000000000

/-- The bounds that stand for no bound. -/
def negInf : Int64 := Int64.minValue

@[inherit_doc negInf]
def posInf : Int64 := Int64.maxValue

inductive BticError
  | boundOrdering (lo hi : Int64)
  | granularityRange (code : UInt8)
  | reservedBits
  | sentinelMetadata
  | invalidLength (length : Nat)
  deriving DecidableEq

/-- Bounds and meta word before they are checked. -/
@[ext]
structure RawBtic where
  lo : Int64
  hi : Int64
  metaWord : UInt64
  deriving DecidableEq

namespace RawBtic

/-- The bits of the meta word from `shift` on, under a mask. -/
def field (btic : RawBtic) (shift mask : UInt64) : UInt64 := btic.metaWord >>> shift &&& mask

def loGranCode (btic : RawBtic) : UInt8 := (btic.field 60 0xF).toUInt8

def hiGranCode (btic : RawBtic) : UInt8 := (btic.field 56 0xF).toUInt8

def loCertCode (btic : RawBtic) : UInt8 := (btic.field 54 0x3).toUInt8

def hiCertCode (btic : RawBtic) : UInt8 := (btic.field 52 0x3).toUInt8

def version (btic : RawBtic) : UInt8 := (btic.field 48 0xF).toUInt8

def flags (btic : RawBtic) : UInt16 := (btic.field 32 0xFFFF).toUInt16

def reserved (btic : RawBtic) : UInt32 := (btic.field 0 0xFFFFFFFF).toUInt32

def validate (btic : RawBtic) : Except BticError Unit := do
  if btic.lo ≥ btic.hi then throw (.boundOrdering btic.lo btic.hi)
  if btic.loGranCode > 0xA then throw (.granularityRange btic.loGranCode)
  if btic.hiGranCode > 0xA then throw (.granularityRange btic.hiGranCode)
  if btic.version ≠ 0 ∨ btic.flags ≠ 0 ∨ btic.reserved ≠ 0 then throw .reservedBits
  -- A bound that stands for no bound has neither granularity nor certainty.
  if btic.lo = negInf then
    if btic.loGranCode ≠ 0 ∨ btic.loCertCode ≠ 0 then throw .sentinelMetadata
  if btic.hi = posInf then
    if btic.hiGranCode ≠ 0 ∨ btic.hiCertCode ≠ 0 then throw .sentinelMetadata

end RawBtic

/-- A value that passed its checks. -/
structure Btic extends RawBtic where
  valid : toRawBtic.validate = .ok ()

namespace Btic

def new (lo hi : Int64) (metaWord : UInt64) : Except BticError Btic :=
  match h : RawBtic.validate ⟨lo, hi, metaWord⟩ with
  | .error e => .error e
  | .ok () => .ok ⟨⟨lo, hi, metaWord⟩, h⟩

def cmp (a b : Btic) : Ordering :=
  ((compare a.lo b.lo).then (compare a.hi b.hi)).then (compare a.metaWord b.metaWord)

theorem new_eq_ok_iff {lo hi : Int64} {metaWord : UInt64} {btic : Btic} :
    new lo hi metaWord = .ok btic ↔ btic.toRawBtic = ⟨lo, hi, metaWord⟩ := by
  obtain ⟨raw, hvalid⟩ := btic
  unfold new
  split
  · next herr =>
    refine iff_of_false (nofun) fun h => ?_
    cases h
    exact nomatch herr.symm.trans hvalid
  · next hok =>
    refine ⟨fun h => ?_, fun h => ?_⟩
    · cases h
      rfl
    · cases h
      rfl

/-! ## The words -/

/-- A bound as the packed form has it. -/
def flipSign (bound : Int64) : UInt64 := bound.toUInt64 ^^^ signFlip

def unflipSign (word : UInt64) : Int64 := (word ^^^ signFlip).toInt64

def toBeBytes (word : UInt64) : List UInt8 := beBytes 8 word.toNat

def fromBeBytes (bytes : List UInt8) : UInt64 := UInt64.ofNat (ofBeBytes bytes)

theorem xor_two_pow_63 {n : Nat} (h : n < 2 ^ 64) :
    n ^^^ 2 ^ 63 = if n < 2 ^ 63 then n + 2 ^ 63 else n - 2 ^ 63 := by
  have hdiv : (n ^^^ 2 ^ 63) / 2 ^ 63 = n / 2 ^ 63 ^^^ 1 := Nat.xor_div_two_pow
  have hmod : (n ^^^ 2 ^ 63) % 2 ^ 63 = n % 2 ^ 63 ^^^ 0 := Nat.xor_mod_two_pow
  rw [Nat.xor_zero] at hmod
  by_cases hlt : n < 2 ^ 63
  · rw [Nat.div_eq_of_lt hlt, Nat.zero_xor] at hdiv
    rw [if_pos hlt]
    omega
  · have hone : n / 2 ^ 63 = 1 := by omega
    rw [hone, Nat.xor_self] at hdiv
    rw [if_neg hlt]
    omega

/-- A flipped sign bit moves the range of a bound up to start at zero. -/
theorem toNat_flipSign (bound : Int64) : ((flipSign bound).toNat : Int) = bound.toInt + 2 ^ 63 := by
  have hlt : bound.toUInt64.toNat < 2 ^ 64 := UInt64.toNat_lt _
  have hint : bound.toInt = if 2 * bound.toUInt64.toNat < 2 ^ 64 then
      (bound.toUInt64.toNat : Int) else (bound.toUInt64.toNat : Int) - (2 ^ 64 : Nat) :=
    BitVec.toInt_eq_toNat_cond bound.toBitVec
  have hxor : (flipSign bound).toNat = bound.toUInt64.toNat ^^^ 2 ^ 63 := UInt64.toNat_xor _ _
  rw [hxor, xor_two_pow_63 hlt, hint]
  split <;> split <;> omega

theorem flipSign_lt_iff (a b : Int64) : (flipSign a).toNat < (flipSign b).toNat ↔ a < b := by
  rw [Int64.lt_iff_toInt_lt, ← Int.ofNat_lt, toNat_flipSign, toNat_flipSign]
  omega

@[simp]
theorem unflipSign_flipSign (bound : Int64) : unflipSign (flipSign bound) = bound := by
  rw [unflipSign, flipSign, UInt64.xor_assoc, UInt64.xor_self, UInt64.xor_zero]
  rfl

variable (word : UInt64)

@[simp]
theorem flipSign_unflipSign : flipSign (unflipSign word) = word := by
  change word ^^^ signFlip ^^^ signFlip = word
  rw [UInt64.xor_assoc, UInt64.xor_self, UInt64.xor_zero]

theorem flipSign_inj {a b : Int64} : flipSign a = flipSign b ↔ a = b :=
  ⟨fun h => by rw [← unflipSign_flipSign a, h, unflipSign_flipSign], congrArg _⟩

@[simp]
theorem length_toBeBytes : (toBeBytes word).length = 8 := length_beBytes _ _

theorem ofBeBytes_toBeBytes : ofBeBytes (toBeBytes word) = word.toNat :=
  ofBeBytes_beBytes word.toNat_lt

@[simp]
theorem fromBeBytes_toBeBytes : fromBeBytes (toBeBytes word) = word := by
  rw [fromBeBytes, ofBeBytes_toBeBytes, UInt64.ofNat_toNat]

theorem toBeBytes_fromBeBytes {bytes : List UInt8} (h : bytes.length = 8) :
    toBeBytes (fromBeBytes bytes) = bytes := by
  have hlt := ofBeBytes_lt bytes
  have hround := beBytes_ofBeBytes bytes
  rw [h] at hlt hround
  rw [toBeBytes, fromBeBytes, UInt64.toNat_ofNat_of_lt' hlt, hround]

theorem toBeBytes_inj {a b : UInt64} : toBeBytes a = toBeBytes b ↔ a = b :=
  ⟨fun h => by rw [← fromBeBytes_toBeBytes a, h, fromBeBytes_toBeBytes], congrArg _⟩

theorem toBeBytes_lt_iff (a b : UInt64) : toBeBytes a < toBeBytes b ↔ a.toNat < b.toNat := by
  rw [lt_iff_ofBeBytes_lt (by simp), ofBeBytes_toBeBytes, ofBeBytes_toBeBytes]

/-! ## The packed form -/

/-- An array of 24 bytes. -/
abbrev Packed := { bytes : List UInt8 // bytes.length = 24 }

end Btic

namespace RawBtic

open Btic

def toBytes (btic : RawBtic) : List UInt8 :=
  toBeBytes (flipSign btic.lo) ++ (toBeBytes (flipSign btic.hi) ++ toBeBytes btic.metaWord)

def ofBytes (bytes : List UInt8) : RawBtic :=
  ⟨unflipSign (fromBeBytes (bytes.take 8)), unflipSign (fromBeBytes ((bytes.drop 8).take 8)),
    fromBeBytes (bytes.drop 16)⟩

theorem ofBytes_toBytes (btic : RawBtic) : ofBytes btic.toBytes = btic := by
  have hdrop : btic.toBytes.drop 16 = toBeBytes btic.metaWord := by
    rw [toBytes, ← List.append_assoc]
    exact List.drop_left' (by simp)
  have hrest : btic.toBytes.drop 8 = toBeBytes (flipSign btic.hi) ++ toBeBytes btic.metaWord :=
    List.drop_left' (by simp)
  rw [ofBytes, hdrop, hrest, toBytes, List.take_left' (by simp), List.take_left' (by simp)]
  simp

theorem toBytes_ofBytes {bytes : List UInt8} (h : bytes.length = 24) :
    (ofBytes bytes).toBytes = bytes := by
  have hdrop : bytes.drop 16 = (bytes.drop 8).drop 8 := by rw [List.drop_drop]
  simp only [toBytes, ofBytes, flipSign_unflipSign]
  rw [toBeBytes_fromBeBytes (by simp [h]), toBeBytes_fromBeBytes (by simp [h]),
    toBeBytes_fromBeBytes (by simp [h]), hdrop, List.take_append_drop, List.take_append_drop]

theorem toBytes_lt_iff (a b : RawBtic) :
    a.toBytes < b.toBytes ↔
      a.lo < b.lo ∨ a.lo = b.lo ∧ (a.hi < b.hi ∨ a.hi = b.hi ∧ a.metaWord < b.metaWord) := by
  rw [toBytes, toBytes, append_lt_append_iff (by simp), append_lt_append_iff (by simp),
    toBeBytes_lt_iff, toBeBytes_lt_iff, toBeBytes_lt_iff, flipSign_lt_iff, flipSign_lt_iff,
    toBeBytes_inj, toBeBytes_inj, flipSign_inj, flipSign_inj, UInt64.lt_iff_toNat_lt]

end RawBtic

namespace Btic

def encode (btic : Btic) : Packed := ⟨btic.toBytes, by simp [RawBtic.toBytes]⟩

def decode (bytes : Packed) : Except BticError Btic :=
  let raw := RawBtic.ofBytes bytes.1
  new raw.lo raw.hi raw.metaWord

def decodeSlice (bytes : List UInt8) : Except BticError Btic :=
  if h : bytes.length = 24 then decode ⟨bytes, h⟩ else .error (.invalidLength bytes.length)

theorem cmp_eq_lt_iff (a b : Btic) :
    a.cmp b = .lt ↔
      a.lo < b.lo ∨ a.lo = b.lo ∧ (a.hi < b.hi ∨ a.hi = b.hi ∧ a.metaWord < b.metaWord) := by
  simp only [cmp, Ordering.then_eq_lt, Ordering.then_eq_eq, Std.compare_eq_lt,
    Std.compare_eq_iff_eq]
  tauto

/-- A value comes back from its packed form, the order of packed forms is that of the values, and
    what is accepted, as an array or as a slice, is the packed form of what it is read as. -/
theorem decode_encode_canonical (a b : Btic) :
    decode (encode a) = .ok a ∧
      ((encode a).1 < (encode b).1 ↔ a.cmp b = .lt) ∧
      (∀ bytes btic, decode bytes = .ok btic → encode btic = bytes) ∧
      ∀ bytes btic, decodeSlice bytes = .ok btic → (encode btic).1 = bytes := by
  have haccepted : ∀ bytes btic, decode bytes = .ok btic → encode btic = bytes := by
    intro bytes btic h
    apply Subtype.ext
    change btic.toRawBtic.toBytes = bytes.1
    rw [new_eq_ok_iff.mp h, RawBtic.toBytes_ofBytes bytes.2]
  refine ⟨new_eq_ok_iff.mpr (RawBtic.ofBytes_toBytes _).symm, ?_, haccepted, ?_⟩
  · rw [cmp_eq_lt_iff]
    exact RawBtic.toBytes_lt_iff _ _
  · intro bytes btic h
    unfold decodeSlice at h
    split at h
    · exact congrArg Subtype.val (haccepted _ _ h)
    · cases h

example : decode (encode ⟨⟨negInf, posInf, 0⟩, rfl⟩) = .ok ⟨⟨negInf, posInf, 0⟩, rfl⟩ := rfl

end Btic

end UniDb
