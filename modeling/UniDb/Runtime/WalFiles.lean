import Mathlib.Algebra.Ring.Nat
import UniDb.Runtime.Wal

/-!
# The Files of the Log

A segment is stored under a name that begins with its sequence number in twenty
digits, so that the order of the names is the order of the numbers. The file is
an envelope of the digest and the text of the segment; older files are the text
alone. A replay skips by name what is not above the mark, and takes a file that
cannot be read for the end of the log if it is the last one.

The digest and the text are parameters. Files that disappear while they are read,
and the count of files by older writers, are left out.

## Main definitions

* `encodeSegmentEnvelope`, `decodeSegment`: The envelope.
* `parseLsnFromFilename`: The number at the beginning of a name.
* `replayFilesSince`: The segments above a mark.

## Theorems

* `name_lt_of_lsn_lt`: Names are in the order of their numbers.
* `readFiles_of_intact`, `readFiles_error`: Which files can be read.
* `replay_policy`: What a replay returns, and what the envelope guards.
-/

namespace UniDb

namespace Wal

open List

variable {V : Type}

/-- The digest, and the text of a segment. -/
structure Format (V : Type) where
  hash : List UInt8 → List UInt8
  parse : List UInt8 → Except String (WalSegment V)
  length_hash : ∀ payload, (hash payload).length = 64

def walV2Magic : List UInt8 := [85, 78, 73, 87, 65, 76, 50, 10]

def text (bytes : List UInt8) : Option String := String.fromUTF8? ⟨bytes.toArray⟩

namespace Format

variable (F : Format V)

def encodeSegmentEnvelope (payload : List UInt8) : List UInt8 :=
  walV2Magic ++ (F.hash payload ++ 10 :: payload)

def decodeSegment (bytes : List UInt8) : Except String (WalSegment V) :=
  match walV2Magic.isPrefixOf? bytes with
  | some rest =>
    if rest[64]? ≠ some 10 then .error "truncated v2 segment header"
    else if F.hash (rest.drop 65) ≠ rest.take 64 then
      -- a digest is text, so what is no text is none
      .error (match text (rest.take 64) with
        | none => "non-utf8 checksum header"
        | some expected => "checksum mismatch (expected " ++ expected ++ ", computed " ++
          (text (F.hash (rest.drop 65))).getD "" ++ ")")
    else (F.parse (rest.drop 65)).mapError ("v2 payload parse: " ++ ·)
  | none => (F.parse bytes).mapError ("legacy segment parse: " ++ ·)

def decodeFile (bytes : List UInt8) : Except String (WalSegment V) :=
  if bytes.isEmpty then .error "empty segment file" else F.decodeSegment bytes

/-- The digest of an envelope is the 64 bytes behind the magic, whatever they are. -/
theorem decodeSegment_envelope {hex : List UInt8} (hlen : hex.length = 64)
    (payload : List UInt8) :
    (hex = F.hash payload → F.decodeSegment (walV2Magic ++ (hex ++ 10 :: payload)) =
      (F.parse payload).mapError ("v2 payload parse: " ++ ·)) ∧
    (hex ≠ F.hash payload →
      ∃ e, F.decodeSegment (walV2Magic ++ (hex ++ 10 :: payload)) = .error e) := by
  have hmagic : walV2Magic.isPrefixOf? (walV2Magic ++ (hex ++ 10 :: payload)) =
      some (hex ++ 10 :: payload) := isPrefixOf?_eq_some_iff_append_eq.mpr rfl
  have hline : (hex ++ 10 :: payload)[64]? = some 10 := by
    rw [getElem?_append_right hlen.le, hlen]
    rfl
  have htake : (hex ++ 10 :: payload).take 64 = hex := by rw [take_left' hlen]
  have hdrop : (hex ++ 10 :: payload).drop 65 = payload := by
    rw [show 65 = hex.length + 1 by rw [hlen], ← drop_drop, drop_left]
    rfl
  rw [decodeSegment, hmagic]
  simp only [hline, htake, hdrop, ne_eq, not_true_eq_false, if_false]
  refine ⟨fun heq => ?_, fun hne => ?_⟩
  · rw [if_neg (not_not_intro heq.symm)]
  · rw [if_pos fun heq => hne heq.symm]
    exact ⟨_, rfl⟩

end Format

/-- The last `k` decimal digits of a number, as text. -/
def digits : Nat → Nat → List UInt8
  | 0, _ => []
  | k + 1, n => UInt8.ofNat (48 + n / 10 ^ k % 10) :: digits k n

def parseU64 (bytes : List UInt8) : Option Nat :=
  let ds := if bytes.head? = some 43 then bytes.tail else bytes
  if ds.isEmpty then none
  else (ds.foldlM (fun n d => if 48 ≤ d ∧ d ≤ 57 then some (n * 10 + (d.toNat - 48)) else none)
    0).filter (· < 2 ^ 64)

def parseLsnFromFilename (filename : List UInt8) : Option Nat :=
  if filename.length < 20 then none else parseU64 (filename.take 20)

theorem toNat_digit (n : Nat) : (UInt8.ofNat (48 + n % 10)).toNat = 48 + n % 10 := by
  rw [UInt8.toNat_ofNat']
  omega

theorem length_digits (k n : Nat) : (digits k n).length = k := by
  induction k with
  | zero => rfl
  | succ k ih => rw [digits, length_cons, ih]

/-- Fixed width makes the order of names that of numbers: the first digit that differs decides. -/
theorem digits_append_lt {k a b : Nat} (h : a % 10 ^ k < b % 10 ^ k) (x y : List UInt8) :
    digits k a ++ x < digits k b ++ y := by
  induction k with
  | zero => simp [Nat.mod_one] at h
  | succ k ih =>
    rw [Nat.mod_pow_succ, Nat.mod_pow_succ] at h
    rw [digits, digits, cons_append, cons_append, cons_lt_cons_iff, UInt8.lt_iff_toNat_lt,
      ← UInt8.toNat_inj, toNat_digit, toNat_digit]
    have ha := Nat.mod_lt a (Nat.pow_pos (n := k) (show 0 < 10 by decide))
    have hb := Nat.mod_lt b (Nat.pow_pos (n := k) (show 0 < 10 by decide))
    rcases Nat.lt_trichotomy (a / 10 ^ k % 10) (b / 10 ^ k % 10) with hlt | heq | hgt
    · exact .inl (by omega)
    · rw [heq] at h ⊢
      exact .inr ⟨rfl, ih (by omega)⟩
    -- a larger leading digit outweighs all that follow
    · have hmul := Nat.mul_le_mul_left (10 ^ k) (Nat.succ_le_of_lt hgt)
      rw [Nat.mul_succ] at hmul
      omega

/-- Reading the digits of a number gives it back. -/
theorem foldlM_digits (k n acc : Nat) :
    (digits k n).foldlM (fun n d => if 48 ≤ d ∧ d ≤ 57 then some (n * 10 + (d.toNat - 48))
      else none) acc = some (acc * 10 ^ k + n % 10 ^ k) := by
  induction k generalizing acc with
  | zero => simp [digits, Nat.mod_one]
  | succ k ih =>
    have hdigit : 48 ≤ UInt8.ofNat (48 + n / 10 ^ k % 10) ∧
        UInt8.ofNat (48 + n / 10 ^ k % 10) ≤ 57 := by
      rw [UInt8.le_iff_toNat_le, UInt8.le_iff_toNat_le, toNat_digit]
      exact ⟨Nat.le_add_right _ _, show _ ≤ 57 by omega⟩
    rw [digits, foldlM_cons, if_pos hdigit, Option.bind_eq_bind, Option.bind_some, ih, toNat_digit,
      Nat.mod_pow_succ, Nat.add_sub_cancel_left, Nat.pow_succ, Nat.add_mul, Nat.mul_assoc,
      Nat.mul_comm 10, Nat.mul_comm (10 ^ k) (_ % 10), Nat.add_assoc, Nat.add_comm (n % _)]

/-- A file name gives the number of its segment back, whatever follows it. Twenty digits hold every
    number of 64 bits. -/
theorem parse_digits {n : Nat} (h : n < 2 ^ 64) (suffix : List UInt8) :
    parseLsnFromFilename (digits 20 n ++ suffix) = some n := by
  have hlen : ¬ (digits 20 n ++ suffix).length < 20 := by
    rw [length_append, length_digits]
    omega
  have hhead : (digits 20 n).head? ≠ some 43 := by
    rw [digits, head?_cons, ne_eq, Option.some.injEq, ← UInt8.toNat_inj, toNat_digit]
    show 48 + _ ≠ 43
    omega
  have hempty : ¬ (digits 20 n).isEmpty := by simp [digits]
  rw [parseLsnFromFilename, if_neg hlen, take_left' (length_digits 20 n), parseU64]
  simp only [if_neg hhead, if_neg hempty, foldlM_digits]
  rw [Nat.zero_mul, Nat.zero_add, Nat.mod_eq_of_lt (h.trans (by decide))]
  exact Option.filter_eq_some_iff.mpr ⟨rfl, decide_eq_true h⟩

/-- A file of the store. -/
structure File where
  name : List UInt8
  bytes : List UInt8

def File.lsn (f : File) : Nat := (parseLsnFromFilename f.name).getD 0

/-- Read files in order. -/
def readFiles (F : Format V) (highWaterMark : Nat) : List File → Except String (List (WalSegment V))
  | [] => .ok []
  | f :: rest => match F.decodeFile f.bytes with
    | .error reason =>
      if rest.isEmpty then .ok []
      else .error ("corrupt WAL segment '" ++ (text f.name).getD "" ++ "' (" ++ reason ++
        ") with " ++ toString rest.length ++
        " later segment(s) present; refusing to skip — manual inspection required")
    | .ok segment =>
      (readFiles F highWaterMark rest).map fun segments =>
        if highWaterMark < segment.lsn then segment :: segments else segments

def replayFilesSince (F : Format V) (files : List File) (highWaterMark : Nat) :
    Except String (List (WalSegment V)) :=
  readFiles F highWaterMark
    ((files.filter fun f => (parseLsnFromFilename f.name).all (highWaterMark < ·)).insertionSort
      fun f g => f.name ≤ g.name)

variable {F : Format V} {f g : File} {files : List File} {highWaterMark : Nat}

def File.Intact (F : Format V) (f : File) : Prop := ∃ segment, F.decodeFile f.bytes = .ok segment

def File.segment? (F : Format V) (f : File) : Option (WalSegment V) :=
  (F.decodeFile f.bytes).toOption

/-- The name is one that the log gives to the segment in the file. -/
structure File.Stored (F : Format V) (f : File) : Prop where
  name : ∃ lsn suffix, lsn < 2 ^ 64 ∧ f.name = digits 20 lsn ++ suffix
  lsn : ∀ segment, F.decodeFile f.bytes = .ok segment → segment.lsn = f.lsn

theorem File.Stored.parse (h : f.Stored F) : parseLsnFromFilename f.name = some f.lsn := by
  rcases h.name with ⟨lsn, suffix, hlt, hname⟩
  rw [File.lsn, hname, parse_digits hlt]
  rfl

theorem File.Stored.lsn_segment (h : f.Stored F) {segment : WalSegment V}
    (hs : f.segment? F = some segment) : segment.lsn = f.lsn := by
  refine h.lsn segment ?_
  unfold File.segment? at hs
  cases hdecode : F.decodeFile f.bytes <;> rw [hdecode] at hs <;> cases hs
  rfl

/-- Sorting by names is sorting by numbers. -/
theorem name_lt_of_lsn_lt (hf : f.Stored F) (hg : g.Stored F) (h : f.lsn < g.lsn) :
    f.name < g.name := by
  rcases hf.name with ⟨a, x, ha, hx⟩
  rcases hg.name with ⟨b, y, hb, hy⟩
  rw [File.lsn, File.lsn, hx, hy, parse_digits ha, parse_digits hb] at h
  rw [hx, hy]
  refine digits_append_lt ?_ x y
  rwa [Nat.mod_eq_of_lt (ha.trans (by decide)), Nat.mod_eq_of_lt (hb.trans (by decide))]

/-- Only the last file may be broken. -/
theorem readFiles_of_intact (hstored : ∀ f ∈ files, f.Stored F)
    (habove : ∀ f ∈ files, highWaterMark < f.lsn)
    (h : files.Pairwise fun f _ => f.Intact F) :
    readFiles F highWaterMark files = .ok (files.filterMap (File.segment? F)) := by
  induction files with
  | nil => rfl
  | cons f files ih =>
    rw [pairwise_cons] at h
    rw [forall_mem_cons] at hstored habove
    cases hdecode : F.decodeFile f.bytes with
    | error reason =>
      -- a file behind it would make it intact
      have hnil : files = [] := eq_nil_iff_forall_not_mem.mpr fun g hg => by
        rcases h.1 g hg with ⟨segment, hok⟩
        rw [hdecode] at hok
        cases hok
      subst hnil
      simp [readFiles, hdecode, File.segment?, Except.toOption]
    | ok segment =>
      have hlsn := habove.1
      rw [← hstored.1.lsn segment hdecode] at hlsn
      simp [readFiles, hdecode, ih hstored.2 habove.2 h.2, File.segment?, Except.toOption,
        Except.map, hlsn]

/-- A broken file with a file behind it stops the replay. -/
theorem readFiles_error (h : ¬ files.Pairwise fun f _ => f.Intact F) :
    ∃ e, readFiles F highWaterMark files = .error e := by
  induction files with
  | nil => exact absurd .nil h
  | cons f files ih =>
    cases hdecode : F.decodeFile f.bytes with
    | error reason =>
      -- if it were the last file, only the last one would be broken
      have hne : ¬ files.isEmpty := fun hnil => by
        rw [isEmpty_iff.mp hnil] at h
        exact h (pairwise_singleton _ _)
      simp [readFiles, hdecode, hne]
    | ok segment =>
      rw [pairwise_cons, not_and] at h
      rcases ih (h fun _ _ => ⟨segment, hdecode⟩) with ⟨e, he⟩
      exact ⟨e, by simp [readFiles, hdecode, he, Except.map]⟩

/-- A replay reads the files above the mark, sorted by name. -/
theorem exists_sorted (highWaterMark : Nat) (hstored : ∀ f ∈ files, f.Stored F) :
    ∃ sorted, replayFilesSince F files highWaterMark = readFiles F highWaterMark sorted ∧
      sorted.Pairwise (fun f g => f.name ≤ g.name) ∧
      sorted ~ files.filter (highWaterMark < ·.lsn) := by
  have hfilter : (files.filter fun f => (parseLsnFromFilename f.name).all (highWaterMark < ·)) =
      files.filter (highWaterMark < ·.lsn) :=
    filter_congr fun f hf => by rw [(hstored f hf).parse]; rfl
  refine ⟨_, rfl, pairwise_insertionSort _ _, ?_⟩
  rw [hfilter]
  exact perm_insertionSort _ _

/-- If at most the file with the highest number cannot be read, a replay returns
    the segments above the mark in their order; if a file above the mark that is
    not the last one cannot be read, it fails. The envelope is read back, and a
    payload other than the one its digest is for is refused, as far as the hash
    tells them apart. -/
theorem replay_policy (F : Format V) (files : List File) (highWaterMark : Nat)
    (hstored : ∀ f ∈ files, f.Stored F) (hnodup : files.Nodup) :
    ((∀ f ∈ files, highWaterMark < f.lsn → ¬ f.Intact F → ∀ g ∈ files, g ≠ f → g.lsn < f.lsn) →
      ∃ segments, replayFilesSince F files highWaterMark = .ok segments ∧
        segments.Pairwise (·.lsn ≤ ·.lsn) ∧
        segments ~ (files.filter (highWaterMark < ·.lsn)).filterMap (File.segment? F)) ∧
    (∀ f ∈ files, highWaterMark < f.lsn → ¬ f.Intact F → (∃ g ∈ files, f.name < g.name) →
      ∃ e, replayFilesSince F files highWaterMark = .error e) ∧
    (∀ payload, F.decodeSegment (F.encodeSegmentEnvelope payload) =
      (F.parse payload).mapError ("v2 payload parse: " ++ ·)) ∧
    (∀ hex payload, hex.length = 64 → hex ≠ F.hash payload →
      ∃ e, F.decodeSegment (walV2Magic ++ (hex ++ 10 :: payload)) = .error e) ∧
    ∀ S, Set.InjOn F.hash S → ∀ payload ∈ S, ∀ payload' ∈ S, payload' ≠ payload →
      ∃ e, F.decodeSegment (walV2Magic ++ (F.hash payload ++ 10 :: payload')) = .error e := by
  rcases exists_sorted highWaterMark hstored with ⟨sorted, hread, hsort, hperm⟩
  rw [hread]
  have hmem : ∀ f ∈ sorted, f ∈ files ∧ highWaterMark < f.lsn := fun f hf => by
    simpa using hperm.mem_iff.mp hf
  have hsn : ∀ f ∈ sorted, f.Stored F := fun f hf => hstored f (hmem f hf).1
  refine ⟨fun htail => ?_, fun f hf habove hbroken ⟨g, hg, hlt⟩ => ?_,
    fun payload => (F.decodeSegment_envelope (F.length_hash payload) payload).1 rfl,
    fun hex payload hlen hne => (F.decodeSegment_envelope hlen payload).2 hne,
    fun S hinj payload hp payload' hp' hne =>
      (F.decodeSegment_envelope (F.length_hash payload) payload').2
        fun heq => hne (hinj hp hp' heq).symm⟩
  -- a broken file has the highest number, so none sorts behind it
  · have hintact : sorted.Pairwise fun f _ => f.Intact F := by
      refine (hsort.and (hperm.nodup_iff.mpr (hnodup.filter _))).imp_of_mem ?_
      rintro f g hf hg ⟨hle, hne⟩
      by_contra hbroken
      have hlt := htail f (hmem f hf).1 (hmem f hf).2 hbroken g (hmem g hg).1 hne.symm
      exact hle (name_lt_of_lsn_lt (hsn g hg) (hsn f hf) hlt)
    refine ⟨_, readFiles_of_intact hsn (fun f hf => (hmem f hf).2) hintact, ?_,
      hperm.filterMap _⟩
    refine pairwise_filterMap.mpr (hsort.imp_of_mem fun {f g} hf hg hle s hs s' hs' => ?_)
    rw [(hsn f hf).lsn_segment hs, (hsn g hg).lsn_segment hs']
    exact Nat.le_of_not_lt fun hlt => hle (name_lt_of_lsn_lt (hsn g hg) (hsn f hf) hlt)
  · have hle : f.lsn ≤ g.lsn := Nat.le_of_not_lt fun hgt =>
      List.lt_asymm hlt (name_lt_of_lsn_lt (hstored g hg) (hstored f hf) hgt)
    have hin : ∀ x ∈ files, highWaterMark < x.lsn → x ∈ sorted := fun x hx hmark =>
      hperm.mem_iff.mpr (by simp [hx, hmark])
    refine readFiles_error fun hintact => ?_
    -- one of the two files comes first
    have hboth := (hsort.and hintact).imp (S := fun f g : File =>
      (f.name ≤ g.name ∧ f.Intact F) ∨ g.name ≤ f.name ∧ g.Intact F) .inl
    have : Std.Symm fun f g : File =>
        (f.name ≤ g.name ∧ f.Intact F) ∨ g.name ≤ f.name ∧ g.Intact F := ⟨fun _ _ => Or.symm⟩
    rcases hboth.forall (hin f hf habove) (hin g hg (habove.trans_le hle))
      (fun heq => List.lt_irrefl _ (heq ▸ hlt)) with ⟨-, hok⟩ | ⟨hge, -⟩
    · exact hbroken hok
    · exact hge hlt

/-- The text of a segment without records is its number. -/
def demoFormat : Format Unit where
  hash payload := (payload ++ replicate 64 48).take 64
  parse
    | [lsn] => .ok ⟨lsn.toNat, [], []⟩
    | _ => .error "EOF"
  length_hash payload := by simp

def demoFile (lsn : Nat) (bytes : List UInt8) : File := ⟨digits 20 lsn ++ [95], bytes⟩

/-- An envelope, and a torn file behind it or in front of it. -/
theorem replay_policy_torn :
    (∃ segments, replayFilesSince demoFormat
        [demoFile 2 [], demoFile 1 (demoFormat.encodeSegmentEnvelope [1])] 0 = .ok segments ∧
      segments ~ [⟨1, [], []⟩]) ∧
    ∃ e, replayFilesSince demoFormat
      [demoFile 2 [], demoFile 3 (demoFormat.encodeSegmentEnvelope [3])] 0 = .error e := by
  have hempty : (demoFile 2 []).Stored demoFormat := ⟨⟨2, [95], by decide, rfl⟩, by rintro _ ⟨⟩⟩
  have hfirst : (demoFile 1 (demoFormat.encodeSegmentEnvelope [1])).Stored demoFormat :=
    ⟨⟨1, [95], by decide, rfl⟩, by rintro _ ⟨⟩; rfl⟩
  have hthird : (demoFile 3 (demoFormat.encodeSegmentEnvelope [3])).Stored demoFormat :=
    ⟨⟨3, [95], by decide, rfl⟩, by rintro _ ⟨⟩; rfl⟩
  have htail : ∀ f ∈ [demoFile 2 [], demoFile 1 (demoFormat.encodeSegmentEnvelope [1])],
      0 < f.lsn → ¬ f.Intact demoFormat → ∀ g ∈ [demoFile 2 [],
        demoFile 1 (demoFormat.encodeSegmentEnvelope [1])], g ≠ f → g.lsn < f.lsn := by
    simp only [forall_mem_cons, not_mem_nil, false_imp_iff, implies_true, and_true]
    exact ⟨fun _ _ => ⟨fun h => absurd rfl h, fun _ => by decide⟩,
      fun _ hbroken => absurd ⟨_, rfl⟩ hbroken⟩
  rcases (replay_policy demoFormat _ 0 (by simp [hempty, hfirst])
    (by simp [demoFile, Format.encodeSegmentEnvelope, walV2Magic])).1 htail with
    ⟨segments, hok, -, hperm⟩
  refine ⟨⟨segments, hok, hperm⟩, (replay_policy demoFormat _ 0 (by simp [hempty, hthird])
    (by simp [demoFile, Format.encodeSegmentEnvelope, walV2Magic])).2.1 (demoFile 2 [])
    mem_cons_self (by decide) ?_ ⟨_, mem_cons_of_mem _ mem_cons_self, by decide⟩⟩
  rintro ⟨_, ⟨⟩⟩

end Wal

end UniDb
