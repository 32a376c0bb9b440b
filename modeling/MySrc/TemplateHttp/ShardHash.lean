import Mathlib.Tactic.Ring
import MySrc.TemplateHttp.HttpRequestPacket

/-!
# MySrc.TemplateHttp.ShardHash

`SDUtility::hash_java` and `SDUtility::hash_gcid` of
`template_http/src/common/SDUtility.cpp`, whose values choose a table or a server.

Both run through the string with `31 * h + c` in an `int` and turn a negative value around at
the end.  The least `int` has no counterpart, so that it stays negative: `hash_nonneg_iff`
says which strings end there, by the sum that Java's documentation gives for `hashCode`.
-/

namespace MySrc

open Lib

namespace SDUtility

/-! ## the model -/

/-- A `char` as an `int`. -/
def signedChar (c : UInt8) : Int := if c < 128 then c.toNat else c.toNat - 256

/-- `h = 31*h + c` -/
def hashStep (h c : Int) : Int := i32 (31 * h + c)

/-- `for (int i = 0; i < str.size(); i++)`, where `i` is converted to a `size_t`; the list is
the string from `i` on. -/
def hashChars (size : Nat) : Str → Int → Int → Except Fault Int
  | [], i, h => if i % 2 ^ 64 < size then .error .outOfBounds else .ok h
  | c :: str, i, h =>
      if i % 2 ^ 64 < size then hashChars size str (i32 (i + 1)) (hashStep h (signedChar c))
      else .ok h

/-- `SDUtility::hash_java` -/
def hashJava (str : Str) : Except Fault Int := do
  let h ← hashChars str.length str 0 0
  if h < 0 then return i32 (0 - h) else return h

/-- `abs` of the C library, in an `int`. -/
def absInt (j : Int) : Int := if j < 0 then i32 (-j) else j

/-- `SDUtility::hash_gcid` -/
def hashGcid (str : Str) : Except Fault Int :=
  if str.isEmpty then .ok 0
  else do
    let result ← hashChars str.length str 0 1
    return absInt result

end SDUtility

/-- `String.hashCode` of Java, on the UTF-16 units of a string. -/
def javaHashCode (value : List UInt16) : Int :=
  value.foldl (fun h c => SDUtility.hashStep h c.toNat) 0

/-- The sum `c₀ * 31 ^ (n - 1) + c₁ * 31 ^ (n - 2) + … + cₙ₋₁`. -/
def powerSum : List Int → Int
  | [] => 0
  | c :: s => c * 31 ^ s.length + powerSum s

section

open SDUtility

variable {s : Str}

/-- The characters that the loop reads: its `int` does not count further. -/
def readChars (s : Str) : List Int := (s.take (2 ^ 31)).map signedChar

/-! ## the loop -/

/-- Wrapping at every character is wrapping the sum. -/
theorem foldl_hashStep (s : List Int) (a : Int) :
    s.foldl hashStep (i32 a) = i32 (a * 31 ^ s.length + powerSum s) := by
  induction s generalizing a with
  | nil => simp [powerSum]
  | cons c s ih =>
      have hstep : hashStep (i32 a) c = i32 (31 * a + c) := by
        rw [hashStep, ← i32_i32_add, i32_mul_i32, i32_i32_add]
      have hsum : (31 * a + c) * 31 ^ s.length + powerSum s =
          a * 31 ^ (c :: s).length + powerSum (c :: s) := by
        rw [powerSum, List.length_cons, pow_succ]
        ring
      rw [List.foldl_cons, hstep, ih, hsum]

/-- The loop ends with the string, or where its index becomes negative. -/
theorem hashChars_eq {size : Nat} (hsize : size < 2 ^ 63) (str : Str) (k : Nat)
    (hk : k + str.length = size) (hk' : k ≤ 2 ^ 31) (h : Int) :
    hashChars size str (i32 k) h =
      .ok (((str.take (2 ^ 31 - k)).map signedChar).foldl hashStep h) := by
  induction str generalizing k h with
  | nil =>
      rw [List.length_nil] at hk
      have hend : ¬ i32 k % 2 ^ 64 < size := by
        by_cases hlt : k < 2 ^ 31
        · rw [i32_eq_self ⟨by omega, by omega⟩]
          omega
        · rw [i32_of_overflow (by omega) (by omega)]
          omega
      rw [hashChars, if_neg hend, List.take_nil]
      rfl
  | cons c str ih =>
      rw [List.length_cons] at hk
      rw [hashChars]
      by_cases hlt : k < 2 ^ 31
      · have hturn : i32 k % 2 ^ 64 < size := by
          rw [i32_eq_self ⟨by omega, by omega⟩]
          omega
        have hnext : i32 (i32 k + 1) = i32 ((k + 1 : Nat) : Int) := by
          rw [i32_i32_add, Nat.cast_succ]
        have hleft : 2 ^ 31 - k = 2 ^ 31 - (k + 1) + 1 := by omega
        rw [if_pos hturn, hnext, ih (k + 1) (by omega) (by omega), hleft, List.take_succ_cons,
          List.map_cons, List.foldl_cons]
      · have hend : ¬ i32 k % 2 ^ 64 < size := by
          rw [i32_of_overflow (by omega) (by omega)]
          omega
        have hleft : 2 ^ 31 - k = 0 := by omega
        rw [if_neg hend, hleft, List.take_zero]
        rfl

/-- The loop from a first value: the sum, in an `int`. -/
theorem hashChars_str (hs : s.length < 2 ^ 63) {a : Int} (ha : IsI32 a) :
    hashChars s.length s 0 a =
      .ok (i32 (a * 31 ^ (readChars s).length + powerSum (readChars s))) := by
  have hzero : i32 ((0 : Nat) : Int) = 0 := i32_eq_self ⟨by decide, by decide⟩
  have hloop := hashChars_eq hs s 0 (Nat.zero_add _) (Nat.zero_le _) a
  rw [hzero] at hloop
  rw [hloop, ← foldl_hashStep, i32_eq_self ha]
  rfl

/-! ## the sign -/

/-- Only the least `int` stays negative. -/
theorem absInt_nonneg_iff {h : Int} (hh : IsI32 h) : 0 ≤ absInt h ↔ h ≠ -(2 ^ 31) := by
  unfold IsI32 at hh
  unfold absInt
  split
  · by_cases hmin : h = -(2 ^ 31)
    · rw [hmin]
      decide +kernel
    · rw [i32_eq_self ⟨by omega, by omega⟩]
      omega
  · omega

/-- Any other one becomes its absolute value. -/
theorem absInt_eq_natAbs_iff {h : Int} (hh : IsI32 h) : absInt h = h.natAbs ↔ h ≠ -(2 ^ 31) := by
  rw [← absInt_nonneg_iff hh]
  constructor
  · intro heq
    omega
  · intro hpos
    have hmin := (absInt_nonneg_iff hh).mp hpos
    unfold IsI32 at hh
    unfold absInt
    split
    · rw [i32_eq_self ⟨by omega, by omega⟩]
      omega
    · omega

/-- `hash_java` is the absolute value of the sum of powers, as an `int`. -/
theorem hashJava_eq (hs : s.length < 2 ^ 63) :
    hashJava s = .ok (absInt (i32 (powerSum (readChars s)))) := by
  rw [hashJava, hashChars_str hs ⟨by decide, by decide⟩, ok_bind, Int.zero_mul, Int.zero_add,
    absInt, Int.zero_sub]
  split <;> rfl

/-- `hash_gcid` is that of a sum that begins with 1. -/
theorem hashGcid_eq (hs : s.length < 2 ^ 63) (hne : s ≠ []) :
    hashGcid s = .ok (absInt (i32 (31 ^ (readChars s).length + powerSum (readChars s)))) := by
  rw [hashGcid, if_neg (by simpa using hne), hashChars_str hs ⟨by decide, by decide⟩, ok_bind,
    Int.one_mul]
  rfl

/-- A value of the loop is turned around, unless it is the least `int`. -/
theorem ok_absInt_nonneg_iff (x : Int) :
    (∃ h, (.ok (absInt (i32 x)) : Except Fault Int) = .ok h ∧ 0 ≤ h) ↔ x % 2 ^ 32 ≠ 2 ^ 31 := by
  rw [Ne, ← i32_eq_least_iff, ← Ne, ← absInt_nonneg_iff (isI32_i32 x)]
  simp

/-! ## hashCode -/

/-- `hashCode` of a string that is the same in both languages. -/
theorem javaHashCode_eq (hs : s.length < 2 ^ 31) (hascii : ∀ c ∈ s, c < 128) :
    javaHashCode (s.map UInt8.toUInt16) = i32 (powerSum (readChars s)) := by
  have hread : readChars s = s.map fun c => (c.toUInt16.toNat : Int) := by
    rw [readChars, List.take_of_length_le (by omega)]
    refine List.map_congr_left fun c hc => ?_
    rw [signedChar, if_pos (hascii c hc), UInt8.toNat_toUInt16]
  have hzero : i32 0 = 0 := i32_eq_self ⟨by decide, by decide⟩
  have hfold := foldl_hashStep (readChars s) 0
  rw [hzero, Int.zero_mul, Int.zero_add] at hfold
  rw [← hfold, hread, javaHashCode, List.foldl_map, List.foldl_map]

/-- **The hashes** of a string are indexes exactly when the sum of its characters is not the
least `int`; under the same condition `hash_java` is the absolute value of `hashCode`. -/
theorem hash_nonneg_iff (hs : s.length < 2 ^ 63) :
    ((∃ h, hashJava s = .ok h ∧ 0 ≤ h) ↔ powerSum (readChars s) % 2 ^ 32 ≠ 2 ^ 31) ∧
      ((∃ h, hashGcid s = .ok h ∧ 0 ≤ h) ↔
        (31 ^ (readChars s).length + powerSum (readChars s)) % 2 ^ 32 ≠ 2 ^ 31) ∧
      (s.length < 2 ^ 31 → (∀ c ∈ s, c < 128) →
        (hashJava s = .ok ↑(javaHashCode (s.map UInt8.toUInt16)).natAbs ↔
          powerSum (readChars s) % 2 ^ 32 ≠ 2 ^ 31)) := by
  refine ⟨?_, ?_, fun hjava hascii => ?_⟩
  · rw [hashJava_eq hs]
    exact ok_absInt_nonneg_iff _
  · by_cases hne : s = []
    · subst hne
      exact ⟨fun _ => by decide, fun _ => ⟨0, rfl, Int.le_refl 0⟩⟩
    · rw [hashGcid_eq hs hne]
      exact ok_absInt_nonneg_iff _
  · rw [hashJava_eq hs, javaHashCode_eq hjava hascii, Except.ok.injEq,
      absInt_eq_natAbs_iff (isI32_i32 _)]
    exact not_iff_not.mpr (i32_eq_least_iff _)

/-- Both hashes of a short string, and the number that Java has for it. -/
theorem hash_nonneg_iff_abc :
    (∃ h, hashJava (ascii ['a', 'b', 'c']) = .ok h ∧ 0 ≤ h) ∧
      (∃ h, hashGcid (ascii ['a', 'b', 'c']) = .ok h ∧ 0 ≤ h) ∧
      hashJava (ascii ['a', 'b', 'c']) = .ok 96354 := by
  obtain ⟨hjava, hgcid, hcode⟩ :=
    hash_nonneg_iff (show (ascii ['a', 'b', 'c']).length < 2 ^ 63 by decide)
  have habc : javaHashCode ((ascii ['a', 'b', 'c']).map UInt8.toUInt16) = 96354 := by
    decide +kernel
  have hcode' := hcode (by decide) (by simp [ascii])
  rw [habc] at hcode'
  exact ⟨hjava.mpr (by decide), hgcid.mpr (by decide), hcode'.mpr (by decide)⟩

/-- Two strings whose hash is the least `int`. -/
theorem hash_negative :
    (¬ ∃ h, hashJava (ascii "polygenelubricants".toList) = .ok h ∧ 0 ≤ h) ∧
      ¬ ∃ h, hashGcid (ascii "42GDF0F".toList) = .ok h ∧ 0 ≤ h := by
  have hjava : hashJava (ascii "polygenelubricants".toList) = .ok (-(2 ^ 31)) := by
    decide +kernel
  have hgcid : hashGcid (ascii "42GDF0F".toList) = .ok (-(2 ^ 31)) := by decide +kernel
  rw [hjava, hgcid]
  simp

end

end MySrc
