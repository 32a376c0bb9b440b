import Mathlib.Data.List.TakeDrop
import MySrc.TemplateHttp.HttpGrammar
import MySrc.TemplateHttp.UrlCode

/-!
# MySrc.TemplateHttp.HexString

Bytes as hex digits in `template_http/src/common/SDUtility.cpp`: `str2hex` prints two digits
for every byte, and `hexstr2byte` reads two digits for every byte.

`str2hex` takes its size as an `int` and `hexstr2byte` counts with an `unsigned int`, so that
a string longer than these hold is cut; `hex_roundtrip_iff` says where nothing is lost.
-/

namespace MySrc

open Lib

namespace SDUtility

/-! ## the model -/

/-- `sprintf(tmpbuf, "%02X", c)`, whose digits are those of `toHex`. -/
def sprintf02X (c : UInt8) : Str := [toHex (c >>> 4), toHex (c % 16)]

/-- The loop of `str2hex`, with the number of bytes to go. -/
def str2hexLoop : Nat → List UInt8 → Str → Except Fault Str
  | 0, _, ret_str => .ok ret_str
  | _ + 1, [], _ => .error .outOfBounds
  | n + 1, c :: buffer, ret_str => str2hexLoop n buffer (ret_str ++ sprintf02X c)

/-- `SDUtility::str2hex`: a size below zero ends the loop at once. -/
def str2hex (buf : List UInt8) (size : Int) : Except Fault Str := str2hexLoop size.toNat buf []

/-- `SDUtility::hex2int` -/
def hex2int (chr : UInt8) : Nat :=
  if 48 ≤ chr ∧ chr ≤ 57 then chr.toNat - 48
  else if 97 ≤ chr ∧ chr ≤ 102 then chr.toNat - 97 + 10
  else if 65 ≤ chr ∧ chr ≤ 70 then chr.toNat - 65 + 10
  else 0

/-- The loop of `hexstr2byte`, with the number of bytes to go: a value is narrowed to a
`char`. -/
def hexstr2byteLoop : Nat → List UInt8 → Str → Except Fault Str
  | 0, _, buff => .ok buff
  | n + 1, hi :: lo :: hex_ptr, buff =>
      hexstr2byteLoop n hex_ptr (buff ++ [UInt8.ofNat (16 * hex2int hi + hex2int lo)])
  | _ + 1, _, _ => .error .outOfBounds

/-- `SDUtility::hexstr2byte`: what it returns, and `binary_string` behind it. -/
def hexstr2byte (binary_string hex_string : Str) : Except Fault (Bool × Str) :=
  if hex_string.length % 2 ≠ 0 then .ok (false, binary_string)
  else do
    let buff_len := hex_string.length / 2 % 2 ^ 32
    let buff ← hexstr2byteLoop buff_len (hex_string ++ [0]) []
    return (true, buff)

/-- `str2hex(b.data(), b.size())`. -/
def str2hexOf (b : Str) : Except Fault Str := str2hex (b ++ [0]) (i32 b.length)

end SDUtility

section

open SDUtility

/-! ## one byte -/

theorem hex2int_lt (c : UInt8) : hex2int c < 16 := by
  simp only [hex2int, UInt8.le_iff_toNat_le, UInt8.reduceToNat]
  split_ifs <;> omega

theorem toNat_toHex {x : UInt8} (hx : x.toNat < 16) :
    (toHex x).toNat = if x.toNat < 10 then x.toNat + 48 else x.toNat + 55 := by
  simp only [toHex, gt_iff_lt, UInt8.lt_iff_toNat_lt, UInt8.reduceToNat]
  split_ifs <;> simp only [UInt8.toNat_add, UInt8.reduceToNat] <;> omega

/-- A digit that is printed is read back. -/
theorem hex2int_toHex {x : UInt8} (hx : x.toNat < 16) : hex2int (toHex x) = x.toNat := by
  simp only [hex2int, UInt8.le_iff_toNat_le, UInt8.reduceToNat, toNat_toHex hx]
  split_ifs <;> omega

theorem toNat_high (c : UInt8) : (c >>> 4).toNat = c.toNat / 16 := by
  rw [UInt8.toNat_shiftRight, Nat.shiftRight_eq_div_pow]
  rfl

/-- The two digits of a byte. -/
theorem byte_toHex (c : UInt8) :
    UInt8.ofNat (16 * hex2int (toHex (c >>> 4)) + hex2int (toHex (c % 16))) = c := by
  have hc := c.toNat_lt
  have hlow : (c % 16).toNat = c.toNat % 16 := UInt8.toNat_mod c 16
  rw [hex2int_toHex (by rw [toNat_high]; omega), hex2int_toHex (by omega), toNat_high, hlow,
    Nat.div_add_mod, UInt8.ofNat_toNat]

theorem toNat_upperCase (c : UInt8) :
    (if 97 ≤ c ∧ c ≤ 122 then c - 32 else c).toNat =
      if 97 ≤ c.toNat ∧ c.toNat ≤ 122 then c.toNat - 32 else c.toNat := by
  simp only [UInt8.le_iff_toNat_le, UInt8.reduceToNat]
  split
  · next h =>
      have hle : (32 : UInt8) ≤ c := by
        simp only [UInt8.le_iff_toNat_le, UInt8.reduceToNat]
        omega
      rw [UInt8.toNat_sub_of_le _ _ hle]
      rfl
  · rfl

/-- A digit that is read is printed in upper case. -/
theorem toHex_hex2int {c : UInt8} (hc : isxdigit c = true) :
    [toHex (UInt8.ofNat (hex2int c))] = upperCase [c] := by
  have hlt := hex2int_lt c
  have hnat : (UInt8.ofNat (hex2int c)).toNat = hex2int c :=
    UInt8.toNat_ofNat_of_lt' (show hex2int c < 256 by omega)
  simp only [isxdigit, decide_eq_true_eq, UInt8.le_iff_toNat_le, UInt8.reduceToNat] at hc
  rw [upperCase, List.map_cons, List.map_nil, List.cons.injEq, ← UInt8.toNat_inj,
    toNat_toHex (by omega), hnat, toNat_upperCase]
  refine ⟨?_, rfl⟩
  simp only [hex2int, UInt8.le_iff_toNat_le, UInt8.reduceToNat]
  split_ifs <;> omega

/-- The digits of the byte that two digits make. -/
theorem sprintf02X_pair {hi lo : UInt8} (hhi : isxdigit hi = true) (hlo : isxdigit lo = true) :
    sprintf02X (UInt8.ofNat (16 * hex2int hi + hex2int lo)) = upperCase [hi, lo] := by
  have hhi' := hex2int_lt hi
  have hlo' := hex2int_lt lo
  have hnat : ∀ n < 256, (UInt8.ofNat n).toNat = n := fun n hn => UInt8.toNat_ofNat_of_lt' hn
  have hhigh : UInt8.ofNat (16 * hex2int hi + hex2int lo) >>> 4 = UInt8.ofNat (hex2int hi) := by
    rw [← UInt8.toNat_inj, toNat_high, hnat _ (by omega), hnat _ (by omega)]
    omega
  have hlow : UInt8.ofNat (16 * hex2int hi + hex2int lo) % 16 = UInt8.ofNat (hex2int lo) := by
    rw [← UInt8.toNat_inj, UInt8.toNat_mod, hnat _ (by omega), hnat _ (by omega), Nat.mul_comm]
    exact Nat.mul_add_mod_of_lt hlo'
  rw [sprintf02X, hhigh, hlow, ← List.singleton_append, toHex_hex2int hhi, toHex_hex2int hlo]
  rfl

@[simp] theorem length_sprintf02X (c : UInt8) : (sprintf02X c).length = 2 := rfl

theorem length_flatMap_sprintf02X (b : Str) : (b.flatMap sprintf02X).length = 2 * b.length := by
  induction b with
  | nil => rfl
  | cons c b ih =>
      rw [List.flatMap_cons, List.length_append, length_sprintf02X, ih, List.length_cons]
      omega

/-! ## the loops -/

/-- `str2hex` prints the bytes of its size. -/
theorem str2hexLoop_eq (b t ret : Str) :
    str2hexLoop b.length (b ++ t) ret = .ok (ret ++ b.flatMap sprintf02X) := by
  induction b generalizing ret with
  | nil => simp [str2hexLoop]
  | cons c b ih =>
      rw [List.cons_append, List.length_cons, str2hexLoop, ih, List.flatMap_cons,
        List.append_assoc]

/-- The bytes of a string that an `int` size reaches. -/
theorem str2hexOf_eq (b : Str) :
    str2hexOf b = .ok ((b.take (i32 b.length).toNat).flatMap sprintf02X) := by
  have hle : (i32 b.length).toNat ≤ b.length := by
    have h := i32_natCast_le b.length
    omega
  have hlen : (b.take (i32 b.length).toNat).length = (i32 b.length).toNat := by
    rw [List.length_take, Nat.min_eq_left hle]
  have hsplit : b ++ [0] = b.take (i32 b.length).toNat ++ (b.drop (i32 b.length).toNat ++ [0]) := by
    rw [← List.append_assoc, List.take_append_drop]
  rw [str2hexOf, str2hex]
  conv_lhs => rw [← hlen, hsplit]
  rw [str2hexLoop_eq, List.nil_append]

/-- What is printed is read back. -/
theorem hexstr2byteLoop_flatMap (b t buff : Str) :
    hexstr2byteLoop b.length (b.flatMap sprintf02X ++ t) buff = .ok (buff ++ b) := by
  induction b generalizing buff with
  | nil => simp [hexstr2byteLoop]
  | cons c b ih =>
      have hcons : (c :: b).flatMap sprintf02X ++ t =
          toHex (c >>> 4) :: toHex (c % 16) :: (b.flatMap sprintf02X ++ t) := rfl
      rw [hcons, List.length_cons, hexstr2byteLoop, byte_toHex, ih, List.append_assoc,
        List.singleton_append]

/-- Two characters are read for every byte, and the bytes of digits are printed as these
digits. -/
theorem hexstr2byteLoop_spec (n : Nat) {h : Str} (hn : 2 * n ≤ h.length) (t buff : Str) :
    ∃ b : Str, b.length = n ∧ hexstr2byteLoop n (h ++ t) buff = .ok (buff ++ b) ∧
      ((∀ c ∈ h, isxdigit c = true) → b.flatMap sprintf02X = upperCase (h.take (2 * n))) := by
  induction n generalizing h buff with
  | zero => exact ⟨[], rfl, by rw [hexstr2byteLoop, List.append_nil], fun _ => rfl⟩
  | succ n ih =>
      cases h with
      | nil => simp at hn
      | cons hi h =>
          cases h with
          | nil => simp at hn; omega
          | cons lo h =>
              have hn' : 2 * n ≤ h.length := by
                simp only [List.length_cons] at hn
                omega
              obtain ⟨b, hlen, hloop, hdigits⟩ :=
                ih hn' (buff ++ [UInt8.ofNat (16 * hex2int hi + hex2int lo)])
              refine ⟨UInt8.ofNat (16 * hex2int hi + hex2int lo) :: b, by simp [hlen], ?_,
                fun hx => ?_⟩
              · rw [List.cons_append, List.cons_append, hexstr2byteLoop, hloop, List.append_assoc,
                  List.singleton_append]
              · have hpair := sprintf02X_pair (hx hi (by simp)) (hx lo (by simp))
                have hrest := hdigits fun c hc => hx c (by simp [hc])
                rw [List.flatMap_cons, hpair, hrest, Nat.mul_succ]
                rfl

/-! ## hexstr2byte -/

/-- Text of odd length is refused. -/
theorem hexstr2byte_odd {h : Str} (hodd : h.length % 2 = 1) (old : Str) :
    hexstr2byte old h = .ok (false, old) := by
  rw [hexstr2byte, if_pos (by omega)]

/-- The bytes that were printed. -/
theorem hexstr2byte_flatMap {b : Str} (hlen : b.length < 2 ^ 32) (old : Str) :
    hexstr2byte old (b.flatMap sprintf02X) = .ok (true, b) := by
  have hhalf : 2 * b.length / 2 % 2 ^ 32 = b.length := by omega
  rw [hexstr2byte, length_flatMap_sprintf02X, if_neg (by omega)]
  simp only [hhalf, hexstr2byteLoop_flatMap, ok_bind, List.nil_append]
  rfl

/-- The bytes of an even number of digits, as far as an `unsigned int` counts them. -/
theorem hexstr2byte_even {h : Str} (heven : h.length % 2 = 0) (old : Str) :
    ∃ b, hexstr2byte old h = .ok (true, b) ∧ b.length = h.length / 2 % 2 ^ 32 ∧
      ((∀ c ∈ h, isxdigit c = true) →
        b.flatMap sprintf02X = upperCase (h.take (2 * (h.length / 2 % 2 ^ 32)))) := by
  have hle : 2 * (h.length / 2 % 2 ^ 32) ≤ h.length := by
    have hmod := Nat.mod_le (h.length / 2) (2 ^ 32)
    omega
  obtain ⟨b, hlen, hloop, hdigits⟩ := hexstr2byteLoop_spec _ hle [0] []
  refine ⟨b, ?_, hlen, hdigits⟩
  rw [hexstr2byte, if_neg (by omega)]
  simp only [hloop, ok_bind, List.nil_append]
  rfl

/-! ## both ways -/

/-- An `int` holds a length that it keeps. -/
theorem length_le_i32_iff (n : Nat) : n ≤ (i32 n).toNat ↔ n < 2 ^ 31 := by
  have hle := (isI32_i32 n).2
  constructor
  · intro h
    omega
  · intro h
    rw [i32_eq_self ⟨by omega, by omega⟩, Int.toNat_natCast]

/-- Bytes come back from their text, as many as their length says as an `int`. -/
theorem hexstr2byte_str2hex (b old : Str) :
    (str2hexOf b >>= hexstr2byte old) = .ok (true, b.take (i32 b.length).toNat) := by
  have hlt : (b.take (i32 b.length).toNat).length < 2 ^ 32 := by
    have h := (isI32_i32 b.length).2
    rw [List.length_take]
    omega
  rw [str2hexOf_eq, ok_bind, hexstr2byte_flatMap hlt]

/-- **Hex strings**: bytes come back from their digits exactly when an `int` holds their
number, digits come back in upper case from their bytes exactly when it holds the number of
these, and an odd number of digits leaves the output as it was. -/
theorem hex_roundtrip_iff (old : Str) :
    (∀ b : Str, (str2hexOf b >>= hexstr2byte old) = .ok (true, b) ↔ b.length < 2 ^ 31) ∧
      (∀ h : Str, (∀ c ∈ h, isxdigit c = true) → h.length % 2 = 0 →
        ∃ b, hexstr2byte old h = .ok (true, b) ∧
          (str2hexOf b = .ok (upperCase h) ↔ h.length < 2 ^ 32)) ∧
      ∀ h : Str, h.length % 2 = 1 → hexstr2byte old h = .ok (false, old) := by
  refine ⟨fun b => ?_, fun h hx heven => ?_, fun h hodd => hexstr2byte_odd hodd old⟩
  · rw [hexstr2byte_str2hex, Except.ok.injEq, Prod.mk.injEq, ← length_le_i32_iff,
      ← List.take_eq_self_iff]
    exact and_iff_right rfl
  · obtain ⟨b, hb, hlen, hdigits⟩ := hexstr2byte_even heven old
    refine ⟨b, hb, ?_⟩
    rw [str2hexOf_eq, Except.ok.injEq]
    constructor
    · intro heq
      have hcount := congrArg List.length heq
      have hlt := (isI32_i32 b.length).2
      rw [length_flatMap_sprintf02X, List.length_take, upperCase, List.length_map] at hcount
      omega
    · intro hlt
      have hall : h.length / 2 % 2 ^ 32 = h.length / 2 := by omega
      rw [List.take_of_length_le ((length_le_i32_iff _).mpr (by omega)), hdigits hx, hall,
        List.take_of_length_le (by omega)]

/-- Bytes with a NUL come back, and text in both cases comes back in upper case. -/
theorem hex_roundtrip_iff_nul :
    (str2hexOf [0, 255] >>= hexstr2byte []) = .ok (true, [0, 255]) ∧
      (∃ b, hexstr2byte [] (ascii ['0', '0', 'f', 'F']) = .ok (true, b) ∧
        str2hexOf b = .ok (ascii ['0', '0', 'F', 'F'])) ∧
      hexstr2byte [7] (ascii ['f']) = .ok (false, [7]) := by
  refine ⟨((hex_roundtrip_iff []).1 [0, 255]).mpr (by decide), ?_,
    (hex_roundtrip_iff [7]).2.2 _ (by decide)⟩
  have h := (hex_roundtrip_iff []).2.1 (ascii ['0', '0', 'f', 'F']) (by simp [ascii, isxdigit])
    (by decide)
  obtain ⟨b, hb, hiff⟩ := h
  exact ⟨b, hb, hiff.mpr (by decide)⟩

/-- The size of `2 ^ 31` bytes is below zero as an `int`, and nothing is printed. -/
theorem hexstr2byte_str2hex_long {b : Str} (hlen : b.length = 2 ^ 31) :
    (str2hexOf b >>= hexstr2byte []) = .ok (true, []) ∧ b ≠ [] := by
  have hsize : (i32 ((2 ^ 31 : Nat) : Int)).toNat = 0 := by
    rw [i32_of_overflow (by decide) (by decide)]
    decide
  refine ⟨by rw [hexstr2byte_str2hex, hlen, hsize, List.take_zero], ?_⟩
  rintro rfl
  exact absurd hlen (by decide)

/-- The length of 2^31 bytes is negative as an `int`: they do not come back. -/
theorem hex_loses_long_string :
    (str2hexOf (List.replicate (2 ^ 31) 0) >>= hexstr2byte []) ≠
      .ok (true, List.replicate (2 ^ 31) 0) := by
  obtain ⟨hempty, hne⟩ := hexstr2byte_str2hex_long (List.length_replicate (n := 2 ^ 31) (a := 0))
  rw [hempty]
  intro h
  exact hne (Prod.mk.inj (Except.ok.inj h)).2.symm

end

end MySrc
