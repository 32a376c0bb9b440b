import Mathlib.Data.Nat.Bitwise
import MySrc.Lib.Run
import MySrc.Lib.Leb128

/-!
# MySrc.Mycache.Coding

The varint half of `mycache/src/util/coding.h`.

An encoder returns the bytes it writes at `dst`, so the pointer it returns is
`dst` plus their number.  A decoder reads a buffer at the position `p`; it
returns the new position, `none` for `NULL`, and what it stored in `*value`,
`none` when it stored nothing.

Both encoders write the base-128 bytes of the value (`encodeVarint32_eq`,
`encodeVarint64_eq`), although one is five unrolled branches and the other a
loop; the decoders share one loop, so one induction over these bytes
(`getVarintFallback_leb128`) settles both widths and every cut position.
-/

namespace MySrc

open Lib

/-! ## encoders -/

/-- A store through an `unsigned char *` keeps the low eight bits. -/
def toByte (x : BitVec w) : UInt8 := UInt8.ofNat x.toNat

/-- `encode_varint32`. -/
def encodeVarint32 (v : BitVec 32) : List UInt8 :=
  let B : BitVec 32 := 128
  if v.toNat < 1 <<< 7 then
    [toByte v]
  else if v.toNat < 1 <<< 14 then
    [toByte (v ||| B), toByte (v >>> 7)]
  else if v.toNat < 1 <<< 21 then
    [toByte (v ||| B), toByte (v >>> 7 ||| B), toByte (v >>> 14)]
  else if v.toNat < 1 <<< 28 then
    [toByte (v ||| B), toByte (v >>> 7 ||| B), toByte (v >>> 14 ||| B), toByte (v >>> 21)]
  else
    [toByte (v ||| B), toByte (v >>> 7 ||| B), toByte (v >>> 14 ||| B), toByte (v >>> 21 ||| B),
      toByte (v >>> 28)]

/-- `encode_varint64`. -/
def encodeVarint64 (v : BitVec 64) : List UInt8 :=
  let B : BitVec 64 := 128
  if v ≥ B then
    toByte ((v &&& (B - 1)) ||| B) :: encodeVarint64 (v >>> 7)
  else
    [toByte v]
termination_by v.toNat
decreasing_by
  have h : 128 ≤ v.toNat := ‹v ≥ B›
  simp only [BitVec.toNat_ushiftRight, Nat.shiftRight_eq_div_pow]
  omega

/-! ## decoders -/

/-- The loop of `get_varint32_fallback` and `get_varint64_fallback`, which
differ in the width of the value and in the last shift they allow. -/
def getVarintFallback (w maxShift : Nat) (buf : List UInt8) (limit : Nat) (p shift : Nat)
    (result : BitVec w) : Except Fault (Option Nat × Option (BitVec w)) :=
  if shift ≤ maxShift ∧ p < limit then
    match buf[p]? with
    | none => .error .outOfBounds
    | some b =>
        let byte : BitVec w := BitVec.ofNat w b.toNat
        if byte &&& 128 ≠ 0 then
          -- more bytes are present
          getVarintFallback w maxShift buf limit (p + 1) (shift + 7)
            (result ||| (byte &&& 127) <<< shift)
        else
          .ok (some (p + 1), some (result ||| byte <<< shift))
  else
    .ok (none, none)
termination_by maxShift + 1 - shift

/-- `get_varint32_fallback`. -/
def getVarint32Fallback (buf : List UInt8) (p limit : Nat) :
    Except Fault (Option Nat × Option (BitVec 32)) :=
  getVarintFallback 32 28 buf limit p 0 0

/-- `get_varint64_fallback`. -/
def getVarint64Fallback (buf : List UInt8) (p limit : Nat) :
    Except Fault (Option Nat × Option (BitVec 64)) :=
  getVarintFallback 64 63 buf limit p 0 0

/-- `get_varint32_data_ptr`: a one-byte value is read without the loop. -/
def getVarint32DataPtr (buf : List UInt8) (p limit : Nat) :
    Except Fault (Option Nat × Option (BitVec 32)) :=
  if p < limit then
    match buf[p]? with
    | none => .error .outOfBounds
    | some b =>
        let result : BitVec 32 := BitVec.ofNat 32 b.toNat
        if result &&& 128 = 0 then .ok (some (p + 1), some result)
        else getVarint32Fallback buf p limit
  else
    getVarint32Fallback buf p limit

/-- `get_varint64_data_ptr`. -/
def getVarint64DataPtr (buf : List UInt8) (p limit : Nat) :
    Except Fault (Option Nat × Option (BitVec 64)) :=
  getVarint64Fallback buf p limit

/-! ## bytes and shifts as arithmetic -/

/-- Setting bit 7 and keeping the low byte. -/
theorem or_128_mod_256 (n : Nat) : (n ||| 128) % 256 = n % 128 + 128 := by
  have hlow : (n ||| 128) % 2 ^ 7 = n % 2 ^ 7 := by
    rw [Nat.or_mod_two_pow, show 128 % 2 ^ 7 = 0 from rfl, Nat.or_zero]
  have hbit : (n ||| 128) / 2 ^ 7 % 2 = 1 := by
    have h7 : (n ||| 128).testBit 7 = true := by
      rw [Nat.testBit_or, show (128 : Nat) = 2 ^ 7 from rfl, Nat.testBit_two_pow_self, Bool.or_true]
    rwa [Nat.testBit_eq_decide_div_mod_eq, decide_eq_true_eq] at h7
  omega

theorem toByte_or_128 (x : BitVec w) (hw : 8 ≤ w) :
    toByte (x ||| 128) = UInt8.ofNat (x.toNat % 128 + 128) := by
  have h128 : (128 : BitVec w).toNat = 128 :=
    Nat.mod_eq_of_lt (Nat.lt_of_lt_of_le (by decide) (Nat.pow_le_pow_right (by decide) hw))
  rw [toByte, ← UInt8.toNat_inj, UInt8.toNat_ofNat', UInt8.toNat_ofNat', BitVec.toNat_or, h128]
  have := or_128_mod_256 x.toNat
  omega

theorem toNat_ushiftRight_7 (x : BitVec w) : (x >>> 7).toNat = x.toNat / 128 := by
  rw [BitVec.toNat_ushiftRight, Nat.shiftRight_eq_div_pow]

/-- The unrolled encoder writes the base-128 bytes of its argument. -/
theorem encodeVarint32_eq (v : BitVec 32) : encodeVarint32 v = leb128 v.toNat := by
  have h14 : v >>> 14 = v >>> 7 >>> 7 := by rw [← BitVec.shiftRight_add]
  have h21 : v >>> 21 = v >>> 7 >>> 7 >>> 7 := by simp only [← BitVec.shiftRight_add]
  have h28 : v >>> 28 = v >>> 7 >>> 7 >>> 7 >>> 7 := by simp only [← BitVec.shiftRight_add]
  have hlt := v.isLt
  simp only [encodeVarint32, h14, h21, h28, toByte_or_128 _ (show 8 ≤ 32 by decide)]
  simp only [toNat_ushiftRight_7, toByte, Nat.one_shiftLeft]
  generalize v.toNat = n at hlt ⊢
  split
  · rw [leb128_of_lt (by omega)]
  · rw [leb128_of_le (by omega)]
    split
    · rw [leb128_of_lt (by omega)]
    · rw [leb128_of_le (by omega)]
      split
      · rw [leb128_of_lt (by omega)]
      · rw [leb128_of_le (by omega)]
        split
        · rw [leb128_of_lt (by omega)]
        · rw [leb128_of_le (by omega), leb128_of_lt (by omega)]

/-- The loop encoder writes the base-128 bytes of its argument. -/
theorem encodeVarint64_eq (v : BitVec 64) : encodeVarint64 v = leb128 v.toNat := by
  induction v using encodeVarint64.induct with
  | case1 v B hge ih =>
      have hge' : 128 ≤ v.toNat := hge
      rw [encodeVarint64, if_pos hge, ih, toByte_or_128 _ (by decide), toNat_ushiftRight_7,
        leb128_of_le hge']
      have hmask : (v &&& (128 - 1)).toNat = v.toNat % 128 := Nat.and_two_pow_sub_one_eq_mod _ 7
      rw [hmask, Nat.mod_mod]
  | case2 v B hlt =>
      have hlt' : v.toNat < 128 := Nat.lt_of_not_le hlt
      rw [encodeVarint64, if_neg hlt, leb128_of_lt hlt', toByte]

/-! ## reading one encoding back -/

section Loop

variable {w maxShift : Nat} (hw : 8 ≤ w)
include hw

/-- A byte read into a wider variable keeps its value. -/
theorem toNat_ofNat_byte (b : UInt8) : (BitVec.ofNat w b.toNat).toNat = b.toNat := by
  have h256 : 2 ^ 8 ≤ 2 ^ w := Nat.pow_le_pow_right (by decide) hw
  have := b.toNat_lt
  rw [BitVec.toNat_ofNat, Nat.mod_eq_of_lt (by omega)]

/-- The loop tests the top bit of the byte it has read. -/
theorem and_128_eq_zero_iff (b : UInt8) : BitVec.ofNat w b.toNat &&& 128 = 0 ↔ b.toNat < 128 := by
  have h128 : (128 : BitVec w).toNat = 2 ^ 7 :=
    Nat.mod_eq_of_lt (Nat.lt_of_lt_of_le (by decide) (Nat.pow_le_pow_right (by decide) hw))
  have h0 : (0 : BitVec w).toNat = 0 := Nat.zero_mod _
  have := b.toNat_lt
  rw [← BitVec.toNat_inj, BitVec.toNat_and, h128, h0, toNat_ofNat_byte hw, Nat.and_two_pow,
    Nat.testBit_eq_decide_div_mod_eq]
  by_cases hbit : b.toNat / 2 ^ 7 % 2 = 1
  · simp only [hbit, decide_true, Bool.toNat_true]; omega
  · simp only [hbit, decide_false, Bool.toNat_false]; omega

/-- The seven payload bits of the byte. -/
theorem toNat_and_127 (b : UInt8) : (BitVec.ofNat w b.toNat &&& 127).toNat = b.toNat % 128 := by
  have h127 : (127 : BitVec w).toNat = 2 ^ 7 - 1 :=
    Nat.mod_eq_of_lt (Nat.lt_of_lt_of_le (by decide) (Nat.pow_le_pow_right (by decide) hw))
  rw [BitVec.toNat_and, h127, toNat_ofNat_byte hw, Nat.and_two_pow_sub_one_eq_mod]

omit hw in
/-- Or-ing a group in above the bits already there adds it, as far as there is
room. -/
theorem or_shiftLeft_eq (x : BitVec w) (hr : acc < 2 ^ shift) :
    BitVec.ofNat w acc ||| x <<< shift = BitVec.ofNat w (acc + x.toNat * 2 ^ shift) := by
  have hsum : acc + x.toNat * 2 ^ shift = acc ||| x.toNat <<< shift := by
    rw [Nat.shiftLeft_eq, Nat.or_comm, Nat.mul_comm, ← Nat.two_pow_add_eq_or_of_lt hr,
      Nat.add_comm]
  rw [hsum, ← BitVec.toNat_inj, BitVec.toNat_or, BitVec.toNat_shiftLeft, BitVec.toNat_ofNat,
    BitVec.toNat_ofNat, Nat.or_mod_two_pow]

omit hw in
/-- The loop gives up at the limit. -/
theorem getVarintFallback_limit (hlim : limit ≤ p) :
    getVarintFallback w maxShift buf limit p shift result = .ok (none, none) := by
  rw [getVarintFallback, if_neg (by omega)]

/-- The loop on a last byte. -/
theorem getVarintFallback_last (hb : buf[p]? = some b) (hlast : b.toNat < 128)
    (hle : shift ≤ maxShift) (hlim : p < limit) (hr : acc < 2 ^ shift) :
    getVarintFallback w maxShift buf limit p shift (BitVec.ofNat w acc) =
      .ok (some (p + 1), some (BitVec.ofNat w (acc + b.toNat * 2 ^ shift))) := by
  have hbyte := toNat_ofNat_byte hw b
  rw [getVarintFallback, if_pos ⟨hle, hlim⟩, hb]
  simp only [ne_eq, (and_128_eq_zero_iff hw b).mpr hlast, not_true, if_false]
  rw [or_shiftLeft_eq _ hr, hbyte]

/-- The loop on a byte that announces more. -/
theorem getVarintFallback_more (hb : buf[p]? = some b) (hmore : 128 ≤ b.toNat)
    (hle : shift ≤ maxShift) (hlim : p < limit) (hr : acc < 2 ^ shift) :
    getVarintFallback w maxShift buf limit p shift (BitVec.ofNat w acc) =
      getVarintFallback w maxShift buf limit (p + 1) (shift + 7)
        (BitVec.ofNat w (acc + b.toNat % 128 * 2 ^ shift)) := by
  have hpay := toNat_and_127 hw b
  rw [getVarintFallback, if_pos ⟨hle, hlim⟩, hb]
  simp only [ne_eq, and_128_eq_zero_iff hw b, Nat.not_lt.mpr hmore, not_false_eq_true, if_true]
  rw [or_shiftLeft_eq _ hr, hpay]

/-- **The decoder loop on an encoding.**  Started at the first byte of the
encoding of `n` with a partial result below `2 ^ shift`, the loop adds
`n * 2 ^ shift` and stops just behind the encoding, unless the limit cuts the
encoding short. -/
theorem getVarintFallback_leb128 (hmax : w ≤ maxShift + 7) (hdvd : 7 ∣ maxShift) (n : Nat)
    (pre rest : List UInt8) (limit shift acc : Nat) (hshift : 7 ∣ shift) (hle : shift ≤ maxShift)
    (hr : acc < 2 ^ shift) (hn : n * 2 ^ shift < 2 ^ w) :
    getVarintFallback w maxShift (pre ++ leb128 n ++ rest) limit pre.length shift
        (BitVec.ofNat w acc) =
      if pre.length + (leb128 n).length ≤ limit then
        .ok (some (pre.length + (leb128 n).length), some (BitVec.ofNat w (acc + n * 2 ^ shift)))
      else .ok (none, none) := by
  induction n using leb128.induct generalizing pre shift acc with
  | case1 n hlt =>
      have hb : (UInt8.ofNat n).toNat = n := by rw [UInt8.toNat_ofNat']; omega
      have hget : (pre ++ [UInt8.ofNat n] ++ rest)[pre.length]? = some (UInt8.ofNat n) := by simp
      rw [leb128_of_lt hlt, List.length_singleton]
      by_cases hlim : pre.length < limit
      · rw [if_pos (by omega), getVarintFallback_last hw hget (by omega) hle hlim hr, hb]
      · rw [if_neg (by omega), getVarintFallback_limit (by omega)]
  | case2 n hge ih =>
      have hge' : 128 ≤ n := by omega
      let b := UInt8.ofNat (n % 128 + 128)
      have hb : b.toNat = n % 128 + 128 := by rw [UInt8.toNat_ofNat']; omega
      have hpay : b.toNat % 128 = n % 128 := by omega
      rw [leb128_of_le hge', List.length_cons]
      by_cases hlim : pre.length < limit
      · have hget : (pre ++ b :: leb128 (n / 128) ++ rest)[pre.length]? = some b := by simp
        have hbuf : pre ++ b :: leb128 (n / 128) ++ rest =
            pre ++ [b] ++ leb128 (n / 128) ++ rest := by simp
        have hpow : 2 ^ (shift + 7) = 128 * 2 ^ shift := by rw [Nat.pow_add]; omega
        have hsplit : n * 2 ^ shift = n % 128 * 2 ^ shift + n / 128 * 2 ^ (shift + 7) := by
          rw [hpow, ← Nat.mul_assoc, ← Nat.add_mul]
          congr 1
          omega
        have hlow : n % 128 * 2 ^ shift ≤ 127 * 2 ^ shift := Nat.mul_le_mul_right _ (by omega)
        have hhigh : 1 * 2 ^ (shift + 7) ≤ n / 128 * 2 ^ (shift + 7) :=
          Nat.mul_le_mul_right _ (by omega)
        -- another group follows, so the next shift is still allowed
        have hnext : shift + 7 < w := (Nat.pow_lt_pow_iff_right (by decide)).mp
          (show 2 ^ (shift + 7) < 2 ^ w by omega)
        rw [getVarintFallback_more hw hget (by omega) hle hlim hr, hpay, hbuf]
        have hrec := ih (pre ++ [b]) (shift + 7) (acc + n % 128 * 2 ^ shift) (by omega) (by omega)
          (by omega) (by omega)
        rw [List.length_append, List.length_singleton] at hrec
        rw [hrec, hsplit, Nat.add_assoc acc, Nat.add_assoc, Nat.add_comm 1]
      · rw [if_neg (by omega), getVarintFallback_limit (by omega)]

end Loop

/-- The one-byte shortcut of `get_varint32_data_ptr` computes what the loop
would. -/
theorem getVarint32DataPtr_eq (buf : List UInt8) (p limit : Nat) :
    getVarint32DataPtr buf p limit = getVarint32Fallback buf p limit := by
  unfold getVarint32DataPtr
  by_cases hlim : p < limit
  · rw [if_pos hlim]
    cases hb : buf[p]? with
    | none => rw [getVarint32Fallback, getVarintFallback, if_pos ⟨by decide, hlim⟩, hb]
    | some b =>
        simp only [and_128_eq_zero_iff (show 8 ≤ 32 by decide)]
        by_cases hlast : b.toNat < 128
        · have hfall : getVarint32Fallback buf p limit =
              .ok (some (p + 1), some (BitVec.ofNat 32 (0 + b.toNat * 2 ^ 0))) :=
            getVarintFallback_last (by decide) hb hlast (by decide) hlim (by decide)
          rw [if_pos hlast, hfall, Nat.pow_zero, Nat.mul_one, Nat.zero_add]
        · rw [if_neg hlast]
  · rw [if_neg hlim]

/-- A 32-bit value is read back from its encoding, and not from a cut one. -/
theorem getVarint32DataPtr_encodeVarint32 (v : BitVec 32) (pre rest : List UInt8) (limit : Nat) :
    getVarint32DataPtr (pre ++ encodeVarint32 v ++ rest) pre.length limit =
      if pre.length + (encodeVarint32 v).length ≤ limit then
        .ok (some (pre.length + (encodeVarint32 v).length), some v)
      else .ok (none, none) := by
  have h := getVarintFallback_leb128 (show 8 ≤ 32 by decide) (show 32 ≤ 28 + 7 by decide)
    (by decide) v.toNat pre rest limit 0 0 (by decide) (by decide) (by decide)
    (by have := v.isLt; omega)
  rw [Nat.pow_zero, Nat.mul_one, Nat.zero_add, BitVec.ofNat_toNat, BitVec.setWidth_eq] at h
  rw [getVarint32DataPtr_eq, encodeVarint32_eq]
  exact h

/-- A 64-bit value is read back from its encoding, and not from a cut one. -/
theorem getVarint64DataPtr_encodeVarint64 (v : BitVec 64) (pre rest : List UInt8) (limit : Nat) :
    getVarint64DataPtr (pre ++ encodeVarint64 v ++ rest) pre.length limit =
      if pre.length + (encodeVarint64 v).length ≤ limit then
        .ok (some (pre.length + (encodeVarint64 v).length), some v)
      else .ok (none, none) := by
  have h := getVarintFallback_leb128 (show 8 ≤ 64 by decide) (show 64 ≤ 63 + 7 by decide)
    (by decide) v.toNat pre rest limit 0 0 (by decide) (by decide) (by decide)
    (by have := v.isLt; omega)
  rw [Nat.pow_zero, Nat.mul_one, Nat.zero_add, BitVec.ofNat_toNat, BitVec.setWidth_eq] at h
  rw [encodeVarint64_eq]
  exact h

/-! ## reading a whole stream back -/

/-- A reader that calls a varint decoder from the position `p` on until it
has reached the end of the buffer; `none` when a call returns `NULL`. -/
def readAllFrom (get : List UInt8 → Nat → Nat → Except Fault (Option Nat × Option (BitVec w)))
    (buf : List UInt8) : Nat → Nat → Except Fault (Option (List (BitVec w)))
  | 0, _ => .error .diverge
  | fuel + 1, p =>
      if p < buf.length then
        match get buf p buf.length with
        | .ok (some q, some v) => (readAllFrom get buf fuel q).map (Option.map (v :: ·))
        | .ok _ => .ok none
        | .error f => .error f
      else .ok (some [])

/-- Read a buffer of varints; every value takes a byte, so the buffer's length
bounds the number of calls. -/
def readAll (get : List UInt8 → Nat → Nat → Except Fault (Option Nat × Option (BitVec w)))
    (buf : List UInt8) : Except Fault (Option (List (BitVec w))) :=
  readAllFrom get buf (buf.length + 1) 0

section Stream

variable {get : List UInt8 → Nat → Nat → Except Fault (Option Nat × Option (BitVec w))}
  {encode : BitVec w → List UInt8} (hne : ∀ v, encode v ≠ [])
  (hget : ∀ v pre rest, get (pre ++ encode v ++ rest) pre.length (pre ++ encode v ++ rest).length =
    .ok (some (pre.length + (encode v).length), some v))
include hne hget

theorem readAllFrom_flatMap (vs : List (BitVec w)) (pre : List UInt8) (fuel : Nat)
    (hfuel : vs.length < fuel) :
    readAllFrom get (pre ++ vs.flatMap encode) fuel pre.length = .ok (some vs) := by
  induction vs generalizing pre fuel with
  | nil =>
      obtain ⟨fuel, rfl⟩ : ∃ k, fuel = k + 1 := ⟨fuel - 1, by simp at hfuel; omega⟩
      rw [readAllFrom, if_neg (by simp)]
  | cons v vs ih =>
      obtain ⟨fuel, rfl⟩ : ∃ k, fuel = k + 1 := ⟨fuel - 1, by simp at hfuel; omega⟩
      have hpos : 0 < (encode v).length := List.length_pos_iff.mpr (hne v)
      have hbuf : pre ++ (v :: vs).flatMap encode = pre ++ encode v ++ vs.flatMap encode := by
        simp
      have hih := ih (pre ++ encode v) fuel (by simp at hfuel; omega)
      rw [List.length_append] at hih
      rw [hbuf, readAllFrom, if_pos (by simp only [List.length_append]; omega), hget]
      dsimp only
      rw [hih]
      rfl

/-- A concatenation of encodings reads back as the list of values. -/
theorem readAll_flatMap (vs : List (BitVec w)) :
    readAll get (vs.flatMap encode) = .ok (some vs) := by
  have hlen : vs.length ≤ (vs.flatMap encode).length := by
    induction vs with
    | nil => simp
    | cons v vs ih =>
        have hpos : 0 < (encode v).length := List.length_pos_iff.mpr (hne v)
        rw [List.flatMap_cons, List.length_append, List.length_cons]
        omega
  exact readAllFrom_flatMap hne hget vs [] _ (by omega)

end Stream

/-- **Varint round trip.**  Both widths read every value back from its
encoding, at any position, before any bytes and under any limit that does not
cut the encoding; a limit that does gives `NULL` and stores nothing.  No
encoding is a proper prefix of another, and a concatenation of encodings reads
back as the list of values. -/
theorem varint_roundtrip :
    (∀ (v : BitVec 32) (pre rest : List UInt8) (limit : Nat),
      getVarint32DataPtr (pre ++ encodeVarint32 v ++ rest) pre.length limit =
        if pre.length + (encodeVarint32 v).length ≤ limit then
          .ok (some (pre.length + (encodeVarint32 v).length), some v)
        else .ok (none, none)) ∧
    (∀ (v : BitVec 64) (pre rest : List UInt8) (limit : Nat),
      getVarint64DataPtr (pre ++ encodeVarint64 v ++ rest) pre.length limit =
        if pre.length + (encodeVarint64 v).length ≤ limit then
          .ok (some (pre.length + (encodeVarint64 v).length), some v)
        else .ok (none, none)) ∧
    (∀ u v : BitVec 32, encodeVarint32 u <+: encodeVarint32 v → u = v) ∧
    (∀ u v : BitVec 64, encodeVarint64 u <+: encodeVarint64 v → u = v) ∧
    (∀ vs : List (BitVec 32),
      readAll getVarint32DataPtr (vs.flatMap encodeVarint32) = .ok (some vs)) ∧
    (∀ vs : List (BitVec 64),
      readAll getVarint64DataPtr (vs.flatMap encodeVarint64) = .ok (some vs)) := by
  refine ⟨getVarint32DataPtr_encodeVarint32, getVarint64DataPtr_encodeVarint64, ?_, ?_, ?_, ?_⟩
  · intro u v h
    rw [encodeVarint32_eq, encodeVarint32_eq, leb128_prefix_iff] at h
    exact BitVec.eq_of_toNat_eq h
  · intro u v h
    rw [encodeVarint64_eq, encodeVarint64_eq, leb128_prefix_iff] at h
    exact BitVec.eq_of_toNat_eq h
  · refine readAll_flatMap (fun v => ?_) (fun v pre rest => ?_)
    · rw [encodeVarint32_eq]; exact leb128_ne_nil _
    · rw [getVarint32DataPtr_encodeVarint32, if_pos (by simp only [List.length_append]; omega)]
  · refine readAll_flatMap (fun v => ?_) (fun v pre rest => ?_)
    · rw [encodeVarint64_eq]; exact leb128_ne_nil _
    · rw [getVarint64DataPtr_encodeVarint64, if_pos (by simp only [List.length_append]; omega)]

end MySrc
