import MySrc.Mycache.Coding

/-!
# MySrc.Mycache.CodingWidths

The rest of the varint half of `mycache/src/util/coding.h`: `encode_varint_length`,
the two widths of encoder and decoder against each other, and ZigZag.

The encoders write the same bytes (`encoders_agree`).  The decoders do not
accept the same: the fifth byte of a 32-bit value has room for four bits, the
rest of it is shifted out of the result and not looked at
(`decoders_agree_iff`).
-/

namespace MySrc

open Lib

/-! ## the length of an encoding -/

/-- The loop of `encode_varint_length`. -/
def encodeVarintLengthLoop (v : BitVec 64) (len : Nat) : Nat :=
  if v ≥ 128 then encodeVarintLengthLoop (v >>> 7) (len + 1) else len
termination_by v.toNat
decreasing_by
  have h : 128 ≤ v.toNat := ‹v ≥ 128›
  simp only [BitVec.toNat_ushiftRight, Nat.shiftRight_eq_div_pow]
  omega

/-- `encode_varint_length` -/
def encodeVarintLength (v : BitVec 64) : Nat := encodeVarintLengthLoop v 1

/-- The loop counts the bytes that are left. -/
theorem encodeVarintLengthLoop_eq (v : BitVec 64) (len : Nat) :
    encodeVarintLengthLoop v len + 1 = len + (leb128 v.toNat).length := by
  induction v, len using encodeVarintLengthLoop.induct with
  | case1 v len hge ih =>
      have hge' : 128 ≤ v.toNat := hge
      rw [encodeVarintLengthLoop, if_pos hge, ih, toNat_ushiftRight_7, leb128_of_le hge',
        List.length_cons]
      omega
  | case2 v len hlt =>
      have hlt' : v.toNat < 128 := Nat.lt_of_not_le hlt
      rw [encodeVarintLengthLoop, if_neg hlt, leb128_of_lt hlt', List.length_singleton]

/-- `encode_varint_length` is the number of bytes of the varint. -/
theorem encodeVarintLength_eq (v : BitVec 64) :
    encodeVarintLength v = (leb128 v.toNat).length := by
  have h := encodeVarintLengthLoop_eq v 1
  rw [encodeVarintLength]
  omega

/-- A value fits so many bytes exactly when it fits seven bits of each. -/
theorem encodeVarintLength_le_iff (v : BitVec 64) {k : Nat} (hk : 1 ≤ k) :
    encodeVarintLength v ≤ k ↔ v.toNat < 2 ^ (7 * k) := by
  rw [encodeVarintLength_eq, length_leb128_le_iff _ hk]

theorem one_le_encodeVarintLength (v : BitVec 64) : 1 ≤ encodeVarintLength v := by
  rw [encodeVarintLength_eq]
  exact List.length_pos_iff.mpr (leb128_ne_nil _)

/-- **The encoders and the length**: the two encoders write the same bytes for a
32-bit value, and as many as `encode_varint_length` says, the least number of
groups of seven bits that hold the value. -/
theorem encoders_agree :
    (∀ v : BitVec 32, encodeVarint32 v = encodeVarint64 (v.setWidth 64)) ∧
      ∀ v : BitVec 64, (encodeVarint64 v).length = encodeVarintLength v ∧
        (1 ≤ encodeVarintLength v ∧ v.toNat < 2 ^ (7 * encodeVarintLength v)) ∧
        ∀ k, 1 ≤ k → v.toNat < 2 ^ (7 * k) → encodeVarintLength v ≤ k := by
  constructor
  · intro v
    have hlt := v.isLt
    rw [encodeVarint32_eq, encodeVarint64_eq, BitVec.toNat_setWidth, Nat.mod_eq_of_lt (by omega)]
  · intro v
    have hone := one_le_encodeVarintLength v
    refine ⟨by rw [encodeVarint64_eq, encodeVarintLength_eq], ⟨hone, ?_⟩, fun k hk hv => ?_⟩
    · exact (encodeVarintLength_le_iff v hone).mp (Nat.le_refl _)
    · exact (encodeVarintLength_le_iff v hk).mpr hv

/-- The value 300 takes two bytes. -/
theorem encoders_agree_300 : encodeVarintLength 300 ≤ 2 :=
  ((encoders_agree.2 300).2.2 2 (by decide)) (by decide)

/-! ## the decoders -/

/-- The 64-bit decoder takes what the 32-bit decoder accepts for the same number,
and ends at the same place. -/
def DecodersAgree (buf : List UInt8) (p limit : Nat) : Prop :=
  ∀ q v, getVarint32DataPtr buf p limit = .ok (some q, some v) →
    ∃ v', getVarint64DataPtr buf p limit = .ok (some q, some v') ∧ v'.toNat = v.toNat

/-- Behind `n` bytes that announce more, a last byte within the limit is below 16. -/
def LastFits (buf : List UInt8) (limit n p : Nat) : Prop :=
  (∀ i < n, ∃ c, buf[p + i]? = some c ∧ 128 ≤ c.toNat) → p + n < limit →
    ∀ b, buf[p + n]? = some b → b.toNat < 128 → b.toNat < 16

/-- At a place the input ends, or there is a byte below the limit. -/
theorem end_or_byte (buf : List UInt8) (limit p : Nat) :
    (p < limit → buf[p]? = none) ∨ ∃ b, buf[p]? = some b ∧ p < limit := by
  by_cases hlim : p < limit
  · cases hb : buf[p]? with
    | none => exact .inl fun _ => rfl
    | some b => exact .inr ⟨b, rfl, hlim⟩
  · exact .inl fun h => absurd h hlim

/-- Where no byte can be read there is nothing to fit. -/
theorem lastFits_of_end {buf : List UInt8} {limit p : Nat} (n : Nat)
    (h : p < limit → buf[p]? = none) : LastFits buf limit n p := by
  intro hall hlim b hb
  have hnone : buf[p]? = none := h (by omega)
  cases n with
  | zero =>
      rw [Nat.add_zero, hnone] at hb
      cases hb
  | succ n =>
      obtain ⟨c, hc, -⟩ := hall 0 (by omega)
      rw [Nat.add_zero, hnone] at hc
      cases hc

/-- A value that ends earlier fits. -/
theorem lastFits_of_last {buf : List UInt8} {limit n p : Nat} {b : UInt8} (hb : buf[p]? = some b)
    (hlast : b.toNat < 128) : LastFits buf limit (n + 1) p := by
  intro hall
  obtain ⟨c, hc, hmore⟩ := hall 0 (by omega)
  rw [Nat.add_zero, hb] at hc
  cases hc
  omega

/-- A last byte fits when it ends the varint with at most four bits. -/
theorem lastFits_zero {buf : List UInt8} {limit p : Nat} {b : UInt8} (hb : buf[p]? = some b)
    (hlim : p < limit) : LastFits buf limit 0 p ↔ (b.toNat < 128 → b.toNat < 16) := by
  simp [LastFits, hb, hlim]

/-- The first of the bytes that announce more. -/
theorem lastFits_succ {buf : List UInt8} {limit n p : Nat} {b : UInt8} (hb : buf[p]? = some b)
    (hmore : 128 ≤ b.toNat) : LastFits buf limit (n + 1) p ↔ LastFits buf limit n (p + 1) := by
  have hshift : ∀ i, p + 1 + i = p + (i + 1) := fun i => by omega
  have hfirst : (∀ i < n + 1, ∃ c, buf[p + i]? = some c ∧ 128 ≤ c.toNat) ↔
      ∀ i < n, ∃ c, buf[p + 1 + i]? = some c ∧ 128 ≤ c.toNat := by
    constructor
    · intro h i hi
      rw [hshift]
      exact h (i + 1) (by omega)
    · intro h i hi
      cases i with
      | zero => exact ⟨b, hb, hmore⟩
      | succ i =>
          rw [← hshift]
          exact h i (by omega)
  rw [LastFits, LastFits, hfirst, hshift]

/-- The two loops side by side. -/
def FallbacksAgree (buf : List UInt8) (limit p shift acc : Nat) : Prop :=
  ∀ q v, getVarintFallback 32 28 buf limit p shift (BitVec.ofNat 32 acc) =
      .ok (some q, some v) →
    ∃ v', getVarintFallback 64 63 buf limit p shift (BitVec.ofNat 64 acc) =
      .ok (some q, some v') ∧ v'.toNat = v.toNat

section

variable {buf : List UInt8} {limit p shift acc : Nat} {b : UInt8} (hb : buf[p]? = some b)
  (hlim : p < limit) (hshift : shift ≤ 28) (hacc : acc < 2 ^ shift)
include hb hlim hshift hacc

/-- On a last byte the loops agree when the number fits. -/
theorem fallbacksAgree_last (hlast : b.toNat < 128) :
    FallbacksAgree buf limit p shift acc ↔ acc + b.toNat * 2 ^ shift < 2 ^ 32 := by
  have h32 : getVarintFallback 32 28 buf limit p shift _ = _ :=
    getVarintFallback_last (by decide) hb hlast hshift hlim hacc
  have h64 : getVarintFallback 64 63 buf limit p shift _ = _ :=
    getVarintFallback_last (by decide) hb hlast (by omega) hlim hacc
  have hpow : 2 ^ shift ≤ 2 ^ 28 := Nat.pow_le_pow_right (by decide) hshift
  have hle : b.toNat * 2 ^ shift ≤ 127 * 2 ^ 28 := Nat.mul_le_mul (by omega) hpow
  rw [FallbacksAgree, h32, h64]
  have hvalue : (BitVec.ofNat 64 (acc + b.toNat * 2 ^ shift)).toNat =
      (BitVec.ofNat 32 (acc + b.toNat * 2 ^ shift)).toNat ↔
        acc + b.toNat * 2 ^ shift < 2 ^ 32 := by
    rw [BitVec.toNat_ofNat, BitVec.toNat_ofNat]
    omega
  rw [← hvalue]
  constructor
  · intro h
    obtain ⟨v', hv', heq⟩ := h _ _ rfl
    cases hv'
    exact heq
  · rintro h q v hqv
    cases hqv
    exact ⟨_, rfl, h⟩

/-- On another byte both go on. -/
theorem fallbacksAgree_more (hmore : 128 ≤ b.toNat) :
    FallbacksAgree buf limit p shift acc ↔
      FallbacksAgree buf limit (p + 1) (shift + 7) (acc + b.toNat % 128 * 2 ^ shift) := by
  have h32 : getVarintFallback 32 28 buf limit p shift _ = _ :=
    getVarintFallback_more (by decide) hb hmore hshift hlim hacc
  have h64 : getVarintFallback 64 63 buf limit p shift _ = _ :=
    getVarintFallback_more (by decide) hb hmore (by omega) hlim hacc
  rw [FallbacksAgree, FallbacksAgree, h32, h64]

end

/-- Where the 32-bit loop accepts nothing there is nothing to agree on. -/
theorem fallbacksAgree_of_reject {buf : List UInt8} {limit p shift acc : Nat}
    (h : shift ≤ 28 → p < limit → buf[p]? = none) : FallbacksAgree buf limit p shift acc := by
  intro q v hq
  rw [getVarintFallback] at hq
  split at hq
  · next hin =>
      rw [h hin.1 hin.2] at hq
      cases hq
  · cases hq

/-- The loops agree from a point with `n` bytes before the last one that is allowed in
32 bits. -/
theorem fallbacksAgree_iff (buf : List UInt8) (limit n : Nat) {p acc : Nat} (hn : n ≤ 4)
    (hacc : acc < 2 ^ (28 - 7 * n)) :
    FallbacksAgree buf limit p (28 - 7 * n) acc ↔ LastFits buf limit n p := by
  induction n generalizing p acc with
  | zero =>
      rcases end_or_byte buf limit p with hend | ⟨b, hb, hlim⟩
      · exact iff_of_true (fallbacksAgree_of_reject fun _ => hend) (lastFits_of_end _ hend)
      rw [lastFits_zero hb hlim]
      by_cases hlast : b.toNat < 128
      · rw [fallbacksAgree_last hb hlim (by omega) hacc hlast]
        omega
      · -- a sixth byte is not read
        rw [fallbacksAgree_more hb hlim (by omega) hacc (by omega)]
        exact iff_of_true (fallbacksAgree_of_reject (by omega)) (by omega)
  | succ n ih =>
      rcases end_or_byte buf limit p with hend | ⟨b, hb, hlim⟩
      · exact iff_of_true (fallbacksAgree_of_reject fun _ => hend) (lastFits_of_end _ hend)
      by_cases hlast : b.toNat < 128
      · rw [fallbacksAgree_last hb hlim (by omega) hacc hlast]
        have hpow : 2 ^ (28 - 7 * (n + 1)) ≤ 2 ^ 21 :=
          Nat.pow_le_pow_right (by decide) (by omega)
        have hle : b.toNat * 2 ^ (28 - 7 * (n + 1)) ≤ 127 * 2 ^ 21 :=
          Nat.mul_le_mul (by omega) hpow
        exact iff_of_true (by omega) (lastFits_of_last hb hlast)
      · have hle : b.toNat % 128 * 2 ^ (28 - 7 * (n + 1)) ≤ 127 * 2 ^ (28 - 7 * (n + 1)) :=
          Nat.mul_le_mul_right _ (by omega)
        have hstep : 28 - 7 * (n + 1) + 7 = 28 - 7 * n := by omega
        have hpow : 2 ^ (28 - 7 * n) = 128 * 2 ^ (28 - 7 * (n + 1)) := by
          rw [← hstep, Nat.pow_add, Nat.mul_comm]
        rw [fallbacksAgree_more hb hlim (by omega) hacc (by omega), hstep,
          ih (by omega) (by omega), lastFits_succ hb (by omega)]

theorem decodersAgree_iff_fallbacks (buf : List UInt8) (p limit : Nat) :
    DecodersAgree buf p limit ↔ FallbacksAgree buf limit p (28 - 7 * 4) 0 := by
  simp only [DecodersAgree, getVarint32DataPtr_eq, getVarint64DataPtr]
  rfl

/-- **The decoders agree** on everything the 32-bit decoder accepts exactly when the
fifth byte of a value, if it is the last one, is below 16. -/
theorem decoders_agree_iff (buf : List UInt8) (p limit : Nat) :
    DecodersAgree buf p limit ↔ LastFits buf limit 4 p := by
  rw [decodersAgree_iff_fallbacks]
  exact fallbacksAgree_iff buf limit 4 (by decide) (by decide)

/-- Five bytes for `2 ^ 32`: the 32-bit decoder reads 0. -/
theorem decoders_disagree : ¬ ∀ (buf : List UInt8) (p limit : Nat), DecodersAgree buf p limit := by
  intro h
  have hfits : LastFits [128, 128, 128, 128, 16] 5 4 0 :=
    (fallbacksAgree_iff _ 5 4 (by decide) (by decide)).mp
      ((decodersAgree_iff_fallbacks _ 0 5).mp (h _ 0 5))
  have hmore : ∀ i < 4, ∃ c, ([128, 128, 128, 128, 16] : List UInt8)[0 + i]? = some c ∧
      128 ≤ c.toNat := by
    intro i hi
    rcases i with _ | _ | _ | _ | i
    · exact ⟨128, rfl, by decide⟩
    · exact ⟨128, rfl, by decide⟩
    · exact ⟨128, rfl, by decide⟩
    · exact ⟨128, rfl, by decide⟩
    · omega
  exact absurd (hfits hmore (by decide) 16 rfl (by decide)) (by decide)

/-! ## ZigZag -/

/-- `zigzag_encode32` and `zigzag_encode64`, with two's complement shifts. -/
def zigzagEncode (n : BitVec w) : BitVec w := (n <<< 1) ^^^ n.sshiftRight (w - 1)

/-- `zigzag_decode32` and `zigzag_decode64`. -/
def zigzagDecode (n : BitVec w) : BitVec w := (n >>> 1) ^^^ -(n &&& 1#w)

/-- `zigzag_encode32` -/
def zigzagEncode32 : BitVec 32 → BitVec 32 := zigzagEncode

/-- `zigzag_decode32` -/
def zigzagDecode32 : BitVec 32 → BitVec 32 := zigzagDecode

/-- `zigzag_encode64` -/
def zigzagEncode64 : BitVec 64 → BitVec 64 := zigzagEncode

/-- `zigzag_decode64` -/
def zigzagDecode64 : BitVec 64 → BitVec 64 := zigzagDecode

section

variable {w : Nat} (hw : 0 < w)
include hw

/-- An arithmetic shift by all but one bit leaves the sign. -/
theorem sshiftRight_sign (n : BitVec w) :
    n.sshiftRight (w - 1) = if n.msb then BitVec.allOnes w else 0#w := by
  apply BitVec.eq_of_getLsbD_eq
  intro i hi
  rw [BitVec.getLsbD_sshiftRight]
  have hmsb : n.msb = n.getLsbD (w - 1) := BitVec.msb_eq_getLsbD_last n
  have hbit : (if w - 1 + i < w then n.getLsbD (w - 1 + i) else n.msb) = n.msb := by
    split
    · obtain rfl : i = 0 := by omega
      rw [Nat.add_zero, hmsb]
    · rfl
  rw [hbit]
  cases n.msb <;> simp [hi]

theorem zigzagEncode_eq (n : BitVec w) :
    zigzagEncode n = if n.msb then ~~~(n <<< 1) else n <<< 1 := by
  rw [zigzagEncode, sshiftRight_sign hw]
  split
  · rw [BitVec.xor_allOnes]
  · exact BitVec.xor_zero

theorem zigzagDecode_eq (n : BitVec w) :
    zigzagDecode n = if n.getLsbD 0 then ~~~(n >>> 1) else n >>> 1 := by
  have hand : n &&& 1#w = if n.getLsbD 0 then 1#w else 0#w := by
    rw [BitVec.and_one_eq_setWidth_ofBool_getLsbD]
    cases n.getLsbD 0 with
    | false => simp
    | true =>
        rw [if_pos rfl]
        exact BitVec.setWidth_ofNat_of_le_of_lt hw (by decide)
  rw [zigzagDecode, hand]
  split
  · rw [BitVec.neg_one_eq_allOnes, BitVec.xor_allOnes]
  · rw [BitVec.neg_zero]
    exact BitVec.xor_zero

theorem getLsbD_zigzagEncode (n : BitVec w) {i : Nat} (hi : i < w) :
    (zigzagEncode n).getLsbD i = if i = 0 then n.msb else (n.getLsbD (i - 1) ^^ n.msb) := by
  rw [zigzagEncode_eq hw]
  cases i with
  | zero => cases n.msb <;> simp [hi]
  | succ i =>
      cases n.msb <;> simp [hi, BitVec.getLsbD_eq_getElem (Nat.lt_of_succ_lt hi)]

theorem getLsbD_zigzagDecode (n : BitVec w) {i : Nat} (hi : i < w) :
    (zigzagDecode n).getLsbD i = (n.getLsbD (i + 1) ^^ n.getLsbD 0) := by
  rw [zigzagDecode_eq hw]
  cases n.getLsbD 0 <;> simp [hi, Nat.add_comm]

/-- Decoding undoes encoding, -/
theorem zigzagDecode_zigzagEncode (n : BitVec w) : zigzagDecode (zigzagEncode n) = n := by
  apply BitVec.eq_of_getLsbD_eq
  intro i hi
  rw [getLsbD_zigzagDecode hw _ hi, getLsbD_zigzagEncode hw n hw, if_pos rfl]
  by_cases hlast : i + 1 < w
  · rw [getLsbD_zigzagEncode hw n hlast]
    simp
  · obtain rfl : i = w - 1 := by omega
    rw [BitVec.getLsbD_of_ge _ _ (by omega), BitVec.msb_eq_getLsbD_last, Bool.false_xor]

/-- and encoding undoes decoding. -/
theorem zigzagEncode_zigzagDecode (n : BitVec w) : zigzagEncode (zigzagDecode n) = n := by
  have hmsb : (zigzagDecode n).msb = n.getLsbD 0 := by
    rw [BitVec.msb_eq_getLsbD_last, getLsbD_zigzagDecode hw _ (by omega),
      BitVec.getLsbD_of_ge _ _ (by omega), Bool.false_xor]
  apply BitVec.eq_of_getLsbD_eq
  intro i hi
  rw [getLsbD_zigzagEncode hw _ hi, hmsb]
  split
  · next h0 => rw [h0]
  · rw [getLsbD_zigzagDecode hw _ (by omega), Nat.sub_add_cancel (by omega)]
    simp

/-- The numbers 0, -1, 1, -2, ... go to 0, 1, 2, 3, ... -/
theorem toNat_zigzagEncode (n : BitVec w) :
    ((zigzagEncode n).toNat : Int) = if 0 ≤ n.toInt then 2 * n.toInt else -2 * n.toInt - 1 := by
  have hn := n.isLt
  obtain ⟨k, rfl⟩ : ∃ k, w = k + 1 := ⟨w - 1, by omega⟩
  have hpow : 2 ^ (k + 1) = 2 * 2 ^ k := by rw [Nat.pow_succ, Nat.mul_comm]
  rw [zigzagEncode_eq hw, BitVec.toInt_eq_msb_cond]
  have hmsb : n.msb = decide (2 ^ k ≤ n.toNat) := by
    rw [BitVec.msb_eq_decide, Nat.add_sub_cancel]
  cases hsign : n.msb with
  | false =>
      have hlt : n.toNat < 2 ^ k := by simpa [hsign] using hmsb
      have hshift : (n <<< 1).toNat = 2 * n.toNat := by
        rw [BitVec.toNat_shiftLeft, Nat.shiftLeft_eq, Nat.mod_eq_of_lt (by omega)]
        omega
      simp only [Bool.false_eq_true, if_false, hshift]
      omega
  | true =>
      have hge : 2 ^ k ≤ n.toNat := by simpa [hsign] using hmsb
      have hshift : (n <<< 1).toNat = 2 * n.toNat - 2 ^ (k + 1) := by
        rw [BitVec.toNat_shiftLeft, Nat.shiftLeft_eq, Nat.mod_eq_sub_mod (by omega),
          Nat.mod_eq_of_lt (by omega)]
        omega
      simp only [if_true, BitVec.toNat_not, hshift]
      omega

end

/-- An encoded number fits so many bytes exactly when it fits seven bits of each, with its sign.
-/
theorem zigzagEncode64_length_le_iff (n : BitVec 64) {k : Nat} (hk : 1 ≤ k) :
    encodeVarintLength (zigzagEncode64 n) ≤ k ↔
      -2 ^ (7 * k - 1) ≤ n.toInt ∧ n.toInt < 2 ^ (7 * k - 1) := by
  have hencode := toNat_zigzagEncode (by decide) n
  have hpow : 2 ^ (7 * k) = 2 * 2 ^ (7 * k - 1) := by
    rw [← Nat.pow_add_one', Nat.sub_add_cancel (by omega)]
  have hcast : ((2 ^ (7 * k - 1) : Nat) : Int) = 2 ^ (7 * k - 1) := by rw [Int.natCast_pow]; rfl
  rw [encodeVarintLength_le_iff _ hk, zigzagEncode64, hpow, ← hcast]
  generalize (zigzagEncode n).toNat = u at hencode ⊢
  split at hencode <;> omega

/-- **ZigZag**: encoding and decoding are inverse to each other in both widths, and a
number of small magnitude has a short encoding. -/
theorem zigzag_inverse_short :
    (∀ n, zigzagDecode32 (zigzagEncode32 n) = n) ∧ (∀ u, zigzagEncode32 (zigzagDecode32 u) = u) ∧
      (∀ n, zigzagDecode64 (zigzagEncode64 n) = n) ∧
      (∀ u, zigzagEncode64 (zigzagDecode64 u) = u) ∧
      ∀ (n : BitVec 64) (k : Nat), 1 ≤ k →
        (encodeVarintLength (zigzagEncode64 n) ≤ k ↔
          -2 ^ (7 * k - 1) ≤ n.toInt ∧ n.toInt < 2 ^ (7 * k - 1)) :=
  ⟨zigzagDecode_zigzagEncode (by decide), zigzagEncode_zigzagDecode (by decide),
    zigzagDecode_zigzagEncode (by decide), zigzagEncode_zigzagDecode (by decide),
    fun n _ hk => zigzagEncode64_length_le_iff n hk⟩

/-- One byte holds the numbers from -64 to 63. -/
theorem zigzag_inverse_short_one :
    encodeVarintLength (zigzagEncode64 (-64)) ≤ 1 ∧
      ¬ encodeVarintLength (zigzagEncode64 64) ≤ 1 := by
  obtain ⟨-, -, -, -, hshort⟩ := zigzag_inverse_short
  rw [hshort _ 1 (by decide), hshort _ 1 (by decide)]
  decide

end MySrc
