import Mathlib.Algebra.Group.Nat.Defs

/-!
# MySrc.Lib.Leb128

Base-128 numbers, least significant group first: every byte carries seven
bits of the number, and the top bit of a byte says that more bytes follow.

The code is prefix free (`leb128_prefix_iff`), which is what lets encodings
be written one after the other and still be read back.
-/

namespace Lib

/-- The base-128 bytes of `n`. -/
def leb128 (n : Nat) : List UInt8 :=
  if n < 128 then [UInt8.ofNat n]
  else UInt8.ofNat (n % 128 + 128) :: leb128 (n / 128)
termination_by n
decreasing_by omega

theorem leb128_of_lt (h : n < 128) : leb128 n = [UInt8.ofNat n] := by
  rw [leb128, if_pos h]

theorem leb128_of_le (h : 128 ≤ n) :
    leb128 n = UInt8.ofNat (n % 128 + 128) :: leb128 (n / 128) := by
  rw [leb128, if_neg (by omega)]

theorem leb128_ne_nil (n : Nat) : leb128 n ≠ [] := by
  by_cases h : n < 128
  · rw [leb128_of_lt h]; simp
  · rw [leb128_of_le (by omega)]; simp

/-- The length of an encoding grows by one with every factor 128. -/
theorem length_leb128_le_iff (n : Nat) {k : Nat} (hk : 1 ≤ k) :
    (leb128 n).length ≤ k ↔ n < 2 ^ (7 * k) := by
  induction n using leb128.induct generalizing k with
  | case1 n hn =>
      have hpow : 2 ^ 7 ≤ 2 ^ (7 * k) := Nat.pow_le_pow_right (by decide) (by omega)
      rw [leb128_of_lt hn, List.length_singleton]
      omega
  | case2 n hn ih =>
      rw [leb128_of_le (by omega), List.length_cons]
      by_cases hone : k = 1
      · subst hone
        have hpos : 0 < (leb128 (n / 128)).length := List.length_pos_iff.mpr (leb128_ne_nil _)
        omega
      · obtain ⟨k, rfl⟩ : ∃ j, k = j + 1 := ⟨k - 1, by omega⟩
        have hpow : 2 ^ (7 * (k + 1)) = 2 ^ (7 * k) * 128 := by
          rw [Nat.mul_add, Nat.pow_add]
        rw [Nat.add_le_add_iff_right, ih (by omega), hpow, Nat.div_lt_iff_lt_mul (by decide)]

/-- Bytes below 256 are told apart by their numbers. -/
theorem ofNat_eq_ofNat_iff (ha : a < 256) (hb : b < 256) :
    UInt8.ofNat a = UInt8.ofNat b ↔ a = b := by
  rw [← UInt8.toNat_inj, UInt8.toNat_ofNat', UInt8.toNat_ofNat']
  omega

/-- **Prefix freedom**: no encoding is a proper prefix of another one. -/
theorem leb128_prefix_iff (m n : Nat) : leb128 m <+: leb128 n ↔ m = n := by
  constructor
  · intro h
    induction m using leb128.induct generalizing n with
    | case1 m hm =>
        rw [leb128_of_lt hm] at h
        by_cases hn : n < 128
        · rw [leb128_of_lt hn, List.cons_prefix_cons, ofNat_eq_ofNat_iff (by omega) (by omega)] at h
          exact h.1
        · -- a last byte against a byte that announces more
          rw [leb128_of_le (by omega), List.cons_prefix_cons,
            ofNat_eq_ofNat_iff (by omega) (by omega)] at h
          omega
    | case2 m hm ih =>
        rw [leb128_of_le (by omega)] at h
        by_cases hn : n < 128
        · rw [leb128_of_lt hn, List.cons_prefix_cons, ofNat_eq_ofNat_iff (by omega) (by omega)] at h
          omega
        · rw [leb128_of_le (n := n) (by omega), List.cons_prefix_cons,
            ofNat_eq_ofNat_iff (by omega) (by omega)] at h
          have hq : m / 128 = n / 128 := ih _ h.2
          omega
  · rintro rfl
    exact List.prefix_refl _

end Lib
