import Mathlib.Algebra.Group.Nat.Defs
import Mathlib.Logic.Basic

/-!
# MySrc.Lib.Decimal

Numbers in decimal ASCII: how they are printed, how many digits they have, and what the
first digits of one are worth.
-/

namespace Lib

/-- Decimal ASCII, without leading zeros. -/
def decimal (n : Nat) : List UInt8 :=
  if n < 10 then [UInt8.ofNat (48 + n)] else decimal (n / 10) ++ [UInt8.ofNat (48 + n % 10)]
termination_by n
decreasing_by omega

/-- The value of a string of digits. -/
def ofDecimal (s : List UInt8) : Nat := s.foldl (fun n c => 10 * n + (c.toNat - 48)) 0

theorem decimal_of_lt (h : n < 10) : decimal n = [UInt8.ofNat (48 + n)] := by
  rw [decimal, if_pos h]

theorem decimal_of_le (h : 10 ≤ n) :
    decimal n = decimal (n / 10) ++ [UInt8.ofNat (48 + n % 10)] := by
  rw [decimal, if_neg (by omega)]

/-- A decimal number starts with a digit; a longer one goes on with a digit. -/
theorem decimal_cases (n : Nat) :
    (n < 10 ∧ decimal n = [UInt8.ofNat (48 + n)]) ∨
      ∃ d e ds, decimal n = UInt8.ofNat d :: UInt8.ofNat e :: ds ∧
        48 ≤ d ∧ d < 58 ∧ 48 ≤ e ∧ e < 58 ∧ (0 < n → 49 ≤ d) := by
  induction n using decimal.induct with
  | case1 n hlt => exact .inl ⟨hlt, decimal_of_lt hlt⟩
  | case2 n hge ih =>
      right
      rw [decimal, if_neg hge]
      obtain ⟨hlt, heq⟩ | ⟨d, e, ds, heq, h1, h2, h3, h4, h5⟩ := ih
      · exact ⟨48 + n / 10, 48 + n % 10, [], by rw [heq]; rfl, by omega, by omega, by omega,
          by omega, by omega⟩
      · exact ⟨d, e, ds ++ [UInt8.ofNat (48 + n % 10)], by rw [heq]; rfl, h1, h2, h3, h4,
          by omega⟩

/-- A decimal number is made of digits. -/
theorem digit_of_mem_decimal (h : c ∈ decimal n) : 48 ≤ c ∧ c ≤ 57 := by
  have hdigit : ∀ d < 10, 48 ≤ UInt8.ofNat (48 + d) ∧ UInt8.ofNat (48 + d) ≤ 57 := by decide
  induction n using decimal.induct with
  | case1 n hlt =>
      rw [decimal_of_lt hlt, List.mem_singleton] at h
      exact h ▸ hdigit n hlt
  | case2 n hge ih =>
      rw [decimal_of_le (by omega), List.mem_append, List.mem_singleton] at h
      rcases h with h | rfl
      · exact ih h
      · exact hdigit (n % 10) (by omega)

theorem length_decimal_of_le (h : 10 ≤ n) :
    (decimal n).length = (decimal (n / 10)).length + 1 := by
  rw [decimal_of_le h]
  simp

theorem length_decimal_pos (n : Nat) : 0 < (decimal n).length := by
  rcases decimal_cases n with ⟨-, h⟩ | ⟨d, e, ds, h, -⟩
  · simp [h]
  · simp [h]

/-- The number of digits. -/
theorem length_decimal_le_iff (hk : 0 < k) : (decimal n).length ≤ k ↔ n < 10 ^ k := by
  induction n using decimal.induct generalizing k with
  | case1 n hlt =>
      have hpow : 10 ^ 1 ≤ 10 ^ k := Nat.pow_le_pow_right (by decide) hk
      simp [decimal_of_lt hlt]
      omega
  | case2 n hge ih =>
      obtain ⟨k, rfl⟩ := Nat.exists_eq_add_one.mpr hk
      rw [length_decimal_of_le (by omega), Nat.pow_succ]
      cases k with
      | zero =>
          have hpos := length_decimal_pos (n / 10)
          exact iff_of_false (by omega) (by simpa using hge)
      | succ k =>
          have hk' := ih (Nat.succ_pos k)
          rw [Nat.add_le_add_iff_right, hk']
          omega

/-- The first digits of a number: the others are divided away. -/
theorem ofDecimal_take (n k : Nat) :
    ofDecimal ((decimal n).take k) = n / 10 ^ ((decimal n).length - k) := by
  induction n using decimal.induct with
  | case1 n hlt =>
      rw [decimal_of_lt hlt]
      cases k with
      | zero =>
          simp [ofDecimal]
          omega
      | succ k =>
          simp [ofDecimal]
          omega
  | case2 n hge ih =>
      rw [length_decimal_of_le (by omega), decimal_of_le (by omega)]
      by_cases hk : k ≤ (decimal (n / 10)).length
      · rw [List.take_append_of_le_length hk, ih, Nat.div_div_eq_div_mul, ← Nat.pow_succ',
          Nat.succ_eq_add_one, Nat.sub_add_comm hk]
      · rw [List.take_of_length_le (by simp; omega), ofDecimal, List.foldl_append]
        have hall := ih
        rw [List.take_of_length_le (by omega), Nat.sub_eq_zero_of_le (by omega), Nat.pow_zero,
          Nat.div_one, ofDecimal] at hall
        rw [hall, Nat.sub_eq_zero_of_le (by omega), Nat.pow_zero, Nat.div_one]
        simp
        omega

/-- **Round trip**: a decimal number is read back. -/
theorem ofDecimal_decimal (n : Nat) : ofDecimal (decimal n) = n := by
  have h := ofDecimal_take n (decimal n).length
  rwa [List.take_length, Nat.sub_self, Nat.pow_zero, Nat.div_one] at h

end Lib
