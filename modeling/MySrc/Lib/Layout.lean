import Mathlib.Algebra.Order.Ring.Nat
import Mathlib.Tactic.Common

/-!
# MySrc.Lib.Layout

Members one behind the other, with padding in front of each up to its alignment, or
without.  The two layouts end at the same place exactly when every member is aligned
where it starts without padding (`paddedEnd_eq_iff`).
-/

namespace Lib

/-- A member of a record. -/
structure Member where
  size : Nat
  align : Nat
  deriving Repr, DecidableEq

/-- The first multiple of `align` from `off` on. -/
def alignUp (align off : Nat) : Nat := (off + align - 1) / align * align

/-- Where the members end that start at `off`, each behind its padding. -/
def paddedEnd : List Member → Nat → Nat
  | [], off => off
  | m :: ms, off => paddedEnd ms (alignUp m.align off + m.size)

/-- Where they end without padding. -/
def packedEnd : List Member → Nat → Nat
  | [], off => off
  | m :: ms, off => packedEnd ms (off + m.size)

/-- Without padding every member is aligned. -/
def Unpadded : List Member → Nat → Prop
  | [], _ => True
  | m :: ms, off => m.align ∣ off ∧ Unpadded ms (off + m.size)

theorem le_alignUp (h : 0 < align) (off : Nat) : off ≤ alignUp align off := by
  have hdiv := Nat.div_add_mod (off + align - 1) align
  have hmod := Nat.mod_lt (off + align - 1) h
  rw [alignUp, Nat.mul_comm]
  omega

theorem alignUp_eq_self_iff (h : 0 < align) (off : Nat) :
    alignUp align off = off ↔ align ∣ off := by
  constructor
  · intro heq
    exact ⟨_, (heq.symm.trans (Nat.mul_comm _ _))⟩
  · rintro ⟨k, rfl⟩
    have hdiv : (align * k + align - 1) / align = k := by
      rw [Nat.add_sub_assoc h, Nat.mul_add_div h, Nat.div_eq_of_lt (by omega), Nat.add_zero]
    rw [alignUp, hdiv, Nat.mul_comm]

/-- What starts later ends later, by as much. -/
theorem packedEnd_add (ms : List Member) (off d : Nat) :
    packedEnd ms (off + d) = packedEnd ms off + d := by
  induction ms generalizing off with
  | nil => rfl
  | cons m ms ih => rw [packedEnd, packedEnd, Nat.add_right_comm, ih]

theorem packedEnd_le_paddedEnd {ms : List Member} (hpos : ∀ m ∈ ms, 0 < m.align) (off : Nat) :
    packedEnd ms off ≤ paddedEnd ms off := by
  induction ms generalizing off with
  | nil => exact le_refl off
  | cons m ms ih =>
      obtain ⟨hm, hms⟩ := List.forall_mem_cons.mp hpos
      have hle := le_alignUp hm off
      obtain ⟨d, hd⟩ := Nat.exists_eq_add_of_le hle
      have hrest := ih hms (alignUp m.align off + m.size)
      rw [hd, Nat.add_right_comm, packedEnd_add] at hrest
      rw [packedEnd, paddedEnd, hd, Nat.add_right_comm]
      omega

/-- **No padding**: the layouts end at the same place when every member is aligned. -/
theorem paddedEnd_eq_iff {ms : List Member} (hpos : ∀ m ∈ ms, 0 < m.align) (off : Nat) :
    paddedEnd ms off = packedEnd ms off ↔ Unpadded ms off := by
  induction ms generalizing off with
  | nil => exact iff_of_true rfl trivial
  | cons m ms ih =>
      obtain ⟨hm, hms⟩ := List.forall_mem_cons.mp hpos
      rw [paddedEnd, packedEnd, Unpadded, ← alignUp_eq_self_iff hm]
      constructor
      · intro h
        obtain ⟨d, hd⟩ := Nat.exists_eq_add_of_le (le_alignUp hm off)
        have hle := packedEnd_le_paddedEnd hms (alignUp m.align off + m.size)
        rw [h, hd, Nat.add_right_comm, packedEnd_add] at hle
        have hself : alignUp m.align off = off := by omega
        rw [hself] at h
        exact ⟨hself, (ih hms _).mp h⟩
      · rintro ⟨hself, hrest⟩
        rw [hself]
        exact (ih hms _).mpr hrest

end Lib
