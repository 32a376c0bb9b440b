import Mathlib.Algebra.Ring.Hom.Defs
import Mathlib.Algebra.BigOperators.Group.List.Basic
import Mathlib.Tactic.LinearCombination

/-!
# MySrc.Lib.CheckDigit

Check digits.  A word over a ring has a weighted sum, and a code takes the words whose
sum is a fixed one.  Where a ring has no zero divisors, one wrong letter changes the sum
when no weight is zero, and two neighbours that change places do when their weights
differ.
-/

namespace Lib

section

variable {R : Type*} [CommRing R]

/-- The letters of a word times their weights, summed up. -/
def weightedSum (w x : List R) : R := (List.zipWith (· * ·) w x).sum

@[simp] theorem weightedSum_nil (w : List R) : weightedSum w [] = 0 := by
  simp [weightedSum]

@[simp] theorem weightedSum_cons (v c : R) (w x : List R) :
    weightedSum (v :: w) (c :: x) = v * c + weightedSum w x := by
  simp [weightedSum]

theorem weightedSum_append {w₁ x₁ : List R} (h : w₁.length = x₁.length) (w₂ x₂ : List R) :
    weightedSum (w₁ ++ w₂) (x₁ ++ x₂) = weightedSum w₁ x₁ + weightedSum w₂ x₂ := by
  rw [weightedSum, List.zipWith_append h, List.sum_append, weightedSum, weightedSum]

/-- A homomorphism of rings keeps weighted sums. -/
theorem weightedSum_map {S : Type*} [CommRing S] (f : R →+* S) (w x : List R) :
    weightedSum (w.map f) (x.map f) = f (weightedSum w x) := by
  induction w generalizing x with
  | nil => simp [weightedSum]
  | cons v w ih =>
      cases x with
      | nil => simp
      | cons c x => simp [ih]

/-! ## errors -/

variable [NoZeroDivisors R] {w a b : List R} {c d : R}

/-- **One wrong letter** changes the sum when no weight is zero. -/
theorem eq_of_weightedSum_substitute (hw : ∀ v ∈ w, v ≠ 0) (hlen : a.length < w.length)
    (h : weightedSum w (a ++ c :: b) = weightedSum w (a ++ d :: b)) : c = d := by
  induction a generalizing w with
  | nil =>
      cases w with
      | nil => simp at hlen
      | cons v w =>
          have hzero : v * (c - d) = 0 := by
            simp only [List.nil_append, weightedSum_cons] at h
            linear_combination h
          have hdiff := (mul_eq_zero.mp hzero).resolve_left (hw v List.mem_cons_self)
          exact sub_eq_zero.mp hdiff
  | cons e a ih =>
      cases w with
      | nil => simp at hlen
      | cons v w =>
          simp only [List.cons_append, weightedSum_cons, add_right_inj] at h
          exact ih (fun u hu => hw u (List.mem_cons_of_mem v hu)) (by simpa using hlen) h

/-- **Neighbours that change places** change the sum when neighbouring weights differ. -/
theorem eq_of_weightedSum_swap (hw : w.IsChain (· ≠ ·)) (hlen : a.length + 1 < w.length)
    (h : weightedSum w (a ++ c :: d :: b) = weightedSum w (a ++ d :: c :: b)) : c = d := by
  induction a generalizing w with
  | nil =>
      cases w with
      | nil => simp at hlen
      | cons u w =>
          cases w with
          | nil => simp at hlen
          | cons v w =>
              have hzero : (u - v) * (c - d) = 0 := by
                simp only [List.nil_append, weightedSum_cons] at h
                linear_combination h
              have hne : u - v ≠ 0 := sub_ne_zero.mpr (List.isChain_cons_cons.mp hw).1
              exact sub_eq_zero.mp ((mul_eq_zero.mp hzero).resolve_left hne)
  | cons e a ih =>
      cases w with
      | nil => simp at hlen
      | cons v w =>
          simp only [List.cons_append, weightedSum_cons, add_right_inj] at h
          exact ih hw.of_cons (by simpa using hlen) h

end

end Lib
