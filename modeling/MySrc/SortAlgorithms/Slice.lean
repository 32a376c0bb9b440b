import MySrc.Lib.Cells
import MySrc.Lib.Sorting

/-!
# MySrc.SortAlgorithms.Slice

The contract the sort functions share: `sort(array, hindex, eindex, array_size)`
sorts `array[hindex..eindex]`, both ends included, and leaves the rest alone.

An `int` array is a list of integers: the sorts compare elements and move them,
and divide them towards zero, so no result depends on their width.  Indices are
naturals; where the source counts down to `-1` the model stops at the same
iteration by counting the cell behind it.
-/

namespace MySrc.SortAlgorithms

open Lib

/-- A sort function as `sort_node` stores it: `array`, `hindex`, `eindex`, `array_size`. -/
abbrev SortCb := List Int → Nat → Nat → Nat → Except Fault (List Int)

/-- `array[hindex..eindex]`. -/
def slice (array : List Int) (hindex eindex : Nat) : List Int :=
  (array.take (eindex + 1)).drop hindex

/-- `array'` is `array` with the slice put in ascending order. -/
structure SortsSlice (array array' : List Int) (hindex eindex : Nat) : Prop where
  perm : (slice array' hindex eindex).Perm (slice array hindex eindex)
  ascending : Ascending (slice array' hindex eindex)
  frame : ∀ i, i < hindex ∨ eindex < i → array'[i]? = array[i]?

/-! ## slices by their neighbours -/

section

variable {X S S' Y array array' array'' : List Int}

theorem slice_append (hX : X.length = hindex) (hS : hindex + S.length = eindex + 1) :
    slice (X ++ S ++ Y) hindex eindex = S := by
  have hlen : (X ++ S).length = eindex + 1 := by
    simp
    omega
  rw [slice, List.take_left' hlen, List.drop_left' hX]

/-- Every slice inside the array has something before and behind it. -/
theorem exists_slice (hhe : hindex ≤ eindex + 1) (he : eindex < array.length) :
    ∃ X S Y, array = X ++ S ++ Y ∧ X.length = hindex ∧ hindex + S.length = eindex + 1 := by
  refine ⟨array.take hindex, slice array hindex eindex, array.drop (eindex + 1), ?_, ?_, ?_⟩
  · have hmin : array.take hindex = (array.take (eindex + 1)).take hindex := by
      rw [List.take_take, Nat.min_eq_left hhe]
    rw [hmin, slice, List.take_append_drop, List.take_append_drop]
  · simp
    omega
  · simp [slice]
    omega

theorem frame_append (hX : X.length = hindex) (hS : hindex + S.length = eindex + 1)
    (hlen : S'.length = S.length) :
    ∀ i, i < hindex ∨ eindex < i → (X ++ S' ++ Y)[i]? = (X ++ S ++ Y)[i]? := by
  rintro i (hi | hi)
  · rw [List.append_assoc, List.append_assoc, List.getElem?_append_left (by omega),
      List.getElem?_append_left (by omega)]
  · rw [List.getElem?_append_right (by simp; omega), List.getElem?_append_right (by simp; omega)]
    simp [hlen]

theorem sortsSlice_append (hX : X.length = hindex) (hS : hindex + S.length = eindex + 1)
    (hperm : S'.Perm S) (hasc : Ascending S') :
    SortsSlice (X ++ S ++ Y) (X ++ S' ++ Y) hindex eindex := by
  have hS' : hindex + S'.length = eindex + 1 := by rw [hperm.length_eq, hS]
  refine ⟨?_, ?_, frame_append hX hS hperm.length_eq⟩
  · rwa [slice_append hX hS, slice_append hX hS']
  · rwa [slice_append hX hS']

/-- An empty slice is sorted as it is. -/
theorem sortsSlice_empty (h : eindex < hindex) : SortsSlice array array hindex eindex := by
  have hempty : slice array hindex eindex = [] := by
    rw [slice, List.drop_eq_nil_iff, List.length_take]
    omega
  refine ⟨.refl _, ?_, fun _ _ => rfl⟩
  rw [hempty]
  exact List.Pairwise.nil

/-- The contract says everything about the array. -/
theorem SortsSlice.unique (h' : SortsSlice array array' hindex eindex)
    (h'' : SortsSlice array array'' hindex eindex) : array' = array'' := by
  have hslice : slice array' hindex eindex = slice array'' hindex eindex :=
    h'.ascending.unique h''.ascending (h'.perm.trans h''.perm.symm)
  apply List.ext_getElem?
  intro i
  by_cases hi : i < hindex ∨ eindex < i
  · rw [h'.frame i hi, h''.frame i hi]
  · have := congrArg (·[i - hindex]?) hslice
    simp only [slice, List.getElem?_drop] at this
    rwa [show hindex + (i - hindex) = i by omega, List.getElem?_take_of_lt (by omega),
      List.getElem?_take_of_lt (by omega)] at this

end

end MySrc.SortAlgorithms
