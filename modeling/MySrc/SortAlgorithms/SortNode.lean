import MySrc.SortAlgorithms.ExchangeSort
import MySrc.SortAlgorithms.HeapSort
import MySrc.SortAlgorithms.InsertSort
import MySrc.SortAlgorithms.MergeSort

/-!
# MySrc.SortAlgorithms.SortNode

`sort_node`: a slice of an array together with the sort function its type
names.

Every type that has a function keeps the contract of the slice, within its
reach: `insert_sort`, `bubble_sort`, `quick_sort` and `select_sort` on every
slice, `radix_sort` where the last three digits order the numbers, and
`heap_sort`, `shell_sort` and `merge_sort` on whole arrays.  Within that reach
the types are interchangeable, since the contract leaves one array.
-/

namespace MySrc.SortAlgorithms

open Lib

/-! ## the model -/

/-- The `enum` of the sort types. -/
inductive SortType
  | bitmap
  | bubble
  | bucket
  | count
  | insert
  | merge
  | heap
  | quick
  | radix
  | select
  | shell
  deriving Repr, DecidableEq

/-- The value of an enumerator. -/
def SortType.code : SortType → Int
  | bitmap => 1
  | bubble => 2
  | bucket => 3
  | count => 4
  | insert => 5
  | merge => 6
  | heap => 7
  | quick => 8
  | radix => 9
  | select => 10
  | shell => 11

structure SortNode where
  array2sort : List Int
  type : Int
  hindex : Nat
  eindex : Nat
  arrayLen : Nat
  cb : SortCb

/-- `switch (type)`: the function of a type, if it has one. -/
def sortCb (type : Int) : Option SortCb :=
  if type = SortType.insert.code then some insertSort
  else if type = SortType.bubble.code then some bubbleSort
  else if type = SortType.quick.code then some quickSort
  else if type = SortType.heap.code then some heapSort
  else if type = SortType.select.code then some selectSort
  else if type = SortType.shell.code then some shellSort
  else if type = SortType.merge.code then some mergeSort
  else if type = SortType.radix.code then some radixSort
  else none

/-- `sort_node_init`, when the node can be allocated. -/
def sortNodeInit (array : List Int) (hindex eindex arrayLen : Nat) (type : Int) : SortNode :=
  match sortCb type with
  | some cb => ⟨array, type, hindex, eindex, arrayLen, cb⟩
  | none => ⟨array, SortType.insert.code, hindex, eindex, arrayLen, insertSort⟩

/-- `sort_node_run`: the array after the sort. -/
def sortNodeRun (snode : SortNode) : Except Fault (List Int) :=
  snode.cb snode.array2sort snode.hindex snode.eindex snode.arrayLen

/-- `sort_node_run` on `sort_node_init(array, hindex, eindex, array_len, type)`. -/
def sortWith (type : SortType) (array : List Int) (hindex eindex : Nat) :
    Except Fault (List Int) :=
  sortNodeRun (sortNodeInit array hindex eindex array.length type.code)

/-- The sort ends and keeps the contract of the slice. -/
def Sorts (type : SortType) (array : List Int) (hindex eindex : Nat) : Prop :=
  ∃ array', sortWith type array hindex eindex = .ok array' ∧
    SortsSlice array array' hindex eindex

/-! ## the contract -/

section

variable {array : List Int}

/-- Two types that keep the contract leave the same array. -/
theorem Sorts.same (h : Sorts type array hindex eindex) (h' : Sorts type' array hindex eindex) :
    sortWith type array hindex eindex = sortWith type' array hindex eindex := by
  obtain ⟨array₁, hrun, hsorts⟩ := h
  obtain ⟨array₂, hrun', hsorts'⟩ := h'
  rw [hrun, hrun', hsorts.unique hsorts']

/-- A function that sorts whatever stands between two parts keeps the contract. -/
theorem sorts_of_parts (hhe : hindex ≤ eindex) (he : eindex < array.length)
    (hcb : ∀ X S Y : List Int, array = X ++ S ++ Y → X.length = hindex →
      hindex + S.length = eindex + 1 →
      ∃ S', sortWith type (X ++ S ++ Y) hindex eindex = .ok (X ++ S' ++ Y) ∧ S'.Perm S ∧
        Ascending S') : Sorts type array hindex eindex := by
  obtain ⟨X, S, Y, rfl, hX, hS⟩ := exists_slice (show hindex ≤ eindex + 1 by omega) he
  obtain ⟨S', hrun, hperm, hasc⟩ := hcb X S Y rfl hX hS
  exact ⟨_, hrun, sortsSlice_append hX hS hperm hasc⟩

/-- A function that sorts whole arrays keeps the contract on them. -/
theorem sorts_of_whole (he : eindex + 1 = array.length)
    (hcb : ∃ array', sortWith type array 0 eindex = .ok array' ∧ array'.Perm array ∧
      Ascending array') : Sorts type array 0 eindex := by
  obtain ⟨array', hrun, hperm, hasc⟩ := hcb
  refine ⟨array', hrun, ?_⟩
  have := sortsSlice_append (X := []) (S := array) (Y := []) rfl
    (show 0 + array.length = eindex + 1 by omega) hperm hasc
  simpa using this

/-- `array'` is `array` with the slice put in the order of the last three digits. -/
structure OrdersDigits (array array' : List Int) (hindex eindex : Nat) : Prop where
  perm : (slice array' hindex eindex).Perm (slice array hindex eindex)
  ordered : (slice array' hindex eindex).Pairwise fun a b => lastDigits a ≤ lastDigits b
  frame : ∀ i, i < hindex ∨ eindex < i → array'[i]? = array[i]?

/-- `radix_sort` puts every slice in the order of the last three digits. -/
theorem radix_ordersDigits (hhe : hindex ≤ eindex) (he : eindex < array.length) :
    ∃ array', sortWith .radix array hindex eindex = .ok array' ∧
      OrdersDigits array array' hindex eindex := by
  obtain ⟨X, S, Y, rfl, hX, hS⟩ := exists_slice (show hindex ≤ eindex + 1 by omega) he
  obtain ⟨S', hrun, hspec⟩ := radixSort_spec (n := (X ++ S ++ Y).length) (Y := Y) hX hS
  have hS' : hindex + S'.length = eindex + 1 := by rw [hspec.perm.length_eq, hS]
  refine ⟨_, hrun, ?_, ?_, frame_append hX hS hspec.perm.length_eq⟩
  · rw [slice_append hX hS, slice_append hX hS']
    exact hspec.perm
  · rw [slice_append hX hS']
    refine (hspec.lex _ pairwise_true).imp fun hab => ?_
    unfold KeyLex at hab
    omega

/-- `radix_sort` sorts exactly the slices in which the digits agree with the values. -/
theorem sorts_radix_iff (hhe : hindex ≤ eindex) (he : eindex < array.length) :
    Sorts .radix array hindex eindex ↔ (slice array hindex eindex).Pairwise DigitsAgree := by
  obtain ⟨X, S, Y, rfl, hX, hS⟩ := exists_slice (show hindex ≤ eindex + 1 by omega) he
  obtain ⟨S', hrun, hspec⟩ := radixSort_spec (n := (X ++ S ++ Y).length) (Y := Y) hX hS
  have hS' : hindex + S'.length = eindex + 1 := by rw [hspec.perm.length_eq, hS]
  rw [slice_append hX hS]
  constructor
  · rintro ⟨array', hrun', hsorts⟩
    obtain rfl : X ++ S' ++ Y = array' := Except.ok.inj (hrun.symm.trans hrun')
    have hasc := hsorts.ascending
    rw [slice_append hX hS'] at hasc
    exact hspec.digitsAgree hasc
  · intro hagree
    exact ⟨_, hrun, sortsSlice_append hX hS hspec.perm (hspec.ascending hagree)⟩

/-- Numbers of up to three digits agree with their digits. -/
theorem digitsAgree_of_lt {S : List Int} (h : ∀ x ∈ S, -1000 < x ∧ x < 1000) :
    S.Pairwise DigitsAgree := by
  refine List.pairwise_of_forall_mem_list fun a ha b hb => ?_
  rw [DigitsAgree, lastDigits_of_lt (h a ha), lastDigits_of_lt (h b hb)]
  exact ⟨le_of_lt, id⟩

end

/-- **`__merge_sort` and `shell_sort`** end on every array without an access outside it, and
leave the same array: the input in ascending order. -/
theorem mergeSort_shellSort_same (array : List Int) (hindex eindex : Nat) :
    ∃ sorted, mergeSortLoop (array.length + 1) array 0 array.length = .ok sorted ∧
      shellSort array hindex eindex array.length = .ok sorted ∧ sorted.Perm array ∧
      Ascending sorted := by
  obtain ⟨merged, hmerge, hperm, hasc⟩ := mergeSort_sorts array hindex eindex
  obtain ⟨shelled, hshell, hperm', hasc'⟩ := shellSort_sorts array hindex eindex
  obtain rfl : merged = shelled := hasc.unique hasc' (hperm.trans hperm'.symm)
  exact ⟨merged, hmerge, hshell, hperm, hasc⟩

/-- The passes of `radix_sort` do nothing on an empty slice. -/
theorem radixSort_empty (array : List Int) (n : Nat) (h : eindex < hindex) :
    radixSort array hindex eindex n = .ok array := by
  have hpass : ∀ key, insertPass key array hindex eindex = .ok array := by
    intro key
    rw [insertPass, Nat.sub_eq_zero_of_le h.le]
    rfl
  simp only [radixSort, depth, List.range_succ, List.range_zero, List.nil_append,
    List.cons_append, List.foldlM_cons, hpass, ok_bind, List.foldlM_nil]
  rfl

/-- **`radix_sort`** sorts every slice of numbers of up to three digits, of either sign. -/
theorem radixSort_three_digits {array : List Int} (n : Nat)
    (he : hindex ≤ eindex → eindex < array.length)
    (hdigits : ∀ x ∈ slice array hindex eindex, -999 ≤ x ∧ x ≤ 999) :
    ∃ array', radixSort array hindex eindex n = .ok array' ∧
      SortsSlice array array' hindex eindex := by
  by_cases hhe : hindex ≤ eindex
  · obtain ⟨X, S, Y, rfl, hX, hS⟩ := exists_slice (show hindex ≤ eindex + 1 by omega) (he hhe)
    obtain ⟨S', hrun, hspec⟩ := radixSort_spec (n := n) (Y := Y) hX hS
    rw [slice_append hX hS] at hdigits
    have hagree : S.Pairwise DigitsAgree := digitsAgree_of_lt fun x hx => by
      have hx' := hdigits x hx
      omega
    exact ⟨_, hrun, sortsSlice_append hX hS hspec.perm (hspec.ascending hagree)⟩
  · exact ⟨array, radixSort_empty array n (by omega), sortsSlice_empty (by omega)⟩

/-- A slice with numbers of both signs and of three digits. -/
theorem radixSort_three_digits_signs :
    ∃ array', radixSort [7, 120, -999, 0, -12, 8] 1 4 6 = .ok array' ∧
      SortsSlice [7, 120, -999, 0, -12, 8] array' 1 4 :=
  radixSort_three_digits 6 (by decide) (by decide)

/-- **Interchangeable sort types.**  On every slice inside an array, four of the types keep
the contract; three more keep it when the slice is the whole array; and `RADIX`, which
orders by three digits, keeps it exactly when these agree with the values, as they do for
numbers of up to three digits.  Any two types that keep it leave the same array. -/
theorem sortTypes_interchangeable (array : List Int) (hindex eindex : Nat)
    (hhe : hindex ≤ eindex) (he : eindex < array.length) :
    (∀ type ∈ [SortType.insert, .bubble, .quick, .select], Sorts type array hindex eindex) ∧
    (hindex = 0 → eindex + 1 = array.length →
      ∀ type ∈ [SortType.heap, .shell, .merge], Sorts type array hindex eindex) ∧
    (∃ array', sortWith .radix array hindex eindex = .ok array' ∧
      OrdersDigits array array' hindex eindex) ∧
    (Sorts .radix array hindex eindex ↔ (slice array hindex eindex).Pairwise DigitsAgree) ∧
    ((∀ x ∈ slice array hindex eindex, -1000 < x ∧ x < 1000) →
      Sorts .radix array hindex eindex) ∧
    ∀ type type', Sorts type array hindex eindex → Sorts type' array hindex eindex →
      sortWith type array hindex eindex = sortWith type' array hindex eindex := by
  refine ⟨?_, ?_, radix_ordersDigits hhe he, sorts_radix_iff hhe he, ?_, fun _ _ => Sorts.same⟩
  · intro type htype
    refine sorts_of_parts hhe he fun X S Y _ hX hS => ?_
    simp only [List.mem_cons, List.not_mem_nil, or_false] at htype
    obtain rfl | rfl | rfl | rfl := htype
    · exact insertSort_sorts (n := (X ++ S ++ Y).length) hX hS
    · exact bubbleSort_sorts (n := (X ++ S ++ Y).length) hX hS
    · exact quickSort_sorts (n := (X ++ S ++ Y).length) hX hS
    · exact selectSort_sorts (n := (X ++ S ++ Y).length) hX hS
  · rintro rfl hwhole type htype
    have hne : array ≠ [] := List.length_pos_iff.mp (by omega)
    refine sorts_of_whole hwhole ?_
    simp only [List.mem_cons, List.not_mem_nil, or_false] at htype
    obtain rfl | rfl | rfl := htype
    · have hsorts := heapSort_sorts hne
      rw [show array.length - 1 = eindex by omega] at hsorts
      exact hsorts
    · exact shellSort_sorts array 0 eindex
    · exact mergeSort_sorts array 0 eindex
  · intro hdigits
    exact (sorts_radix_iff hhe he).mpr (digitsAgree_of_lt hdigits)

/-- The whole of a small array, by digits and by a heap. -/
theorem sortTypes_interchangeable_small :
    (0 ≤ 2 ∧ 2 < [3, -1, 2].length) ∧
      sortWith .radix [3, -1, 2] 0 2 = sortWith .heap [3, -1, 2] 0 2 := by
  obtain ⟨-, hwhole, -, -, hradix, hsame⟩ :=
    sortTypes_interchangeable [3, -1, 2] 0 2 (by decide) (by decide)
  exact ⟨by decide, hsame .radix .heap (hradix (by decide)) (hwhole rfl rfl .heap (by decide))⟩

/-- Outside their reach the types differ: `RADIX` leaves `1000` before `1`, and `HEAP`,
`SHELL` and `MERGE` move an element that the one-element slice does not hold. -/
theorem sortTypes_differ :
    ¬ Sorts .radix [1000, 1] 0 1 ∧ ¬ Sorts .heap [0, 1] 0 0 ∧ ¬ Sorts .shell [1, 0] 1 1 ∧
      ¬ Sorts .merge [1, 0] 1 1 := by
  refine ⟨?_, ?_, ?_, ?_⟩
  · rintro ⟨array', hrun, hsorts⟩
    obtain rfl : [1000, 1] = array' := Except.ok.inj hrun
    exact absurd (hsorts.ascending.forall_sublist (.refl _)) (by decide)
  · rintro ⟨array', hrun, hsorts⟩
    obtain rfl : [1, 0] = array' := Except.ok.inj hrun
    exact absurd (hsorts.frame 1 (by decide)) (by decide)
  · rintro ⟨array', hrun, hsorts⟩
    obtain rfl : [0, 1] = array' := Except.ok.inj hrun
    exact absurd (hsorts.frame 0 (by decide)) (by decide)
  · rintro ⟨array', hrun, hsorts⟩
    obtain rfl : [0, 1] = array' := Except.ok.inj hrun
    exact absurd (hsorts.frame 0 (by decide)) (by decide)

end MySrc.SortAlgorithms
