import MySrc.Lib.BinaryHeap
import MySrc.SortAlgorithms.Slice

/-!
# MySrc.SortAlgorithms.HeapSort

`heap_sort`: `max_heap` makes the array a heap, then the root is exchanged with
the last cell of the heap, which shrinks by one, and sinks to its place again.

`heap_sort` is about whole arrays: the children of a cell are found by its
index in the array, not in the slice.
-/

namespace MySrc.SortAlgorithms

open Lib
open scoped List

/-! ## the model -/

/-- `LEFT(x)`. -/
def left (x : Nat) : Nat := 2 * x + 1

/-- `RIGHT(x)`. -/
def right (x : Nat) : Nat := 2 * x + 2

/-- `if (child < array_size && array[child] > array[current]) current = child;` -/
def largerOf (array : List Int) (arraySize current child : Nat) : Except Fault Nat :=
  if child < arraySize then do
    let c ← getCell array child
    let v ← getCell array current
    if c > v then .ok child else .ok current
  else .ok current

/-- The loop of `up_heap`, at whose head `current` is `index`. -/
def upHeapLoop (arraySize : Nat) : Nat → List Int → Nat → Except Fault (List Int)
  | 0, _, _ => .error .diverge
  | fuel + 1, array, index =>
      if index < arraySize / 2 then do
        let current ← largerOf array arraySize index (left index)
        let current ← largerOf array arraySize current (right index)
        if current ≠ index then do
          let array ← swapCells array current index
          upHeapLoop arraySize fuel array current
        else .ok array
      else .ok array

def upHeap (array : List Int) (index arraySize : Nat) : Except Fault (List Int) :=
  upHeapLoop arraySize (arraySize + 1) array index

/-- `for (i = array_size/2 - 1; i >= hindex; --i)`. -/
def maxHeap (array : List Int) (hindex _eindex arraySize : Nat) : Except Fault (List Int) :=
  (List.range' hindex (arraySize / 2 - hindex)).reverse.foldlM
    (fun array i => upHeap array i arraySize) array

/-- `while (array_size > 0 && tail_index > hindex)`. -/
def heapLoop (hindex : Nat) : Nat → List Int → Nat → Nat → Except Fault (List Int)
  | 0, _, _, _ => .error .diverge
  | fuel + 1, array, arraySize, tailIndex =>
      if arraySize > 0 ∧ tailIndex > hindex then do
        let array ← swapCells array tailIndex hindex
        let array ← upHeap array hindex (arraySize - 1)
        heapLoop hindex fuel array (arraySize - 1) (tailIndex - 1)
      else .ok array

/-- The body of that loop, on the array, `array_size` and `tail_index`. -/
def heapTurn (hindex : Nat) (s : List Int × Nat × Nat) : Except Fault (List Int × Nat × Nat) := do
  let (array, arraySize, tailIndex) := s
  let array ← swapCells array tailIndex hindex
  let array ← upHeap array hindex (arraySize - 1)
  .ok (array, arraySize - 1, tailIndex - 1)

/-- The first turns of the loop. -/
def heapTurns (hindex : Nat) : Nat → List Int × Nat × Nat → Except Fault (List Int × Nat × Nat)
  | 0, s => .ok s
  | k + 1, s => do
      let s ← heapTurn hindex s
      heapTurns hindex k s

def heapSort : SortCb := fun array hindex eindex arraySize => do
  let array ← maxHeap array hindex eindex arraySize
  heapLoop hindex (eindex + 1) array arraySize eindex

/-! ## up_heap -/

/-- The array as a function of the index. -/
def valueAt (array : List Int) : Nat → Int := fun k => array.getD k 0

/-- The loop of `up_heap` sinks a cell below the larger of its children. -/
theorem upHeapLoop_eq (size fuel : Nat) (array : List Int) (index : Nat) :
    upHeapLoop size fuel array index = sinkLoop (· > ·) size fuel array index := by
  induction fuel generalizing array index with
  | zero => rfl
  | succ fuel ih =>
      simp only [upHeapLoop, sinkLoop, ih]
      rfl

theorem above_iff (a b : Int) : a > b ↔ id b < id a := Iff.rfl

/-- An element that may be too small goes down to its place. -/
theorem upHeap_spec {array : List Int} (hsize : size ≤ array.length) (hlo : lo ≤ index)
    (h : HeapExcept (valueAt array) lo size index) :
    ∃ array', upHeap array index size = .ok array' ∧ array'.Perm array ∧
      array'.drop size = array.drop size ∧ HeapFrom (valueAt array') lo size := by
  rw [upHeap, upHeapLoop_eq]
  exact sinkLoop_spec id above_iff 0 hsize hlo h (by omega)

/-! ## max_heap -/

/-- `max_heap` puts the whole array in heap order, for the parents from `hindex` on. -/
theorem maxHeap_spec (array : List Int) (hindex eindex : Nat) :
    ∃ array', maxHeap array hindex eindex array.length = .ok array' ∧ array'.Perm array ∧
      HeapFrom (valueAt array') hindex array.length :=
  build_spec id above_iff 0 array hindex fun array' i => upHeapLoop_eq _ _ array' i

/-! ## heap_sort -/

/-- What the exchange of the root with the last cell of the heap leaves in heap order. -/
theorem heapExcept_swap_root {root last : Int} {mid tail : List Int}
    (h : HeapFrom (valueAt (root :: (mid ++ last :: tail))) 0 (mid.length + 2)) :
    HeapExcept (valueAt (last :: (mid ++ root :: tail))) 0 (mid.length + 1) 0 := by
  have hsame : ∀ k, k ≠ 0 → k < mid.length + 1 →
      valueAt (last :: (mid ++ root :: tail)) k = valueAt (root :: (mid ++ last :: tail)) k := by
    intro k hk hkm
    obtain ⟨k, rfl⟩ : ∃ m, k = m + 1 := ⟨k - 1, by omega⟩
    have hk' : k < mid.length := by omega
    simp [valueAt, List.getElem?_append_left hk']
  constructor
  · intro p c hp hp0 hc hpc
    have hlt : p < c := by
      unfold IsChild at hpc
      omega
    rw [hsame c (by omega) hc, hsame p hp0 (by omega)]
    exact h p c hp (by omega) hpc
  · intro p c hp hp0
    unfold IsChild at hp0
    omega

/-- The first cell of a heap holds its largest element. -/
theorem below_root {root : Int} {mid : List Int} (tail : List Int)
    (h : HeapFrom (valueAt (root :: (mid ++ tail))) 0 (mid.length + 1)) : Below mid [root] := by
  rw [below_singleton]
  intro x hx
  obtain ⟨k, hk, rfl⟩ := List.mem_iff_getElem.mp hx
  have := h.le_root (show k + 1 < mid.length + 1 by omega)
  simpa [valueAt, List.getElem?_append_left hk, hk] using this

/-- Between two turns of the extraction: a heap in front, whose elements are not above the
sorted cells behind it. -/
structure Extracting (input array : List Int) (size : Nat) : Prop where
  perm : array.Perm input
  inside : size ≤ array.length
  heap : HeapFrom (valueAt array) 0 size
  sorted : Ascending (array.drop size)
  below : Below (array.take size) (array.drop size)

/-- A turn moves the root of the heap in front of the sorted cells. -/
theorem heapTurn_spec {input array : List Int} (h : Extracting input array (t + 2)) :
    ∃ array', heapTurn 0 (array, t + 2, t + 1) = .ok (array', t + 1, t) ∧
      Extracting input array' (t + 1) := by
  obtain ⟨hinput, hinside, hheap, hsorted, hbelow⟩ := h
  obtain ⟨root, mid, last, tail, rfl, hmid⟩ : ∃ root mid last tail,
      array = root :: (mid ++ last :: tail) ∧ mid.length = t := by
    obtain ⟨root, rest, rfl⟩ := List.exists_cons_of_length_pos (show 0 < array.length by omega)
    rw [List.length_cons] at hinside
    have hlt : t < rest.length := by omega
    refine ⟨root, rest.take t, rest[t], rest.drop (t + 1), ?_, by simp; omega⟩
    rw [← List.drop_eq_getElem_cons hlt, List.take_append_drop]
  subst hmid
  have hsplit : root :: (mid ++ last :: tail) = root :: (mid ++ [last]) ++ tail := by simp
  have hlen : (root :: (mid ++ [last])).length = mid.length + 2 := by simp
  rw [hsplit, List.drop_left' hlen] at hsorted
  rw [hsplit, List.take_left' hlen, List.drop_left' hlen] at hbelow
  have hroot : Below (mid ++ [last]) [root] := below_root tail (by simpa using hheap)
  have hswap : swapCells (root :: (mid ++ last :: tail)) (mid.length + 1) 0 =
      .ok (last :: (mid ++ root :: tail)) := by
    change swapCells ([] ++ root :: mid ++ last :: tail) _ _ =
      .ok ([] ++ last :: mid ++ root :: tail)
    exact swapCells_back (by simp; omega) rfl
  obtain ⟨array₂, hrun₂, hperm₂, hdrop₂, hheap₂⟩ := upHeap_spec (by simp) (Nat.le_refl 0)
    (heapExcept_swap_root hheap)
  -- behind the smaller heap stands the old root, in front of what was sorted before
  have htail : array₂.drop (mid.length + 1) = root :: tail := by simp [hdrop₂]
  have hfront : (array₂.take (mid.length + 1)).Perm (mid ++ [last]) := by
    rw [← List.take_append_drop (mid.length + 1) array₂, htail] at hperm₂
    exact ((List.perm_append_right_iff _).mp hperm₂).trans (List.perm_append_singleton _ _).symm
  obtain ⟨hroot', hrest⟩ := below_append.mp (show Below ([root] ++ (mid ++ [last])) tail by
    simpa using hbelow)
  have hmoved : last :: (mid ++ root :: tail) ~ root :: (mid ++ last :: tail) := by
    calc last :: (mid ++ root :: tail)
      _ ~ last :: root :: (mid ++ tail) := List.perm_middle.cons last
      _ ~ root :: last :: (mid ++ tail) := .swap root last _
      _ ~ root :: (mid ++ last :: tail) := List.perm_middle.symm.cons root
  refine ⟨array₂, ?_, ?_⟩
  · simp only [heapTurn, hswap, ok_bind, Nat.add_sub_cancel]
    rw [show mid.length + 2 - 1 = mid.length + 1 by omega, hrun₂, ok_bind]
  · refine ⟨hperm₂.trans (hmoved.trans hinput), ?_, hheap₂, ?_, ?_⟩
    · rw [hperm₂.length_eq]
      simp
    · rw [htail]
      exact Ascending.append (List.pairwise_singleton _ root) hsorted hroot'
    · rw [htail]
      exact below_cons_right.mpr ⟨hroot.perm hfront, hrest.perm hfront⟩

/-- The first turns, one after the other. -/
theorem heapTurns_spec (k : Nat) {input array : List Int}
    (h : Extracting input array (t + k + 1)) :
    ∃ array', heapTurns 0 k (array, t + k + 1, t + k) = .ok (array', t + 1, t) ∧
      Extracting input array' (t + 1) := by
  induction k generalizing array with
  | zero => exact ⟨array, rfl, h⟩
  | succ k ih =>
      obtain ⟨array₁, hturn, h₁⟩ := heapTurn_spec (t := t + k) h
      obtain ⟨array', hturns, h'⟩ := ih h₁
      refine ⟨array', ?_, h'⟩
      rw [heapTurns, ← Nat.add_assoc, hturn, ok_bind, hturns]

/-- The turns from a heap of a whole array, as far as there are cells. -/
theorem heapTurns_whole {array heap : List Int} (h : Extracting array heap array.length)
    (hk : k < array.length) :
    ∃ array', heapTurns 0 k (heap, array.length, array.length - 1) =
        .ok (array', array.length - k, array.length - 1 - k) ∧
      Extracting array array' (array.length - k) := by
  obtain ⟨t, ht⟩ : ∃ t, array.length = t + k + 1 := ⟨array.length - k - 1, by omega⟩
  obtain ⟨array', hturns, h'⟩ := heapTurns_spec (t := t) k (ht ▸ h)
  refine ⟨array', ?_, ?_⟩
  · rw [ht, show t + k + 1 - 1 = t + k by omega, show t + k + 1 - k = t + 1 by omega,
      Nat.add_sub_cancel]
    exact hturns
  · rw [show array.length - k = t + 1 by omega]
    exact h'

/-- The loop takes a turn for every cell of the heap but the first. -/
theorem heapLoop_eq (t : Nat) (array : List Int) (hfuel : t < fuel) :
    heapLoop 0 fuel array (t + 1) t = heapTurns 0 t (array, t + 1, t) >>= fun s => .ok s.1 := by
  induction t generalizing fuel array with
  | zero =>
      obtain ⟨fuel, rfl⟩ : ∃ m, fuel = m + 1 := ⟨fuel - 1, by omega⟩
      rw [heapLoop, if_neg (by omega)]
      rfl
  | succ t ih =>
      obtain ⟨fuel, rfl⟩ : ∃ m, fuel = m + 1 := ⟨fuel - 1, by omega⟩
      rw [heapLoop, if_pos (by omega)]
      simp only [heapTurns, heapTurn, bind_assoc, Nat.add_sub_cancel, ok_bind]
      simp only [ih _ (show t < fuel by omega)]

/-- The phases of `heap_sort` on a whole array: the heap of `max_heap`, then a turn for every
cell but one. -/
theorem heapSort_phases {array : List Int} (hne : array ≠ []) :
    ∃ heap, maxHeap array 0 (array.length - 1) array.length = .ok heap ∧
      Extracting array heap array.length ∧
      heapSort array 0 (array.length - 1) array.length =
        heapTurns 0 (array.length - 1) (heap, array.length, array.length - 1) >>=
          fun s => .ok s.1 := by
  have hpos := List.length_pos_iff.mpr hne
  obtain ⟨heap, hrun, hperm, hheap⟩ := maxHeap_spec array 0 (array.length - 1)
  have hn : array.length - 1 + 1 = array.length := by omega
  have hdrop : heap.drop array.length = [] :=
    List.drop_eq_nil_iff.mpr hperm.length_eq.le
  refine ⟨heap, hrun, ⟨hperm, hperm.length_eq.ge, hheap, ?_, ?_⟩, ?_⟩
  · rw [hdrop]
    exact List.Pairwise.nil
  · rw [hdrop]
    exact below_nil_right _
  · have hloop := heapLoop_eq (array.length - 1) heap
      (show array.length - 1 < array.length by omega)
    rw [hn] at hloop
    rw [heapSort, hrun, ok_bind, hn, hloop]

/-- The heap in front of the last turn is one cell, and the array is sorted. -/
theorem Extracting.ascending {input array : List Int} (h : Extracting input array 1) :
    Ascending array := by
  rw [← List.take_append_drop 1 array]
  exact (ascending_of_length_lt (by simp)).append h.sorted h.below

/-- The last turn leaves the array that `heap_sort` leaves, sorted. -/
theorem heapSort_last_turn {array : List Int} (hne : array ≠ []) :
    ∃ heap sorted, maxHeap array 0 (array.length - 1) array.length = .ok heap ∧
      Extracting array heap array.length ∧
      heapTurns 0 (array.length - 1) (heap, array.length, array.length - 1) =
        .ok (sorted, 1, 0) ∧
      heapSort array 0 (array.length - 1) array.length = .ok sorted ∧
      sorted.Perm array ∧ Ascending sorted := by
  have hpos := List.length_pos_iff.mpr hne
  obtain ⟨heap, hrun, hextract, hsort⟩ := heapSort_phases hne
  obtain ⟨sorted, hlast, hsorted⟩ :=
    heapTurns_whole hextract (show array.length - 1 < array.length by omega)
  have hone : array.length - (array.length - 1) = 1 := by omega
  rw [hone, Nat.sub_self] at hlast
  rw [hone] at hsorted
  refine ⟨heap, sorted, hrun, hextract, hlast, ?_, hsorted.perm, hsorted.ascending⟩
  rw [hsort, hlast]
  rfl

/-- `heap_sort` sorts whole arrays. -/
theorem heapSort_sorts {array : List Int} (hne : array ≠ []) :
    ∃ array', heapSort array 0 (array.length - 1) array.length = .ok array' ∧
      array'.Perm array ∧ Ascending array' := by
  obtain ⟨-, sorted, -, -, -, hsort⟩ := heapSort_last_turn hne
  exact ⟨sorted, hsort⟩

/-- **`heap_sort`** on a whole array: `max_heap` makes a heap of it, every extraction leaves a
heap that is one cell shorter, and the last one leaves the array sorted. -/
theorem heapSort_keeps_heap {array : List Int} (hne : array ≠ []) :
    ∃ heap sorted, maxHeap array 0 (array.length - 1) array.length = .ok heap ∧
      HeapFrom (valueAt heap) 0 array.length ∧
      (∀ k < array.length, ∃ array',
        heapTurns 0 k (heap, array.length, array.length - 1) =
          .ok (array', array.length - k, array.length - 1 - k) ∧
        array'.Perm array ∧ HeapFrom (valueAt array') 0 (array.length - k)) ∧
      heapTurns 0 (array.length - 1) (heap, array.length, array.length - 1) =
        .ok (sorted, 1, 0) ∧
      heapSort array 0 (array.length - 1) array.length = .ok sorted ∧
      sorted.Perm array ∧ Ascending sorted := by
  obtain ⟨heap, sorted, hrun, hextract, hlast, hsort⟩ := heapSort_last_turn hne
  refine ⟨heap, sorted, hrun, hextract.heap, fun k hk => ?_, hlast, hsort⟩
  obtain ⟨array', hturns, h'⟩ := heapTurns_whole hextract hk
  exact ⟨array', hturns, h'.perm, h'.heap⟩

/-- Three elements are sorted. -/
theorem heapSort_keeps_heap_small :
    ∃ sorted, heapSort [2, 3, 1] 0 2 3 = .ok sorted ∧ sorted.Perm [2, 3, 1] ∧
      Ascending sorted := by
  obtain ⟨-, sorted, -, -, -, -, h⟩ := heapSort_keeps_heap (show [2, 3, 1] ≠ [] by decide)
  exact ⟨sorted, h⟩

end MySrc.SortAlgorithms
