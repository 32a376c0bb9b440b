import MySrc.SortAlgorithms.Slice

/-!
# MySrc.SortAlgorithms.ExchangeSort

The sorts that exchange cells inside the slice: `bubble_sort`, `select_sort`
and `quick_sort`.
-/

namespace MySrc.SortAlgorithms

open Lib

/-! ## the model -/

/-- `if (array[i] > array[i+1]) SWAP(&array[i], &array[i+1]);` -/
def bubbleStep (array : List Int) (i : Nat) : Except Fault (List Int) := do
  let a ← getCell array i
  let b ← getCell array (i + 1)
  if a > b then swapCells array i (i + 1) else .ok array

/-- `for (i = hindex; i < j; ++i)`. -/
def bubblePass (hindex : Nat) (array : List Int) (j : Nat) : Except Fault (List Int) :=
  (List.range' hindex (j - hindex)).foldlM bubbleStep array

/-- `for (j = eindex; j >= hindex; --j)`. -/
def bubbleSort : SortCb := fun array hindex eindex _ =>
  (List.range' hindex (eindex + 1 - hindex)).reverse.foldlM (bubblePass hindex) array

/-- `if (array[i] < array[min]) min = i;` -/
def minStep (array : List Int) (min i : Nat) : Except Fault Nat := do
  let a ← getCell array i
  let m ← getCell array min
  if a < m then .ok i else .ok min

/-- `min = j; for (i = j; i <= eindex; ++i)`. -/
def findMin (array : List Int) (j eindex : Nat) : Except Fault Nat :=
  (List.range' j (eindex + 1 - j)).foldlM (minStep array) j

/-- `if (min != j) SWAP(&array[min], &array[j]);` -/
def selectStep (eindex : Nat) (array : List Int) (j : Nat) : Except Fault (List Int) := do
  let min ← findMin array j eindex
  if min ≠ j then swapCells array min j else .ok array

/-- `for (j = hindex; j <= eindex; ++j)`. -/
def selectSort : SortCb := fun array hindex eindex _ =>
  (List.range' hindex (eindex + 1 - hindex)).foldlM (selectStep eindex) array

/-- `if (array[i] < array[eindex]) { SWAP(&array[i], &array[mid]); ++mid; }` -/
def partitionStep (eindex : Nat) (s : List Int × Nat) (i : Nat) :
    Except Fault (List Int × Nat) := do
  let (array, mid) := s
  let a ← getCell array i
  let pivot ← getCell array eindex
  if a < pivot then do
    let array ← swapCells array i mid
    .ok (array, mid + 1)
  else .ok (array, mid)

/-- The array after the partition, and the pivot's index. -/
def partition (array : List Int) (hindex eindex : Nat) : Except Fault (List Int × Nat) := do
  let (array, mid) ←
    (List.range' hindex (eindex - hindex)).foldlM (partitionStep eindex) (array, hindex)
  let array ← swapCells array eindex mid
  .ok (array, mid)

/-- The recursion of `quick_sort`; where `mid` is `0` the source calls itself with
`eindex = -1`, which does nothing either. -/
def quickLoop : Nat → List Int → Nat → Nat → Except Fault (List Int)
  | 0, _, _, _ => .error .diverge
  | fuel + 1, array, hindex, eindex =>
      if hindex < eindex then do
        let (array, mid) ← partition array hindex eindex
        let array ← quickLoop fuel array hindex (mid - 1)
        quickLoop fuel array (mid + 1) eindex
      else .ok array

def quickSort : SortCb := fun array hindex eindex _ =>
  quickLoop (eindex - hindex + 2) array hindex eindex

/-! ## bubble_sort -/

section Bubble

variable {X S Y : List Int}

/-- The inner loop at `i`: the largest element so far stands at `i`. -/
def BubbleInv (X S Y : List Int) (i : Nat) (array : List Int) : Prop :=
  ∃ front m rest, array = X ++ (front ++ m :: (rest ++ Y)) ∧ X.length + front.length = i ∧
    (front ++ m :: rest).Perm S ∧ Below front [m]

/-- A step of a pass takes the larger element along. -/
theorem bubbleStep_inv {array : List Int} (h : BubbleInv X S Y i array)
    (hi : i + 1 < X.length + S.length) :
    ∃ array', bubbleStep array i = .ok array' ∧ BubbleInv X S Y (i + 1) array' := by
  obtain ⟨front, m, rest, rfl, hlen, hperm, hmax⟩ := h
  cases rest with
  | nil =>
      have := hperm.length_eq
      simp at this
      omega
  | cons x rest =>
      have hsplit : X ++ (front ++ m :: (x :: rest ++ Y)) =
          X ++ front ++ m :: [] ++ x :: (rest ++ Y) := by simp
      rw [hsplit]
      have hm : getCell (X ++ front ++ m :: [] ++ x :: (rest ++ Y)) i = .ok m := by
        rw [List.append_assoc]
        exact getCell_at (by simp [← hlen])
      have hx : getCell (X ++ front ++ m :: [] ++ x :: (rest ++ Y)) (i + 1) = .ok x :=
        getCell_at (by simp [← hlen]; omega)
      by_cases hgt : m > x
      · refine ⟨X ++ front ++ x :: [] ++ m :: (rest ++ Y), ?_, front ++ [x], m, rest, by simp, ?_,
          ?_, ?_⟩
        · simp only [bubbleStep, hm, hx, ok_bind, if_pos hgt]
          exact swapCells_at (by simp [← hlen]) (by simp [← hlen])
        · simp
          omega
        · refine .trans ?_ hperm
          simpa using (List.Perm.swap m x rest).append_left front
        · rw [below_singleton] at hmax ⊢
          grind
      · refine ⟨X ++ front ++ m :: [] ++ x :: (rest ++ Y), ?_, front ++ [m], x, rest, by simp, ?_,
          by simpa using hperm, ?_⟩
        · simp only [bubbleStep, hm, hx, ok_bind, if_neg hgt]
        · simp
          omega
        · rw [below_singleton] at hmax ⊢
          grind

/-- A pass over a slice brings its largest element to the end. -/
theorem bubblePass_spec (Y : List Int) (hX : X.length = hindex) (hS : hindex + S.length = j + 1)
    (hne : S ≠ []) :
    ∃ front m, bubblePass hindex (X ++ (S ++ Y)) j = .ok (X ++ (front ++ m :: Y)) ∧
      (front ++ [m]).Perm S ∧ Below front [m] := by
  obtain ⟨s, S, rfl⟩ := List.exists_cons_of_ne_nil hne
  have hinit : BubbleInv X (s :: S) Y hindex (X ++ (s :: S ++ Y)) :=
    ⟨[], s, S, by simp, by simp [hX], .refl _, by simp⟩
  obtain ⟨_, hrun, front, m, rest, rfl, hlen, hperm, hmax⟩ :=
    foldlM_range'_ok (n := j - hindex) hinit fun i array hi hin hI =>
      bubbleStep_inv hI (by simp at hS ⊢; omega)
  have hrest : rest = [] := by
    have := hperm.length_eq
    simp at this hS
    exact List.length_eq_zero_iff.mp (by omega)
  subst hrest
  exact ⟨front, m, hrun, hperm, hmax⟩

/-- The outer loop: from `k` on the slice is sorted, and nothing before is larger. -/
def BubblesInv (X S Y : List Int) (k : Nat) (array : List Int) : Prop :=
  ∃ front sorted, array = X ++ (front ++ (sorted ++ Y)) ∧ X.length + front.length = k ∧
    (front ++ sorted).Perm S ∧ Ascending sorted ∧ Below front sorted

/-- A pass takes the largest element to its end. -/
theorem bubblePass_inv {array : List Int} (hX : X.length = hindex)
    (h : BubblesInv X S Y (j + 1) array) (hj : hindex ≤ j) :
    ∃ array', bubblePass hindex array j = .ok array' ∧ BubblesInv X S Y j array' := by
  obtain ⟨front, sorted, rfl, hlen, hperm, hasc, hbelow⟩ := h
  obtain ⟨front', m, hrun, hperm', hmax⟩ := bubblePass_spec (sorted ++ Y) hX
    (show hindex + front.length = j + 1 by omega) (List.length_pos_iff.mp (by omega))
  obtain ⟨hfront, hm⟩ := below_append.mp (hbelow.perm hperm')
  refine ⟨_, hrun, front', m :: sorted, by simp, ?_, ?_, ?_, ?_⟩
  · have := hperm'.length_eq
    simp at this
    omega
  · refine .trans ?_ hperm
    simpa using hperm'.append_right sorted
  · exact Ascending.append (List.pairwise_singleton _ m) hasc hm
  · exact below_cons_right.mpr ⟨hmax, hfront⟩

/-- `bubble_sort` keeps the contract on every slice. -/
theorem bubbleSort_sorts (hX : X.length = hindex) (hS : hindex + S.length = eindex + 1) :
    ∃ S', bubbleSort (X ++ S ++ Y) hindex eindex n = .ok (X ++ S' ++ Y) ∧ S'.Perm S ∧
      Ascending S' := by
  have hinit : BubblesInv X S Y (hindex + (eindex + 1 - hindex)) (X ++ S ++ Y) :=
    ⟨S, [], by simp, by omega, by simp, List.Pairwise.nil, by simp⟩
  obtain ⟨_, hrun, front, sorted, rfl, hlen, hperm, hasc, -⟩ :=
    foldlM_range'_reverse_ok hinit fun j array hj _ hI => bubblePass_inv hX hI hj
  have hfront : front = [] := List.length_eq_zero_iff.mp (by omega)
  subst hfront
  exact ⟨sorted, by simpa [bubbleSort] using hrun, hperm, hasc⟩

end Bubble

/-! ## select_sort -/

section Select

variable {X S Y W U : List Int}

/-- The inner loop at `i`: `min` is the index of an element `m` that is not above the
elements before `i`. -/
def MinInv (W U : List Int) (i min : Nat) : Prop :=
  ∃ front m back, U = front ++ m :: back ∧ min = W.length + front.length ∧
    ∀ x ∈ U.take (i - W.length), m ≤ x

/-- A step of the search keeps the least element so far. -/
theorem minStep_inv (Y : List Int) {i min : Nat} (h : MinInv W U i min) (hW : W.length ≤ i)
    (hi : i < W.length + U.length) :
    ∃ min', minStep (W ++ (U ++ Y)) min i = .ok min' ∧ MinInv W U (i + 1) min' := by
  obtain ⟨front, m, back, hU, rfl, hmin⟩ := h
  have hk : i - W.length < U.length := by omega
  have hsplit : U = U.take (i - W.length) ++ U[i - W.length] :: U.drop (i - W.length + 1) := by
    rw [← List.drop_eq_getElem_cons hk, List.take_append_drop]
  have hread : getCell (W ++ (U ++ Y)) i = .ok U[i - W.length] := getCell_mid hk (by omega)
  have hm : getCell (W ++ (U ++ Y)) (W.length + front.length) = .ok m := by
    rw [hU, List.append_assoc, ← List.append_assoc]
    exact getCell_at (by simp)
  have htake : U.take (i + 1 - W.length) = U.take (i - W.length) ++ [U[i - W.length]] := by
    rw [show i + 1 - W.length = i - W.length + 1 by omega, List.take_succ_eq_append_getElem hk]
  by_cases hlt : U[i - W.length] < m
  · refine ⟨i, by simp [minStep, hread, hm, hlt], _, _, _, hsplit, ?_, ?_⟩
    · simp
      omega
    · rw [htake]
      intro x hx
      rcases List.mem_append.mp hx with hx | hx
      · exact hlt.le.trans (hmin x hx)
      · rw [List.mem_singleton.mp hx]
  · refine ⟨_, by simp [minStep, hread, hm, hlt], front, m, back, hU, rfl, ?_⟩
    rw [htake]
    intro x hx
    rcases List.mem_append.mp hx with hx | hx
    · exact hmin x hx
    · rw [List.mem_singleton.mp hx]
      exact not_lt.mp hlt

/-- The inner loop finds a least element of the rest of the slice. -/
theorem findMin_spec (Y : List Int) (hW : W.length = j) (hU : j + U.length = eindex + 1)
    (hne : U ≠ []) :
    ∃ front m back, U = front ++ m :: back ∧
      findMin (W ++ (U ++ Y)) j eindex = .ok (j + front.length) ∧ Below [m] U := by
  obtain ⟨u, U, rfl⟩ := List.exists_cons_of_ne_nil hne
  have hinit : MinInv W (u :: U) j j := ⟨[], u, U, rfl, by simp [hW], by simp [hW]⟩
  obtain ⟨_, hrun, front, m, back, hsplit, rfl, hmin⟩ :=
    foldlM_range'_ok (n := eindex + 1 - j) hinit fun i min hi hin (hI : MinInv W (u :: U) i min) =>
      minStep_inv Y hI (by omega) (by omega)
  refine ⟨front, m, back, hsplit, hW ▸ hrun, ?_⟩
  have htake : (u :: U).take (j + (eindex + 1 - j) - W.length) = u :: U :=
    List.take_of_length_le (by omega)
  rw [htake] at hmin
  simpa [Below] using hmin

/-- The outer loop at `j`: what stands before `j` in the slice is sorted, and nothing
behind is smaller. -/
def SelectInv (X S Y : List Int) (j : Nat) (array : List Int) : Prop :=
  ∃ sorted rest, array = X ++ sorted ++ (rest ++ Y) ∧ X.length + sorted.length = j ∧
    (sorted ++ rest).Perm S ∧ Ascending sorted ∧ Below sorted rest

/-- A turn puts the least element that is left behind those that are sorted. -/
theorem selectStep_inv {array : List Int} (hS : X.length + S.length = eindex + 1)
    (h : SelectInv X S Y j array) (hj : j < eindex + 1) :
    ∃ array', selectStep eindex array j = .ok array' ∧ SelectInv X S Y (j + 1) array' := by
  obtain ⟨sorted, rest, rfl, hlen, hperm, hasc, hbelow⟩ := h
  have hlens := hperm.length_eq
  simp only [List.length_append] at hlens
  have hW : (X ++ sorted).length = j := by simp [hlen]
  obtain ⟨front, m, back, rfl, hrun, hmin⟩ := findMin_spec Y hW
    (show j + rest.length = eindex + 1 by omega) (List.length_pos_iff.mp (by omega))
  -- the least element comes to the front, by an exchange or because it is there
  obtain ⟨front', hfront, hstep⟩ : ∃ front' : List Int, front'.Perm front ∧
      selectStep eindex (X ++ sorted ++ (front ++ m :: back ++ Y)) j =
        .ok (X ++ sorted ++ m :: (front' ++ (back ++ Y))) := by
    by_cases hj' : front = []
    · subst hj'
      refine ⟨[], .refl _, ?_⟩
      simp at hrun
      simp [selectStep, hrun]
    · obtain ⟨front', hfront, hswap⟩ := swapCells_front (X ++ sorted) front (back ++ Y) m
        (show j + front.length = (X ++ sorted).length + front.length by omega) hW.symm
      refine ⟨front', hfront, ?_⟩
      rw [selectStep, hrun, ok_bind, if_pos (by simpa using hj')]
      simpa using hswap
  have hrest : (m :: (front' ++ back)).Perm (front ++ m :: back) :=
    ((hfront.append_right back).cons m).trans List.perm_middle.symm
  have hmem : m ∈ front ++ m :: back := by simp
  refine ⟨_, hstep, sorted ++ [m], front' ++ back, by simp, by simp; omega, ?_, ?_, ?_⟩
  · refine .trans ?_ hperm
    simpa using hrest.append_left sorted
  · have hm : Below sorted [m] := below_singleton.mpr fun x hx => hbelow x hx m hmem
    exact hasc.append (List.pairwise_singleton _ m) hm
  · have hrest' : Below (sorted ++ [m]) (m :: (front' ++ back)) :=
      (below_append.mpr ⟨hbelow, hmin⟩).perm_right hrest
    exact (below_cons_right.mp hrest').2

/-- `select_sort` keeps the contract on every slice. -/
theorem selectSort_sorts (hX : X.length = hindex) (hS : hindex + S.length = eindex + 1) :
    ∃ S', selectSort (X ++ S ++ Y) hindex eindex n = .ok (X ++ S' ++ Y) ∧ S'.Perm S ∧
      Ascending S' := by
  have hinit : SelectInv X S Y hindex (X ++ S ++ Y) :=
    ⟨[], S, by simp, by simp [hX], .refl _, List.Pairwise.nil, by simp⟩
  obtain ⟨_, hrun, sorted, rest, rfl, hlen, hperm, hasc, -⟩ :=
    foldlM_range'_ok (n := eindex + 1 - hindex) hinit fun j array hj hin hI =>
      selectStep_inv (hX ▸ hS) hI (by omega)
  have hrest : rest = [] := by
    have := hperm.length_eq
    rw [List.length_append] at this
    exact List.length_eq_zero_iff.mp (by omega)
  subst hrest
  exact ⟨sorted, hrun, by simpa using hperm, hasc⟩

end Select

/-! ## quick_sort -/

section Quick

variable {X S Y : List Int} {pivot : Int}

/-- The loop of `partition` at `i`: the elements below the pivot, up to `mid`, then those
not below it, then those it has not reached. -/
def PartitionInv (X S Y : List Int) (pivot : Int) (i : Nat) (s : List Int × Nat) : Prop :=
  ∃ low high rest, s = (X ++ low ++ (high ++ (rest ++ pivot :: Y)), X.length + low.length) ∧
    X.length + low.length + high.length = i ∧ (low ++ high ++ rest).Perm S ∧
    (∀ x ∈ low, x < pivot) ∧ ∀ x ∈ high, pivot ≤ x

/-- A step of the partition puts an element on its side of the pivot. -/
theorem partitionStep_inv {s : List Int × Nat} (h : PartitionInv X S Y pivot i s)
    (he : X.length + S.length = eindex) (hi : i < eindex) :
    ∃ s', partitionStep eindex s i = .ok s' ∧ PartitionInv X S Y pivot (i + 1) s' := by
  obtain ⟨low, high, rest, rfl, hlen, hperm, hlow, hhigh⟩ := h
  have hlens := hperm.length_eq
  simp only [List.length_append] at hlens
  have hpivot : getCell (X ++ low ++ (high ++ (rest ++ pivot :: Y))) eindex = .ok pivot := by
    have hsplit : X ++ low ++ (high ++ (rest ++ pivot :: Y)) =
        (X ++ low ++ high ++ rest) ++ pivot :: Y := by simp
    rw [hsplit]
    exact getCell_at (by simp; omega)
  cases rest with
  | nil =>
      simp at hlens
      omega
  | cons x rest =>
      have hx : getCell (X ++ low ++ (high ++ (x :: rest ++ pivot :: Y))) i = .ok x := by
        rw [← List.append_assoc]
        exact getCell_at (by simp [← hlen]; omega)
      by_cases hlt : x < pivot
      · obtain ⟨high', hhigh', hswap⟩ := swapCells_front (X ++ low) high (rest ++ pivot :: Y) x
          (show i = (X ++ low).length + high.length by simp [hlen]) (List.length_append).symm
        refine ⟨(X ++ (low ++ [x]) ++ (high' ++ (rest ++ pivot :: Y)), X.length + low.length + 1),
          ?_, low ++ [x], high', rest, by simp; omega, ?_, ?_, ?_, ?_⟩
        · rw [List.cons_append] at hx hpivot ⊢
          simp only [partitionStep, hx, hpivot, ok_bind, if_pos hlt, hswap]
          simp
        · have := hhigh'.length_eq
          simp
          omega
        · have hmove : (x :: (high' ++ rest)).Perm (high ++ x :: rest) :=
            ((hhigh'.append_right rest).cons x).trans List.perm_middle.symm
          refine .trans ?_ hperm
          simpa using hmove.append_left low
        · grind
        · intro y hy
          exact hhigh y (hhigh'.mem_iff.mp hy)
      · refine ⟨_, by simp only [partitionStep, hx, hpivot, ok_bind, if_neg hlt]; rfl,
          low, high ++ [x], rest, by simp, by simp; omega, by simpa using hperm, hlow, ?_⟩
        grind

/-- `partition` splits the slice at its last element. -/
theorem partition_spec (Y : List Int) (pivot : Int) (hX : X.length = hindex)
    (hS : hindex + S.length = eindex) :
    ∃ low high, partition (X ++ (S ++ pivot :: Y)) hindex eindex =
        .ok (X ++ low ++ pivot :: (high ++ Y), hindex + low.length) ∧
      (low ++ high).Perm S ∧ (∀ x ∈ low, x < pivot) ∧ ∀ x ∈ high, pivot ≤ x := by
  have hinit : PartitionInv X S Y pivot hindex (X ++ (S ++ pivot :: Y), hindex) :=
    ⟨[], [], S, by simp [hX], by simp [hX], .refl _, by simp, by simp⟩
  obtain ⟨_, hrun, low, high, rest, rfl, hlen, hperm, hlow, hhigh⟩ :=
    foldlM_range'_ok (n := eindex - hindex) hinit fun i s hi hin hI =>
      partitionStep_inv hI (hX ▸ hS) (by omega)
  have hrest : rest = [] := by
    have := hperm.length_eq
    simp only [List.length_append] at this
    exact List.length_eq_zero_iff.mp (by omega)
  subst hrest
  obtain ⟨high', hhigh', hswap⟩ := swapCells_front (X ++ low) high Y pivot
    (show eindex = (X ++ low).length + high.length by simp; omega) (List.length_append).symm
  refine ⟨low, high', ?_, ?_, hlow, fun x hx => hhigh x (hhigh'.mem_iff.mp hx)⟩
  · rw [partition, hrun]
    rw [hX] at hswap
    simp only [ok_bind, List.nil_append, hX, hswap]
  · refine .trans (hhigh'.append_left low) ?_
    simpa using hperm

theorem quickLoop_of_le (fuel : Nat) (array : List Int) (h : eindex ≤ hindex) :
    quickLoop (fuel + 1) array hindex eindex = .ok array := by
  rw [quickLoop, if_neg (by omega)]

/-- The recursion sorts every slice that its fuel covers. -/
theorem quickLoop_sorts (hX : X.length = hindex) (hS : hindex + S.length = eindex + 1)
    (hfuel : S.length < fuel) :
    ∃ S', quickLoop fuel (X ++ (S ++ Y)) hindex eindex = .ok (X ++ (S' ++ Y)) ∧ S'.Perm S ∧
      Ascending S' := by
  induction fuel generalizing X S Y hindex eindex with
  | zero => omega
  | succ fuel ih =>
      by_cases hlt : hindex < eindex
      · obtain ⟨init, pivot, rfl⟩ : ∃ init pivot, S = init ++ [pivot] :=
          (List.eq_nil_or_concat' S).resolve_left (List.length_pos_iff.mp (by omega))
        simp only [List.length_append, List.length_singleton] at hS hfuel
        obtain ⟨low, high, hpart, hperm, hlow, hhigh⟩ :=
          partition_spec Y pivot hX (show hindex + init.length = eindex by omega)
        have hlens := hperm.length_eq
        rw [List.length_append] at hlens
        -- the left part, which the source calls with `eindex = hindex - 1` when it is empty
        obtain ⟨low', hrun₁, hperm₁, hasc₁⟩ : ∃ low' : List Int,
            quickLoop fuel (X ++ (low ++ (pivot :: (high ++ Y)))) hindex (hindex + low.length - 1) =
              .ok (X ++ (low' ++ (pivot :: (high ++ Y)))) ∧ low'.Perm low ∧ Ascending low' := by
          cases low with
          | nil =>
              obtain ⟨fuel, rfl⟩ : ∃ m, fuel = m + 1 := ⟨fuel - 1, by omega⟩
              exact ⟨[], quickLoop_of_le fuel _ (by simp), .refl _, List.Pairwise.nil⟩
          | cons x low => exact ih hX (by simp; omega) (by omega)
        have hmid : (X ++ low' ++ [pivot]).length = hindex + low.length + 1 := by
          have := hperm₁.length_eq
          simp
          omega
        obtain ⟨high', hrun₂, hperm₂, hasc₂⟩ := ih (Y := Y) hmid
          (show hindex + low.length + 1 + high.length = eindex + 1 by omega) (by omega)
        refine ⟨low' ++ pivot :: high', ?_, ?_, ?_⟩
        · rw [quickLoop, if_pos hlt]
          simp only [List.append_assoc, List.cons_append, List.nil_append] at hpart hrun₁ hrun₂ ⊢
          simp only [hpart, ok_bind, hrun₁, hrun₂]
        · have : (low' ++ high').Perm init := (hperm₁.append hperm₂).trans hperm
          exact List.perm_middle.trans
            ((this.cons pivot).trans (List.perm_append_singleton _ _).symm)
        · refine hasc₁.append (List.pairwise_cons.mpr ⟨?_, hasc₂⟩) ?_
          · intro x hx
            exact hhigh x (hperm₂.mem_iff.mp hx)
          · intro x hx y hy
            have hxp := hlow x (hperm₁.mem_iff.mp hx)
            rcases List.mem_cons.mp hy with rfl | hy
            · omega
            · have := hhigh y (hperm₂.mem_iff.mp hy)
              omega
      · exact ⟨S, quickLoop_of_le fuel _ (by omega), .refl _, ascending_of_length_lt (by omega)⟩

/-- `quick_sort` keeps the contract on every slice. -/
theorem quickSort_sorts (hX : X.length = hindex) (hS : hindex + S.length = eindex + 1) :
    ∃ S', quickSort (X ++ S ++ Y) hindex eindex n = .ok (X ++ S' ++ Y) ∧ S'.Perm S ∧
      Ascending S' := by
  obtain ⟨S', hrun, hperm, hasc⟩ :=
    quickLoop_sorts (Y := Y) hX hS (show S.length < eindex - hindex + 2 by omega)
  exact ⟨S', by simpa [quickSort] using hrun, hperm, hasc⟩

/-- What `partition` leaves: the pivot at `mid`, and in the slice the elements below it before
`mid` and no others. -/
structure Partitioned (array array' : List Int) (hindex eindex mid : Nat) : Prop where
  pivot : array'[mid]? = array[eindex]?
  smaller : ∀ pivot ∈ array[eindex]?, ∀ i, hindex ≤ i → i ≤ eindex →
    ∀ x ∈ array'[i]?, (x < pivot ↔ i < mid)
  perm : array'.Perm array
  inside : hindex ≤ eindex → hindex ≤ mid ∧ mid ≤ eindex
  frame : hindex ≤ eindex → ∀ i, i < hindex ∨ eindex < i → array'[i]? = array[i]?

/-- The elements around the pivot, by their index. -/
theorem smaller_iff {low high : List Int} (hlow : ∀ x ∈ low, x < pivot)
    (hhigh : ∀ x ∈ high, pivot ≤ x) (hX : X.length ≤ i)
    (hi : i < X.length + low.length + 1 + high.length) :
    ∀ x ∈ (X ++ low ++ pivot :: (high ++ Y))[i]?, (x < pivot ↔ i < X.length + low.length) := by
  intro x hx
  have hlen : (X ++ low).length = X.length + low.length := List.length_append
  by_cases hmid : i < X.length + low.length
  · rw [List.getElem?_append_left (by omega), List.getElem?_append_right hX] at hx
    exact iff_of_true (hlow x (List.mem_of_getElem? hx)) hmid
  · rw [List.getElem?_append_right (by omega), hlen] at hx
    refine iff_of_false (not_lt.mpr ?_) hmid
    cases hk : i - (X.length + low.length) with
    | zero =>
        rw [hk] at hx
        exact (Option.some.inj hx).le
    | succ k =>
        rw [hk, List.getElem?_cons_succ, List.getElem?_append_left (by omega)] at hx
        exact hhigh x (List.mem_of_getElem? hx)

/-- `partition` on the slices that `quick_sort` gives it. -/
theorem partition_slice {array : List Int} (hhe : hindex ≤ eindex) (he : eindex < array.length) :
    ∃ array' mid, partition array hindex eindex = .ok (array', mid) ∧
      Partitioned array array' hindex eindex mid := by
  obtain ⟨X, S, Y, rfl, hX, hS⟩ := exists_slice (show hindex ≤ eindex + 1 by omega) he
  obtain ⟨init, pivot, rfl⟩ : ∃ init pivot, S = init ++ [pivot] :=
    (List.eq_nil_or_concat' S).resolve_left (List.length_pos_iff.mp (by omega))
  have hinit : hindex + init.length = eindex := by
    simp only [List.length_append, List.length_singleton] at hS
    omega
  obtain ⟨low, high, hpart, hperm, hlow, hhigh⟩ := partition_spec Y pivot hX hinit
  have hlens := hperm.length_eq
  rw [List.length_append] at hlens
  have hslice : (low ++ pivot :: high).Perm (init ++ [pivot]) :=
    List.perm_middle.trans ((hperm.cons pivot).trans (List.perm_append_singleton _ _).symm)
  have hbefore : X ++ (init ++ [pivot]) ++ Y = X ++ (init ++ pivot :: Y) := by simp
  have hafter : X ++ (low ++ pivot :: high) ++ Y = X ++ low ++ pivot :: (high ++ Y) := by simp
  have hlast : (X ++ (init ++ pivot :: Y))[eindex]? = some pivot := by
    rw [← List.append_assoc, List.getElem?_append_right (by simp; omega)]
    simp [show eindex - (X.length + init.length) = 0 by omega]
  rw [hbefore]
  refine ⟨_, _, hpart, ⟨?_, ?_, ?_, fun _ => ⟨by omega, by omega⟩, fun _ => ?_⟩⟩
  · rw [hlast, List.getElem?_append_right (by simp; omega)]
    simp [hX]
  · intro p hp i hi hi'
    obtain rfl : pivot = p := by simpa [hlast] using hp
    rw [← hX]
    exact smaller_iff hlow hhigh (by omega) (by omega)
  · rw [← hbefore, ← hafter]
    exact (hslice.append_left X).append_right Y
  · rw [← hbefore, ← hafter]
    exact frame_append hX hS hslice.length_eq

/-- `partition` on an empty slice exchanges its two ends. -/
theorem partition_empty {array : List Int} (h : eindex < hindex) (hh : hindex < array.length) :
    ∃ array' mid, partition array hindex eindex = .ok (array', mid) ∧
      Partitioned array array' hindex eindex mid := by
  obtain ⟨array', hswap, hperm, -, hcell⟩ :=
    swapCells_ok (show eindex < array.length by omega) hh 0
  have hpart : partition array hindex eindex = .ok (array', hindex) := by
    rw [partition, Nat.sub_eq_zero_of_le h.le]
    simp [hswap]
  have hpivot : array'.getD hindex 0 = array.getD eindex 0 := by
    have hk := congrFun hcell hindex
    simpa using hk
  refine ⟨array', hindex, hpart, ?_, fun _ _ i hi hi' => by omega, hperm, fun hle => by omega,
    fun hle => by omega⟩
  rw [List.getElem?_eq_getElem (hperm.length_eq ▸ hh), List.getElem?_eq_getElem (by omega),
    ← List.getD_eq_getElem _ 0 (hperm.length_eq ▸ hh), hpivot, List.getD_eq_getElem]

/-- **`quick_sort`** ends on every slice and sorts it, and `partition` splits the slice at the
pivot. -/
theorem quickSort_slice {array : List Int} (n : Nat) (hh : hindex < array.length)
    (he : eindex < array.length) :
    (∃ array', quickSort array hindex eindex n = .ok array' ∧
      SortsSlice array array' hindex eindex) ∧
      ∃ array' mid, partition array hindex eindex = .ok (array', mid) ∧
        Partitioned array array' hindex eindex mid := by
  by_cases hhe : hindex ≤ eindex
  · refine ⟨?_, partition_slice hhe he⟩
    obtain ⟨X, S, Y, rfl, hX, hS⟩ := exists_slice (show hindex ≤ eindex + 1 by omega) he
    obtain ⟨S', hrun, hperm, hasc⟩ := quickSort_sorts (Y := Y) (n := n) hX hS
    exact ⟨_, hrun, sortsSlice_append hX hS hperm hasc⟩
  · refine ⟨⟨array, ?_, sortsSlice_empty (by omega)⟩, partition_empty (by omega) hh⟩
    exact quickLoop_of_le _ array (by omega)

/-- A slice of three elements, and one whose ends have changed places. -/
theorem quickSort_slice_small :
    (∃ array', quickSort [9, 2, 1, 2, 0] 1 3 5 = .ok array' ∧
      SortsSlice [9, 2, 1, 2, 0] array' 1 3) ∧
      ∃ array', quickSort [9, 2, 1, 2, 0] 4 1 5 = .ok array' ∧
        SortsSlice [9, 2, 1, 2, 0] array' 4 1 :=
  ⟨(quickSort_slice 5 (by decide) (by decide)).1, (quickSort_slice 5 (by decide) (by decide)).1⟩

end Quick

end MySrc.SortAlgorithms
