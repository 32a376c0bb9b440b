import MySrc.SortAlgorithms.Slice

/-!
# MySrc.SortAlgorithms.MergeSort

`merge_sort`: the halves are sorted, merged through a scratch array and copied
back.

A pointer into the array is an offset, and the scratch array is the list of the
elements written to it so far, so `k` is its length.
-/

namespace MySrc.SortAlgorithms

open Lib

/-! ## the model -/

/-- `while (i < harray_size && j < tarray_size)
array[k++] = (harray[i] < tarray[j]) ? harray[i++] : tarray[j++];` -/
def mergeLoop (array : List Int) (harray tarray harraySize tarraySize : Nat) :
    Nat → Nat → Nat → List Int → Except Fault (Nat × Nat × List Int)
  | 0, _, _, _ => .error .diverge
  | fuel + 1, i, j, scratch =>
      if i < harraySize ∧ j < tarraySize then do
        let a ← getCell array (harray + i)
        let b ← getCell array (tarray + j)
        if a < b then
          mergeLoop array harray tarray harraySize tarraySize fuel (i + 1) j (scratch ++ [a])
        else mergeLoop array harray tarray harraySize tarraySize fuel i (j + 1) (scratch ++ [b])
      else .ok (i, j, scratch)

/-- `while (i < size) array[k++] = part[i++];` -/
def drain (array : List Int) (part size i : Nat) (scratch : List Int) :
    Except Fault (List Int) :=
  (List.range' i (size - i)).foldlM
    (fun scratch i => do
      let v ← getCell array (part + i)
      .ok (scratch ++ [v])) scratch

/-- `for (i = 0; i < size; ++i) harray[i] = array[i];` -/
def copyBack (array : List Int) (harray size : Nat) (scratch : List Int) :
    Except Fault (List Int) :=
  (List.range' 0 size).foldlM
    (fun array i => do
      let v ← getCell scratch i
      setCell array (harray + i) v) array

def mergeArray (array : List Int) (harray tarray harraySize tarraySize : Nat) :
    Except Fault (List Int) := do
  let (i, j, scratch) ←
    mergeLoop array harray tarray harraySize tarraySize (harraySize + tarraySize + 1) 0 0 []
  let scratch ← drain array harray harraySize i scratch
  let scratch ← drain array tarray tarraySize j scratch
  copyBack array harray (harraySize + tarraySize) scratch

/-- `__merge_sort`, on the `arraySize` cells from `base` on. -/
def mergeSortLoop : Nat → List Int → Nat → Nat → Except Fault (List Int)
  | 0, _, _, _ => .error .diverge
  | fuel + 1, array, base, arraySize =>
      if arraySize > 1 then do
        let harraySize := arraySize / 2
        let tarraySize := arraySize - harraySize
        let harray := base
        let tarray := base + harraySize
        let array ← mergeSortLoop fuel array harray harraySize
        let array ← mergeSortLoop fuel array tarray tarraySize
        mergeArray array harray tarray harraySize tarraySize
      else .ok array

def mergeSort : SortCb := fun array _ _ arraySize =>
  mergeSortLoop (arraySize + 1) array 0 arraySize

/-! ## merging -/

section

variable {X Y H T : List Int}

/-- The merge so far: the scratch array holds, in order, what was taken from the two
halves, and nothing in it is above what is left. -/
structure MergeInv (H T : List Int) (i j : Nat) (scratch : List Int) : Prop where
  perm : (scratch ++ (H.drop i ++ T.drop j)).Perm (H ++ T)
  ascending : Ascending scratch
  below : Below scratch (H.drop i ++ T.drop j)

/-- The next element goes to the scratch array: it is taken from what is left and not above
the rest of it. -/
theorem MergeInv.take (h : MergeInv H T i j scratch)
    (hperm : (v :: (H.drop i' ++ T.drop j')).Perm (H.drop i ++ T.drop j))
    (hmin : Below [v] (H.drop i' ++ T.drop j')) : MergeInv H T i' j' (scratch ++ [v]) := by
  have hbelow : Below scratch (v :: (H.drop i' ++ T.drop j')) := h.below.perm_right hperm
  obtain ⟨hv, hrest⟩ := below_cons_right.mp hbelow
  refine ⟨?_, h.ascending.append (List.pairwise_singleton _ v) hv, below_append.mpr ⟨hrest, hmin⟩⟩
  refine .trans ?_ h.perm
  simpa using hperm.append_left scratch

theorem mergeLoop_spec (X Y : List Int) (hH : Ascending H) (hT : Ascending T)
    (h : MergeInv H T i j scratch) (hi : i ≤ H.length) (hj : j ≤ T.length)
    (hfuel : H.length - i + (T.length - j) < fuel) :
    ∃ i' j' scratch', mergeLoop (X ++ (H ++ (T ++ Y))) X.length (X.length + H.length) H.length
        T.length fuel i j scratch = .ok (i', j', scratch') ∧
      MergeInv H T i' j' scratch' ∧ i' ≤ H.length ∧ j' ≤ T.length ∧
      (i' = H.length ∨ j' = T.length) := by
  induction fuel generalizing i j scratch with
  | zero => omega
  | succ fuel ih =>
      rw [mergeLoop]
      by_cases hlt : i < H.length ∧ j < T.length
      · obtain ⟨hi, hj⟩ := hlt
        have ha : getCell (X ++ (H ++ (T ++ Y))) (X.length + i) = .ok H[i] := getCell_mid hi rfl
        have hb : getCell (X ++ (H ++ (T ++ Y))) (X.length + H.length + j) = .ok T[j] := by
          rw [← List.append_assoc]
          exact getCell_mid hj (by simp)
        have hHr := List.drop_eq_getElem_cons hi
        have hTr := List.drop_eq_getElem_cons hj
        have hHb := hH.below_drop hi
        have hTb := hT.below_drop hj
        rw [if_pos ⟨hi, hj⟩, ha, ok_bind, hb, ok_bind]
        by_cases hab : H[i] < T[j]
        · rw [if_pos hab]
          refine ih (h.take ?_ ?_) (by omega) (by omega) (by omega)
          · rw [hHr, List.cons_append]
          · rw [hTr]
            exact below_append_right.mpr ⟨hHb, .of_le hab.le hTb⟩
        · rw [if_neg hab]
          refine ih (h.take ?_ ?_) (by omega) (by omega) (by omega)
          · rw [hTr]
            exact List.perm_middle.symm
          · rw [hHr]
            exact below_append_right.mpr ⟨.of_le (not_lt.mp hab) hHb, hTb⟩
      · rw [if_neg hlt]
        exact ⟨i, j, scratch, rfl, h, hi, hj, by omega⟩

theorem drain_spec {array P : List Int} (hi : i ≤ P.length)
    (hread : ∀ k (hk : k < P.length), getCell array (part + k) = .ok P[k]) :
    drain array part P.length i scratch = .ok (scratch ++ P.drop i) := by
  have hstep : ∀ k out, i ≤ k → k < i + (P.length - i) →
      out ++ P.drop k = scratch ++ P.drop i →
      ∃ out', (do
        let v ← getCell array (part + k)
        .ok (out ++ [v])) = Except.ok out' ∧ out' ++ P.drop (k + 1) = scratch ++ P.drop i := by
    intro k out hk hkn hout
    have hk' : k < P.length := by omega
    rw [List.drop_eq_getElem_cons hk'] at hout
    exact ⟨out ++ [P[k]], by simp [hread k hk'], by simpa using hout⟩
  obtain ⟨out, hrun, hout⟩ :=
    foldlM_range'_ok (I := fun k out => out ++ P.drop k = scratch ++ P.drop i) rfl hstep
  rw [drain, hrun]
  simpa [show i + (P.length - i) = P.length by omega] using hout

theorem copyBack_spec (Y : List Int) {M old : List Int} (hX : X.length = harray)
    (hlen : old.length = M.length) :
    copyBack (X ++ (old ++ Y)) harray M.length M = .ok (X ++ (M ++ Y)) := by
  have hstep : ∀ k array, 0 ≤ k → k < 0 + M.length →
      array = X ++ M.take k ++ (old.drop k ++ Y) →
      ∃ array', (do
        let v ← getCell M k
        setCell array (harray + k) v) = Except.ok array' ∧
          array' = X ++ M.take (k + 1) ++ (old.drop (k + 1) ++ Y) := by
    rintro k _ - hk rfl
    have hM : k < M.length := by omega
    have hold : k < old.length := by omega
    refine ⟨_, ?_, rfl⟩
    have hread : getCell M k = .ok M[k] := by
      rw [getCell_ok hM 0, List.getD_eq_getElem _ _ hM]
    rw [hread, ok_bind, List.drop_eq_getElem_cons hold, List.cons_append,
      setCell_at (by simp; omega), List.take_succ_eq_append_getElem hM]
    simp only [List.append_assoc, List.cons_append, List.nil_append]
  obtain ⟨_, hrun, rfl⟩ := foldlM_range'_ok
    (I := fun k array => array = X ++ M.take k ++ (old.drop k ++ Y)) (s := X ++ (old ++ Y))
    (by simp) hstep
  rw [copyBack, hrun, Nat.zero_add, List.take_length, ← hlen, List.drop_length]
  simp

/-- Merging two sorted neighbours sorts them together. -/
theorem mergeArray_spec (Y : List Int) (hX : X.length = harray) (hH : Ascending H)
    (hT : Ascending T) :
    ∃ M, mergeArray (X ++ (H ++ (T ++ Y))) harray (harray + H.length) H.length T.length =
        .ok (X ++ (M ++ Y)) ∧ M.Perm (H ++ T) ∧ Ascending M := by
  subst hX
  have hinit : MergeInv H T 0 0 [] := ⟨.refl _, List.Pairwise.nil, by simp⟩
  obtain ⟨i, j, scratch, hrun, hinv, hi, hj, hend⟩ := mergeLoop_spec X Y hH hT hinit
    (by omega) (by omega) (show _ < H.length + T.length + 1 by omega)
  have hread₁ : ∀ k (hk : k < H.length),
      getCell (X ++ (H ++ (T ++ Y))) (X.length + k) = .ok H[k] := fun k hk => getCell_mid hk rfl
  have hread₂ : ∀ k (hk : k < T.length),
      getCell (X ++ (H ++ (T ++ Y))) (X.length + H.length + k) = .ok T[k] := by
    intro k hk
    rw [← List.append_assoc]
    exact getCell_mid hk (by simp)
  have hlen : (scratch ++ (H.drop i ++ T.drop j)).length = H.length + T.length := by
    rw [hinv.perm.length_eq, List.length_append]
  have hasc : Ascending (H.drop i ++ T.drop j) := by
    rcases hend with rfl | rfl
    · simpa using hT.drop j
    · simpa using hH.drop i
  refine ⟨scratch ++ (H.drop i ++ T.drop j), ?_, hinv.perm, hinv.ascending.append hasc hinv.below⟩
  simp only [mergeArray, hrun, ok_bind, drain_spec hi hread₁, drain_spec hj hread₂]
  rw [← hlen, ← List.append_assoc H, List.append_assoc scratch]
  exact copyBack_spec Y rfl (by rw [hlen]; simp)

/-! ## merge_sort -/

theorem mergeSortLoop_sorts {S : List Int} (hX : X.length = base) (hS : S.length = n)
    (hfuel : n < fuel) :
    ∃ S', mergeSortLoop fuel (X ++ (S ++ Y)) base n = .ok (X ++ (S' ++ Y)) ∧ S'.Perm S ∧
      Ascending S' := by
  induction fuel generalizing X S Y base n with
  | zero => omega
  | succ fuel ih =>
      rw [mergeSortLoop]
      by_cases hn : n > 1
      · rw [if_pos hn]
        obtain ⟨H, T, rfl, hH⟩ : ∃ H T, S = H ++ T ∧ H.length = n / 2 :=
          ⟨S.take (n / 2), S.drop (n / 2), (List.take_append_drop _ _).symm, by simp; omega⟩
        have hT : T.length = n - n / 2 := by
          simp at hS
          omega
        obtain ⟨H', hrun₁, hperm₁, hasc₁⟩ := ih (Y := T ++ Y) hX hH (by omega)
        have hH' : (X ++ H').length = base + n / 2 := by
          have := hperm₁.length_eq
          simp
          omega
        obtain ⟨T', hrun₂, hperm₂, hasc₂⟩ := ih (Y := Y) hH' hT (by omega)
        obtain ⟨M, hrun₃, hperm₃, hasc₃⟩ := mergeArray_spec Y hX hasc₁ hasc₂
        rw [hperm₁.length_eq, hperm₂.length_eq, hH, hT] at hrun₃
        refine ⟨M, ?_, hperm₃.trans (hperm₁.append hperm₂), hasc₃⟩
        simp only [List.append_assoc] at hrun₁ hrun₂ hrun₃ ⊢
        simp only [hrun₁, hrun₂, hrun₃, ok_bind]
      · rw [if_neg hn]
        exact ⟨S, rfl, .refl _, ascending_of_length_lt (by omega)⟩

/-- `merge_sort` sorts the whole array, whatever slice it is given. -/
theorem mergeSort_sorts (array : List Int) (hindex eindex : Nat) :
    ∃ array', mergeSort array hindex eindex array.length = .ok array' ∧ array'.Perm array ∧
      Ascending array' := by
  obtain ⟨S', hrun, hperm, hasc⟩ := mergeSortLoop_sorts (X := []) (Y := []) rfl
    (show array.length = array.length from rfl) (Nat.lt_succ_self _)
  exact ⟨S', by simpa [mergeSort] using hrun, hperm, hasc⟩

end

end MySrc.SortAlgorithms
