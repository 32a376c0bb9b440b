import MySrc.Lib.Run
import Mathlib.Data.List.GetD
import Mathlib.Logic.Equiv.Basic

/-!
# MySrc.Lib.Cells

Arrays that are read and written one cell at a time, and the counting loops
that walk over them.

An access outside the array is a fault.  The cells a program touches are
described in one of two ways: by what stands before and behind them
(`xs ++ a :: ys`), where everything else is unchanged by construction, or by
their indices.
-/

namespace Lib

/-- `array[i]`. -/
def getCell (array : List α) (i : Nat) : Except Fault α :=
  match array[i]? with
  | some v => .ok v
  | none => .error .outOfBounds

/-- `array[i] = v`. -/
def setCell (array : List α) (i : Nat) (v : α) : Except Fault (List α) :=
  if i < array.length then .ok (array.set i v) else .error .outOfBounds

/-- Exchange two cells through a temporary. -/
def swapCells (array : List α) (i j : Nat) : Except Fault (List α) := do
  let tmp ← getCell array i
  let b ← getCell array j
  let array ← setCell array i b
  setCell array j tmp

/-! ## cells by their neighbours -/

theorem getCell_at {xs ys : List α} (h : i = xs.length) :
    getCell (xs ++ a :: ys) i = .ok a := by
  simp [getCell, h]

/-- The `k`-th cell of the middle part. -/
theorem getCell_mid {xs ys zs : List α} (hk : k < ys.length) (hi : i = xs.length + k) :
    getCell (xs ++ (ys ++ zs)) i = .ok ys[k] := by
  have : (xs ++ (ys ++ zs))[i]? = some ys[k] := by
    rw [hi, List.getElem?_append_right (by omega), Nat.add_sub_cancel_left,
      List.getElem?_append_left hk, List.getElem?_eq_getElem hk]
  simp [getCell, this]

theorem setCell_at {xs ys : List α} (h : i = xs.length) :
    setCell (xs ++ a :: ys) i b = .ok (xs ++ b :: ys) := by
  simp [setCell, h]

/-- Two cells change places, the rest stays. -/
theorem swapCells_at {xs ys zs : List α} (hi : i = xs.length)
    (hj : j = xs.length + 1 + ys.length) :
    swapCells (xs ++ a :: ys ++ b :: zs) i j = .ok (xs ++ b :: ys ++ a :: zs) := by
  have hb : j = (xs ++ a :: ys).length := by
    simp [hj]
    omega
  have hb' : j = (xs ++ b :: ys).length := by
    simp [hj]
    omega
  have ha : getCell (xs ++ a :: ys ++ b :: zs) i = .ok a := by
    simpa using getCell_at hi
  have hset : setCell (xs ++ a :: ys ++ b :: zs) i b = .ok (xs ++ b :: ys ++ b :: zs) := by
    rw [List.append_assoc, List.cons_append, setCell_at hi]
    simp
  simp [swapCells, ha, getCell_at hb, hset, setCell_at hb', -List.append_assoc]

/-- The same, with the cell behind named first. -/
theorem swapCells_back {xs ys zs : List α} (hi : i = xs.length + 1 + ys.length)
    (hj : j = xs.length) :
    swapCells (xs ++ a :: ys ++ b :: zs) i j = .ok (xs ++ b :: ys ++ a :: zs) := by
  have hb : i = (xs ++ a :: ys).length := by
    simp [hi]
    omega
  have ha : getCell (xs ++ a :: ys ++ b :: zs) j = .ok a := by
    simpa using getCell_at hj
  have hset : setCell (xs ++ a :: ys ++ a :: zs) j b = .ok (xs ++ b :: ys ++ a :: zs) := by
    rw [List.append_assoc, List.cons_append, setCell_at hj]
    simp
  simp [swapCells, ha, getCell_at hb, hset, setCell_at hb, -List.append_assoc]

/-- A cell exchanged with itself stays. -/
theorem swapCells_self {xs ys : List α} (h : i = xs.length) :
    swapCells (xs ++ a :: ys) i i = .ok (xs ++ a :: ys) := by
  simp [swapCells, getCell_at h, setCell_at h]

/-- The cell behind `mid` exchanged with the first cell of `mid`, or with itself when there
is none: it comes to the front, and `mid` is permuted. -/
theorem swapCells_front (xs mid zs : List α) (a : α) (hi : i = xs.length + mid.length)
    (hj : j = xs.length) :
    ∃ mid' : List α, mid'.Perm mid ∧
      swapCells (xs ++ (mid ++ a :: zs)) i j = .ok (xs ++ a :: (mid' ++ zs)) := by
  cases mid with
  | nil =>
      have hij : i = j := by simp [hi, hj]
      exact ⟨[], .refl _, by simpa [hij] using swapCells_self hj⟩
  | cons b mid =>
      refine ⟨mid ++ [b], List.perm_append_singleton b mid, ?_⟩
      have hi' : i = xs.length + 1 + mid.length := by
        simp [hi]
        omega
      simpa using swapCells_back (a := b) (b := a) hi' hj

/-! ## cells by their indices -/

theorem getCell_ok {array : List α} (h : i < array.length) (d : α) :
    getCell array i = .ok (array.getD i d) := by
  simp [getCell, h]

theorem setCell_ok {array : List α} (h : i < array.length) (v : α) :
    setCell array i v = .ok (array.set i v) := if_pos h

theorem getD_set {array : List α} (h : i < array.length) (v d : α) (j : Nat) :
    (array.set i v).getD j d = if i = j then v else array.getD j d := by
  by_cases hij : i = j
  · subst hij
    simp [h]
  · simp [hij]

/-- What an exchange of two cells leaves. -/
theorem swapCells_ok {array : List α} (hi : i < array.length) (hj : j < array.length) (d : α) :
    ∃ array', swapCells array i j = .ok array' ∧ array'.Perm array ∧
      (∀ n, i < n → j < n → array'.drop n = array.drop n) ∧
      (fun k => array'.getD k d) = (fun k => array.getD k d) ∘ Equiv.swap i j := by
  refine ⟨_, ?_, List.set_set_perm hi hj, ?_, ?_⟩
  · simp [swapCells, getCell_ok hi array[i], getCell_ok hj array[i], setCell, hi, hj]
  · intro n hin hjn
    rw [List.drop_set_of_lt hjn, List.drop_set_of_lt hin]
  · funext k
    rw [getD_set (by simpa using hj), getD_set hi, Function.comp_apply, Equiv.swap_apply_def,
      ← List.getD_eq_getElem _ d hi, ← List.getD_eq_getElem _ d hj]
    by_cases hik : k = i
    · by_cases hjk : k = j
      · simp [← hik, ← hjk]
      · simp [← hik, Ne.symm hjk]
    · by_cases hjk : k = j
      · simp [← hjk, hik]
      · simp [hik, hjk, Ne.symm hik, Ne.symm hjk]

/-- The order of the two cells does not matter. -/
theorem swapCells_comm (array : List α) (i j : Nat) :
    swapCells array i j = swapCells array j i := by
  by_cases hij : i = j
  · rw [hij]
  · by_cases hi : i < array.length
    · by_cases hj : j < array.length
      · simp only [swapCells, getCell_ok hi array[i], getCell_ok hj array[i], ok_bind, setCell,
          List.length_set, if_pos hi, if_pos hj]
        rw [List.set_comm _ _ hij]
      · simp [swapCells, getCell, hi, hj]
    · by_cases hj : j < array.length
      · simp [swapCells, getCell, hi, hj]
      · simp [swapCells, getCell, hi, hj]

/-! ## counting loops -/

section Loops

variable {σ ε : Type}

/-- **Counting up**: `for (i = a; i < a + n; ++i)`.  What holds at the start and is
carried from each `i` to `i + 1` by the body holds at the end, which is reached. -/
theorem foldlM_range'_ok {f : σ → Nat → Except ε σ} {I : Nat → σ → Prop} {a n : Nat} {s : σ}
    (hinit : I a s)
    (hstep : ∀ i s, a ≤ i → i < a + n → I i s → ∃ s', f s i = .ok s' ∧ I (i + 1) s') :
    ∃ s', (List.range' a n).foldlM f s = .ok s' ∧ I (a + n) s' := by
  induction n generalizing a s with
  | zero => exact ⟨s, rfl, hinit⟩
  | succ n ih =>
      obtain ⟨s₁, h₁, hI₁⟩ := hstep a s (by omega) (by omega) hinit
      obtain ⟨s', h', hI'⟩ := ih hI₁ fun i s hi hin => hstep i s (by omega) (by omega)
      refine ⟨s', ?_, ?_⟩
      · rw [List.range'_succ, List.foldlM_cons, h₁]
        exact h'
      · rwa [Nat.add_right_comm, Nat.add_assoc] at hI'

/-- **Counting down**: `for (i = a + n - 1; i >= a; --i)`. -/
theorem foldlM_range'_reverse_ok {f : σ → Nat → Except ε σ} {I : Nat → σ → Prop} {a n : Nat}
    {s : σ} (hinit : I (a + n) s)
    (hstep : ∀ i s, a ≤ i → i < a + n → I (i + 1) s → ∃ s', f s i = .ok s' ∧ I i s') :
    ∃ s', (List.range' a n).reverse.foldlM f s = .ok s' ∧ I a s' := by
  induction n generalizing s with
  | zero => exact ⟨s, rfl, hinit⟩
  | succ n ih =>
      obtain ⟨s₁, h₁, hI₁⟩ := hstep (a + n) s (by omega) (by omega) hinit
      obtain ⟨s', h', hI'⟩ := ih hI₁ fun i s hi hin => hstep i s hi (by omega)
      refine ⟨s', ?_, hI'⟩
      rw [List.range'_1_concat, List.reverse_append, List.reverse_singleton, List.singleton_append,
        List.foldlM_cons, h₁]
      exact h'

end Loops

end Lib
