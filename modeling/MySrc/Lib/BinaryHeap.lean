import MySrc.Lib.Cells
import Mathlib.Data.List.Sort

/-!
# MySrc.Lib.BinaryHeap

Binary heaps in an array: the children of the cell `p` are `2 * p + 1` and
`2 * p + 2`.

A heap is made from the last parent down to the first by sinking one cell
after the other: `HeapExcept` is what holds while a cell sinks, and `sinkLoop`
the loop that sinks it.  Which of two cells belongs above the other is a
parameter, so that heaps with the largest or with the smallest root are alike.
-/

namespace Lib

/-! ## heap order -/

section Heap

variable {α : Type} [LinearOrder α] {f : Nat → α}

/-- `c` is one of the two children of `p`. -/
def IsChild (p c : Nat) : Prop := c = 2 * p + 1 ∨ c = 2 * p + 2

/-- Among the first `size` cells no child is above its parent, for the parents from `lo` on. -/
def HeapFrom (f : Nat → α) (lo size : Nat) : Prop :=
  ∀ p c, lo ≤ p → c < size → IsChild p c → f c ≤ f p

/-- The same with `i` as the one parent that may be below its children, which are not above
`i`'s own parent. -/
structure HeapExcept (f : Nat → α) (lo size i : Nat) : Prop where
  order : ∀ p c, lo ≤ p → p ≠ i → c < size → IsChild p c → f c ≤ f p
  grand : ∀ p c, lo ≤ p → IsChild p i → c < size → IsChild i c → f c ≤ f p

/-- Cells without children are in order. -/
theorem heapFrom_of_le (h : size ≤ 2 * lo + 1) : HeapFrom f lo size := by
  intro p c hp hc hpc
  unfold IsChild at hpc
  omega

/-- One more parent in front. -/
theorem HeapFrom.except (h : HeapFrom f (i + 1) size) : HeapExcept f i size i := by
  constructor
  · intro p c hp hne
    exact h p c (by omega)
  · intro p c hp hpi
    unfold IsChild at hpi
    omega

theorem HeapExcept.finish (h : HeapExcept f lo size i)
    (hi : ∀ c < size, IsChild i c → f c ≤ f i) : HeapFrom f lo size := by
  intro p c hp hc hpc
  by_cases hpi : p = i
  · subst hpi
    exact hi c hc hpc
  · exact h.order p c hp hpi hc hpc

/-- Exchanging `i` with its larger child moves the exception down. -/
theorem HeapExcept.sift (h : HeapExcept f lo size i) (hlo : lo ≤ i) (him : IsChild i m)
    (hm : m < size) (hmax : ∀ c < size, IsChild i c → f c ≤ f m) (hle : f i ≤ f m) :
    HeapExcept (f ∘ Equiv.swap i m) lo size m := by
  have hlt : i < m := by
    unfold IsChild at him
    omega
  have hfi : (f ∘ Equiv.swap i m) i = f m := by simp
  have hfm : (f ∘ Equiv.swap i m) m = f i := by simp
  have hother : ∀ k, k ≠ i → k ≠ m → (f ∘ Equiv.swap i m) k = f k := by
    intro k hki hkm
    simp [Equiv.swap_apply_of_ne_of_ne hki hkm]
  constructor
  · intro p c hp hpm hc hpc
    by_cases hpi : p = i
    · subst hpi
      rw [hfi]
      by_cases hcm : c = m
      · rw [hcm, hfm]
        exact hle
      · rw [hother c (by unfold IsChild at hpc; omega) hcm]
        exact hmax c hc hpc
    · rw [hother p hpi hpm]
      by_cases hci : c = i
      · rw [hci, hfi]
        exact h.grand p m hp (hci ▸ hpc) hm him
      · rw [hother c hci (by unfold IsChild at him hpc; omega)]
        exact h.order p c hp hpi hc hpc
  · intro p c hp hpm hc hmc
    obtain rfl : p = i := by
      unfold IsChild at hpm him
      omega
    rw [hfi, hother c (by unfold IsChild at hmc; omega) (by unfold IsChild at hmc; omega)]
    exact h.order m c (by omega) (by omega) hc hmc

/-- The root of a heap is its largest element. -/
theorem HeapFrom.le_root (h : HeapFrom f 0 size) (hk : k < size) : f k ≤ f 0 := by
  induction k using Nat.strongRecOn with
  | ind k ih =>
      by_cases h0 : k = 0
      · rw [h0]
      · have hparent : f k ≤ f ((k - 1) / 2) :=
          h ((k - 1) / 2) k (by omega) hk (by unfold IsChild; omega)
        exact hparent.trans (ih ((k - 1) / 2) (by omega) (by omega))

end Heap

/-! ## sinking a cell -/

section Sink

variable {α : Type} (above : α → α → Prop) [DecidableRel above]

/-- `if (child < size && array[child] is above array[current]) current = child;` -/
def higherOf (array : List α) (size current child : Nat) : Except Fault Nat :=
  if child < size then do
    let c ← getCell array child
    let v ← getCell array current
    if above c v then .ok child else .ok current
  else .ok current

/-- Exchange a cell with the higher of its children, as long as that is above it. -/
def sinkLoop (size : Nat) : Nat → List α → Nat → Except Fault (List α)
  | 0, _, _ => .error .diverge
  | fuel + 1, array, index =>
      if index < size / 2 then do
        let current ← higherOf above array size index (2 * index + 1)
        let current ← higherOf above array size current (2 * index + 2)
        if current ≠ index then do
          let array ← swapCells array current index
          sinkLoop size fuel array current
        else .ok array
      else .ok array

variable {above} {β : Type} [LinearOrder β] (key : α → β) {array : List α}

/-- The keys of the cells. -/
def keyAt (d : α) (array : List α) : Nat → β := fun k => key (array.getD k d)

theorem higherOf_spec (habove : ∀ a b, above a b ↔ key b < key a) (d : α)
    (hsize : size ≤ array.length) (hcur : current < array.length) (child : Nat) :
    ∃ m, higherOf above array size current child = .ok m ∧
      (m = current ∨ m = child ∧ child < size) ∧
      keyAt key d array current ≤ keyAt key d array m ∧
      (child < size → keyAt key d array child ≤ keyAt key d array m) := by
  unfold higherOf
  split
  · next hchild =>
      rw [getCell_ok (show child < array.length by omega) d, ok_bind, getCell_ok hcur d, ok_bind]
      split
      · next hgt =>
          exact ⟨child, rfl, .inr ⟨rfl, hchild⟩, ((habove _ _).mp hgt).le, fun _ => le_rfl⟩
      · next hgt =>
          exact ⟨current, rfl, .inl rfl, le_rfl, fun _ => not_lt.mp ((habove _ _).not.mp hgt)⟩
  · next hchild => exact ⟨current, rfl, .inl rfl, le_rfl, fun h => absurd h hchild⟩

/-- Sinking the one cell that may be below its children puts the heap in order; it permutes
the heap and touches nothing behind it. -/
theorem sinkLoop_spec (habove : ∀ a b, above a b ↔ key b < key a) (d : α)
    (hsize : size ≤ array.length) (hlo : lo ≤ index)
    (h : HeapExcept (keyAt key d array) lo size index) (hfuel : size - index < fuel) :
    ∃ array', sinkLoop above size fuel array index = .ok array' ∧ array'.Perm array ∧
      array'.drop size = array.drop size ∧ HeapFrom (keyAt key d array') lo size := by
  induction fuel generalizing array index with
  | zero => omega
  | succ fuel ih =>
      rw [sinkLoop]
      by_cases hleaf : index < size / 2
      · obtain ⟨m₁, hrun₁, hm₁, hle₁, hleft⟩ :=
          higherOf_spec key habove d hsize (show index < array.length by omega) (2 * index + 1)
        obtain ⟨m, hrun₂, hm₂, hle₂, hright⟩ :=
          higherOf_spec key habove d hsize (show m₁ < array.length by omega) (2 * index + 2)
        have hmax : ∀ c < size, IsChild index c → keyAt key d array c ≤ keyAt key d array m := by
          rintro c hc (rfl | rfl)
          · exact (hleft hc).trans hle₂
          · exact hright hc
        rw [if_pos hleaf, hrun₁, ok_bind, hrun₂, ok_bind]
        by_cases hne : m = index
        · subst hne
          rw [if_neg (by simp)]
          exact ⟨array, rfl, .refl _, rfl, h.finish hmax⟩
        · have hchild : IsChild index m := by
            unfold IsChild
            omega
          have hm : m < size := by omega
          obtain ⟨array₁, hswap, hperm₁, hdrop₁, hcell⟩ :=
            swapCells_ok (show m < array.length by omega) (show index < array.length by omega) d
          have hcell₁ : keyAt key d array₁ = keyAt key d array ∘ Equiv.swap index m := by
            rw [Equiv.swap_comm]
            funext k
            exact congrArg key (congrFun hcell k)
          have h₁ : HeapExcept (keyAt key d array₁) lo size m := by
            rw [hcell₁]
            exact h.sift hlo hchild hm hmax (hle₁.trans hle₂)
          have hgt : index < m := by
            unfold IsChild at hchild
            omega
          obtain ⟨array', hrun, hperm, hdrop, hheap⟩ :=
            ih (hperm₁.length_eq ▸ hsize) (by omega) h₁ (by omega)
          refine ⟨array', ?_, hperm.trans hperm₁, ?_, hheap⟩
          · rw [if_pos hne, hswap, ok_bind, hrun]
          · rw [hdrop, hdrop₁ size hm (by omega)]
      · rw [if_neg hleaf]
        refine ⟨array, rfl, .refl _, rfl, h.finish ?_⟩
        intro c hc hchild
        unfold IsChild at hchild
        omega

/-- **Building a heap**: sinking the parents from the last to `lo`, with any sinking `sink`
that is the loop, puts the array in order for the parents from `lo` on. -/
theorem build_spec {sink : List α → Nat → Except Fault (List α)}
    (habove : ∀ a b, above a b ↔ key b < key a) (d : α) (array : List α) (lo : Nat)
    (hsink : ∀ array' i, sink array' i =
      sinkLoop above array.length (array.length + 1) array' i) :
    ∃ array', (List.range' lo (array.length / 2 - lo)).reverse.foldlM sink array = .ok array' ∧
      array'.Perm array ∧ HeapFrom (keyAt key d array') lo array.length := by
  have hinit : array.Perm array ∧
      HeapFrom (keyAt key d array) (lo + (array.length / 2 - lo)) array.length :=
    ⟨.refl _, heapFrom_of_le (by omega)⟩
  refine foldlM_range'_reverse_ok (I := fun k array' => array'.Perm array ∧
    HeapFrom (keyAt key d array') k array.length) hinit ?_
  rintro i array₁ hi hin ⟨hperm, hheap⟩
  obtain ⟨array₂, hrun, hperm₂, -, hheap₂⟩ :=
    sinkLoop_spec key habove d (Nat.le_of_eq hperm.length_eq.symm) (Nat.le_refl i) hheap.except
      (show array.length - i < array.length + 1 by omega)
  exact ⟨array₂, (hsink array₁ i).trans hrun, hperm₂.trans hperm, hheap₂⟩

end Sink

end Lib
