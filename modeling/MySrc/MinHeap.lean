import MySrc.Lib.BinaryHeap
import Mathlib.Data.Nat.Basic
import Mathlib.Order.OrderDual

/-!
# MySrc.MinHeap

`cstring/minheap.h`: an array of pointers in the order of a heap with the smallest
one at its root.

The cells are `unsigned long *`, and it is the pointers that are compared, so a cell is
its address.  `up_heap_node` has two cursors, `index` and `curindex`, which are the same
whenever the loop starts a turn.
-/

namespace MySrc.MinHeap

open Lib

/-! ## the code -/

/-- `HPARENT(i)` -/
def hparent (i : Nat) : Nat := if i < 1 then 0 else (i - 1) >>> 1

/-- `HLEFT(i)` -/
def hleft (i : Nat) : Nat := (i <<< 1) + 1

/-- `HRIGHT(i)` -/
def hright (i : Nat) : Nat := (i <<< 1) + 2

/-- `if(child < length && mheap[child] < mheap[other]) curindex = child;` -/
def smallerOf (mheap : List Nat) (length child other curindex : Nat) : Except Fault Nat :=
  if child < length then do
    let c ← getCell mheap child
    let v ← getCell mheap other
    if c < v then .ok child else .ok curindex
  else .ok curindex

/-- The loop of `up_heap_node`. -/
def upHeapNodeLoop (length : Nat) : Nat → List Nat → Nat → Nat → Except Fault (List Nat)
  | 0, _, _, _ => .error .diverge
  | fuel + 1, mheap, index, curindex =>
      if curindex < length / 2 then do
        -- the left child is compared with `index`, the right one with `curindex`
        let curindex ← smallerOf mheap length (hleft index) index curindex
        let curindex ← smallerOf mheap length (hright index) curindex curindex
        if index ≠ curindex then do
          let mheap ← swapCells mheap index curindex
          upHeapNodeLoop length fuel mheap curindex curindex
        else .ok mheap
      else .ok mheap

def upHeapNode (mheap : List Nat) (index length : Nat) : Except Fault (List Nat) :=
  upHeapNodeLoop length (length + 1) mheap index index

/-- `for(i = length/2 - 1; i >= 0; --i)` -/
def makeMinHeap (mheap : List Nat) (length : Nat) : Except Fault (List Nat) :=
  (List.range' 0 (length / 2)).reverse.foldlM (fun mheap i => upHeapNode mheap i length) mheap

/-! ## the heap -/

theorem hleft_eq (i : Nat) : hleft i = 2 * i + 1 := by
  rw [hleft, Nat.shiftLeft_eq]
  omega

theorem hright_eq (i : Nat) : hright i = 2 * i + 2 := by
  rw [hright, Nat.shiftLeft_eq]
  omega

/-- Every cell but the first is a child of its parent. -/
theorem isChild_hparent (hi : 1 ≤ i) : IsChild (hparent i) i := by
  rw [hparent, if_neg (by omega), Nat.shiftRight_eq_div_pow]
  unfold IsChild
  omega

/-- With both cursors at one cell, the loop sinks that cell below the smaller of its
children. -/
theorem upHeapNodeLoop_eq (length fuel : Nat) (mheap : List Nat) (index : Nat) :
    upHeapNodeLoop length fuel mheap index index = sinkLoop (· < ·) length fuel mheap index := by
  induction fuel generalizing mheap index with
  | zero => rfl
  | succ fuel ih =>
      simp only [upHeapNodeLoop, sinkLoop, ih, hleft_eq, hright_eq, ne_comm,
        swapCells_comm mheap index]
      rfl

/-- The smaller address is above. -/
theorem above_iff (a b : Nat) : a < b ↔ OrderDual.toDual b < OrderDual.toDual a := Iff.rfl

/-- **`make_min_heap`** ends on every array, permutes it, and leaves no cell below its
parent. -/
theorem makeMinHeap_spec (mheap : List Nat) :
    ∃ mheap', makeMinHeap mheap mheap.length = .ok mheap' ∧ mheap'.Perm mheap ∧
      ∀ i < mheap.length, 1 ≤ i → mheap'.getD (hparent i) 0 ≤ mheap'.getD i 0 := by
  obtain ⟨mheap', hrun, hperm, hheap⟩ :=
    build_spec OrderDual.toDual above_iff 0 mheap 0 fun mheap' i => upHeapNodeLoop_eq _ _ mheap' i
  refine ⟨mheap', hrun, hperm, fun i hi hpos => ?_⟩
  exact hheap (hparent i) i (Nat.zero_le _) hi (isChild_hparent hpos)

end MySrc.MinHeap
