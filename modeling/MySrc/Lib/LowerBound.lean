import MySrc.Lib.Run

/-!
# MySrc.Lib.LowerBound

`std::lower_bound`: the halving search for the first element of a range that
is not below a value.  The range is given as a list and the comparison with
the value as a predicate `below`; iterators are indices.

On a range that `below` partitions, the search returns the partition point
(`lowerBound_spec`).
-/

namespace Lib

/-- The loop of `lower_bound` on the `len` elements from `first` on.  The
length at least halves with every turn, so `fuel` never runs out when it
starts at `len` or more. -/
def lowerBoundLoop (below : α → Bool) (l : List α) : Nat → Nat → Nat → Nat
  | 0, first, _ => first
  | fuel + 1, first, len =>
      if len = 0 then first
      else
        match l[first + len / 2]? with
        | none => first
        | some middle =>
            if below middle then
              lowerBoundLoop below l fuel (first + len / 2 + 1) (len - len / 2 - 1)
            else lowerBoundLoop below l fuel first (len / 2)

/-- `lower_bound(begin, end, value)`, as an index from `begin`. -/
def lowerBound (below : α → Bool) (l : List α) : Nat :=
  lowerBoundLoop below l l.length 0 l.length

section

variable {below : α → Bool} {l : List α}

/-- Once an element is not below the value, none of the later ones is. -/
def Partitioned (below : α → Bool) (l : List α) : Prop :=
  l.Pairwise fun a b => below b → below a

theorem Partitioned.below_of_le (hp : Partitioned below l) {i j : Nat} (hij : i ≤ j)
    (hj : j < l.length) (hb : below l[j]) : below l[i] := by
  rcases Nat.lt_or_eq_of_le hij with hlt | rfl
  · exact List.pairwise_iff_getElem.mp hp i j (by omega) hj hlt hb
  · exact hb

/-- The index is the partition point of the list. -/
def IsPartitionPoint (below : α → Bool) (l : List α) (k : Nat) : Prop :=
  k ≤ l.length ∧ ∀ i (hi : i < l.length), below l[i] ↔ i < k

theorem isPartitionPoint_of_bounds {k : Nat} (hk : k ≤ l.length)
    (hlo : ∀ i (hi : i < l.length), i < k → below l[i])
    (hhi : ∀ i (hi : i < l.length), k ≤ i → ¬ below l[i]) : IsPartitionPoint below l k := by
  refine ⟨hk, fun i hi => ⟨fun hb => ?_, hlo i hi⟩⟩
  by_contra hge
  exact hhi i hi (by omega) hb

/-- Counting the elements below the value gives the partition point. -/
theorem Partitioned.isPartitionPoint_countP (hp : Partitioned below l) :
    IsPartitionPoint below l (l.countP below) := by
  refine ⟨List.countP_le_length, ?_⟩
  induction l with
  | nil => simp
  | cons a l ih =>
      obtain ⟨ha, hl⟩ := List.pairwise_cons.mp hp
      intro i hi
      by_cases hb : below a
      · rw [List.countP_cons_of_pos hb]
        cases i with
        | zero => simp [hb]
        | succ i => simpa using ih hl i (by simpa using hi)
      · -- nothing after an element that is not below is below
        have hnone : ∀ b ∈ a :: l, ¬ below b := by
          intro b hmem hbb
          rcases List.mem_cons.mp hmem with rfl | hmem
          · exact hb hbb
          · exact hb (ha b hmem hbb)
        rw [List.countP_eq_zero.mpr hnone]
        simp [hnone _ (List.getElem_mem hi)]

/-- The loop keeps the partition point between `first` and `first + len`. -/
theorem lowerBoundLoop_spec (hp : Partitioned below l) {fuel first len : Nat} (hfuel : len ≤ fuel)
    (hlen : first + len ≤ l.length)
    (hlo : ∀ i (hi : i < l.length), i < first → below l[i])
    (hhi : ∀ i (hi : i < l.length), first + len ≤ i → ¬ below l[i]) :
    IsPartitionPoint below l (lowerBoundLoop below l fuel first len) := by
  induction fuel generalizing first len with
  | zero =>
      unfold lowerBoundLoop
      exact isPartitionPoint_of_bounds (by omega) hlo fun i hi hge => hhi i hi (by omega)
  | succ fuel ih =>
      unfold lowerBoundLoop
      split
      · exact isPartitionPoint_of_bounds (by omega) hlo fun i hi hge => hhi i hi (by omega)
      · next h0 =>
          have hm : first + len / 2 < l.length := by omega
          rw [List.getElem?_eq_getElem hm]
          dsimp only
          split
          · next hb =>
              apply ih (by omega) (by omega)
              · intro i hi hlt
                exact hp.below_of_le (by omega) hm hb
              · intro i hi hge
                exact hhi i hi (by omega)
          · next hb =>
              apply ih (by omega) (by omega) hlo
              intro i hi hge hb'
              exact hb (hp.below_of_le hge hi hb')

/-- **lower_bound is the partition point**: exactly the elements before it are
below the value. -/
theorem lowerBound_spec (hp : Partitioned below l) :
    IsPartitionPoint below l (lowerBound below l) :=
  lowerBoundLoop_spec hp (Nat.le_refl _) (by omega) (by omega) (by omega)

end

example : lowerBound (· < 4) [1, 3, 4, 4, 8] = 2 := by decide
example : lowerBound (· < 9) [1, 3, 4, 4, 8] = 5 := by decide

end Lib
