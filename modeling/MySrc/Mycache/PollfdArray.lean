import MySrc.Lib.Cells
import MySrc.Lib.LowerBound
import MySrc.Lib.Sorting
import Mathlib.Data.List.Induction

/-!
# MySrc.Mycache.PollfdArray

The array of `struct pollfd` pointers of `net/net.h`: it is sorted by `fd` once
(`pollfd_array_insert_sort`), and every event is then looked up in it by its
`fd` (`pollfd_array_binary_get`).

The search keeps a range with both ends included but stops as soon as the two
ends meet, so the last cell of a range is never looked at.  A descriptor that
occurs once is therefore found exactly when the halving meets its cell before
nothing else is left.
-/

namespace MySrc.PollfdArray

open Lib

/-! ## the model -/

section Model

/- Entries are pointers, and `fd` says what each of them points to: the array functions
move pointers and read through them, and write nothing else. -/
variable {α : Type} (fd : α → Int)

/-- `p->fd`. -/
def fdOf : Option α → Except Fault Int
  | none => .error .nullDeref
  | some p => .ok (fd p)

/-- `while((0 <= j) && (tmp->fd < pfd_array[j]->fd))`, where the first argument is `j + 1`;
the array and `j + 1` after the loop. -/
def shiftUp (tmp : Option α) :
    Nat → List (Option α) → Except Fault (List (Option α) × Nat)
  | 0, pfdArray => .ok (pfdArray, 0)
  | j + 1, pfdArray => do
      let p ← getCell pfdArray j
      if (← fdOf fd tmp) < (← fdOf fd p) then do
        let pfdArray ← setCell pfdArray (j + 1) p
        shiftUp tmp j pfdArray
      else .ok (pfdArray, j + 1)

/-- The body of the outer loop. -/
def insertAt (pfdArray : List (Option α)) (i : Nat) : Except Fault (List (Option α)) := do
  let tmp ← getCell pfdArray i
  let (pfdArray, cell) ← shiftUp fd tmp i pfdArray
  setCell pfdArray cell tmp

def pollfdArrayInsertSort (pfdArray : List (Option α)) : Except Fault (List (Option α)) :=
  (List.range' 1 (pfdArray.length - 1)).foldlM (insertAt fd) pfdArray

/-- `left + right` on `int`, both of them not negative. -/
def addInt (left right : Int) : Except Fault Int :=
  if left + right < 2 ^ 31 then .ok (left + right) else .error .overflow

/-- `while(left < right)`. -/
def binaryGetLoop (pfdArray : List (Option α)) (x : Int) : Nat → Int → Int → Except Fault Int
  | 0, _, _ => .error .diverge
  | fuel + 1, left, right =>
      if left < right then do
        let mid := (← addInt left right) / 2
        let midFd ← fdOf fd (← getCell pfdArray mid.toNat)
        if midFd > x then binaryGetLoop pfdArray x fuel left (mid - 1)
        else if midFd < x then binaryGetLoop pfdArray x fuel (mid + 1) right
        else .ok mid
      else .ok (-1)

/-- `pollfd_array_binary_get(pfd_array, pfd_array_len, x)`.  The range loses a cell with
every turn. -/
def pollfdArrayBinaryGet (pfdArray : List (Option α)) (x : Int) : Except Fault Int :=
  binaryGetLoop fd pfdArray x (pfdArray.length + 1) 0 (pfdArray.length - 1)

end Model

/-! ## the sort -/

section Sorting

variable {α : Type} {fd : α → Int}

/-- The inner loop: the entries above `tmp` at the end of the part already sorted move one
cell up, and the cell before them is free. -/
theorem shiftUp_done (fd : α → Int) (done : List α) (tmp : α) (hole : Option α)
    (rest : List (Option α)) :
    ∃ front back w, done = front ++ back ∧
      shiftUp fd (some tmp) done.length (done.map some ++ hole :: rest) =
        .ok (front.map some ++ w :: (back.map some ++ rest), front.length) ∧
      (∀ p ∈ back, fd tmp < fd p) ∧ ∀ p ∈ front.getLast?, fd p ≤ fd tmp := by
  induction done using List.reverseRecOn generalizing hole rest with
  | nil => exact ⟨[], [], hole, by simp [shiftUp]⟩
  | append_singleton init last ih =>
      have hread : getCell ((init ++ [last]).map some ++ hole :: rest) init.length =
          .ok (some last) := by
        rw [List.map_append, List.append_assoc]
        exact getCell_at (by simp)
      rw [List.length_append, List.length_singleton]
      by_cases hlt : fd tmp < fd last
      · have hwrite : setCell ((init ++ [last]).map some ++ hole :: rest) (init.length + 1)
            (some last) = .ok (init.map some ++ some last :: some last :: rest) := by
          rw [setCell_at (by simp)]
          simp
        obtain ⟨front, back, w, rfl, hrun, hback, hfront⟩ := ih (some last) (some last :: rest)
        refine ⟨front, back ++ [last], w, by simp, ?_, ?_, hfront⟩
        · simp only [shiftUp, hread, hwrite, ok_bind, fdOf, if_pos hlt, hrun]
          simp
        · simpa [or_imp, forall_and] using ⟨hback, hlt⟩
      · refine ⟨init ++ [last], [], hole, by simp, ?_, by simp, by simpa using hlt⟩
        simp only [shiftUp, hread, ok_bind, fdOf, if_neg hlt]
        simp

/-- One round of the outer loop inserts the entry behind the sorted part. -/
theorem insertAt_done (fd : α → Int) (done : List α) (tmp : α) (rest : List (Option α)) :
    ∃ out, Inserted fd tmp done out ∧
      insertAt fd (done.map some ++ some tmp :: rest) done.length =
        .ok (out.map some ++ rest) := by
  obtain ⟨front, back, w, rfl, hrun, hback, hfront⟩ :=
    shiftUp_done fd done tmp (some tmp) rest
  refine ⟨front ++ tmp :: back, ⟨front, back, rfl, rfl, hback, hfront⟩, ?_⟩
  rw [insertAt, getCell_at (by simp)]
  simp only [ok_bind, hrun]
  rw [setCell_at (by simp)]
  simp

/-- The outer loop at `i`: `out` is what it has made of `done`, and `rest` is what it has
not reached. -/
def SortInv (fd : α → Int) (pfds : List α) (i : Nat) (pfdArray : List (Option α)) : Prop :=
  ∃ done rest out, pfds = done ++ rest ∧ pfdArray = (out ++ rest).map some ∧ out.length = i ∧
    out.Perm done ∧ out.Pairwise (KeyLex fd fun _ _ => True)

theorem SortInv.step {pfds : List α} {pfdArray : List (Option α)}
    (h : SortInv fd pfds i pfdArray) (hi : i < pfds.length) :
    ∃ pfdArray', insertAt fd pfdArray i = .ok pfdArray' ∧ SortInv fd pfds (i + 1) pfdArray' := by
  obtain ⟨done, rest, out, rfl, rfl, rfl, hperm, hsorted⟩ := h
  have hlen := hperm.length_eq
  cases rest with
  | nil =>
      simp at hi
      omega
  | cons p rest =>
      obtain ⟨out', hins, hrun⟩ := insertAt_done fd out p (rest.map some)
      refine ⟨(out' ++ rest).map some, ?_, done ++ [p], rest, out', by simp, rfl, ?_, ?_, ?_⟩
      · simpa using hrun
      · simpa using hins.perm.length_eq
      · exact hins.perm.trans ((hperm.cons p).trans (List.perm_append_singleton p done).symm)
      · exact hins.lex hsorted (by simp)

/-- `pollfd_array_insert_sort` leaves a permutation of the array sorted by `fd`. -/
theorem pollfdArrayInsertSort_spec (fd : α → Int) (pfds : List α) :
    ∃ sorted : List α, pollfdArrayInsertSort fd (pfds.map some) = .ok (sorted.map some) ∧
      sorted.Perm pfds ∧ sorted.Pairwise fun p q => fd p ≤ fd q := by
  cases pfds with
  | nil => exact ⟨[], by simp [pollfdArrayInsertSort]⟩
  | cons p pfds =>
      have hinit : SortInv fd (p :: pfds) 1 ((p :: pfds).map some) :=
        ⟨[p], pfds, [p], by simp⟩
      obtain ⟨_, hrun, done, rest, out, hsplit, rfl, hlen, hperm, hsorted⟩ :=
        foldlM_range'_ok (n := ((p :: pfds).map some).length - 1) hinit fun i _ _ hi hinv =>
          hinv.step (by simpa [Nat.add_comm] using hi)
      have hrest : rest = [] := by
        have h₁ := congrArg List.length hsplit
        have h₂ := hperm.length_eq
        simp at h₁ hlen
        exact List.length_eq_zero_iff.mp (by omega)
      subst hrest
      rw [List.append_nil] at hsplit hrun
      refine ⟨out, hrun, hsplit ▸ hperm, hsorted.imp fun hpq => ?_⟩
      rcases hpq with hlt | ⟨heq, -⟩
      · exact hlt.le
      · exact heq.le

end Sorting

/-! ## the search -/

/-- The ranges a halving search passes on its way to the cells from `lo` up to `hi`, as
their first cell and their number of cells, when it starts with the `m` cells from `left`
on.  The middle cell is behind the ones it looks for, before them, or one of them. -/
def halvings (lo hi left m : Nat) : List (Nat × Nat) :=
  if m = 0 then []
  else
    (left, m) ::
      if m = 1 then []
      else if hi ≤ left + (m - 1) / 2 then halvings lo hi left ((m - 1) / 2)
      else if left + (m - 1) / 2 < lo then halvings lo hi (left + (m - 1) / 2 + 1) (m / 2)
      else []
termination_by m
decreasing_by all_goals omega

/-- The halving computes every middle cell inside an `int`, and where it looks for one cell
it does not come down to a range of this cell alone. -/
def Met (lo hi left m : Nat) : Prop :=
  (∀ r ∈ halvings lo hi left m, 2 ≤ r.2 → 2 * r.1 + r.2 - 1 < 2 ^ 31) ∧
    (hi = lo + 1 → (lo, 1) ∉ halvings lo hi left m)

theorem met_zero : Met lo hi left 0 := by simp [Met, halvings]

theorem met_one : Met lo hi left 1 ↔ (hi = lo + 1 → lo ≠ left) := by simp [Met, halvings]

theorem met_halving (hm : 2 ≤ m) :
    Met lo hi left m ↔ 2 * left + m - 1 < 2 ^ 31 ∧
      if hi ≤ left + (m - 1) / 2 then Met lo hi left ((m - 1) / 2)
      else if left + (m - 1) / 2 < lo then Met lo hi (left + (m - 1) / 2 + 1) (m / 2)
      else True := by
  have hne : (lo, 1) ≠ (left, m) := by
    intro h
    cases h
    omega
  unfold Met
  rw [halvings, if_neg (by omega), if_neg (by omega)]
  rw [List.forall_mem_cons, List.mem_cons]
  simp only [hne, false_or, hm, true_imp_iff, and_assoc]
  split_ifs
  · rfl
  · rfl
  · simp

/-- On the sorted entries, the cells from `lo` up to `hi` are those with descriptor `x`. -/
structure Places (fd : α → Int) (sorted : List α) (x : Int) (lo hi : Nat) : Prop where
  below : IsPartitionPoint (fd · < x) sorted lo
  upTo : IsPartitionPoint (fd · ≤ x) sorted hi

/-- `r` is one of the cells from `lo` up to `hi`, and `-1` where there is none. -/
def Answers (lo hi : Nat) (r : Int) : Prop :=
  (lo < hi → ∃ i, lo ≤ i ∧ i < hi ∧ r = i) ∧ (hi ≤ lo → r = -1)

section Search

variable {α : Type} {fd : α → Int} {sorted : List α} {x : Int} {lo hi : Nat}

theorem binaryGetLoop_done (fuel : Nat) (h : right ≤ left) :
    binaryGetLoop fd pfdArray x (fuel + 1) left right = .ok (-1) := by
  rw [binaryGetLoop, if_neg (by omega)]

theorem binaryGetLoop_overflow (fuel : Nat) (h : left < right) (hsum : ¬ left + right < 2 ^ 31) :
    binaryGetLoop fd pfdArray x (fuel + 1) left right = .error .overflow := by
  rw [binaryGetLoop, if_pos h, addInt, if_neg hsum]
  rfl

/-- One turn of the search, in terms of where `x` stands. -/
theorem binaryGetLoop_halving (h : Places fd sorted x lo hi) (fuel : Nat) (hm : 2 ≤ m)
    (hin : left + m ≤ sorted.length) (hfits : 2 * left + m - 1 < 2 ^ 31) :
    binaryGetLoop fd (sorted.map some) x (fuel + 1) left (left + m - 1 : Int) =
      if hi ≤ left + (m - 1) / 2 then
        binaryGetLoop fd (sorted.map some) x fuel left (left + ((m - 1) / 2 : Nat) - 1 : Int)
      else if left + (m - 1) / 2 < lo then
        binaryGetLoop fd (sorted.map some) x fuel (left + (m - 1) / 2 + 1 : Nat)
          ((left + (m - 1) / 2 + 1 : Nat) + (m / 2 : Nat) - 1 : Int)
      else .ok (left + (m - 1) / 2 : Nat) := by
  have hmid : ((left : Int) + (left + m - 1)) / 2 = (left + (m - 1) / 2 : Nat) := by omega
  have hcell : left + (m - 1) / 2 < sorted.length := by omega
  have hread : getCell (sorted.map some) (left + (m - 1) / 2) =
      .ok (some sorted[left + (m - 1) / 2]) := by
    simp [getCell, hcell]
  have hbelow := h.below.2 _ hcell
  have hupTo := h.upTo.2 _ hcell
  simp only [decide_eq_true_eq] at hbelow hupTo
  rw [binaryGetLoop, if_pos (by omega), addInt, if_pos (by omega)]
  simp only [ok_bind, hmid, Int.toNat_natCast, hread, fdOf]
  have h₁ : fd sorted[left + (m - 1) / 2] > x ↔ hi ≤ left + (m - 1) / 2 := by omega
  simp only [h₁, hbelow]
  have hright : (left + m - 1 : Int) =
      (left + (m - 1) / 2 + 1 : Nat) + (m / 2 : Nat) - 1 := by omega
  rw [hright]
  rfl

theorem answers_neg_one (hle : lo ≤ hi) : Answers lo hi (-1) ↔ lo = hi := by
  unfold Answers
  constructor
  · intro h
    by_contra hne
    obtain ⟨i, -, -, hi⟩ := h.1 (by omega)
    omega
  · rintro rfl
    simp

/-- The search gives the right answer exactly when the halving meets the cells of `x`.  The
range always holds all of them: what is cut off is below `x` or above it. -/
theorem binaryGetLoop_iff (h : Places fd sorted x lo hi) (hle : lo ≤ hi) (hfuel : m < fuel)
    (hleft : left ≤ lo) (hright : hi ≤ left + m) (hin : left + m ≤ sorted.length) :
    (∃ r, binaryGetLoop fd (sorted.map some) x fuel left (left + m - 1 : Int) = .ok r ∧
      Answers lo hi r) ↔ Met lo hi left m := by
  induction fuel generalizing left m with
  | zero => omega
  | succ fuel ih =>
      obtain rfl | rfl | hm : m = 0 ∨ m = 1 ∨ 2 ≤ m := by omega
      · rw [binaryGetLoop_done fuel (by omega)]
        have : lo = hi := by omega
        simpa [met_zero, answers_neg_one hle] using this
      · rw [binaryGetLoop_done fuel (by omega)]
        simp only [Except.ok.injEq, exists_eq_left', answers_neg_one hle, met_one]
        omega
      · rw [met_halving hm]
        by_cases hfits : 2 * left + m - 1 < 2 ^ 31
        · rw [binaryGetLoop_halving h fuel hm hin hfits]
          simp only [hfits, true_and]
          split_ifs with hbehind hbefore
          · exact ih (by omega) hleft (by omega) (by omega)
          · exact ih (by omega) (by omega) (by omega) (by omega)
          · have : Answers lo hi (left + (m - 1) / 2 : Nat) :=
              ⟨fun _ => ⟨_, by omega, by omega, rfl⟩, by omega⟩
            simpa using this
        · rw [binaryGetLoop_overflow fuel (by omega) (by omega)]
          simp only [hfits, false_and, iff_false]
          rintro ⟨r, hr, -⟩
          cases hr

/-- The descriptors below `x` and those up to `x` are counted in the array in any order. -/
theorem places_of_sorted {pfds : List α} (hperm : sorted.Perm pfds)
    (hsorted : sorted.Pairwise fun p q => fd p ≤ fd q) (x : Int) :
    Places fd sorted x (pfds.countP (fd · < x)) (pfds.countP (fd · ≤ x)) where
  below := by
    rw [← hperm.countP_eq]
    refine Partitioned.isPartitionPoint_countP (hsorted.imp fun hpq hq => ?_)
    simp only [decide_eq_true_eq] at hq ⊢
    omega
  upTo := by
    rw [← hperm.countP_eq]
    refine Partitioned.isPartitionPoint_countP (hsorted.imp fun hpq hq => ?_)
    simp only [decide_eq_true_eq] at hq ⊢
    omega

/-- The cells of `x` are the ones it is found at. -/
theorem Places.mem_iff (h : Places fd sorted x lo hi) (hi' : i < sorted.length) :
    fd sorted[i] = x ↔ lo ≤ i ∧ i < hi := by
  have hbelow := h.below.2 i hi'
  have hupTo := h.upTo.2 i hi'
  simp only [decide_eq_true_eq] at hbelow hupTo
  omega

/-- Where `x` stands from `lo` up to `hi`, the right answer is an index of an entry with `x`,
and `-1` when there is none. -/
theorem Places.answers_iff (h : Places fd sorted x lo hi) (r : Int) :
    Answers lo hi r ↔
      ((∃ p ∈ sorted, fd p = x) → ∃ i, ∃ hi : i < sorted.length, r = i ∧ fd sorted[i] = x) ∧
        ((∀ p ∈ sorted, fd p ≠ x) → r = -1) := by
  have hlen := h.upTo.1
  have hsome : (∃ p ∈ sorted, fd p = x) ↔ lo < hi := by
    constructor
    · rintro ⟨p, hp, hx⟩
      obtain ⟨i, hi', rfl⟩ := List.getElem_of_mem hp
      have := (h.mem_iff hi').mp hx
      omega
    · intro hlt
      have hlo : lo < sorted.length := by omega
      exact ⟨sorted[lo], List.getElem_mem hlo, (h.mem_iff hlo).mpr ⟨Nat.le_refl _, hlt⟩⟩
  have hnone : (∀ p ∈ sorted, fd p ≠ x) ↔ hi ≤ lo := by
    rw [← Nat.not_lt, ← hsome]
    simp
  rw [hsome, hnone]
  refine and_congr_left' (imp_congr_right fun _ => exists_congr fun i => ?_)
  constructor
  · rintro ⟨hlo, hhi, rfl⟩
    exact ⟨by omega, rfl, (h.mem_iff (by omega)).mpr ⟨hlo, hhi⟩⟩
  · rintro ⟨hi', rfl, hx⟩
    obtain ⟨hlo, hhi⟩ := (h.mem_iff hi').mp hx
    exact ⟨hlo, hhi, rfl⟩

end Search

/-! ## sort, then look up -/

/-- The sort leaves a permutation of the entries sorted by `fd`, and looking `x` up in it
gives the index of an entry with this `fd` if there is one, and `-1` otherwise. -/
def LookupAgrees {α : Type} (fd : α → Int) (pfds : List α) (x : Int) : Prop :=
  ∃ sorted : List α, pollfdArrayInsertSort fd (pfds.map some) = .ok (sorted.map some) ∧
    sorted.Perm pfds ∧ (sorted.Pairwise fun p q => fd p ≤ fd q) ∧
    ∃ r, pollfdArrayBinaryGet fd (sorted.map some) x = .ok r ∧
      ((∃ p ∈ sorted, fd p = x) → ∃ i, ∃ hi : i < sorted.length, r = i ∧ fd sorted[i] = x) ∧
        ((∀ p ∈ sorted, fd p ≠ x) → r = -1)

/-- Once the entries are sorted, all depends on where `x` stands in them. -/
theorem lookupAgrees_iff_met {α : Type} {fd : α → Int} {pfds sorted : List α} {x : Int}
    (hsort : pollfdArrayInsertSort fd (pfds.map some) = .ok (sorted.map some))
    (hperm : sorted.Perm pfds) (hsorted : sorted.Pairwise fun p q => fd p ≤ fd q)
    (hplaces : Places fd sorted x lo hi) (hle : lo ≤ hi) :
    LookupAgrees fd pfds x ↔ Met lo hi 0 sorted.length := by
  rw [← binaryGetLoop_iff hplaces hle (Nat.lt_succ_self _) (Nat.zero_le _)
    (by simpa using hplaces.upTo.1) (by simp)]
  simp only [hplaces.answers_iff]
  constructor
  · rintro ⟨sorted', hsort', -, -, hget⟩
    obtain rfl : sorted' = sorted := by
      rw [hsort] at hsort'
      exact (List.map_injective_iff.mpr (Option.some_injective α) (Except.ok.inj hsort')).symm
    simpa [pollfdArrayBinaryGet] using hget
  · intro hget
    exact ⟨sorted, hsort, hperm, hsorted, by simpa [pollfdArrayBinaryGet] using hget⟩

/-- **Looking up after sorting** gives the right answer exactly when halving the range of
all cells, towards the place the number of smaller descriptors gives, stays inside an `int`
and does not come down to the one cell of a descriptor that occurs once. -/
theorem lookup_agrees_iff {α : Type} (fd : α → Int) (pfds : List α) (x : Int) :
    LookupAgrees fd pfds x ↔
      Met (pfds.countP (fd · < x)) (pfds.countP (fd · ≤ x)) 0 pfds.length := by
  obtain ⟨sorted, hsort, hperm, hsorted⟩ := pollfdArrayInsertSort_spec fd pfds
  have hle : pfds.countP (fd · < x) ≤ pfds.countP (fd · ≤ x) := by
    refine List.countP_mono_left fun p _ hp => ?_
    simp only [decide_eq_true_eq] at hp ⊢
    omega
  rw [← hperm.length_eq]
  exact lookupAgrees_iff_met hsort hperm hsorted (places_of_sorted hperm hsorted x) hle

/-- A descriptor that is the only entry of its array is not found. -/
theorem lookup_misses_single : ¬ LookupAgrees (fun p : Int => p) [5] 5 := by
  rintro ⟨sorted, hsort, hperm, -, r, hget, hfound, -⟩
  obtain rfl : sorted = [5] := List.perm_singleton.mp hperm
  have hr : r = -1 := by
    have : pollfdArrayBinaryGet (fun p : Int => p) [some 5] 5 = .ok (-1) := by decide
    rw [List.map_singleton, this] at hget
    exact (Except.ok.inj hget).symm
  obtain ⟨i, -, hi, -⟩ := hfound ⟨5, by simp⟩
  omega

/-- Behind the middle of two or more cells there is always one left, so the search for the
last cell of a range ends with this cell alone. -/
theorem not_met_last (h : left + m = lo + 1) (hle : left ≤ lo) : ¬ Met lo (lo + 1) left m := by
  induction m using Nat.strong_induction_on generalizing left with
  | _ m ih =>
      obtain rfl | hm : m = 1 ∨ 2 ≤ m := by omega
      · simp [met_one]
        omega
      · rw [met_halving hm, if_neg (by omega), if_pos (by omega)]
        exact fun hmet => ih (m / 2) (by omega) (by omega) (by omega) hmet.2

/-- The largest descriptor of an array, when it occurs once, is not found. -/
theorem lookup_misses_largest {α : Type} {fd : α → Int} {pfds rest : List α} {p : α}
    (hp : pfds.Perm (p :: rest)) (hrest : ∀ q ∈ rest, fd q < fd p) :
    ¬ LookupAgrees fd pfds (fd p) := by
  obtain ⟨sorted, hsort, hperm, hsorted⟩ := pollfdArrayInsertSort_spec fd pfds
  have hplaces := places_of_sorted (hperm.trans hp) hsorted (fd p)
  have hbelow : (p :: rest).countP (fd · < fd p) = rest.length := by
    rw [List.countP_cons_of_neg (by simp), List.countP_eq_length]
    simpa using hrest
  have hupTo : (p :: rest).countP (fd · ≤ fd p) = rest.length + 1 := by
    rw [List.countP_cons_of_pos (by simp), Nat.add_right_cancel_iff, List.countP_eq_length]
    intro q hq
    simpa using (hrest q hq).le
  rw [hbelow, hupTo] at hplaces
  rw [lookupAgrees_iff_met hsort hperm hsorted hplaces (Nat.le_succ _)]
  exact not_met_last (by simpa using (hperm.trans hp).length_eq) (Nat.zero_le _)

/-! ## arrays on which no sum overflows -/

theorem halvings_within (h : r ∈ halvings lo hi left m) :
    left ≤ r.1 ∧ r.1 + r.2 ≤ left + m := by
  induction m using Nat.strong_induction_on generalizing left with
  | _ m ih =>
      rw [halvings] at h
      split_ifs at h with h₀ h₁ hbehind hbefore
      · cases h
      · simp_all
      · rcases List.mem_cons.mp h with rfl | h
        · simp
        · have := ih _ (by omega) h
          omega
      · rcases List.mem_cons.mp h with rfl | h
        · simp
        · have := ih _ (by omega) h
          omega
      · simp_all

/-- Up to `2 ^ 30 + 1` entries, only a descriptor that occurs once can be missed. -/
theorem met_iff_of_le (h : m ≤ 2 ^ 30 + 1) :
    Met lo hi 0 m ↔ (hi = lo + 1 → (lo, 1) ∉ halvings lo hi 0 m) := by
  refine and_iff_right fun r hr hsize => ?_
  have := halvings_within hr
  omega

end MySrc.PollfdArray
