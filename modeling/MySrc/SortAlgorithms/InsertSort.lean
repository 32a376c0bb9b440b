import MySrc.SortAlgorithms.Slice
import Mathlib.Data.List.Induction

/-!
# MySrc.SortAlgorithms.InsertSort

The sorts that insert one element after the other into the part already
sorted: `insert_sort`, the digit passes of `radix_sort` and the gapped passes
of `shell_sort`.

The three share one inner loop, which moves the elements above `tmp` one gap
up and ends with the cell where `tmp` goes.
-/

namespace MySrc.SortAlgorithms

open Lib

/-! ## the model -/

/-- `while (hindex <= j && key(tmp) < key(array[j])) { array[j+gap] = array[j]; j -= gap; }`,
where `cell` is `j + gap`; the array and the cell after the loop. -/
def shiftUp (key : Int → Int) (gap hindex : Nat) (tmp : Int) :
    Nat → List Int → Nat → Except Fault (List Int × Nat)
  | 0, _, _ => .error .diverge
  | fuel + 1, array, cell =>
      if hindex + gap ≤ cell then do
        let v ← getCell array (cell - gap)
        if key tmp < key v then do
          let array ← setCell array cell v
          shiftUp key gap hindex tmp fuel array (cell - gap)
        else .ok (array, cell)
      else .ok (array, cell)

/-- The body of the outer loop: `array[i]` goes to its place among the cells
`i - gap, i - 2 * gap, …` down to `hindex`. -/
def insertAt (key : Int → Int) (gap hindex : Nat) (array : List Int) (i : Nat) :
    Except Fault (List Int) := do
  let tmp ← getCell array i
  let (array, cell) ← shiftUp key gap hindex tmp (i + 1) array i
  setCell array cell tmp

/-- `for (i = hindex + 1; i <= eindex; ++i)`, comparing by `key`. -/
def insertPass (key : Int → Int) (array : List Int) (hindex eindex : Nat) :
    Except Fault (List Int) :=
  (List.range' (hindex + 1) (eindex - hindex)).foldlM (insertAt key 1 hindex) array

def insertSort : SortCb := fun array hindex eindex _ => insertPass id array hindex eindex

/-- `GET_POS_NB`: the digit at position `d`, with the number's sign. -/
def getPosNb (srcnb : Int) (d : Nat) (ary : Int) : Int :=
  (Nat.iterate (fun nb => nb.tdiv ary) d srcnb).tmod ary

/-- `DEPTH`. -/
def depth : Nat := 3

def radixSort : SortCb := fun array hindex eindex _ =>
  (List.range depth).foldlM
    (fun array d => insertPass (fun nb => getPosNb nb d 10) array hindex eindex) array

/-- `for (i = gap; i < array_size; ++i)`. -/
def gapPass (array : List Int) (gap arraySize : Nat) : Except Fault (List Int) :=
  (List.range' gap (arraySize - gap)).foldlM (insertAt id gap 0) array

/-- `for (; gap > 0; gap /= 2)`. -/
def shellLoop (arraySize : Nat) : Nat → List Int → Nat → Except Fault (List Int)
  | 0, _, _ => .error .diverge
  | fuel + 1, array, gap =>
      if 0 < gap then do
        let array ← gapPass array gap arraySize
        shellLoop arraySize fuel array (gap / 2)
      else .ok array

def shellSort : SortCb := fun array _ _ arraySize =>
  shellLoop arraySize (arraySize / 2 + 1) array (arraySize / 2)

/-! ## one insertion -/

section

variable (key : Int → Int) (X : List Int)

/-- The inner loop with gap one: the elements above `tmp` at the end of the part
already sorted move one cell up, and the cell before them is free. -/
theorem shiftUp_one (done rest : List Int) (tmp hole : Int) (hfuel : done.length < fuel) :
    ∃ front back w, done = front ++ back ∧
      shiftUp key 1 X.length tmp fuel (X ++ done ++ hole :: rest) (X.length + done.length) =
        .ok (X ++ front ++ w :: (back ++ rest), X.length + front.length) ∧
      (∀ y ∈ back, key tmp < key y) ∧ ∀ y ∈ front.getLast?, key y ≤ key tmp := by
  induction done using List.reverseRecOn generalizing rest hole fuel with
  | nil =>
      obtain ⟨fuel, rfl⟩ : ∃ n, fuel = n + 1 := ⟨fuel - 1, by omega⟩
      exact ⟨[], [], hole, by simp [shiftUp]⟩
  | append_singleton init last ih =>
      obtain ⟨fuel, rfl⟩ : ∃ n, fuel = n + 1 := ⟨fuel - 1, by omega⟩
      have hsplit : X ++ (init ++ [last]) ++ hole :: rest =
          (X ++ init) ++ last :: hole :: rest := by simp
      have hread : getCell (X ++ (init ++ [last]) ++ hole :: rest)
          (X.length + (init ++ [last]).length - 1) = .ok last := by
        rw [hsplit]
        exact getCell_at (by simp)
      by_cases hlt : key tmp < key last
      · have hwrite : setCell (X ++ (init ++ [last]) ++ hole :: rest)
            (X.length + (init ++ [last]).length) last =
              .ok (X ++ init ++ last :: last :: rest) := by
          rw [setCell_at (by simp)]
          simp
        obtain ⟨front, back, w, rfl, hrun, hback, hfront⟩ :=
          ih (last :: rest) last (by simpa using hfuel)
        refine ⟨front, back ++ [last], w, by simp, ?_, ?_, hfront⟩
        · simp only [shiftUp, hread, hwrite, ok_bind, if_pos hlt]
          rw [if_pos (by simp; omega), List.length_append, List.length_singleton,
            Nat.add_sub_assoc (by omega), Nat.add_sub_cancel, hrun]
          simp
        · simpa [or_imp, forall_and] using ⟨hback, hlt⟩
      · refine ⟨init ++ [last], [], hole, by simp, ?_, by simp, by simpa using hlt⟩
        simp only [shiftUp, hread, ok_bind, if_neg hlt]
        simp

/-- One round of the outer loop inserts the element behind the sorted part. -/
theorem insertAt_one (done rest : List Int) (x : Int) :
    ∃ out, Inserted key x done out ∧
      insertAt key 1 X.length (X ++ done ++ x :: rest) (X.length + done.length) =
        .ok (X ++ out ++ rest) := by
  obtain ⟨front, back, w, rfl, hrun, hback, hfront⟩ :=
    shiftUp_one key X done rest x x (show done.length < X.length + done.length + 1 by omega)
  refine ⟨front ++ x :: back, ⟨front, back, rfl, rfl, hback, hfront⟩, ?_⟩
  rw [insertAt, getCell_at (by simp)]
  simp only [ok_bind, hrun]
  rw [setCell_at (by simp)]
  simp

/-! ## one pass -/

/-- What an insertion pass by `key` makes of a slice: a permutation, ordered by the key and
among equal keys by whatever order there was, in which the elements of one key stand as
they did. -/
structure PassSpec (key : Int → Int) (S S' : List Int) : Prop where
  perm : S'.Perm S
  lex : ∀ R, S.Pairwise R → S'.Pairwise (KeyLex key R)
  stable : ∀ p : Int → Bool, (∀ a b, p a → p b → key a = key b) → S'.filter p = S.filter p

theorem PassSpec.insert {key : Int → Int} {done out out' : List Int} {x : Int}
    (h : PassSpec key done out) (hins : Inserted key x out out') :
    PassSpec key (done ++ [x]) out' where
  perm := hins.perm.trans ((h.perm.cons x).trans (List.perm_append_singleton x done).symm)
  lex R hR := by
    obtain ⟨hdone, -, hx⟩ := List.pairwise_append.mp hR
    exact hins.lex (h.lex R hdone) fun y hy => hx y (h.perm.mem_iff.mp hy) x (by simp)
  stable p hp := by
    rw [hins.filter hp, List.filter_append, List.filter_append, h.stable p hp]

/-- The outer loop at `i`: `out` is what the pass has made of `done`, and `rest` is what it
has not reached. -/
def PassInv (S Y : List Int) (i : Nat) (array : List Int) : Prop :=
  ∃ done rest out, S = done ++ rest ∧ array = X ++ out ++ (rest ++ Y) ∧
    X.length + out.length = i ∧ PassSpec key done out

/-- A pass over a slice sorts it by the key, stably, and touches nothing else. -/
theorem insertPass_spec (S Y : List Int) (hX : X.length = hindex)
    (hS : hindex + S.length = eindex + 1) :
    ∃ S', insertPass key (X ++ S ++ Y) hindex eindex = .ok (X ++ S' ++ Y) ∧
      PassSpec key S S' := by
  cases S with
  | nil =>
      have hn : eindex - hindex = 0 := by
        simp at hS
        omega
      exact ⟨[], by simp [insertPass, hn], ⟨.refl _, by simp, by simp⟩⟩
  | cons s S =>
      have hinit : PassInv key X (s :: S) Y (hindex + 1) (X ++ s :: S ++ Y) :=
        ⟨[s], S, [s], by simp, by simp, by simp [hX], ⟨.refl _, by simp, by simp⟩⟩
      have hstep : ∀ i array, hindex + 1 ≤ i → i < hindex + 1 + (eindex - hindex) →
          PassInv key X (s :: S) Y i array → ∃ array', insertAt key 1 hindex array i = .ok array' ∧
            PassInv key X (s :: S) Y (i + 1) array' := by
        rintro i _ hi hin ⟨done, rest, out, hsplit, rfl, hlen, hspec⟩
        have hperm := hspec.perm.length_eq
        cases rest with
        | nil =>
            have h₁ := congrArg List.length hsplit
            simp at h₁ hS
            omega
        | cons x rest =>
            obtain ⟨out', hins, hstep⟩ := insertAt_one key X out (rest ++ Y) x
            refine ⟨X ++ out' ++ (rest ++ Y), ?_, done ++ [x], rest, out', by simp [hsplit], rfl,
              ?_, hspec.insert hins⟩
            · rw [← hX, ← hlen, ← hstep]
              simp
            · have := hins.perm.length_eq
              simp at this
              omega
      obtain ⟨array, hrun, done, rest, out, hsplit, rfl, hlen, hspec⟩ :=
        foldlM_range'_ok hinit hstep
      have hrest : rest = [] := by
        have h₁ := congrArg List.length hsplit
        have h₂ := hspec.perm.length_eq
        simp at h₁ hS
        exact List.length_eq_zero_iff.mp (by omega)
      subst hrest
      rw [List.append_nil] at hsplit
      exact ⟨out, by simpa [insertPass] using hrun, hsplit ▸ hspec⟩

end

/-! ## insert_sort -/

theorem pairwise_true {S : List Int} : S.Pairwise fun _ _ => True :=
  List.pairwise_of_forall (by simp)

theorem ascending_of_lex {R : Int → Int → Prop} {S : List Int} (h : S.Pairwise (KeyLex id R)) :
    Ascending S :=
  h.imp fun hab => by
    unfold KeyLex at hab
    simp only [id] at hab
    omega

/-- `insert_sort` keeps the contract on every slice. -/
theorem insertSort_sorts {X S Y : List Int} (hX : X.length = hindex)
    (hS : hindex + S.length = eindex + 1) :
    ∃ S', insertSort (X ++ S ++ Y) hindex eindex n = .ok (X ++ S' ++ Y) ∧ S'.Perm S ∧
      Ascending S' := by
  obtain ⟨S', hrun, hspec⟩ := insertPass_spec id X S Y hX hS
  exact ⟨S', hrun, hspec.perm, ascending_of_lex (hspec.lex _ pairwise_true)⟩

/-! ## radix_sort -/

/-- What `radix_sort` sees of a number: its last three digits, with its sign. -/
def lastDigits (nb : Int) : Int := nb.tmod 1000

theorem getPosNb_neg (nb : Int) (d : Nat) (ary : Int) :
    getPosNb (-nb) d ary = -getPosNb nb d ary := by
  have hiter : Nat.iterate (fun nb => nb.tdiv ary) d (-nb) =
      -Nat.iterate (fun nb => nb.tdiv ary) d nb := by
    induction d generalizing nb with
    | zero => rfl
    | succ d ih =>
        change Nat.iterate _ d ((-nb).tdiv ary) = -Nat.iterate _ d (nb.tdiv ary)
        rw [Int.neg_tdiv, ih]
  rw [getPosNb, hiter, Int.neg_tmod, getPosNb]

theorem lastDigits_neg (nb : Int) : lastDigits (-nb) = -lastDigits nb := Int.neg_tmod nb 1000

theorem digits_of_nonneg {nb : Int} (h : 0 ≤ nb) :
    lastDigits nb = 100 * getPosNb nb 2 10 + 10 * getPosNb nb 1 10 + getPosNb nb 0 10 ∧
      (0 ≤ getPosNb nb 0 10 ∧ getPosNb nb 0 10 < 10) ∧
      (0 ≤ getPosNb nb 1 10 ∧ getPosNb nb 1 10 < 10) ∧ 0 ≤ getPosNb nb 2 10 := by
  have h₁ : 0 ≤ nb / 10 := by omega
  have h₂ : 0 ≤ nb / 10 / 10 := by omega
  have e : lastDigits nb = nb % 1000 := Int.tmod_eq_emod_of_nonneg h
  have e₀ : getPosNb nb 0 10 = nb % 10 := Int.tmod_eq_emod_of_nonneg h
  have e₁ : getPosNb nb 1 10 = nb / 10 % 10 := by
    change (nb.tdiv 10).tmod 10 = _
    rw [Int.tdiv_eq_ediv_of_nonneg h, Int.tmod_eq_emod_of_nonneg h₁]
  have e₂ : getPosNb nb 2 10 = nb / 10 / 10 % 10 := by
    change ((nb.tdiv 10).tdiv 10).tmod 10 = _
    rw [Int.tdiv_eq_ediv_of_nonneg h, Int.tdiv_eq_ediv_of_nonneg h₁,
      Int.tmod_eq_emod_of_nonneg h₂]
  rw [e, e₀, e₁, e₂]
  clear e e₀ e₁ e₂
  omega

/-- The digits at the three positions make up the last three digits, and have one sign. -/
theorem lastDigits_eq (nb : Int) :
    lastDigits nb = 100 * getPosNb nb 2 10 + 10 * getPosNb nb 1 10 + getPosNb nb 0 10 ∧
      ((0 ≤ getPosNb nb 0 10 ∧ getPosNb nb 0 10 < 10) ∧
          (0 ≤ getPosNb nb 1 10 ∧ getPosNb nb 1 10 < 10) ∧ 0 ≤ getPosNb nb 2 10 ∨
        (-10 < getPosNb nb 0 10 ∧ getPosNb nb 0 10 ≤ 0) ∧
          (-10 < getPosNb nb 1 10 ∧ getPosNb nb 1 10 ≤ 0) ∧ getPosNb nb 2 10 ≤ 0) := by
  rcases le_total 0 nb with h | h
  · obtain ⟨hsum, hdigits⟩ := digits_of_nonneg h
    exact ⟨hsum, .inl hdigits⟩
  · have := digits_of_nonneg (show 0 ≤ -nb by omega)
    simp only [lastDigits_neg, getPosNb_neg] at this
    omega

/-- Comparing the digits from the highest on is comparing the last three digits. -/
theorem lex_lastDigits {R : Int → Int → Prop}
    (h : KeyLex (getPosNb · 2 10) (KeyLex (getPosNb · 1 10) (KeyLex (getPosNb · 0 10) R)) a b) :
    KeyLex lastDigits R a b := by
  have ha := lastDigits_eq a
  have hb := lastDigits_eq b
  simp only [KeyLex] at h ⊢
  rcases h with h | ⟨h₂, h | ⟨h₁, h | ⟨h₀, hR⟩⟩⟩
  · exact .inl (by omega)
  · exact .inl (by omega)
  · exact .inl (by omega)
  · exact .inr ⟨by omega, hR⟩

/-- Numbers with the same last three digits have the same digit at each position. -/
theorem getPosNb_congr (h : lastDigits a = lastDigits b) (hd : d < depth) :
    getPosNb a d 10 = getPosNb b d 10 := by
  have ha := lastDigits_eq a
  have hb := lastDigits_eq b
  obtain rfl | rfl | rfl : d = 0 ∨ d = 1 ∨ d = 2 := by
    unfold depth at hd
    omega
  all_goals omega

/-- The three passes together are one stable pass by the last three digits. -/
theorem radixSort_spec {X S Y : List Int} (hX : X.length = hindex)
    (hS : hindex + S.length = eindex + 1) :
    ∃ S', radixSort (X ++ S ++ Y) hindex eindex n = .ok (X ++ S' ++ Y) ∧
      PassSpec lastDigits S S' := by
  obtain ⟨S₀, hrun₀, h₀⟩ := insertPass_spec (getPosNb · 0 10) X S Y hX hS
  obtain ⟨S₁, hrun₁, h₁⟩ := insertPass_spec (getPosNb · 1 10) X S₀ Y hX (h₀.perm.length_eq ▸ hS)
  have h₁₀ := h₁.perm.trans h₀.perm
  obtain ⟨S₂, hrun₂, h₂⟩ := insertPass_spec (getPosNb · 2 10) X S₁ Y hX (h₁₀.length_eq ▸ hS)
  refine ⟨S₂, ?_, h₂.perm.trans h₁₀, ?_, ?_⟩
  · have hrange : List.range depth = [0, 1, 2] := rfl
    simp [radixSort, hrange, hrun₀, hrun₁, hrun₂, -List.append_assoc]
  · intro R hR
    exact (h₂.lex _ (h₁.lex _ (h₀.lex R hR))).imp lex_lastDigits
  · intro p hp
    rw [h₂.stable p fun a b ha hb => getPosNb_congr (hp a b ha hb) (by decide),
      h₁.stable p fun a b ha hb => getPosNb_congr (hp a b ha hb) (by decide),
      h₀.stable p fun a b ha hb => getPosNb_congr (hp a b ha hb) (by decide)]

/-- `a` and `b` come in the same order by their last three digits as by their values,
`a` being the one that stands first. -/
def DigitsAgree (a b : Int) : Prop :=
  (a < b → lastDigits a ≤ lastDigits b) ∧ (b < a → lastDigits b < lastDigits a)

instance : DecidableRel DigitsAgree := fun _ _ => inferInstanceAs (Decidable (_ ∧ _))

/-- Numbers of up to three digits are their own last three digits. -/
theorem lastDigits_of_lt {a : Int} (h : -1000 < a ∧ a < 1000) : lastDigits a = a := by
  rcases le_total 0 a with ha | ha
  · exact Int.tmod_eq_of_lt ha h.2
  · have : lastDigits (-a) = -a := Int.tmod_eq_of_lt (by omega) (by omega)
    rw [lastDigits_neg] at this
    omega

section

variable {S S' : List Int} (h : PassSpec lastDigits S S')

include h

/-- Where digits and values agree, the pass has sorted by value. -/
theorem PassSpec.ascending (hagree : S.Pairwise DigitsAgree) : Ascending S' := by
  refine (h.lex _ hagree).imp_of_mem fun {a b} ha hb hab => ?_
  by_contra hlt
  -- in whichever order the two stood before, the larger value has the larger digits
  have hle : lastDigits b ≤ lastDigits a := by
    rcases pairwise_or hagree (h.perm.mem_iff.mp ha) (h.perm.mem_iff.mp hb) (by omega) with hR | hR
    · have := hR.2 (by omega)
      omega
    · exact hR.1 (by omega)
  rcases hab with hab | ⟨hab, hR⟩
  · omega
  · have := hR.2 (by omega)
    omega

/-- When the pass has sorted by value, digits and values agreed. -/
theorem PassSpec.digitsAgree (hasc : Ascending S') : S.Pairwise DigitsAgree := by
  have hkey : S'.Pairwise fun a b => a ≤ b ∧ lastDigits a ≤ lastDigits b :=
    hasc.imp₂ (fun _ _ hle hlex => ⟨hle, by unfold KeyLex at hlex; omega⟩) (h.lex _ pairwise_true)
  have hle : ∀ a ∈ S, ∀ b ∈ S, a < b → lastDigits a ≤ lastDigits b := by
    intro a ha b hb hlt
    have := pairwise_or hkey (h.perm.mem_iff.mpr ha) (h.perm.mem_iff.mpr hb) (by omega)
    omega
  refine List.pairwise_iff_forall_sublist.mpr fun {a b} hsub => ?_
  have ha : a ∈ S := hsub.subset (by simp)
  have hb : b ∈ S := hsub.subset (by simp)
  refine ⟨hle a ha b hb, fun hlt => ?_⟩
  by_contra hge
  have heq : lastDigits b = lastDigits a := by
    have := hle b hb a ha hlt
    omega
  -- the two kept their order, so the larger one still stands first
  have hfilter : [a, b].Sublist (S'.filter (lastDigits · == lastDigits a)) := by
    rw [h.stable _ (by simp +contextual)]
    simpa [heq] using hsub.filter (lastDigits · == lastDigits a)
  have := hasc.forall_sublist (hfilter.trans List.filter_sublist)
  omega

end

/-! ## shell_sort -/

/-- Moving an element one gap up and the free cell one gap down permutes the array that
has `tmp` in the free cell. -/
theorem perm_set_move {array : List Int} (tmp : Int) (hgap : 0 < gap) (hle : gap ≤ cell)
    (hcell : cell < array.length) :
    ((array.set cell (array.getD (cell - gap) 0)).set (cell - gap) tmp).Perm
      (array.set cell tmp) := by
  have hj : cell - gap < array.length := by omega
  have := List.set_set_perm (show cell < (array.set cell tmp).length by simpa using hcell)
    (show cell - gap < (array.set cell tmp).length by simpa using hj)
  rw [List.getElem_set_ne (by omega), List.getElem_set_self, List.set_set] at this
  rwa [List.getD_eq_getElem _ _ hj]

/-- The inner loop with any gap: it ends, inside the array, and putting `tmp` in the free
cell gives a permutation. -/
theorem shiftUp_perm (key : Int → Int) (tmp : Int) {array : List Int} (hgap : 0 < gap)
    (hcell : cell < array.length) (hfuel : cell < fuel) :
    ∃ array' cell', shiftUp key gap 0 tmp fuel array cell = .ok (array', cell') ∧
      cell' < array'.length ∧ (array'.set cell' tmp).Perm (array.set cell tmp) := by
  induction fuel generalizing array cell with
  | zero => omega
  | succ fuel ih =>
      rw [shiftUp]
      by_cases hj : 0 + gap ≤ cell
      · rw [if_pos hj, getCell_ok (show cell - gap < array.length by omega) 0, ok_bind]
        by_cases hlt : key tmp < key (array.getD (cell - gap) 0)
        · rw [if_pos hlt, setCell_ok hcell, ok_bind]
          have hcell₁ : cell - gap < (array.set cell (array.getD (cell - gap) 0)).length := by
            simp
            omega
          obtain ⟨array', cell', hrun, hcell', hperm⟩ := ih hcell₁ (by omega)
          exact ⟨array', cell', hrun, hcell',
            hperm.trans (perm_set_move tmp hgap (by omega) hcell)⟩
        · rw [if_neg hlt]
          exact ⟨array, cell, rfl, hcell, .refl _⟩
      · rw [if_neg hj]
        exact ⟨array, cell, rfl, hcell, .refl _⟩

theorem insertAt_perm (key : Int → Int) {array : List Int} (hgap : 0 < gap)
    (hi : i < array.length) :
    ∃ array', insertAt key gap 0 array i = .ok array' ∧ array'.Perm array := by
  obtain ⟨array₁, cell, hrun, hcell, hperm⟩ :=
    shiftUp_perm key (array.getD i 0) hgap hi (Nat.lt_succ_self i)
  refine ⟨array₁.set cell (array.getD i 0), ?_, ?_⟩
  · rw [insertAt, getCell_ok hi 0, ok_bind, hrun, ok_bind]
    exact setCell_ok hcell _
  · have hself : array.set i (array.getD i 0) = array := by
      rw [List.getD_eq_getElem _ _ hi, List.set_getElem_self]
    rwa [hself] at hperm

/-- A gapped pass permutes the array. -/
theorem gapPass_perm (array : List Int) (hgap : 0 < gap) :
    ∃ array', gapPass array gap array.length = .ok array' ∧ array'.Perm array := by
  have hstep : ∀ i array', gap ≤ i → i < gap + (array.length - gap) → array'.Perm array →
      ∃ array'', insertAt id gap 0 array' i = .ok array'' ∧ array''.Perm array := by
    intro i array' hi hin hperm
    obtain ⟨array'', hrun, hperm'⟩ := insertAt_perm id hgap (show i < array'.length by
      rw [hperm.length_eq]
      omega)
    exact ⟨array'', hrun, hperm'.trans hperm⟩
  exact foldlM_range'_ok (I := fun _ (array' : List Int) => array'.Perm array) (.refl _) hstep

/-- The pass with gap one is `insert_sort` of the whole array. -/
theorem gapPass_one {array : List Int} (hne : array ≠ []) :
    ∃ array', gapPass array 1 array.length = .ok array' ∧ array'.Perm array ∧
      Ascending array' := by
  have hpos := List.length_pos_iff.mpr hne
  obtain ⟨S', hrun, hperm, hasc⟩ := insertSort_sorts (X := []) (S := array) (Y := [])
    (n := array.length) rfl (show 0 + array.length = array.length - 1 + 1 by omega)
  refine ⟨S', ?_, hperm, hasc⟩
  simpa [insertSort, insertPass, gapPass] using hrun

/-- Whatever the earlier gaps leave, the last one sorts. -/
theorem shellLoop_sorts {array : List Int} (hlen : array.length = n) (hgap : 0 < gap)
    (hn : gap < n) (hfuel : gap < fuel) :
    ∃ array', shellLoop n fuel array gap = .ok array' ∧ array'.Perm array ∧ Ascending array' := by
  induction fuel generalizing array gap with
  | zero => omega
  | succ fuel ih =>
      rw [shellLoop, if_pos hgap]
      by_cases hone : gap = 1
      · subst hone
        obtain ⟨array', hrun, hperm, hasc⟩ :=
          gapPass_one (List.length_pos_iff.mp (show 0 < array.length by omega))
        rw [hlen] at hrun
        obtain ⟨fuel, rfl⟩ : ∃ m, fuel = m + 1 := ⟨fuel - 1, by omega⟩
        exact ⟨array', by simp [hrun, shellLoop], hperm, hasc⟩
      · obtain ⟨array₁, hrun, hperm⟩ := gapPass_perm array hgap
        rw [hlen] at hrun
        obtain ⟨array', hrun', hperm', hasc⟩ := ih (hperm.length_eq.trans hlen)
          (show 0 < gap / 2 by omega) (by omega) (by omega)
        exact ⟨array', by simp [hrun, hrun'], hperm'.trans hperm, hasc⟩

/-- `shell_sort` sorts the whole array, whatever slice it is given. -/
theorem shellSort_sorts (array : List Int) (hindex eindex : Nat) :
    ∃ array', shellSort array hindex eindex array.length = .ok array' ∧ array'.Perm array ∧
      Ascending array' := by
  by_cases hlen : array.length < 2
  · have hgap : array.length / 2 = 0 := by omega
    exact ⟨array, by simp [shellSort, shellLoop, hgap], .refl _, ascending_of_length_lt hlen⟩
  · exact shellLoop_sorts rfl (by omega) (by omega) (by omega)

end MySrc.SortAlgorithms
