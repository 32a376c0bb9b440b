import Mathlib.Data.List.Pairwise
import Mathlib.Data.List.Sort

/-!
# MySrc.Lib.Sorting

What sorting algorithms rest on: sorted parts put together, stable insertion
under a key, and merging.
-/

namespace Lib

/-! ## sorted parts -/

section Parts

variable {α : Type} [LinearOrder α]

/-- `xs` is in ascending order. -/
def Ascending (xs : List α) : Prop := xs.Pairwise (· ≤ ·)

/-- Every element of `xs` is at most every element of `ys`. -/
def Below (xs ys : List α) : Prop := ∀ x ∈ xs, ∀ y ∈ ys, x ≤ y

theorem ascending_of_length_lt {xs : List α} (h : xs.length < 2) : Ascending xs := by
  match xs, h with
  | [], _ => exact List.Pairwise.nil
  | [x], _ => exact List.pairwise_singleton _ x

@[simp] theorem below_nil_left (ys : List α) : Below [] ys := by simp [Below]

@[simp] theorem below_nil_right (xs : List α) : Below xs [] := by simp [Below]

theorem below_singleton {xs : List α} {y : α} : Below xs [y] ↔ ∀ x ∈ xs, x ≤ y := by simp [Below]

theorem below_append {xs ys zs : List α} : Below (xs ++ ys) zs ↔ Below xs zs ∧ Below ys zs := by
  simp [Below, or_imp, forall_and]

theorem below_cons_right {xs ys : List α} {y : α} :
    Below xs (y :: ys) ↔ Below xs [y] ∧ Below xs ys := by
  simp [Below, forall_and]

theorem below_append_right {xs ys zs : List α} :
    Below xs (ys ++ zs) ↔ Below xs ys ∧ Below xs zs := by
  simp [Below, or_imp, forall_and]

/-- Below the first element is below all of an ascending list. -/
theorem Below.of_le {x y : α} {ys : List α} (h : x ≤ y) (hy : Below [y] ys) :
    Below [x] (y :: ys) := by
  simp only [Below, List.mem_singleton, forall_eq] at hy ⊢
  grind

/-- Ascending lists, one below the other, are ascending together. -/
theorem Ascending.append {xs ys : List α} (hx : Ascending xs) (hy : Ascending ys)
    (hxy : Below xs ys) : Ascending (xs ++ ys) :=
  List.pairwise_append.mpr ⟨hx, hy, hxy⟩

theorem Below.perm {xs xs' ys : List α} (h : Below xs ys) (hx : xs'.Perm xs) : Below xs' ys :=
  fun x hmem => h x (hx.mem_iff.mp hmem)

theorem Below.perm_right {xs ys ys' : List α} (h : Below xs ys) (hy : ys'.Perm ys) :
    Below xs ys' :=
  fun x hx y hmem => h x hx y (hy.mem_iff.mp hmem)

theorem Ascending.drop {l : List α} (h : Ascending l) (i : Nat) : Ascending (l.drop i) :=
  h.sublist (List.drop_sublist i l)

/-- An element of an ascending list is below those behind it. -/
theorem Ascending.below_drop {l : List α} (h : Ascending l) (hi : i < l.length) :
    Below [l[i]] (l.drop (i + 1)) := by
  have := h.drop i
  rw [List.drop_eq_getElem_cons hi] at this
  simpa [Below] using (List.pairwise_cons.mp this).1

/-- A list has one ascending permutation. -/
theorem Ascending.unique {xs ys : List α} (hx : Ascending xs) (hy : Ascending ys)
    (h : xs.Perm ys) : xs = ys := h.eq_of_pairwise' hx hy

end Parts

/-- Two different elements of a list stand in one of the two orders. -/
theorem pairwise_or {α : Type} {R : α → α → Prop} {l : List α} {a b : α} (h : l.Pairwise R)
    (ha : a ∈ l) (hb : b ∈ l) (hne : a ≠ b) : R a b ∨ R b a := by
  have : Std.Symm fun a b => R a b ∨ R b a := ⟨fun _ _ => Or.symm⟩
  have hor : l.Pairwise fun a b => R a b ∨ R b a := h.imp Or.inl
  exact hor.forall ha hb hne

/-! ## stable insertion -/

section Insertion

variable {α κ : Type} [LinearOrder κ] (k : α → κ)

/-- Ordered by the key `k`, and by `R` where the keys are equal. -/
def KeyLex (R : α → α → Prop) (a b : α) : Prop := k a < k b ∨ k a = k b ∧ R a b

/-- `out` is `done` with `x` put behind the last element whose key is not above `x`'s. -/
def Inserted (x : α) (done out : List α) : Prop :=
  ∃ front back, done = front ++ back ∧ out = front ++ x :: back ∧ (∀ y ∈ back, k x < k y) ∧
    ∀ y ∈ front.getLast?, k y ≤ k x

variable {k}

/-- Inserting keeps the elements. -/
theorem Inserted.perm {done out : List α} (h : Inserted k x done out) : out.Perm (x :: done) := by
  obtain ⟨front, back, rfl, rfl, -, -⟩ := h
  exact List.perm_middle

/-- Elements of one key keep their order, with `x` behind the others. -/
theorem Inserted.filter {done out : List α} (h : Inserted k x done out) {p : α → Bool}
    (hp : ∀ a b, p a → p b → k a = k b) : out.filter p = (done ++ [x]).filter p := by
  obtain ⟨front, back, rfl, rfl, hback, -⟩ := h
  by_cases hx : p x
  · have hnone : back.filter p = [] := by
      simp only [List.filter_eq_nil_iff]
      intro y hy hpy
      exact (hback y hy).ne (hp x y hx hpy)
    simp [hx, hnone]
  · simp [hx]

/-- Insertion keeps a list ordered by the key and then by `R`, when `R` holds
from the elements already there to the new one. -/
theorem Inserted.lex {R : α → α → Prop} {done out : List α} (h : Inserted k x done out)
    (hdone : done.Pairwise (KeyLex k R)) (hR : ∀ y ∈ done, R y x) : out.Pairwise (KeyLex k R) := by
  obtain ⟨front, back, rfl, rfl, hback, hlast⟩ := h
  obtain ⟨hf, hb, hfb⟩ := List.pairwise_append.mp hdone
  have hfx : ∀ y ∈ front, KeyLex k R y x := by
    intro y hy
    -- the last element of `front` bounds the keys before it
    have hle : k y ≤ k x := by
      obtain ⟨init, last, rfl⟩ :=
        List.eq_nil_or_concat front |>.resolve_left (List.ne_nil_of_mem hy)
      simp only [List.concat_eq_append] at *
      have hl : k last ≤ k x := hlast last (by simp)
      rcases List.mem_append.mp hy with hy | hy
      · have := (List.pairwise_append.mp hf).2.2 y hy last (by simp)
        unfold KeyLex at this
        grind
      · simp_all
    rcases hle.lt_or_eq with hlt | heq
    · exact .inl hlt
    · exact .inr ⟨heq, hR y (by simp [hy])⟩
  refine List.pairwise_append.mpr ⟨hf, List.pairwise_cons.mpr ⟨?_, hb⟩, ?_⟩
  · intro y hy
    exact .inl (hback y hy)
  · intro y hy z hz
    rcases List.mem_cons.mp hz with rfl | hz
    · exact hfx y hy
    · exact hfb y hy z hz

end Insertion

end Lib
