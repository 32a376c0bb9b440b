import MySrc.Lib.Run

/-!
# MySrc.Lib.Text

Cutting text at separators, the way scanners with `find` and `substr` do: a
text is broken at the first occurrence of a separator (`breakOn`), and again
behind it until no separator is left (`pieces`).

The cursor of such a scanner is not an index here but the rest of the text
from it; `findFrom` is for scanners that keep the index, and says what rest it
stands for.
-/

namespace Lib

variable {α : Type} [DecidableEq α]

/-- The text before and behind the first occurrence of `sep`. -/
def breakOn (sep : List α) : List α → Option (List α × List α)
  | [] => if sep = [] then some ([], []) else none
  | c :: s =>
      if sep <+: c :: s then some ([], (c :: s).drop sep.length)
      else (breakOn sep s).map fun p => (c :: p.1, p.2)

/-- Break the text up to `fuel` times: the pieces in front of a separator, and
the rest. -/
def splitAll (sep : List α) : Nat → List α → List (List α) × List α
  | 0, s => ([], s)
  | fuel + 1, s =>
      match breakOn sep s with
      | none => ([], s)
      | some (piece, rest) => (piece :: (splitAll sep fuel rest).1, (splitAll sep fuel rest).2)

/-- The pieces of a text that a separator ends, and the rest behind the last
separator. -/
def pieces (sep s : List α) : List (List α) × List α := splitAll sep s.length s

variable {sep s a b t : List α} {c : α}

/-! ## up to a character -/

omit [DecidableEq α] in
/-- What stands at a cursor, given the rest of the text from it. -/
theorem getElem?_of_drop {p : Nat} (h : s.drop p = t) (i : Nat) : s[p + i]? = t[i]? := by
  rw [← h, List.getElem?_drop]

theorem takeWhile_ne_append (ha : c ∉ a) (b : List α) :
    (a ++ b).takeWhile (· ≠ c) = a ++ b.takeWhile (· ≠ c) := by
  refine List.takeWhile_append_of_pos ?_
  intro x hx
  exact decide_eq_true fun (h : x = c) => ha (h ▸ hx)

theorem takeWhile_ne_cons (ha : c ∉ a) (b : List α) : (a ++ c :: b).takeWhile (· ≠ c) = a := by
  rw [takeWhile_ne_append ha]
  simp

theorem takeWhile_ne_self (ha : c ∉ a) : a.takeWhile (· ≠ c) = a := by
  have htake := takeWhile_ne_append ha []
  rwa [List.append_nil, List.takeWhile_nil, List.append_nil] at htake

/-- What stands behind the first `c` does not matter. -/
theorem takeWhile_ne_append_of_mem (ha : c ∈ a) (b : List α) :
    (a ++ b).takeWhile (· ≠ c) = a.takeWhile (· ≠ c) := by
  obtain ⟨a₁, a₂, rfl, hc⟩ := List.eq_append_cons_of_mem ha
  rw [List.append_assoc, List.cons_append, takeWhile_ne_cons hc, takeWhile_ne_cons hc]

/-! ## breaking once -/

/-- A text is put together from its parts and the separator. -/
theorem breakOn_eq (h : breakOn sep s = some (a, b)) : s = a ++ sep ++ b := by
  induction s generalizing a with
  | nil =>
      rw [breakOn] at h
      split at h
      · next hsep => simp_all
      · cases h
  | cons c s ih =>
      rw [breakOn] at h
      split at h
      · next hsep =>
          obtain ⟨t, ht⟩ := hsep
          rw [← ht, List.drop_left] at h
          simp_all
      · obtain ⟨⟨a', b'⟩, hp, heq⟩ := Option.map_eq_some_iff.mp h
        simp only [Prod.mk.injEq] at heq
        obtain ⟨rfl, rfl⟩ := heq
        simp [ih hp]

/-- What is behind a separator is shorter. -/
theorem length_lt_of_breakOn (hsep : sep ≠ []) (h : breakOn sep s = some (a, b)) :
    b.length < s.length := by
  have := List.length_pos_iff.mpr hsep
  simp [breakOn_eq h]
  omega

/-- Text behind does not change where a text breaks. -/
theorem breakOn_append (h : breakOn sep s = some (a, b)) (t : List α) :
    breakOn sep (s ++ t) = some (a, b ++ t) := by
  induction s generalizing a with
  | nil =>
      rw [breakOn] at h
      split at h
      · next hsep =>
          obtain ⟨rfl, rfl⟩ := Prod.mk.inj (Option.some.inj h)
          cases t <;> simp [breakOn, hsep]
      · cases h
  | cons c s ih =>
      rw [breakOn] at h
      split at h
      · next hsep =>
          obtain ⟨rfl, rfl⟩ := Prod.mk.inj (Option.some.inj h)
          have hsep' : sep <+: c :: (s ++ t) := hsep.trans (List.prefix_append (c :: s) t)
          have hdrop : (c :: (s ++ t)).drop sep.length = (c :: s).drop sep.length ++ t :=
            List.drop_append_of_le_length hsep.length_le
          rw [List.cons_append, breakOn, if_pos hsep', hdrop]
      · next hsep =>
          obtain ⟨⟨a', b'⟩, hp, heq⟩ := Option.map_eq_some_iff.mp h
          obtain ⟨rfl, rfl⟩ := Prod.mk.inj heq
          have hsep' : ¬ sep <+: c :: (s ++ t) := by
            intro hpre
            -- the occurrence found later lies inside the text, so this one would too
            have hlen : sep.length ≤ (c :: s).length := by
              simp [breakOn_eq hp]
              omega
            exact hsep (List.prefix_of_prefix_length_le hpre (List.prefix_append (c :: s) t) hlen)
          rw [List.cons_append, breakOn, if_neg hsep', ih hp]
          rfl

/-- A text without the first character of the separator does not break. -/
theorem breakOn_of_notMem (hc : c ∉ s) : breakOn (c :: sep) s = none := by
  induction s with
  | nil => simp [breakOn]
  | cons d s ih =>
      have hne : c ≠ d := by grind
      have hsep : ¬ c :: sep <+: d :: s := by simp [List.cons_prefix_cons, hne]
      rw [breakOn, if_neg hsep, ih (by grind)]
      rfl

/-- The first separator is the first place with its first character. -/
theorem breakOn_append_cons (hc : c ∉ a) (b : List α) :
    breakOn (c :: sep) (a ++ (c :: sep ++ b)) = some (a, b) := by
  induction a with
  | nil => simp [breakOn]
  | cons d a ih =>
      have hne : c ≠ d := by grind
      have hsep : ¬ c :: sep <+: d :: (a ++ (c :: sep ++ b)) := by
        simp [List.cons_prefix_cons, hne]
      rw [List.cons_append, breakOn, if_neg hsep, ih (by grind)]
      rfl

/-! ## breaking to the end -/

/-- The fuel does not matter when there is enough of it. -/
theorem splitAll_congr (hsep : sep ≠ []) {n m : Nat} (hn : s.length ≤ n) (hm : s.length ≤ m) :
    splitAll sep n s = splitAll sep m s := by
  induction n generalizing m s with
  | zero =>
      obtain rfl : s = [] := List.length_eq_zero_iff.mp (by omega)
      cases m <;> simp [splitAll, breakOn, hsep]
  | succ n ih =>
      cases m with
      | zero =>
          obtain rfl : s = [] := List.length_eq_zero_iff.mp (by omega)
          simp [splitAll, breakOn, hsep]
      | succ m =>
          rw [splitAll, splitAll]
          cases hb : breakOn sep s with
          | none => rfl
          | some p =>
              have hlt := length_lt_of_breakOn hsep hb
              simp only [ih (m := m) (s := p.2) (by omega) (by omega)]

theorem pieces_of_none (h : breakOn sep s = none) : pieces sep s = ([], s) := by
  rw [pieces]
  cases s with
  | nil => rfl
  | cons c s => simp [splitAll, h]

theorem pieces_of_some (hsep : sep ≠ []) (h : breakOn sep s = some (a, b)) :
    pieces sep s = (a :: (pieces sep b).1, (pieces sep b).2) := by
  have hlt := length_lt_of_breakOn hsep h
  obtain ⟨n, hn⟩ : ∃ n, s.length = n + 1 := Nat.exists_eq_succ_of_ne_zero (by omega)
  have heq : splitAll sep n b = pieces sep b := splitAll_congr hsep (by omega) (Nat.le_refl _)
  rw [pieces, hn, splitAll, h]
  simp only [heq]

/-- **Texts in a row**: behind a separator, the pieces start afresh. -/
theorem pieces_append (hsep : sep ≠ []) (hs : (pieces sep s).2 = []) (t : List α) :
    pieces sep (s ++ t) = ((pieces sep s).1 ++ (pieces sep t).1, (pieces sep t).2) := by
  induction hn : s.length using Nat.strongRecOn generalizing s with
  | ind n ih =>
      cases hb : breakOn sep s with
      | none =>
          rw [pieces_of_none hb] at hs ⊢
          obtain rfl : s = [] := hs
          rfl
      | some p =>
          obtain ⟨a, b⟩ := p
          have hlt := length_lt_of_breakOn hsep hb
          rw [pieces_of_some hsep hb] at hs
          rw [pieces_of_some hsep hb, pieces_of_some hsep (breakOn_append hb t),
            ih b.length (by omega) hs rfl, List.cons_append]

/-- What breaking passes on to both sides holds of every piece. -/
theorem forall_pieces (hsep : sep ≠ []) {P : List α → Prop}
    (hP : ∀ a b, P (a ++ sep ++ b) → P a ∧ P b) (hs : P s) :
    ∀ p ∈ (pieces sep s).1 ++ [(pieces sep s).2], P p := by
  induction hn : s.length using Nat.strongRecOn generalizing s with
  | ind n ih =>
      cases hb : breakOn sep s with
      | none => simpa [pieces_of_none hb] using hs
      | some p =>
          obtain ⟨a, b⟩ := p
          have hlt := length_lt_of_breakOn hsep hb
          rw [breakOn_eq hb] at hs
          obtain ⟨ha, hb'⟩ := hP a b hs
          have hrest := ih b.length (by omega) hb' rfl
          rw [pieces_of_some hsep hb]
          simpa [ha] using hrest

/-- A text with a separator in it breaks. -/
theorem breakOn_isSome (sep a b : List α) : (breakOn sep (a ++ sep ++ b)).isSome := by
  induction a with
  | nil =>
      rw [List.nil_append]
      cases hs : sep ++ b with
      | nil => simp_all [breakOn]
      | cons c t => simp [breakOn, ← hs]
  | cons c a ih =>
      rw [List.cons_append, List.cons_append, breakOn]
      split
      · rfl
      · rwa [Option.isSome_map]

/-- A separator of two different characters at the end of a text leaves
nothing behind it. -/
theorem pieces_append_sep {c d : α} (hcd : c ≠ d) (s : List α) :
    (pieces [c, d] (s ++ [c, d])).2 = [] := by
  induction hn : s.length using Nat.strongRecOn generalizing s with
  | ind n ih =>
      have hsome := breakOn_isSome [c, d] s []
      obtain ⟨⟨a, b⟩, hb⟩ := Option.isSome_iff_exists.mp hsome
      rw [List.append_nil] at hb
      have heq := congrArg List.reverse (breakOn_eq hb)
      simp only [List.reverse_append, List.reverse_cons, List.reverse_nil, List.nil_append,
        List.cons_append] at heq
      rw [pieces_of_some (by simp) hb]
      -- the text behind the first separator is empty, or ends in a separator again
      match hr : b.reverse with
      | [] => simp_all [pieces, splitAll]
      | [x] => simp_all
      | x :: y :: l =>
          rw [hr] at heq
          simp only [List.cons_append, List.cons.injEq] at heq
          obtain ⟨hx, hy, hs⟩ := heq
          obtain rfl : b = l.reverse ++ [c, d] := by
            simpa [hx, hy] using congrArg List.reverse hr
          have hlen := congrArg List.length hs
          simp at hlen
          exact ih l.reverse.length (by simp; omega) l.reverse rfl

/-- A text that does not break breaks at a separator of two different characters behind
it. -/
theorem breakOn_append_sep {c d : α} (hcd : c ≠ d) (h : breakOn [c, d] s = none) (t : List α) :
    breakOn [c, d] (s ++ [c, d] ++ t) = some (s, t) := by
  induction s with
  | nil => simp [breakOn]
  | cons x s ih =>
      rw [breakOn] at h
      split at h
      · cases h
      · next hsep =>
          rw [Option.map_eq_none_iff] at h
          have hsep' : ¬ [c, d] <+: x :: (s ++ [c, d] ++ t) := by
            rw [List.cons_prefix_cons] at hsep ⊢
            rintro ⟨rfl, hd⟩
            cases s with
            | nil =>
                obtain ⟨rfl, -⟩ := List.cons_prefix_cons.mp hd
                exact hcd rfl
            | cons y s =>
                obtain ⟨rfl, -⟩ := List.cons_prefix_cons.mp hd
                exact hsep ⟨rfl, by simp⟩
          rw [List.cons_append, List.cons_append, breakOn, if_neg hsep', ih h]
          rfl

/-! ## positions -/

/-- The position of the first occurrence of `sep` from `pos` on. -/
def findFrom (sep s : List α) (pos : Nat) : Option Nat :=
  (breakOn sep (s.drop pos)).map fun p => pos + p.1.length

theorem findFrom_of_none {pos : Nat} (h : breakOn sep (s.drop pos) = none) :
    findFrom sep s pos = none := by
  rw [findFrom, h]
  rfl

theorem findFrom_of_some {pos : Nat} (h : breakOn sep (s.drop pos) = some (a, b)) :
    findFrom sep s pos = some (pos + a.length) := by
  rw [findFrom, h]
  rfl

/-- What stands between a position and the occurrence that is found from it, and behind
that occurrence. -/
theorem cut_of_breakOn {pos : Nat} (h : breakOn sep (s.drop pos) = some (a, b)) :
    (s.drop pos).take a.length = a ∧ s.drop (pos + a.length + sep.length) = b := by
  have heq := breakOn_eq h
  refine ⟨?_, ?_⟩
  · rw [heq, List.append_assoc, List.take_left]
  · rw [Nat.add_assoc, ← List.drop_drop, heq, ← List.length_append, List.drop_left]

end Lib
