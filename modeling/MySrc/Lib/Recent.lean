import Mathlib.Data.List.DropRight

/-!
# MySrc.Lib.Recent

What is kept of a sequence: its last elements, by a list that drops its first when it is
full (`foldl_pushBounded`), and the first element with each key, by a list that takes no
element whose key it has (`firstByKey_foldl_addNew`).
-/

namespace Lib

/-! ## the last elements -/

/-- Add an element, and drop the first when there are more than `bound`. -/
def pushBounded (bound : Nat) (l : List α) (a : α) : List α :=
  (if bound < l.length then l.tail else l) ++ [a]

theorem rtake_of_length_le {l : List α} {n : Nat} (h : l.length ≤ n) : l.rtake n = l := by
  rw [List.rtake, Nat.sub_eq_zero_of_le h, List.drop_zero]

theorem length_rtake (l : List α) (n : Nat) : (l.rtake n).length = min n l.length := by
  rw [List.rtake, List.length_drop]
  omega

theorem tail_rtake {l : List α} {n : Nat} (h : n < l.length) :
    (l.rtake (n + 1)).tail = l.rtake n := by
  rw [List.rtake, List.rtake, List.tail_drop]
  congr 1
  omega

/-- **The last elements** are kept of what is added, one more than the bound. -/
theorem foldl_pushBounded (bound : Nat) (l : List α) :
    l.foldl (pushBounded bound) [] = l.rtake (bound + 1) := by
  induction l using List.reverseRecOn with
  | nil => rw [List.foldl_nil, List.rtake_nil]
  | append_singleton l a ih =>
      rw [List.foldl_concat, ih, List.rtake_concat_succ, pushBounded, length_rtake]
      congr 1
      by_cases h : bound < l.length
      · rw [if_pos (by omega), tail_rtake h]
      · rw [if_neg (by omega), rtake_of_length_le (by omega), rtake_of_length_le (by omega)]

/-! ## the first of each key -/

section

variable [DecidableEq κ] (key : α → κ)

/-- Add an element whose key is new. -/
def addNew (l : List α) (a : α) : List α :=
  if l.any fun b => key b = key a then l else l ++ [a]

/-- The elements are, for each key in the list, the first that has it, in the order of the
list. -/
structure FirstByKey (l firsts : List α) : Prop where
  mem_iff : ∀ b, b ∈ firsts ↔ l.find? (fun c => key c = key b) = some b
  ordered : firsts.Pairwise fun a b =>
    l.findIdx (fun c => key c = key a) < l.findIdx (fun c => key c = key b)

variable {key} {l firsts : List α}

theorem FirstByKey.findIdx_lt (h : FirstByKey key l firsts) {b : α} (hb : b ∈ firsts) :
    l.findIdx (fun c => key c = key b) < l.length :=
  List.findIdx_lt_length_of_exists
    ⟨b, List.mem_of_find?_eq_some ((h.mem_iff b).mp hb), decide_eq_true rfl⟩

/-- The key of an element is missing exactly when the list has none of that key. -/
theorem FirstByKey.any_iff (h : FirstByKey key l firsts) (k : κ) :
    (firsts.any fun b => key b = k) = true ↔ ∃ b, l.find? (fun c => key c = k) = some b := by
  simp only [List.any_eq_true, decide_eq_true_eq]
  constructor
  · rintro ⟨b, hb, rfl⟩
    exact ⟨b, (h.mem_iff b).mp hb⟩
  · rintro ⟨b, hb⟩
    obtain rfl : key b = k := of_decide_eq_true (List.find?_some hb :)
    exact ⟨b, (h.mem_iff b).mpr hb, rfl⟩

theorem find?_concat_key (l : List α) (a : α) (k : κ) :
    (l ++ [a]).find? (fun c => key c = k) =
      (l.find? fun c => key c = k).or (if key a = k then some a else none) := by
  rw [List.find?_append]
  by_cases hk : key a = k
  · simp [hk]
  · simp [hk]

/-- The elements that are there already keep their places. -/
theorem FirstByKey.findIdx_concat (h : FirstByKey key l firsts) (a : α) {b : α}
    (hb : b ∈ firsts) :
    (l ++ [a]).findIdx (fun c => key c = key b) = l.findIdx (fun c => key c = key b) := by
  rw [List.findIdx_append, if_pos (h.findIdx_lt hb)]

theorem FirstByKey.ordered_concat (h : FirstByKey key l firsts) (a : α) :
    firsts.Pairwise fun b c =>
      (l ++ [a]).findIdx (fun d => key d = key b) < (l ++ [a]).findIdx (fun d => key d = key c) :=
  h.ordered.imp_of_mem fun hb hc hlt => by rwa [h.findIdx_concat a hb, h.findIdx_concat a hc]

/-- One more element keeps it so. -/
theorem FirstByKey.addNew (h : FirstByKey key l firsts) (a : α) :
    FirstByKey key (l ++ [a]) (addNew key firsts a) := by
  rw [Lib.addNew]
  by_cases hany : (firsts.any fun b => key b = key a) = true
  · rw [if_pos hany]
    obtain ⟨first, hfirst⟩ := (h.any_iff (key a)).mp hany
    refine ⟨fun b => ?_, h.ordered_concat a⟩
    rw [h.mem_iff, find?_concat_key]
    by_cases hkey : key a = key b
    · rw [← hkey, hfirst, Option.some_or]
    · rw [if_neg hkey, Option.or_none]
  · rw [if_neg hany]
    have hnone : l.find? (fun c => key c = key a) = none :=
      Option.eq_none_iff_forall_ne_some.mpr fun b hb => hany ((h.any_iff (key a)).mpr ⟨b, hb⟩)
    refine ⟨fun b => ?_, List.pairwise_append.mpr ⟨h.ordered_concat a, List.pairwise_singleton _ _,
      fun b hb c hc => ?_⟩⟩
    · rw [List.mem_append, List.mem_singleton, h.mem_iff, find?_concat_key]
      by_cases hkey : key a = key b
      · rw [← hkey, hnone, Option.none_or, if_pos rfl, Option.some.injEq, eq_comm (a := b)]
        simp
      · have hne : b ≠ a := fun heq => hkey (by rw [heq])
        rw [if_neg hkey, Option.or_none, or_iff_left hne]
    · obtain rfl := List.mem_singleton.mp hc
      have hlength : l.findIdx (fun d => key d = key c) = l.length :=
        List.findIdx_eq_length_of_false fun d hd =>
          Bool.eq_false_iff.mpr (List.find?_eq_none.mp hnone d hd)
      rw [h.findIdx_concat c hb, List.findIdx_append, hlength, if_neg (Nat.lt_irrefl _)]
      exact Nat.lt_add_left _ (h.findIdx_lt hb)

/-- **The first of each key** are kept of what is added. -/
theorem firstByKey_foldl_addNew (l : List α) : FirstByKey key l (l.foldl (Lib.addNew key) []) := by
  induction l using List.reverseRecOn with
  | nil => exact ⟨fun b => by simp, .nil⟩
  | append_singleton l a ih =>
      rw [List.foldl_concat]
      exact ih.addNew a

end

end Lib
