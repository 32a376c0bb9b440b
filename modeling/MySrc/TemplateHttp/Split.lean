import MySrc.TemplateHttp.HttpRequestPacket

/-!
# MySrc.TemplateHttp.Split

`boost::split` at one character: how it takes a text apart at the separators, how many
pieces there are, and what the first one is.
-/

namespace MySrc

open Lib

theorem split_of_none {c : UInt8} {s : Str} (h : breakOn [c] s = none) : split c s = [s] := by
  rw [split, pieces_of_none h, List.nil_append]

theorem split_of_notMem {c : UInt8} {s : Str} (h : c ∉ s) : split c s = [s] :=
  split_of_none (breakOn_of_notMem h)

theorem split_of_some {c : UInt8} {s a b : Str} (h : breakOn [c] s = some (a, b)) :
    split c s = a :: split c b := by
  rw [split, pieces_of_some (List.cons_ne_nil c []) h]
  rfl

/-- A separator separates. -/
theorem split_append (c : UInt8) (s t : Str) : split c (s ++ c :: t) = split c s ++ split c t := by
  induction hn : s.length using Nat.strongRecOn generalizing s with
  | ind n ih =>
      cases hb : breakOn [c] s with
      | none =>
          have hc : c ∉ s := by
            intro hmem
            obtain ⟨a, b, rfl⟩ := List.append_of_mem hmem
            have hsome := breakOn_isSome [c] a b
            rw [List.append_assoc, List.singleton_append, hb] at hsome
            cases hsome
          have hbreak : breakOn [c] (s ++ c :: t) = some (s, t) := breakOn_append_cons hc t
          rw [split_of_notMem hc, split_of_some hbreak, List.singleton_append]
      | some p =>
          obtain ⟨a, b⟩ := p
          have hlt := length_lt_of_breakOn (List.cons_ne_nil c []) hb
          have hrest := ih b.length (by omega) b rfl
          rw [split_of_some (breakOn_append hb (c :: t)), split_of_some hb, hrest, List.cons_append]

/-- Splitting undoes joining. -/
theorem split_intercalate {c : UInt8} {l : List Str} (hl : l ≠ []) (h : ∀ s ∈ l, c ∉ s) :
    split c ([c].intercalate l) = l := by
  induction l with
  | nil => exact absurd rfl hl
  | cons s l ih =>
      have hs := h s List.mem_cons_self
      cases l with
      | nil => rw [List.intercalate_singleton, split_of_notMem hs]
      | cons t l =>
          rw [List.intercalate_cons_cons, List.append_assoc, List.singleton_append, split_append,
            split_of_notMem hs, ih (List.cons_ne_nil t l) fun u hu =>
              h u (List.mem_cons_of_mem s hu), List.singleton_append]

/-- A piece has no separator in it. -/
theorem notMem_of_mem_split {c : UInt8} {s p : Str} (h : p ∈ split c s) : c ∉ p := by
  induction hn : s.length using Nat.strongRecOn generalizing s with
  | ind n ih =>
      by_cases hc : c ∈ s
      · obtain ⟨a, b, rfl, ha⟩ := List.eq_append_cons_of_mem hc
        rw [split_append, split_of_notMem ha, List.singleton_append, List.mem_cons] at h
        rcases h with rfl | h
        · exact ha
        · exact ih b.length (by simp at hn; omega) h rfl
      · rw [split_of_notMem hc, List.mem_singleton] at h
        rwa [h]

/-- The characters of a piece are those of the text. -/
theorem subset_of_mem_split {c : UInt8} {s p : Str} (h : p ∈ split c s) : p ⊆ s := by
  refine forall_pieces (List.cons_ne_nil c []) (P := (· ⊆ s)) (fun a b hab => ?_)
    (List.Subset.refl s) p h
  rw [List.append_assoc] at hab
  have hparts := List.append_subset.mp hab
  exact ⟨hparts.1, (List.append_subset.mp hparts.2).2⟩

/-- There is one piece more than there are separators. -/
theorem length_split (c : UInt8) (s : Str) : (split c s).length = s.count c + 1 := by
  induction hn : s.length using Nat.strongRecOn generalizing s with
  | ind n ih =>
      by_cases hc : c ∈ s
      · obtain ⟨a, b, rfl, ha⟩ := List.eq_append_cons_of_mem hc
        have hb := ih b.length (by simp at hn; omega) b rfl
        rw [split_append, split_of_notMem ha, List.singleton_append, List.length_cons, hb,
          List.count_append, List.count_cons_self, List.count_eq_zero.mpr ha]
        omega
      · rw [split_of_notMem hc, List.count_eq_zero.mpr hc]
        rfl

/-- A text with a separator behind it breaks at its first one. -/
theorem breakOn_append_takeWhile (c : UInt8) (s t : Str) :
    ∃ rest, breakOn [c] (s ++ c :: t) = some (s.takeWhile (· ≠ c), rest) := by
  by_cases hc : c ∈ s
  · obtain ⟨a, b, rfl, ha⟩ := List.eq_append_cons_of_mem hc
    rw [takeWhile_ne_cons ha, List.append_assoc]
    exact ⟨_, breakOn_append_cons ha _⟩
  · rw [takeWhile_ne_self hc]
    exact ⟨t, breakOn_append_cons hc t⟩

/-- The first piece goes up to the first separator. -/
theorem split_eq_cons (c : UInt8) (s : Str) :
    ∃ pieces, split c s = s.takeWhile (· ≠ c) :: pieces := by
  by_cases hc : c ∈ s
  · obtain ⟨a, b, rfl, ha⟩ := List.eq_append_cons_of_mem hc
    refine ⟨split c b, ?_⟩
    rw [split_append, split_of_notMem ha, takeWhile_ne_cons ha, List.singleton_append]
  · exact ⟨[], by rw [split_of_notMem hc, takeWhile_ne_self hc]⟩

end MySrc
