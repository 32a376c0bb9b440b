import Mathlib.Order.Basic
import Mathlib.Data.List.Pairwise

/-!
# MySrc.Lib.OrdMap

`std::map`: a finite map whose entries stand in the order of their keys.

The entries are a list that is strictly sorted by key, so a key has one entry
and iteration goes from the smallest key to the largest.  `find` is what a map
means: every operation has one lemma that says what it does to `find`.
-/

namespace Lib

/-- A map with its entries in the order of the keys. -/
structure OrdMap (κ ν : Type) [LT κ] where
  entries : List (κ × ν)
  sorted : entries.Pairwise fun a b => a.1 < b.1

namespace OrdMap

variable {κ ν : Type} [LT κ]

/-- The map without entries. -/
def empty : OrdMap κ ν := ⟨[], .nil⟩

instance [DecidableEq κ] [DecidableEq ν] : DecidableEq (OrdMap κ ν) := fun m m' =>
  decidable_of_iff (m.entries = m'.entries) (by cases m; cases m'; simp)

/-- Change every value, as a loop over the map does. -/
def mapValues (f : ν → ν) (m : OrdMap κ ν) : OrdMap κ ν :=
  ⟨m.entries.map fun e => (e.1, f e.2), List.pairwise_map.mpr m.sorted⟩

/-- A key has one entry. -/
theorem eq_of_key_eq [Std.Irrefl (α := κ) (· < ·)] (m : OrdMap κ ν) {e e' : κ × ν}
    (he : e ∈ m.entries) (he' : e' ∈ m.entries) (hkey : e.1 = e'.1) : e = e' := by
  have hdistinct : m.entries.Pairwise fun a b => a.1 = b.1 → False := by
    refine m.sorted.imp fun {a b} hlt heq => ?_
    rw [heq] at hlt
    exact Std.lt_irrefl hlt
  have : Std.Symm fun a b : κ × ν => a.1 = b.1 → False := ⟨fun _ _ h heq => h heq.symm⟩
  by_contra hne
  exact hdistinct.forall he he' hne hkey

variable [DecidableEq κ]

/-- `find`: the value of a key. -/
def find (m : OrdMap κ ν) (k : κ) : Option ν := (m.entries.find? (·.1 = k)).map (·.2)

/-- `erase` by key. -/
def erase (m : OrdMap κ ν) (k : κ) : OrdMap κ ν :=
  ⟨m.entries.filter (·.1 ≠ k), m.sorted.filter _⟩

@[simp] theorem find_empty (q : κ) : (empty : OrdMap κ ν).find q = none := rfl

section

variable [Std.Irrefl (α := κ) (· < ·)]

/-- The entries are those that `find` finds. -/
theorem mem_entries_iff (m : OrdMap κ ν) (k : κ) (v : ν) :
    (k, v) ∈ m.entries ↔ m.find k = some v := by
  unfold find
  constructor
  · intro hmem
    obtain ⟨e, he⟩ : ∃ e, m.entries.find? (·.1 = k) = some e := by
      rw [← Option.isSome_iff_exists, List.find?_isSome]
      exact ⟨(k, v), hmem, by simp⟩
    have hkey : e.1 = k := by simpa using List.find?_some he
    rw [he, m.eq_of_key_eq (List.mem_of_find?_eq_some he) hmem hkey]
    rfl
  · intro hfind
    obtain ⟨e, he, rfl⟩ := Option.map_eq_some_iff.mp hfind
    have hkey : e.1 = k := by simpa using List.find?_some he
    rw [← hkey]
    exact List.mem_of_find?_eq_some he

theorem find_erase (m : OrdMap κ ν) (k q : κ) :
    (m.erase k).find q = if q = k then none else m.find q := by
  ext v
  rw [← mem_entries_iff, erase, List.mem_filter]
  by_cases hq : q = k <;> simp [hq, mem_entries_iff]

theorem find_mapValues (f : ν → ν) (m : OrdMap κ ν) (q : κ) :
    (m.mapValues f).find q = (m.find q).map f := by
  ext v
  rw [← mem_entries_iff, mapValues, List.mem_map, Option.map_eq_some_iff]
  constructor
  · rintro ⟨e, he, heq⟩
    obtain ⟨rfl, rfl⟩ := Prod.mk.inj heq
    exact ⟨e.2, (m.mem_entries_iff e.1 e.2).mp he, rfl⟩
  · rintro ⟨w, hw, rfl⟩
    exact ⟨(q, w), (m.mem_entries_iff q w).mpr hw, rfl⟩

end

/-! ## insertion -/

section Insert

variable [DecidableLT κ]

/-- The entries with a new one put where its key belongs; an entry that is there stays. -/
def insertSorted (k : κ) (v : ν) : List (κ × ν) → List (κ × ν)
  | [] => [(k, v)]
  | e :: l =>
      if k < e.1 then (k, v) :: e :: l
      else if k = e.1 then e :: l
      else e :: insertSorted k v l

theorem mem_insertSorted {k : κ} {v : ν} {e : κ × ν} {l : List (κ × ν)}
    (he : e ∈ insertSorted k v l) : e = (k, v) ∨ e ∈ l := by
  induction l with
  | nil => exact .inl (List.mem_singleton.mp he)
  | cons e' l ih =>
      unfold insertSorted at he
      split at he
      · exact List.mem_cons.mp he
      · split at he
        · exact .inr he
        · rcases List.mem_cons.mp he with rfl | he
          · exact .inr List.mem_cons_self
          · exact (ih he).imp_right (List.mem_cons_of_mem e')

variable [Trans (α := κ) (· < ·) (· < ·) (· < ·)]

theorem find?_insertSorted [Std.Irrefl (α := κ) (· < ·)] (k : κ) (v : ν) (q : κ)
    {l : List (κ × ν)} (h : l.Pairwise fun a b => a.1 < b.1) :
    (insertSorted k v l).find? (·.1 = q) =
      (l.find? (·.1 = q)).or (if q = k then some (k, v) else none) := by
  induction l with
  | nil => by_cases hq : q = k <;> simp [insertSorted, hq, Ne.symm]
  | cons e l ih =>
      have hl := List.pairwise_cons.mp h
      unfold insertSorted
      split
      · next hlt =>
          by_cases hq : q = k
          · -- every key of the list is above the new one
            have hnone : (e :: l).find? (·.1 = q) = none := by
              rw [List.find?_eq_none]
              intro a ha heq
              have hbelow : k < a.1 := by
                rcases List.mem_cons.mp ha with rfl | ha
                · exact hlt
                · exact Std.lt_trans hlt (hl.1 a ha)
              rw [of_decide_eq_true heq, hq] at hbelow
              exact Std.lt_irrefl hbelow
            rw [hnone]
            simp [hq]
          · rw [List.find?_cons_of_neg (by simpa using Ne.symm hq), if_neg hq, Option.or_none]
      · split
        · next heq =>
            by_cases hq : q = k
            · simp [hq, heq]
            · rw [if_neg hq, Option.or_none]
        · next hne =>
            by_cases hq : e.1 = q
            · simp [hq]
            · rw [List.find?_cons_of_neg (by simpa using hq),
                List.find?_cons_of_neg (by simpa using hq), ih hl.2]

variable [Std.Trichotomous (α := κ) (· < ·)]

theorem pairwise_insertSorted (k : κ) (v : ν) {l : List (κ × ν)}
    (h : l.Pairwise fun a b => a.1 < b.1) :
    (insertSorted k v l).Pairwise fun a b => a.1 < b.1 := by
  induction l with
  | nil => exact List.pairwise_singleton _ _
  | cons e l ih =>
      have hl := List.pairwise_cons.mp h
      unfold insertSorted
      split
      · next hlt =>
          refine List.pairwise_cons.mpr ⟨fun a ha => ?_, h⟩
          rcases List.mem_cons.mp ha with rfl | ha
          · exact hlt
          · exact Std.lt_trans hlt (hl.1 a ha)
      · next hnlt =>
          split
          · exact h
          · next hne =>
              refine List.pairwise_cons.mpr ⟨fun a ha => ?_, ih hl.2⟩
              rcases mem_insertSorted ha with rfl | ha
              · exact ((Std.lt_trichotomy k e.1).resolve_left hnlt).resolve_left hne
              · exact hl.1 a ha

/-- `insert`: an entry that is there stays. -/
def insertNew (m : OrdMap κ ν) (k : κ) (v : ν) : OrdMap κ ν :=
  ⟨insertSorted k v m.entries, pairwise_insertSorted k v m.sorted⟩

/-- `m[k] = v` -/
def set (m : OrdMap κ ν) (k : κ) (v : ν) : OrdMap κ ν := (m.erase k).insertNew k v

variable [Std.Irrefl (α := κ) (· < ·)]

/-- `insert` finds what was there, and the new entry otherwise. -/
theorem find_insertNew (m : OrdMap κ ν) (k : κ) (v : ν) (q : κ) :
    (m.insertNew k v).find q = (m.find q).or (if q = k then some v else none) := by
  unfold find insertNew
  rw [find?_insertSorted k v q m.sorted, Option.map_or]
  by_cases hq : q = k <;> simp [hq]

theorem find_set (m : OrdMap κ ν) (k : κ) (v : ν) (q : κ) :
    (m.set k v).find q = if q = k then some v else m.find q := by
  rw [set, find_insertNew, find_erase]
  by_cases hq : q = k <;> simp [hq]

/-- A loop that inserts rows finds the first row of a key. -/
theorem find_foldl_insertNew (key : ρ → κ) (value : ρ → ν) (rows : List ρ) (m : OrdMap κ ν)
    (q : κ) :
    (rows.foldl (fun m row => m.insertNew (key row) (value row)) m).find q =
      (m.find q).or ((rows.find? (key · = q)).map value) := by
  induction rows generalizing m with
  | nil => simp
  | cons row rows ih =>
      rw [List.foldl_cons, ih, find_insertNew, Option.or_assoc]
      by_cases hq : key row = q
      · simp [hq]
      · simp [hq, Ne.symm hq]

end Insert

/-! ## equality -/

section

variable [Std.Irrefl (α := κ) (· < ·)] [Trans (α := κ) (· < ·) (· < ·) (· < ·)]

/-- A map is what `find` finds. -/
theorem ext_find {m m' : OrdMap κ ν} (h : ∀ k, m.find k = m'.find k) : m = m' := by
  have hmem : ∀ e, e ∈ m.entries ↔ e ∈ m'.entries := by
    rintro ⟨k, v⟩
    rw [mem_entries_iff, mem_entries_iff, h]
  have hnodup : ∀ m : OrdMap κ ν, m.entries.Nodup := fun m =>
    m.sorted.imp fun {a b} hlt heq => by
      rw [heq] at hlt
      exact Std.lt_irrefl hlt
  have hperm := (List.perm_ext_iff_of_nodup (hnodup m) (hnodup m')).mpr hmem
  have hentries : m.entries = m'.entries := by
    refine hperm.eq_of_pairwise ?_ m.sorted m'.sorted
    intro a b _ _ hab hba
    exact absurd (Trans.trans hab hba) Std.lt_irrefl
  cases m
  cases m'
  cases hentries
  rfl

/-- A map is filled anew from its entries, in whatever order they come. -/
theorem foldl_insertNew_entries [DecidableLT κ] [Std.Trichotomous (α := κ) (· < ·)]
    (m : OrdMap κ ν) {l : List (κ × ν)} (hl : ∀ e, e ∈ l ↔ e ∈ m.entries) :
    l.foldl (fun m e => m.insertNew e.1 e.2) empty = m := by
  apply ext_find
  intro q
  rw [find_foldl_insertNew Prod.fst Prod.snd, find_empty, Option.none_or]
  ext v
  rw [← mem_entries_iff, Option.map_eq_some_iff]
  constructor
  · rintro ⟨e, he, rfl⟩
    have hkey : e.1 = q := by simpa using List.find?_some he
    rw [← hkey]
    exact (hl e).mp (List.mem_of_find?_eq_some he)
  · intro hmem
    obtain ⟨e, he⟩ : ∃ e, l.find? (·.1 = q) = some e := by
      rw [← Option.isSome_iff_exists, List.find?_isSome]
      exact ⟨(q, v), (hl _).mpr hmem, by simp⟩
    have hkey : e.1 = q := by simpa using List.find?_some he
    have heq := m.eq_of_key_eq ((hl e).mp (List.mem_of_find?_eq_some he)) hmem hkey
    exact ⟨e, he, by rw [heq]⟩

end

end OrdMap

/-! ## byte strings as keys -/

instance bytesLtTrans : Trans (α := List UInt8) (· < ·) (· < ·) (· < ·) := inferInstance

instance bytesLtTrichotomous : Std.Trichotomous (α := List UInt8) (· < ·) := inferInstance

end Lib
