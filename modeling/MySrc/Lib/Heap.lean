import MySrc.Lib.Run
import Mathlib.Data.List.AList
import Mathlib.Data.Fintype.EquivFin

/-!
# MySrc.Lib.Heap

A heap of cells of one type, by address.  `malloc` is an insertion at an address
that is not in use; following a null pointer or a pointer to a cell that is not
allocated is a fault, so a computation that ends well has followed none.
-/

namespace Lib

/-- A pointer: an address, or null. -/
abbrev Ptr := Option Nat

/-- The allocated cells. -/
abbrev Heap (α : Type) := AList fun _ : Nat => α

/-- The cell a pointer points to. -/
def load (h : Heap α) : Ptr → Except Fault α
  | none => .error .nullDeref
  | some a =>
      match h.lookup a with
      | none => .error .dangling
      | some c => .ok c

/-- Change the cell a pointer points to. -/
def modify (h : Heap α) (f : α → α) : Ptr → Except Fault (Heap α)
  | none => .error .nullDeref
  | some a =>
      match h.lookup a with
      | none => .error .dangling
      | some c => .ok (h.insert a (f c))

/-- `free`: nothing happens to a null pointer, and a cell is freed only once. -/
def free (h : Heap α) : Ptr → Except Fault (Heap α)
  | none => .ok h
  | some a => if a ∈ h then .ok (h.erase a) else .error .dangling

theorem load_ok {h : Heap α} (ha : h.lookup a = some c) : load h (some a) = .ok c := by
  simp only [load, ha]

theorem modify_ok {h : Heap α} (ha : h.lookup a = some c) (f : α → α) :
    modify h f (some a) = .ok (h.insert a (f c)) := by
  simp only [modify, ha]

theorem free_ok {h : Heap α} (ha : a ∈ h) : free h (some a) = .ok (h.erase a) := if_pos ha

/-- Only an allocated cell can be read. -/
theorem load_eq_ok {h : Heap α} : load h (some a) = .ok c ↔ h.lookup a = some c := by
  cases hl : h.lookup a <;> simp [load, hl]

theorem mem_of_lookup {h : Heap α} (ha : h.lookup a = some c) : a ∈ h :=
  AList.lookup_isSome.mp (by rw [ha]; rfl)

theorem mem_insert_of_mem {h : Heap α} (hb : b ∈ h) (a : Nat) (c : α) : b ∈ h.insert a c :=
  (AList.mem_insert h).mpr (.inr hb)

theorem lookup_of_mem {h : Heap α} (ha : a ∈ h) : ∃ c, h.lookup a = some c :=
  Option.isSome_iff_exists.mp (AList.lookup_isSome.mpr ha)

/-- There is always memory that is not in use. -/
theorem exists_fresh (h : Heap α) : ∃ a, a ∉ h := by
  obtain ⟨a, ha⟩ := Infinite.exists_notMem_finset h.keys.toFinset
  exact ⟨a, fun hmem => ha (List.mem_toFinset.mpr (AList.mem_keys.mp hmem))⟩

theorem lookup_insert_eq_ite {h : Heap α} (a b : Nat) (c : α) :
    (h.insert a c).lookup b = if b = a then some c else h.lookup b := by
  by_cases hb : b = a
  · subst hb
    rw [if_pos rfl, AList.lookup_insert]
  · rw [if_neg hb, AList.lookup_insert_ne hb]

theorem lookup_erase_eq_ite {h : Heap α} (a b : Nat) :
    (h.erase a).lookup b = if b = a then none else h.lookup b := by
  by_cases hb : b = a
  · subst hb
    rw [if_pos rfl, AList.lookup_erase]
  · rw [if_neg hb, AList.lookup_erase_ne hb]

end Lib
