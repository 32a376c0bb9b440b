import MySrc.Lib.Heap
import Mathlib.Logic.Function.Basic
import Mathlib.Data.List.Nodup

/-!
# MySrc.Lib.Chain

Singly linked chains, and lists cut in two by a predicate.

The links are a partial function `nx` on addresses: `nx a = none` when there is
no link to follow at `a`, `nx a = some none` when the link at `a` is null.
`Path nx a xs b` says that the links lead from `a` through `xs` to the pointer
`b`, so `Path nx a xs none` is a chain that ends.
-/

namespace Lib

open Function (update)

/-! ## paths -/

/-- The links lead from `a` through `xs` to the pointer `b`. -/
def Path (nx : Nat → Option Ptr) (a : Nat) : List Nat → Ptr → Prop
  | [], b => nx a = some b
  | x :: xs, b => nx a = some (some x) ∧ Path nx x xs b

/-- Whether the links lead there can be computed. -/
instance decidablePath (nx : Nat → Option Ptr) :
    ∀ (a : Nat) (xs : List Nat) (b : Ptr), Decidable (Path nx a xs b)
  | a, [], b => inferInstanceAs (Decidable (nx a = some b))
  | _, x :: xs, b =>
      have := decidablePath nx x xs b
      inferInstanceAs (Decidable (_ ∧ _))

/-- The links lead from `a` through `xs`, wherever they go from there. -/
def Steps (nx : Nat → Option Ptr) (a : Nat) : List Nat → Prop
  | [] => True
  | x :: xs => nx a = some (some x) ∧ Steps nx x xs

section Path

variable {nx nx' : Nat → Option Ptr} {a d n : Nat} {b : Ptr} {xs ys : List Nat}

theorem Path.frame (h : Path nx a xs b) (hnx : ∀ c ∈ a :: xs, nx' c = nx c) :
    Path nx' a xs b := by
  induction xs generalizing a with
  | nil => exact (hnx a (by simp)).trans h
  | cons x xs ih =>
      exact ⟨(hnx a (by simp)).trans h.1, ih h.2 fun c hc => hnx c (List.mem_cons_of_mem _ hc)⟩

theorem Steps.frame (h : Steps nx a xs) (hnx : ∀ c ∈ (a :: xs).dropLast, nx' c = nx c) :
    Steps nx' a xs := by
  induction xs generalizing a with
  | nil => trivial
  | cons x xs ih =>
      refine ⟨(hnx a (by simp)).trans h.1, ih h.2 fun c hc => hnx c ?_⟩
      rw [List.dropLast_cons_cons]
      exact List.mem_cons_of_mem _ hc

/-- A path can be cut after any of its nodes. -/
theorem path_append : Path nx a (xs ++ ys) b ↔ Steps nx a xs ∧ Path nx (xs.getLastD a) ys b := by
  induction xs generalizing a with
  | nil => simp [Steps]
  | cons x xs ih => rw [List.cons_append, Path, Steps, ih, List.getLastD_cons, and_assoc]

/-- The first link of a chain. -/
theorem Path.first (h : Path nx a xs none) : nx a = some xs.head? := by
  cases xs with
  | nil => exact h
  | cons x xs => exact h.1

/-- A node has one chain that ends. -/
theorem Path.unique (hx : Path nx a xs none) (hy : Path nx a ys none) : xs = ys := by
  induction xs generalizing a ys with
  | nil =>
      have hhead : ys.head? = none := (Option.some.inj (hx.symm.trans hy.first)).symm
      exact (List.head?_eq_none_iff.mp hhead).symm
  | cons x xs ih =>
      have hhead : ys.head? = some x := (Option.some.inj (hx.1.symm.trans hy.first)).symm
      obtain ⟨ys, rfl⟩ := List.head?_eq_some_iff.mp hhead
      rw [ih hx.2 hy.2]

/-- A chain that ends does not come back to a node. -/
theorem Path.nodup (h : Path nx a xs none) : (a :: xs).Nodup := by
  induction xs generalizing a with
  | nil => simp
  | cons x xs ih =>
      refine List.nodup_cons.mpr ⟨fun ha => ?_, ih h.2⟩
      obtain ⟨us, ws, hsplit⟩ := List.append_of_mem ha
      have hws : Path nx a ws none := by
        have hpath := h
        rw [hsplit, path_append] at hpath
        exact hpath.2.2
      have hlen := congrArg List.length (hsplit.symm.trans (h.unique hws))
      simp at hlen
      omega

theorem Path.exists_link (h : Path nx a xs b) (hc : c ∈ a :: xs) : ∃ q, nx c = some q := by
  induction xs generalizing a with
  | nil =>
      obtain rfl := List.mem_singleton.mp hc
      exact ⟨b, h⟩
  | cons x xs ih =>
      obtain rfl | hc := List.mem_cons.mp hc
      · exact ⟨_, h.1⟩
      · exact ih h.2 hc

/-- A path from any of the nodes on its first part. -/
theorem Path.from_mem (h : Path nx d (xs ++ ys) b) (ha : a ∈ d :: xs) :
    ∃ zs, Path nx a (zs ++ ys) b ∧ zs.Sublist xs ∧ zs.getLastD a = xs.getLastD d := by
  obtain rfl | ha := List.mem_cons.mp ha
  · exact ⟨xs, h, List.Sublist.refl _, rfl⟩
  · obtain ⟨us, ws, rfl⟩ := List.append_of_mem ha
    rw [List.append_assoc] at h
    refine ⟨ws, (path_append.mp h).2.2, ?_, ?_⟩
    · exact (List.sublist_cons_self a ws).trans (List.sublist_append_right us _)
    · simp [List.getLast?_append, List.getLast?_cons]

/-- A path that leads to a node is the part of the chain in front of it. -/
theorem Path.prefix_of (h : Path nx d xs none) (hys : Path nx d ys (some n)) :
    ∃ zs, xs = ys ++ n :: zs := by
  induction ys generalizing d xs with
  | nil =>
      have hfirst := h.first.symm.trans hys
      obtain ⟨zs, rfl⟩ := List.head?_eq_some_iff.mp (Option.some.inj hfirst)
      exact ⟨zs, rfl⟩
  | cons y ys ih =>
      have hfirst := h.first.symm.trans hys.1
      obtain ⟨zs, rfl⟩ := List.head?_eq_some_iff.mp (Option.some.inj hfirst)
      obtain ⟨us, rfl⟩ := ih h.2 hys.2
      exact ⟨us, rfl⟩

theorem Path.to_mem (h : Path nx d (xs ++ n :: ys) b) : Path nx d xs (some n) := by
  obtain ⟨hxs, hn, -⟩ := path_append.mp h
  rw [← List.append_nil xs, path_append]
  exact ⟨hxs, hn⟩

/-- A node is reached from `d` exactly when it is on the chain from `d`. -/
theorem Path.reaches_iff (h : Path nx d xs none) : (∃ ys, Path nx d ys (some n)) ↔ n ∈ xs := by
  constructor
  · rintro ⟨ys, hys⟩
    obtain ⟨zs, rfl⟩ := h.prefix_of hys
    simp
  · intro hn
    obtain ⟨ys, zs, rfl⟩ := List.append_of_mem hn
    exact ⟨ys, h.to_mem⟩

theorem Steps.last_notMem_dropLast (h : (d :: xs).Nodup) : xs.getLastD d ∉ (d :: xs).dropLast := by
  obtain rfl | ⟨ys, p, rfl⟩ := List.eq_nil_or_concat' xs
  · simp
  · rw [← List.cons_append] at h ⊢
    rw [List.dropLast_concat, List.getLastD_concat]
    exact fun hp => (List.nodup_append.mp h).2.2 p hp p (by simp) rfl

/-- **Linking a node in.** -/
theorem Path.insert (h : Path nx d (xs ++ ys) none) (hnd : (d :: (xs ++ ys)).Nodup)
    (hn : n ∉ d :: (xs ++ ys))
    (hnx : nx' = update (update nx n (nx (xs.getLastD d))) (xs.getLastD d) (some (some n))) :
    Path nx' d (xs ++ n :: ys) none := by
  obtain ⟨hxs, hys⟩ := path_append.mp h
  rw [← List.cons_append] at hnd hn
  obtain ⟨hnd1, hnd2, hdis⟩ := List.nodup_append.mp hnd
  have hlast := Steps.last_notMem_dropLast hnd1
  have hmem : xs.getLastD d ∈ d :: xs := List.getLastD_mem_cons
  have hnl : n ≠ xs.getLastD d := fun e => hn (List.mem_append_left _ (e ▸ hmem))
  subst hnx
  rw [path_append]
  refine ⟨hxs.frame fun c hc => ?_, ?_, ?_⟩
  · have h1 : c ≠ xs.getLastD d := fun e => hlast (e ▸ hc)
    have h2 : c ≠ n := fun e => hn (List.mem_append_left _ (e ▸ List.dropLast_subset _ hc))
    rw [Function.update_of_ne h1, Function.update_of_ne h2]
  · rw [Function.update_self]
  · have hfirst : update (update nx n (nx (xs.getLastD d))) (xs.getLastD d) (some (some n)) n =
        nx (xs.getLastD d) := by
      rw [Function.update_of_ne hnl, Function.update_self]
    have hrest : ∀ c ∈ ys, update (update nx n (nx (xs.getLastD d))) (xs.getLastD d)
        (some (some n)) c = nx c := by
      intro c hc
      have h1 : c ≠ xs.getLastD d := fun e => hdis _ hmem c hc e.symm
      have h2 : c ≠ n := fun e => hn (List.mem_append_right _ (e ▸ hc))
      rw [Function.update_of_ne h1, Function.update_of_ne h2]
    cases ys with
    | nil => exact hfirst.trans hys
    | cons y ys => exact ⟨hfirst.trans hys.1, hys.2.frame hrest⟩

/-- **Unlinking a node.** -/
theorem Path.unlink (h : Path nx d (xs ++ n :: ys) none) (hnd : (d :: (xs ++ n :: ys)).Nodup)
    (hnx : nx' = update nx (xs.getLastD d) (nx n)) : Path nx' d (xs ++ ys) none := by
  obtain ⟨hxs, hn, hys⟩ := path_append.mp h
  rw [← List.cons_append] at hnd
  obtain ⟨hnd1, hnd2, hdis⟩ := List.nodup_append.mp hnd
  have hlast := Steps.last_notMem_dropLast hnd1
  have hmem : xs.getLastD d ∈ d :: xs := List.getLastD_mem_cons
  subst hnx
  rw [path_append]
  refine ⟨hxs.frame fun c hc => ?_, ?_⟩
  · have h1 : c ≠ xs.getLastD d := fun e => hlast (e ▸ hc)
    rw [Function.update_of_ne h1]
  · have hrest : ∀ c ∈ ys, update nx (xs.getLastD d) (nx n) c = nx c := by
      intro c hc
      have h1 : c ≠ xs.getLastD d := fun e => hdis _ hmem c (by simp [hc]) e.symm
      rw [Function.update_of_ne h1]
    cases ys with
    | nil => simpa [Path] using hys
    | cons y ys => exact ⟨by simpa using hys.1, hys.2.frame hrest⟩

end Path

/-! ## cuts -/

/-- What satisfies `p` comes first. -/
def Cut (p : α → Bool) (xs : List α) : Prop := xs.Pairwise fun a b => p b = true → p a = true

section Cut

variable {p : α → Bool} {xs ys : List α}

theorem Cut.takeWhile (h : Cut p xs) : xs.takeWhile p = xs.filter p := by
  induction xs with
  | nil => rfl
  | cons x xs ih =>
      obtain ⟨hx, hxs⟩ := List.pairwise_cons.mp h
      by_cases hp : p x = true
      · simp [hp, ih hxs]
      · have hnone : xs.filter p = [] := by
          rw [List.filter_eq_nil_iff]
          exact fun y hy hpy => hp (hx y hy hpy)
        simp [hp, hnone]

theorem Cut.dropWhile (h : Cut p xs) : xs.dropWhile p = xs.filter fun x => !p x := by
  induction xs with
  | nil => rfl
  | cons x xs ih =>
      obtain ⟨hx, hxs⟩ := List.pairwise_cons.mp h
      by_cases hp : p x = true
      · simp [hp, ih hxs]
      · have hall : xs.filter (fun x => !p x) = xs := by
          rw [List.filter_eq_self]
          intro y hy
          have : p y ≠ true := fun hpy => hp (hx y hy hpy)
          simpa using this
        simp [hp, hall]

/-- A list is what is before the cut, and then the rest. -/
theorem Cut.append (h : Cut p xs) : xs.filter p ++ xs.filter (fun x => !p x) = xs := by
  rw [← h.takeWhile, ← h.dropWhile, List.takeWhile_append_dropWhile]

theorem Cut.sublist (h : Cut p ys) (hsub : xs.Sublist ys) : Cut p xs :=
  List.Pairwise.sublist hsub h

end Cut

end Lib
