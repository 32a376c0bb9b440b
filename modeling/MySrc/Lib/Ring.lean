import MySrc.Lib.Heap
import Mathlib.Logic.Function.Basic
import Mathlib.Data.List.Nodup

/-!
# MySrc.Lib.Ring

Doubly linked rings with a sentinel.

`Ring h d xs` says that from the sentinel `d` the `next` pointers lead through
the nodes at the addresses `xs` back to `d`, and the `prev` pointers the same
way back.  The lemmas speak of the fields as functions of the address
(`nextOf`, `prevOf`, `dataOf`), so a sequence of assignments is a sequence of
`Function.update`s, and what is inserted, removed or left alone is read off
from them.
-/

namespace Lib

open Function (update)

/-- A node of a doubly linked list. -/
structure RingNode (δ : Type) where
  next : Ptr
  prev : Ptr
  data : δ
  deriving Repr, DecidableEq

/-! ## fields -/

section Fields

variable (h : Heap (RingNode δ)) (a : Nat)

/-- Where `next` of the node at `a` points. -/
def nextOf : Ptr := (h.lookup a).bind (·.next)

/-- Where `prev` of the node at `a` points. -/
def prevOf : Ptr := (h.lookup a).bind (·.prev)

/-- The data of the node at `a`. -/
def dataOf : Option δ := (h.lookup a).map (·.data)

end Fields

section Insert

variable (h : Heap (RingNode δ)) (a : Nat) (c : RingNode δ)

theorem nextOf_insert : nextOf (h.insert a c) = update (nextOf h) a c.next := by
  funext b
  rw [nextOf, lookup_insert_eq_ite, Function.update_apply]
  split <;> rfl

theorem prevOf_insert : prevOf (h.insert a c) = update (prevOf h) a c.prev := by
  funext b
  rw [prevOf, lookup_insert_eq_ite, Function.update_apply]
  split <;> rfl

theorem dataOf_insert : dataOf (h.insert a c) = update (dataOf h) a (some c.data) := by
  funext b
  rw [dataOf, lookup_insert_eq_ite, Function.update_apply]
  split <;> rfl

theorem nextOf_erase : nextOf (h.erase a) = update (nextOf h) a none := by
  funext b
  rw [nextOf, lookup_erase_eq_ite, Function.update_apply]
  split <;> rfl

theorem prevOf_erase : prevOf (h.erase a) = update (prevOf h) a none := by
  funext b
  rw [prevOf, lookup_erase_eq_ite, Function.update_apply]
  split <;> rfl

theorem dataOf_erase : dataOf (h.erase a) = update (dataOf h) a none := by
  funext b
  rw [dataOf, lookup_erase_eq_ite, Function.update_apply]
  split <;> rfl

end Insert

/-- `p->next = v` -/
def setNext (h : Heap (RingNode δ)) (p v : Ptr) : Except Fault (Heap (RingNode δ)) :=
  modify h (fun n => { n with next := v }) p

/-- `p->prev = v` -/
def setPrev (h : Heap (RingNode δ)) (p v : Ptr) : Except Fault (Heap (RingNode δ)) :=
  modify h (fun n => { n with prev := v }) p

/-- `h'` has the nodes of `h`, with their data, and the links `nx` and `pv`. -/
structure Relinked (h h' : Heap (RingNode δ)) (nx pv : Nat → Ptr) : Prop where
  mem : ∀ b, b ∈ h' ↔ b ∈ h
  next : nextOf h' = nx
  prev : prevOf h' = pv
  data : dataOf h' = dataOf h

theorem Relinked.refl (h : Heap (RingNode δ)) : Relinked h h (nextOf h) (prevOf h) :=
  ⟨fun _ => Iff.rfl, rfl, rfl, rfl⟩

section Assign

variable {h h₁ : Heap (RingNode δ)} {nx pv : Nat → Ptr}

/-- Replacing a node by one with the same data. -/
theorem Relinked.insert (hr : Relinked h h₁ nx pv) (ha : a ∈ h) (hn : h₁.lookup a = some n)
    (hdata : c.data = n.data) (hnx : nx' = update nx a c.next) (hpv : pv' = update pv a c.prev) :
    Relinked h (h₁.insert a c) nx' pv' := by
  refine ⟨fun b => ?_, ?_, ?_, ?_⟩
  · rw [AList.mem_insert, hr.mem]
    exact ⟨fun hb => hb.elim (fun e => e ▸ ha) id, Or.inr⟩
  · rw [nextOf_insert, hr.next, hnx]
  · rw [prevOf_insert, hr.prev, hpv]
  · have hsame : some c.data = dataOf h₁ a := by rw [dataOf, hn, hdata]; rfl
    rw [dataOf_insert, hsame, Function.update_eq_self, hr.data]

/-- An assignment to `next` changes one link. -/
theorem Relinked.setNext (hr : Relinked h h₁ nx pv) (ha : a ∈ h) (v : Ptr) :
    ∃ h₂, Lib.setNext h₁ (some a) v = .ok h₂ ∧ Relinked h h₂ (update nx a v) pv := by
  obtain ⟨n, hn⟩ := lookup_of_mem ((hr.mem a).mpr ha)
  have hpv : pv a = n.prev := by rw [← hr.prev, prevOf, hn]; rfl
  exact ⟨_, modify_ok hn _, hr.insert ha hn rfl rfl (by rw [← hpv, Function.update_eq_self])⟩

/-- An assignment to `prev` changes one link. -/
theorem Relinked.setPrev (hr : Relinked h h₁ nx pv) (ha : a ∈ h) (v : Ptr) :
    ∃ h₂, Lib.setPrev h₁ (some a) v = .ok h₂ ∧ Relinked h h₂ nx (update pv a v) := by
  obtain ⟨n, hn⟩ := lookup_of_mem ((hr.mem a).mpr ha)
  have hnx : nx a = n.next := by rw [← hr.next, nextOf, hn]; rfl
  exact ⟨_, modify_ok hn _, hr.insert ha hn rfl (by rw [← hnx, Function.update_eq_self]) rfl⟩

/-- Loading a node gives its links. -/
theorem Relinked.load (hr : Relinked h h₁ nx pv) (ha : a ∈ h) :
    ∃ n, Lib.load h₁ (some a) = .ok n ∧ n.next = nx a ∧ n.prev = pv a ∧
      dataOf h a = some n.data := by
  obtain ⟨n, hn⟩ := lookup_of_mem ((hr.mem a).mpr ha)
  refine ⟨n, load_ok hn, ?_, ?_, ?_⟩
  · rw [← hr.next, nextOf, hn]
    rfl
  · rw [← hr.prev, prevOf, hn]
    rfl
  · rw [← hr.data, dataOf, hn]
    rfl

end Assign

/-! ## segments -/

/-- The nodes `xs` lie between `a` and `b`, linked both ways. -/
def Seg (nx pv : Nat → Ptr) (a : Nat) : List Nat → Nat → Prop
  | [], b => nx a = some b ∧ pv b = some a
  | x :: xs, b => (nx a = some x ∧ pv x = some a) ∧ Seg nx pv x xs b

section Seg

variable {nx pv nx' pv' : Nat → Ptr} {a b : Nat}

/-- Links outside a segment do not matter to it. -/
theorem Seg.frame (h : Seg nx pv a xs b) (hnx : ∀ c ∈ a :: xs, nx' c = nx c)
    (hpv : ∀ c ∈ xs ++ [b], pv' c = pv c) : Seg nx' pv' a xs b := by
  induction xs generalizing a with
  | nil => exact ⟨(hnx a (by simp)).trans h.1, (hpv b (by simp)).trans h.2⟩
  | cons x xs ih =>
      refine ⟨⟨(hnx a (by simp)).trans h.1.1, (hpv x (by simp)).trans h.1.2⟩, ih h.2 ?_ ?_⟩
      · exact fun c hc => hnx c (List.mem_cons_of_mem _ hc)
      · exact fun c hc => hpv c (List.mem_cons_of_mem _ hc)

/-- A segment is cut at each of its nodes. -/
theorem seg_append : Seg nx pv a (xs ++ y :: ys) b ↔ Seg nx pv a xs y ∧ Seg nx pv y ys b := by
  induction xs generalizing a with
  | nil => rfl
  | cons x xs ih =>
      rw [List.cons_append, Seg, Seg, ih, ← and_assoc]

/-- The last link of a segment led elsewhere. -/
theorem Seg.retarget (h : Seg nx pv a xs b) (hnodup : (a :: xs).Nodup) (hq : q ∉ xs) :
    Seg (update nx (xs.getLastD a) (some q)) (update pv q (some (xs.getLastD a))) a xs q := by
  induction xs generalizing a with
  | nil => exact ⟨Function.update_self _ _ _, Function.update_self _ _ _⟩
  | cons x xs ih =>
      obtain ⟨ha, hxs⟩ := List.nodup_cons.mp hnodup
      have hal : a ≠ xs.getLastD x := fun e => ha (e ▸ List.getLastD_mem_cons)
      have hxq : x ≠ q := fun e => hq (e ▸ List.mem_cons_self)
      rw [List.getLastD_cons]
      refine ⟨⟨?_, ?_⟩, ih h.2 hxs fun hmem => hq (List.mem_cons_of_mem x hmem)⟩
      · rw [Function.update_of_ne hal, h.1.1]
      · rw [Function.update_of_ne hxq, h.1.2]

end Seg

/-! ## rings -/

/-- The nodes at `xs` form a ring with the sentinel at `d`. -/
structure Ring (h : Heap (RingNode δ)) (d : Nat) (xs : List Nat) : Prop where
  nodup : (d :: xs).Nodup
  mem : ∀ c ∈ d :: xs, c ∈ h
  seg : Seg (nextOf h) (prevOf h) d xs d

section Ring

variable {h h' : Heap (RingNode δ)} {d n : Nat} {xs : List Nat}

/-- A ring stays when no node of it is touched. -/
theorem Ring.frame (hr : Ring h d xs) (hmem : ∀ c ∈ d :: xs, c ∈ h')
    (hnx : ∀ c ∈ d :: xs, nextOf h' c = nextOf h c)
    (hpv : ∀ c ∈ d :: xs, prevOf h' c = prevOf h c) : Ring h' d xs := by
  refine ⟨hr.nodup, hmem, hr.seg.frame hnx fun c hc => hpv c ?_⟩
  simp only [List.mem_append, List.mem_cons, List.not_mem_nil, or_false] at hc ⊢
  exact hc.symm

/-- The first node, or the sentinel when there is none. -/
theorem Ring.next_sentinel (hr : Ring h d xs) : nextOf h d = some (xs.headD d) := by
  cases xs with
  | nil => exact hr.seg.1
  | cons x xs => exact hr.seg.1.1

/-- The last node, or the sentinel when there is none. -/
theorem Ring.prev_sentinel (hr : Ring h d xs) : prevOf h d = some (xs.getLastD d) := by
  obtain rfl | ⟨ys, l, rfl⟩ := List.eq_nil_or_concat' xs
  · exact hr.seg.2
  · have := (seg_append.mp hr.seg).2
    simpa using this.2

/-- The first node of a ring, or its head, is in the heap. -/
theorem Ring.headD_mem (hr : Ring h d xs) : xs.headD d ∈ h := by
  cases xs with
  | nil => exact hr.mem d List.mem_cons_self
  | cons x xs => exact hr.mem x (by simp)

/-- A ring without nodes begins with its head. -/
theorem Ring.headD_eq_iff (hr : Ring h d xs) : xs.headD d = d ↔ xs = [] := by
  have hd := (List.nodup_cons.mp hr.nodup).1
  cases xs with
  | nil => simp
  | cons x xs =>
      simp only [List.headD_cons, List.cons_ne_nil, iff_false]
      rintro rfl
      simp at hd

/-- **Linking a node in behind the sentinel.** -/
theorem Ring.insert (hr : Ring h d xs) (hn : n ∈ h) (hnot : n ∉ d :: xs)
    (hrel : Relinked h h' (update (update (nextOf h) n (some (xs.headD d))) d (some n))
      (update (update (prevOf h) (xs.headD d) (some n)) n (some d))) : Ring h' d (n :: xs) := by
  have hnd : n ≠ d := fun e => hnot (e ▸ List.mem_cons_self)
  have hnx : n ∉ xs := fun hmem => hnot (List.mem_cons_of_mem _ hmem)
  obtain ⟨hd, hxs⟩ := List.nodup_cons.mp hr.nodup
  refine ⟨?_, ?_, ?_⟩
  · simp only [List.nodup_cons, List.mem_cons, not_or]
    exact ⟨⟨hnd.symm, hd⟩, hnx, hxs⟩
  · intro c hc
    rw [hrel.mem]
    simp only [List.mem_cons] at hc
    obtain rfl | rfl | hc := hc
    · exact hr.mem _ List.mem_cons_self
    · exact hn
    · exact hr.mem c (List.mem_cons_of_mem _ hc)
  · rw [hrel.next, hrel.prev]
    cases xs with
    | nil =>
        refine ⟨⟨by simp, by simp⟩, ?_, ?_⟩
        · simp [hnd]
        · simp [hnd.symm]
    | cons x xs =>
        have hxd : x ≠ d := fun e => hd (e ▸ List.mem_cons_self)
        have hxn : x ≠ n := fun e => hnx (e ▸ List.mem_cons_self)
        refine ⟨⟨by simp, by simp⟩, ⟨by simp [hnd], by simp [hxn]⟩, hr.seg.2.frame ?_ ?_⟩
        · intro c hc
          have hcd : c ≠ d := fun e => hd (e ▸ hc)
          have hcn : c ≠ n := fun e => hnx (e ▸ hc)
          simp [hcd, hcn]
        · intro c hc
          have hcx : c ≠ x := by
            rintro rfl
            simp only [List.mem_append, List.mem_singleton] at hc
            exact hc.elim (List.nodup_cons.mp hxs).1 hxd
          have hcn : c ≠ n := by
            rintro rfl
            simp only [List.mem_append, List.mem_singleton] at hc
            exact hc.elim (fun hm => hnx (List.mem_cons_of_mem _ hm)) hnd
          simp [hcx, hcn]

/-- The links of a node behind the sentinel. -/
theorem Ring.links (hr : Ring h d (xs ++ l :: ys)) :
    nextOf h l = some (ys.headD d) ∧ prevOf h l = some (xs.getLastD d) := by
  obtain ⟨hbefore, hbehind⟩ := seg_append.mp hr.seg
  refine ⟨?_, ?_⟩
  · cases ys with
    | nil => exact hbehind.1
    | cons y ys => exact hbehind.1.1
  · obtain rfl | ⟨zs, p, rfl⟩ := List.eq_nil_or_concat' xs
    · exact hbefore.2
    · simpa using (seg_append.mp hbefore).2.2

/-- The neighbours of a node are other nodes of the ring. -/
theorem Ring.neighbours (hr : Ring h d (xs ++ l :: ys)) :
    (xs.getLastD d ∈ h ∧ l ≠ xs.getLastD d) ∧ ys.headD d ∈ h ∧ l ≠ ys.headD d := by
  have hnodup := hr.nodup
  rw [← List.cons_append, List.nodup_append] at hnodup
  obtain ⟨-, hl, hdisj⟩ := hnodup
  have hlast : xs.getLastD d ∈ d :: xs := List.getLastD_mem_cons
  refine ⟨⟨hr.mem _ ?_, fun e => hdisj _ hlast l (by simp) e.symm⟩, ?_⟩
  · simp only [List.mem_cons, List.mem_append] at hlast ⊢
    tauto
  · cases ys with
    | nil => exact ⟨hr.mem d (by simp), fun e => hdisj d (by simp) l (by simp) e.symm⟩
    | cons y ys =>
        refine ⟨hr.mem y (by simp), ?_⟩
        rintro rfl
        simp at hl

/-- **Unlinking a node.** -/
theorem Ring.unlink (hr : Ring h d (xs ++ l :: ys))
    (hrel : Relinked h h' (update (nextOf h) (xs.getLastD d) (some (ys.headD d)))
      (update (prevOf h) (ys.headD d) (some (xs.getLastD d)))) : Ring h' d (xs ++ ys) := by
  have hsub : (d :: (xs ++ ys)).Sublist (d :: (xs ++ l :: ys)) :=
    ((List.sublist_cons_self l ys).append_left xs).cons_cons d
  have hnodup := hr.nodup.sublist hsub
  refine ⟨hnodup, fun c hc => (hrel.mem c).mpr (hr.mem c (hsub.subset hc)), ?_⟩
  rw [hrel.next, hrel.prev]
  obtain ⟨hbefore, hbehind⟩ := seg_append.mp hr.seg
  rw [← List.cons_append, List.nodup_append] at hnodup
  obtain ⟨hxs, hys, hdisj⟩ := hnodup
  cases ys with
  | nil =>
      rw [List.append_nil]
      exact hbefore.retarget hxs (List.nodup_cons.mp hxs).1
  | cons y ys =>
      have hy : y ∉ d :: xs := fun hmem => hdisj y hmem y List.mem_cons_self rfl
      refine seg_append.mpr ⟨hbefore.retarget hxs fun hmem => hy (List.mem_cons_of_mem d hmem), ?_⟩
      refine hbehind.2.frame ?_ ?_
      · intro c hc
        have hcl : c ≠ xs.getLastD d := fun e => hdisj _ List.getLastD_mem_cons c hc e.symm
        exact Function.update_of_ne hcl _ _
      · intro c hc
        have hcy : c ≠ y := by
          rintro rfl
          simp only [List.mem_append, List.mem_singleton] at hc
          exact hc.elim (List.nodup_cons.mp hys).1 fun e => hy (e ▸ List.mem_cons_self)
        exact Function.update_of_ne hcy _ _

/-- Freeing a node outside a ring. -/
theorem Ring.erase (hr : Ring h d xs) (hn : n ∉ d :: xs) : Ring (h.erase n) d xs := by
  have hne : ∀ c ∈ d :: xs, c ≠ n := fun c hc e => hn (e ▸ hc)
  refine hr.frame (fun c hc => AList.mem_erase.mpr ⟨hne c hc, hr.mem c hc⟩) ?_ ?_
  · intro c hc
    rw [nextOf_erase, Function.update_of_ne (hne c hc)]
  · intro c hc
    rw [prevOf_erase, Function.update_of_ne (hne c hc)]

/-- Allocating a node at a fresh address. -/
theorem Ring.alloc (hr : Ring h d xs) (hn : n ∉ h) (c : RingNode δ) :
    Ring (h.insert n c) d xs := by
  have hne : ∀ c ∈ d :: xs, c ≠ n := fun c hc e => hn (e ▸ hr.mem c hc)
  refine hr.frame (fun c hc => (AList.mem_insert h).mpr (.inr (hr.mem c hc))) ?_ ?_
  · intro c hc
    rw [nextOf_insert, Function.update_of_ne (hne c hc)]
  · intro c hc
    rw [prevOf_insert, Function.update_of_ne (hne c hc)]

/-- Relinking nodes outside a ring. -/
theorem Ring.relinked (hr : Ring h d xs) (hrel : Relinked h h' nx pv)
    (hnx : ∀ c ∈ d :: xs, nx c = nextOf h c) (hpv : ∀ c ∈ d :: xs, pv c = prevOf h c) :
    Ring h' d xs :=
  hr.frame (fun c hc => (hrel.mem c).mpr (hr.mem c hc))
    (fun c hc => by rw [hrel.next, hnx c hc]) (fun c hc => by rw [hrel.prev, hpv c hc])

end Ring

end Lib
