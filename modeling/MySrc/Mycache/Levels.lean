import MySrc.Lib.Chain
import Mathlib.Data.List.Perm.Subperm

/-!
# MySrc.Mycache.Levels

The list that `struct/skip_list.c` and `cache/kvcache.c` implement, each in its
own copy of the same code: nodes sorted by priority on up to 16 levels, where
the chain of a level is a part of the chain below it.

The code finds a place by walking right on the highest level, going down one
level, and so on; `update[]` keeps the node it went down from on each level.
`skip_list_add` and `__kvcache_set` walk over equal priorities (`<=`), the
other functions stop before them (`<`).

`Levels mem shead c` is the invariant: the chain of level `l` runs through `c l`.
The specifications say what the functions do to these lists, and that they
touch no node outside them.
-/

namespace MySrc

open Lib
open Function (update)

/-! ## nodes -/

/-- `struct skip_list_node`, `struct cache_node`: `elem` has a slot for each
level the node is on, `none` before it is assigned; `data` stands for the fields
the list does not look at. -/
structure LevelNode (ρ : Type) where
  priority : BitVec 64
  ack1 : BitVec 64
  ack2 : BitVec 64
  elem : List (Option Ptr)
  data : ρ
  deriving Repr, DecidableEq

/-- `struct skip_list_head`, `struct cache_head` -/
structure LevelHead where
  level : Nat
  head : Nat
  deriving Repr, DecidableEq

/-- The memory the nodes live in. -/
abbrev LevelMem (ρ : Type) := Heap (LevelNode ρ)

/-- `p->elem[l]` -/
def loadElem (mem : LevelMem ρ) (p : Ptr) (l : Nat) : Except Fault Ptr := do
  let n ← load mem p
  match n.elem[l]? with
  | none => .error .outOfBounds
  | some none => .error .uninitialised
  | some (some q) => .ok q

/-- `p->elem[l] = q` -/
def storeElem (mem : LevelMem ρ) (p : Ptr) (l : Nat) (q : Ptr) : Except Fault (LevelMem ρ) := do
  let n ← load mem p
  if l < n.elem.length then modify mem (fun n => { n with elem := n.elem.set l (some q) }) p
  else .error .outOfBounds

/-- The array `update`, `none` where it is not assigned. -/
abbrev Update := List (Option Ptr)

/-- `update[l]` -/
def Update.read (u : Update) (l : Nat) : Except Fault Ptr :=
  match u[l]? with
  | none => .error .outOfBounds
  | some none => .error .uninitialised
  | some (some p) => .ok p

/-- `update[l] = p` -/
def Update.write (u : Update) (l : Nat) (p : Ptr) : Except Fault Update :=
  if l < u.length then .ok (u.set l (some p)) else .error .outOfBounds

/-- More steps than a chain without a loop can have. -/
def walkFuel (mem : LevelMem ρ) : Nat := mem.keys.length + 1

/-! ## the functions -/

section Functions

variable (mem : LevelMem ρ)

/-- `while((pnode = phead->elem[slevel]) && go(pnode->priority)) phead = pnode;`
from `phead`: the last `phead` and `pnode`. -/
def walk (go : BitVec 64 → Bool) (slevel : Nat) : Nat → Ptr → Except Fault (Ptr × Ptr)
  | 0, _ => .error .diverge
  | fuel + 1, phead => do
      let pnode ← loadElem mem phead slevel
      if pnode = none then return (phead, pnode)
      let n ← load mem pnode
      if go n.priority then walk go slevel fuel pnode
      else return (phead, pnode)

/-- The loop over the levels: the last `pnode`, and `update`. -/
def descend (go : BitVec 64 → Bool) (slevel : Nat) (phead : Ptr) (update : Update) :
    Except Fault (Ptr × Update) := do
  let (phead, pnode) ← walk mem go slevel (walkFuel mem) phead
  let update ← update.write slevel phead
  match slevel with
  | 0 => return (pnode, update)
  | slevel + 1 => descend go slevel phead update

/-- The loop over the nodes of equal priority, looking for the two hashes. -/
def scan (priority ack1 ack2 : BitVec 64) : Nat → Ptr → Except Fault Ptr
  | 0, _ => .error .diverge
  | fuel + 1, pnode => do
      if pnode = none then return none
      let n ← load mem pnode
      if priority ≠ n.priority then return none
      if ack1 = n.ack1 ∧ ack2 = n.ack2 then return pnode
      let next ← loadElem mem pnode 0
      scan priority ack1 ack2 fuel next

end Functions

/-- The loop that links a new node in, from the level `slevel` down. -/
def linkIn (mem : LevelMem ρ) (update : Update) (snode : Ptr) (slevel : Nat) :
    Except Fault (LevelMem ρ) := do
  let phead ← update.read slevel
  let next ← loadElem mem phead slevel
  let mem ← storeElem mem snode slevel next
  let mem ← storeElem mem phead slevel snode
  match slevel with
  | 0 => return mem
  | slevel + 1 => linkIn mem update snode slevel

/-- `if(slevel > shead->level) { slevel = ++shead->level; update[slevel] = shead->head; }`,
where `slevel` is what `__get_random_level` returned: the new `slevel`, `level` and
`update`. -/
def raiseLevel (shead : LevelHead) (update : Update) (slevel : Nat) :
    Except Fault (Nat × Nat × Update) :=
  if slevel > shead.level then do
    let update ← update.write (shead.level + 1) (some shead.head)
    return (shead.level + 1, shead.level + 1, update)
  else return (slevel, shead.level, update)

/-- `skip_list_add`, `__kvcache_set`: `random` is what `__get_random_level` returns,
`addr` what `malloc` returns and `data` the fields of a new node. -/
def levelsAdd (mem : LevelMem ρ) (shead : LevelHead) (data : ρ) (priority ack1 ack2 : BitVec 64)
    (random : Fin 16) (addr : Nat) : Except Fault (LevelMem ρ × LevelHead × Ptr) := do
  let (pnode, update) ←
    descend mem (· ≤ priority) shead.level (some shead.head) (List.replicate 16 none)
  let found ← scan mem priority ack1 ack2 (walkFuel mem) pnode
  if found ≠ none then return (mem, shead, found)
  let (slevel, level, update) ← raiseLevel shead update random
  let mem := mem.insert addr ⟨priority, ack1, ack2, List.replicate (slevel + 1) none, data⟩
  let mem ← linkIn mem update (some addr) slevel
  return (mem, { shead with level := level }, some addr)

/-- The loop that unlinks `pnode`, from the level `slevel` up, for at most the
given number of levels. -/
def unlinkFrom (mem : LevelMem ρ) (update : Update) (pnode : Ptr) :
    Nat → Nat → Except Fault (LevelMem ρ)
  | 0, _ => .ok mem
  | levels + 1, slevel => do
      let phead ← update.read slevel
      let next ← loadElem mem phead slevel
      if next = pnode then
        let next ← loadElem mem pnode slevel
        let mem ← storeElem mem phead slevel next
        unlinkFrom mem update pnode levels (slevel + 1)
      else return mem

/-- `while(shead->head->elem[tmplevel] == NIL && tmplevel > 0) tmplevel--;` -/
def shrink (mem : LevelMem ρ) (head : Ptr) (tmplevel : Nat) : Except Fault Nat := do
  let p ← loadElem mem head tmplevel
  match tmplevel with
  | 0 => return 0
  | tmplevel + 1 => if p = none then shrink mem head tmplevel else return tmplevel + 1

/-- `skip_list_del`, `__kvcache_del`: the pointer is null when there was nothing
to delete. -/
def levelsDel (mem : LevelMem ρ) (shead : LevelHead) (priority ack1 ack2 : BitVec 64) :
    Except Fault (LevelMem ρ × LevelHead × Ptr) := do
  let (pnode, update) ←
    descend mem (· < priority) shead.level (some shead.head) (List.replicate 16 none)
  let pnode ← scan mem priority ack1 ack2 (walkFuel mem) pnode
  if pnode = none then return (mem, shead, none)
  let mem ← unlinkFrom mem update pnode (shead.level + 1) 0
  let mem ← free mem pnode
  let level ← shrink mem (some shead.head) shead.level
  return (mem, { shead with level := level }, pnode)

/-- `skip_list_search`, `__kvcache_get` (which keep no `update`). -/
def levelsSearch (mem : LevelMem ρ) (shead : LevelHead) (priority ack1 ack2 : BitVec 64) :
    Except Fault Ptr := do
  let (pnode, _) ←
    descend mem (· < priority) shead.level (some shead.head) (List.replicate 16 none)
  scan mem priority ack1 ack2 (walkFuel mem) pnode

/-- The head node that `skip_list_init` and `kvcache_init` allocate; its hashes
and data are never looked at. -/
def headNode (data : ρ) : LevelNode ρ :=
  ⟨BitVec.allOnes 64, 0, 0, List.replicate 16 (some none), data⟩

/-! ## links and entries -/

/-- The part of a node that identifies its entry. -/
structure Entry (ρ : Type) where
  priority : BitVec 64
  ack1 : BitVec 64
  ack2 : BitVec 64
  data : ρ
  deriving Repr, DecidableEq

/-- The entry a node holds. -/
def LevelNode.entry (n : LevelNode ρ) : Entry ρ := ⟨n.priority, n.ack1, n.ack2, n.data⟩

/-- The entry at an address. -/
def entryAt (mem : LevelMem ρ) (a : Nat) : Option (Entry ρ) := (mem.lookup a).map (·.entry)

/-- The link of level `l` at an address, if there is one. -/
def elemAt (mem : LevelMem ρ) (l a : Nat) : Option Ptr :=
  (mem.lookup a).bind fun n => n.elem[l]?.join

/-- The node at `a` has a slot for level `l`. -/
def HasSlot (mem : LevelMem ρ) (a l : Nat) : Prop :=
  ∃ n, mem.lookup a = some n ∧ l < n.elem.length

theorem elemAt_eq_some {mem : LevelMem ρ} :
    elemAt mem l a = some q ↔ ∃ n, mem.lookup a = some n ∧ n.elem[l]? = some (some q) := by
  simp [elemAt, Option.bind_eq_some_iff, Option.join_eq_some_iff]

theorem loadElem_ok {mem : LevelMem ρ} (h : elemAt mem l a = some q) :
    loadElem mem (some a) l = .ok q := by
  obtain ⟨n, hn, hq⟩ := elemAt_eq_some.mp h
  simp [loadElem, load_ok hn, hq]

theorem hasSlot_of_elemAt {mem : LevelMem ρ} (h : elemAt mem l a = some q) : HasSlot mem a l := by
  obtain ⟨n, hn, hq⟩ := elemAt_eq_some.mp h
  exact ⟨n, hn, (List.getElem?_eq_some_iff.mp hq).1⟩

/-- `mem'` has the entries and slots of `mem`, the links `nx`, and differs from
`mem` at most at the addresses in `T`. -/
structure Relinks (mem mem' : LevelMem ρ) (T : Nat → Prop) (nx : Nat → Nat → Option Ptr) :
    Prop where
  frame : ∀ b, ¬ T b → mem'.lookup b = mem.lookup b
  entry : ∀ b, entryAt mem' b = entryAt mem b
  slot : ∀ b l, HasSlot mem' b l ↔ HasSlot mem b l
  elem : elemAt mem' = nx

theorem Relinks.refl (mem : LevelMem ρ) (T : Nat → Prop) : Relinks mem mem T (elemAt mem) :=
  ⟨fun _ _ => rfl, fun _ => rfl, fun _ _ => Iff.rfl, rfl⟩

/-- What is loaded after some pointers were set. -/
theorem Relinks.load {mem mem₁ : LevelMem ρ} (hr : Relinks mem mem₁ T nx) (h : nx l a = some q) :
    loadElem mem₁ (some a) l = .ok q :=
  loadElem_ok (by rw [hr.elem, h])

/-- An assignment to a slot changes one link. -/
theorem Relinks.store {mem mem₁ : LevelMem ρ} (hr : Relinks mem mem₁ T nx) (ha : T a)
    (hslot : HasSlot mem a l) (q : Ptr) :
    ∃ mem₂, storeElem mem₁ (some a) l q = .ok mem₂ ∧
      Relinks mem mem₂ T (update nx l (update (nx l) a (some q))) := by
  obtain ⟨n, hn, hl⟩ := (hr.slot a l).mpr hslot
  refine ⟨mem₁.insert a { n with elem := n.elem.set l (some q) }, ?_, ?_, ?_, ?_, ?_⟩
  · simp [storeElem, load_ok hn, hl, modify_ok hn]
  · intro b hb
    have hba : b ≠ a := fun e => hb (e ▸ ha)
    rw [AList.lookup_insert_ne hba, hr.frame b hb]
  · intro b
    rw [← hr.entry, entryAt, entryAt, lookup_insert_eq_ite]
    split
    · next hb => rw [hb, hn]; rfl
    · rfl
  · intro b l'
    rw [← hr.slot]
    simp only [HasSlot, lookup_insert_eq_ite]
    by_cases hb : b = a
    · subst hb
      simp [hn]
    · simp [hb]
  · rw [← hr.elem]
    funext l' b
    simp only [elemAt, lookup_insert_eq_ite, Function.update_apply]
    by_cases hb : b = a
    · subst hb
      by_cases hl' : l' = l
      · subst hl'
        simp [hl]
      · simp [elemAt, hl', hn, List.getElem?_set_ne (Ne.symm hl')]
    · by_cases hl' : l' = l
      · simp [elemAt, hb, hl']
      · simp [elemAt, hb, hl']

/-! ## the invariant -/

/-- The priority of the node at `a`. -/
def prioAt (mem : LevelMem ρ) (a : Nat) : BitVec 64 := ((entryAt mem a).map (·.priority)).getD 0

/-- The node at `a` carries the priority and the two hashes. -/
def carries (mem : LevelMem ρ) (priority ack1 ack2 : BitVec 64) (a : Nat) : Bool :=
  (entryAt mem a).any fun e => e.priority = priority && e.ack1 = ack1 && e.ack2 = ack2

/-- The chain of level `l` runs from the head node through `c l`: the chains end,
are sorted, each is a part of the one below it, and those above `level` are
empty. -/
structure Levels (mem : LevelMem ρ) (shead : LevelHead) (c : Nat → List Nat) : Prop where
  level_le : shead.level ≤ 15
  chain : ∀ l ≤ 15, Path (elemAt mem l) shead.head (c l) none
  above : ∀ l, shead.level < l → c l = []
  sublist : ∀ l, (c (l + 1)).Sublist (c l)
  nodup : (shead.head :: c 0).Nodup
  sorted : (c 0).Pairwise fun a b => prioAt mem a ≤ prioAt mem b

/-- The links of level `l` lead from the head node to `a`. -/
def Reaches (mem : LevelMem ρ) (shead : LevelHead) (l a : Nat) : Prop :=
  ∃ xs, Path (elemAt mem l) shead.head xs (some a)

/-- There is an entry with the priority and the hashes. -/
def Present (mem : LevelMem ρ) (shead : LevelHead) (priority ack1 ack2 : BitVec 64) : Prop :=
  ∃ a, Reaches mem shead 0 a ∧ carries mem priority ack1 ack2 a = true

/-- The first entry of the priority, on level 0, has these hashes. -/
def FirstCarries (mem : LevelMem ρ) (shead : LevelHead) (priority ack1 ack2 : BitVec 64) : Prop :=
  ∃ xs v, Path (elemAt mem 0) shead.head xs (some v) ∧
    carries mem priority ack1 ack2 v = true ∧ ∀ a ∈ xs, prioAt mem a ≠ priority

/-- What is before the place that a walk finds on a level. -/
def before (mem : LevelMem ρ) (go : BitVec 64 → Bool) (xs : List Nat) : List Nat :=
  xs.filter fun x => go (prioAt mem x)

/-- What is behind it. -/
def behind (mem : LevelMem ρ) (go : BitVec 64 → Bool) (xs : List Nat) : List Nat :=
  xs.filter fun x => !go (prioAt mem x)

/-! ## walks and scans -/

section Walk

variable {mem : LevelMem ρ}

theorem prioAt_of_lookup (hn : mem.lookup a = some n) : prioAt mem a = n.priority := by
  simp [prioAt, entryAt, hn, LevelNode.entry]

/-- A walk stops before the first node that does not satisfy `go`. -/
theorem walk_eq (go : BitVec 64 → Bool) (hp : Path (elemAt mem l) a xs none)
    (hf : xs.length < fuel) :
    walk mem go l fuel (some a) =
      .ok (some ((xs.takeWhile fun x => go (prioAt mem x)).getLastD a),
        (xs.dropWhile fun x => go (prioAt mem x)).head?) := by
  induction xs generalizing a fuel with
  | nil =>
      cases fuel with
      | zero => simp at hf
      | succ fuel => simp [walk, loadElem_ok hp]
  | cons x xs ih =>
      cases fuel with
      | zero => simp at hf
      | succ fuel =>
          obtain ⟨q, hq⟩ := hp.2.exists_link List.mem_cons_self
          obtain ⟨n, hn, -⟩ := elemAt_eq_some.mp hq
          rw [walk, loadElem_ok hp.1, ok_bind, if_neg (by simp), load_ok hn, ok_bind]
          by_cases hgo : go n.priority = true
          · rw [if_pos hgo, ih hp.2 (by simpa using hf)]
            simp only [List.takeWhile_cons, List.dropWhile_cons, prioAt_of_lookup hn, hgo, if_true,
              List.getLastD_cons]
          · simp [hgo, prioAt_of_lookup hn]

theorem carries_of_lookup (hn : mem.lookup a = some n) :
    carries mem priority ack1 ack2 a =
      (n.priority = priority && n.ack1 = ack1 && n.ack2 = ack2) := by
  simp [carries, entryAt, hn, LevelNode.entry]

theorem prioAt_of_carries (hc : carries mem priority ack1 ack2 a = true) :
    prioAt mem a = priority := by
  cases hn : mem.lookup a with
  | none => simp [carries, entryAt, hn] at hc
  | some n =>
      rw [carries_of_lookup hn] at hc
      rw [prioAt_of_lookup hn]
      simp only [Bool.and_eq_true, decide_eq_true_eq] at hc
      exact hc.1.1

/-- The scan returns the first node that carries the hashes. -/
theorem scan_eq (hp : Path (elemAt mem 0) a ys none)
    (hcut : Cut (fun x => prioAt mem x == priority) ys) (hf : ys.length < fuel) :
    scan mem priority ack1 ack2 fuel ys.head? =
      .ok (ys.find? (carries mem priority ack1 ack2)) := by
  induction ys generalizing a fuel with
  | nil =>
      cases fuel with
      | zero => simp at hf
      | succ fuel => simp [scan]
  | cons y ys ih =>
      cases fuel with
      | zero => simp at hf
      | succ fuel =>
          obtain ⟨hhead, htail⟩ := List.pairwise_cons.mp hcut
          dsimp only at hhead
          obtain ⟨q, hq⟩ := hp.2.exists_link List.mem_cons_self
          obtain ⟨n, hn, -⟩ := elemAt_eq_some.mp hq
          have hnext := hp.2.first
          rw [List.head?_cons, scan, if_neg (by simp), load_ok hn, ok_bind]
          by_cases hpr : priority = n.priority
          · subst hpr
            by_cases hack : ack1 = n.ack1 ∧ ack2 = n.ack2
            · obtain ⟨rfl, rfl⟩ := hack
              simp [carries_of_lookup hn]
            · have hno : carries mem n.priority ack1 ack2 y = false := by
                rw [carries_of_lookup hn]
                simp only [not_and] at hack
                simp only [decide_true, Bool.true_and, Bool.and_eq_false_iff,
                  decide_eq_false_iff_not]
                by_cases h1 : n.ack1 = ack1
                · exact .inr fun h2 => hack h1.symm h2.symm
                · exact .inl h1
              rw [if_neg (by simp), if_neg hack, loadElem_ok hnext, ok_bind,
                ih hp.2 htail (by simpa using hf), List.find?_cons, hno]
          · -- behind a node of another priority there is none of this one
            have hnone : ∀ x ∈ y :: ys, carries mem priority ack1 ack2 x ≠ true := by
              intro x hx hc
              have hx' := prioAt_of_carries hc
              obtain rfl | hx := List.mem_cons.mp hx
              · rw [prioAt_of_lookup hn] at hx'
                exact hpr hx'.symm
              · have hy := hhead x hx (by simpa using hx')
                rw [beq_iff_eq, prioAt_of_lookup hn] at hy
                exact hpr hy.symm
            rw [if_pos hpr, List.find?_eq_none.mpr hnone]
            rfl

theorem lt_mono (p : BitVec 64) (x y : BitVec 64) (hxy : x ≤ y) (hy : decide (y < p) = true) :
    decide (x < p) = true := by
  simp only [decide_eq_true_eq, BitVec.lt_def, BitVec.le_def] at *
  omega

theorem le_mono (p : BitVec 64) (x y : BitVec 64) (hxy : x ≤ y) (hy : decide (y ≤ p) = true) :
    decide (x ≤ p) = true := by
  simp only [decide_eq_true_eq, BitVec.le_def] at *
  omega

/-- The predecessor on a level is a node of that level, or the head node. -/
theorem pred_mem (mem : LevelMem ρ) (go : BitVec 64 → Bool) (d : Nat) (xs : List Nat) :
    (before mem go xs).getLastD d ∈ d :: xs :=
  List.cons_subset_cons _ List.filter_sublist.subset List.getLastD_mem_cons

end Walk

/-! ## finding the place -/

section Levels

variable {mem : LevelMem ρ} {shead : LevelHead} {c : Nat → List Nat} (h : Levels mem shead c)
include h

/-- A higher level has some of the nodes of a lower one, in the same order. -/
theorem Levels.sublist_of_le (hle : k ≤ l) : (c l).Sublist (c k) := by
  induction l, hle using Nat.le_induction with
  | base => exact List.Sublist.refl _
  | succ l _ ih => exact (h.sublist l).trans ih

theorem Levels.sublist_zero (l : Nat) : (c l).Sublist (c 0) := h.sublist_of_le (Nat.zero_le l)

/-- No node is twice on a level. -/
theorem Levels.nodup_level (l : Nat) : (shead.head :: c l).Nodup :=
  h.nodup.sublist (List.Sublist.cons_cons _ (h.sublist_zero l))

/-- Every node of a chain, and the head node, has a link on its level. -/
theorem Levels.exists_elem (hl : l ≤ 15) (ha : a ∈ shead.head :: c l) :
    ∃ q, elemAt mem l a = some q := (h.chain l hl).exists_link ha

/-- The nodes of the lowest level, and the head, are in the memory. -/
theorem Levels.lookup (ha : a ∈ shead.head :: c 0) : ∃ n, mem.lookup a = some n := by
  obtain ⟨q, hq⟩ := h.exists_elem (Nat.zero_le _) ha
  obtain ⟨n, hn, -⟩ := elemAt_eq_some.mp hq
  exact ⟨n, hn⟩

/-- The fuel is enough for every chain. -/
theorem Levels.length_lt (l : Nat) : (c l).length < walkFuel mem := by
  have hkeys : c 0 ⊆ mem.keys := by
    intro a ha
    obtain ⟨n, hn⟩ := h.lookup (List.mem_cons_of_mem _ ha)
    exact AList.mem_keys.mp (mem_of_lookup hn)
  have hle := (List.Nodup.subperm (List.nodup_cons.mp h.nodup).2 hkeys).length_le
  have := (h.sublist_zero l).length_le
  simp only [walkFuel]
  omega

/-- The nodes that satisfy a condition on small priorities come first. -/
theorem Levels.cut {go : BitVec 64 → Bool} (hgo : ∀ x y, x ≤ y → go y = true → go x = true)
    (l : Nat) : Cut (fun x => go (prioAt mem x)) (c l) :=
  Cut.sublist (h.sorted.imp fun hle => hgo _ _ hle) (h.sublist_zero l)

section Place

variable {go : BitVec 64 → Bool} (hgo : ∀ x y, x ≤ y → go y = true → go x = true)
include hgo

/-- A search cuts a level in two. -/
theorem Levels.before_append_behind (l : Nat) :
    before mem go (c l) ++ behind mem go (c l) = c l :=
  (h.cut hgo l).append

/-- From a node before the place, a walk finds the place. -/
theorem Levels.walk_eq (hl : l ≤ 15) (ha : a ∈ shead.head :: before mem go (c l)) :
    walk mem go l (walkFuel mem) (some a) =
      .ok (some ((before mem go (c l)).getLastD shead.head), (behind mem go (c l)).head?) := by
  have hp := h.chain l hl
  rw [← h.before_append_behind hgo l] at hp
  obtain ⟨zs, hzs, hsub, hlast⟩ := hp.from_mem ha
  have hlen : (zs ++ behind mem go (c l)).length < walkFuel mem := by
    have := h.length_lt l
    rw [← h.before_append_behind hgo l, List.length_append] at this
    have := hsub.length_le
    rw [List.length_append]
    omega
  have hgozs : ∀ x ∈ zs, go (prioAt mem x) = true := fun x hx =>
    (List.mem_filter.mp (hsub.subset hx)).2
  have hcut : Cut (fun x => go (prioAt mem x)) (behind mem go (c l)) :=
    (h.cut hgo l).sublist List.filter_sublist
  have hnone : (behind mem go (c l)).filter (fun x => go (prioAt mem x)) = [] := by
    simp [behind]
  have hall : (behind mem go (c l)).filter (fun x => !go (prioAt mem x)) = behind mem go (c l) := by
    simp [behind]
  rw [MySrc.walk_eq go hzs hlen, List.takeWhile_append_of_pos hgozs,
    List.dropWhile_append_of_pos hgozs, hcut.takeWhile, hcut.dropWhile, hnone, hall,
    List.append_nil, hlast]

/-- `descend` finds the place on every level, and keeps the predecessors. -/
theorem Levels.descend_eq (hl : l ≤ 15) (ha : a ∈ shead.head :: before mem go (c l)) (u : Update)
    (hu : u.length = 16) :
    ∃ u', descend mem go l (some a) u = .ok ((behind mem go (c 0)).head?, u') ∧ u'.length = 16 ∧
      (∀ k ≤ l, u'[k]? = some (some (some ((before mem go (c k)).getLastD shead.head)))) ∧
      ∀ k > l, u'[k]? = u[k]? := by
  induction l generalizing a u with
  | zero =>
      refine ⟨u.set 0 (some (some ((before mem go (c 0)).getLastD shead.head))), ?_, by simp [hu],
        ?_,
        ?_⟩
      · simp [descend, h.walk_eq hgo hl ha, Update.write, hu]
      · intro k hk
        obtain rfl : k = 0 := by omega
        rw [List.getElem?_set_self (by omega)]
      · intro k hk
        rw [List.getElem?_set_ne (by omega)]
  | succ l ih =>
      have hpred : (before mem go (c (l + 1))).getLastD shead.head ∈
          shead.head :: before mem go (c l) := by
        have hsub : (before mem go (c (l + 1))).Sublist (before mem go (c l)) :=
          (h.sublist l).filter _
        obtain heq | hmem := List.mem_cons.mp (List.getLastD_mem_cons
          (l := before mem go (c (l + 1))) (a := shead.head))
        · rw [heq]
          exact List.mem_cons_self
        · exact List.mem_cons_of_mem _ (hsub.subset hmem)
      obtain ⟨u', hd, hlen, hset, hkeep⟩ := ih (by omega) hpred
        (u.set (l + 1) (some (some ((before mem go (c (l + 1))).getLastD shead.head))))
        (by simp [hu])
      refine ⟨u', ?_, hlen, ?_, ?_⟩
      · rw [descend, h.walk_eq hgo hl ha, ok_bind]
        simp only [Update.write, hu, show l + 1 < 16 by omega, if_true, ok_bind]
        exact hd
      · intro k hk
        by_cases hkl : k ≤ l
        · exact hset k hkl
        · obtain rfl : k = l + 1 := by omega
          rw [hkeep _ (by omega), List.getElem?_set_self (by omega)]
      · intro k hk
        rw [hkeep k (by omega), List.getElem?_set_ne (by omega)]

/-- The link of the predecessor leads behind the place. -/
theorem Levels.elemAt_pred (hl : l ≤ 15) :
    elemAt mem l ((before mem go (c l)).getLastD shead.head) =
      some (behind mem go (c l)).head? := by
  have hp := h.chain l hl
  rw [← h.before_append_behind hgo l] at hp
  exact (path_append.mp hp).2.first

end Place

/-! ## searching -/

/-- The part of `descend` and `scan` that the deletion and the search share. -/
theorem Levels.find_eq (priority ack1 ack2 : BitVec 64) :
    ∃ u, descend mem (· < priority) shead.level (some shead.head) (List.replicate 16 none) =
        .ok ((behind mem (· < priority) (c 0)).head?, u) ∧
      (∀ k ≤ shead.level,
        u[k]? = some (some (some ((before mem (· < priority) (c k)).getLastD shead.head)))) ∧
      scan mem priority ack1 ack2 (walkFuel mem) (behind mem (· < priority) (c 0)).head? =
        .ok ((c 0).find? (carries mem priority ack1 ack2)) := by
  obtain ⟨u, hd, -, hu, -⟩ := h.descend_eq (lt_mono priority) h.level_le List.mem_cons_self
    (List.replicate 16 none) (by simp)
  refine ⟨u, hd, hu, ?_⟩
  have hp := h.chain 0 (Nat.zero_le _)
  rw [← h.before_append_behind (lt_mono priority) 0] at hp
  have hlen : (behind mem (· < priority) (c 0)).length < walkFuel mem :=
    Nat.lt_of_le_of_lt (List.length_filter_le _ _) (h.length_lt 0)
  have hcut : Cut (fun x => prioAt mem x == priority) (behind mem (· < priority) (c 0)) := by
    refine List.Pairwise.imp_of_mem ?_ (h.sorted.sublist List.filter_sublist)
    intro a b ha _ hle hb
    have ha' := (List.mem_filter.mp ha).2
    simp only [beq_iff_eq, Bool.not_eq_true', decide_eq_false_iff_not, BitVec.lt_def,
      BitVec.le_def] at *
    subst hb
    exact BitVec.eq_of_toNat_eq (by omega)
  rw [scan_eq (path_append.mp hp).2 hcut hlen]
  nth_rewrite 2 [← h.before_append_behind (lt_mono priority) 0]
  rw [List.find?_append]
  have hnone : (before mem (· < priority) (c 0)).find? (carries mem priority ack1 ack2) = none := by
    rw [List.find?_eq_none]
    intro x hx hc
    have hx' := (List.mem_filter.mp hx).2
    rw [prioAt_of_carries hc] at hx'
    simp at hx'
  rw [hnone, Option.none_or]

/-- **Searching** finds the first node that carries the priority and the hashes. -/
theorem Levels.search_eq (priority ack1 ack2 : BitVec 64) :
    levelsSearch mem shead priority ack1 ack2 =
      .ok ((c 0).find? (carries mem priority ack1 ack2)) := by
  obtain ⟨u, hd, -, hs⟩ := h.find_eq priority ack1 ack2
  rw [levelsSearch, hd, ok_bind]
  exact hs

/-- The invariant looks only at the links and the priorities of its own nodes. -/
theorem Levels.congr {mem' : LevelMem ρ}
    (helem : ∀ l, ∀ a ∈ shead.head :: c 0, elemAt mem' l a = elemAt mem l a)
    (hprio : ∀ a ∈ c 0, prioAt mem' a = prioAt mem a) : Levels mem' shead c := by
  refine ⟨h.level_le, fun l hl => ?_, h.above, h.sublist, h.nodup, ?_⟩
  · exact (h.chain l hl).frame fun a ha =>
      helem l a (List.cons_subset_cons _ (h.sublist_zero l).subset ha)
  · exact h.sorted.imp_of_mem fun ha hb hle => by rw [hprio _ ha, hprio _ hb]; exact hle

section Data

variable {n : LevelNode ρ} (hn : mem.lookup a = some n) (d : ρ)

omit h in
/-- New data in a node changes its entry only. -/
theorem entryAt_insert_data (n : LevelNode ρ) (a : Nat) (d : ρ) :
    entryAt (mem.insert a { n with data := d }) =
      update (entryAt mem) a (some { n.entry with data := d }) := by
  funext b
  rw [entryAt, lookup_insert_eq_ite, Function.update_apply]
  split <;> rfl

include hn

omit h in
/-- New data in a node does not change its key. -/
theorem carries_insert_data (priority ack1 ack2 : BitVec 64) :
    carries (mem.insert a { n with data := d }) priority ack1 ack2 =
      carries mem priority ack1 ack2 := by
  funext b
  rw [carries, entryAt_insert_data, Function.update_apply]
  split
  · next hb => rw [hb, carries, entryAt, hn]; rfl
  · rfl

/-- Writing the other fields of a node keeps the invariant. -/
theorem Levels.insert_data : Levels (mem.insert a { n with data := d }) shead c := by
  refine h.congr (fun l b _ => ?_) fun b _ => ?_
  · rw [elemAt, elemAt, lookup_insert_eq_ite]
    split
    · next hb => rw [hb, hn]; rfl
    · rfl
  · rw [prioAt, prioAt, entryAt_insert_data, Function.update_apply]
    split
    · next hb => rw [hb, entryAt, hn]; rfl
    · rfl

end Data

/-! ## what the links say about the chains -/

section Links

variable {priority ack1 ack2 : BitVec 64}

/-- The nodes that the pointers of a level lead to are those of its chain. -/
theorem Levels.reaches_iff (hl : l < 16) : Reaches mem shead l a ↔ a ∈ c l :=
  (h.chain l (by omega)).reaches_iff

/-- A key is present when a node of the lowest level carries it. -/
theorem Levels.present_iff :
    Present mem shead priority ack1 ack2 ↔
      ∃ v, (c 0).find? (carries mem priority ack1 ack2) = some v := by
  rw [← Option.isSome_iff_exists, List.find?_isSome]
  simp only [Present, h.reaches_iff (by omega : 0 < 16)]

/-- The condition says that the node found is the one behind the place. -/
theorem Levels.firstCarries_iff :
    FirstCarries mem shead priority ack1 ack2 ↔
      ∃ v, (c 0).find? (carries mem priority ack1 ack2) = some v ∧
        (behind mem (· < priority) (c 0)).head? = some v := by
  constructor
  · rintro ⟨xs, v, hpath, hv, hxs⟩
    obtain ⟨zs, hc⟩ := (h.chain 0 (Nat.zero_le _)).prefix_of hpath
    have hprio := prioAt_of_carries hv
    have hsorted := h.sorted
    rw [hc] at hsorted
    refine ⟨v, ?_, ?_⟩
    · rw [hc, List.find?_append, List.find?_cons_of_pos hv]
      have hnone : xs.find? (carries mem priority ack1 ack2) = none := by
        rw [List.find?_eq_none]
        exact fun a ha hca => hxs a ha (prioAt_of_carries hca)
      rw [hnone, Option.none_or]
    · -- what is in front of it has a smaller priority
      have hlt : xs.filter (fun x => !decide (prioAt mem x < priority)) = [] := by
        rw [List.filter_eq_nil_iff]
        intro a ha
        have hle := (List.pairwise_append.mp hsorted).2.2 a ha v List.mem_cons_self
        have hne := hxs a ha
        rw [hprio] at hle
        simp only [Bool.not_eq_true', decide_eq_false_iff_not, not_not, BitVec.lt_def,
          BitVec.le_def] at hle ⊢
        exact Nat.lt_of_le_of_ne hle fun e => hne (BitVec.eq_of_toNat_eq e)
      simp [behind, hc, hlt, hprio]
  · rintro ⟨v, hfind, hfirst⟩
    obtain ⟨zs, hzs⟩ := List.head?_eq_some_iff.mp hfirst
    have hp := h.chain 0 (Nat.zero_le _)
    rw [← h.before_append_behind (lt_mono priority) 0, hzs] at hp
    refine ⟨_, v, hp.to_mem, List.find?_some hfind, fun a ha heq => ?_⟩
    have := (List.mem_filter.mp ha).2
    simp [heq] at this

end Links

end Levels

/-- A list with nothing but its head node. -/
theorem levels_headNode {mem : LevelMem ρ} (hhead : mem.lookup head = some (headNode data)) :
    Levels mem ⟨0, head⟩ fun _ => [] := by
  refine ⟨Nat.zero_le _, fun l hl => ?_, fun _ _ => rfl, fun _ => List.Sublist.refl _, by simp,
    List.Pairwise.nil⟩
  have hslot : (headNode data).elem[l]? = some (some none) := by
    rw [headNode, List.getElem?_replicate, if_pos (by omega)]
  exact elemAt_eq_some.mpr ⟨_, hhead, hslot⟩

/-! ## adding -/

/-- The links of a level with `n` linked in behind `p`. -/
def linked (nx : Nat → Option Ptr) (p n : Nat) : Nat → Option Ptr :=
  update (update nx n (nx p)) p (some (some n))

/-- Linking in on one level. -/
theorem Relinks.link {mem mem₁ : LevelMem ρ} (hr : Relinks mem mem₁ T nx) (hq : nx l p = some q)
    (hn : HasSlot mem n l) (hTn : T n) (hTp : T p) :
    ∃ mem₂ mem₃, storeElem mem₁ (some n) l q = .ok mem₂ ∧
      storeElem mem₂ (some p) l (some n) = .ok mem₃ ∧
      Relinks mem mem₃ T (update nx l (linked (nx l) p n)) := by
  have hslot : HasSlot mem p l :=
    (hr.slot _ _).mp (hasSlot_of_elemAt (by rw [hr.elem]; exact hq))
  obtain ⟨mem₂, h₂, r₂⟩ := hr.store hTn hn q
  obtain ⟨mem₃, h₃, r₃⟩ := r₂.store hTp hslot (some n)
  rw [Function.update_self, Function.update_idem, ← hq] at r₃
  exact ⟨mem₂, mem₃, h₂, h₃, r₃⟩

/-- The loop links `n` in behind its predecessor on every level it comes to. -/
theorem linkIn_eq {mem mem₁ : LevelMem ρ} {p : Nat → Nat} (hr : Relinks mem mem₁ T nx)
    (hu : ∀ l ≤ L, u[l]? = some (some (some (p l)))) (hp : ∀ l ≤ L, ∃ q, nx l (p l) = some q)
    (hn : ∀ l ≤ L, HasSlot mem n l) (hTn : T n) (hTp : ∀ l ≤ L, T (p l)) :
    ∃ mem', linkIn mem₁ u (some n) L = .ok mem' ∧
      Relinks mem mem' T fun l => if l ≤ L then linked (nx l) (p l) n else nx l := by
  induction L generalizing mem₁ nx with
  | zero =>
      obtain ⟨q, hq⟩ := hp 0 (Nat.le_refl _)
      obtain ⟨mem₂, mem₃, h₂, h₃, r₃⟩ := hr.link hq (hn 0 (Nat.le_refl _)) hTn
        (hTp 0 (Nat.le_refl _))
      have hnx : (fun l => if l ≤ 0 then linked (nx l) (p l) n else nx l) =
          update nx 0 (linked (nx 0) (p 0) n) := by
        funext l
        by_cases hl : l = 0
        · subst hl
          rw [if_pos (Nat.le_refl _), Function.update_self]
        · rw [if_neg (by omega), Function.update_of_ne hl]
      refine ⟨mem₃, ?_, hnx ▸ r₃⟩
      rw [linkIn, Update.read, hu 0 (Nat.le_refl _)]
      simp only [ok_bind, hr.load hq, h₂, h₃, pure_eq_ok]
  | succ L ih =>
      obtain ⟨q, hq⟩ := hp (L + 1) (Nat.le_refl _)
      obtain ⟨mem₂, mem₃, h₂, h₃, r₃⟩ := hr.link hq (hn (L + 1) (Nat.le_refl _)) hTn
        (hTp (L + 1) (Nat.le_refl _))
      -- the levels below are as they were
      have hlow : ∀ l ≤ L, update nx (L + 1) (linked (nx (L + 1)) (p (L + 1)) n) l = nx l :=
        fun l hl => Function.update_of_ne (by omega) _ _
      obtain ⟨mem₄, h₄, r₄⟩ := ih r₃ (fun l hl => hu l (by omega))
        (fun l hl => by rw [hlow l hl]; exact hp l (by omega)) (fun l hl => hn l (by omega))
        (fun l hl => hTp l (by omega))
      have hnx : (fun l => if l ≤ L + 1 then linked (nx l) (p l) n else nx l) =
          fun l => if l ≤ L then
              linked (update nx (L + 1) (linked (nx (L + 1)) (p (L + 1)) n) l) (p l) n
            else update nx (L + 1) (linked (nx (L + 1)) (p (L + 1)) n) l := by
        funext l
        by_cases hl : l ≤ L
        · rw [if_pos hl, if_pos (by omega), hlow l hl]
        · rw [if_neg hl]
          by_cases hl' : l = L + 1
          · subst hl'
            rw [if_pos (Nat.le_refl _), Function.update_self]
          · rw [if_neg (by omega), Function.update_of_ne hl']
      refine ⟨mem₄, ?_, hnx ▸ r₄⟩
      rw [linkIn, Update.read, hu (L + 1) (Nat.le_refl _)]
      simp only [ok_bind, hr.load hq, h₂, h₃]
      exact h₄

/-- The chains with `n` added on the levels up to `L`. -/
def addedTo (mem : LevelMem ρ) (c : Nat → List Nat) (priority : BitVec 64) (n L l : Nat) :
    List Nat :=
  if l ≤ L then before mem (· ≤ priority) (c l) ++ n :: behind mem (· ≤ priority) (c l) else c l

/-- The level a new node goes up to. -/
def topLevel (level : Nat) (random : Fin 16) : Nat :=
  if random.val > level then level + 1 else random.val

section Add

variable {mem : LevelMem ρ} {shead : LevelHead} {c : Nat → List Nat} (h : Levels mem shead c)
  {priority ack1 ack2 : BitVec 64} {data : ρ} {n L : Nat}
include h

theorem Levels.notMem_of_notMem (hn : n ∉ mem) (l : Nat) : n ∉ shead.head :: c l := by
  intro hmem
  have hmem0 := List.cons_subset_cons _ (h.sublist_zero l).subset hmem
  obtain ⟨m, hm⟩ := h.lookup hmem0
  exact hn (mem_of_lookup hm)

/-- The new node is behind all that have its priority or a smaller one, and in
front of the rest. -/
theorem Levels.added_sorted {mem' : LevelMem ρ} (hn : n ∉ mem)
    (hentry : entryAt mem' = update (entryAt mem) n (some ⟨priority, ack1, ack2, data⟩)) :
    (addedTo mem c priority n L 0).Pairwise fun a b => prioAt mem' a ≤ prioAt mem' b := by
  have hnew : prioAt mem' n = priority := by simp [prioAt, hentry]
  have hold : ∀ a ∈ c 0, prioAt mem' a = prioAt mem a := by
    intro a ha
    have hne : a ≠ n := fun e => h.notMem_of_notMem hn 0 (e ▸ List.mem_cons_of_mem _ ha)
    rw [prioAt, prioAt, hentry, Function.update_of_ne hne]
  have hsorted : (before mem (· ≤ priority) (c 0) ++ behind mem (· ≤ priority) (c 0)).Pairwise
      fun a b => prioAt mem' a ≤ prioAt mem' b := by
    rw [h.before_append_behind (le_mono priority)]
    exact h.sorted.imp_of_mem fun ha hb hle => by rw [hold _ ha, hold _ hb]; exact hle
  obtain ⟨hbefore, hbehind, hcross⟩ := List.pairwise_append.mp hsorted
  rw [addedTo, if_pos (Nat.zero_le _), List.pairwise_append, List.pairwise_cons]
  refine ⟨hbefore, ⟨fun b hb => ?_, hbehind⟩, fun a ha b hb => ?_⟩
  · obtain ⟨hb, hgt⟩ := List.mem_filter.mp hb
    rw [hnew, hold b hb]
    simp only [Bool.not_eq_true', decide_eq_false_iff_not, BitVec.le_def] at hgt ⊢
    omega
  · obtain rfl | hb := List.mem_cons.mp hb
    · obtain ⟨ha, hle⟩ := List.mem_filter.mp ha
      rw [hnew, hold a ha]
      exact of_decide_eq_true hle
    · exact hcross a ha b hb

/-- Linking a node in on the levels up to `L` keeps the invariant. -/
theorem Levels.added {mem' : LevelMem ρ} (hn : n ∉ mem) (hL : L ≤ level') (hle : level' ≤ 15)
    (hlevel : shead.level ≤ level')
    (helem : elemAt mem' = fun l => if l ≤ L then linked (elemAt mem l)
      ((before mem (· ≤ priority) (c l)).getLastD shead.head) n else elemAt mem l)
    (hentry : entryAt mem' = update (entryAt mem) n (some ⟨priority, ack1, ack2, data⟩)) :
    Levels mem' { shead with level := level' } (addedTo mem c priority n L) := by
  have hcut := h.before_append_behind (le_mono priority)
  have hnodup : ∀ l, (shead.head :: addedTo mem c priority n L l).Nodup := by
    intro l
    have hnl := h.notMem_of_notMem hn l
    have hnd := h.nodup_level l
    by_cases hl : l ≤ L
    · rw [addedTo, if_pos hl]
      rw [← hcut l] at hnl hnd
      have hperm : (shead.head :: (before mem (· ≤ priority) (c l) ++ n ::
          behind mem (· ≤ priority) (c l))).Perm (n :: shead.head ::
            (before mem (· ≤ priority) (c l) ++ behind mem (· ≤ priority) (c l))) :=
        (List.perm_middle.cons _).trans (List.Perm.swap _ _ _)
      rw [hperm.nodup_iff, List.nodup_cons]
      exact ⟨hnl, hnd⟩
    · rw [addedTo, if_neg hl]
      exact hnd
  refine ⟨hle, fun l hl => ?_, fun l hl => ?_, fun l => ?_, hnodup 0, h.added_sorted hn hentry⟩
  · rw [helem, addedTo]
    dsimp only
    by_cases hlL : l ≤ L
    · rw [if_pos hlL, if_pos hlL]
      have hp := h.chain l hl
      have hnl := h.notMem_of_notMem hn l
      have hnd := h.nodup_level l
      rw [← hcut l] at hp hnl hnd
      exact hp.insert hnd hnl rfl
    · rw [if_neg hlL, if_neg hlL]
      exact h.chain l hl
  · dsimp only at hl
    rw [addedTo, if_neg (by omega), h.above l (by omega)]
  · have hsub : ∀ go, (before mem go (c (l + 1))).Sublist (before mem go (c l)) ∧
        (behind mem go (c (l + 1))).Sublist (behind mem go (c l)) :=
      fun go => ⟨(h.sublist l).filter _, (h.sublist l).filter _⟩
    rw [addedTo, addedTo]
    by_cases hl : l + 1 ≤ L
    · rw [if_pos hl, if_pos (by omega)]
      exact (hsub _).1.append ((hsub _).2.cons_cons n)
    · rw [if_neg hl]
      by_cases hl' : l ≤ L
      · rw [if_pos hl']
        refine (h.sublist l).trans ?_
        nth_rewrite 1 [← hcut l]
        exact (List.Sublist.refl _).append (List.sublist_cons_self _ _)
      · rw [if_neg hl']
        exact h.sublist l

/-- The search of `levelsAdd` for a node with the same hashes starts behind all
nodes of the priority, so it finds none. -/
theorem Levels.scan_behind :
    scan mem priority ack1 ack2 (walkFuel mem) (behind mem (· ≤ priority) (c 0)).head? =
      .ok none := by
  have hpr : ∀ x ∈ behind mem (· ≤ priority) (c 0), prioAt mem x ≠ priority := by
    intro x hx heq
    have := (List.mem_filter.mp hx).2
    simp [heq] at this
  have hp := h.chain 0 (Nat.zero_le _)
  rw [← h.before_append_behind (le_mono priority) 0] at hp
  have hlen : (behind mem (· ≤ priority) (c 0)).length < walkFuel mem :=
    Nat.lt_of_le_of_lt (List.length_filter_le _ _) (h.length_lt 0)
  have hcut : Cut (fun x => prioAt mem x == priority) (behind mem (· ≤ priority) (c 0)) := by
    refine List.Pairwise.imp_of_mem ?_ (h.sorted.sublist List.filter_sublist)
    intro a b _ hb _ heq
    exact absurd (by simpa using heq) (hpr b hb)
  rw [scan_eq (path_append.mp hp).2 hcut hlen, List.find?_eq_none.mpr]
  exact fun x hx hc => hpr x hx (prioAt_of_carries hc)

/-- The predecessors are known on every level the new node goes up to. -/
theorem Levels.raiseLevel_eq {u : Update} (hlen : u.length = 16)
    (hu : ∀ k ≤ shead.level,
      u[k]? = some (some (some ((before mem (· ≤ priority) (c k)).getLastD shead.head))))
    (random : Fin 16) :
    ∃ u', raiseLevel shead u random =
      .ok (topLevel shead.level random, max shead.level (topLevel shead.level random), u') ∧
      ∀ k ≤ topLevel shead.level random,
        u'[k]? = some (some (some ((before mem (· ≤ priority) (c k)).getLastD shead.head))) := by
  by_cases hr : random.val > shead.level
  · have htop : topLevel shead.level random = shead.level + 1 := if_pos hr
    have := random.isLt
    rw [raiseLevel, htop, Nat.max_eq_right (by omega), if_pos hr]
    refine ⟨u.set (shead.level + 1) (some (some shead.head)), ?_, fun k hk => ?_⟩
    · rw [Update.write, if_pos (by omega)]
      rfl
    · by_cases hk' : k ≤ shead.level
      · rw [List.getElem?_set_ne (by omega), hu k hk']
      · obtain rfl : k = shead.level + 1 := by omega
        rw [List.getElem?_set_self (by omega), h.above _ (by omega)]
        rfl
  · have htop : topLevel shead.level random = random.val := if_neg hr
    rw [raiseLevel, htop, Nat.max_eq_left (by omega), if_neg hr]
    exact ⟨u, rfl, fun k hk => hu k (by omega)⟩

/-- **Adding** always links a new node in, behind those of its priority. -/
theorem Levels.add_eq (hn : n ∉ mem) (data : ρ) (priority ack1 ack2 : BitVec 64)
    (random : Fin 16) :
    ∃ mem', levelsAdd mem shead data priority ack1 ack2 random n =
        .ok (mem', { shead with level := max shead.level (topLevel shead.level random) },
          some n) ∧
      Levels mem' { shead with level := max shead.level (topLevel shead.level random) }
        (addedTo mem c priority n (topLevel shead.level random)) ∧
      entryAt mem' = update (entryAt mem) n (some ⟨priority, ack1, ack2, data⟩) ∧
      ∀ b, b ∉ n :: shead.head :: c 0 → mem'.lookup b = mem.lookup b := by
  obtain ⟨u, hd, hlen, hu, -⟩ := h.descend_eq (le_mono priority) h.level_le List.mem_cons_self
    (List.replicate 16 none) (by simp)
  obtain ⟨u', hplace, hu'⟩ := h.raiseLevel_eq hlen hu random
  have htop : max shead.level (topLevel shead.level random) ≤ 15 := by
    have := h.level_le
    have := random.isLt
    rw [topLevel]
    split <;> omega
  generalize topLevel shead.level random = L at hplace hu' htop
  -- the new node, with no link yet
  let node : LevelNode ρ := ⟨priority, ack1, ack2, List.replicate (L + 1) none, data⟩
  have hfresh : mem.lookup n = none := AList.lookup_eq_none.mpr hn
  have helem : elemAt (mem.insert n node) = elemAt mem := by
    funext l b
    simp only [elemAt, lookup_insert_eq_ite]
    by_cases hb : b = n
    · subst hb
      simp only [if_true, hfresh, Option.bind_some, Option.bind_none, node, List.getElem?_replicate]
      split <;> rfl
    · rw [if_neg hb]
  have hslot : ∀ l ≤ L, HasSlot (mem.insert n node) n l := fun l hl =>
    ⟨node, AList.lookup_insert mem, by simp only [node, List.length_replicate]; omega⟩
  have hpred : ∀ l ≤ L, (before mem (· ≤ priority) (c l)).getLastD shead.head ∈
      shead.head :: c l := fun l _ => pred_mem mem _ _ _
  obtain ⟨mem', hlink, hrel⟩ := linkIn_eq (Relinks.refl (mem.insert n node)
    (fun b => b ∈ n :: shead.head :: c 0)) hu'
    (fun l hl => by rw [helem]; exact h.exists_elem (by omega) (hpred l hl)) hslot
    List.mem_cons_self
    (fun l hl => List.mem_cons_of_mem _
      (List.cons_subset_cons _ (h.sublist_zero l).subset (hpred l hl)))
  have hentry : entryAt mem' = update (entryAt mem) n (some ⟨priority, ack1, ack2, data⟩) := by
    funext b
    rw [hrel.entry, entryAt, lookup_insert_eq_ite, Function.update_apply]
    split <;> rfl
  rw [helem] at hrel
  refine ⟨mem', ?_, h.added hn (Nat.le_max_right _ _) htop (Nat.le_max_left _ _) hrel.elem hentry,
    hentry, fun b hb => ?_⟩
  · simp only [levelsAdd, hd, h.scan_behind, hplace, ok_bind, ne_eq, not_true_eq_false, if_false]
    rw [show linkIn (mem.insert n ⟨priority, ack1, ack2, List.replicate (L + 1) none, data⟩) u'
      (some n) L = .ok mem' from hlink]
    rfl
  · have hbn : b ≠ n := fun e => hb (e ▸ List.mem_cons_self)
    rw [hrel.frame b hb, AList.lookup_insert_ne hbn]

omit h in
/-- What carries a triple after a node is added. -/
theorem carries_of_entryAt {mem' : LevelMem ρ}
    (hentry : entryAt mem' = update (entryAt mem) n (some ⟨priority, ack1, ack2, data⟩))
    (p a1 a2 : BitVec 64) (a : Nat) :
    carries mem' p a1 a2 a =
      if a = n then decide (priority = p ∧ ack1 = a1 ∧ ack2 = a2) else carries mem p a1 a2 a := by
  rw [carries, hentry, Function.update_apply]
  split
  · simp [Bool.and_assoc]
  · rfl

/-- A new node comes behind those that carry the same triple. -/
theorem Levels.filter_addedTo {mem' : LevelMem ρ} (hn : n ∉ mem)
    (hentry : entryAt mem' = update (entryAt mem) n (some ⟨priority, ack1, ack2, data⟩))
    (p a1 a2 : BitVec 64) :
    (addedTo mem c priority n L 0).filter (carries mem' p a1 a2) =
      (c 0).filter (carries mem p a1 a2) ++
        if priority = p ∧ ack1 = a1 ∧ ack2 = a2 then [n] else [] := by
  have hold : ∀ xs : List Nat, xs.Sublist (c 0) →
      xs.filter (carries mem' p a1 a2) = xs.filter (carries mem p a1 a2) := by
    intro xs hxs
    refine List.filter_congr fun a ha => ?_
    have hne : a ≠ n := fun e =>
      h.notMem_of_notMem hn 0 (e ▸ List.mem_cons_of_mem _ (hxs.subset ha))
    rw [carries_of_entryAt hentry, if_neg hne]
  have hsplit : (c 0).filter (carries mem p a1 a2) =
      (before mem (· ≤ priority) (c 0)).filter (carries mem p a1 a2) ++
        (behind mem (· ≤ priority) (c 0)).filter (carries mem p a1 a2) := by
    rw [← List.filter_append, h.before_append_behind (le_mono priority)]
  have hbefore := hold (before mem (· ≤ priority) (c 0)) List.filter_sublist
  have hbehind := hold (behind mem (· ≤ priority) (c 0)) List.filter_sublist
  rw [addedTo, if_pos (Nat.zero_le _), List.filter_append, List.filter_cons, hbefore, hbehind,
    carries_of_entryAt hentry, if_pos rfl, hsplit]
  by_cases heq : priority = p ∧ ack1 = a1 ∧ ack2 = a2
  · obtain ⟨rfl, rfl, rfl⟩ := heq
    -- behind the place no node has this priority
    have hnone :
        (behind mem (· ≤ priority) (c 0)).filter (carries mem priority ack1 ack2) = [] := by
      rw [List.filter_eq_nil_iff]
      intro x hx hc
      have := (List.mem_filter.mp hx).2
      simp [prioAt_of_carries hc] at this
    simp [hnone]
  · simp [heq]

end Add

/-! ## deleting -/

/-- The loop unlinks `v` on the levels it is on, as long as they follow one
another. -/
theorem unlinkFrom_eq {mem mem₁ : LevelMem ρ} {p : Nat → Nat} {c : Nat → List Nat}
    (hr : Relinks mem mem₁ T nx) (hsub : ∀ i j, i ≤ j → v ∈ c j → v ∈ c i)
    (hu : ∀ i, l ≤ i → i < l + k → u[i]? = some (some (some (p i))))
    (hp : ∀ i, l ≤ i → i < l + k → ∃ q, nx i (p i) = some q ∧ (q = some v ↔ v ∈ c i))
    (hv : ∀ i, l ≤ i → i < l + k → v ∈ c i → ∃ q, nx i v = some q)
    (hT : ∀ i, l ≤ i → i < l + k → T (p i)) :
    ∃ mem', unlinkFrom mem₁ u (some v) k l = .ok mem' ∧
      Relinks mem mem' T fun i =>
        if l ≤ i ∧ i < l + k ∧ v ∈ c i then update (nx i) (p i) (nx i v) else nx i := by
  induction k generalizing mem₁ nx l with
  | zero =>
      refine ⟨mem₁, rfl, ?_⟩
      convert hr using 2
      exact if_neg (by omega)
  | succ k ih =>
      obtain ⟨q, hq, hon⟩ := hp l (Nat.le_refl _) (by omega)
      rw [unlinkFrom, Update.read, hu l (Nat.le_refl _) (by omega)]
      simp only [ok_bind, hr.load hq]
      by_cases hvl : v ∈ c l
      · obtain ⟨q', hq'⟩ := hv l (Nat.le_refl _) (by omega) hvl
        have hslot : HasSlot mem (p l) l :=
          (hr.slot _ _).mp (hasSlot_of_elemAt (by rw [hr.elem]; exact hq))
        obtain ⟨mem₂, h₂, r₂⟩ := hr.store (hT l (Nat.le_refl _) (by omega)) hslot q'
        have hhigh : ∀ i, l + 1 ≤ i → update nx l (update (nx l) (p l) (some q')) i = nx i :=
          fun i hi => Function.update_of_ne (by omega) _ _
        obtain ⟨mem₃, h₃, r₃⟩ := ih (l := l + 1) r₂ (fun i h1 h2 => hu i (by omega) (by omega))
          (fun i h1 h2 => by rw [hhigh i h1]; exact hp i (by omega) (by omega))
          (fun i h1 h2 hvi => by rw [hhigh i h1]; exact hv i (by omega) (by omega) hvi)
          (fun i h1 h2 => hT i (by omega) (by omega))
        refine ⟨mem₃, by rw [if_pos (hon.mpr hvl), hr.load hq', ok_bind, h₂, ok_bind, h₃], ?_⟩
        convert r₃ using 1
        funext i
        by_cases hi : l + 1 ≤ i
        · have hiff : (l ≤ i ∧ i < l + (k + 1) ∧ v ∈ c i) ↔
              (l + 1 ≤ i ∧ i < l + 1 + k ∧ v ∈ c i) := by
            constructor
            · exact fun ⟨_, h2, h3⟩ => ⟨hi, by omega, h3⟩
            · exact fun ⟨_, h2, h3⟩ => ⟨by omega, by omega, h3⟩
          rw [hhigh i hi]
          exact if_congr hiff rfl rfl
        · by_cases hil : i = l
          · subst hil
            rw [if_pos ⟨Nat.le_refl _, by omega, hvl⟩, if_neg (by omega), Function.update_self, hq']
          · rw [if_neg (by omega), if_neg (by omega), Function.update_of_ne hil]
      · refine ⟨mem₁, by rw [if_neg (fun e => hvl (hon.mp e))]; rfl, ?_⟩
        convert hr using 2
        exact if_neg fun hi => hvl (hsub _ _ hi.1 hi.2.2)

/-- The new level is not below the highest level that is in use. -/
theorem shrink_eq {mem : LevelMem ρ} {q : Nat → Ptr} (hq : ∀ l ≤ t, elemAt mem l d = some (q l)) :
    ∃ t' ≤ t, shrink mem (some d) t = .ok t' ∧ ∀ l, t' < l → l ≤ t → q l = none := by
  induction t with
  | zero =>
      refine ⟨0, Nat.le_refl _, ?_, fun l h1 h2 => by omega⟩
      rw [shrink, loadElem_ok (hq 0 (Nat.le_refl _))]
      rfl
  | succ t ih =>
      rw [shrink, loadElem_ok (hq (t + 1) (Nat.le_refl _)), ok_bind]
      dsimp only
      by_cases hn : q (t + 1) = none
      · obtain ⟨t', ht', hs, hnone⟩ := ih fun l hl => hq l (by omega)
        refine ⟨t', by omega, by rw [if_pos hn, hs], fun l h1 h2 => ?_⟩
        by_cases hl : l = t + 1
        · rw [hl, hn]
        · exact hnone l h1 (by omega)
      · exact ⟨t + 1, Nat.le_refl _, by rw [if_neg hn]; rfl, fun l h1 h2 => by omega⟩

/-- The first node of a level is the first of a higher one that has it. -/
theorem head?_of_sublist (hsub : List.Sublist xs (v :: ys)) (hv : v ∉ ys) (hmem : v ∈ xs) :
    xs.head? = some v := by
  cases hsub with
  | cons _ hsub => exact absurd (hsub.subset hmem) hv
  | cons_cons _ _ => rfl

section Erase

variable (mem : LevelMem ρ) (v : Nat)

/-- The pointers without a node that was freed. -/
theorem elemAt_erase (l : Nat) : elemAt (mem.erase v) l = update (elemAt mem l) v none := by
  funext b
  rw [elemAt, lookup_erase_eq_ite, Function.update_apply]
  split <;> rfl

/-- The entries without a node that was freed. -/
theorem entryAt_erase : entryAt (mem.erase v) = update (entryAt mem) v none := by
  funext b
  rw [entryAt, lookup_erase_eq_ite, Function.update_apply]
  split <;> rfl

end Erase

section Del

variable {mem : LevelMem ρ} {shead : LevelHead} {c : Nat → List Nat} (h : Levels mem shead c)
  {priority ack1 ack2 : BitVec 64} {v : Nat}
include h

/-- When `v` is the first node that is not below the priority, it is that on
every level it is on. -/
theorem Levels.head?_behind_iff (hfirst : (behind mem (· < priority) (c 0)).head? = some v)
    (l : Nat) : (behind mem (· < priority) (c l)).head? = some v ↔ v ∈ c l := by
  constructor
  · intro hl
    exact List.filter_sublist.subset (List.mem_of_mem_head? hl)
  · intro hv
    obtain ⟨ys, hys⟩ := List.head?_eq_some_iff.mp hfirst
    have hsub : (behind mem (· < priority) (c l)).Sublist (v :: ys) := by
      rw [← hys]
      exact (h.sublist_zero l).filter _
    have hnodup : (v :: ys).Nodup := by
      rw [← hys]
      exact (List.nodup_cons.mp h.nodup).2.sublist List.filter_sublist
    refine head?_of_sublist hsub (List.nodup_cons.mp hnodup).1 (List.mem_filter.mpr ⟨hv, ?_⟩)
    have hmem : v ∈ behind mem (· < priority) (c 0) := by rw [hys]; exact List.mem_cons_self
    exact (List.mem_filter.mp hmem).2

/-- A chain with its first node behind the place unlinked. -/
theorem Levels.unlinked_chain (hfirst : (behind mem (· < priority) (c 0)).head? = some v)
    (hl : l ≤ 15) (hv : v ∈ c l) :
    Path (update (elemAt mem l) ((before mem (· < priority) (c l)).getLastD shead.head)
      (elemAt mem l v)) shead.head ((c l).erase v) none := by
  obtain ⟨ys, hys⟩ := List.head?_eq_some_iff.mp ((h.head?_behind_iff hfirst l).mpr hv)
  have hp := h.chain l hl
  have hnd := h.nodup_level l
  have hcut := h.before_append_behind (lt_mono priority) l
  rw [hys] at hcut
  generalize before mem (· < priority) (c l) = xs at hcut ⊢
  rw [← hcut] at hp hnd ⊢
  have hdis := (List.nodup_append.mp (List.nodup_cons.mp hnd).2).2.2
  have hnot : v ∉ xs := fun hb => hdis v hb v List.mem_cons_self rfl
  rw [List.erase_append_right _ hnot, List.erase_cons_head]
  exact hp.unlink hnd rfl

section Deleted

variable {mem₁ : LevelMem ρ} (hfirst : (behind mem (· < priority) (c 0)).head? = some v)
  (helem : elemAt mem₁ = fun l => if v ∈ c l then update (elemAt mem l)
    ((before mem (· < priority) (c l)).getLastD shead.head) (elemAt mem l v) else elemAt mem l)
include hfirst

/-- A node that was taken out is on no level. -/
theorem Levels.notMem_erase (l : Nat) : v ∉ shead.head :: (c l).erase v := by
  rw [List.mem_cons, not_or]
  refine ⟨?_, (List.nodup_cons.mp (h.nodup_level l)).2.not_mem_erase⟩
  rintro rfl
  exact (List.nodup_cons.mp h.nodup).1 ((h.head?_behind_iff hfirst 0).mp hfirst)

include helem

/-- The chains after unlinking and freeing. -/
theorem Levels.deleted_chain (hl : l ≤ 15) :
    Path (elemAt (mem₁.erase v) l) shead.head ((c l).erase v) none := by
  have hchain : Path (elemAt mem₁ l) shead.head ((c l).erase v) none := by
    rw [helem]
    dsimp only
    by_cases hv : v ∈ c l
    · rw [if_pos hv]
      exact h.unlinked_chain hfirst hl hv
    · rw [if_neg hv, List.erase_of_not_mem hv]
      exact h.chain l hl
  refine hchain.frame fun b hb => ?_
  have hbv : b ≠ v := fun e => h.notMem_erase hfirst l (e ▸ hb)
  rw [elemAt_erase, Function.update_of_ne hbv]

/-- Unlinking and freeing a node keeps the invariant. -/
theorem Levels.deleted (hlevel : level' ≤ 15) (habove : ∀ l, level' < l → (c l).erase v = [])
    (hentry : ∀ b, entryAt mem₁ b = entryAt mem b) :
    Levels (mem₁.erase v) { shead with level := level' } fun l => (c l).erase v := by
  refine ⟨hlevel, fun l hl => h.deleted_chain hfirst helem hl, habove, fun l => ?_, ?_, ?_⟩
  · exact (h.sublist l).erase v
  · exact h.nodup.sublist (List.Sublist.cons_cons _ List.erase_sublist)
  · refine List.Pairwise.imp_of_mem ?_ (h.sorted.sublist List.erase_sublist)
    have hne : ∀ a ∈ (c 0).erase v, a ≠ v := by
      rintro a ha rfl
      exact h.notMem_erase hfirst 0 (List.mem_cons_of_mem _ ha)
    intro a b ha hb hle
    rw [prioAt, prioAt, entryAt_erase, Function.update_of_ne (hne a ha),
      Function.update_of_ne (hne b hb), hentry, hentry]
    exact hle

end Deleted

/-- **Deleting** the first node of its priority unlinks it on every level. -/
theorem Levels.del_first (hfind : (c 0).find? (carries mem priority ack1 ack2) = some v)
    (hfirst : (behind mem (· < priority) (c 0)).head? = some v) :
    ∃ mem' level', levelsDel mem shead priority ack1 ack2 =
        .ok (mem', { shead with level := level' }, some v) ∧
      Levels mem' { shead with level := level' } (fun l => (c l).erase v) ∧
      entryAt mem' = update (entryAt mem) v none ∧
      ∀ b, b ∉ shead.head :: c 0 → mem'.lookup b = mem.lookup b := by
  have hvc : v ∈ c 0 := (h.head?_behind_iff hfirst 0).mp hfirst
  have hle := h.level_le
  obtain ⟨u, hd, hu, hs⟩ := h.find_eq priority ack1 ack2
  have hsub : ∀ i j, i ≤ j → v ∈ c j → v ∈ c i := fun i j hij hv => (h.sublist_of_le hij).subset hv
  obtain ⟨mem₁, hunlink, hrel⟩ := unlinkFrom_eq (l := 0) (k := shead.level + 1)
    (Relinks.refl mem fun b => b ∈ shead.head :: c 0) hsub (fun i _ hi => hu i (by omega))
    (fun i _ hi => ⟨_, h.elemAt_pred (lt_mono priority) (by omega), h.head?_behind_iff hfirst i⟩)
    (fun i _ hi hvi => h.exists_elem (by omega) (List.mem_cons_of_mem _ hvi))
    (fun i _ _ => List.cons_subset_cons _ (h.sublist_zero i).subset (pred_mem mem _ _ _))
  have helem : elemAt mem₁ = fun l => if v ∈ c l then update (elemAt mem l)
      ((before mem (· < priority) (c l)).getLastD shead.head) (elemAt mem l v)
      else elemAt mem l := by
    rw [hrel.elem]
    funext i
    refine if_congr ⟨fun hi => hi.2.2, fun hi => ⟨Nat.zero_le _, ?_, hi⟩⟩ rfl rfl
    by_contra hlt
    rw [h.above i (by omega)] at hi
    simp at hi
  have hfree : free mem₁ (some v) = .ok (mem₁.erase v) := by
    obtain ⟨n, hn⟩ := h.lookup (List.mem_cons_of_mem _ hvc)
    have hv := hrel.entry v
    rw [entryAt, entryAt, hn] at hv
    refine free_ok (AList.lookup_isSome.mp ?_)
    cases hl : mem₁.lookup v with
    | none => simp [hl] at hv
    | some m => rfl
  obtain ⟨level', hlevel', hshrink, hnone⟩ := shrink_eq (q := fun l => ((c l).erase v).head?)
    fun l hl => (h.deleted_chain hfirst helem (Nat.le_trans hl hle)).first
  refine ⟨mem₁.erase v, level', ?_, ?_, ?_, fun b hb => ?_⟩
  · simp only [levelsDel, hd, hs, hfind, hunlink, hfree, hshrink, ok_bind, reduceCtorEq, if_false,
      pure_eq_ok]
  · refine h.deleted hfirst helem (by omega) (fun l hl => ?_) hrel.entry
    by_cases hl' : l ≤ shead.level
    · exact List.head?_eq_none_iff.mp (hnone l hl hl')
    · rw [h.above l (by omega), List.erase_nil]
  · rw [entryAt_erase]
    funext b
    rw [Function.update_apply, Function.update_apply, hrel.entry]
  · have hbv : b ≠ v := fun e => hb (e ▸ List.mem_cons_of_mem _ hvc)
    rw [AList.lookup_erase_ne hbv, hrel.frame b hb]

/-- What carries a triple after a node is deleted. -/
theorem Levels.filter_erase {mem' : LevelMem ρ}
    (hentry : entryAt mem' = update (entryAt mem) v none)
    (p a1 a2 : BitVec 64) :
    ((c 0).erase v).filter (carries mem' p a1 a2) =
      ((c 0).filter (carries mem p a1 a2)).erase v := by
  have hnodup := (List.nodup_cons.mp h.nodup).2
  rw [hnodup.erase_eq_filter, (hnodup.filter _).erase_eq_filter, List.filter_filter,
    List.filter_filter]
  refine List.filter_congr fun a _ => ?_
  by_cases hav : a = v
  · simp [hav]
  · rw [carries, carries, hentry, Function.update_of_ne hav, Bool.and_comm]

/-- **Deleting** a node that is not the first of its priority frees it and leaves
every link to it as it was. -/
theorem Levels.del_later (hfind : (c 0).find? (carries mem priority ack1 ack2) = some v)
    (hlater : (behind mem (· < priority) (c 0)).head? ≠ some v) :
    ∃ level', levelsDel mem shead priority ack1 ack2 =
      .ok (mem.erase v, { shead with level := level' }, some v) := by
  have hvc : v ∈ c 0 := List.mem_of_find?_eq_some hfind
  have hle := h.level_le
  obtain ⟨u, hd, hu, hs⟩ := h.find_eq priority ack1 ack2
  have hunlink : unlinkFrom mem u (some v) (shead.level + 1) 0 = .ok mem := by
    rw [unlinkFrom, Update.read, hu 0 (Nat.zero_le _)]
    simp only [ok_bind, loadElem_ok (h.elemAt_pred (lt_mono priority) (Nat.zero_le 15)),
      if_neg hlater, pure_eq_ok]
  have hfree : free mem (some v) = .ok (mem.erase v) := by
    obtain ⟨n, hn⟩ := h.lookup (List.mem_cons_of_mem _ hvc)
    exact free_ok (mem_of_lookup hn)
  have hhead : shead.head ≠ v := by
    rintro rfl
    exact (List.nodup_cons.mp h.nodup).1 hvc
  have hlinks : ∀ l ≤ shead.level, elemAt (mem.erase v) l shead.head = some (c l).head? := by
    intro l hl
    rw [elemAt_erase, Function.update_of_ne hhead]
    exact (h.chain l (by omega)).first
  obtain ⟨level', -, hshrink, -⟩ := shrink_eq hlinks
  refine ⟨level', ?_⟩
  simp only [levelsDel, hd, hs, hfind, hunlink, hfree, hshrink, ok_bind, reduceCtorEq, if_false,
    pure_eq_ok]

/-- **Deleting** what is not there changes nothing. -/
theorem Levels.del_absent (hfind : (c 0).find? (carries mem priority ack1 ack2) = none) :
    levelsDel mem shead priority ack1 ack2 = .ok (mem, shead, none) := by
  obtain ⟨u, hd, hu, hs⟩ := h.find_eq priority ack1 ack2
  simp only [levelsDel, hd, hs, hfind, ok_bind, if_true, pure_eq_ok]

end Del

end MySrc
