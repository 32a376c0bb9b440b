import MySrc.Lib.Run

/-!
# MySrc.Mycache.Rbtree

What the memory pool uses of `mycache/src/struct/rbtree.c`: `rb_link_node` with
`rb_insert_color`, and `rb_next`.

The code reaches a node's parent through a pointer in the node; here a place in a
tree is the path from it up to the root, and `rb_insert_color` consumes that path.
It keeps the order of the nodes (`rbInsertColor_toList`) and, as the root of a tree
is black, always finds the grandparent it asks for (`rbInsertColor_ok`).
-/

namespace MySrc

open Lib

/-! ## trees and paths -/

/-- `RB_RED`, `RB_BLACK` -/
inductive RbColor
  | red
  | black
  deriving Repr, DecidableEq

/-- The tree below a node. -/
inductive RbTree (α : Type)
  | nil
  | node (color : RbColor) (left : RbTree α) (val : α) (right : RbTree α)
  deriving Repr, DecidableEq

/-- The side of its parent a node is on. -/
inductive RbSide
  | left
  | right
  deriving Repr, DecidableEq

/-- A node on the way up: the side we come from, its color and value, and its
other child. -/
structure RbParent (α : Type) where
  side : RbSide
  color : RbColor
  val : α
  sibling : RbTree α
  deriving Repr, DecidableEq

/-- The nodes in order. -/
def RbTree.toList : RbTree α → List α
  | .nil => []
  | .node _ l a r => l.toList ++ a :: r.toList

/-- `rb_is_red`, where a null pointer is not red. -/
def RbTree.isRed : RbTree α → Bool
  | .node .red _ _ _ => true
  | _ => false

/-- `rb_set_black` -/
def RbTree.setBlack : RbTree α → RbTree α
  | .nil => .nil
  | .node _ l a r => .node .black l a r

/-- A parent with its child put back. -/
def RbParent.plug (p : RbParent α) (color : RbColor) (t : RbTree α) : RbTree α :=
  match p.side with
  | .left => .node color t p.val p.sibling
  | .right => .node color p.sibling p.val t

/-- The whole tree around a place. -/
def rbPlug : List (RbParent α) → RbTree α → RbTree α
  | [], t => t
  | p :: path, t => rbPlug path (p.plug p.color t)

/-! ## the functions -/

/-- The rotations of `rb_insert_color` below a grandparent whose other child is
black: the new parent is black and has the old grandparent, red, as a child. -/
def rbRotate (parent gparent : RbParent α) (node : RbTree α) : Except Fault (RbTree α) :=
  match gparent.side, parent.side, node with
  | .left, .left, node =>
      .ok (.node .black node parent.val (.node .red parent.sibling gparent.val gparent.sibling))
  | .left, .right, .node c l a r =>
      -- __rb_rotate_left(parent, root), then the two have changed places
      .ok (.node .black (.node c parent.sibling parent.val l) a
        (.node .red r gparent.val gparent.sibling))
  | .right, .right, node =>
      .ok (.node .black (.node .red gparent.sibling gparent.val parent.sibling) parent.val node)
  | .right, .left, .node c l a r =>
      .ok (.node .black (.node .red gparent.sibling gparent.val l) a
        (.node c r parent.val parent.sibling))
  | _, _, .nil => .error .nullDeref

/-- `rb_insert_color` for the red `node` below `path`: the whole tree. -/
def rbInsertColor : List (RbParent α) → RbTree α → Except Fault (RbTree α)
  | [], node => .ok node.setBlack
  | [parent], node =>
      if parent.color = .red then .error .nullDeref
      else .ok (rbPlug [parent] node).setBlack
  | parent :: gparent :: path, node =>
      if parent.color = .red then
        if gparent.sibling.isRed then
          rbInsertColor path ({ gparent with sibling := gparent.sibling.setBlack }.plug .red
            (parent.plug .black node))
        else do
          let t ← rbRotate parent gparent node
          return (rbPlug path t).setBlack
      else .ok (rbPlug (parent :: gparent :: path) node).setBlack

/-- `rb_link_node` and `rb_insert_color` at an empty place. -/
def rbInsert (path : List (RbParent α)) (a : α) : Except Fault (RbTree α) :=
  rbInsertColor path (.node .red .nil a .nil)

/-- `rb_next`: the next node in order; the fields of a node that is not in the tree
are not assigned. -/
def rbNext [DecidableEq α] (t : RbTree α) (a : α) : Except Fault (Option α) :=
  if a ∈ t.toList then .ok (t.toList.dropWhile (· ≠ a)).tail.head? else .error .uninitialised

/-! ## the order of the nodes -/

/-- What is in front of a place, and behind it. -/
def rbBefore : List (RbParent α) → List α
  | [] => []
  | p :: path => rbBefore path ++ if p.side = .right then p.sibling.toList ++ [p.val] else []

def rbBehind : List (RbParent α) → List α
  | [] => []
  | p :: path => (if p.side = .left then p.val :: p.sibling.toList else []) ++ rbBehind path

@[simp] theorem RbTree.toList_setBlack (t : RbTree α) : t.setBlack.toList = t.toList := by
  cases t <;> rfl

theorem RbParent.toList_plug (p : RbParent α) (color : RbColor) (t : RbTree α) :
    (p.plug color t).toList = (if p.side = .right then p.sibling.toList ++ [p.val] else []) ++
      t.toList ++ if p.side = .left then p.val :: p.sibling.toList else [] := by
  rw [RbParent.plug]
  cases hs : p.side <;> simp [RbTree.toList]

theorem toList_rbPlug (path : List (RbParent α)) (t : RbTree α) :
    (rbPlug path t).toList = rbBefore path ++ t.toList ++ rbBehind path := by
  induction path generalizing t with
  | nil => simp [rbPlug, rbBefore, rbBehind]
  | cons p path ih => simp [rbPlug, ih, RbParent.toList_plug, rbBefore, rbBehind]

theorem rbRotate_toList {parent gparent : RbParent α} (h : rbRotate parent gparent node = .ok t) :
    t.toList = (rbPlug [parent, gparent] node).toList := by
  simp only [rbPlug, RbParent.toList_plug]
  unfold rbRotate at h
  split at h <;> cases h <;> simp_all [RbTree.toList]

/-- `rb_insert_color` keeps the order of the nodes. -/
theorem rbInsertColor_toList {path : List (RbParent α)} (h : rbInsertColor path node = .ok t) :
    t.toList = rbBefore path ++ node.toList ++ rbBehind path := by
  fun_induction rbInsertColor path node with
  | case1 node =>
      cases h
      simp [rbBefore, rbBehind]
  | case2 parent node hred => cases h
  | case3 parent node hred =>
      cases h
      rw [RbTree.toList_setBlack, toList_rbPlug]
  | case4 parent gparent path node hred huncle ih =>
      rw [ih h]
      simp [RbParent.toList_plug, rbBefore, rbBehind]
  | case5 parent gparent path node hred huncle =>
      obtain ⟨t', ht', h⟩ := bind_eq_ok.mp h
      cases h
      rw [RbTree.toList_setBlack, toList_rbPlug, rbRotate_toList ht', toList_rbPlug]
      simp [rbBefore, rbBehind]
  | case6 parent gparent path node hred =>
      cases h
      rw [RbTree.toList_setBlack, toList_rbPlug]

theorem rbInsert_toList {path : List (RbParent α)} (h : rbInsert path a = .ok t) :
    t.toList = rbBefore path ++ a :: rbBehind path := by
  rw [rbInsertColor_toList h]
  simp [RbTree.toList]

/-! ## the color of the root -/

/-- The last node on the way up, the root, is black. -/
def RootBlack (path : List (RbParent α)) : Prop := ∀ p, path.getLast? = some p → p.color = .black

theorem RootBlack.tail {path : List (RbParent α)} (h : RootBlack (p :: path)) : RootBlack path := by
  cases path with
  | nil => simp [RootBlack]
  | cons q path => simpa [RootBlack, List.getLast?_cons_cons] using h

theorem RbTree.isRed_setBlack (t : RbTree α) : t.setBlack.isRed = false := by
  cases t <;> rfl

theorem rbRotate_ok (parent gparent : RbParent α) (hnode : node ≠ .nil) :
    ∃ t, rbRotate parent gparent node = .ok t := by
  cases node with
  | nil => contradiction
  | node c l a r =>
      unfold rbRotate
      cases gparent.side <;> cases parent.side <;> exact ⟨_, rfl⟩

/-- Below a black root `rb_insert_color` succeeds, and leaves a black root. -/
theorem rbInsertColor_ok {path : List (RbParent α)} (hroot : RootBlack path)
    (hnode : node ≠ .nil) : ∃ t, rbInsertColor path node = .ok t ∧ t.isRed = false := by
  fun_induction rbInsertColor path node with
  | case1 node => exact ⟨_, rfl, node.isRed_setBlack⟩
  | case2 parent node hred =>
      have := hroot parent rfl
      rw [hred] at this
      cases this
  | case3 parent node hred => exact ⟨_, rfl, RbTree.isRed_setBlack _⟩
  | case4 parent gparent path node hred huncle ih =>
      refine ih hroot.tail.tail ?_
      rw [RbParent.plug]
      split <;> simp
  | case5 parent gparent path node hred huncle =>
      obtain ⟨t, ht⟩ := rbRotate_ok parent gparent hnode
      exact ⟨_, by rw [ht]; rfl, RbTree.isRed_setBlack _⟩
  | case6 parent gparent path node hred => exact ⟨_, rfl, RbTree.isRed_setBlack _⟩

theorem rbInsert_ok {path : List (RbParent α)} (hroot : RootBlack path) (a : α) :
    ∃ t, rbInsert path a = .ok t ∧ t.isRed = false :=
  rbInsertColor_ok hroot (by simp)

end MySrc
