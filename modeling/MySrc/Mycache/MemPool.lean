import MySrc.Lib.Heap
import MySrc.Mycache.Bitmap
import MySrc.Mycache.Rbtree

/-!
# MySrc.Mycache.MemPool

`mycache/src/mem/minipwr_mem_pool.c`: memory in units of 8 bytes, from nodes with a
body of 4096 bytes and a bitmap of the units in use.  A node is named by the address
of its body (`preal`); the nodes are in a red-black tree, by this address.

`minipwr_palloc` tries four places: where something was freed last, behind the last
allocation, the start of the next node, and a new node.  Only at the first place
does it look into the bitmap, and there it may look behind its end.
-/

namespace MySrc

open Lib

/-! ## the pool -/

/-- `MEM_NODE_BODY_SIZE` -/
abbrev memNodeBodySize : Nat := 1024 <<< 2

/-- `MEM_NODE_SIZE`: the tree node, the bitmap and the pointer `preal`. -/
abbrev memNodeSize : Nat := 24 + 64 + 8

/-- A new bitmap of `MEM_BITMAP_SIZE` words, after `bitmap_zero`. -/
def newBitmap : Bitmap := List.replicate 8 0

/-- `minipwr_mem_pool_t`, with the bitmaps of its nodes and the blocks that
`minipwr_palloc` has got from `minipwr_stdalloc`; the lock and `expand_node` are not
used. -/
structure Pool where
  currentSeriesNode : Nat
  latestFreeNode : Nat
  currentSeriesPtr : Nat
  latestFreePtr : Nat
  poolTotalSize : BitVec 64
  poolLeftSeriesSize : BitVec 64
  poolNodeNb : BitVec 64
  rbroot : RbTree Nat
  bitmaps : Heap Bitmap
  blocks : Heap Nat

/-- An integer converted to `int`. -/
def toInt (x : Int) : Int := Int.bmod x (2 ^ 32)

/-- `DIV_ROUND_UP_FOR_8BYTES` -/
def divRoundUp8 (n : Int) : Int := (n + 7) / 8

/-- `howmany<<3` -/
def sizeOf8 (howmany : Nat) : Except Fault Nat :=
  if howmany * 8 < 2 ^ 31 then .ok (howmany * 8) else .error .overflow

/-- `pos + size < MEM_NODE_BODY_SIZE`, on `int`s. -/
def fitsBody (pos : Int) (size : Nat) : Except Fault Bool :=
  if pos + size < 2 ^ 31 then .ok (pos + size < memNodeBodySize) else .error .overflow

/-! ## the tree of nodes -/

/-- `minipwr_mem_node_search` -/
def minipwrMemNodeSearch : RbTree Nat → Nat → Option Nat
  | .nil, _ => none
  | .node _ l data r, pindex =>
      if pindex < data then minipwrMemNodeSearch l pindex
      else if pindex > data + memNodeBodySize then minipwrMemNodeSearch r pindex
      else some data

/-- The loop of `minipwr_mem_node_insert` from a place in the tree, and the insertion
there; `none` when it meets a node that is not on one side. -/
def memNodeInsertAt (data : Nat) : RbTree Nat → List (RbParent Nat) →
    Except Fault (Option (RbTree Nat))
  | .nil, path => do
      let t ← rbInsert path data
      return some t
  | .node c l this r, path =>
      if data < this then memNodeInsertAt data l (⟨.left, c, this, r⟩ :: path)
      else if data > this + memNodeBodySize then
        memNodeInsertAt data r (⟨.right, c, this, l⟩ :: path)
      else .ok none

/-- `minipwr_mem_node_insert` -/
def minipwrMemNodeInsert (root : RbTree Nat) (data : Nat) : Except Fault (RbTree Nat × Int) := do
  match ← memNodeInsertAt data root [] with
  | none => return (root, 0)
  | some t => return (t, 1)

/-! ## the bitmaps of the nodes -/

/-- `bitmap_isset_region` on the bitmap of a node. -/
def Pool.issetRegion (s : Pool) (node : Nat) (pos : Int) (howmany : Nat) : Except Fault Bool := do
  let bm ← load s.bitmaps (some node)
  bmIssetRegion bm pos howmany

/-- `bitmap_setbit_region` on the bitmap of a node. -/
def Pool.setbitRegion (s : Pool) (node : Nat) (pos : Int) (howmany : Nat) : Except Fault Pool := do
  let bm ← load s.bitmaps (some node)
  let bm' ← bmSetbitRegion bm pos howmany
  return { s with bitmaps := s.bitmaps.insert node bm' }

/-- `bitmap_clrbit_region` on the bitmap of a node. -/
def Pool.clrbitRegion (s : Pool) (node : Nat) (pos : Int) (howmany : Nat) : Except Fault Pool := do
  let bm ← load s.bitmaps (some node)
  let bm' ← bmClrbitRegion bm pos howmany
  return { s with bitmaps := s.bitmaps.insert node bm' }

/-! ## the functions -/

/-- The loop of `minipwr_create_pool`, for the bodies at `addrs`. -/
def insertNodes : RbTree Nat → Heap Bitmap → List Nat → Except Fault (RbTree Nat × Heap Bitmap)
  | rbroot, bitmaps, [] => .ok (rbroot, bitmaps)
  | rbroot, bitmaps, a :: addrs => do
      let (rbroot, _) ← minipwrMemNodeInsert rbroot a
      insertNodes rbroot (bitmaps.insert a newBitmap) addrs

/-- `minipwr_create_pool` for as many nodes as `addrs` has addresses: those that
`minipwr_memalign` returns. -/
def minipwrCreatePool (addrs : List Nat) : Except Fault (Option Pool) :=
  match addrs with
  | [] => .ok none
  | preal :: _ => do
      let num := addrs.length
      if 2 ^ 31 ≤ num * memNodeBodySize then .error .overflow
      let (rbroot, bitmaps) ← insertNodes .nil ∅ addrs
      return some
        { currentSeriesNode := preal
          latestFreeNode := preal
          currentSeriesPtr := preal
          latestFreePtr := preal
          poolTotalSize := BitVec.ofNat 64 (num * memNodeBodySize)
          poolLeftSeriesSize := BitVec.ofNat 64 (num * memNodeBodySize)
          poolNodeNb := BitVec.ofNat 64 num
          rbroot := rbroot
          bitmaps := bitmaps
          blocks := ∅ }

/-- The position of `latest_free_ptr` in the bitmap of its node. -/
def Pool.latestFreePos (s : Pool) : Int :=
  toInt (divRoundUp8 ((s.latestFreePtr : Int) - s.latestFreeNode))

/-- The offset of `current_series_ptr` in the body of its node. -/
def Pool.currentSeriesPos (s : Pool) : Int :=
  toInt ((s.currentSeriesPtr : Int) - s.currentSeriesNode)

/-- The first place of `minipwr_palloc`: `latest_free_ptr`. -/
def pallocLatest (s : Pool) (howmany size : Nat) : Except Fault (Pool × Ptr) := do
  let s' ← s.setbitRegion s.latestFreeNode s.latestFreePos howmany
  if s.latestFreePtr = s.currentSeriesPtr then
    return ({ s' with
      currentSeriesPtr := s.currentSeriesPtr + size
      poolLeftSeriesSize := s.poolLeftSeriesSize - BitVec.ofNat 64 size }, some s.latestFreePtr)
  return (s', some s.latestFreePtr)

/-- The second place: `current_series_ptr`. -/
def pallocSeries (s : Pool) (howmany size : Nat) : Except Fault (Pool × Ptr) := do
  let s' ← s.setbitRegion s.currentSeriesNode (divRoundUp8 s.currentSeriesPos) howmany
  return ({ s' with
    currentSeriesPtr := s.currentSeriesPtr + size
    poolLeftSeriesSize := s.poolLeftSeriesSize - BitVec.ofNat 64 size
    latestFreePtr :=
      if s.latestFreePtr = s.currentSeriesPtr then s.latestFreePtr + size else s.latestFreePtr },
    some s.currentSeriesPtr)

/-- The third place: the next node. -/
def pallocNext (s : Pool) (next howmany size : Nat) : Except Fault (Pool × Ptr) := do
  let s' ← s.setbitRegion next 0 howmany
  return ({ s' with
    currentSeriesNode := next
    currentSeriesPtr := next + size
    poolLeftSeriesSize := s.poolLeftSeriesSize - BitVec.ofNat 64 size }, some next)

/-- The last place: a new node with its body at `addr`, null when there is no memory.
The pool counts its size as that of the node, not of the body, and does not look at
what `minipwr_mem_node_insert` returns. -/
def pallocNew (s : Pool) (addr : Ptr) (howmany size : Nat) : Except Fault (Pool × Ptr) :=
  match addr with
  | none => .ok (s, none)
  | some a => do
      let s' ← { s with bitmaps := s.bitmaps.insert a newBitmap }.setbitRegion a 0 howmany
      let (rbroot, _) ← minipwrMemNodeInsert s.rbroot a
      return ({ s' with
        rbroot := rbroot
        currentSeriesNode := a
        currentSeriesPtr := a + size
        poolLeftSeriesSize :=
          s.poolLeftSeriesSize + (BitVec.ofNat 64 memNodeSize - BitVec.ofNat 64 size)
        poolTotalSize := s.poolTotalSize + BitVec.ofNat 64 memNodeSize
        poolNodeNb := s.poolNodeNb + 1 }, some a)

/-- `minipwr_palloc`; `addr` is what the allocator of the system returns, if it is
asked. -/
def minipwrPalloc (s : Pool) (howmany : Nat) (addr : Ptr) : Except Fault (Pool × Ptr) := do
  let size ← sizeOf8 howmany
  if memNodeBodySize < size then
    match addr with
    | none => return (s, none)
    | some a => return ({ s with blocks := s.blocks.insert a size }, some a)
  else if size = 0 then return (s, none)
  else
    let taken ← s.issetRegion s.latestFreeNode s.latestFreePos howmany
    if taken = false then pallocLatest s howmany size
    else if ← fitsBody s.currentSeriesPos size then pallocSeries s howmany size
    else
      match ← rbNext s.rbroot s.currentSeriesNode with
      | some next => pallocNext s next howmany size
      | none => pallocNew s addr howmany size

/-- `minipwr_pfree` -/
def minipwrPfree (s : Pool) (p : Ptr) (howmany : Nat) : Except Fault Pool := do
  let size ← sizeOf8 howmany
  match p with
  | none => return s
  | some p =>
      match minipwrMemNodeSearch s.rbroot p with
      | none =>
          let blocks ← free s.blocks (some p)
          return { s with blocks := blocks }
      | some node =>
          let s' ← s.clrbitRegion node (toInt (divRoundUp8 ((p : Int) - node))) howmany
          let s' := { s' with latestFreeNode := node, latestFreePtr := p }
          if s.currentSeriesPtr = p + size then
            return { s' with
              currentSeriesPtr := p
              poolLeftSeriesSize := s.poolLeftSeriesSize + BitVec.ofNat 64 size }
          return s'

/-! ## inserting a node -/

theorem RootBlack.cons {path : List (RbParent α)} {p : RbParent α} (hroot : RootBlack path)
    (hp : path = [] → p.color = .black) : RootBlack (p :: path) := by
  cases path with
  | nil => simpa [RootBlack] using hp
  | cons q path => simpa [RootBlack, List.getLast?_cons_cons] using hroot

/-- Below a black root the insertion succeeds, and adds the node to the tree or leaves
the tree. -/
theorem memNodeInsertAt_ok {t : RbTree Nat} {path : List (RbParent Nat)}
    (hroot : RootBlack path) (htop : path = [] → t.isRed = false) (data : Nat) :
    ∃ r, memNodeInsertAt data t path = .ok r ∧
      ∀ t', r = some t' → t'.isRed = false ∧ t'.toList.Perm (data :: (rbPlug path t).toList) := by
  induction t generalizing path with
  | nil =>
      obtain ⟨t', ht', hblack⟩ := rbInsert_ok hroot data
      refine ⟨some t', by rw [memNodeInsertAt, ht']; rfl, ?_⟩
      rintro _ ⟨rfl⟩
      refine ⟨hblack, ?_⟩
      rw [rbInsert_toList ht', toList_rbPlug]
      simp [RbTree.toList]
  | node c l this r ihl ihr =>
      have hc : path = [] → c = .black := by
        intro hp
        have := htop hp
        cases c with
        | red => cases this
        | black => rfl
      rw [memNodeInsertAt]
      split
      · exact ihl (hroot.cons hc) (by simp)
      · split
        · exact ihr (hroot.cons hc) (by simp)
        · exact ⟨none, rfl, by simp⟩

/-- `minipwr_mem_node_insert` keeps the root black and adds at most its node. -/
theorem minipwrMemNodeInsert_ok {root : RbTree Nat} (hblack : root.isRed = false) (data : Nat) :
    ∃ root' r, minipwrMemNodeInsert root data = .ok (root', r) ∧ root'.isRed = false ∧
      ∀ a ∈ root'.toList, a = data ∨ a ∈ root.toList := by
  have hroot : RootBlack ([] : List (RbParent Nat)) := by simp [RootBlack]
  obtain ⟨r, hr, ht⟩ := memNodeInsertAt_ok hroot (fun _ => hblack) data
  cases r with
  | none => exact ⟨root, 0, by rw [minipwrMemNodeInsert, hr]; rfl, hblack, fun a ha => .inr ha⟩
  | some t =>
      obtain ⟨hb, hperm⟩ := ht t rfl
      exact ⟨t, 1, by rw [minipwrMemNodeInsert, hr]; rfl, hb,
        fun a ha => List.mem_cons.mp (hperm.subset ha)⟩

end MySrc
