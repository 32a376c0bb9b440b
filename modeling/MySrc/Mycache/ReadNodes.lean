import MySrc.Lib.Chain
import MySrc.Lib.Memory
import Mathlib.Algebra.Order.BigOperators.Group.List
import Mathlib.Algebra.Order.Ring.Nat
import Mathlib.Data.List.Perm.Subperm

/-!
# MySrc.Mycache.ReadNodes

The reader of `net/net.h`: `tcp_handle_readfd` receives until nothing is left,
fills a chain of nodes of 1024 bytes each, and puts the head of the chain into
the request queue.

The loop is right (`readLoop_spec`): when it ends, the chain from the first node
holds the received bytes in order.  The test behind it, however, is an
assignment: `if(rhead->next = rhead->tail && 0 == rhead->tail->capacity)` stores
the truth value 0 or 1 into `rhead->next` and so loses the chain.
-/

namespace MySrc.ReadNodes

open Lib
open Function (update)

/-! ## the model -/

/-- `READBUF_BLOCK_SIZE` -/
def readbufBlockSize : Nat := 1024

/-- `struct readbuf` -/
structure Readbuf where
  next : Ptr
  block : List UInt8
  capacity : Nat
  deriving Repr, DecidableEq

/-- `struct readbuf_head` -/
structure ReadbufHead where
  next : Ptr
  tail : Ptr
  info : Int
  deriving Repr, DecidableEq

/-- What `errno` says after a `recv` that failed: `EAGAIN`, `EWOULDBLOCK` or `EINTR`, or
something else. -/
inductive RecvError
  | again
  | other
  deriving Repr, DecidableEq

/-- What the function does in the end. -/
inductive Handled
  /-- the peer has closed the connection: `return -1` -/
  | closed
  /-- nothing was received: the nodes are freed -/
  | freed (mem : Heap Readbuf)
  /-- `request_fifo_put` of the head, whose first word is `rhead->next` -/
  | put (mem : Heap Readbuf) (rhead : ReadbufHead)

section Model

/- `malloc mem` is the address that `P_MALLOC` returns when `mem` is allocated, and `fill`
says what the memory there holds; `err` is how the last `recv` fails. -/
variable (malloc : Heap Readbuf → Nat) (fill : Nat → Nat → UInt8) (err : RecvError)

/-- What `NEW_READBUF_NODE` leaves in the memory at `node`. -/
def emptyNode (node : Nat) : Readbuf :=
  ⟨none, (List.range readbufBlockSize).map (fill node), 0⟩

/-- `NEW_READBUF_NODE` -/
def newReadbufNode (mem : Heap Readbuf) : Heap Readbuf × Nat :=
  let node := malloc mem
  (mem.insert node (emptyNode fill node), node)

/-- `NEW_READBUF_HEAD`; `info` is set later. -/
def newReadbufHead (mem : Heap Readbuf) : Heap Readbuf × ReadbufHead :=
  let (mem, node) := newReadbufNode malloc fill mem
  (mem, ⟨some node, some node, 0⟩)

/-- `READBUF_APPEND(head)` -/
def readbufAppend (mem : Heap Readbuf) (head : ReadbufHead) :
    Except Fault (Heap Readbuf × ReadbufHead) := do
  let (mem, newnode) := newReadbufNode malloc fill mem
  let mem ← modify mem (fun c => { c with next := some newnode }) head.tail
  return (mem, { head with tail := some newnode })

/-- `READBUF_FREE(head)` from the node `head` on. -/
def readbufFree : Nat → Heap Readbuf → Ptr → Except Fault (Heap Readbuf)
  | _, mem, none => .ok mem
  | 0, _, some _ => .error .diverge
  | n + 1, mem, some node => do
      let c ← load mem (some node)
      let mem ← free mem (some node)
      readbufFree n mem c.next

/-- The `while(1)`: the chunks are what `recv` returns call after call, an empty one when
the peer has closed.  The memory, the head and `status` behind the loop; `none` after
`return -1`. -/
def readLoop : List (List UInt8) → Nat → Heap Readbuf → ReadbufHead →
    Except Fault (Option (Heap Readbuf × ReadbufHead × Int))
  | [], _, mem, rhead =>
      match err with
      | .again => .ok (some (mem, rhead, 0))
      | .other => .ok (some (mem, rhead, -1))
  | data :: chunks, offset, mem, rhead => do
      let tail ← load mem rhead.tail
      let block ← memcpyTo tail.block offset data
      let mem ← modify mem (fun c => { c with block := block }) rhead.tail
      let recvsize := data.length
      if recvsize = 0 then return none
      if recvsize = readbufBlockSize - offset then
        let mem ← modify mem (fun c => { c with capacity := readbufBlockSize }) rhead.tail
        let (mem, rhead) ← readbufAppend malloc fill mem rhead
        readLoop chunks 0 mem rhead
      else
        let offset := offset + recvsize
        let mem ← modify mem (fun c => { c with capacity := offset }) rhead.tail
        readLoop chunks offset mem rhead

/-- What follows the loop; the test assigns.  The value 1 that is stored into the pointer is
the address 1, and `status` makes no difference. -/
def checkAndPut (readfd : Int) (mem : Heap Readbuf) (rhead : ReadbufHead) :
    Except Fault Handled := do
  let noData ← match rhead.tail with
    | none => pure false
    | some _ => do
        let tail ← load mem rhead.tail
        pure (0 = tail.capacity)
  let rhead := { rhead with next := if noData then some 1 else none }
  if rhead.next ≠ none then
    -- the head itself is not a node: it is freed first, and then what it points to
    let mem ← readbufFree (mem.entries.length + 1) mem rhead.next
    return .freed mem
  return .put mem { rhead with info := readfd }

/-- `tcp_handle_readfd` on a connection where `recv` returns `chunks` and then fails. -/
def tcpHandleReadfd (readfd : Int) (mem : Heap Readbuf) (chunks : List (List UInt8)) :
    Except Fault Handled := do
  let (mem, rhead) := newReadbufHead malloc fill mem
  match ← readLoop malloc fill err chunks 0 mem rhead with
  | none => return .closed
  | some (mem, rhead, _) => checkAndPut readfd mem rhead

end Model

/-! ## what is asked of the reader -/

/-- The bytes in the chain of read nodes from a node on. -/
def chainBytes (mem : Heap Readbuf) : Nat → Ptr → Except Fault (List UInt8)
  | _, none => .ok []
  | 0, some _ => .error .diverge
  | n + 1, some a => do
      let node ← load mem (some a)
      let rest ← chainBytes mem n node.next
      return node.block.take node.capacity ++ rest

/-- What `recv` may return when it is asked for the rest of a node: at least one byte and at
most that many. -/
def Received : Nat → List (List UInt8) → Prop
  | _, [] => True
  | offset, data :: chunks =>
      0 < data.length ∧ data.length ≤ readbufBlockSize - offset ∧
        Received ((offset + data.length) % readbufBlockSize) chunks

/-- Nothing is lost or reordered: what is handed over is a chain that holds the bytes, and
nothing is handed over only when there are none. -/
def Delivers (bytes : List UInt8) : Except Fault Handled → Prop
  | .ok (.put mem rhead) => chainBytes mem mem.entries.length rhead.next = .ok bytes
  | .ok (.freed _) => bytes = []
  | _ => False

instance (bytes : List UInt8) : DecidablePred (Delivers bytes)
  | .ok (.put mem rhead) =>
      inferInstanceAs (Decidable (chainBytes mem mem.entries.length rhead.next = .ok bytes))
  | .ok (.freed _) => inferInstanceAs (Decidable (bytes = []))
  | .ok .closed => isFalse id
  | .error _ => isFalse id

/-! ## the chain -/

/-- The link at an address. -/
def links (mem : Heap Readbuf) (a : Nat) : Option Ptr := (mem.lookup a).map Readbuf.next

/-- The bytes in one node. -/
def nodeBytes (mem : Heap Readbuf) (a : Nat) : List UInt8 :=
  ((mem.lookup a).map fun node => node.block.take node.capacity).getD []

theorem links_insert (mem : Heap Readbuf) (a : Nat) (node : Readbuf) :
    links (mem.insert a node) = update (links mem) a (some node.next) := by
  funext b
  unfold links
  rw [lookup_insert_eq_ite, Function.update_apply]
  split <;> rfl

theorem nodeBytes_insert (mem : Heap Readbuf) (a : Nat) (node : Readbuf) :
    nodeBytes (mem.insert a node) =
      update (nodeBytes mem) a (node.block.take node.capacity) := by
  funext b
  unfold nodeBytes
  rw [lookup_insert_eq_ite, Function.update_apply]
  split <;> rfl

@[simp] theorem chainBytes_none (mem : Heap Readbuf) (n : Nat) :
    chainBytes mem n none = .ok [] := by
  cases n <;> rfl

/-- The bytes of a chain are those of its nodes. -/
theorem chainBytes_of_path {xs : List Nat} (h : Path (links mem) a xs none)
    (hn : xs.length < n) :
    chainBytes mem n (some a) = .ok ((a :: xs).flatMap (nodeBytes mem)) := by
  induction xs generalizing a n with
  | nil =>
      obtain ⟨n, rfl⟩ : ∃ k, n = k + 1 := ⟨n - 1, by omega⟩
      obtain ⟨node, hnode, hnext⟩ := Option.map_eq_some_iff.mp h
      simp [chainBytes, load_ok hnode, hnext, nodeBytes, hnode]
  | cons x xs ih =>
      obtain ⟨n, rfl⟩ : ∃ k, n = k + 1 := ⟨n - 1, by omega⟩
      obtain ⟨node, hnode, hnext⟩ := Option.map_eq_some_iff.mp h.1
      have hrest := ih h.2 (n := n) (by simpa using hn)
      simp [chainBytes, load_ok hnode, hnext, hrest, nodeBytes, hnode]

/-- A chain is not longer than the memory. -/
theorem length_lt_of_path {xs : List Nat} (h : Path (links mem) a xs none) :
    xs.length < mem.entries.length := by
  have hsub : a :: xs ⊆ mem.keys := by
    intro c hc
    obtain ⟨q, hq⟩ := h.exists_link hc
    obtain ⟨node, hnode, -⟩ := Option.map_eq_some_iff.mp hq
    exact mem_of_lookup hnode
  have hle := (List.subperm_of_subset h.nodup hsub).length_le
  simpa [AList.keys, List.keys, Nat.succ_le_iff] using hle

theorem aligned_insert {mem : Heap Readbuf} (h : ∀ a ∈ mem, a % 8 = 0) (hb : b % 8 = 0)
    (node : Readbuf) : ∀ a ∈ mem.insert b node, a % 8 = 0 := by
  intro a ha
  obtain rfl | ha := (AList.mem_insert mem).mp ha
  · exact hb
  · exact h a ha

theorem dropLast_append_getLastD (a : α) (xs : List α) :
    (a :: xs).dropLast ++ [xs.getLastD a] = a :: xs := by
  induction xs generalizing a with
  | nil => rfl
  | cons x xs ih =>
      rw [List.dropLast_cons_cons, List.cons_append, List.getLastD_cons, ih]

/-- Where the read stands: the chain of nodes from `rhead->next` to `rhead->tail` holds
`bytes`, of which `offset` are in its last node. -/
structure Reading (mem : Heap Readbuf) (rhead : ReadbufHead) (offset : Nat)
    (bytes : List UInt8) (first : Nat) (rest : List Nat) : Prop where
  next_eq : rhead.next = some first
  tail_eq : rhead.tail = some (rest.getLastD first)
  path : Path (links mem) first rest none
  bytes_eq : (first :: rest).flatMap (nodeBytes mem) = bytes
  last : ∃ node, mem.lookup (rest.getLastD first) = some node ∧
    node.block.length = readbufBlockSize ∧ node.capacity = offset
  aligned : ∀ a ∈ mem, a % 8 = 0

section Reading

variable {malloc : Heap Readbuf → Nat} {fill : Nat → Nat → UInt8} {err : RecvError}
variable {mem : Heap Readbuf} {rhead : ReadbufHead} {offset first : Nat} {rest : List Nat}
variable {bytes : List UInt8}

/-- The chain's last node is not met before. -/
theorem Reading.last_notMem (h : Reading mem rhead offset bytes first rest) :
    rest.getLastD first ∉ (first :: rest).dropLast :=
  Steps.last_notMem_dropLast h.path.nodup

/-- **Received bytes are stored behind the others.** -/
theorem Reading.store (h : Reading mem rhead offset bytes first rest) (data : List UInt8)
    (hfit : offset + data.length ≤ readbufBlockSize) :
    ∃ node block mem₁ mem₂, load mem rhead.tail = .ok node ∧
      memcpyTo node.block offset data = .ok block ∧
      modify mem (fun c => { c with block := block }) rhead.tail = .ok mem₁ ∧
      modify mem₁ (fun c => { c with capacity := offset + data.length }) rhead.tail = .ok mem₂ ∧
      Reading mem₂ rhead (offset + data.length) (bytes ++ data) first rest := by
  obtain ⟨node, hnode, hblock, hcap⟩ := h.last
  have hfit' : offset + data.length ≤ node.block.length := by rwa [hblock]
  refine ⟨node, splice node.block offset data,
    mem.insert (rest.getLastD first) { node with block := splice node.block offset data },
    mem.insert (rest.getLastD first)
      ⟨node.next, splice node.block offset data, offset + data.length⟩,
    ?_, memcpyTo_eq_splice hfit', ?_, ?_, ?_⟩
  · rw [h.tail_eq, load_ok hnode]
  · rw [h.tail_eq, modify_ok hnode]
  · rw [h.tail_eq, modify_ok (AList.lookup_insert mem), AList.insert_insert]
  · refine ⟨h.next_eq, h.tail_eq, ?_, ?_, ⟨_, AList.lookup_insert mem, ?_, rfl⟩, ?_⟩
    · refine h.path.frame fun c _ => ?_
      rw [links_insert, Function.update_apply]
      split
      · next hc => rw [hc, links, hnode]; rfl
      · rfl
    · have hlast : (splice node.block offset data).take (offset + data.length) =
          nodeBytes mem (rest.getLastD first) ++ data := by
        have htake : (node.block.take offset ++ data).length = offset + data.length := by
          rw [List.length_append, List.length_take]
          omega
        rw [splice, List.take_left' htake, nodeBytes, hnode]
        simp [hcap]
      have hinit : ∀ c ∈ (first :: rest).dropLast, update (nodeBytes mem) (rest.getLastD first)
          (nodeBytes mem (rest.getLastD first) ++ data) c = nodeBytes mem c := by
        intro c hc
        have hne : c ≠ rest.getLastD first := fun e => h.last_notMem (e ▸ hc)
        exact Function.update_of_ne hne _ _
      rw [nodeBytes_insert]
      dsimp only
      rw [hlast, ← h.bytes_eq, ← dropLast_append_getLastD first rest, List.flatMap_append,
        List.flatMap_append, List.flatMap_singleton, List.flatMap_singleton,
        Function.update_self, List.append_assoc, List.flatMap_congr hinit]
    · rw [length_splice hfit', hblock]
    · exact aligned_insert h.aligned (h.aligned _ (mem_of_lookup hnode)) _

/-- **An empty node is linked behind the last one.** -/
theorem Reading.append (h : Reading mem rhead offset bytes first rest)
    (hmalloc : ∀ mem, malloc mem ∉ mem ∧ malloc mem % 8 = 0) (fill : Nat → Nat → UInt8) :
    ∃ mem' rhead', readbufAppend malloc fill mem rhead = .ok (mem', rhead') ∧
      Reading mem' rhead' 0 bytes first (rest ++ [malloc mem]) := by
  obtain ⟨node, hnode, -, -⟩ := h.last
  obtain ⟨hfresh, halign⟩ := hmalloc mem
  have hne : rest.getLastD first ≠ malloc mem := fun e => hfresh (e ▸ mem_of_lookup hnode)
  have hnew : malloc mem ∉ first :: rest := by
    intro hmem
    obtain ⟨q, hq⟩ := h.path.exists_link hmem
    obtain ⟨c, hc, -⟩ := Option.map_eq_some_iff.mp hq
    exact hfresh (mem_of_lookup hc)
  have hlink : links mem (rest.getLastD first) = some none := by
    have hpath := h.path
    rw [← List.append_nil rest, path_append] at hpath
    exact hpath.2
  have hlookup : (mem.insert (malloc mem) (emptyNode fill (malloc mem))).lookup
      (rest.getLastD first) = some node := by
    rw [lookup_insert_eq_ite, if_neg hne, hnode]
  refine ⟨(mem.insert (malloc mem) (emptyNode fill (malloc mem))).insert (rest.getLastD first)
    { node with next := some (malloc mem) }, { rhead with tail := some (malloc mem) }, ?_, ?_⟩
  · simp only [readbufAppend, newReadbufNode, h.tail_eq, modify_ok hlookup, ok_bind, pure_eq_ok]
  · refine ⟨h.next_eq, by simp, ?_, ?_, ?_, ?_⟩
    · have hpath : Path (links mem) first (rest ++ []) none := by simpa using h.path
      refine hpath.insert hpath.nodup (by simpa using hnew) ?_
      rw [links_insert, links_insert, hlink]
      rfl
    · have hold : ∀ c ∈ first :: rest, update (update (nodeBytes mem) (malloc mem) [])
          (rest.getLastD first) (nodeBytes mem (rest.getLastD first)) c = nodeBytes mem c := by
        intro c hc
        have hc' : c ≠ malloc mem := fun e => hnew (e ▸ hc)
        rw [Function.update_apply, Function.update_of_ne hc']
        split
        · next hlast => rw [hlast]
        · rfl
      have hbytes : node.block.take node.capacity = nodeBytes mem (rest.getLastD first) := by
        rw [nodeBytes, hnode]
        rfl
      have hempty : (emptyNode fill (malloc mem)).block.take
          (emptyNode fill (malloc mem)).capacity = [] := List.take_zero
      rw [nodeBytes_insert, nodeBytes_insert, hempty]
      dsimp only
      rw [hbytes, ← List.cons_append, List.flatMap_append, List.flatMap_congr hold, h.bytes_eq,
        List.flatMap_singleton, Function.update_of_ne hne.symm, Function.update_self,
        List.append_nil]
    · refine ⟨emptyNode fill (malloc mem), ?_, by simp [emptyNode], rfl⟩
      rw [List.getLastD_concat, lookup_insert_eq_ite, if_neg hne.symm, AList.lookup_insert]
    · exact aligned_insert (aligned_insert h.aligned halign _)
        (h.aligned _ (mem_of_lookup hnode)) _

/-- The new head: one empty node. -/
theorem newReadbufHead_reading (hmalloc : ∀ mem, malloc mem ∉ mem ∧ malloc mem % 8 = 0)
    (hmem : ∀ a ∈ mem, a % 8 = 0) (fill : Nat → Nat → UInt8) :
    Reading (newReadbufHead malloc fill mem).1 (newReadbufHead malloc fill mem).2 0 []
      (malloc mem) [] := by
  refine ⟨rfl, rfl, ?_, ?_, ⟨emptyNode fill (malloc mem), AList.lookup_insert mem, ?_, rfl⟩, ?_⟩
  · change links (mem.insert _ _) _ = _
    rw [links_insert, Function.update_self]
    rfl
  · change [malloc mem].flatMap (nodeBytes (mem.insert _ _)) = []
    rw [List.flatMap_singleton, nodeBytes_insert, Function.update_self]
    exact List.take_zero
  · simp [emptyNode]
  · exact aligned_insert hmem (hmalloc mem).2 _

/-- **The loop** receives every byte, in order. -/
theorem readLoop_spec (err : RecvError)
    (hmalloc : ∀ mem, malloc mem ∉ mem ∧ malloc mem % 8 = 0)
    {chunks : List (List UInt8)} (hrecv : Received offset chunks)
    (hoff : offset < readbufBlockSize) (h : Reading mem rhead offset bytes first rest) :
    ∃ mem' rhead' status rest',
      readLoop malloc fill err chunks offset mem rhead = .ok (some (mem', rhead', status)) ∧
      Reading mem' rhead' ((offset + chunks.flatten.length) % readbufBlockSize)
        (bytes ++ chunks.flatten) first rest' := by
  induction chunks generalizing offset mem rhead bytes rest with
  | nil =>
      have hread :
          Reading mem rhead ((offset + 0) % readbufBlockSize) (bytes ++ []) first rest := by
        rwa [List.append_nil, Nat.add_zero, Nat.mod_eq_of_lt hoff]
      cases err with
      | again => exact ⟨mem, rhead, 0, rest, rfl, hread⟩
      | other => exact ⟨mem, rhead, -1, rest, rfl, hread⟩
  | cons data chunks ih =>
      obtain ⟨hpos, hle, hrecv⟩ := hrecv
      obtain ⟨node, block, mem₁, mem₂, hload, hcopy, hmem₁, hmem₂, hread⟩ :=
        h.store data (by omega)
      have hlen : (offset + (data :: chunks).flatten.length) % readbufBlockSize =
          ((offset + data.length) % readbufBlockSize + chunks.flatten.length) %
            readbufBlockSize := by
        rw [Nat.mod_add_mod, List.flatten_cons, List.length_append, Nat.add_assoc]
      rw [readLoop, hload, ok_bind, hcopy, ok_bind, hmem₁, ok_bind, if_neg (by omega), hlen,
        List.flatten_cons, ← List.append_assoc]
      by_cases hfull : data.length = readbufBlockSize - offset
      · -- the node is full: a new one is linked behind it
        have hsum : offset + data.length = readbufBlockSize := by omega
        obtain ⟨mem₃, rhead₃, happend, hread⟩ := hread.append hmalloc fill
        rw [hsum, Nat.mod_self] at hrecv ⊢
        rw [hsum] at hmem₂
        obtain ⟨mem', rhead', status, rest', hloop, hread⟩ := ih hrecv (by decide) hread
        refine ⟨mem', rhead', status, rest', ?_, hread⟩
        rw [if_pos hfull, hmem₂, ok_bind, happend, ok_bind]
        exact hloop
      · have hlt : offset + data.length < readbufBlockSize := by omega
        rw [Nat.mod_eq_of_lt hlt] at hrecv ⊢
        obtain ⟨mem', rhead', status, rest', hloop, hread⟩ := ih hrecv hlt hread
        refine ⟨mem', rhead', status, rest', ?_, hread⟩
        rw [if_neg hfull]
        dsimp only
        rw [hmem₂, ok_bind, hloop]

/-- The chain that the loop leaves holds the bytes. -/
theorem Reading.chainBytes (h : Reading mem rhead offset bytes first rest) :
    chainBytes mem mem.entries.length rhead.next = .ok bytes := by
  rw [h.next_eq, chainBytes_of_path h.path (length_lt_of_path h.path), h.bytes_eq]

/-- Behind the loop the chain from `rhead->next` holds what was received. -/
theorem readLoop_delivers (hmalloc : ∀ mem, malloc mem ∉ mem ∧ malloc mem % 8 = 0)
    (hmem : ∀ a ∈ mem, a % 8 = 0) {chunks : List (List UInt8)} (hrecv : Received 0 chunks) :
    ∃ mem' rhead' status,
      readLoop malloc fill err chunks 0 (newReadbufHead malloc fill mem).1
        (newReadbufHead malloc fill mem).2 = .ok (some (mem', rhead', status)) ∧
      ReadNodes.chainBytes mem' mem'.entries.length rhead'.next = .ok chunks.flatten := by
  obtain ⟨mem', rhead', status, rest', hloop, hread⟩ := readLoop_spec err hmalloc hrecv
    (by decide) (newReadbufHead_reading hmalloc hmem fill)
  exact ⟨mem', rhead', status, hloop, hread.chainBytes⟩

/-- **What the test makes of the chain**: it is lost, and when the last node is empty the
address 1 is followed. -/
theorem Reading.checkAndPut (h : Reading mem rhead offset bytes first rest) (readfd : Int) :
    checkAndPut readfd mem rhead =
      if offset = 0 then .error .dangling else .ok (.put mem ⟨none, rhead.tail, readfd⟩) := by
  obtain ⟨node, hnode, -, rfl⟩ := h.last
  have hone : mem.lookup 1 = none := by
    rw [AList.lookup_eq_none]
    intro hmem
    have := h.aligned 1 hmem
    omega
  have hfree : readbufFree (mem.entries.length + 1) mem (some 1) = .error .dangling := by
    simp [readbufFree, load, hone]
  by_cases hcap : node.capacity = 0
  · rw [if_pos hcap]
    simp [ReadNodes.checkAndPut, h.tail_eq, -List.getLastD_eq_getLast?, load_ok hnode, hcap, hfree]
  · rw [if_neg hcap]
    simp [ReadNodes.checkAndPut, h.tail_eq, -List.getLastD_eq_getLast?, load_ok hnode,
      Ne.symm hcap]

/-- What a call does: with a whole number of full nodes, or nothing, it follows the address
1, and else it hands over a chain without nodes. -/
theorem tcpHandleReadfd_eq (hmalloc : ∀ mem, malloc mem ∉ mem ∧ malloc mem % 8 = 0)
    (hmem : ∀ a ∈ mem, a % 8 = 0) {chunks : List (List UInt8)} (hrecv : Received 0 chunks)
    (fill : Nat → Nat → UInt8) (err : RecvError) (readfd : Int) :
    if chunks.flatten.length % readbufBlockSize = 0 then
      tcpHandleReadfd malloc fill err readfd mem chunks = .error .dangling
    else ∃ mem' tail, tcpHandleReadfd malloc fill err readfd mem chunks =
      .ok (.put mem' ⟨none, tail, readfd⟩) := by
  obtain ⟨mem', rhead', status, rest', hloop, hread⟩ := readLoop_spec err hmalloc hrecv
    (by decide) (newReadbufHead_reading hmalloc hmem fill)
  have hcall : tcpHandleReadfd malloc fill err readfd mem chunks =
      ReadNodes.checkAndPut readfd mem' rhead' := by
    rw [tcpHandleReadfd]
    dsimp only
    rw [hloop]
    rfl
  have hcheck := hread.checkAndPut readfd
  rw [Nat.zero_add] at hcheck
  rw [hcall, hcheck]
  split
  · rfl
  · exact ⟨mem', rhead'.tail, rfl⟩

/-- **The reader delivers nothing**, whatever the chunks are. -/
theorem tcpHandleReadfd_loses (malloc : Heap Readbuf → Nat) (fill : Nat → Nat → UInt8)
    (hmalloc : ∀ mem, malloc mem ∉ mem ∧ malloc mem % 8 = 0) (readfd : Int)
    (mem : Heap Readbuf) (hmem : ∀ a ∈ mem, a % 8 = 0) (chunks : List (List UInt8))
    (hrecv : Received 0 chunks) :
    ¬ Delivers chunks.flatten (tcpHandleReadfd malloc fill .again readfd mem chunks) := by
  have hcall := tcpHandleReadfd_eq hmalloc hmem hrecv fill .again readfd
  by_cases hfull : chunks.flatten.length % readbufBlockSize = 0
  · rw [if_pos hfull] at hcall
    rw [hcall]
    exact id
  · rw [if_neg hfull] at hcall
    obtain ⟨mem', tail, hcall⟩ := hcall
    rw [hcall]
    intro hbytes
    have hnone : chunks.flatten = [] :=
      (Except.ok.inj ((chainBytes_none mem' _).symm.trans hbytes)).symm
    rw [hnone] at hfull
    exact hfull rfl

end Reading

/-! ## one byte -/

/-- An allocator: the address is behind all those in use. -/
def nextFree (mem : Heap Readbuf) : Nat := 8 * (mem.keys.sum + 1)

/-- The next free place is not in use, and aligned. -/
theorem nextFree_spec (mem : Heap Readbuf) : nextFree mem ∉ mem ∧ nextFree mem % 8 = 0 := by
  refine ⟨fun hmem => ?_, by simp [nextFree]⟩
  have hle : nextFree mem ≤ mem.keys.sum := List.le_sum_of_mem (AList.mem_keys.mp hmem)
  unfold nextFree at hle
  omega

/-- The chunk `"a"` comes in, and is not in the chain that is handed over. -/
theorem tcpHandleReadfd_loses_byte :
    ¬ Delivers [0x61] (tcpHandleReadfd nextFree (fun _ _ => 0) .again 5 ∅ [[0x61]]) := by
  decide +kernel

/-- Two chunks, and then no more: nothing of them is delivered. -/
theorem tcpHandleReadfd_loses_two_chunks :
    ¬ Delivers [0x61, 0x62, 0x63]
      (tcpHandleReadfd nextFree (fun _ _ => 0) .again 5 ∅ [[0x61, 0x62], [0x63]]) :=
  tcpHandleReadfd_loses nextFree (fun _ _ => 0) nextFree_spec 5 ∅ (by simp) [[0x61, 0x62], [0x63]]
    (by simp [Received, readbufBlockSize])

end MySrc.ReadNodes
