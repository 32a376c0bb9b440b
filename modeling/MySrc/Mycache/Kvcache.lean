import MySrc.Mycache.Hash
import MySrc.Mycache.Levels
import Mathlib.Data.List.FinRange

/-!
# MySrc.Mycache.Kvcache

`mycache/src/cache/kvcache.c`: 32768 lists of nodes (`MySrc.Mycache.Levels`), one
for each remainder of the first hash of a key.  A node carries the quotient of
that hash as its priority and two more hashes; the key is stored but never
compared, so a key is its three hashes.

`CellMap` is what the cache holds: for each triple of hashes the entries stored
under it, in the order in which they are found.  `specStep` says what the calls
do to it, and `kvStep_refines` that the code does that: `kvcache_set` never finds
the entry that is there and appends another one, while the other calls see only
the first.
-/

namespace MySrc

open Lib
open Function (update)

/-! ## the cache -/

/-- `MAX_AREA_SIZE` -/
abbrev maxAreaSize : Nat := 1024 <<< 5

/-- The fields of `struct cache_node` that its list does not look at (`type` is not
used); the times are `none` before they are assigned. -/
structure KvData where
  key : Option (List UInt8)
  value : Option (List UInt8)
  klen : Nat
  vlen : Nat
  ttl : Option Int
  tms : Option Int
  deriving Repr, DecidableEq

/-- A node as `__kvcache_set` leaves it. -/
def KvData.empty : KvData := ⟨none, none, 0, 0, none, none⟩

/-- The nodes in memory and `kvcache_head_ring`. -/
structure Kvcache where
  mem : LevelMem KvData
  ring : Fin maxAreaSize → LevelHead

/-- The three hashes of a key. -/
structure Hashes where
  hash0 : BitVec 64
  hash1 : BitVec 64
  hash2 : BitVec 64
  deriving Repr, DecidableEq

/-- The hashes every call begins with, after `crypt_table_init`. -/
def hashes (key : List UInt8) : Except Fault Hashes := do
  let hash0 ← hashString cryptTableInit key 0
  let hash1 ← hashString cryptTableInit key 1
  let hash2 ← hashString cryptTableInit key 2
  return ⟨hash0, hash1, hash2⟩

/-- `ack_hash_0%MAX_AREA_SIZE` -/
def Hashes.area (h : Hashes) : Fin maxAreaSize :=
  ⟨h.hash0.toNat % maxAreaSize, Nat.mod_lt _ (by decide)⟩

/-- `ack_hash_0/MAX_AREA_SIZE` -/
def Hashes.priority (h : Hashes) : BitVec 64 := h.hash0 / BitVec.ofNat 64 maxAreaSize

/-- The range of a `long`. -/
def InLong (x : Int) : Prop := -2 ^ 63 ≤ x ∧ x < 2 ^ 63

instance (x : Int) : Decidable (InLong x) := inferInstanceAs (Decidable (_ ∧ _))

/-- The sum of two `long`s. -/
def addLong (x y : Int) : Except Fault Int :=
  if InLong (x + y) then .ok (x + y) else .error .overflow

/-- `now > kv_node->tms + kv_node->ttl` -/
def KvData.timeout (d : KvData) (now : Int) : Except Fault Bool :=
  match d.tms, d.ttl with
  | some tms, some ttl => do
      let e ← addLong tms ttl
      return now > e
  | _, _ => .error .uninitialised

/-- Write the fields of the node at `p`. -/
def setData (mem : LevelMem KvData) (f : KvData → KvData) (p : Ptr) :
    Except Fault (LevelMem KvData) :=
  modify mem (fun n => { n with data := f n.data }) p

/-- `kvcache_init`; `addr i` is what `malloc` returns for the head node of area `i`. -/
def kvcacheInit (addr : Fin maxAreaSize → Nat) : Kvcache :=
  ⟨(List.finRange maxAreaSize).foldl (fun mem i => mem.insert (addr i) (headNode .empty)) ∅,
    fun i => ⟨0, addr i⟩⟩

/-- `kvcache_set` at the time `now`; `random` and `addr` are the level and the
memory of a new node. -/
def kvcacheSet (s : Kvcache) (key value : List UInt8) (ttl now : Int) (random : Fin 16)
    (addr : Nat) : Except Fault (Kvcache × Int) := do
  let h ← hashes key
  let (mem, shead, node) ←
    levelsAdd s.mem (s.ring h.area) .empty h.priority h.hash1 h.hash2 random addr
  let ring := update s.ring h.area shead
  if node = none then return (⟨mem, ring⟩, -1)
  let n ← load mem node
  -- old kv_node
  if n.data.key ≠ none ∧ n.data.value ≠ none then
    let mem ← setData mem (fun d => { d with value := some value, vlen := value.length }) node
    return (⟨mem, ring⟩, 0)
  -- new kv_node
  let mem ← setData mem
    (fun _ => ⟨some key, some value, key.length, value.length, some ttl, some now⟩) node
  return (⟨mem, ring⟩, 0)

/-- `kvcache_get` at the time `now`. -/
def kvcacheGet (s : Kvcache) (key : List UInt8) (now : Int) :
    Except Fault (Option (List UInt8)) := do
  let h ← hashes key
  let node ← levelsSearch s.mem (s.ring h.area) h.priority h.hash1 h.hash2
  if node = none then return none
  let n ← load s.mem node
  if ← n.data.timeout now then return none
  return n.data.value

/-- `kvcache_del` -/
def kvcacheDel (s : Kvcache) (key : List UInt8) : Except Fault (Kvcache × Int) := do
  let h ← hashes key
  let (mem, shead, node) ← levelsDel s.mem (s.ring h.area) h.priority h.hash1 h.hash2
  let s' : Kvcache := ⟨mem, update s.ring h.area shead⟩
  if node = none then return (s', -1)
  return (s', 0)

/-- `kvcache_expire` at the time `now`: it returns `NULL`, that is 0, when there is
no entry. -/
def kvcacheExpire (s : Kvcache) (key : List UInt8) (ttl now : Int) :
    Except Fault (Kvcache × Int) := do
  let h ← hashes key
  let node ← levelsSearch s.mem (s.ring h.area) h.priority h.hash1 h.hash2
  if node = none then return (s, 0)
  let n ← load s.mem node
  if ← n.data.timeout now then return (s, -1)
  let mem ← setData s.mem (fun d => { d with tms := some now, ttl := some ttl }) node
  return ({ s with mem := mem }, 0)

/-- A call, with the time it is made at and what `malloc` and the random numbers
give to it. -/
inductive KvOp
  | set (key value : List UInt8) (ttl now : Int) (random : Fin 16) (addr : Nat)
  | get (key : List UInt8) (now : Int)
  | del (key : List UInt8)
  | expire (key : List UInt8) (ttl now : Int)

/-- What a call returns. -/
inductive KvOut
  | ret (r : Int)
  | value (v : Option (List UInt8))
  deriving DecidableEq

/-- The key of a call. -/
def KvOp.key : KvOp → List UInt8
  | .set key _ _ _ _ _ => key
  | .get key _ => key
  | .del key => key
  | .expire key _ _ => key

/-- One call. -/
def kvStep (s : Kvcache) : KvOp → Except Fault (Kvcache × KvOut)
  | .set key value ttl now random addr => do
      let (s', r) ← kvcacheSet s key value ttl now random addr
      return (s', .ret r)
  | .get key now => do
      let v ← kvcacheGet s key now
      return (s, .value v)
  | .del key => do
      let (s', r) ← kvcacheDel s key
      return (s', .ret r)
  | .expire key ttl now => do
      let (s', r) ← kvcacheExpire s key ttl now
      return (s', .ret r)

/-- An entry with these hashes is stored, timed out or not. -/
def Kvcache.Stored (s : Kvcache) (h : Hashes) : Prop :=
  Present s.mem (s.ring h.area) h.priority h.hash1 h.hash2

/-- It is the first entry of its priority in its area. -/
def Kvcache.StoredFirst (s : Kvcache) (h : Hashes) : Prop :=
  FirstCarries s.mem (s.ring h.area) h.priority h.hash1 h.hash2

/-- `malloc` returns memory that is not in use. -/
def KvOp.Fresh (s : Kvcache) : KvOp → Prop
  | .set _ _ _ _ _ addr => addr ∉ s.mem
  | _ => True

/-- A call deletes only the first entry of its priority, if any. -/
def KvOp.FirstOnly (s : Kvcache) : KvOp → Prop
  | .del key => ∀ h, hashes key = .ok h → s.Stored h → s.StoredFirst h
  | _ => True

/-! ## what the cache holds -/

/-- What can be read of an entry. -/
structure Cell where
  value : List UInt8
  tms : Int
  ttl : Int
  deriving Repr, DecidableEq

/-- The entries of each triple of hashes, in the order in which they are found. -/
abbrev CellMap := Hashes → List Cell

/-- The entry is past its time. -/
def Cell.timeout (x : Cell) (now : Int) : Except Fault Bool := do
  let e ← addLong x.tms x.ttl
  return now > e

/-- What `kvcache_get` finds: the first entry. -/
def cellGet (now : Int) : List Cell → Except Fault (Option (List UInt8))
  | [] => .ok none
  | x :: _ => do
      if ← x.timeout now then return none
      return some x.value

/-- `kvcache_expire` prolongs the first entry. -/
def cellExpire (ttl now : Int) : List Cell → Except Fault (List Cell × Int)
  | [] => .ok ([], 0)
  | x :: xs => do
      if ← x.timeout now then return (x :: xs, -1)
      return ({ x with tms := now, ttl := ttl } :: xs, 0)

/-- One call, on what the cache holds: `kvcache_set` appends and `kvcache_del`
takes the first entry off. -/
def specStep (S : CellMap) : KvOp → Except Fault (CellMap × KvOut)
  | .set key value ttl now _ _ => do
      let h ← hashes key
      return (update S h (S h ++ [⟨value, now, ttl⟩]), .ret 0)
  | .get key now => do
      let h ← hashes key
      let v ← cellGet now (S h)
      return (S, .value v)
  | .del key => do
      let h ← hashes key
      return (update S h (S h).tail, .ret (if S h = [] then -1 else 0))
  | .expire key ttl now => do
      let h ← hashes key
      let (xs, r) ← cellExpire ttl now (S h)
      return (update S h xs, .ret r)

/-! ## the refinement relation -/

/-- What can be read of a node that is completely assigned. -/
def KvData.cell (d : KvData) : Option Cell :=
  match d.value, d.tms, d.ttl with
  | some value, some tms, some ttl => some ⟨value, tms, ttl⟩
  | _, _, _ => none

def cellAt (mem : LevelMem KvData) (a : Nat) : Option Cell := (entryAt mem a).bind (·.data.cell)

/-- The nodes that carry the three hashes. -/
def nodesOf (mem : LevelMem KvData) (c : Fin maxAreaSize → Nat → List Nat) (h : Hashes) :
    List Nat :=
  (c h.area 0).filter (carries mem h.priority h.hash1 h.hash2)

/-- The lists of the areas run through `c`, have no node in common, and hold `S`. -/
structure Refines (s : Kvcache) (c : Fin maxAreaSize → Nat → List Nat) (S : CellMap) : Prop where
  lists : ∀ i, Levels s.mem (s.ring i) (c i)
  apart : ∀ i j, i ≠ j → List.Disjoint ((s.ring i).head :: c i 0) ((s.ring j).head :: c j 0)
  cells : ∀ h, (nodesOf s.mem c h).map (cellAt s.mem) = (S h).map some

/-- The area, the priority and the two other hashes determine the three hashes. -/
theorem Hashes.ext_area {h h' : Hashes} (harea : h.area = h'.area)
    (hprio : h.priority = h'.priority) (h1 : h.hash1 = h'.hash1) (h2 : h.hash2 = h'.hash2) :
    h = h' := by
  obtain ⟨x, y, z⟩ := h
  obtain ⟨x', y', z'⟩ := h'
  have hmod : x.toNat % maxAreaSize = x'.toNat % maxAreaSize := congrArg Fin.val harea
  have hdiv : x.toNat / maxAreaSize = x'.toNat / maxAreaSize := by
    have := congrArg BitVec.toNat hprio
    simp only [Hashes.priority, BitVec.toNat_udiv, BitVec.toNat_ofNat] at this
    rwa [Nat.mod_eq_of_lt (by decide)] at this
  obtain rfl : x = x' := by
    apply BitVec.eq_of_toNat_eq
    rw [← Nat.div_add_mod x.toNat maxAreaSize, ← Nat.div_add_mod x'.toNat maxAreaSize, hmod, hdiv]
  cases h1
  cases h2
  rfl

/-- What a search for the three hashes finds. -/
theorem find_nodesOf (mem : LevelMem KvData) (c : Fin maxAreaSize → Nat → List Nat) (h : Hashes) :
    (c h.area 0).find? (carries mem h.priority h.hash1 h.hash2) = (nodesOf mem c h).head? :=
  (List.head?_filter ..).symm

/-- The nodes of one triple of hashes carry no other triple. -/
theorem notMem_nodesOf {mem : LevelMem KvData} {h h' : Hashes} (hne : h' ≠ h)
    (harea : h'.area = h.area) (hv : v ∈ nodesOf mem c h) : v ∉ nodesOf mem c h' := by
  intro hv'
  have hc := (List.mem_filter.mp hv).2
  have hc' := (List.mem_filter.mp hv').2
  rw [carries, Option.any_eq_true] at hc hc'
  obtain ⟨e, he, hc⟩ := hc
  obtain ⟨e', he', hc'⟩ := hc'
  rw [he] at he'
  cases he'
  simp only [Bool.and_eq_true, decide_eq_true_eq] at hc hc'
  exact hne (Hashes.ext_area harea (hc'.1.1.symm.trans hc.1.1) (hc'.1.2.symm.trans hc.1.2)
    (hc'.2.symm.trans hc.2))

theorem cellAt_update {mem mem' : LevelMem KvData}
    (hentry : entryAt mem' = update (entryAt mem) a e) :
    cellAt mem' = update (cellAt mem) a (e.bind (·.data.cell)) := by
  funext b
  rw [cellAt, hentry, Function.update_apply, Function.update_apply]
  split <;> rfl

/-- A write to a node outside a list of nodes. -/
theorem map_update_of_notMem {xs : List Nat} (hv : v ∉ xs) (f : Nat → Option Cell)
    (x : Option Cell) :
    xs.map (update f v x) = xs.map f := by
  refine List.map_congr_left fun b hb => ?_
  have hbv : b ≠ v := fun e => hv (e ▸ hb)
  exact Function.update_of_ne hbv _ _

theorem KvData.timeout_of_cell {d : KvData} (hd : d.cell = some x) (now : Int) :
    d.timeout now = x.timeout now ∧ d.value = some x.value := by
  obtain ⟨key, value, klen, vlen, ttl, tms⟩ := d
  cases value <;> cases tms <;> cases ttl <;> simp [KvData.cell] at hd
  subst hd
  exact ⟨rfl, rfl⟩

section Refines

variable {s : Kvcache} {c : Fin maxAreaSize → Nat → List Nat} {S : CellMap} (hR : Refines s c S)
include hR

/-- A call changes the list of one area only. -/
theorem Refines.area_step {S' : CellMap} {mem' : LevelMem KvData} {c' : Nat → List Nat}
    (i : Fin maxAreaSize) (hlist : Levels mem' ⟨level', (s.ring i).head⟩ c')
    (hnodes : ∀ b ∈ c' 0, b ∈ c i 0 ∨ b ∉ s.mem)
    (hframe : ∀ b ∈ s.mem, b ∉ (s.ring i).head :: c i 0 → mem'.lookup b = s.mem.lookup b)
    (hcells : ∀ h : Hashes, h.area = i →
      ((c' 0).filter (carries mem' h.priority h.hash1 h.hash2)).map (cellAt mem') =
        (S' h).map some)
    (hS : ∀ h : Hashes, h.area ≠ i → S' h = S h) :
    Refines ⟨mem', update s.ring i ⟨level', (s.ring i).head⟩⟩ (update c i c') S' := by
  -- the nodes of another area are in use and not in this one
  have hin : ∀ j, ∀ b ∈ (s.ring j).head :: c j 0, b ∈ s.mem := by
    intro j b hb
    obtain ⟨n, hn⟩ := (hR.lists j).lookup hb
    exact mem_of_lookup hn
  have hkeep : ∀ j ≠ i, ∀ b ∈ (s.ring j).head :: c j 0, mem'.lookup b = s.mem.lookup b :=
    fun j hj b hb => hframe b (hin j b hb) fun hb' => hR.apart j i hj hb hb'
  have hnew : ∀ j ≠ i, List.Disjoint ((s.ring i).head :: c' 0) ((s.ring j).head :: c j 0) := by
    intro j hj b hb hb'
    rcases List.mem_cons.mp hb with rfl | hb
    · exact hR.apart i j (Ne.symm hj) List.mem_cons_self hb'
    · rcases hnodes b hb with hb | hb
      · exact hR.apart i j (Ne.symm hj) (List.mem_cons_of_mem _ hb) hb'
      · exact hb (hin j b hb')
  refine ⟨fun j => ?_, fun j k hjk => ?_, fun h => ?_⟩
  · by_cases hj : j = i
    · subst hj
      simpa using hlist
    · simp only [Function.update_of_ne hj]
      refine (hR.lists j).congr (fun l b hb => ?_) fun b hb => ?_
      · rw [elemAt, elemAt, hkeep j hj b hb]
      · rw [prioAt, prioAt, entryAt, entryAt, hkeep j hj b (List.mem_cons_of_mem _ hb)]
  · by_cases hj : j = i
    · subst hj
      simpa [Function.update_of_ne (Ne.symm hjk)] using hnew k (Ne.symm hjk)
    · by_cases hk : k = i
      · subst hk
        simpa [Function.update_of_ne hj] using List.disjoint_comm.mp (hnew j hj)
      · simpa [Function.update_of_ne hj, Function.update_of_ne hk] using hR.apart j k hjk
  · by_cases hi : h.area = i
    · rw [← hcells h hi, nodesOf, hi, Function.update_self]
    · have hsame : ∀ b ∈ c h.area 0, entryAt mem' b = entryAt s.mem b := fun b hb => by
        rw [entryAt, entryAt, hkeep h.area hi b (List.mem_cons_of_mem _ hb)]
      have hcarries : nodesOf mem' (update c i c') h = nodesOf s.mem c h := by
        rw [nodesOf, nodesOf, Function.update_of_ne hi]
        exact List.filter_congr fun b hb => by rw [carries, carries, hsame b hb]
      rw [hS h hi, ← hR.cells h, hcarries]
      refine List.map_congr_left fun b hb => ?_
      rw [cellAt, cellAt, hsame b (List.mem_of_mem_filter hb)]

/-- Writing the fields of the first node of its hashes. -/
theorem Refines.set_data {n : LevelNode KvData} {d : KvData} (hn : s.mem.lookup v = some n)
    (hN : nodesOf s.mem c h = v :: vs) (hd : d.cell = some x)
    (hxs : vs.map (cellAt s.mem) = xs.map some) :
    Refines ⟨s.mem.insert v { n with data := d }, s.ring⟩ c (update S h (x :: xs)) := by
  have hlist := hR.lists h.area
  have hv : v ∈ nodesOf s.mem c h := by
    rw [hN]
    exact List.mem_cons_self
  have hnodup : (nodesOf s.mem c h).Nodup := (List.nodup_cons.mp hlist.nodup).2.filter _
  rw [hN, List.nodup_cons] at hnodup
  have hstep : Refines ⟨s.mem.insert v { n with data := d }, update s.ring h.area (s.ring h.area)⟩
      (update c h.area (c h.area)) (update S h (x :: xs)) := by
    refine hR.area_step h.area (hlist.insert_data hn d) (fun b hb => .inl hb)
      (fun b _ hb => ?_) (fun h' harea => ?_) fun h' harea => ?_
    · have hbv : b ≠ v := fun e => hb (e ▸ List.mem_cons_of_mem _ (List.mem_of_mem_filter hv))
      rw [AList.lookup_insert_ne hbv]
    · rw [carries_insert_data hn, ← harea, ← nodesOf, cellAt_update (entryAt_insert_data n v d)]
      by_cases hh : h' = h
      · subst hh
        rw [hN, List.map_cons, map_update_of_notMem hnodup.1, hxs]
        simp [hd]
      · rw [map_update_of_notMem (notMem_nodesOf hh harea hv), hR.cells, Function.update_of_ne hh]
    · exact Function.update_of_ne (ne_of_apply_ne Hashes.area harea) _ _
  rwa [Function.update_eq_self, Function.update_eq_self] at hstep

/-- There is no entry and nothing is found, or the first entry is found. -/
theorem Refines.found (h : Hashes) :
    (S h = [] ∧ nodesOf s.mem c h = []) ∨
    ∃ v vs n x xs, S h = x :: xs ∧ nodesOf s.mem c h = v :: vs ∧
      s.mem.lookup v = some n ∧ n.data.cell = some x ∧ vs.map (cellAt s.mem) = xs.map some := by
  have hcells := hR.cells h
  cases hS : S h with
  | nil =>
      rw [hS] at hcells
      exact .inl ⟨rfl, by simpa using hcells⟩
  | cons x xs =>
      rw [hS] at hcells
      cases hN : nodesOf s.mem c h with
      | nil => simp [hN] at hcells
      | cons v vs =>
          simp only [hN, List.map_cons, List.cons.injEq] at hcells
          obtain ⟨e, he, hx⟩ := Option.bind_eq_some_iff.mp hcells.1
          obtain ⟨n, hn, rfl⟩ := Option.map_eq_some_iff.mp he
          exact .inr ⟨v, vs, n, x, xs, rfl, rfl, hn, hx, hcells.2⟩

/-- An entry is stored under the hashes when the cache holds one. -/
theorem Refines.stored_iff (h : Hashes) : s.Stored h ↔ S h ≠ [] := by
  rw [Kvcache.Stored, (hR.lists h.area).present_iff, find_nodesOf]
  rcases hR.found h with ⟨hS, hN⟩ | ⟨v, vs, n, x, xs, hS, hN, -⟩ <;> simp [hS, hN]

/-! ## the calls -/

theorem Refines.notMem_nodes (hfresh : a ∉ s.mem) (h : Hashes) : a ∉ nodesOf s.mem c h := fun ha =>
  (hR.lists h.area).notMem_of_notMem hfresh 0
    (List.mem_cons_of_mem _ (List.mem_of_mem_filter ha))

/-- `kvcache_set` appends an entry. -/
theorem Refines.set_eq (hk : hashes key = .ok h) (hfresh : addr ∉ s.mem) (value : List UInt8)
    (ttl now : Int) (random : Fin 16) :
    ∃ s' c', kvcacheSet s key value ttl now random addr = .ok (s', 0) ∧
      Refines s' c' (update S h (S h ++ [⟨value, now, ttl⟩])) := by
  obtain ⟨mem₁, hadd, hlist, hentry₁, hframe⟩ :=
    (hR.lists h.area).add_eq hfresh .empty h.priority h.hash1 h.hash2 random
  generalize topLevel (s.ring h.area).level random = L at hadd hlist
  obtain ⟨n, hn, hdata⟩ : ∃ n, mem₁.lookup addr = some n ∧
      n.entry = ⟨h.priority, h.hash1, h.hash2, .empty⟩ := by
    have := congrFun hentry₁ addr
    rw [Function.update_self, entryAt] at this
    exact Option.map_eq_some_iff.mp this
  let d : KvData := ⟨some key, some value, key.length, value.length, some ttl, some now⟩
  have hkey : n.data.key = none := congrArg (·.data.key) hdata
  have hentry : entryAt (mem₁.insert addr { n with data := d }) =
      update (entryAt s.mem) addr (some ⟨h.priority, h.hash1, h.hash2, d⟩) := by
    rw [entryAt_insert_data, hentry₁, Function.update_idem, hdata]
  have hcell := cellAt_update hentry
  refine ⟨_, _, ?_, hR.area_step h.area (hlist.insert_data hn d) (fun b hb => ?_)
    (fun b hb hb' => ?_) (fun h' harea => ?_) fun h' harea => ?_⟩
  · simp [kvcacheSet, hk, hadd, load_ok hn, hkey, setData, modify_ok hn, d]
  · rw [addedTo, if_pos (Nat.zero_le _), List.mem_append, List.mem_cons] at hb
    rcases hb with hb | rfl | hb
    · exact .inl (List.mem_of_mem_filter hb)
    · exact .inr hfresh
    · exact .inl (List.mem_of_mem_filter hb)
  · have hne : b ≠ addr := fun e => hfresh (e ▸ hb)
    rw [AList.lookup_insert_ne hne]
    exact hframe b (by simpa [hne] using hb')
  · rw [(hR.lists h.area).filter_addedTo hfresh hentry, hcell]
    have hold := hR.cells h'
    rw [← map_update_of_notMem (hR.notMem_nodes hfresh h'), nodesOf, harea] at hold
    rw [List.map_append, hold]
    by_cases hh : h' = h
    · subst hh
      simp [KvData.cell, d]
    · have hdiff : ¬ (h.priority = h'.priority ∧ h.hash1 = h'.hash1 ∧ h.hash2 = h'.hash2) :=
        fun e => hh (Hashes.ext_area harea e.1.symm e.2.1.symm e.2.2.symm)
      rw [if_neg hdiff, Function.update_of_ne hh, List.map_nil, List.append_nil]
  · exact Function.update_of_ne (ne_of_apply_ne Hashes.area harea) _ _

/-- `kvcache_get` reads the first entry. -/
theorem Refines.get_eq (hk : hashes key = .ok h) (now : Int) :
    kvcacheGet s key now = cellGet now (S h) := by
  rw [kvcacheGet, hk, ok_bind, (hR.lists h.area).search_eq, find_nodesOf, ok_bind]
  rcases hR.found h with ⟨hS, hN⟩ | ⟨v, vs, n, x, xs, hS, hN, hn, hx, -⟩
  · rw [hS, hN]
    rfl
  · obtain ⟨htimeout, hvalue⟩ := KvData.timeout_of_cell hx now
    simp [hS, hN, load_ok hn, htimeout, hvalue, cellGet]

/-- `kvcache_del` takes the first entry off. -/
theorem Refines.del_eq (hk : hashes key = .ok h) (hfirst : s.Stored h → s.StoredFirst h) :
    ∃ s' c', kvcacheDel s key = .ok (s', if S h = [] then -1 else 0) ∧
      Refines s' c' (update S h (S h).tail) := by
  have hlist := hR.lists h.area
  have hstored := hR.stored_iff h
  rcases hR.found h with ⟨hS, hN⟩ | ⟨v, vs, n, x, xs, hS, hN, hn, hx, hxs⟩
  · have hfind : (c h.area 0).find? (carries s.mem h.priority h.hash1 h.hash2) = none := by
      rw [find_nodesOf, hN]
      rfl
    refine ⟨s, c, ?_, ?_⟩
    · simp [kvcacheDel, hk, hlist.del_absent hfind, hS]
    · rw [hS, List.tail_nil, ← hS, Function.update_eq_self]
      exact hR
  · have hfind : (c h.area 0).find? (carries s.mem h.priority h.hash1 h.hash2) = some v := by
      rw [find_nodesOf, hN]
      rfl
    have hhead : (behind s.mem (· < h.priority) (c h.area 0)).head? = some v := by
      obtain ⟨w, hw, hhead⟩ := hlist.firstCarries_iff.mp (hfirst (hstored.mpr (by simp [hS])))
      rwa [← hfind.symm.trans hw] at hhead
    obtain ⟨mem', level', hdel, hlist', hentry, hframe⟩ := hlist.del_first hfind hhead
    have hcell := cellAt_update hentry
    have hnodup : (nodesOf s.mem c h).Nodup := (List.nodup_cons.mp hlist.nodup).2.filter _
    rw [hN, List.nodup_cons] at hnodup
    refine ⟨_, _, ?_, hR.area_step h.area hlist' (fun b hb => .inl (List.mem_of_mem_erase hb))
      (fun b _ hb => hframe b hb) (fun h' harea => ?_) fun h' harea => ?_⟩
    · simp [kvcacheDel, hk, hdel, hS]
    · rw [hlist.filter_erase hentry, hcell, ← harea, ← nodesOf]
      by_cases hh : h' = h
      · subst hh
        rw [hN, List.erase_cons_head, map_update_of_notMem hnodup.1, hxs, hS, Function.update_self,
          List.tail_cons]
      · have hv : v ∉ nodesOf s.mem c h' :=
          notMem_nodesOf hh harea (by rw [hN]; exact List.mem_cons_self)
        rw [List.erase_of_not_mem hv, map_update_of_notMem hv, hR.cells, Function.update_of_ne hh]
    · exact Function.update_of_ne (ne_of_apply_ne Hashes.area harea) _ _

/-- `kvcache_expire` prolongs the first entry, if it is not past its time. -/
theorem Refines.expire_eq (hk : hashes key = .ok h) (ttl now : Int) :
    (∃ e, cellExpire ttl now (S h) = .error e ∧ kvcacheExpire s key ttl now = .error e) ∨
    ∃ xs r s' c', cellExpire ttl now (S h) = .ok (xs, r) ∧
      kvcacheExpire s key ttl now = .ok (s', r) ∧ Refines s' c' (update S h xs) := by
  have hlist := hR.lists h.area
  rw [kvcacheExpire, hk, ok_bind, hlist.search_eq, find_nodesOf, ok_bind]
  rcases hR.found h with ⟨hS, hN⟩ | ⟨v, vs, n, x, xs, hS, hN, hn, hx, hxs⟩
  · refine .inr ⟨[], 0, s, c, by rw [hS]; rfl, by rw [hN]; rfl, ?_⟩
    rw [← hS, Function.update_eq_self]
    exact hR
  · obtain ⟨htimeout, hvalue⟩ := KvData.timeout_of_cell hx now
    simp only [hS, hN, List.head?_cons, reduceCtorEq, if_false, load_ok hn, ok_bind, htimeout,
      cellExpire]
    cases hlate : x.timeout now with
    | error e => exact .inl ⟨e, rfl, rfl⟩
    | ok late =>
        cases late with
        | true =>
            refine .inr ⟨x :: xs, -1, s, c, rfl, rfl, ?_⟩
            rw [← hS, Function.update_eq_self]
            exact hR
        | false =>
            refine .inr ⟨{ x with tms := now, ttl := ttl } :: xs, 0, _, c, rfl, ?_,
              hR.set_data (d := { n.data with tms := some now, ttl := some ttl }) hn hN ?_ hxs⟩
            · simp [setData, modify_ok hn]
            · simp [KvData.cell, hvalue]

/-- **One call** does to the cache what `specStep` does to what it holds. -/
theorem kvStep_refines (op : KvOp) (hfresh : op.Fresh s) (hfirst : op.FirstOnly s) :
    (∃ e, specStep S op = .error e ∧ kvStep s op = .error e) ∨
    ∃ S' out s' c', specStep S op = .ok (S', out) ∧ kvStep s op = .ok (s', out) ∧
      Refines s' c' S' := by
  cases hk : hashes op.key with
  | error e =>
      refine .inl ⟨e, ?_⟩
      cases op <;>
        simp_all [specStep, kvStep, KvOp.key, kvcacheSet, kvcacheGet, kvcacheDel, kvcacheExpire]
  | ok h =>
      cases op with
      | set key value ttl now random addr =>
          simp only [KvOp.key] at hk
          obtain ⟨s', c', hs, hR'⟩ := hR.set_eq hk hfresh value ttl now random
          exact .inr ⟨_, .ret 0, s', c', by rw [specStep, hk]; rfl, by rw [kvStep, hs]; rfl, hR'⟩
      | get key now =>
          simp only [KvOp.key] at hk
          simp only [specStep, kvStep, hk, ok_bind, hR.get_eq hk]
          cases hv : cellGet now (S h) with
          | error e => exact .inl ⟨e, rfl, rfl⟩
          | ok v => exact .inr ⟨S, .value v, s, c, rfl, rfl, hR⟩
      | del key =>
          simp only [KvOp.key] at hk
          obtain ⟨s', c', hs, hR'⟩ := hR.del_eq hk (hfirst h hk)
          exact .inr ⟨_, _, s', c', by rw [specStep, hk]; rfl, by rw [kvStep, hs]; rfl, hR'⟩
      | expire key ttl now =>
          simp only [KvOp.key] at hk
          simp only [specStep, kvStep, hk, ok_bind]
          obtain ⟨e, he, hs⟩ | ⟨xs, r, s', c', hx, hs, hR'⟩ := hR.expire_eq hk ttl now
          · exact .inl ⟨e, by rw [he]; rfl, by rw [hs]; rfl⟩
          · exact .inr ⟨_, .ret r, s', c', by rw [hx]; rfl, by rw [hs]; rfl, hR'⟩

end Refines

/-! ## a new cache -/

/-- The head nodes are all there. -/
theorem lookup_foldl_insert (addr : Fin maxAreaSize → Nat) (n : LevelNode KvData)
    (is : List (Fin maxAreaSize)) (mem : LevelMem KvData)
    (hi : i ∈ is ∨ mem.lookup (addr i) = some n) :
    (is.foldl (fun mem i => mem.insert (addr i) n) mem).lookup (addr i) = some n := by
  induction is generalizing mem with
  | nil => simpa using hi
  | cons j is ih =>
      refine ih _ ?_
      by_cases hj : addr i = addr j
      · rw [hj]
        exact .inr (AList.lookup_insert _)
      · rw [AList.lookup_insert_ne hj]
        have hij : i ≠ j := fun e => hj (e ▸ rfl)
        simpa [hij] using hi

theorem lookup_kvcacheInit (addr : Fin maxAreaSize → Nat) (i : Fin maxAreaSize) :
    (kvcacheInit addr).mem.lookup (addr i) = some (headNode .empty) := by
  have hi : i ∈ List.finRange maxAreaSize := List.mem_finRange i
  unfold kvcacheInit
  generalize List.finRange maxAreaSize = is at hi ⊢
  exact lookup_foldl_insert addr _ is ∅ (.inl hi)

/-- A new cache holds nothing. -/
theorem kvcacheInit_refines {addr : Fin maxAreaSize → Nat} (haddr : Function.Injective addr) :
    Refines (kvcacheInit addr) (fun _ _ => []) fun _ => [] := by
  refine ⟨fun i => ?_, fun i j hij => ?_, fun h => rfl⟩
  · exact levels_headNode (lookup_kvcacheInit addr i)
  · have hne : addr i ≠ addr j := fun e => hij (haddr e)
    simp [kvcacheInit, Ne.symm hne]

end MySrc
