import MySrc.Mycache.MemPool
import Mathlib.Data.List.Perm.Basic

/-!
# MySrc.Mycache.MemPoolRuns

Runs of the memory pool of `MySrc.Mycache.MemPool`.

`Accounts` is the invariant: the bits that are set are those of units in a live
allocation.  It is kept by every call whose place is free in the bitmap
(`Pool.PlaceFree`) or that finds the owner of what it frees (`Pool.FindsOwner`), and so
in such runs no memory is handed out twice (`pool_disjoint`).  The code itself does not
look at the bitmap when it takes the place behind the last allocation or the next node,
and `palloc_overlaps` is a run in which it goes wrong.
-/

namespace MySrc

open Lib

/-! ## runs -/

/-- A pool and the live allocations: the pointer and `howmany`. -/
structure PoolRun where
  pool : Pool
  live : List (Nat × Nat)

/-- A call; `addr` is what the allocator of the system returns. -/
inductive PoolOp
  | palloc (howmany : Nat) (addr : Ptr)
  | pfree (p howmany : Nat)

/-- One call: the new state and the pointer that `minipwr_palloc` returns. -/
def poolStep (s : PoolRun) : PoolOp → Except Fault (PoolRun × Ptr)
  | .palloc howmany addr => do
      let (pool, p) ← minipwrPalloc s.pool howmany addr
      return (⟨pool, (p.map (·, howmany)).toList ++ s.live⟩, p)
  | .pfree p howmany => do
      let pool ← minipwrPfree s.pool (some p) howmany
      return (⟨pool, s.live.erase (p, howmany)⟩, none)

/-- Two bodies have no address in common. -/
def Apart (a b : Nat) : Prop := a + memNodeBodySize ≤ b ∨ b + memNodeBodySize ≤ a

/-- Two allocations have no byte in common. -/
def Separate (x y : Nat × Nat) : Prop := x.1 + 8 * x.2 ≤ y.1 ∨ y.1 + 8 * y.2 ≤ x.1

instance (a b : Nat) : Decidable (Apart a b) := inferInstanceAs (Decidable (_ ∨ _))

instance : DecidableRel Separate := fun _ _ => inferInstanceAs (Decidable (_ ∨ _))

/-- The callers ask for at most a body and free what they have got; the body of a new
node is apart from the others. -/
def PoolOp.Allowed (s : PoolRun) : PoolOp → Prop
  | .palloc howmany addr =>
      1 ≤ howmany ∧ howmany * 8 ≤ memNodeBodySize ∧
        ∀ a ∈ addr, ∀ b ∈ s.pool.bitmaps.keys, Apart a b
  | .pfree p howmany => (p, howmany) ∈ s.live

instance (s : PoolRun) (op : PoolOp) : Decidable (op.Allowed s) :=
  match op with
  | .palloc _ _ => inferInstanceAs (Decidable (_ ∧ _ ∧ _))
  | .pfree _ _ => inferInstanceAs (Decidable (_ ∈ _))

/-- The units of the place that `minipwr_palloc` takes are free: the bitmap says so
where `current_series_ptr`, in its body, or the next node is taken, the look at
`latest_free_ptr` stays in the bitmap, and the node whose successor is asked for is in
the tree. -/
def Pool.PlaceFree (s : Pool) (howmany : Nat) : Prop :=
  s.issetRegion s.latestFreeNode s.latestFreePos howmany = .ok false ∨
  s.issetRegion s.latestFreeNode s.latestFreePos howmany = .ok true ∧
    ((fitsBody s.currentSeriesPos (howmany * 8) = .ok true ∧
        s.currentSeriesNode ≤ s.currentSeriesPtr ∧
        s.currentSeriesPtr < s.currentSeriesNode + memNodeBodySize ∧
        s.issetRegion s.currentSeriesNode (divRoundUp8 s.currentSeriesPos) howmany = .ok false) ∨
      fitsBody s.currentSeriesPos (howmany * 8) = .ok false ∧
        ∃ next, rbNext s.rbroot s.currentSeriesNode = .ok next ∧
          ∀ a, next = some a → s.issetRegion a 0 howmany = .ok false)

/-- `minipwr_mem_node_search` finds the node whose body has the address. -/
def Pool.FindsOwner (s : Pool) (p : Nat) : Prop :=
  ∃ a, minipwrMemNodeSearch s.rbroot p = some a ∧ a ≤ p ∧ p < a + memNodeBodySize

/-- A call does not go wrong. -/
def PoolOp.Safe (s : Pool) : PoolOp → Prop
  | .palloc howmany _ => s.PlaceFree howmany
  | .pfree p _ => s.FindsOwner p

instance (s : Pool) (howmany : Nat) : Decidable (s.PlaceFree howmany) :=
  have (next : Option Nat) : Decidable (∀ a, next = some a → s.issetRegion a 0 howmany = .ok false) :=
    inferInstanceAs (Decidable (∀ a ∈ next, _))
  inferInstanceAs (Decidable (_ ∨ _ ∧ (_ ∨ _)))

instance (s : Pool) (p : Nat) : Decidable (s.FindsOwner p) :=
  inferInstanceAs (Decidable (∃ a ∈ minipwrMemNodeSearch s.rbroot p, _))

instance (s : Pool) (op : PoolOp) : Decidable (op.Safe s) :=
  match op with
  | .palloc howmany _ => inferInstanceAs (Decidable (s.PlaceFree howmany))
  | .pfree p _ => inferInstanceAs (Decidable (s.FindsOwner p))

/-! ## the bitmaps account for the live allocations -/

/-- The unit of 8 bytes at an address belongs to an allocation. -/
def covers (x : Nat × Nat) (i : Nat) : Prop := x.1 ≤ i ∧ i < x.1 + 8 * x.2

/-- Nodes with their bitmaps, and allocations: each is inside of a body, they are
separate, and the bits that are set are those of units in use. -/
structure Accounts (bitmaps : Heap Bitmap) (live : List (Nat × Nat)) : Prop where
  words : ∀ a bm, bitmaps.lookup a = some bm → bm.length = 8
  apart : ∀ a ∈ bitmaps, ∀ b ∈ bitmaps, a ≠ b → Apart a b
  inside : ∀ x ∈ live, 1 ≤ x.2 ∧ ∃ a ∈ bitmaps, ∃ k, x.1 = a + 8 * k ∧ k + x.2 ≤ 512
  separate : live.Pairwise Separate
  bits : ∀ a bm, bitmaps.lookup a = some bm → ∀ j < 512,
    (bitAt bm j = true ↔ ∃ x ∈ live, covers x (a + 8 * j))

theorem apart_iff : Apart a b ↔ a + 4096 ≤ b ∨ b + 4096 ≤ a := Iff.rfl

theorem Separate.symm (h : Separate x y) : Separate y x := Or.symm h

section Accounts

variable {bitmaps : Heap Bitmap} {live : List (Nat × Nat)} (h : Accounts bitmaps live)
include h

/-- Bodies with an address in common are one. -/
theorem Accounts.eq_of_common {p : Nat} (ha : a ∈ bitmaps) (hb : b ∈ bitmaps)
    (hpa : a ≤ p ∧ p < a + 4096) (hpb : b ≤ p ∧ p < b + 4096) : a = b := by
  by_contra hne
  have happ := apart_iff.mp (h.apart a ha b hb hne)
  omega

/-- A new node, with all units free. -/
theorem Accounts.new_node (hnew : ∀ b ∈ bitmaps, Apart a b) :
    Accounts (bitmaps.insert a newBitmap) live := by
  have hbits : ∀ j, bitAt newBitmap j = false := bitAt_replicate 8
  refine ⟨fun b bm hb => ?_, fun b hb b' hb' hne => ?_, fun x hx => ?_, h.separate,
    fun b bm hb j hj => ?_⟩
  · rw [lookup_insert_eq_ite] at hb
    split at hb
    · cases hb
      rfl
    · exact h.words b bm hb
  · rw [AList.mem_insert] at hb hb'
    rcases hb with rfl | hb
    · rcases hb' with rfl | hb'
      · contradiction
      · exact hnew b' hb'
    · rcases hb' with rfl | hb'
      · exact (hnew b hb).symm
      · exact h.apart b hb b' hb' hne
  · obtain ⟨hpos, b, hb, hk⟩ := h.inside x hx
    exact ⟨hpos, b, mem_insert_of_mem hb _ _, hk⟩
  · rw [lookup_insert_eq_ite] at hb
    split at hb
    · next hba =>
        cases hb
        subst hba
        rw [hbits]
        refine iff_of_false (by simp) ?_
        rintro ⟨x, hx, hcov⟩
        obtain ⟨-, b', hb', k, hk, hle⟩ := h.inside x hx
        have happ := apart_iff.mp (hnew b' hb')
        simp only [covers] at hcov
        omega
    · exact h.bits b bm hb j hj

/-- Writing the bitmap of a node and changing the allocations in its body. -/
theorem Accounts.write_node {live' : List (Nat × Nat)} (ha : a ∈ bitmaps) (hwords : bm'.length = 8)
    (hinside : ∀ x ∈ live', x ∈ live ∨ 1 ≤ x.2 ∧ ∃ k, x.1 = a + 8 * k ∧ k + x.2 ≤ 512)
    (hother : ∀ x ∈ live, x ∈ live' ∨ a ≤ x.1 ∧ x.1 + 8 * x.2 ≤ a + memNodeBodySize)
    (hseparate : live'.Pairwise Separate)
    (hbits : ∀ j < 512, (bitAt bm' j = true ↔ ∃ x ∈ live', covers x (a + 8 * j))) :
    Accounts (bitmaps.insert a bm') live' := by
  have hmem : ∀ b, b ∈ bitmaps.insert a bm' ↔ b ∈ bitmaps := by
    intro b
    rw [AList.mem_insert]
    exact ⟨fun hb => hb.elim (fun e => e ▸ ha) id, .inr⟩
  refine ⟨fun b bm hb => ?_, fun b hb b' hb' hne => ?_, fun x hx => ?_, hseparate,
    fun b bm hb j hj => ?_⟩
  · rw [lookup_insert_eq_ite] at hb
    split at hb
    · cases hb
      exact hwords
    · exact h.words b bm hb
  · exact h.apart b ((hmem b).mp hb) b' ((hmem b').mp hb') hne
  · rcases hinside x hx with hx | ⟨hpos, hk⟩
    · obtain ⟨hpos, b, hb, hk⟩ := h.inside x hx
      exact ⟨hpos, b, (hmem b).mpr hb, hk⟩
    · exact ⟨hpos, a, (hmem a).mpr ha, hk⟩
  · rw [lookup_insert_eq_ite] at hb
    split at hb
    · next hba =>
        cases hb
        subst hba
        exact hbits j hj
    · next hba =>
        -- the allocations that come or go are not in this body
        have hb' : b ∈ bitmaps := mem_of_lookup hb
        have happ := apart_iff.mp (h.apart b hb' a ha hba)
        simp only [memNodeBodySize, Nat.reduceShiftLeft] at hother
        rw [h.bits b bm hb j hj]
        constructor
        · rintro ⟨x, hx, hcov⟩
          rcases hother x hx with hx' | hx'
          · exact ⟨x, hx', hcov⟩
          · simp only [covers] at hcov
            omega
        · rintro ⟨x, hx, hcov⟩
          rcases hinside x hx with hx' | ⟨-, k, hk, hle⟩
          · exact ⟨x, hx', hcov⟩
          · simp only [covers] at hcov
            omega

/-- Units whose bits are clear can be allocated. -/
theorem Accounts.alloc (hbm : bitmaps.lookup a = some bm) (hn : 1 ≤ n)
    (hclear : bmIssetRegion bm pos n = .ok false) :
    ∃ k : Nat, pos = k ∧ k + n ≤ 512 ∧ ∃ bm', bmSetbitRegion bm pos n = .ok bm' ∧
      Accounts (bitmaps.insert a bm') ((a + 8 * k, n) :: live) := by
  have ha : a ∈ bitmaps := mem_of_lookup hbm
  have hlen := h.words a bm hbm
  obtain ⟨k, rfl, hk, hfree⟩ := bmIssetRegion_false hn hclear
  obtain ⟨bm', hset, hlen', hbit⟩ := bmRegion_eq writes_setMask hk (by omega)
  refine ⟨k, rfl, by omega, bm', hset, h.write_node ha (by omega) ?_ ?_ ?_ ?_⟩
  · intro x hx
    rcases List.mem_cons.mp hx with rfl | hx
    · exact .inr ⟨hn, k, rfl, by omega⟩
    · exact .inl hx
  · exact fun x hx => .inl (List.mem_cons_of_mem _ hx)
  · refine List.pairwise_cons.mpr ⟨fun x hx => ?_, h.separate⟩
    -- a common byte is in a unit whose bit would be set
    by_contra hover
    simp only [Separate, not_or, not_le] at hover
    obtain ⟨hpos, b, hb, k', hk', hle'⟩ := h.inside x hx
    obtain rfl : b = a :=
      h.eq_of_common (p := max x.1 (a + 8 * k)) hb ha (by omega) (by omega)
    have hset := (h.bits b bm hbm (max k k') (by omega)).mpr ⟨x, hx, by simp only [covers]; omega⟩
    rw [hfree _ (by omega) (by omega)] at hset
    cases hset
  · intro j hj
    rw [hbit, List.exists_mem_cons_iff, ← h.bits a bm hbm j hj]
    by_cases hin : k ≤ j ∧ j < k + n
    · simp only [hin, and_self, if_true, covers]
      exact iff_of_true trivial (.inl (by omega))
    · have hnot : ¬ covers (a + 8 * k, n) (a + 8 * j) := by
        simp only [covers]
        omega
      simp [hin, hnot]

/-- An allocation can be freed. -/
theorem Accounts.free (hx : (p, n) ∈ live) (hbm : bitmaps.lookup a = some bm) (hle : a ≤ p)
    (hlt : p < a + memNodeBodySize) :
    ∃ k : Nat, p = a + 8 * k ∧ k < 512 ∧ ∃ bm', bmClrbitRegion bm k n = .ok bm' ∧
      Accounts (bitmaps.insert a bm') (live.erase (p, n)) := by
  have ha : a ∈ bitmaps := mem_of_lookup hbm
  have hlen := h.words a bm hbm
  obtain ⟨hn, b, hb, k, hk, hkn⟩ := h.inside _ hx
  simp only [memNodeBodySize, Nat.reduceShiftLeft] at hn hk hkn hlt
  obtain rfl : b = a := h.eq_of_common hb ha (by omega) ⟨hle, hlt⟩
  obtain ⟨bm', hclr, hlen', hbit⟩ :=
    bmRegion_eq writes_clrMask (show k + n ≤ 64 * bm.length by omega) (by omega)
  have hperm := List.perm_cons_erase hx
  have hsep : ∀ x ∈ live.erase (p, n), Separate (p, n) x := by
    have := (hperm.pairwise_iff fun hxy => Separate.symm hxy).mp h.separate
    exact (List.pairwise_cons.mp this).1
  refine ⟨k, hk, by omega, bm', hclr, h.write_node ha (by omega) ?_ ?_ ?_ ?_⟩
  · exact fun x hx => .inl (List.mem_of_mem_erase hx)
  · intro x hx'
    rcases List.mem_cons.mp (hperm.subset hx') with rfl | hx'
    · refine .inr ⟨by omega, ?_⟩
      simp only [memNodeBodySize, Nat.reduceShiftLeft]
      omega
    · exact .inl hx'
  · exact h.separate.sublist List.erase_sublist
  · intro j hj
    rw [hbit]
    by_cases hin : k ≤ j ∧ j < k + n
    · rw [if_pos hin]
      refine iff_of_false (by simp) ?_
      rintro ⟨x, hx', hcov⟩
      have := hsep x hx'
      simp only [Separate, covers] at this hcov
      omega
    · rw [if_neg hin, h.bits b bm hbm j hj]
      constructor
      · rintro ⟨x, hx', hcov⟩
        rcases List.mem_cons.mp (hperm.subset hx') with rfl | hx'
        · simp only [covers] at hcov
          omega
        · exact ⟨x, hx', hcov⟩
      · rintro ⟨x, hx', hcov⟩
        exact ⟨x, List.mem_of_mem_erase hx', hcov⟩

end Accounts

/-! ## one call -/

/-- The invariant: the bitmaps account for the live allocations, and the pool's
pointers are at units of its nodes (`current_series_ptr` possibly outside its own). -/
structure PoolInv (s : PoolRun) : Prop where
  accounts : Accounts s.pool.bitmaps s.live
  latest_mem : s.pool.latestFreeNode ∈ s.pool.bitmaps
  latest : ∃ k < 512, s.pool.latestFreePtr = s.pool.latestFreeNode + 8 * k
  series_mem : s.pool.currentSeriesNode ∈ s.pool.bitmaps
  series : ∃ k : Int, (s.pool.currentSeriesPtr : Int) = s.pool.currentSeriesNode + 8 * k
  linked : ∀ a ∈ s.pool.rbroot.toList, a ∈ s.pool.bitmaps
  black : s.pool.rbroot.isRed = false

theorem toInt_eq (h0 : -2 ^ 31 ≤ x) (h1 : x < 2 ^ 31) : toInt x = x := by
  rw [toInt, Int.bmod]
  split <;> omega

theorem divRoundUp8_mul (k : Int) : divRoundUp8 (8 * k) = k := by
  rw [divRoundUp8]
  omega

/-- The position of the unit `k` of a node. -/
theorem toInt_divRoundUp8 {p a k : Nat} (hp : p = a + 8 * k) (hk : k < 512) :
    toInt (divRoundUp8 ((p : Int) - a)) = k := by
  have hdiff : (p : Int) - a = 8 * k := by omega
  rw [hdiff, divRoundUp8_mul, toInt_eq (by omega) (by omega)]

theorem sizeOf8_ok (h : n * 8 ≤ memNodeBodySize) : sizeOf8 n = .ok (n * 8) := by
  simp only [memNodeBodySize, Nat.reduceShiftLeft] at h
  rw [sizeOf8, if_pos (by omega)]

/-- The node that is found is in the tree. -/
theorem minipwrMemNodeSearch_mem {t : RbTree Nat} (h : minipwrMemNodeSearch t p = some a) :
    a ∈ t.toList := by
  induction t with
  | nil => cases h
  | node c l data r ihl ihr =>
      rw [minipwrMemNodeSearch] at h
      simp only [RbTree.toList, List.mem_append, List.mem_cons]
      split at h
      · exact .inl (ihl h)
      · split at h
        · exact .inr (.inr (ihr h))
        · exact .inr (.inl (Option.some.inj h).symm)

/-- Setting the bits of a free place. -/
theorem Accounts.place {pool : Pool} (h : Accounts pool.bitmaps live) (hn : 1 ≤ n)
    (hfree : pool.issetRegion node pos n = .ok false) :
    ∃ (k : Nat) (bm' : Bitmap), pos = k ∧ k + n ≤ 512 ∧
      pool.setbitRegion node pos n =
        .ok { pool with bitmaps := pool.bitmaps.insert node bm' } ∧
      Accounts (pool.bitmaps.insert node bm') ((node + 8 * k, n) :: live) := by
  obtain ⟨bm, hload, hclear⟩ := bind_eq_ok.mp hfree
  obtain ⟨k, hpos, hle, bm', hset, hacc⟩ := h.alloc (load_eq_ok.mp hload) hn hclear
  refine ⟨k, bm', hpos, hle, ?_, hacc⟩
  rw [Pool.setbitRegion, hload, ok_bind, hset]
  rfl

section Palloc

variable {s : PoolRun} (h : PoolInv s) {howmany : Nat} (hn : 1 ≤ howmany)
include h hn

/-- An allocation from the latest free place keeps the invariant. -/
theorem PoolInv.latest_step
    (hfree : s.pool.issetRegion s.pool.latestFreeNode s.pool.latestFreePos howmany = .ok false) :
    ∃ pool' p, pallocLatest s.pool howmany (howmany * 8) = .ok (pool', some p) ∧
      PoolInv ⟨pool', (p, howmany) :: s.live⟩ := by
  obtain ⟨k, bm', hpos, hle, hset, hacc⟩ := h.accounts.place hn hfree
  obtain ⟨k', hk', hlatest⟩ := h.latest
  obtain rfl : k = k' := by
    rw [Pool.latestFreePos, toInt_divRoundUp8 hlatest hk'] at hpos
    omega
  rw [← hlatest] at hacc
  have hmem : ∀ b ∈ s.pool.bitmaps, b ∈ s.pool.bitmaps.insert s.pool.latestFreeNode bm' :=
    fun b hb => mem_insert_of_mem hb _ _
  rw [pallocLatest, hset, ok_bind]
  split
  · obtain ⟨m, hm⟩ := h.series
    refine ⟨_, _, rfl, hacc, hmem _ h.latest_mem, ⟨k, hk', hlatest⟩, hmem _ h.series_mem,
      ⟨m + howmany, ?_⟩, fun a ha => hmem a (h.linked a ha), h.black⟩
    dsimp only
    omega
  · exact ⟨_, _, rfl, hacc, hmem _ h.latest_mem, ⟨k, hk', hlatest⟩, hmem _ h.series_mem, h.series,
      fun a ha => hmem a (h.linked a ha), h.black⟩

/-- An allocation from the series keeps the invariant. -/
theorem PoolInv.series_step (hfit : fitsBody s.pool.currentSeriesPos (howmany * 8) = .ok true)
    (hle : s.pool.currentSeriesNode ≤ s.pool.currentSeriesPtr)
    (hlt : s.pool.currentSeriesPtr < s.pool.currentSeriesNode + memNodeBodySize)
    (hfree : s.pool.issetRegion s.pool.currentSeriesNode (divRoundUp8 s.pool.currentSeriesPos)
      howmany = .ok false) :
    ∃ pool' p, pallocSeries s.pool howmany (howmany * 8) = .ok (pool', some p) ∧
      PoolInv ⟨pool', (p, howmany) :: s.live⟩ := by
  obtain ⟨k, bm', hpos, hk, hset, hacc⟩ := h.accounts.place hn hfree
  obtain ⟨m, hm⟩ := h.series
  simp only [memNodeBodySize, Nat.reduceShiftLeft] at hlt
  have hoff : s.pool.currentSeriesPos = 8 * m := by
    rw [Pool.currentSeriesPos, toInt_eq (by omega) (by omega)]
    omega
  have hptr : s.pool.currentSeriesNode + 8 * k = s.pool.currentSeriesPtr := by
    rw [hoff, divRoundUp8_mul] at hpos
    omega
  have hend : s.pool.currentSeriesPtr + howmany * 8 <
      s.pool.currentSeriesNode + memNodeBodySize := by
    rw [fitsBody, if_pos (by omega)] at hfit
    simp only [Except.ok.injEq, decide_eq_true_eq, memNodeBodySize, Nat.reduceShiftLeft] at hfit ⊢
    omega
  rw [hptr] at hacc
  have hmem : ∀ b ∈ s.pool.bitmaps, b ∈ s.pool.bitmaps.insert s.pool.currentSeriesNode bm' :=
    fun b hb => mem_insert_of_mem hb _ _
  rw [pallocSeries, hset, ok_bind]
  refine ⟨_, _, rfl, hacc, hmem _ h.latest_mem, ?_, hmem _ h.series_mem, ⟨m + howmany, ?_⟩,
    fun a ha => hmem a (h.linked a ha), h.black⟩
  · obtain ⟨k', hk', hlatest⟩ := h.latest
    dsimp only
    split
    · next heq =>
        -- a unit in the bodies of both nodes is in one node
        have hnode : s.pool.latestFreeNode = s.pool.currentSeriesNode :=
          h.accounts.eq_of_common (p := s.pool.latestFreePtr) h.latest_mem h.series_mem (by omega)
            (by omega)
        simp only [memNodeBodySize, Nat.reduceShiftLeft] at hend
        exact ⟨k' + howmany, by omega, by omega⟩
    · exact ⟨k', hk', hlatest⟩
  · dsimp only
    omega

/-- An allocation from the next node keeps the invariant. -/
theorem PoolInv.next_step (hfree : s.pool.issetRegion next 0 howmany = .ok false) :
    ∃ pool' p, pallocNext s.pool next howmany (howmany * 8) = .ok (pool', some p) ∧
      PoolInv ⟨pool', (p, howmany) :: s.live⟩ := by
  obtain ⟨k, bm', hpos, hk, hset, hacc⟩ := h.accounts.place hn hfree
  obtain rfl : k = 0 := by omega
  have hmem : ∀ b ∈ s.pool.bitmaps, b ∈ s.pool.bitmaps.insert next bm' :=
    fun b hb => mem_insert_of_mem hb _ _
  rw [pallocNext, hset, ok_bind]
  refine ⟨_, _, rfl, hacc, hmem _ h.latest_mem, h.latest, (AList.mem_insert _).mpr (.inl rfl),
    ⟨howmany, ?_⟩, fun a ha => hmem a (h.linked a ha), h.black⟩
  dsimp only
  omega

/-- An allocation from a new node keeps the invariant. -/
theorem PoolInv.new_step (hle : howmany * 8 ≤ memNodeBodySize)
    (hnew : ∀ b ∈ s.pool.bitmaps, Apart a b) :
    ∃ pool', pallocNew s.pool (some a) howmany (howmany * 8) = .ok (pool', some a) ∧
      PoolInv ⟨pool', (a, howmany) :: s.live⟩ := by
  let pool : Pool := { s.pool with bitmaps := s.pool.bitmaps.insert a newBitmap }
  have hfree : pool.issetRegion a (0 : Nat) howmany = .ok false := by
    rw [Pool.issetRegion, load_ok (AList.lookup_insert _), ok_bind]
    simp only [memNodeBodySize, Nat.reduceShiftLeft] at hle
    refine bmIssetRegion_of_clear ?_ (by omega) fun j _ _ => bitAt_replicate 8 j
    simp only [newBitmap, List.length_replicate]
    omega
  obtain ⟨k, bm', hpos, -, hset, hacc⟩ :=
    Accounts.place (show Accounts pool.bitmaps s.live from h.accounts.new_node hnew) hn hfree
  obtain rfl : k = 0 := by omega
  obtain ⟨root, r, hinsert, hblack, hlinked⟩ := minipwrMemNodeInsert_ok h.black a
  have hmem : ∀ b ∈ s.pool.bitmaps, b ∈ pool.bitmaps.insert a bm' := fun b hb =>
    mem_insert_of_mem (mem_insert_of_mem hb _ _) _ _
  have hself : a ∈ pool.bitmaps.insert a bm' := (AList.mem_insert _).mpr (.inl rfl)
  have hset' : Pool.setbitRegion { s.pool with bitmaps := s.pool.bitmaps.insert a newBitmap } a 0
      howmany = .ok { pool with bitmaps := pool.bitmaps.insert a bm' } := hset
  simp only [pallocNew, hset', hinsert, ok_bind]
  refine ⟨_, rfl, hacc, hmem _ h.latest_mem, h.latest, hself, ⟨howmany, ?_⟩, ?_, hblack⟩
  · dsimp only
    omega
  · intro b hb
    rcases hlinked b hb with rfl | hb
    · exact hself
    · exact hmem b (h.linked b hb)

end Palloc

/-- A free that finds its node keeps the invariant. -/
theorem PoolInv.free_step {s : PoolRun} (h : PoolInv s) (hx : (p, howmany) ∈ s.live)
    (howner : s.pool.FindsOwner p) :
    ∃ pool', minipwrPfree s.pool (some p) howmany = .ok pool' ∧
      PoolInv ⟨pool', s.live.erase (p, howmany)⟩ := by
  obtain ⟨a, hsearch, hle, hlt⟩ := howner
  have ha : a ∈ s.pool.bitmaps := h.linked a (minipwrMemNodeSearch_mem hsearch)
  obtain ⟨bm, hbm⟩ := lookup_of_mem ha
  obtain ⟨k, hk, hk512, bm', hclr, hacc⟩ := h.accounts.free hx hbm hle hlt
  have hsize : sizeOf8 howmany = .ok (howmany * 8) := by
    obtain ⟨-, b, -, k', -, hle'⟩ := h.accounts.inside _ hx
    refine sizeOf8_ok ?_
    simp only [memNodeBodySize, Nat.reduceShiftLeft] at hle' ⊢
    omega
  have hregion : s.pool.clrbitRegion a (toInt (divRoundUp8 ((p : Int) - a))) howmany =
      .ok { s.pool with bitmaps := s.pool.bitmaps.insert a bm' } := by
    rw [toInt_divRoundUp8 hk hk512, Pool.clrbitRegion, load_ok hbm, ok_bind, hclr]
    rfl
  have hmem : ∀ b ∈ s.pool.bitmaps, b ∈ s.pool.bitmaps.insert a bm' :=
    fun b hb => mem_insert_of_mem hb _ _
  simp only [minipwrPfree, hsize, hsearch, hregion, ok_bind]
  split
  · obtain ⟨m, hm⟩ := h.series
    refine ⟨_, rfl, hacc, hmem a ha, ⟨k, hk512, hk⟩, hmem _ h.series_mem, ⟨m - howmany, ?_⟩,
      fun b hb => hmem b (h.linked b hb), h.black⟩
    dsimp only
    omega
  · exact ⟨_, rfl, hacc, hmem a ha, ⟨k, hk512, hk⟩, hmem _ h.series_mem, h.series,
      fun b hb => hmem b (h.linked b hb), h.black⟩

/-- **One call** that does not go wrong succeeds and keeps the invariant. -/
theorem poolStep_inv (h : PoolInv s) (hallowed : op.Allowed s) (hsafe : op.Safe s.pool) :
    ∃ s' p, poolStep s op = .ok (s', p) ∧ PoolInv s' := by
  cases op with
  | palloc howmany addr =>
      obtain ⟨hn, hle, hnew⟩ := hallowed
      have hpalloc : ∃ pool' p, minipwrPalloc s.pool howmany addr = .ok (pool', p) ∧
          PoolInv ⟨pool', (p.map (·, howmany)).toList ++ s.live⟩ := by
        rw [minipwrPalloc, sizeOf8_ok hle, ok_bind, if_neg (by omega), if_neg (by omega)]
        rcases hsafe with hfree | ⟨htaken, ⟨hfit, hlo, hhi, hfree⟩ | ⟨hfit, next, hnext, hfree⟩⟩
        · obtain ⟨pool', p, hs, h'⟩ := h.latest_step hn hfree
          exact ⟨pool', some p, by rw [hfree, ok_bind, if_pos rfl, hs], h'⟩
        · obtain ⟨pool', p, hs, h'⟩ := h.series_step hn hfit hlo hhi hfree
          refine ⟨pool', some p, ?_, h'⟩
          simp only [htaken, hfit, hs, ok_bind, Bool.true_eq_false, if_false, if_true]
        · simp only [htaken, hfit, hnext, ok_bind, Bool.true_eq_false, Bool.false_eq_true, if_false]
          cases next with
          | some a =>
              obtain ⟨pool', p, hs, h'⟩ := h.next_step hn (hfree a rfl)
              exact ⟨pool', some p, hs, h'⟩
          | none =>
              cases addr with
              | none => exact ⟨s.pool, none, rfl, h⟩
              | some a =>
                  obtain ⟨pool', hs, h'⟩ := h.new_step hn hle fun b hb =>
                    hnew a rfl b (AList.mem_keys.mp hb)
                  exact ⟨pool', some a, hs, h'⟩
      obtain ⟨pool', p, hs, h'⟩ := hpalloc
      exact ⟨_, p, by rw [poolStep, hs]; rfl, h'⟩
  | pfree p howmany =>
      obtain ⟨pool', hs, h'⟩ := h.free_step hallowed hsafe
      exact ⟨_, none, by rw [poolStep, hs]; rfl, h'⟩

/-! ## every run -/

/-- The nodes of a new pool. -/
theorem insertNodes_ok {root : RbTree Nat} {bitmaps : Heap Bitmap} (hacc : Accounts bitmaps [])
    (hlinked : ∀ a ∈ root.toList, a ∈ bitmaps) (hblack : root.isRed = false)
    (hnew : ∀ a ∈ addrs, ∀ b ∈ bitmaps, Apart a b) (happ : addrs.Pairwise Apart) :
    ∃ root' bitmaps', insertNodes root bitmaps addrs = .ok (root', bitmaps') ∧
      Accounts bitmaps' [] ∧ (∀ a ∈ root'.toList, a ∈ bitmaps') ∧ root'.isRed = false ∧
      ∀ a, a ∈ bitmaps ∨ a ∈ addrs → a ∈ bitmaps' := by
  induction addrs generalizing root bitmaps with
  | nil => exact ⟨root, bitmaps, rfl, hacc, hlinked, hblack, fun a ha => by simpa using ha⟩
  | cons a addrs ih =>
      obtain ⟨hhead, htail⟩ := List.pairwise_cons.mp happ
      obtain ⟨root₁, r, hinsert, hblack₁, hlinked₁⟩ := minipwrMemNodeInsert_ok hblack a
      have hmem : ∀ b, b ∈ bitmaps.insert a newBitmap ↔ b = a ∨ b ∈ bitmaps := fun b =>
        AList.mem_insert _
      obtain ⟨root', bitmaps', hs, hacc', hlinked', hblack', hall⟩ :=
        ih (hacc.new_node (hnew a List.mem_cons_self))
          (fun b hb => (hmem b).mpr ((hlinked₁ b hb).imp_right (hlinked b))) hblack₁
          (fun b hb b' hb' => by
            rcases (hmem b').mp hb' with rfl | hb'
            · exact (hhead b hb).symm
            · exact hnew b (List.mem_cons_of_mem _ hb) b' hb')
          htail
      refine ⟨root', bitmaps', by rw [insertNodes, hinsert, ok_bind]; exact hs, hacc', hlinked',
        hblack', fun b hb => hall b ?_⟩
      rw [hmem, List.mem_cons] at *
      tauto

/-- A new pool has no allocation. -/
theorem minipwrCreatePool_inv {addrs : List Nat} (hne : addrs ≠ [])
    (hsize : addrs.length * memNodeBodySize < 2 ^ 31) (happ : addrs.Pairwise Apart) :
    ∃ s₀, minipwrCreatePool addrs = .ok (some s₀) ∧ PoolInv ⟨s₀, []⟩ := by
  have hempty : Accounts ∅ [] := by
    constructor <;> simp
  have hnil : ∀ a ∈ (RbTree.nil : RbTree Nat).toList, a ∈ (∅ : Heap Bitmap) := by
    simp [RbTree.toList]
  obtain ⟨root, bitmaps, hs, hacc, hlinked, hblack, hall⟩ :=
    insertNodes_ok hempty hnil rfl (by simp) happ
  cases addrs with
  | nil => contradiction
  | cons a addrs =>
      have ha : a ∈ bitmaps := hall a (.inr List.mem_cons_self)
      rw [minipwrCreatePool]
      simp only [if_neg (Nat.not_le.mpr hsize), hs, ok_bind]
      exact ⟨_, rfl, hacc, ha, ⟨0, by omega, rfl⟩, ha, ⟨0, by simp⟩, hlinked, hblack⟩

/-- **The pool hands out separate memory** as long as the place it takes is free and
the owner of what is freed is found: in every such run all live allocations are
separate, each inside the body of a node, and no call goes wrong. -/
theorem pool_disjoint (addrs : List Nat) (hne : addrs ≠ [])
    (hsize : addrs.length * memNodeBodySize < 2 ^ 31) (happ : addrs.Pairwise Apart) :
    ∃ s₀, minipwrCreatePool addrs = .ok (some s₀) ∧
      ∀ t s, Run poolStep (fun s op => op.Allowed s ∧ op.Safe s.pool) ⟨s₀, []⟩ t s →
        (∀ op : PoolOp, op.Allowed s → op.Safe s.pool → ∃ s' p, poolStep s op = .ok (s', p)) ∧
        s.live.Pairwise Separate ∧
        ∀ x ∈ s.live, ∃ a ∈ s.pool.bitmaps, a ≤ x.1 ∧ x.1 + 8 * x.2 ≤ a + memNodeBodySize := by
  obtain ⟨s₀, hs₀, hinit⟩ := minipwrCreatePool_inv hne hsize happ
  refine ⟨s₀, hs₀, fun t s hrun => ?_⟩
  have h : PoolInv s := by
    refine hrun.invariant_of_progress (I := fun _ s => PoolInv s) hinit ?_
    rintro - s op h ⟨hallowed, hsafe⟩
    exact poolStep_inv h hallowed hsafe
  refine ⟨fun op hallowed hsafe => ?_, h.accounts.separate, fun x hx => ?_⟩
  · obtain ⟨s', p, hs, -⟩ := poolStep_inv h hallowed hsafe
    exact ⟨s', p, hs⟩
  · obtain ⟨-, a, ha, k, hk, hle⟩ := h.accounts.inside x hx
    refine ⟨a, ha, by omega, ?_⟩
    simp only [memNodeBodySize, Nat.reduceShiftLeft]
    omega

/-- Two allocations in one body, the first of which is freed and its place taken by a smaller
one, and a third in the next body. -/
theorem pool_disjoint_three :
    ∃ s₀ t s, minipwrCreatePool [4096, 16384] = .ok (some s₀) ∧
      Run poolStep (fun s op => op.Allowed s ∧ op.Safe s.pool) ⟨s₀, []⟩ t s ∧
      s.live = [(16384, 500), (4096, 1), (4112, 300)] ∧ s.live.Pairwise Separate ∧
      ∀ x ∈ s.live, ∃ a ∈ s.pool.bitmaps, a ≤ x.1 ∧ x.1 + 8 * x.2 ≤ a + memNodeBodySize := by
  obtain ⟨s₀, hs₀, hall⟩ := pool_disjoint [4096, 16384] (by simp) (by decide) (by decide)
  have hreplay : ((minipwrCreatePool [4096, 16384]).toOption.join.bind fun s₀ =>
      (replay poolStep (fun s op => op.Allowed s ∧ op.Safe s.pool) ⟨s₀, []⟩
        [.palloc 2 none, .palloc 300 none, .pfree 4096 2, .palloc 1 none,
          .palloc 500 none]).map fun r => r.2.live) =
      some [(16384, 500), (4096, 1), (4112, 300)] := by
    decide +kernel
  rw [hs₀] at hreplay
  obtain ⟨⟨t, s⟩, hs, hlive⟩ := Option.map_eq_some_iff.mp hreplay
  have hrun := Run.nil.replay hs
  obtain ⟨-, hseparate, hinside⟩ := hall t s hrun
  exact ⟨s₀, t, s, hs₀, hrun, hlive, hseparate, hinside⟩

/-- **Memory is handed out twice**: three units at the start of a body, and then the
third of them again. -/
theorem palloc_overlaps :
    ∃ s₀ t s, minipwrCreatePool [4096] = .ok (some s₀) ∧
      Run poolStep (fun s op => op.Allowed s) ⟨s₀, []⟩ t s ∧ ¬ s.live.Pairwise Separate := by
  have hreplay : ((minipwrCreatePool [4096]).toOption.join.bind fun s₀ =>
      (replay poolStep (fun s op => op.Allowed s) ⟨s₀, []⟩
        [.palloc 2 none, .palloc 1 none, .pfree 4096 2, .palloc 1 none, .pfree 4112 1,
          .pfree 4096 1, .palloc 3 none, .palloc 1 none]).map fun r => r.2.live) =
      some [(4112, 1), (4096, 3)] := by decide +kernel
  obtain ⟨s₀, hs₀, hreplay⟩ := Option.bind_eq_some_iff.mp hreplay
  obtain ⟨⟨t, s⟩, hs, hlive⟩ := Option.map_eq_some_iff.mp hreplay
  refine ⟨s₀, t, s, ?_, Run.nil.replay hs, ?_⟩
  · exact eq_ok_of_toOption (Option.join_eq_some_iff.mp hs₀)
  · rw [hlive]
    decide

end MySrc
