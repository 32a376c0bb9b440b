import MySrc.Mycache.MemPoolSearch

/-!
# MySrc.Mycache.MemPoolCounters

The counters of the memory pool of `MySrc.Mycache.MemPool`: the size of all bodies, the
size that is left behind `current_series_ptr`, and the number of nodes.

Two places of the code get them wrong.  A new node counts as `MEM_NODE_SIZE`, the size of
its header, where `minipwr_create_pool` counts a body (`pool_counters_grow`).  And
`minipwr_pfree` gives back what it frees whenever this ends at `current_series_ptr`, also
when it is the end of the body below.  Besides, the bits of a region are looked at and
cleared without asking whether they are in the bitmap.  In every run without such steps no
call fails, the counters are right, and neither of them wraps (`pool_counters`).
-/

namespace MySrc

open Lib

/-! ## what is asked of the counters -/

/-- The size of the pool is that of its bodies, and no more than this is left. -/
structure Pool.CountersRight (s : Pool) : Prop where
  total : s.poolTotalSize.toNat = s.poolNodeNb.toNat * memNodeBodySize
  left : s.poolLeftSeriesSize ≤ s.poolTotalSize

/-- `minipwr_palloc` gets to its last place. -/
def Pool.NeedsNode (s : Pool) (howmany : Nat) : Prop :=
  howmany * 8 ≤ memNodeBodySize ∧ howmany * 8 ≠ 0 ∧
    s.issetRegion s.latestFreeNode s.latestFreePos howmany = .ok true ∧
    fitsBody s.currentSeriesPos (howmany * 8) = .ok false ∧
    rbNext s.rbroot s.currentSeriesNode = .ok none

/-- The call does not add a node, and does not give back the end of a body below that of
`current_series_ptr`. -/
def PoolOp.CountsRight (s : Pool) : PoolOp → Prop
  | .palloc howmany addr => s.NeedsNode howmany → addr = none
  | .pfree p howmany =>
      minipwrMemNodeSearch s.rbroot p ≠ none → s.currentSeriesPtr = p + howmany * 8 →
        s.currentSeriesNode ≤ p

/-- The size is an `int` and the bits that are looked at, or cleared, are in the bitmap: the
look at `latest_free_ptr` comes to its end or to a set bit before the end of the bitmap,
and a node that is found for what is freed has it in its body. -/
def PoolOp.InBitmap (s : Pool) : PoolOp → Prop
  | .palloc howmany _ => howmany * 8 < 2 ^ 31 ∧
      (0 < howmany → howmany * 8 ≤ memNodeBodySize →
        s.issetRegion s.latestFreeNode s.latestFreePos howmany = .ok true ∨
        s.issetRegion s.latestFreeNode s.latestFreePos howmany = .ok false)
  | .pfree p _ => ∀ a ∈ minipwrMemNodeSearch s.rbroot p, p < a + memNodeBodySize

/-- What the system's allocator returns is not in use and has no byte in common with the
bodies of the nodes, and what is freed has been allocated with the same size. -/
def PoolOp.Matching (s : PoolRun) : PoolOp → Prop
  | .palloc howmany addr => ∀ a ∈ addr, a ∉ s.pool.blocks ∧ ∀ b ∈ s.pool.rbroot.toList,
      a + max memNodeBodySize (howmany * 8) ≤ b ∨ b + memNodeBodySize ≤ a
  | .pfree p howmany => (p, howmany) ∈ s.live

instance (s : Pool) (howmany : Nat) : Decidable (s.NeedsNode howmany) :=
  inferInstanceAs (Decidable (_ ∧ _))

instance (s : Pool) (op : PoolOp) : Decidable (op.CountsRight s) :=
  match op with
  | .palloc _ _ => inferInstanceAs (Decidable (_ → _))
  | .pfree _ _ => inferInstanceAs (Decidable (_ → _))

instance (s : Pool) (op : PoolOp) : Decidable (op.InBitmap s) :=
  match op with
  | .palloc _ _ => inferInstanceAs (Decidable (_ ∧ (_ → _ → _ ∨ _)))
  | .pfree _ _ => inferInstanceAs (Decidable (∀ _ ∈ _, _))

instance (s : PoolRun) (op : PoolOp) : Decidable (op.Matching s) :=
  match op with
  | .palloc _ _ => inferInstanceAs (Decidable (∀ _ ∈ _, _))
  | .pfree _ _ => inferInstanceAs (Decidable (_ ∈ _))

/-- The series size does not grow in an allocation and does not shrink when something is
freed, so neither wraps. -/
def PoolOp.NoWrap (s s' : Pool) : PoolOp → Prop
  | .palloc _ _ => s'.poolLeftSeriesSize ≤ s.poolLeftSeriesSize
  | .pfree _ _ => s.poolLeftSeriesSize ≤ s'.poolLeftSeriesSize

/-! ## what the calls can do -/

/-- Setting bits changes the bitmap of the node only, and not its length. -/
theorem setbitRegion_eq_ok {s s' : Pool} (h : s.setbitRegion node pos n = .ok s') :
    ∃ bm bm', s.bitmaps.lookup node = some bm ∧ bm'.length = bm.length ∧
      s' = { s with bitmaps := s.bitmaps.insert node bm' } := by
  obtain ⟨bm, hload, h⟩ := bind_eq_ok.mp h
  obtain ⟨bm', hset, h⟩ := bind_eq_ok.mp h
  cases h
  exact ⟨bm, bm', load_eq_ok.mp hload, (bmRegion_ok hset).1, rfl⟩

/-- The places of `minipwr_palloc`. -/
theorem minipwrPalloc_cases {s s' : Pool} (h : minipwrPalloc s howmany addr = .ok (s', p)) :
    memNodeBodySize < howmany * 8 ∧
      (s' = s ∧ p = none ∨ ∃ a blocks, addr = some a ∧ s' = { s with blocks := blocks } ∧
        p = some a) ∨
    s' = s ∧ p = none ∨
    howmany * 8 ≤ memNodeBodySize ∧ howmany * 8 ≠ 0 ∧
      (s.issetRegion s.latestFreeNode s.latestFreePos howmany = .ok false ∧
        pallocLatest s howmany (howmany * 8) = .ok (s', p) ∨
      fitsBody s.currentSeriesPos (howmany * 8) = .ok true ∧
        pallocSeries s howmany (howmany * 8) = .ok (s', p) ∨
      (∃ next, rbNext s.rbroot s.currentSeriesNode = .ok (some next) ∧
        pallocNext s next howmany (howmany * 8) = .ok (s', p)) ∨
      s.NeedsNode howmany ∧ pallocNew s addr howmany (howmany * 8) = .ok (s', p)) := by
  obtain ⟨size, hsize, h⟩ := bind_eq_ok.mp h
  obtain rfl : howmany * 8 = size := by
    rw [sizeOf8] at hsize
    split at hsize
    · exact Except.ok.inj hsize
    · cases hsize
  split at h
  · next hlarge =>
      refine .inl ⟨hlarge, ?_⟩
      cases addr with
      | none =>
          cases h
          exact .inl ⟨rfl, rfl⟩
      | some a =>
          cases h
          exact .inr ⟨a, _, rfl, rfl, rfl⟩
  · next hsmall =>
      split at h
      · cases h
        exact .inr (.inl ⟨rfl, rfl⟩)
      · next hzero =>
          obtain ⟨taken, htaken, h⟩ := bind_eq_ok.mp h
          refine .inr (.inr ⟨Nat.le_of_not_lt hsmall, hzero, ?_⟩)
          cases taken with
          | false => exact .inl ⟨htaken, h⟩
          | true =>
              obtain ⟨fits, hfits, h⟩ := bind_eq_ok.mp h
              cases fits with
              | true => exact .inr (.inl ⟨hfits, h⟩)
              | false =>
                  obtain ⟨next, hnext, h⟩ := bind_eq_ok.mp h
                  cases next with
                  | some next => exact .inr (.inr (.inl ⟨next, hnext, h⟩))
                  | none =>
                      exact .inr (.inr (.inr
                        ⟨⟨Nat.le_of_not_lt hsmall, hzero, htaken, hfits, hnext⟩, h⟩))

/-- The branches of `minipwr_pfree`. -/
theorem minipwrPfree_cases {s s' : Pool} (h : minipwrPfree s (some p) howmany = .ok s') :
    (minipwrMemNodeSearch s.rbroot p = none ∧ ∃ blocks, s' = { s with blocks := blocks }) ∨
    ∃ node bm bm', minipwrMemNodeSearch s.rbroot p = some node ∧
      s.bitmaps.lookup node = some bm ∧ bm'.length = bm.length ∧
      s' = if s.currentSeriesPtr = p + howmany * 8 then
          { s with
            bitmaps := s.bitmaps.insert node bm'
            latestFreeNode := node
            latestFreePtr := p
            currentSeriesPtr := p
            poolLeftSeriesSize := s.poolLeftSeriesSize + BitVec.ofNat 64 (howmany * 8) }
        else
          { s with
            bitmaps := s.bitmaps.insert node bm'
            latestFreeNode := node
            latestFreePtr := p } := by
  obtain ⟨size, hsize, h⟩ := bind_eq_ok.mp h
  obtain rfl : howmany * 8 = size := by
    rw [sizeOf8] at hsize
    split at hsize
    · exact Except.ok.inj hsize
    · cases hsize
  dsimp only at h
  split at h
  · next hnone =>
      obtain ⟨blocks, -, h⟩ := bind_eq_ok.mp h
      cases h
      exact .inl ⟨hnone, blocks, rfl⟩
  · next node hsome =>
      obtain ⟨s₁, hclr, h⟩ := bind_eq_ok.mp h
      obtain ⟨bm, hload, hclr⟩ := bind_eq_ok.mp hclr
      obtain ⟨bm', hregion, hclr⟩ := bind_eq_ok.mp hclr
      have hlen := (bmRegion_ok hregion).1
      cases hclr
      refine .inr ⟨node, bm, bm', hsome, load_eq_ok.mp hload, hlen, ?_⟩
      split at h
      · next heq =>
          cases h
          exact (if_pos heq).symm
      · next hne =>
          cases h
          exact (if_neg hne).symm

/-! ## the nodes below a node -/

/-- The nodes below `a`. -/
def below (nodes : List Nat) (a : Nat) : List Nat := nodes.filter (· < a)

theorem length_below_lt {nodes : List Nat} (ha : a ∈ nodes) :
    (below nodes a).length < nodes.length :=
  List.length_filter_lt_length_iff_exists.mpr ⟨a, ha, by simp⟩

/-- A higher node has more nodes below it. -/
theorem length_below_lt_below {nodes : List Nat} (ha : a ∈ nodes) (hab : a < b) :
    (below nodes a).length < (below nodes b).length := by
  have hsub : below nodes a = below (below nodes b) a := by
    rw [below, below, below, List.filter_filter]
    refine List.filter_congr fun x _ => ?_
    simp only [Bool.and_eq_decide, decide_eq_decide, decide_eq_true_eq]
    omega
  rw [hsub]
  exact length_below_lt (List.mem_filter.mpr ⟨ha, by simpa using hab⟩)

/-- `rb_next` goes to a node of the tree that is behind. -/
theorem rbNext_spec {t : RbTree Nat} (h : InOrder t.toList) (hnext : rbNext t a = .ok (some b)) :
    b ∈ t.toList ∧ a + memNodeBodySize ≤ b := by
  rw [rbNext] at hnext
  split at hnext
  · next ha =>
      obtain ⟨xs, ys, hsplit, hno⟩ := List.eq_append_cons_of_mem ha
      have hxs : ∀ x ∈ xs, decide (x ≠ a) = true := fun x hx =>
        decide_eq_true fun e => hno (e ▸ hx)
      have hdrop : t.toList.dropWhile (· ≠ a) = a :: ys := by
        rw [hsplit, List.dropWhile_append_of_pos hxs]
        simp
      rw [hdrop] at hnext
      have hb : b ∈ ys := List.mem_of_mem_head? (Except.ok.inj hnext)
      rw [InOrder, hsplit] at h
      refine ⟨by simp [hsplit, hb], ?_⟩
      exact (List.pairwise_cons.mp (List.pairwise_append.mp h).2.1).1 b hb
  · cases hnext

/-! ## the invariant -/

/-- An allocation lies in a body up to the node of `current_series_ptr`, or is larger than a
body and lies in none. -/
def InUse (nodes : List Nat) (series : Nat) (x : Nat × Nat) : Prop :=
  0 < x.2 ∧ ((∃ a ∈ nodes, a ≤ series ∧ a ≤ x.1 ∧ x.1 + x.2 * 8 ≤ a + 4096) ∨
    4096 < x.2 * 8 ∧ ∀ a ∈ nodes, x.1 < a ∨ a + 4096 ≤ x.1)

/-- The invariant: nothing has been taken behind `current_series_ptr` and the nodes before
its own are used up to at most their size. -/
structure Counted (num : Nat) (s : Pool) (live : List (Nat × Nat)) : Prop where
  num_lt : num * 4096 < 2 ^ 31
  nb : s.poolNodeNb.toNat = num
  total : s.poolTotalSize.toNat = num * 4096
  inOrder : InOrder s.rbroot.toList
  length_le : s.rbroot.toList.length ≤ num
  words : ∀ a bm, s.bitmaps.lookup a = some bm → bm.length = 8
  series_mem : s.currentSeriesNode ∈ s.rbroot.toList
  series_le : s.currentSeriesNode ≤ s.currentSeriesPtr ∧
    s.currentSeriesPtr ≤ s.currentSeriesNode + 4096
  latest_mem : s.latestFreeNode ∈ s.rbroot.toList
  latest_le : s.latestFreeNode ≤ s.currentSeriesNode
  latest_in : s.latestFreeNode ≤ s.latestFreePtr ∧ s.latestFreePtr < s.latestFreeNode + 4096
  left : ∃ done, done ≤ (below s.rbroot.toList s.currentSeriesNode).length * 4096 ∧
    s.poolLeftSeriesSize.toNat + done + (s.currentSeriesPtr - s.currentSeriesNode) = num * 4096
  live : ∀ x ∈ live, InUse s.rbroot.toList s.currentSeriesNode x

/-- Nodes that are in use stay in use when the series goes on. -/
theorem InUse.mono (h : InUse nodes series x) (hle : series ≤ series') : InUse nodes series' x := by
  obtain ⟨hpos, ⟨a, ha, has, hin⟩ | hout⟩ := h
  · exact ⟨hpos, .inl ⟨a, ha, has.trans hle, hin⟩⟩
  · exact ⟨hpos, .inr hout⟩

theorem toNat_sub_ofNat {x : BitVec 64} (h : n ≤ x.toNat) :
    (x - BitVec.ofNat 64 n).toNat = x.toNat - n := by
  have hn : (BitVec.ofNat 64 n).toNat = n := Nat.mod_eq_of_lt (by omega)
  rw [BitVec.toNat_sub_of_le (by rwa [BitVec.le_def, hn]), hn]

theorem toNat_add_ofNat {x : BitVec 64} (h : x.toNat + n < 2 ^ 64) :
    (x + BitVec.ofNat 64 n).toNat = x.toNat + n := by
  have hn : (BitVec.ofNat 64 n).toNat = n := Nat.mod_eq_of_lt (by omega)
  rw [BitVec.toNat_add_of_lt (by rwa [hn]), hn]

/-- The block of an address inside a node. -/
theorem toInt_divRoundUp8_of_le {p a : Nat} (hle : a ≤ p) (hlt : p ≤ a + 4096) :
    toInt (divRoundUp8 ((p : Int) - a)) = ((p - a + 7) / 8 : Nat) := by
  rw [divRoundUp8, toInt_eq (by omega) (by omega)]
  omega

/-- Bitmaps of eight words, one of which is set anew. -/
theorem words_insert {bitmaps : Heap Bitmap}
    (h : ∀ a bm, bitmaps.lookup a = some bm → bm.length = 8) (hbm : bm.length = 8) :
    ∀ a bm', (bitmaps.insert b bm).lookup a = some bm' → bm'.length = 8 := by
  intro a bm' ha
  rw [lookup_insert_eq_ite] at ha
  split at ha
  · cases ha
    exact hbm
  · exact h a bm' ha

section Counted

variable {s s' : Pool} {live : List (Nat × Nat)} (h : Counted num s live)
include h

theorem Counted.num_eq : num < 2 ^ 19 := by
  have := h.num_lt
  omega

/-- What is taken behind `current_series_ptr` in its body has been left. -/
theorem Counted.room (hsize : s.currentSeriesPtr + n ≤ s.currentSeriesNode + 4096) :
    n ≤ s.poolLeftSeriesSize.toNat := by
  obtain ⟨done, hdone, hleft⟩ := h.left
  have hbelow := length_below_lt h.series_mem
  have hle := h.length_le
  have hseries := h.series_le
  omega

/-- An allocation from the latest free place keeps the counters. -/
theorem Counted.latest_step (hn : n ≠ 0)
    (hfree : s.issetRegion s.latestFreeNode s.latestFreePos n = .ok false)
    (hstep : pallocLatest s n (n * 8) = .ok (s', p)) :
    ∃ q, p = some q ∧ Counted num s' ((q, n) :: live) ∧
      s'.poolLeftSeriesSize ≤ s.poolLeftSeriesSize := by
  -- the region is in the bitmap, and so its end in the body
  obtain ⟨bm, hload, hisset⟩ := bind_eq_ok.mp hfree
  obtain ⟨k, hpos, hk, -⟩ := bmIssetRegion_false (by omega) hisset
  rw [h.words _ _ (load_eq_ok.mp hload)] at hk
  obtain ⟨hlo, hhi⟩ := h.latest_in
  rw [Pool.latestFreePos, toInt_divRoundUp8_of_le hlo (by omega)] at hpos
  have hend : s.latestFreePtr + n * 8 ≤ s.latestFreeNode + 4096 := by omega
  have huse : InUse s.rbroot.toList s.currentSeriesNode (s.latestFreePtr, n) :=
    ⟨by omega, .inl ⟨_, h.latest_mem, h.latest_le, hlo, hend⟩⟩
  obtain ⟨s₁, hset, hstep⟩ := bind_eq_ok.mp hstep
  obtain ⟨bm₀, bm', hbm, hlen, rfl⟩ := setbitRegion_eq_ok hset
  have hwords := words_insert (b := s.latestFreeNode) h.words (hlen.trans (h.words _ _ hbm))
  have hlive : ∀ x ∈ (s.latestFreePtr, n) :: live,
      InUse s.rbroot.toList s.currentSeriesNode x := List.forall_mem_cons.mpr ⟨huse, h.live⟩
  obtain ⟨hslo, hshi⟩ := h.series_le
  split at hstep
  · next heq =>
      cases hstep
      -- a place of both nodes: they are one
      have hnode : s.latestFreeNode = s.currentSeriesNode := by
        by_contra hne
        have hapart := apart_iff.mp (h.inOrder.apart h.latest_mem h.series_mem hne)
        have := h.latest_le
        omega
      have hroom := h.room (n := n * 8) (by omega)
      have hsub := toNat_sub_ofNat hroom
      obtain ⟨done, hdone, hleft⟩ := h.left
      refine ⟨_, rfl, { h with
        words := hwords
        series_le := ?_
        left := ⟨done, hdone, ?_⟩
        live := hlive }, ?_⟩
      · dsimp only
        omega
      · dsimp only
        omega
      · rw [BitVec.le_def, hsub]
        omega
  · cases hstep
    exact ⟨_, rfl, { h with words := hwords, live := hlive }, BitVec.le_refl _⟩

/-- An allocation from the series keeps the counters. -/
theorem Counted.series_step (hn : n ≠ 0) (hfit : fitsBody s.currentSeriesPos (n * 8) = .ok true)
    (hstep : pallocSeries s n (n * 8) = .ok (s', p)) :
    ∃ q, p = some q ∧ Counted num s' ((q, n) :: live) ∧
      s'.poolLeftSeriesSize ≤ s.poolLeftSeriesSize := by
  obtain ⟨hslo, hshi⟩ := h.series_le
  have hend : s.currentSeriesPtr + n * 8 < s.currentSeriesNode + 4096 := by
    have hpos : s.currentSeriesPos = (s.currentSeriesPtr : Int) - s.currentSeriesNode :=
      toInt_eq (by omega) (by omega)
    rw [fitsBody, hpos] at hfit
    split at hfit
    · have hlt := of_decide_eq_true (Except.ok.inj hfit)
      simp only [memNodeBodySize, Nat.reduceShiftLeft] at hlt
      omega
    · cases hfit
  have huse : InUse s.rbroot.toList s.currentSeriesNode (s.currentSeriesPtr, n) :=
    ⟨by omega, .inl ⟨_, h.series_mem, le_refl _, hslo, hend.le⟩⟩
  have hroom := h.room hend.le
  have hsub := toNat_sub_ofNat hroom
  obtain ⟨s₁, hset, hstep⟩ := bind_eq_ok.mp hstep
  obtain ⟨bm₀, bm', hbm, hlen, rfl⟩ := setbitRegion_eq_ok hset
  have hwords := words_insert (b := s.currentSeriesNode) h.words (hlen.trans (h.words _ _ hbm))
  obtain ⟨done, hdone, hleft⟩ := h.left
  obtain ⟨hlo, hhi⟩ := h.latest_in
  cases hstep
  refine ⟨_, rfl, { h with
    words := hwords
    series_le := ?_
    latest_in := ?_
    left := ⟨done, hdone, ?_⟩
    live := List.forall_mem_cons.mpr ⟨huse, h.live⟩ }, ?_⟩
  · dsimp only
    omega
  · dsimp only
    split
    · next heq =>
        have hnode : s.latestFreeNode = s.currentSeriesNode := by
          by_contra hne
          have hapart := apart_iff.mp (h.inOrder.apart h.latest_mem h.series_mem hne)
          have := h.latest_le
          omega
        omega
    · exact ⟨hlo, hhi⟩
  · dsimp only
    omega
  · rw [BitVec.le_def, hsub]
    omega

/-- An allocation from the next node keeps the counters. -/
theorem Counted.next_step (hn : n ≠ 0) (hsize : n * 8 ≤ 4096)
    (hnext : rbNext s.rbroot s.currentSeriesNode = .ok (some next))
    (hstep : pallocNext s next n (n * 8) = .ok (s', p)) :
    ∃ q, p = some q ∧ Counted num s' ((q, n) :: live) ∧
      s'.poolLeftSeriesSize ≤ s.poolLeftSeriesSize := by
  obtain ⟨hmem, hbehind⟩ := rbNext_spec h.inOrder hnext
  simp only [memNodeBodySize, Nat.reduceShiftLeft] at hbehind
  obtain ⟨hslo, hshi⟩ := h.series_le
  obtain ⟨done, hdone, hleft⟩ := h.left
  have hbelow := length_below_lt_below h.series_mem (show s.currentSeriesNode < next by omega)
  have hlast := length_below_lt hmem
  have hlength := h.length_le
  have hroom : n * 8 ≤ s.poolLeftSeriesSize.toNat := by omega
  have hsub := toNat_sub_ofNat hroom
  have huse : InUse s.rbroot.toList next (next, n) :=
    ⟨by omega, .inl ⟨_, hmem, le_refl _, le_refl _, by omega⟩⟩
  obtain ⟨s₁, hset, hstep⟩ := bind_eq_ok.mp hstep
  obtain ⟨bm₀, bm', hbm, hlen, rfl⟩ := setbitRegion_eq_ok hset
  have hwords := words_insert (b := next) h.words (hlen.trans (h.words _ _ hbm))
  have hle := h.latest_le
  have hmono : s.currentSeriesNode ≤ next := by omega
  cases hstep
  refine ⟨_, rfl, { h with
    words := hwords
    series_mem := hmem
    series_le := ?_
    latest_le := ?_
    left := ⟨done + (s.currentSeriesPtr - s.currentSeriesNode), ?_, ?_⟩
    live := List.forall_mem_cons.mpr ⟨huse, fun x hx => (h.live x hx).mono hmono⟩ }, ?_⟩
  · dsimp only
    omega
  · dsimp only
    omega
  · dsimp only
    omega
  · dsimp only
    omega
  · rw [BitVec.le_def, hsub]
    omega

/-- The node that is found for an allocation has the body that it lies in, which is one up to
that of `current_series_ptr`. -/
theorem Counted.found (hx : (p, n) ∈ live) (hsearch : minipwrMemNodeSearch s.rbroot p = some node)
    (hlt : p < node + memNodeBodySize) :
    node ∈ s.rbroot.toList ∧ node ≤ s.currentSeriesNode ∧ node ≤ p ∧ p + n * 8 ≤ node + 4096 := by
  obtain ⟨hnone, -⟩ | ⟨x, hsome, hmem, ⟨hlo, hhi⟩, -⟩ := minipwrMemNodeSearch_spec h.inOrder p
  · rw [hnone] at hsearch
    cases hsearch
  obtain rfl : x = node := Option.some.inj (hsome.symm.trans hsearch)
  simp only [memNodeBodySize, Nat.reduceShiftLeft] at hlt
  obtain ⟨hn, ⟨a, ha, hseries, halo, hahi⟩ | ⟨-, hout⟩⟩ := h.live _ hx
  · obtain rfl : a = x := by
      by_contra hne
      have hapart := apart_iff.mp (h.inOrder.apart ha hmem hne)
      simp only at hn halo hahi
      omega
    exact ⟨hmem, hseries, hlo, hahi⟩
  · have := hout x hmem
    simp only at this
    omega

/-- What is freed is given back. -/
theorem Counted.free_step (hx : (p, n) ∈ live) (hstep : minipwrPfree s (some p) n = .ok s')
    (hin : ∀ a ∈ minipwrMemNodeSearch s.rbroot p, p < a + memNodeBodySize)
    (hright : minipwrMemNodeSearch s.rbroot p ≠ none → s.currentSeriesPtr = p + n * 8 →
      s.currentSeriesNode ≤ p) :
    Counted num s' (live.erase (p, n)) ∧ s.poolLeftSeriesSize ≤ s'.poolLeftSeriesSize := by
  have hlive : ∀ x ∈ live.erase (p, n), InUse s.rbroot.toList s.currentSeriesNode x :=
    fun x hx => h.live x (List.mem_of_mem_erase hx)
  obtain ⟨-, blocks, rfl⟩ | ⟨node, bm, bm', hsearch, hbm, hlen, hs'⟩ := minipwrPfree_cases hstep
  · exact ⟨{ h with live := hlive }, BitVec.le_refl _⟩
  · have hlt := hin node hsearch
    simp only [memNodeBodySize, Nat.reduceShiftLeft] at hlt
    obtain ⟨hmem, hseries, hlo, hhi⟩ := h.found hx hsearch hlt
    have hwords := words_insert (b := node) h.words (hlen.trans (h.words _ _ hbm))
    split at hs'
    · next heq =>
        have hge := hright (by simp [hsearch]) heq
        obtain ⟨done, hdone, hleft⟩ := h.left
        obtain ⟨hslo, hshi⟩ := h.series_le
        have hnum := h.num_eq
        have hadd := toNat_add_ofNat (x := s.poolLeftSeriesSize) (n := n * 8) (by omega)
        subst hs'
        refine ⟨{ h with
          words := hwords
          series_le := ?_
          latest_mem := hmem
          latest_le := hseries
          latest_in := ⟨hlo, hlt⟩
          left := ⟨done, hdone, ?_⟩
          live := hlive }, ?_⟩
        · dsimp only
          omega
        · dsimp only
          omega
        · rw [BitVec.le_def, hadd]
          omega
    · subst hs'
      exact ⟨{ h with
        words := hwords
        latest_mem := hmem
        latest_le := hseries
        latest_in := ⟨hlo, hlt⟩
        live := hlive }, BitVec.le_refl _⟩

end Counted

/-- **One call** keeps the counters right and does not wrap them. -/
theorem poolStep_counted {s s' : PoolRun} (h : Counted num s.pool s.live)
    (hmatch : op.Matching s) (hin : op.InBitmap s.pool) (hright : op.CountsRight s.pool)
    (hstep : poolStep s op = .ok (s', p)) :
    Counted num s'.pool s'.live ∧ op.NoWrap s.pool s'.pool := by
  cases op with
  | palloc howmany addr =>
      obtain ⟨⟨pool, q⟩, hpalloc, hstep⟩ := bind_eq_ok.mp hstep
      cases hstep
      have hplace : (∃ a, p = some a ∧ Counted num pool ((a, howmany) :: s.live) ∧
          pool.poolLeftSeriesSize ≤ s.pool.poolLeftSeriesSize) →
          Counted num pool ((p.map (·, howmany)).toList ++ s.live) ∧
            pool.poolLeftSeriesSize ≤ s.pool.poolLeftSeriesSize := by
        rintro ⟨a, rfl, hcounted, hle⟩
        exact ⟨hcounted, hle⟩
      obtain ⟨hlarge, ⟨rfl, rfl⟩ | ⟨a, blocks, rfl, rfl, rfl⟩⟩ | ⟨rfl, rfl⟩ |
        ⟨hsmall, hzero, ⟨hfree, hs⟩ | ⟨hfit, hs⟩ | ⟨next, hnext, hs⟩ | ⟨hnode, hs⟩⟩ :=
        minipwrPalloc_cases hpalloc
      · exact ⟨h, BitVec.le_refl _⟩
      · refine hplace ⟨a, rfl, ?_, BitVec.le_refl _⟩
        have huse : InUse s.pool.rbroot.toList s.pool.currentSeriesNode (a, howmany) := by
          simp only [memNodeBodySize, Nat.reduceShiftLeft] at hlarge
          refine ⟨by omega, .inr ⟨by omega, fun b hb => ?_⟩⟩
          have := (hmatch a rfl).2 b hb
          simp only [memNodeBodySize, Nat.reduceShiftLeft] at this ⊢
          omega
        exact { h with live := List.forall_mem_cons.mpr ⟨huse, h.live⟩ }
      · exact ⟨h, BitVec.le_refl _⟩
      · exact hplace (h.latest_step (by omega) hfree hs)
      · exact hplace (h.series_step (by omega) hfit hs)
      · exact hplace (h.next_step (by omega) hsmall hnext hs)
      · obtain rfl := hright hnode
        cases hs
        exact ⟨h, BitVec.le_refl _⟩
  | pfree p howmany =>
      obtain ⟨pool, hpfree, hstep⟩ := bind_eq_ok.mp hstep
      cases hstep
      exact h.free_step hmatch hpfree hin hright

/-! ## no call fails -/

/-- Every node of the tree has its bitmap, and what is larger than a body is a block of the
system's allocator, each of which is held once. -/
structure Held (s : Pool) (live : List (Nat × Nat)) : Prop where
  linked : ∀ a ∈ s.rbroot.toList, a ∈ s.bitmaps
  size : ∀ x ∈ live, x.2 * 8 < 2 ^ 31
  blocks : ∀ x ∈ live, 4096 < x.2 * 8 → x.1 ∈ s.blocks
  once : live.Pairwise fun x y => 4096 < x.2 * 8 → 4096 < y.2 * 8 → x.1 ≠ y.1

/-- `s'` has the nodes and the blocks of `s`, and all bitmaps. -/
structure KeepsNodes (s s' : Pool) : Prop where
  rbroot : s'.rbroot = s.rbroot
  blocks : s'.blocks = s.blocks
  bitmaps : ∀ a ∈ s.bitmaps, a ∈ s'.bitmaps

/-- An allocation in a node needs no block of its own. -/
theorem Held.alloc {s s' : Pool} {live : List (Nat × Nat)} (h : Held s live)
    (hsmall : n * 8 ≤ 4096) (hkeeps : KeepsNodes s s') : Held s' ((q, n) :: live) where
  linked a ha := by
    rw [hkeeps.rbroot] at ha
    exact hkeeps.bitmaps a (h.linked a ha)
  size := List.forall_mem_cons.mpr ⟨by omega, h.size⟩
  blocks := by
    rw [hkeeps.blocks]
    exact List.forall_mem_cons.mpr ⟨fun hlarge => absurd hlarge (by omega), h.blocks⟩
  once := List.pairwise_cons.mpr
    ⟨fun _ _ hlarge => absurd hlarge (by simp only; omega), h.once⟩

/-- A block that was not in use is held once. -/
theorem Held.alloc_block {s : Pool} {live : List (Nat × Nat)} (h : Held s live)
    (hsize : n * 8 < 2 ^ 31) (hfresh : a ∉ s.blocks) (size : Nat) :
    Held { s with blocks := s.blocks.insert a size } ((a, n) :: live) where
  linked := h.linked
  size := List.forall_mem_cons.mpr ⟨hsize, h.size⟩
  blocks := by
    refine List.forall_mem_cons.mpr ⟨fun _ => (AList.mem_insert _).mpr (.inl rfl), ?_⟩
    exact fun x hx hlarge => mem_insert_of_mem (h.blocks x hx hlarge) _ _
  once := by
    refine List.pairwise_cons.mpr ⟨fun x hx _ hlarge => ?_, h.once⟩
    rintro rfl
    exact hfresh (h.blocks x hx hlarge)

/-- What is freed from a node gives back no block. -/
theorem Held.free {s s' : Pool} {live : List (Nat × Nat)} (h : Held s live)
    (hkeeps : KeepsNodes s s') (x : Nat × Nat) : Held s' (live.erase x) where
  linked a ha := by
    rw [hkeeps.rbroot] at ha
    exact hkeeps.bitmaps a (h.linked a ha)
  size y hy := h.size y (List.mem_of_mem_erase hy)
  blocks y hy hlarge := by
    rw [hkeeps.blocks]
    exact h.blocks y (List.mem_of_mem_erase hy) hlarge
  once := h.once.sublist List.erase_sublist

/-- A block that is freed is none of the others that are held. -/
theorem Held.free_block {s : Pool} {live : List (Nat × Nat)} (h : Held s live)
    (hx : (p, n) ∈ live) (hlarge : 4096 < n * 8) :
    Held { s with blocks := s.blocks.erase p } (live.erase (p, n)) where
  linked := h.linked
  size y hy := h.size y (List.mem_of_mem_erase hy)
  blocks y hy hlarge' := by
    have hpairs := ((List.perm_cons_erase hx).pairwise_iff
      fun hxy hb ha => (hxy ha hb).symm).mp h.once
    have hne : p ≠ y.1 := (List.pairwise_cons.mp hpairs).1 y hy hlarge hlarge'
    exact AList.mem_erase.mpr ⟨hne.symm, h.blocks y (List.mem_of_mem_erase hy) hlarge'⟩
  once := h.once.sublist List.erase_sublist

section Progress

variable {s : Pool} {live : List (Nat × Nat)} (h : Counted num s live) (hheld : Held s live)
include h hheld

/-- The bits of units inside of a body can be set. -/
theorem Counted.setbit_ok (hnode : node ∈ s.rbroot.toList) (hk : k + n ≤ 512) :
    ∃ bm', s.setbitRegion node (k : Nat) n =
      .ok { s with bitmaps := s.bitmaps.insert node bm' } := by
  obtain ⟨bm, hbm⟩ := lookup_of_mem (hheld.linked node hnode)
  have hlen := h.words node bm hbm
  obtain ⟨bm', hset, -⟩ :=
    bmRegion_eq writes_setMask (show k + n ≤ 64 * bm.length by omega) (by omega)
  refine ⟨bm', ?_⟩
  rw [Pool.setbitRegion, load_ok hbm, ok_bind]
  exact bind_eq_ok.mpr ⟨bm', hset, rfl⟩

/-- The bits of units inside of a body can be cleared. -/
theorem Counted.clrbit_ok (hnode : node ∈ s.rbroot.toList) (hk : k + n ≤ 512) :
    ∃ bm', s.clrbitRegion node (k : Nat) n =
      .ok { s with bitmaps := s.bitmaps.insert node bm' } := by
  obtain ⟨bm, hbm⟩ := lookup_of_mem (hheld.linked node hnode)
  have hlen := h.words node bm hbm
  obtain ⟨bm', hclr, -⟩ :=
    bmRegion_eq writes_clrMask (show k + n ≤ 64 * bm.length by omega) (by omega)
  refine ⟨bm', ?_⟩
  rw [Pool.clrbitRegion, load_ok hbm, ok_bind]
  exact bind_eq_ok.mpr ⟨bm', hclr, rfl⟩

/-- An allocation from the latest free place succeeds. -/
theorem Counted.latest_ok (hn : n ≠ 0)
    (hfree : s.issetRegion s.latestFreeNode s.latestFreePos n = .ok false) :
    ∃ s' q, pallocLatest s n (n * 8) = .ok (s', some q) ∧ KeepsNodes s s' := by
  obtain ⟨bm, hload, hisset⟩ := bind_eq_ok.mp hfree
  obtain ⟨k, hpos, hk, -⟩ := bmIssetRegion_false (by omega) hisset
  rw [h.words _ _ (load_eq_ok.mp hload)] at hk
  obtain ⟨bm', hset⟩ := h.setbit_ok hheld h.latest_mem hk
  have hmem : ∀ a ∈ s.bitmaps, a ∈ s.bitmaps.insert s.latestFreeNode bm' :=
    fun a ha => mem_insert_of_mem ha _ _
  rw [pallocLatest, hpos, hset, ok_bind]
  split
  · exact ⟨_, _, rfl, rfl, rfl, hmem⟩
  · exact ⟨_, _, rfl, rfl, rfl, hmem⟩

omit hheld in
/-- The size and the offset of `current_series_ptr` do not overflow. -/
theorem Counted.fitsBody_ok (hsmall : n * 8 ≤ 4096) :
    fitsBody s.currentSeriesPos (n * 8) =
      .ok (s.currentSeriesPtr + n * 8 < s.currentSeriesNode + 4096) := by
  obtain ⟨hlo, hhi⟩ := h.series_le
  have hpos : s.currentSeriesPos = (s.currentSeriesPtr : Int) - s.currentSeriesNode :=
    toInt_eq (by omega) (by omega)
  rw [fitsBody, hpos, if_pos (by omega)]
  simp only [memNodeBodySize, Nat.reduceShiftLeft, Except.ok.injEq, decide_eq_decide]
  omega

/-- An allocation from the series succeeds while it fits. -/
theorem Counted.series_ok (hfit : s.currentSeriesPtr + n * 8 < s.currentSeriesNode + 4096) :
    ∃ s' q, pallocSeries s n (n * 8) = .ok (s', some q) ∧ KeepsNodes s s' := by
  obtain ⟨hlo, hhi⟩ := h.series_le
  have hpos : divRoundUp8 s.currentSeriesPos =
      ((s.currentSeriesPtr - s.currentSeriesNode + 7) / 8 : Nat) := by
    rw [Pool.currentSeriesPos, toInt_eq (by omega) (by omega), divRoundUp8]
    omega
  obtain ⟨bm', hset⟩ := h.setbit_ok hheld (n := n)
    (k := (s.currentSeriesPtr - s.currentSeriesNode + 7) / 8) h.series_mem (by omega)
  rw [pallocSeries, hpos, hset, ok_bind]
  exact ⟨_, _, rfl, rfl, rfl, fun a ha => mem_insert_of_mem ha _ _⟩

/-- An allocation from the next node succeeds when there is one. -/
theorem Counted.next_ok (hsmall : n * 8 ≤ 4096)
    (hnext : rbNext s.rbroot s.currentSeriesNode = .ok (some next)) :
    ∃ s' q, pallocNext s next n (n * 8) = .ok (s', some q) ∧ KeepsNodes s s' := by
  obtain ⟨hmem, -⟩ := rbNext_spec h.inOrder hnext
  obtain ⟨bm', hset⟩ := h.setbit_ok hheld (k := 0) (n := n) hmem (by omega)
  rw [pallocNext, show (0 : Int) = (0 : Nat) from rfl, hset, ok_bind]
  exact ⟨_, _, rfl, rfl, rfl, fun a ha => mem_insert_of_mem ha _ _⟩

/-- An allocation of an `int` of bytes succeeds, as long as the look at `latest_free_ptr`
stays in the bitmap and no node has to be added. -/
theorem Counted.palloc_ok {addr : Ptr} (hint : n * 8 < 2 ^ 31)
    (hfresh : ∀ a ∈ addr, a ∉ s.blocks)
    (hlook : 0 < n → n * 8 ≤ memNodeBodySize →
      s.issetRegion s.latestFreeNode s.latestFreePos n = .ok true ∨
      s.issetRegion s.latestFreeNode s.latestFreePos n = .ok false)
    (hgrow : s.NeedsNode n → addr = none) :
    ∃ s' q, minipwrPalloc s n addr = .ok (s', q) ∧
      Held s' ((q.map (·, n)).toList ++ live) := by
  have hplace : ∀ {r}, (∃ s' q, r = .ok (s', some q) ∧ KeepsNodes s s') → n * 8 ≤ 4096 →
      ∃ s' q, (r : Except Fault (Pool × Ptr)) = .ok (s', q) ∧
        Held s' ((q.map (·, n)).toList ++ live) := by
    rintro r ⟨s', q, hs, hkeeps⟩ hsmall
    exact ⟨s', some q, hs, hheld.alloc hsmall hkeeps⟩
  rw [minipwrPalloc, show sizeOf8 n = .ok (n * 8) from if_pos hint, ok_bind]
  split
  · next hlarge =>
      cases addr with
      | none => exact ⟨_, none, rfl, hheld⟩
      | some a => exact ⟨_, some a, rfl, hheld.alloc_block hint (hfresh a rfl) _⟩
  · next hsmall =>
      simp only [memNodeBodySize, Nat.reduceShiftLeft] at hsmall
      split
      · exact ⟨_, none, rfl, hheld⟩
      · next hzero =>
          have hfits := h.fitsBody_ok (n := n) (by omega)
          rcases hlook (by omega) (Nat.le_of_not_lt hsmall) with htaken | hfree
          · simp only [htaken, hfits, ok_bind, Bool.true_eq_false, if_false, decide_eq_true_eq]
            split
            · next hfit => exact hplace (h.series_ok hheld hfit) (by omega)
            · next hfit =>
                obtain ⟨r, hr⟩ : ∃ r, rbNext s.rbroot s.currentSeriesNode = .ok r :=
                  ⟨_, if_pos h.series_mem⟩
                rw [hr, ok_bind]
                cases r with
                | some next => exact hplace (h.next_ok hheld (by omega) hr) (by omega)
                | none =>
                    rw [decide_eq_false hfit] at hfits
                    obtain rfl := hgrow ⟨Nat.le_of_not_lt hsmall, hzero, htaken, hfits, hr⟩
                    exact ⟨_, none, rfl, hheld⟩
          · rw [hfree, ok_bind, if_pos rfl]
            exact hplace (h.latest_ok hheld (by omega) hfree) (by omega)

/-- What is allocated in a body, or as a block, can be freed. -/
theorem Counted.pfree_ok (hx : (p, n) ∈ live)
    (hin : ∀ a ∈ minipwrMemNodeSearch s.rbroot p, p < a + memNodeBodySize) :
    ∃ s', minipwrPfree s (some p) n = .ok s' ∧ Held s' (live.erase (p, n)) := by
  rw [minipwrPfree, show sizeOf8 n = .ok (n * 8) from if_pos (hheld.size _ hx), ok_bind]
  dsimp only
  cases hsearch : minipwrMemNodeSearch s.rbroot p with
  | none =>
      -- no body has it, so that it is a block
      obtain ⟨-, hmiss⟩ | ⟨x, hsome, -⟩ := minipwrMemNodeSearch_spec h.inOrder p
      · obtain ⟨-, ⟨a, ha, -, hlo, hhi⟩ | ⟨hlarge, -⟩⟩ := h.live _ hx
        · refine absurd ⟨hlo, ?_⟩ (hmiss a ha)
          simp only [memNodeBodySize, Nat.reduceShiftLeft] at hhi ⊢
          omega
        · rw [free_ok (hheld.blocks _ hx hlarge)]
          exact ⟨_, rfl, hheld.free_block hx hlarge⟩
      · rw [hsome] at hsearch
        cases hsearch
  | some node =>
      have hlt := hin node hsearch
      obtain ⟨hmem, -, hlo, hhi⟩ := h.found hx hsearch hlt
      simp only [memNodeBodySize, Nat.reduceShiftLeft] at hlt
      obtain ⟨bm', hregion⟩ := h.clrbit_ok hheld (k := (p - node + 7) / 8) (n := n) hmem (by omega)
      have hfreed : ∀ {s' : Pool}, s'.rbroot = s.rbroot → s'.blocks = s.blocks →
          s'.bitmaps = s.bitmaps.insert node bm' → Held s' (live.erase (p, n)) := by
        intro s' hrbroot hblocks hbitmaps
        refine hheld.free ⟨hrbroot, hblocks, fun a ha => ?_⟩ _
        rw [hbitmaps]
        exact mem_insert_of_mem ha _ _
      simp only [toInt_divRoundUp8_of_le hlo (show p ≤ node + 4096 by omega), hregion, ok_bind]
      split
      · exact ⟨_, rfl, hfreed rfl rfl rfl⟩
      · exact ⟨_, rfl, hfreed rfl rfl rfl⟩

end Progress

/-- **One call** whose bits are in the bitmaps succeeds. -/
theorem poolStep_held {s : PoolRun} (h : Counted num s.pool s.live) (hheld : Held s.pool s.live)
    (hmatch : op.Matching s) (hin : op.InBitmap s.pool) (hright : op.CountsRight s.pool) :
    ∃ s' p, poolStep s op = .ok (s', p) ∧ Held s'.pool s'.live := by
  cases op with
  | palloc howmany addr =>
      obtain ⟨hint, hlook⟩ := hin
      obtain ⟨pool', p, hs, hheld'⟩ :=
        h.palloc_ok hheld hint (fun a ha => (hmatch a ha).1) hlook hright
      exact ⟨_, p, by rw [poolStep, hs]; rfl, hheld'⟩
  | pfree p howmany =>
      obtain ⟨pool', hs, hheld'⟩ := h.pfree_ok hheld hmatch hin
      exact ⟨_, none, by rw [poolStep, hs]; rfl, hheld'⟩

/-! ## every run -/

/-- The nodes of a new pool are in order. -/
theorem insertNodes_counted {root : RbTree Nat} {bitmaps : Heap Bitmap}
    (h : InOrder root.toList) (hblack : root.isRed = false)
    (hapart : ∀ a ∈ root.toList, ∀ d ∈ addrs, Apart a d) (happ : addrs.Pairwise Apart)
    (hwords : ∀ a bm, bitmaps.lookup a = some bm → bm.length = 8)
    (hs : insertNodes root bitmaps addrs = .ok (root', bitmaps')) :
    InOrder root'.toList ∧ root'.toList.length ≤ root.toList.length + addrs.length ∧
      (∀ a ∈ root.toList, a ∈ root'.toList) ∧
      ∀ a bm, bitmaps'.lookup a = some bm → bm.length = 8 := by
  induction addrs generalizing root bitmaps with
  | nil =>
      cases hs
      exact ⟨h, le_refl _, fun a ha => ha, hwords⟩
  | cons d addrs ih =>
      obtain ⟨hhead, htail⟩ := List.pairwise_cons.mp happ
      obtain ⟨root₁, r, hinsert, h₁, hblack₁, hif⟩ :=
        minipwrMemNodeInsert_spec h hblack fun a ha => hapart a ha d List.mem_cons_self
      have hnew : root₁.toList.length ≤ root.toList.length + 1 ∧
          (∀ a ∈ root.toList, a ∈ root₁.toList) ∧ ∀ a ∈ root₁.toList, a = d ∨ a ∈ root.toList := by
        split at hif
        · rw [hif.1]
          exact ⟨by omega, fun a ha => ha, fun a ha => .inr ha⟩
        · refine ⟨by rw [hif.1.length_eq, List.length_cons], fun a ha => ?_, fun a ha => ?_⟩
          · exact hif.1.symm.subset (List.mem_cons_of_mem _ ha)
          · exact List.mem_cons.mp (hif.1.subset ha)
      rw [insertNodes, hinsert, ok_bind] at hs
      obtain ⟨hord, hlen, hkeep, hw⟩ := ih h₁ hblack₁ (fun a ha b hb => by
        obtain rfl | ha := hnew.2.2 a ha
        · exact hhead b hb
        · exact hapart a ha b (List.mem_cons_of_mem _ hb)) htail
        (words_insert hwords (by simp [newBitmap])) hs
      refine ⟨hord, ?_, fun a ha => hkeep a (hnew.2.1 a ha), hw⟩
      rw [List.length_cons]
      omega

/-- The counters of a new pool are right. -/
theorem minipwrCreatePool_counted {addrs : List Nat} (happ : addrs.Pairwise Apart)
    (hs : minipwrCreatePool addrs = .ok (some s₀)) : Counted addrs.length s₀ [] := by
  cases addrs with
  | nil => cases hs
  | cons preal addrs =>
      rw [minipwrCreatePool] at hs
      split at hs
      · cases hs
      · next hnum =>
          obtain ⟨⟨root, bitmaps⟩, hinsert, hs⟩ := bind_eq_ok.mp hs
          cases hs
          have hlt : (preal :: addrs).length * 4096 < 2 ^ 31 := by
            simp only [memNodeBodySize, Nat.reduceShiftLeft] at hnum
            omega
          have hnil : InOrder (RbTree.nil : RbTree Nat).toList := List.Pairwise.nil
          obtain ⟨hhead, htail⟩ := List.pairwise_cons.mp happ
          -- the first node comes into an empty tree
          obtain ⟨root₁, r, hfirst, h₁, hblack₁, hif⟩ :=
            minipwrMemNodeInsert_spec (d := preal) hnil rfl (by simp [RbTree.toList])
          rw [if_neg (by simp [RbTree.toList])] at hif
          have hroot₁ : root₁.toList = [preal] := List.perm_singleton.mp hif.1
          rw [insertNodes, hfirst, ok_bind] at hinsert
          obtain ⟨hord, hlen, hkeep, hwords⟩ := insertNodes_counted h₁ hblack₁
            (by rw [hroot₁]; simpa using hhead) htail
            (words_insert (by simp) (by simp [newBitmap])) hinsert
          have hmem : preal ∈ root.toList := hkeep preal (by simp [hroot₁])
          have hsize : (BitVec.ofNat 64 ((preal :: addrs).length * memNodeBodySize)).toNat =
              (preal :: addrs).length * 4096 := Nat.mod_eq_of_lt (by
            simp only [memNodeBodySize, Nat.reduceShiftLeft]
            omega)
          refine ⟨hlt, Nat.mod_eq_of_lt (by omega), hsize, hord, ?_, hwords, hmem,
            ⟨le_refl _, Nat.le_add_right _ _⟩, hmem, le_refl _, ⟨le_refl _, by simp⟩,
            ⟨0, Nat.zero_le _, ?_⟩, by simp⟩
          · rw [hroot₁] at hlen
            simpa [Nat.add_comm] using hlen
          · dsimp only
            rw [hsize]
            omega

/-- What the invariant says of the counters. -/
theorem Counted.countersRight {s : Pool} {live : List (Nat × Nat)} (h : Counted num s live) :
    s.CountersRight := by
  obtain ⟨done, -, hleft⟩ := h.left
  refine ⟨?_, ?_⟩
  · rw [h.total, h.nb]
    rfl
  · rw [BitVec.le_def, h.total]
    omega

/-- **The counters are right in every run** in which the bits of each call are in the
bitmaps and no call adds a node or gives back the end of a lower body; the next such call
succeeds, and does not wrap the series size. -/
theorem pool_counters (addrs : List Nat) (hne : addrs ≠ [])
    (hsize : addrs.length * memNodeBodySize < 2 ^ 31) (happ : addrs.Pairwise Apart) :
    ∃ s₀, minipwrCreatePool addrs = .ok (some s₀) ∧
      ∀ t s, Run poolStep (fun s op => op.Matching s ∧ op.InBitmap s.pool ∧ op.CountsRight s.pool)
          ⟨s₀, []⟩ t s →
        s.pool.CountersRight ∧
          ∀ op : PoolOp, op.Matching s → op.InBitmap s.pool → op.CountsRight s.pool →
            ∃ s' p, poolStep s op = .ok (s', p) ∧ op.NoWrap s.pool s'.pool := by
  obtain ⟨s₀, hs₀, hinv⟩ := minipwrCreatePool_inv hne hsize happ
  refine ⟨s₀, hs₀, fun t s hrun => ?_⟩
  have hinit : Held s₀ [] := ⟨hinv.linked, by simp, by simp, List.Pairwise.nil⟩
  obtain ⟨h, hheld⟩ : Counted addrs.length s.pool s.live ∧ Held s.pool s.live := by
    refine hrun.invariant_of_progress
      (I := fun _ s => Counted addrs.length s.pool s.live ∧ Held s.pool s.live)
      ⟨minipwrCreatePool_counted happ hs₀, hinit⟩ ?_
    rintro - s op ⟨h, hheld⟩ ⟨hmatch, hin, hright⟩
    obtain ⟨s', p, hs, hheld'⟩ := poolStep_held h hheld hmatch hin hright
    exact ⟨s', p, hs, (poolStep_counted h hmatch hin hright hs).1, hheld'⟩
  refine ⟨h.countersRight, fun op hmatch hin hright => ?_⟩
  obtain ⟨s', p, hs, -⟩ := poolStep_held h hheld hmatch hin hright
  exact ⟨s', p, hs, (poolStep_counted h hmatch hin hright hs).2⟩

/-- Allocations in two nodes and of a block; one of the first node is freed and its place
taken again. -/
theorem pool_counters_two :
    ∃ s₀ t s, minipwrCreatePool [4096, 16384] = .ok (some s₀) ∧
      Run poolStep (fun s op => op.Matching s ∧ op.InBitmap s.pool ∧ op.CountsRight s.pool)
        ⟨s₀, []⟩ t s ∧
      s.live = [(4096, 2), (65536, 600), (16384, 500), (4112, 300)] ∧ s.pool.CountersRight := by
  obtain ⟨s₀, hs₀, hall⟩ := pool_counters [4096, 16384] (by simp) (by decide) (by decide)
  have hreplay : ((minipwrCreatePool [4096, 16384]).toOption.join.bind fun s₀ =>
      (replay poolStep (fun s op => op.Matching s ∧ op.InBitmap s.pool ∧ op.CountsRight s.pool)
        ⟨s₀, []⟩ [.palloc 2 none, .palloc 300 none, .palloc 500 none, .palloc 600 (some 65536),
          .pfree 4096 2, .palloc 2 none]).map fun r => r.2.live) =
      some [(4096, 2), (65536, 600), (16384, 500), (4112, 300)] := by
    decide +kernel
  rw [hs₀] at hreplay
  obtain ⟨⟨t, s⟩, hs, hlive⟩ := Option.map_eq_some_iff.mp hreplay
  have hrun := Run.nil.replay hs
  exact ⟨s₀, t, s, hs₀, hrun, hlive, (hall t s hrun).1⟩

/-- **A new node**: the total counts its header, and the series size wraps. -/
theorem pool_counters_grow :
    ∃ s₀ t s, minipwrCreatePool [4096] = .ok (some s₀) ∧
      Run poolStep (fun s op => op.Matching s) ⟨s₀, []⟩ t s ∧ ¬ s.pool.CountersRight ∧
      s.pool.poolTotalSize = 4192 ∧ s.pool.poolNodeNb = 2 ∧
      s.pool.poolLeftSeriesSize = 18446744073709547616 := by
  have hreplay : ((minipwrCreatePool [4096]).toOption.join.bind fun s₀ =>
      (replay poolStep (fun s op => op.Matching s) ⟨s₀, []⟩
        [.palloc 512 none, .palloc 512 (some 65536)]).map fun r =>
          (r.2.pool.poolTotalSize, r.2.pool.poolNodeNb, r.2.pool.poolLeftSeriesSize)) =
      some (4192, 2, 18446744073709547616) := by decide +kernel
  obtain ⟨s₀, hs₀, hreplay⟩ := Option.bind_eq_some_iff.mp hreplay
  obtain ⟨⟨t, s⟩, hs, hvals⟩ := Option.map_eq_some_iff.mp hreplay
  obtain ⟨htotal, hvals⟩ := Prod.mk.inj hvals
  obtain ⟨hnb, hleft⟩ := Prod.mk.inj hvals
  refine ⟨s₀, t, s, eq_ok_of_toOption (Option.join_eq_some_iff.mp hs₀), Run.nil.replay hs, ?_,
    htotal, hnb, hleft⟩
  rintro ⟨hsize, -⟩
  rw [htotal, hnb] at hsize
  cases hsize

/-- **The end of a lower body is given back**: more is left than the pool has.  The node at
16384 is above the one at 12288, whose body ends where the other begins. -/
theorem pool_counters_lower_body :
    ∃ s₀ t s, minipwrCreatePool [4096, 16384, 32768, 12288] = .ok (some s₀) ∧
      Run poolStep (fun s op => op.Matching s) ⟨s₀, []⟩ t s ∧
      s.pool.poolTotalSize < s.pool.poolLeftSeriesSize := by
  have hreplay :
      ((minipwrCreatePool [4096, 16384, 32768, 12288]).toOption.join.bind fun s₀ =>
        (replay poolStep (fun s op => op.Matching s) ⟨s₀, []⟩
          [.palloc 1 none, .palloc 512 none, .pfree 12288 512, .palloc 1 none, .palloc 512 none,
            .pfree 16384 512, .pfree 12288 1, .palloc 512 none, .pfree 12288 512]).map fun r =>
          (r.2.pool.poolTotalSize, r.2.pool.poolLeftSeriesSize)) =
      some (16384, 20464) := by decide +kernel
  obtain ⟨s₀, hs₀, hreplay⟩ := Option.bind_eq_some_iff.mp hreplay
  obtain ⟨⟨t, s⟩, hs, hvals⟩ := Option.map_eq_some_iff.mp hreplay
  obtain ⟨htotal, hleft⟩ := Prod.mk.inj hvals
  refine ⟨s₀, t, s, eq_ok_of_toOption (Option.join_eq_some_iff.mp hs₀), Run.nil.replay hs, ?_⟩
  rw [htotal, hleft]
  decide

end MySrc
