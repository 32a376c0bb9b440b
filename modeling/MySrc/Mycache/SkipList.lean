import MySrc.Mycache.Levels

/-!
# MySrc.Mycache.SkipList

`mycache/src/struct/skip_list.c` on the common list of `MySrc.Mycache.Levels`.

Several entries may have one priority, told apart by two hashes.  `skip_list_del`
looks for the predecessors by priority alone and then goes on to the entry with
the right hashes; when that is not the first entry of its priority, the loop that
unlinks it ends at once, and the node is freed while it is still linked
(`del_leaves_linked`).  `skipListDel_exact_iff` says that this is the only way
for a deletion to go wrong.
-/

namespace MySrc

open Lib
open Function (update)

/-! ## the functions -/

/-- A skip list and the memory its nodes live in; the fields `phead` and `nlevel`
of the nodes are not used. -/
structure SkipList where
  mem : LevelMem Unit
  shead : LevelHead

/-- `skip_list_init`; `addr` is what `malloc` returns for the head node. -/
def skipListInit (addr : Nat) : SkipList := ⟨AList.insert addr (headNode ()) ∅, ⟨0, addr⟩⟩

/-- `skip_list_add` -/
def skipListAdd (s : SkipList) (priority ack1 ack2 : BitVec 64) (random : Fin 16) (addr : Nat) :
    Except Fault (SkipList × Ptr) := do
  let (mem, shead, node) ← levelsAdd s.mem s.shead () priority ack1 ack2 random addr
  return (⟨mem, shead⟩, node)

/-- `skip_list_del` -/
def skipListDel (s : SkipList) (priority ack1 ack2 : BitVec 64) :
    Except Fault (SkipList × Ptr) := do
  let (mem, shead, node) ← levelsDel s.mem s.shead priority ack1 ack2
  return (⟨mem, shead⟩, node)

/-- `skip_list_search` -/
def skipListSearch (s : SkipList) (priority ack1 ack2 : BitVec 64) : Except Fault Ptr :=
  levelsSearch s.mem s.shead priority ack1 ack2

/-- A call that changes the list. -/
inductive SkipOp
  | add (priority ack1 ack2 : BitVec 64) (random : Fin 16) (addr : Nat)
  | del (priority ack1 ack2 : BitVec 64)

/-- One call. -/
def skipStep (s : SkipList) : SkipOp → Except Fault (SkipList × Ptr)
  | .add priority ack1 ack2 random addr => skipListAdd s priority ack1 ack2 random addr
  | .del priority ack1 ack2 => skipListDel s priority ack1 ack2

/-- `malloc` returns memory that is not in use. -/
def SkipOp.Fresh (s : SkipList) : SkipOp → Prop
  | .add _ _ _ _ addr => addr ∉ s.mem
  | .del _ _ _ => True

instance (s : SkipList) (op : SkipOp) : Decidable (op.Fresh s) :=
  match op with
  | .add _ _ _ _ addr => inferInstanceAs (Decidable (addr ∉ s.mem))
  | .del _ _ _ => inferInstanceAs (Decidable True)

/-! ## exact deletion -/

/-- `skip_list_del` deletes one such entry: it unlinks its node on every level,
leaves every other node reachable where it was, and the triple is not found
any more if it was there once. -/
def SkipList.DeletesExactly (s : SkipList) (priority ack1 ack2 : BitVec 64) : Prop :=
  ∃ s' v, skipListDel s priority ack1 ack2 = .ok (s', some v) ∧
    Reaches s.mem s.shead 0 v ∧ carries s.mem priority ack1 ack2 v = true ∧ v ∉ s'.mem ∧
    (∀ l < 16, ¬ Reaches s'.mem s'.shead l v) ∧
    (∀ l < 16, ∀ a, a ≠ v → Reaches s.mem s.shead l a →
      Reaches s'.mem s'.shead l a ∧ entryAt s'.mem a = entryAt s.mem a) ∧
    ((∀ a, Reaches s.mem s.shead 0 a → carries s.mem priority ack1 ack2 a = true → a = v) →
      skipListSearch s' priority ack1 ack2 = .ok none)

/-- A call deletes only the first entry of its priority, if any. -/
def SkipOp.FirstOnly (s : SkipList) : SkipOp → Prop
  | .add _ _ _ _ _ => True
  | .del priority ack1 ack2 =>
      Present s.mem s.shead priority ack1 ack2 → FirstCarries s.mem s.shead priority ack1 ack2

section Step

variable {s : SkipList} {c : Nat → List Nat} (h : Levels s.mem s.shead c)
  {priority ack1 ack2 : BitVec 64}
include h

/-- A deletion of the first entry of its priority is exact. -/
theorem deletesExactly_of_first
    (hfind : (c 0).find? (carries s.mem priority ack1 ack2) = some v)
    (hfirst : (behind s.mem (· < priority) (c 0)).head? = some v) :
    s.DeletesExactly priority ack1 ack2 := by
  obtain ⟨mem', level', hdel, h', hentry, -⟩ := h.del_first hfind hfirst
  have hv : v ∈ c 0 := List.mem_of_find?_eq_some hfind
  have hgone : ∀ l, v ∉ (c l).erase v := fun l hl =>
    h.notMem_erase hfirst l (List.mem_cons_of_mem _ hl)
  let s' : SkipList := ⟨mem', { s.shead with level := level' }⟩
  have hreach : ∀ l < 16, ∀ a, Reaches s'.mem s'.shead l a ↔ a ∈ (c l).erase v :=
    fun l hl a => h'.reaches_iff hl
  refine ⟨s', v, ?_, (h.reaches_iff (by omega)).mpr hv, List.find?_some hfind, ?_, ?_, ?_, ?_⟩
  · simp only [skipListDel, hdel, ok_bind, pure_eq_ok, s']
  · have : entryAt mem' v = none := by rw [hentry, Function.update_self]
    rw [← AList.lookup_eq_none]
    simpa [entryAt] using this
  · intro l hl
    rw [hreach l hl]
    exact hgone l
  · intro l hl a ha hra
    rw [h.reaches_iff hl] at hra
    rw [hreach l hl]
    refine ⟨(List.mem_erase_of_ne ha).mpr hra, ?_⟩
    rw [show entryAt s'.mem = entryAt mem' from rfl, hentry, Function.update_of_ne ha]
  · intro honce
    rw [skipListSearch, h'.search_eq, List.find?_eq_none.mpr]
    intro a ha hca
    have hav : a ≠ v := fun e => hgone 0 (e ▸ ha)
    refine hav (honce a ((h.reaches_iff (by omega)).mpr (List.mem_of_mem_erase ha)) ?_)
    rw [carries, hentry, Function.update_of_ne hav] at hca
    exact hca

/-- A deletion of a later entry leaves it linked. -/
theorem not_deletesExactly_of_later
    (hfind : (c 0).find? (carries s.mem priority ack1 ack2) = some v)
    (hlater : (behind s.mem (· < priority) (c 0)).head? ≠ some v) :
    ¬ s.DeletesExactly priority ack1 ack2 := by
  rintro ⟨s', v', hdel, -, -, -, hgone, -⟩
  obtain ⟨level', hdel'⟩ := h.del_later hfind hlater
  simp only [skipListDel, hdel', ok_bind, pure_eq_ok, Except.ok.injEq, Prod.mk.injEq,
    Option.some.injEq] at hdel
  obtain ⟨rfl, rfl⟩ := hdel
  -- the chain up to the freed node is as it was
  obtain ⟨xs, zs, hc⟩ := List.append_of_mem (List.mem_of_find?_eq_some hfind)
  have hp := h.chain 0 (Nat.zero_le _)
  have hnd := h.nodup
  rw [hc] at hp hnd
  refine hgone 0 (by omega) ⟨xs, hp.to_mem.frame fun a ha => ?_⟩
  have hav : a ≠ v := by
    rintro rfl
    rw [← List.cons_append] at hnd
    exact (List.nodup_append.mp hnd).2.2 a ha a List.mem_cons_self rfl
  rw [elemAt_erase, Function.update_of_ne hav]

theorem deletesExactly_iff (hpresent : Present s.mem s.shead priority ack1 ack2) :
    s.DeletesExactly priority ack1 ack2 ↔ FirstCarries s.mem s.shead priority ack1 ack2 := by
  obtain ⟨v, hfind⟩ := h.present_iff.mp hpresent
  by_cases hfirst : (behind s.mem (· < priority) (c 0)).head? = some v
  · exact iff_of_true (deletesExactly_of_first h hfind hfirst)
      (h.firstCarries_iff.mpr ⟨v, hfind, hfirst⟩)
  · refine iff_of_false (not_deletesExactly_of_later h hfind hfirst) fun hf => hfirst ?_
    obtain ⟨w, hw, hfirst⟩ := h.firstCarries_iff.mp hf
    rw [hfind] at hw
    rw [hfirst, hw]

/-- **One call** that adds, or deletes the first entry of its priority, succeeds
and keeps the invariant. -/
theorem skipStep_levels (op : SkipOp) (hfresh : op.Fresh s) (hfirst : op.FirstOnly s) :
    ∃ s' node c', skipStep s op = .ok (s', node) ∧ Levels s'.mem s'.shead c' := by
  cases op with
  | add priority ack1 ack2 random addr =>
      obtain ⟨mem', hadd, h', -⟩ := h.add_eq hfresh () priority ack1 ack2 random
      exact ⟨_, _, _, by simp only [skipStep, skipListAdd, hadd, ok_bind, pure_eq_ok]; rfl, h'⟩
  | del priority ack1 ack2 =>
      by_cases hpresent : Present s.mem s.shead priority ack1 ack2
      · obtain ⟨v, hfind, hhead⟩ := h.firstCarries_iff.mp (hfirst hpresent)
        obtain ⟨mem', level', hdel, h', -⟩ := h.del_first hfind hhead
        exact ⟨_, _, _, by simp only [skipStep, skipListDel, hdel, ok_bind, pure_eq_ok]; rfl, h'⟩
      · have hfind : (c 0).find? (carries s.mem priority ack1 ack2) = none := by
          rw [h.present_iff] at hpresent
          exact Option.eq_none_iff_forall_ne_some.mpr fun v hv => hpresent ⟨v, hv⟩
        have hdel := h.del_absent hfind
        exact ⟨_, _, _, by simp only [skipStep, skipListDel, hdel, ok_bind, pure_eq_ok]; rfl, h⟩

end Step

/-! ## adding and searching -/

/-- A new list is empty on every level. -/
theorem skipListInit_levels (addr : Nat) :
    Levels (skipListInit addr).mem (skipListInit addr).shead fun _ => [] :=
  levels_headNode (AList.lookup_insert _)

/-- A well-formed list: on each level a chain through `c l` that ends and is
sorted, each a part of the one below it, and none above `level`. -/
structure SkipList.WellFormed (s : SkipList) (c : Nat → List Nat) : Prop where
  level_le : s.shead.level ≤ 15
  chain : ∀ l ≤ 15, Path (elemAt s.mem l) s.shead.head (c l) none
  sorted : ∀ l ≤ 15, (c l).Pairwise fun a b => prioAt s.mem a ≤ prioAt s.mem b
  sublist : ∀ l < 15, (c (l + 1)).Sublist (c l)
  above : ∀ l ≤ 15, s.shead.level < l → c l = []

theorem SkipList.WellFormed.levels {s : SkipList} {c : Nat → List Nat} (h : s.WellFormed c) :
    Levels s.mem s.shead fun l => if l ≤ 15 then c l else [] where
  level_le := h.level_le
  chain l hl := by
    rw [if_pos hl]
    exact h.chain l hl
  above l hl := by
    split
    · next hl' => exact h.above l hl' hl
    · rfl
  sublist l := by
    by_cases hl : l + 1 ≤ 15
    · rw [if_pos hl, if_pos (by omega)]
      exact h.sublist l hl
    · rw [if_neg hl]
      exact List.nil_sublist _
  nodup := (h.chain 0 (Nat.zero_le _)).nodup
  sorted := h.sorted 0 (Nat.zero_le _)

theorem Levels.wellFormed {s : SkipList} {c : Nat → List Nat} (h : Levels s.mem s.shead c) :
    s.WellFormed c where
  level_le := h.level_le
  chain := h.chain
  sorted l _ := h.sorted.sublist (h.sublist_zero l)
  sublist l _ := h.sublist l
  above l _ := h.above l

/-- **Adding and searching**: on every well-formed list `skip_list_add` returns a
node with the triple and leaves a well-formed list, with just that node put in on
level 0; `skip_list_search` finds a node with the triple exactly when level 0 has
one.  A slot of `update` that was not assigned is an error, so none is read. -/
theorem skipList_add_search {s : SkipList} {c : Nat → List Nat} (h : s.WellFormed c) :
    (∀ priority ack1 ack2 (random : Fin 16) addr, addr ∉ s.mem →
      ∃ s' node c', skipListAdd s priority ack1 ack2 random addr = .ok (s', some node) ∧
        carries s'.mem priority ack1 ack2 node = true ∧ s'.WellFormed c' ∧
        (∃ xs ys, c 0 = xs ++ ys ∧ c' 0 = xs ++ node :: ys) ∧
        ∀ a ∈ c 0, entryAt s'.mem a = entryAt s.mem a) ∧
    ∀ priority ack1 ack2,
      ∃ found, skipListSearch s priority ack1 ack2 = .ok found ∧
        (∀ v ∈ found, v ∈ c 0 ∧ carries s.mem priority ack1 ack2 v = true) ∧
        (found.isSome ↔ ∃ a ∈ c 0, carries s.mem priority ack1 ack2 a = true) := by
  constructor
  · intro priority ack1 ack2 random addr hfresh
    obtain ⟨mem', hadd, h', hentry, -⟩ := h.levels.add_eq hfresh () priority ack1 ack2 random
    have hsplit := h.levels.before_append_behind (le_mono priority) 0
    refine ⟨⟨mem', _⟩, addr, _, ?_, ?_, Levels.wellFormed h', ⟨_, _, hsplit.symm, ?_⟩, ?_⟩
    · simp only [skipListAdd, hadd, ok_bind, pure_eq_ok]
    · rw [carries, hentry, Function.update_self]
      simp
    · rw [addedTo, if_pos (Nat.zero_le _)]
    · intro a ha
      have hne : a ≠ addr := by
        rintro rfl
        exact h.levels.notMem_of_notMem hfresh 0 (List.mem_cons_of_mem _ ha)
      rw [hentry, Function.update_of_ne hne]
  · intro priority ack1 ack2
    refine ⟨_, h.levels.search_eq priority ack1 ack2, fun v hv => ?_, ?_⟩
    · exact ⟨List.mem_of_find?_eq_some hv, List.find?_some hv⟩
    · simp

/-! ## every run -/

/-- Calls that delete only first entries of their priority keep the invariant. -/
theorem run_levels {addr : Nat} {t : List (SkipOp × Ptr)} {s : SkipList}
    (hrun : Run skipStep (fun s op => op.Fresh s ∧ op.FirstOnly s) (skipListInit addr) t s) :
    ∃ c, Levels s.mem s.shead c := by
  refine hrun.invariant_of_progress (I := fun _ s => ∃ c, Levels s.mem s.shead c)
    ⟨_, skipListInit_levels addr⟩ ?_
  rintro - s op ⟨c, hc⟩ ⟨hfresh, hfirst⟩
  obtain ⟨s', node, c', hs, hc'⟩ := skipStep_levels hc op hfresh hfirst
  exact ⟨s', node, hs, c', hc'⟩

/-- A call that adds an entry, in memory that is not in use. -/
def SkipOp.Adds (s : SkipList) (op : SkipOp) : Prop :=
  op.Fresh s ∧ match op with
    | .add _ _ _ _ _ => True
    | .del _ _ _ => False

instance (s : SkipList) (op : SkipOp) : Decidable (op.Adds s) :=
  match op with
  | .add _ _ _ _ _ => inferInstanceAs (Decidable (_ ∧ True))
  | .del _ _ _ => inferInstanceAs (Decidable (_ ∧ False))

theorem SkipOp.Adds.firstOnly {s : SkipList} {op : SkipOp} (h : op.Adds s) :
    op.Fresh s ∧ op.FirstOnly s := by
  refine ⟨h.1, ?_⟩
  cases op with
  | add priority ack1 ack2 random addr => trivial
  | del priority ack1 ack2 => exact h.2.elim

/-- Three entries with towers of two, three and one levels: another one is put between them,
and one that is there is found. -/
theorem skipList_add_search_three :
    ∃ s c, SkipList.WellFormed s c ∧ c 0 = [2, 1, 3] ∧ c 1 = [2, 1] ∧ c 2 = [2] ∧
      (∃ s' node c', skipListAdd s 5 4 4 15 4 = .ok (s', some node) ∧
        carries s'.mem 5 4 4 node = true ∧ s'.WellFormed c' ∧
        (∃ xs ys, c 0 = xs ++ ys ∧ c' 0 = xs ++ node :: ys) ∧
        ∀ a ∈ c 0, entryAt s'.mem a = entryAt s.mem a) ∧
      ∃ found, skipListSearch s 5 1 1 = .ok found ∧
        (∀ v ∈ found, v ∈ c 0 ∧ carries s.mem 5 1 1 v = true) ∧
        (found.isSome ↔ ∃ a ∈ c 0, carries s.mem 5 1 1 a = true) := by
  have hreplay : (replay skipStep (fun s op => op.Adds s) (skipListInit 0)
      [.add 5 1 1 15 1, .add 3 2 2 15 2, .add 7 3 3 0 3]).map (fun r =>
        (decide (Path (elemAt r.2.mem 0) r.2.shead.head [2, 1, 3] none),
          decide (Path (elemAt r.2.mem 1) r.2.shead.head [2, 1] none),
          decide (Path (elemAt r.2.mem 2) r.2.shead.head [2] none), decide (4 ∉ r.2.mem))) =
      some (true, true, true, true) := by
    decide +kernel
  obtain ⟨⟨t, s⟩, hs, hlinks⟩ := Option.map_eq_some_iff.mp hreplay
  simp only [Prod.mk.injEq, decide_eq_true_eq] at hlinks
  obtain ⟨h0, h1, h2, hfresh⟩ := hlinks
  obtain ⟨c, hc⟩ := run_levels ((Run.nil.replay hs).mono fun _ _ => SkipOp.Adds.firstOnly)
  have hwf : s.WellFormed c := hc.wellFormed
  obtain ⟨hadd, hsearch⟩ := skipList_add_search hwf
  refine ⟨s, c, hwf, ?_, ?_, ?_, hadd 5 4 4 15 4 hfresh, hsearch 5 1 1⟩
  · exact (hc.chain 0 (by omega)).unique h0
  · exact (hc.chain 1 (by omega)).unique h1
  · exact (hc.chain 2 (by omega)).unique h2

/-- **A deletion is exact when, and only when, the first entry of its priority has
its hashes**: in every list that calls meeting this condition have built. -/
theorem skipListDel_exact_iff (addr : Nat) (t : List (SkipOp × Ptr)) (s : SkipList)
    (hrun : Run skipStep (fun s op => op.Fresh s ∧ op.FirstOnly s) (skipListInit addr) t s) :
    (∀ op : SkipOp, op.Fresh s → op.FirstOnly s → ∃ s' node, skipStep s op = .ok (s', node)) ∧
    ∀ priority ack1 ack2, Present s.mem s.shead priority ack1 ack2 →
      (s.DeletesExactly priority ack1 ack2 ↔ FirstCarries s.mem s.shead priority ack1 ack2) := by
  obtain ⟨c, hc⟩ := run_levels hrun
  refine ⟨fun op hfresh hfirst => ?_, fun priority ack1 ack2 => deletesExactly_iff hc⟩
  obtain ⟨s', node, -, hs, -⟩ := skipStep_levels hc op hfresh hfirst
  exact ⟨s', node, hs⟩

/-- Three entries of one priority are added and the first of them is deleted; then the
second can be deleted. -/
theorem skipListDel_exact_three :
    ∃ t s, Run skipStep (fun s op => op.Fresh s ∧ op.FirstOnly s) (skipListInit 0) t s ∧
      t.map (·.2) = [some 1, some 2, some 3, some 1] ∧
      Reaches s.mem s.shead 0 2 ∧ Reaches s.mem s.shead 0 3 ∧ s.DeletesExactly 5 2 2 := by
  have hreplay : (replay skipStep (fun s op => op.Adds s) (skipListInit 0)
      [.add 5 1 1 3 1, .add 5 2 2 1 2, .add 5 3 3 0 3]).map (fun r =>
        (r.1.map (·.2), decide (Path (elemAt r.2.mem 0) r.2.shead.head [] (some 1)),
          carries r.2.mem 5 1 1 1, (skipStep r.2 (.del 5 1 1)).toOption.map fun q =>
            (q.2, decide (Path (elemAt q.1.mem 0) q.1.shead.head [] (some 2)),
              decide (Path (elemAt q.1.mem 0) q.1.shead.head [2] (some 3)),
              carries q.1.mem 5 2 2 2))) =
      some ([some 1, some 2, some 3], true, true, some (some 1, true, true, true)) := rfl
  obtain ⟨⟨t, s⟩, hs, hlinks⟩ := Option.map_eq_some_iff.mp hreplay
  simp only [Prod.mk.injEq, decide_eq_true_eq] at hlinks
  obtain ⟨hnodes, hhead, hcarries, hdel⟩ := hlinks
  have hadds := (Run.nil.replay hs).mono fun _ _ => SkipOp.Adds.firstOnly
  obtain ⟨⟨s', node⟩, hs', hlinks'⟩ := Option.map_eq_some_iff.mp hdel
  simp only [Prod.mk.injEq, decide_eq_true_eq] at hlinks'
  obtain ⟨rfl, hhead', hnext, hcarries'⟩ := hlinks'
  have hdels : (SkipOp.del 5 1 1).Fresh s ∧ (SkipOp.del 5 1 1).FirstOnly s :=
    ⟨trivial, fun _ => ⟨[], 1, hhead, hcarries, by simp⟩⟩
  have hrun := hadds.snoc hdels (eq_ok_of_toOption hs')
  have hfirst : FirstCarries s'.mem s'.shead 5 2 2 := ⟨[], 2, hhead', hcarries', by simp⟩
  refine ⟨_, s', hrun, by simp [hnodes], ⟨[], hhead'⟩, ⟨[2], hnext⟩, ?_⟩
  exact ((skipListDel_exact_iff 0 _ s' hrun).2 5 2 2 ⟨2, ⟨[], hhead'⟩, hcarries'⟩).mpr hfirst

/-- **Two entries of one priority**: deleting the second frees its node, and the
first still leads to it. -/
theorem del_leaves_linked :
    ∃ t s, Run skipStep (fun s op => op.Fresh s) (skipListInit 0) t s ∧
      Present s.mem s.shead 5 2 2 ∧ ¬ s.DeletesExactly 5 2 2 := by
  have hreplay : (replay skipStep (fun s op => op.Fresh s) (skipListInit 0)
      [.add 5 1 1 0 1, .add 5 2 2 0 2]).map
      (fun r => (elemAt r.2.mem 0 r.2.shead.head, elemAt r.2.mem 0 1, carries r.2.mem 5 2 2 2,
        (skipListDel r.2 5 2 2).toOption.map fun q =>
          (q.2, elemAt q.1.mem 0 q.1.shead.head, elemAt q.1.mem 0 1))) =
      some (some (some 1), some (some 2), true,
        some (some 2, some (some 1), some (some 2))) := rfl
  obtain ⟨⟨t, s⟩, hs, hv⟩ := Option.map_eq_some_iff.mp hreplay
  simp only [Prod.mk.injEq] at hv
  obtain ⟨hlink0, hlink1, hcarry, hdel⟩ := hv
  refine ⟨t, s, Run.nil.replay hs, ⟨2, ⟨[1], hlink0, hlink1⟩, hcarry⟩, ?_⟩
  rintro ⟨s', v, hdel', -, -, -, hgone, -⟩
  rw [hdel'] at hdel
  simp only [Except.toOption, Option.map_some, Option.some.injEq, Prod.mk.injEq] at hdel
  obtain ⟨rfl, hlink0', hlink1'⟩ := hdel
  exact hgone 0 (by omega) ⟨[1], hlink0', hlink1'⟩

end MySrc
