import MySrc.Mycache.MemPoolRuns

/-!
# MySrc.Mycache.MemPoolSearch

The owner of an address in the memory pool of `MySrc.Mycache.MemPool`.

`minipwr_mem_node_search` and `minipwr_mem_node_insert` compare with `>` where the end of
a body is meant, so they take the address right behind a body for a part of it.  With
bodies that touch each other this loses nodes (`memNodeInsert_run`), and it makes the
search stop at the wrong node (`memNodeSearch_iff`).
-/

namespace MySrc

open Lib

/-! ## places in a tree -/

/-- The node `x` is met on the way from the root down to the node `y`. -/
def RbTree.Above (x y : α) : RbTree α → Prop
  | .nil => False
  | .node _ l a r => a = x ∧ (y ∈ l.toList ∨ y ∈ r.toList) ∨ l.Above x y ∨ r.Above x y

instance RbTree.decidableAbove [DecidableEq α] (x y : α) :
    (t : RbTree α) → Decidable (t.Above x y)
  | .nil => isFalse id
  | .node _ l _ r =>
      have := decidableAbove x y l
      have := decidableAbove x y r
      inferInstanceAs (Decidable (_ ∧ _ ∨ _ ∨ _))

theorem RbTree.Above.mem {t : RbTree α} (h : t.Above x y) : x ∈ t.toList ∧ y ∈ t.toList := by
  induction t with
  | nil => exact h.elim
  | node c l a r ihl ihr =>
      simp only [RbTree.toList, List.mem_append, List.mem_cons]
      obtain ⟨rfl, hy⟩ | h | h := h
      · exact ⟨.inr (.inl rfl), hy.imp_right .inr⟩
      · exact ⟨.inl (ihl h).1, .inl (ihl h).2⟩
      · exact ⟨.inr (.inr (ihr h).1), .inr (.inr (ihr h).2)⟩

/-- Of two nodes at most one is above the other. -/
theorem RbTree.Above.asymm {t : RbTree α} (hnd : t.toList.Nodup) (h : t.Above x y) :
    ¬ t.Above y x := by
  induction t with
  | nil => exact h.elim
  | node c l a r ihl ihr =>
      rw [RbTree.toList, List.nodup_append, List.nodup_cons] at hnd
      obtain ⟨hl, ⟨har, hr⟩, hdis⟩ := hnd
      have hal : a ∉ l.toList := fun ha => hdis a ha a List.mem_cons_self rfl
      have hlr : ∀ z ∈ l.toList, z ∉ r.toList := fun z hz hz' =>
        hdis z hz z (List.mem_cons_of_mem a hz') rfl
      rintro (⟨rfl, hx⟩ | h' | h')
      · obtain ⟨rfl, hy⟩ | h | h := h
        · exact hx.elim hal har
        · exact hal h.mem.2
        · exact har h.mem.2
      · obtain ⟨rfl, hy⟩ | h | h := h
        · exact hal h'.mem.2
        · exact ihl hl h h'
        · exact hlr _ h'.mem.1 h.mem.2
      · obtain ⟨rfl, hy⟩ | h | h := h
        · exact har h'.mem.2
        · exact hlr _ h.mem.1 h'.mem.2
        · exact ihr hr h h'

/-! ## searching -/

/-- A tree of bodies in order, none of which reaches into the next. -/
def InOrder (xs : List Nat) : Prop := xs.Pairwise fun a b => a + memNodeBodySize ≤ b

/-- What the search takes for an address in the body at `a`. -/
def Hit (p a : Nat) : Prop := a ≤ p ∧ p ≤ a + memNodeBodySize

/-- The node whose body has the address, or null when there is none. -/
def IsOwner (addrs : List Nat) (p : Nat) : Option Nat → Prop
  | some a => a ∈ addrs ∧ a ≤ p ∧ p < a + memNodeBodySize
  | none => ∀ a ∈ addrs, ¬ (a ≤ p ∧ p < a + memNodeBodySize)

instance (addrs : List Nat) (p : Nat) : DecidablePred (IsOwner addrs p)
  | some _ => inferInstanceAs (Decidable (_ ∧ _ ∧ _))
  | none => inferInstanceAs (Decidable (∀ _ ∈ _, _))

theorem InOrder.node {l r : RbTree Nat} (h : InOrder (RbTree.node c l d r).toList) :
    InOrder l.toList ∧ InOrder r.toList ∧ (∀ x ∈ l.toList, x + memNodeBodySize ≤ d) ∧
      ∀ x ∈ r.toList, d + memNodeBodySize ≤ x := by
  rw [InOrder, RbTree.toList, List.pairwise_append, List.pairwise_cons] at h
  exact ⟨h.1, h.2.1.2, fun x hx => h.2.2 x hx d List.mem_cons_self, h.2.1.1⟩

theorem InOrder.nodup {xs : List Nat} (h : InOrder xs) : xs.Nodup := by
  refine h.imp fun hab => ?_
  simp only [memNodeBodySize, Nat.reduceShiftLeft] at hab
  omega

instance : Std.Symm Apart := ⟨fun _ _ => Or.symm⟩

theorem InOrder.apart {xs : List Nat} (h : InOrder xs) (ha : a ∈ xs) (hb : b ∈ xs) (hne : a ≠ b) :
    Apart a b := by
  have hpair : xs.Pairwise Apart := h.imp Or.inl
  exact hpair.forall ha hb hne

/-- The search finds a node that it takes for the owner, if there is one, and no other such
node is above it. -/
theorem minipwrMemNodeSearch_spec {t : RbTree Nat} (h : InOrder t.toList) (p : Nat) :
    (minipwrMemNodeSearch t p = none ∧ ∀ y ∈ t.toList, ¬ Hit p y) ∨
    ∃ x, minipwrMemNodeSearch t p = some x ∧ x ∈ t.toList ∧ Hit p x ∧
      ∀ y ∈ t.toList, Hit p y → y = x ∨ t.Above x y := by
  induction t with
  | nil => exact .inl ⟨rfl, by simp [RbTree.toList]⟩
  | node c l d r ihl ihr =>
      obtain ⟨hl, hr, hdl, hdr⟩ := h.node
      have hmem : ∀ y, y ∈ (RbTree.node c l d r).toList ↔ y ∈ l.toList ∨ y = d ∨ y ∈ r.toList := by
        simp [RbTree.toList]
      simp only [Hit, hmem] at ihl ihr ⊢
      rw [minipwrMemNodeSearch]
      by_cases hlt : p < d
      · -- neither the root nor what is on its right is hit
        have hleft : ∀ y, (y ∈ l.toList ∨ y = d ∨ y ∈ r.toList) → y ≤ p → y ∈ l.toList := by
          intro y hy hyp
          obtain hy | rfl | hy := hy
          · exact hy
          · omega
          · have := hdr y hy
            omega
        rw [if_pos hlt]
        obtain ⟨hnone, hno⟩ | ⟨x, hsome, hx, hhit, habove⟩ := ihl hl
        · exact .inl ⟨hnone, fun y hy hyp => hno y (hleft y hy hyp.1) hyp⟩
        · refine .inr ⟨x, hsome, .inl hx, hhit, fun y hy hyp => ?_⟩
          exact (habove y (hleft y hy hyp.1) hyp).imp_right fun ha => .inr (.inl ha)
      · by_cases hgt : p > d + memNodeBodySize
        · have hright : ∀ y, (y ∈ l.toList ∨ y = d ∨ y ∈ r.toList) → p ≤ y + memNodeBodySize →
              y ∈ r.toList := by
            intro y hy hyp
            obtain hy | rfl | hy := hy
            · have := hdl y hy
              omega
            · omega
            · exact hy
          rw [if_neg hlt, if_pos hgt]
          obtain ⟨hnone, hno⟩ | ⟨x, hsome, hx, hhit, habove⟩ := ihr hr
          · exact .inl ⟨hnone, fun y hy hyp => hno y (hright y hy hyp.2) hyp⟩
          · refine .inr ⟨x, hsome, .inr (.inr hx), hhit, fun y hy hyp => ?_⟩
            exact (habove y (hright y hy hyp.2) hyp).imp_right fun ha => .inr (.inr ha)
        · rw [if_neg hlt, if_neg hgt]
          refine .inr ⟨d, rfl, .inr (.inl rfl), by omega, fun y hy _ => ?_⟩
          obtain hy | rfl | hy := hy
          · exact .inr (.inl ⟨rfl, .inl hy⟩)
          · exact .inl rfl
          · exact .inr (.inl ⟨rfl, .inr hy⟩)

/-- **The search is right** exactly when the address is not right behind a body, or is the
start of a body whose node is met first. -/
theorem minipwrMemNodeSearch_owner {t : RbTree Nat} (h : InOrder t.toList) (p : Nat) :
    IsOwner t.toList p (minipwrMemNodeSearch t p) ↔
      ∀ a ∈ t.toList, p = a + memNodeBodySize → t.Above p a := by
  obtain ⟨hnone, hno⟩ | ⟨x, hsome, hx, hhit, habove⟩ := minipwrMemNodeSearch_spec h p
  · rw [hnone]
    refine iff_of_true (fun a ha hp => hno a ha ⟨hp.1, hp.2.le⟩) fun a ha hp => ?_
    exact (hno a ha ⟨by omega, hp.le⟩).elim
  · rw [hsome]
    constructor
    · rintro ⟨-, hle, hlt⟩ a ha rfl
      obtain rfl | hxa := habove a ha ⟨by omega, le_refl _⟩
      · omega
      · -- the body that starts behind another one is hit at its start only
        have hne : a ≠ x := fun e => by simp [e] at hlt
        have hapart := h.apart ha hx hne
        simp only [apart_iff, memNodeBodySize, Nat.reduceShiftLeft] at hapart hle hlt ⊢
        obtain rfl : a + 4096 = x := by omega
        exact hxa
    · intro hp
      refine ⟨hx, hhit.1, lt_of_le_of_ne hhit.2 fun hend => ?_⟩
      have hpx := hp x hx hend
      obtain rfl | hxp := habove p hpx.mem.1 ⟨le_refl _, by omega⟩
      · simp at hend
      · exact hpx.asymm h.nodup hxp

/-! ## inserting -/

/-- What surrounds a place of the tree is below and behind the new body. -/
structure Between (d : Nat) (path : List (RbParent Nat)) : Prop where
  before : ∀ a ∈ rbBefore path, a + memNodeBodySize ≤ d
  behind : ∀ a ∈ rbBehind path, d + memNodeBodySize ≤ a

/-- Going left, a node and what is on its right come behind. -/
theorem Between.left (h : Between d path) (hthis : d + memNodeBodySize ≤ this)
    (hright : ∀ a ∈ r.toList, d + memNodeBodySize ≤ a) :
    Between d (⟨.left, c, this, r⟩ :: path) where
  before := by simpa [rbBefore] using h.before
  behind := by
    simp only [rbBehind, if_true, List.mem_append, List.mem_cons]
    rintro a ((rfl | ha) | ha)
    · exact hthis
    · exact hright a ha
    · exact h.behind a ha

/-- Going right, a node and what is on its left come below. -/
theorem Between.right (h : Between d path) (hthis : this + memNodeBodySize ≤ d)
    (hleft : ∀ a ∈ l.toList, a + memNodeBodySize ≤ d) :
    Between d (⟨.right, c, this, l⟩ :: path) where
  before := by
    simp only [rbBefore, if_true, List.mem_append, List.mem_singleton]
    rintro a (ha | ha | rfl)
    · exact h.before a ha
    · exact hleft a ha
    · exact hthis
  behind := by simpa [rbBehind] using h.behind

/-- The new tree has the new node in order among those of the old one. -/
def InsertedAt (d : Nat) (t : RbTree Nat) (path : List (RbParent Nat)) : Prop :=
  ∃ t' xs ys, memNodeInsertAt d t path = .ok (some t') ∧ t'.isRed = false ∧
    (rbPlug path t).toList = xs ++ ys ∧ t'.toList = xs ++ d :: ys ∧
    (∀ a ∈ xs, a + memNodeBodySize ≤ d) ∧ ∀ a ∈ ys, d + memNodeBodySize ≤ a

theorem insertedAt_nil (hroot : RootBlack path) (hpath : Between d path) :
    InsertedAt d .nil path := by
  obtain ⟨t', ht', hblack⟩ := rbInsert_ok hroot d
  refine ⟨t', rbBefore path, rbBehind path, by rw [memNodeInsertAt, ht']; rfl, hblack, ?_,
    rbInsert_toList ht', hpath.before, hpath.behind⟩
  rw [toList_rbPlug]
  simp [RbTree.toList]

/-- From a place between what is below and behind the new body, the insertion stops at the
body that the new one touches from above, and else puts it in order. -/
theorem memNodeInsertAt_spec {t : RbTree Nat} (path : List (RbParent Nat))
    (h : InOrder t.toList) (hroot : RootBlack path) (htop : path = [] → t.isRed = false)
    (hapart : ∀ a ∈ t.toList, Apart a d) (hpath : Between d path) :
    (memNodeInsertAt d t path = .ok none ∧ ∃ a ∈ t.toList, d = a + memNodeBodySize) ∨
    InsertedAt d t path ∧ ∀ a ∈ t.toList, d ≠ a + memNodeBodySize := by
  induction t generalizing path with
  | nil => exact .inr ⟨insertedAt_nil hroot hpath, by simp [RbTree.toList]⟩
  | node c l this r ihl ihr =>
      obtain ⟨hl, hr, hdl, hdr⟩ := h.node
      have hc : path = [] → c = .black := by
        intro hp
        have := htop hp
        cases c with
        | red => cases this
        | black => rfl
      have hthis := hapart this (by simp [RbTree.toList])
      have hapl : ∀ a ∈ l.toList, Apart a d := fun a ha => hapart a (by simp [RbTree.toList, ha])
      have hapr : ∀ a ∈ r.toList, Apart a d := fun a ha => hapart a (by simp [RbTree.toList, ha])
      have hmem : ∀ y, y ∈ (RbTree.node c l this r).toList ↔
          y ∈ l.toList ∨ y = this ∨ y ∈ r.toList := by
        simp [RbTree.toList]
      have hpos : 0 < memNodeBodySize := by decide
      simp only [InsertedAt, hmem, memNodeInsertAt]
      by_cases hlt : d < this
      · have hge : d + memNodeBodySize ≤ this := hthis.resolve_left (by omega)
        have hright : ∀ a ∈ r.toList, d + memNodeBodySize ≤ a := fun a ha =>
          hge.trans (by have := hdr a ha; omega)
        rw [if_pos hlt]
        obtain ⟨hnone, a, ha, hd⟩ | ⟨hsome, hno⟩ := ihl (⟨.left, c, this, r⟩ :: path) hl
          (hroot.cons hc) (by simp) hapl (hpath.left hge hright)
        · exact .inl ⟨hnone, a, .inl ha, hd⟩
        · refine .inr ⟨hsome, fun a ha hd => ?_⟩
          obtain ha | rfl | ha := ha
          · exact hno a ha hd
          · omega
          · have := hright a ha
            omega
      · by_cases hgt : d > this + memNodeBodySize
        · have hleft : ∀ a ∈ l.toList, a + memNodeBodySize ≤ d := fun a ha => by
            have := hdl a ha
            omega
          rw [if_neg hlt, if_pos hgt]
          obtain ⟨hnone, a, ha, hd⟩ | ⟨hsome, hno⟩ := ihr (⟨.right, c, this, l⟩ :: path) hr
            (hroot.cons hc) (by simp) hapr (hpath.right hgt.le hleft)
          · exact .inl ⟨hnone, a, .inr (.inr ha), hd⟩
          · refine .inr ⟨hsome, fun a ha hd => ?_⟩
            obtain ha | rfl | ha := ha
            · have := hdl a ha
              omega
            · omega
            · exact hno a ha hd
        · rw [if_neg hlt, if_neg hgt]
          have hle : this + memNodeBodySize ≤ d := hthis.resolve_right (by omega)
          exact .inl ⟨rfl, this, .inr (.inl rfl), by omega⟩

/-- **One insertion** into nodes in order: it fails for a body right behind one of them, and
else the new node comes in order. -/
theorem minipwrMemNodeInsert_spec {root : RbTree Nat} (h : InOrder root.toList)
    (hblack : root.isRed = false) (hapart : ∀ a ∈ root.toList, Apart a d) :
    ∃ root' r, minipwrMemNodeInsert root d = .ok (root', r) ∧ InOrder root'.toList ∧
      root'.isRed = false ∧
      if ∃ a ∈ root.toList, d = a + memNodeBodySize then root' = root ∧ r = 0
      else root'.toList.Perm (d :: root.toList) ∧ r = 1 := by
  obtain ⟨hnone, hd⟩ | ⟨⟨t', xs, ys, hsome, hb, hplug, hlist, hxs, hys⟩, hno⟩ :=
    memNodeInsertAt_spec [] h (by simp [RootBlack]) (fun _ => hblack) hapart
      ⟨by simp [rbBefore], by simp [rbBehind]⟩
  · refine ⟨root, 0, by rw [minipwrMemNodeInsert, hnone]; rfl, h, hblack, ?_⟩
    rw [if_pos hd]
    exact ⟨rfl, rfl⟩
  · refine ⟨t', 1, by rw [minipwrMemNodeInsert, hsome]; rfl, ?_, hb, ?_⟩
    · rw [rbPlug] at hplug
      rw [hplug] at h
      obtain ⟨h1, h2, h3⟩ := List.pairwise_append.mp h
      rw [hlist]
      refine List.pairwise_append.mpr ⟨h1, List.pairwise_cons.mpr ⟨hys, h2⟩, fun a ha b hb => ?_⟩
      obtain rfl | hb := List.mem_cons.mp hb
      · exact hxs a ha
      · exact h3 a ha b hb
    · have hnot : ¬∃ a ∈ root.toList, d = a + memNodeBodySize := by
        rintro ⟨a, ha, hd⟩
        exact hno a ha hd
      rw [if_neg hnot]
      rw [rbPlug] at hplug
      rw [hlist, hplug]
      exact ⟨List.perm_middle, rfl⟩

/-- **The insertions**, from a tree in order: all of them succeed when no body comes after
one that ends where it starts, and then the tree has all the nodes. -/
theorem memNodeInsert_run {root : RbTree Nat} (h : InOrder root.toList)
    (hblack : root.isRed = false) (hapart : ∀ a ∈ root.toList, ∀ d ∈ addrs, Apart a d)
    (happ : addrs.Pairwise Apart) :
    ∃ root' rs, exec minipwrMemNodeInsert root addrs = .ok (root', rs) ∧ InOrder root'.toList ∧
      ((∀ r ∈ rs, r = 1) ↔ (∀ a ∈ root.toList, ∀ d ∈ addrs, d ≠ a + memNodeBodySize) ∧
        addrs.Pairwise fun a d => d ≠ a + memNodeBodySize) ∧
      ((∀ r ∈ rs, r = 1) → root'.toList.Perm (addrs ++ root.toList)) := by
  induction addrs generalizing root with
  | nil => exact ⟨root, [], rfl, h, by simp, fun _ => List.Perm.refl _⟩
  | cons d addrs ih =>
      obtain ⟨hhead, htail⟩ := List.pairwise_cons.mp happ
      obtain ⟨root₁, r, hinsert, h₁, hblack₁, hif⟩ :=
        minipwrMemNodeInsert_spec h hblack fun a ha => hapart a ha d List.mem_cons_self
      have hmem₁ : ∀ a ∈ root₁.toList, a = d ∨ a ∈ root.toList := by
        split at hif
        · rw [hif.1]
          exact fun a ha => .inr ha
        · exact fun a ha => List.mem_cons.mp (hif.1.subset ha)
      obtain ⟨root', rs, hexec, h', hiff, hperm⟩ := ih h₁ hblack₁ (fun a ha b hb => by
        obtain rfl | ha := hmem₁ a ha
        · exact hhead b hb
        · exact hapart a ha b (List.mem_cons_of_mem _ hb)) htail
      have hrun : exec minipwrMemNodeInsert root (d :: addrs) = .ok (root', r :: rs) := by
        rw [exec, hinsert, ok_bind]
        dsimp only
        rw [hexec]
        rfl
      refine ⟨root', r :: rs, hrun, h', ?_, ?_⟩
      · rw [List.forall_mem_cons, hiff, List.pairwise_cons]
        simp only [List.forall_mem_cons]
        by_cases hd : ∃ a ∈ root.toList, d = a + memNodeBodySize
        · rw [if_pos hd] at hif
          obtain ⟨a, ha, hd⟩ := hd
          refine iff_of_false (fun hall => ?_) fun hall => (hall.1 a ha).1 hd
          have := hif.2.symm.trans hall.1
          cases this
        · rw [if_neg hd] at hif
          have hmem : ∀ a, a ∈ root₁.toList ↔ a = d ∨ a ∈ root.toList := by
            intro a
            rw [hif.1.mem_iff, List.mem_cons]
          simp only [hmem, forall_eq_or_imp]
          constructor
          · rintro ⟨-, ⟨hd', hroot⟩, hpair⟩
            exact ⟨fun a ha => ⟨fun e => hd ⟨a, ha, e⟩, hroot a ha⟩, hd', hpair⟩
          · rintro ⟨hroot, hd', hpair⟩
            exact ⟨hif.2, ⟨hd', fun a ha => (hroot a ha).2⟩, hpair⟩
      · intro hall
        obtain ⟨hr, hrs⟩ := List.forall_mem_cons.mp hall
        by_cases hd : ∃ a ∈ root.toList, d = a + memNodeBodySize
        · rw [if_pos hd] at hif
          have := hif.2.symm.trans hr
          cases this
        · rw [if_neg hd] at hif
          refine (hperm hrs).trans ?_
          exact ((List.Perm.refl addrs).append hif.1).trans List.perm_middle

/-! ## the owner of an address -/

theorem IsOwner.congr {xs ys : List Nat} (h : ∀ a, a ∈ xs ↔ a ∈ ys) (p : Nat) (r : Option Nat) :
    IsOwner xs p r ↔ IsOwner ys p r := by
  cases r <;> simp [IsOwner, h]

/-- **The owner is found** exactly when no body is inserted after one that ends where it
starts, and the address is not right behind a body, or starts a body whose node is above. -/
theorem memNodeSearch_iff (addrs : List Nat) (happ : addrs.Pairwise Apart) (p : Nat) :
    ∃ root rs, exec minipwrMemNodeInsert .nil addrs = .ok (root, rs) ∧
      ((∀ r ∈ rs, r = 1) ∧ IsOwner addrs p (minipwrMemNodeSearch root p) ↔
        (addrs.Pairwise fun a b => b ≠ a + memNodeBodySize) ∧
          ∀ a ∈ addrs, p = a + memNodeBodySize → root.Above p a) := by
  have hnil : InOrder (RbTree.nil : RbTree Nat).toList := List.Pairwise.nil
  obtain ⟨root, rs, hexec, h, hiff, hperm⟩ :=
    memNodeInsert_run hnil rfl (by simp [RbTree.toList]) happ
  have hiff : (∀ r ∈ rs, r = 1) ↔ addrs.Pairwise fun a b => b ≠ a + memNodeBodySize := by
    simpa [RbTree.toList] using hiff
  refine ⟨root, rs, hexec, ?_⟩
  rw [← hiff]
  refine and_congr_right fun hall => ?_
  have hmem : ∀ a, a ∈ root.toList ↔ a ∈ addrs := by
    intro a
    simpa [RbTree.toList] using (hperm hall).mem_iff (a := a)
  rw [← IsOwner.congr hmem, minipwrMemNodeSearch_owner h]
  simp only [hmem]

/-- Three bodies that touch, inserted from the last to the first. -/
theorem memNodeSearch_iff_three :
    ∃ root rs, exec minipwrMemNodeInsert .nil [12288, 8192, 4096] = .ok (root, rs) ∧
      ((∀ r ∈ rs, r = 1) ∧
          IsOwner [12288, 8192, 4096] 8192 (minipwrMemNodeSearch root 8192) ↔
        ([12288, 8192, 4096].Pairwise fun a b => b ≠ a + memNodeBodySize) ∧
          ∀ a ∈ [12288, 8192, 4096], 8192 = a + memNodeBodySize → root.Above 8192 a) :=
  memNodeSearch_iff [12288, 8192, 4096] (by decide) 8192

/-- A single node is taken for the owner of the address behind it. -/
theorem memNodeSearch_behind :
    ∃ root, exec minipwrMemNodeInsert .nil [4096] = .ok (root, [1]) ∧
      minipwrMemNodeSearch root 8192 = some 4096 ∧
      ¬ IsOwner [4096] 8192 (minipwrMemNodeSearch root 8192) :=
  ⟨_, rfl, by decide, by decide⟩

end MySrc
