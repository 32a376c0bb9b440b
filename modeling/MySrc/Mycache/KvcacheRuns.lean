import MySrc.Mycache.Kvcache

/-!
# MySrc.Mycache.KvcacheRuns

What `MySrc.Mycache.Kvcache` says about whole runs:

* `kvcache_isolated`: calls for one key do not change what `kvcache_get` returns
  for a key with other hashes;
* `kvcache_lastWrite`: keys that are never set while an entry of theirs is stored
  have the value of their last `kvcache_set`, until they expire or are deleted.

A key that is set again keeps its old value (`set_again_keeps_old`), also when
that is past its time.
-/

namespace MySrc

open Lib
open Function (update)

/-! ## runs and what the cache holds -/

/-- The contract of the calls: `malloc` returns free memory, and only an entry that
is the first of its priority is deleted. -/
def KvOp.Exact (s : Kvcache) (op : KvOp) : Prop := op.Fresh s ∧ op.FirstOnly s

section Run

variable {ok : Kvcache → KvOp → Prop} (hok : ∀ s op, ok s op → op.Exact s)
include hok

/-- **Invariant rule**: what the steps of the specification keep holds in every state
reached, of what the cache holds there. -/
theorem run_holds {I : List (KvOp × KvOut) → CellMap → Prop} (hR : Refines s₀ c₀ S₀)
    (hinit : I [] S₀)
    (hstep : ∀ t s c S op S' out, Refines s c S → I t S → ok s op →
      specStep S op = .ok (S', out) → I (t ++ [(op, out)]) S')
    (hrun : Run kvStep ok s₀ t s) : ∃ c S, Refines s c S ∧ I t S := by
  refine hrun.invariant (I := fun t s => ∃ c S, Refines s c S ∧ I t S) ⟨c₀, S₀, hR, hinit⟩ ?_
  rintro t s op s' out ⟨c, S, hR, hI⟩ hop hs
  obtain ⟨e, -, he⟩ | ⟨S', out', s'', c', hspec, hs', hR'⟩ :=
    kvStep_refines hR op (hok s op hop).1 (hok s op hop).2
  · rw [hs] at he
    cases he
  · rw [hs] at hs'
    obtain ⟨rfl, rfl⟩ := Prod.mk.inj (Except.ok.inj hs')
    exact ⟨c', S', hR', hstep t s c S op S' out hR hI hop hspec⟩

end Run

/-- A call that the specification allows succeeds. -/
theorem kvStep_ok (hR : Refines s c S) (hop : op.Exact s) (hspec : specStep S op = .ok (S', out)) :
    ∃ s' c', kvStep s op = .ok (s', out) ∧ Refines s' c' S' := by
  obtain ⟨e, he, -⟩ | ⟨S'', out', s', c', hspec', hs, hR'⟩ := kvStep_refines hR op hop.1 hop.2
  · rw [hspec] at he
    cases he
  · rw [hspec] at hspec'
    obtain ⟨rfl, rfl⟩ := Prod.mk.inj (Except.ok.inj hspec')
    exact ⟨s', c', hs, hR'⟩

/-- A key can always be set. -/
theorem exists_set (hR : Refines s c S) (hk : hashes key = .ok h) (value : List UInt8)
    (ttl now : Int) :
    ∃ a s' c', (KvOp.set key value ttl now 0 a).Exact s ∧
      kvStep s (.set key value ttl now 0 a) = .ok (s', .ret 0) ∧
      Refines s' c' (update S h (S h ++ [⟨value, now, ttl⟩])) := by
  obtain ⟨a, ha⟩ := exists_fresh s.mem
  have hop : (KvOp.set key value ttl now 0 a).Exact s := ⟨ha, trivial⟩
  obtain ⟨s', c', hs, hR'⟩ := kvStep_ok hR hop (by rw [specStep, hk]; rfl)
  exact ⟨a, s', c', hop, hs, hR'⟩

/-- Every short ASCII key has its hashes. -/
theorem hashes_ok (key : List UInt8) (hascii : ∀ b ∈ key, b.toNat < 128)
    (hshort : key.length < 2 ^ 31) :
    ∃ h, hashes key = .ok h := by
  obtain ⟨x, hx⟩ := hashString_ok length_cryptTableInit (by omega : 0 ≤ 4) hascii hshort
  obtain ⟨y, hy⟩ := hashString_ok length_cryptTableInit (by omega : 1 ≤ 4) hascii hshort
  obtain ⟨z, hz⟩ := hashString_ok length_cryptTableInit (by omega : 2 ≤ 4) hascii hshort
  exact ⟨⟨x, y, z⟩, by rw [hashes, hx, hy, hz]; rfl⟩

theorem hashString_of_hashes (hk : hashes key = .ok h) :
    hashString cryptTableInit key 0 = .ok h.hash0 := by
  obtain ⟨x, hx, hk⟩ := bind_eq_ok.mp hk
  obtain ⟨y, -, hk⟩ := bind_eq_ok.mp hk
  obtain ⟨z, -, hk⟩ := bind_eq_ok.mp hk
  cases hk
  exact hx

/-- Keys that differ only in the case of their letters have the same hashes. -/
theorem hashes_congr
    (h : key.map (fun b => toupper (charOf b)) = key'.map fun b => toupper (charOf b)) :
    hashes key = hashes key' := by
  simp only [hashes, hashString_congr h]

/-! ## isolation -/

/-- A call leaves what is stored under other hashes. -/
theorem specStep_frame (hspec : specStep S op = .ok (S', out)) (hne : hashes op.key ≠ .ok h) :
    S' h = S h := by
  have hother : ∀ h', hashes op.key = .ok h' → h ≠ h' := fun h' hk e => hne (e ▸ hk)
  cases op with
  | set key value ttl now random addr =>
      obtain ⟨h', hk, heq⟩ := bind_eq_ok.mp hspec
      cases heq
      exact Function.update_of_ne (hother h' hk) _ _
  | get key now =>
      obtain ⟨h', hk, heq⟩ := bind_eq_ok.mp hspec
      obtain ⟨v, hv, heq⟩ := bind_eq_ok.mp heq
      cases heq
      rfl
  | del key =>
      obtain ⟨h', hk, heq⟩ := bind_eq_ok.mp hspec
      cases heq
      exact Function.update_of_ne (hother h' hk) _ _
  | expire key ttl now =>
      obtain ⟨h', hk, heq⟩ := bind_eq_ok.mp hspec
      obtain ⟨⟨xs, r⟩, hv, heq⟩ := bind_eq_ok.mp heq
      cases heq
      exact Function.update_of_ne (hother h' hk) _ _

section

variable {ok : Kvcache → KvOp → Prop} (hok : ∀ s op, ok s op → op.Exact s)
include hok

/-- Every state that calls have reached holds something. -/
theorem run_refines {addr : Fin maxAreaSize → Nat} (haddr : Function.Injective addr)
    (hrun : Run kvStep ok (kvcacheInit addr) t s) : ∃ c S, Refines s c S := by
  obtain ⟨c, S, hR, -⟩ := run_holds (I := fun _ _ => True) hok (kvcacheInit_refines haddr) trivial
    (fun _ _ _ _ _ _ _ _ _ _ _ => trivial) hrun
  exact ⟨c, S, hR⟩

/-- Calls for other hashes leave what is stored under these. -/
theorem run_frame (hR : Refines s c S) (hother : ∀ s op, ok s op → hashes op.key ≠ .ok h)
    (hrun : Run kvStep ok s t s') : ∃ c' S', Refines s' c' S' ∧ S' h = S h := by
  refine run_holds (I := fun _ S' => S' h = S h) hok hR rfl ?_ hrun
  intro t s c S₁ op S₂ out _ hS hop hspec
  rw [specStep_frame hspec (hother s op hop), hS]

end

/-- **Keys with different hashes are isolated**: in every state that calls have
reached, further calls for one of them do not change what `kvcache_get` returns for
the other, at any time. -/
theorem kvcache_isolated {addr : Fin maxAreaSize → Nat} (haddr : Function.Injective addr)
    (hrun : Run kvStep (fun s op => op.Exact s) (kvcacheInit addr) t s)
    (k1 k2 : List UInt8) (hne : hashes k1 ≠ hashes k2)
    (hrun' : Run kvStep (fun s op => op.key = k1 ∧ op.Exact s) s t' s') (now : Int) :
    kvcacheGet s' k2 now = kvcacheGet s k2 now := by
  obtain ⟨c, S, hR⟩ := run_refines (fun _ _ h => h) haddr hrun
  cases hk : hashes k2 with
  | error e => simp [kvcacheGet, hk]
  | ok h =>
      obtain ⟨c', S', hR', hS⟩ := run_frame (fun _ _ h => h.2) hR
        (fun s op hop => by
          rw [hop.1, ← hk]
          exact hne) hrun'
      rw [hR'.get_eq hk, hR.get_eq hk, hS]

/-- The keys "a" and "b" have different first hashes. -/
theorem hashes_a_b : ∃ ha hb, hashes [97] = .ok ha ∧ hashes [98] = .ok hb ∧ ha.hash0 ≠ hb.hash0 := by
  have hdiff : hashString cryptTableInit [97] 0 ≠ hashString cryptTableInit [98] 0 := by
    -- 'A' picks the 325th entry that is written, 'B' the 330th
    have hA : cryptTableInit[65]? = _ :=
      getElem?_cryptTableInit (rfl : cryptTableWrites[325]? = some 65)
    have hB : cryptTableInit[66]? = _ :=
      getElem?_cryptTableInit (rfl : cryptTableWrites[330]? = some 66)
    rw [hashString_singleton (by decide) hA, hashString_singleton (by decide) hB]
    decide +kernel
  obtain ⟨ha, hka⟩ := hashes_ok [97] (by simp) (by simp)
  obtain ⟨hb, hkb⟩ := hashes_ok [98] (by simp) (by simp)
  refine ⟨ha, hb, hka, hkb, fun heq => hdiff ?_⟩
  rw [hashString_of_hashes hka, hashString_of_hashes hkb, heq]

/-- Setting "a" leaves the value of "b". -/
theorem kvcache_isolated_two :
    ∃ t s t' s', Run kvStep (fun s op => op.Exact s) (kvcacheInit Fin.val) t s ∧
      Run kvStep (fun s op => op.key = [97] ∧ op.Exact s) s t' s' ∧ t' ≠ [] ∧
      kvcacheGet s [98] 5 = .ok (some [1]) ∧ kvcacheGet s' [98] 5 = kvcacheGet s [98] 5 := by
  obtain ⟨ha, hb, hka, hkb, hdiff⟩ := hashes_a_b
  have hne : hashes [97] ≠ hashes [98] := by
    rw [hka, hkb]
    rintro ⟨rfl⟩
    exact hdiff rfl
  obtain ⟨a₁, s₁, c₁, hop₁, hs₁, hR₁⟩ :=
    exists_set (kvcacheInit_refines Fin.val_injective) hkb [1] 10 0
  obtain ⟨a₂, s₂, c₂, hop₂, hs₂, -⟩ := exists_set hR₁ hka [2] 10 1
  have hrun₁ : Run kvStep (fun s op => op.Exact s) _ _ s₁ := Run.nil.snoc hop₁ hs₁
  have hrun₂ : Run kvStep (fun s op => op.key = [97] ∧ op.Exact s) _ _ s₂ :=
    Run.nil.snoc ⟨rfl, hop₂⟩ hs₂
  refine ⟨_, s₁, _, s₂, hrun₁, hrun₂, by simp, ?_,
    kvcache_isolated Fin.val_injective hrun₁ [97] [98] hne hrun₂ 5⟩
  rw [hR₁.get_eq hkb]
  simp [cellGet, Cell.timeout, addLong, InLong]

/-- **The case of letters does not tell keys apart**: setting "A" sets "a". -/
theorem set_other_case :
    ∃ t s, Run kvStep (fun s op => op.key = [65] ∧ op.Exact s) (kvcacheInit Fin.val) t s ∧
      kvcacheGet (kvcacheInit Fin.val) [97] 5 = .ok none ∧
      kvcacheGet s [97] 5 = .ok (some [1]) := by
  have hR₀ := kvcacheInit_refines Fin.val_injective
  obtain ⟨h, hk⟩ := hashes_ok [65] (by simp) (by simp)
  have hk' : hashes [97] = .ok h := by
    rw [← hk]
    exact hashes_congr (by decide)
  obtain ⟨a, s, c, hop, hs, hR⟩ := exists_set hR₀ hk [1] 10 0
  refine ⟨_, s, Run.nil.snoc ⟨rfl, hop⟩ hs, ?_, ?_⟩
  · rw [hR₀.get_eq hk']
    rfl
  · rw [hR.get_eq hk']
    simp [cellGet, Cell.timeout, addLong, InLong]

/-! ## the last write -/

/-- What a call that returned `out` writes for the key `k`. -/
def writeStep (k : List UInt8) (x : Option Cell) : KvOp × KvOut → Option Cell
  | (.set key value ttl now _ _, _) => if key = k then some ⟨value, now, ttl⟩ else x
  | (.del key, out) => if key = k ∧ out = .ret 0 then none else x
  | (.expire key ttl now, out) =>
      if key = k ∧ out = .ret 0 then x.map fun x => { x with tms := now, ttl := ttl } else x
  | (.get _ _, _) => x

/-- The last value set for the key `k` that has not been deleted, with the time and
the `ttl` of that call or of the last successful `kvcache_expire` after it. -/
def lastWrite (k : List UInt8) (t : List (KvOp × KvOut)) : Option Cell := t.foldl (writeStep k) none

/-- The value, up to its time. -/
def valueAt (now : Int) : Option Cell → Option (List UInt8)
  | none => none
  | some x => if now ≤ x.tms + x.ttl then some x.value else none

/-- The sum of the time and the `ttl` of a call is a `long`. -/
def KvOp.TimesFit : KvOp → Prop
  | .set _ _ ttl now _ _ => InLong (now + ttl)
  | .expire _ ttl now => InLong (now + ttl)
  | _ => True

/-- A call sets a key only when no entry of it is stored, not even one past its
time. -/
def KvOp.SetsAbsent (s : Kvcache) : KvOp → Prop
  | .set key _ _ _ _ _ => ∀ h, hashes key = .ok h → ¬ s.Stored h
  | _ => True

/-- The cache holds the last write of the key `k`, and nothing else under its
hashes. -/
def HoldsLast (k : List UInt8) (t : List (KvOp × KvOut)) (S : CellMap) : Prop :=
  ∀ h, hashes k = .ok h → S h = (lastWrite k t).toList ∧ ∀ x ∈ S h, InLong (x.tms + x.ttl)

theorem lastWrite_snoc (k : List UInt8) (t : List (KvOp × KvOut)) (p : KvOp × KvOut) :
    lastWrite k (t ++ [p]) = writeStep k (lastWrite k t) p := by
  simp [lastWrite]

theorem writeStep_of_ne (hk : op.key ≠ k) (x : Option Cell) (out : KvOut) :
    writeStep k x (op, out) = x := by
  cases op <;> simp_all [writeStep, KvOp.key]

theorem Cell.timeout_ok {x : Cell} (hx : InLong (x.tms + x.ttl)) (now : Int) :
    x.timeout now = .ok (decide (now > x.tms + x.ttl)) := by
  rw [Cell.timeout, addLong, if_pos hx]
  rfl

/-- What `kvcache_get` reads when the first entry is the last write. -/
theorem cellGet_toList {x : Option Cell} (hx : ∀ y ∈ x.toList, InLong (y.tms + y.ttl)) (now : Int) :
    cellGet now x.toList = .ok (valueAt now x) := by
  cases x with
  | none => rfl
  | some x =>
      simp only [Option.toList_some, cellGet, Cell.timeout_ok (hx x (by simp)), ok_bind, valueAt]
      by_cases hlate : now ≤ x.tms + x.ttl
      · simp [hlate, Int.not_lt.mpr hlate]
      · simp [hlate, Int.not_le.mp hlate]

/-- Under the contract, one call keeps the last write of its own key. -/
theorem HoldsLast.own_step (hS : HoldsLast op.key t S) (hspec : specStep S op = .ok (S', out))
    (hR : Refines s c S) (habsent : op.SetsAbsent s) (hfit : op.TimesFit) :
    HoldsLast op.key (t ++ [(op, out)]) S' := by
  intro h hk
  obtain ⟨hlast, hlong⟩ := hS h hk
  rw [lastWrite_snoc]
  generalize hx : lastWrite op.key t = x at hlast
  cases op with
  | set key value ttl now random addr =>
      simp only [KvOp.key] at hk
      simp only [specStep, hk, ok_bind, pure_eq_ok, Except.ok.injEq, Prod.mk.injEq] at hspec
      obtain ⟨rfl, rfl⟩ := hspec
      have hnone : S h = [] := by simpa [hR.stored_iff] using habsent h hk
      rw [Function.update_self, hnone]
      exact ⟨by simp [writeStep, KvOp.key], by simpa [KvOp.TimesFit] using hfit⟩
  | get key now =>
      simp only [KvOp.key] at hk
      simp only [specStep, hk, ok_bind] at hspec
      obtain ⟨v, -, heq⟩ := bind_eq_ok.mp hspec
      cases heq
      exact ⟨hlast, hlong⟩
  | del key =>
      simp only [KvOp.key] at hk
      simp only [specStep, hk, ok_bind, pure_eq_ok, Except.ok.injEq, Prod.mk.injEq] at hspec
      obtain ⟨rfl, rfl⟩ := hspec
      rw [Function.update_self, hlast]
      refine ⟨?_, by cases x <;> simp⟩
      cases x <;> simp [writeStep, KvOp.key]
  | expire key ttl now =>
      simp only [KvOp.key] at hk
      simp only [specStep, hk, ok_bind] at hspec
      obtain ⟨⟨xs, r⟩, hxs, heq⟩ := bind_eq_ok.mp hspec
      cases heq
      rw [Function.update_self]
      cases x with
      | none =>
          rw [hlast] at hxs
          cases hxs
          simp [writeStep, KvOp.key]
      | some x =>
          have hx := hlong x (by simp [hlast])
          simp only [hlast, Option.toList_some, cellExpire, Cell.timeout_ok hx, ok_bind] at hxs
          by_cases hlate : now > x.tms + x.ttl
          · simp only [hlate, decide_true, if_true] at hxs
            cases hxs
            refine ⟨by simp [writeStep, KvOp.key], by simpa using hx⟩
          · simp only [hlate, decide_false] at hxs
            cases hxs
            exact ⟨by simp [writeStep, KvOp.key], by simpa [KvOp.TimesFit] using hfit⟩

/-- While the cache holds the last writes, every call can be made. -/
theorem HoldsLast.progress (hS : HoldsLast op.key t S) (hk : hashes op.key = .ok h) :
    ∃ S' out, specStep S op = .ok (S', out) := by
  obtain ⟨hlast, hlong⟩ := hS h hk
  cases op with
  | set key value ttl now random addr =>
      simp only [KvOp.key] at hk
      exact ⟨_, _, by rw [specStep, hk]; rfl⟩
  | get key now =>
      simp only [KvOp.key] at hk
      rw [hlast] at hlong
      exact ⟨_, _, by rw [specStep, hk, ok_bind, hlast, cellGet_toList hlong]; rfl⟩
  | del key =>
      simp only [KvOp.key] at hk
      exact ⟨_, _, by rw [specStep, hk]; rfl⟩
  | expire key ttl now =>
      simp only [KvOp.key] at hk
      obtain ⟨xs, r, hx⟩ : ∃ xs r, cellExpire ttl now (S h) = .ok (xs, r) := by
        cases hSh : S h with
        | nil => exact ⟨_, _, rfl⟩
        | cons x xs =>
            rw [cellExpire, Cell.timeout_ok (hlong x (by simp [hSh])), ok_bind]
            split
            · exact ⟨_, _, rfl⟩
            · exact ⟨_, _, rfl⟩
      exact ⟨_, _, by rw [specStep, hk, ok_bind, hx]; rfl⟩

/-- The calls of `kvcache_lastWrite`: for keys in `K`, setting only what is not
stored. -/
structure KvOp.Regular (K : Set (List UInt8)) (s : Kvcache) (op : KvOp) : Prop where
  key_mem : op.key ∈ K
  exact : op.Exact s
  absent : op.SetsAbsent s
  fit : op.TimesFit

section LastWrite

variable {addr : Fin maxAreaSize → Nat} (haddr : Function.Injective addr)
  {K : Set (List UInt8)} (hdist : Set.InjOn hashes K)
include haddr hdist

/-- Such a run leaves the last writes of all keys in the cache. -/
theorem run_holdsLast
    (hrun : Run kvStep (fun s op => op.Regular K s) (kvcacheInit addr) t s) :
    ∃ c S, Refines s c S ∧ ∀ k ∈ K, HoldsLast k t S := by
  refine run_holds (I := fun t S => ∀ k ∈ K, HoldsLast k t S) (fun _ _ hop => hop.exact)
    (kvcacheInit_refines haddr) (fun _ _ _ _ => ⟨rfl, by simp⟩) ?_ hrun
  intro t s c S op S' out hR hS hop hspec k hkK
  by_cases hkey : op.key = k
  · rw [← hkey]
    exact (hS _ hop.key_mem).own_step hspec hR hop.absent hop.fit
  · intro h hk
    have hne : hashes op.key ≠ .ok h := fun e => hkey (hdist hop.key_mem hkK (e.trans hk.symm))
    rw [specStep_frame hspec hne, lastWrite_snoc, writeStep_of_ne hkey]
    exact hS k hkK h hk

/-- **The cache is a map with expiry**: in every run in which keys are set only when
they are not stored, `kvcache_get` returns the last value set, up to its time, and
no call faults. -/
theorem kvcache_lastWrite (hdef : ∀ k ∈ K, ∃ h, hashes k = .ok h)
    (hrun : Run kvStep (fun s op => op.Regular K s) (kvcacheInit addr) t s) :
    (∀ op : KvOp, op.Regular K s → ∃ s' out, kvStep s op = .ok (s', out)) ∧
    ∀ k ∈ K, ∀ now, kvcacheGet s k now = .ok (valueAt now (lastWrite k t)) := by
  obtain ⟨c, S, hR, hS⟩ := run_holdsLast haddr hdist hrun
  refine ⟨fun op hop => ?_, fun k hkK now => ?_⟩
  · obtain ⟨h, hk⟩ := hdef _ hop.key_mem
    obtain ⟨S', out, hspec⟩ := (hS _ hop.key_mem).progress hk
    obtain ⟨s', c', hs, -⟩ := kvStep_ok hR hop.exact hspec
    exact ⟨s', out, hs⟩
  · obtain ⟨h, hk⟩ := hdef k hkK
    obtain ⟨hlast, hlong⟩ := hS k hkK h hk
    rw [hlast] at hlong
    rw [hR.get_eq hk, hlast, cellGet_toList hlong]

end LastWrite

/-- An entry is the first of its priority when no other stored triple has its first hash. -/
theorem Refines.storedFirst (hR : Refines s c S) {h : Hashes}
    (honly : ∀ h', S h' ≠ [] → h'.hash0 = h.hash0 → h' = h) (hstored : s.Stored h) :
    s.StoredFirst h := by
  have hlist := hR.lists h.area
  obtain ⟨v, hfind⟩ := hlist.present_iff.mp hstored
  obtain ⟨hv, xs, ys, hc, hxs⟩ := List.find?_eq_some_iff_append.mp hfind
  have hpath := hlist.chain 0 (Nat.zero_le _)
  rw [hc] at hpath
  refine ⟨xs, v, hpath.to_mem, hv, fun a ha hprio => ?_⟩
  have hmem : a ∈ c h.area 0 := by simp [hc, ha]
  obtain ⟨n, hn⟩ := hlist.lookup (List.mem_cons_of_mem _ hmem)
  rw [prioAt_of_lookup hn] at hprio
  -- the hashes under which the node is stored
  let h' : Hashes := ⟨h.hash0, n.ack1, n.ack2⟩
  have hcarries : carries s.mem h'.priority h'.hash1 h'.hash2 a = true := by
    rw [carries_of_lookup hn]
    simp only [hprio, h', decide_true, Bool.and_true]
    exact decide_eq_true rfl
  have hnodes : a ∈ nodesOf s.mem c h' := List.mem_filter.mpr ⟨hmem, hcarries⟩
  have hcells : S h' ≠ [] := by
    intro hnil
    have hmap := hR.cells h'
    rw [hnil, List.map_nil, List.map_eq_nil_iff] at hmap
    simp [hmap] at hnodes
  have hsame : h' = h := honly h' hcells rfl
  rw [hsame] at hcarries
  simpa [hcarries] using hxs a ha

/-- Two keys are set; the first is deleted and set anew, with a shorter time. -/
theorem kvcache_lastWrite_two :
    ∃ t s, Run kvStep (fun s op => op.Regular {[97], [98]} s) (kvcacheInit Fin.val) t s ∧
      t.map (·.1.key) = [[97], [98], [97], [97]] ∧
      kvcacheGet s [97] 5 = .ok (some [3]) ∧ kvcacheGet s [97] 8 = .ok none ∧
      kvcacheGet s [98] 8 = .ok (some [2]) := by
  obtain ⟨ha, hb, hka, hkb, hne⟩ := hashes_a_b
  have hdef : ∀ k ∈ ({[97], [98]} : Set (List UInt8)), ∃ h, hashes k = .ok h := by
    rintro k (rfl | rfl)
    · exact ⟨ha, hka⟩
    · exact ⟨hb, hkb⟩
  have hdist : Set.InjOn hashes {[97], [98]} := by
    have habne : hashes [97] ≠ hashes [98] := by
      rw [hka, hkb]
      rintro ⟨rfl⟩
      exact hne rfl
    rintro k (rfl | rfl) k' (rfl | rfl) hkk'
    · rfl
    · exact absurd hkk' habne
    · exact absurd hkk'.symm habne
    · rfl
  have hba : hb ≠ ha := fun heq => hne (congrArg Hashes.hash0 heq.symm)
  have hR₀ := kvcacheInit_refines Fin.val_injective
  obtain ⟨a₁, s₁, c₁, hop₁, hs₁, hR₁⟩ := exists_set hR₀ hka [1] 10 0
  obtain ⟨a₂, s₂, c₂, hop₂, hs₂, hR₂⟩ := exists_set hR₁ hkb [2] 10 1
  have hfirst : (KvOp.del [97]).Exact s₂ := by
    refine ⟨trivial, fun h hk => hR₂.storedFirst fun h' hstored hsame => ?_⟩
    obtain rfl : h = ha := Except.ok.inj (hk.symm.trans hka)
    by_contra hother
    have hother' : h' ≠ hb := fun heq => hne (by rw [← hsame, heq])
    simp [hother, hother'] at hstored
  obtain ⟨s₃, c₃, hs₃, hR₃⟩ := kvStep_ok hR₂ hfirst (by rw [specStep, hka]; rfl)
  obtain ⟨a₄, s₄, c₄, hop₄, hs₄, hR₄⟩ := exists_set hR₃ hka [3] 5 2
  have habsent₁ : (KvOp.set [97] [1] 10 0 0 a₁).SetsAbsent (kvcacheInit Fin.val) := by
    intro h _
    simp [hR₀.stored_iff]
  have habsent₂ : (KvOp.set [98] [2] 10 1 0 a₂).SetsAbsent s₁ := by
    intro h hk
    obtain rfl : h = hb := Except.ok.inj (hk.symm.trans hkb)
    simp [hR₁.stored_iff, hba]
  have habsent₄ : (KvOp.set [97] [3] 5 2 0 a₄).SetsAbsent s₃ := by
    intro h hk
    obtain rfl : h = ha := Except.ok.inj (hk.symm.trans hka)
    simp [hR₃.stored_iff, hba.symm]
  have hrun₁ : Run kvStep (fun s op => op.Regular {[97], [98]} s) _ _ s₁ :=
    Run.nil.snoc ⟨.inl rfl, hop₁, habsent₁, by simp [KvOp.TimesFit, InLong]⟩ hs₁
  have hregular₂ : (KvOp.set [98] [2] 10 1 0 a₂).Regular {[97], [98]} s₁ :=
    ⟨.inr rfl, hop₂, habsent₂, by simp [KvOp.TimesFit, InLong]⟩
  have hregular₃ : (KvOp.del [97]).Regular {[97], [98]} s₂ := ⟨.inl rfl, hfirst, trivial, trivial⟩
  have hregular₄ : (KvOp.set [97] [3] 5 2 0 a₄).Regular {[97], [98]} s₃ :=
    ⟨.inl rfl, hop₄, habsent₄, by simp [KvOp.TimesFit, InLong]⟩
  have hrun := ((hrun₁.snoc hregular₂ hs₂).snoc hregular₃ hs₃).snoc hregular₄ hs₄
  have hget := (kvcache_lastWrite Fin.val_injective hdist hdef hrun).2
  exact ⟨_, s₄, hrun, rfl, hget [97] (.inl rfl) 5, hget [97] (.inl rfl) 8, hget [98] (.inr rfl) 8⟩

/-- **A key that is set again keeps its old value**: the second `kvcache_set` returns 0
and its value is not found. -/
theorem set_again_keeps_old :
    ∃ t s, Run kvStep (fun s op => op.key = [107] ∧ op.Exact s ∧ op.TimesFit)
        (kvcacheInit Fin.val) t s ∧
      valueAt 5 (lastWrite [107] t) = some [2] ∧ kvcacheGet s [107] 5 = .ok (some [1]) := by
  obtain ⟨h, hk⟩ := hashes_ok [107] (by simp) (by simp)
  have hR₀ := kvcacheInit_refines Fin.val_injective
  obtain ⟨a₁, s₁, c₁, hop₁, hs₁, hR₁⟩ := exists_set hR₀ hk [1] 10 0
  obtain ⟨a₂, s₂, c₂, hop₂, hs₂, hR₂⟩ := exists_set hR₁ hk [2] 10 1
  have hfit₁ : (KvOp.set [107] [1] 10 0 0 a₁).TimesFit := by simp [KvOp.TimesFit, InLong]
  have hfit₂ : (KvOp.set [107] [2] 10 1 0 a₂).TimesFit := by simp [KvOp.TimesFit, InLong]
  refine ⟨[(.set [107] [1] 10 0 0 a₁, .ret 0), (.set [107] [2] 10 1 0 a₂, .ret 0)], s₂,
    (Run.nil.snoc ⟨rfl, hop₁, hfit₁⟩ hs₁).snoc ⟨rfl, hop₂, hfit₂⟩ hs₂, rfl, ?_⟩
  rw [hR₂.get_eq hk]
  simp [cellGet, Cell.timeout, addLong, InLong]

end MySrc
