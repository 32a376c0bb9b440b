import MySrc.Mycache.KvcacheRuns
import MySrc.Lib.Word

/-!
# MySrc.Mycache.KvcacheTtl

`kvcache_ttl` of `mycache/src/cache/kvcache.c`, against `kvcache_get`.

`kvcache_get` gives a value up to `tms + ttl`.  `kvcache_ttl` returns the time
since `tms`, not the time left; the two agree in the middle of the lifetime
(`kvcache_ttl_iff`).
-/

namespace MySrc

open Lib

/-- `kvcache_ttl` at the time `now`: it returns `NULL`, that is 0, when there is no
entry. -/
def kvcacheTtl (s : Kvcache) (key : List UInt8) (now : Int) : Except Fault Int := do
  let h ← hashes key
  let node ← levelsSearch s.mem (s.ring h.area) h.priority h.hash1 h.hash2
  if node = none then return 0
  let n ← load s.mem node
  match n.data.tms with
  | none => .error .uninitialised
  | some tms => do
      let elapsed ← addLong now (-tms)
      return if i32 elapsed > 0 then i32 elapsed else -1

/-- The entry that a search for the key finds. -/
def Kvcache.Finds (s : Kvcache) (key : List UInt8) (x : Cell) : Prop :=
  ∃ h v n, hashes key = .ok h ∧
    levelsSearch s.mem (s.ring h.area) h.priority h.hash1 h.hash2 = .ok (some v) ∧
    s.mem.lookup v = some n ∧ n.data.cell = some x

/-- `kvcache_ttl` reports how long the key lives: when it returns a positive number
at the time `now`, `kvcache_get` returns the value for as long as that, and not
longer, also after calls for other keys in `K`. -/
def TtlReports (K : Set (List UInt8)) (s : Kvcache) (key value : List UInt8) (now : Int) : Prop :=
  ∀ r, kvcacheTtl s key now = .ok r → 0 < r →
    ∀ t s', Run kvStep (fun s op => op.key ∈ K ∧ op.key ≠ key ∧ op.Exact s) s t s' →
      ∀ now', now ≤ now' →
        kvcacheGet s' key now' = .ok (if now' ≤ now + r then some value else none)

/-- The time since `tms`, as an `int`, is not positive, or it is the time left. -/
def ElapsedIsLeft (x : Cell) (now : Int) : Prop :=
  ¬ InLong (now - x.tms) ∨ (now - x.tms) % 2 ^ 32 = 0 ∨ 2 ^ 31 ≤ (now - x.tms) % 2 ^ 32 ∨
    x.tms + x.ttl - now < 2 ^ 31 ∧ (2 * (now - x.tms) - x.ttl) % 2 ^ 32 = 0

theorem KvData.tms_of_cell {d : KvData} (hd : d.cell = some x) : d.tms = some x.tms := by
  obtain ⟨key, value, klen, vlen, ttl, tms⟩ := d
  cases value <;> cases tms <;> cases ttl <;> simp [KvData.cell] at hd
  rw [← hd]

section

variable {s : Kvcache} {c : Fin maxAreaSize → Nat → List Nat} {S : CellMap} (hR : Refines s c S)
include hR

/-- The first entry is the one that is found, -/
theorem Refines.finds_iff (hk : hashes key = .ok h) (x : Cell) :
    s.Finds key x ↔ (S h).head? = some x := by
  have hsearch := (hR.lists h.area).search_eq h.priority h.hash1 h.hash2
  rw [find_nodesOf] at hsearch
  rcases hR.found h with ⟨hS, hN⟩ | ⟨v, vs, n, y, ys, hS, hN, hn, hcell, -⟩
  · rw [hN] at hsearch
    refine iff_of_false ?_ (by simp [hS])
    rintro ⟨h', v, n, hk', hv, -⟩
    obtain rfl : h = h' := Except.ok.inj (hk.symm.trans hk')
    rw [hsearch] at hv
    cases hv
  · rw [hN] at hsearch
    rw [hS, List.head?_cons, Option.some.injEq]
    constructor
    · rintro ⟨h', v', n', hk', hv, hn', hcell'⟩
      obtain rfl : h = h' := Except.ok.inj (hk.symm.trans hk')
      rw [hsearch] at hv
      cases hv
      rw [hn] at hn'
      cases hn'
      exact Option.some.inj (hcell.symm.trans hcell')
    · rintro rfl
      exact ⟨h, v, n, hk, hsearch, hn, hcell⟩

/-- and `kvcache_ttl` reads its time. -/
theorem Refines.ttl_eq (hk : hashes key = .ok h) (hx : (S h).head? = some x) (now : Int) :
    kvcacheTtl s key now = (addLong now (-x.tms)).bind fun elapsed =>
      .ok (if i32 elapsed > 0 then i32 elapsed else -1) := by
  obtain ⟨h', v, n, hk', hsearch, hn, hcell⟩ := (hR.finds_iff hk x).mpr hx
  obtain rfl : h = h' := Except.ok.inj (hk.symm.trans hk')
  rw [kvcacheTtl, hk, ok_bind, hsearch, ok_bind, if_neg (by simp), load_ok hn, ok_bind,
    KvData.tms_of_cell hcell]
  rfl

end

/-- Up to a bound, and not longer, is one bound only. -/
theorem upTo_iff {e e' now : Int} (hnow : now ≤ e) (value : List UInt8) :
    (∀ now', now ≤ now' → (if now' ≤ e then some value else none) =
        if now' ≤ e' then some value else none) ↔ e = e' := by
  refine ⟨fun h => ?_, fun h => by simp [h]⟩
  by_contra hne
  rcases Int.lt_or_gt_of_ne hne with hlt | hgt
  · have hlate := h (e + 1) (by omega)
    rw [if_neg (by omega), if_pos (by omega)] at hlate
    cases hlate
  · by_cases hlow : now ≤ e' + 1
    · have hlate := h (e' + 1) hlow
      rw [if_pos (by omega), if_neg (by omega)] at hlate
      cases hlate
    · have hlate := h now (Int.le_refl _)
      rw [if_pos (by omega), if_neg (by omega)] at hlate
      cases hlate

theorem elapsed_iff (e left : Int) (hleft : 0 ≤ left) :
    (0 < i32 e → i32 e = left) ↔
      e % 2 ^ 32 = 0 ∨ 2 ^ 31 ≤ e % 2 ^ 32 ∨ left < 2 ^ 31 ∧ (e - left) % 2 ^ 32 = 0 := by
  unfold i32
  rw [Int.bmod_def]
  split <;> omega

/-- What a live key holds. -/
theorem live_cell {xs : List Cell} (h : cellGet now xs = .ok (some value)) :
    ∃ x ys, xs = x :: ys ∧ x.value = value ∧ InLong (x.tms + x.ttl) ∧ now ≤ x.tms + x.ttl := by
  cases xs with
  | nil => cases h
  | cons x ys =>
      obtain ⟨late, hlate, h⟩ := bind_eq_ok.mp h
      obtain ⟨e, he, hlate⟩ := bind_eq_ok.mp hlate
      cases hlate
      rw [addLong] at he
      split at he
      · next hlong =>
          cases he
          by_cases hnow : now > x.tms + x.ttl
          · rw [decide_eq_true hnow] at h
            cases h
          · rw [decide_eq_false hnow] at h
            cases h
            exact ⟨x, ys, rfl, rfl, hlong, by omega⟩
      · cases he

/-- `kvcache_get` of a key whose first entry is known. -/
theorem cellGet_cons {x : Cell} (hlong : InLong (x.tms + x.ttl)) (ys : List Cell) (now : Int) :
    cellGet now (x :: ys) = .ok (if now ≤ x.tms + x.ttl then some x.value else none) := by
  rw [cellGet, Cell.timeout_ok hlong, ok_bind]
  by_cases hnow : now ≤ x.tms + x.ttl
  · simp [hnow, Int.not_lt.mpr hnow]
  · simp [hnow, Int.not_le.mp hnow]

/-- **`kvcache_ttl` reports the remaining lifetime** of a live key, in every state
that calls have reached, exactly when the time since `tms` is the time left. -/
theorem kvcache_ttl_iff {addr : Fin maxAreaSize → Nat} (haddr : Function.Injective addr)
    {K : Set (List UInt8)} (hdist : Set.InjOn hashes K) {key value : List UInt8} (hkey : key ∈ K)
    (hrun : Run kvStep (fun s op => op.key ∈ K ∧ op.Exact s) (kvcacheInit addr) t s) {now : Int}
    (hlive : kvcacheGet s key now = .ok (some value)) :
    ∃ x, (∀ y, s.Finds key y ↔ y = x) ∧
      (TtlReports K s key value now ↔ ElapsedIsLeft x now) := by
  obtain ⟨c, S, hR⟩ := run_refines (fun _ _ h => h.2) haddr hrun
  obtain ⟨h, hk, -⟩ := bind_eq_ok.mp hlive
  rw [hR.get_eq hk] at hlive
  obtain ⟨x, xs, hx, rfl, hlong, hnow⟩ := live_cell hlive
  -- calls for other keys leave the entry
  have hlater : ∀ t s', Run kvStep (fun s op => op.key ∈ K ∧ op.key ≠ key ∧ op.Exact s) s t s' →
      ∀ now', kvcacheGet s' key now' =
        .ok (if now' ≤ x.tms + x.ttl then some x.value else none) := by
    intro t' s' hrun' now'
    obtain ⟨c', S', hR', hS'⟩ := run_frame (fun _ _ h => h.2.2) hR
      (fun s op hop e => hop.2.1 (hdist hop.1 hkey (e.trans hk.symm))) hrun'
    rw [hR'.get_eq hk, hS', hx, cellGet_cons hlong]
  refine ⟨x, fun y => by rw [hR.finds_iff hk, hx, List.head?_cons, Option.some.injEq, eq_comm], ?_⟩
  rw [TtlReports, ElapsedIsLeft, hR.ttl_eq hk (by rw [hx, List.head?_cons]), addLong,
    ← Int.sub_eq_add_neg]
  by_cases hfit : InLong (now - x.tms)
  · have hcond := elapsed_iff (now - x.tms) (x.tms + x.ttl - now) (by omega)
    have hleft : now - x.tms - (x.tms + x.ttl - now) = 2 * (now - x.tms) - x.ttl := by omega
    rw [hleft] at hcond
    rw [if_pos hfit, ← hcond]
    simp only [hfit, not_true_eq_false, false_or]
    constructor
    · intro hreport hpos
      have hreport := hreport (i32 (now - x.tms)) (by rw [Except.bind, if_pos hpos]) hpos
      have hup := (upTo_iff hnow x.value).mp fun now' hle =>
        Except.ok.inj ((hlater _ _ Run.nil now').symm.trans (hreport _ _ Run.nil now' hle))
      omega
    · intro hsame r hr hpos t' s' hrun' now' hle
      have hr : (if i32 (now - x.tms) > 0 then i32 (now - x.tms) else -1) = r := Except.ok.inj hr
      split at hr
      · next hpos' =>
          have hend : now + r = x.tms + x.ttl := by
            rw [← hr, hsame hpos']
            omega
          rw [hlater t' s' hrun' now', hend]
      · omega
  · rw [if_neg hfit]
    refine iff_of_true ?_ (.inl hfit)
    rintro r hr
    cases hr

/-- A key that is set to live 10 seconds. -/
theorem exists_run_set :
    ∃ t s, Run kvStep (fun s op => op.key ∈ ({[107]} : Set (List UInt8)) ∧ op.Exact s)
        (kvcacheInit Fin.val) t s ∧ s.Finds [107] ⟨[1], 0, 10⟩ ∧
      ∀ now, kvcacheGet s [107] now = .ok (if now ≤ 10 then some [1] else none) := by
  obtain ⟨h, hk⟩ := hashes_ok [107] (by simp) (by simp)
  obtain ⟨a, s, c, hop, hs, hR⟩ := exists_set (kvcacheInit_refines Fin.val_injective) hk [1] 10 0
  rw [List.nil_append] at hR
  refine ⟨[(.set [107] [1] 10 0 0 a, .ret 0)], s, Run.nil.snoc ⟨rfl, hop⟩ hs, ?_, fun now => ?_⟩
  · rw [hR.finds_iff hk, Function.update_self, List.head?_cons]
  · rw [hR.get_eq hk, Function.update_self, cellGet_cons (by decide)]
    rfl

/-- After 5 of 10 seconds `kvcache_ttl` is right. -/
theorem kvcache_ttl_halfway :
    ∃ t s, Run kvStep (fun s op => op.key ∈ ({[107]} : Set (List UInt8)) ∧ op.Exact s)
        (kvcacheInit Fin.val) t s ∧ TtlReports {[107]} s [107] [1] 5 := by
  obtain ⟨t, s, hrun, hfinds, hget⟩ := exists_run_set
  obtain ⟨x, hx, hreport⟩ := kvcache_ttl_iff Fin.val_injective (Set.injOn_singleton hashes [107])
    rfl hrun (hget 5)
  obtain rfl := (hx _).mp hfinds
  refine ⟨t, s, hrun, hreport.mpr ?_⟩
  unfold ElapsedIsLeft
  decide

/-- After 4 of 10 seconds it returns 4, and the value is still there after 9. -/
theorem kvcache_ttl_elapsed :
    ∃ t s, Run kvStep (fun s op => op.key ∈ ({[107]} : Set (List UInt8)) ∧ op.Exact s)
        (kvcacheInit Fin.val) t s ∧ kvcacheGet s [107] 4 = .ok (some [1]) ∧
      ¬ TtlReports {[107]} s [107] [1] 4 := by
  obtain ⟨t, s, hrun, hfinds, hget⟩ := exists_run_set
  refine ⟨t, s, hrun, hget 4, fun hreport => ?_⟩
  obtain ⟨c, S, hR⟩ := run_refines (fun _ _ h => h.2) Fin.val_injective hrun
  obtain ⟨h, hk⟩ := hashes_ok [107] (by simp) (by simp)
  have httl : kvcacheTtl s [107] 4 = .ok 4 := by
    rw [hR.ttl_eq hk ((hR.finds_iff hk _).mp hfinds)]
    simp [addLong, InLong, Except.bind, i32_eq_self (x := 4) (by decide)]
  have hlate := hreport 4 httl (by decide) [] s Run.nil 9 (by decide)
  rw [hget 9] at hlate
  cases hlate

end MySrc
