import MySrc.TemplateHttp.Clock
import Mathlib.Tactic.Ring

/-!
# MySrc.TemplateHttp.ClockTicks

When the callback of a timer is committed.  `add_timer` turns a time into a rotation and a
slot, and `start_tick` counts rotations and slots; `firesInPeriod_iff` says for which times
the two meet before the clock begins again.

A clock that has a period comes back to its first tick at the end of it, with all timers
still in their rings, and so it commits each callback once in every period; `firesNear_iff`
says when a callback is committed once for all.
-/

namespace MySrc
namespace Clock

open Lib

/-! ## counting ticks -/

/-- The counters after some ticks without a wrap. -/
def at_ (c : Clock) (n : Nat) : Clock :=
  { c with
    m_current_rotation_num := (n / slotNums : Nat), m_current_slot_num := (n % slotNums : Nat) }

/-- The counters do not go on after the tick: the period of the clock is over, or the
`int` of the rotations. -/
def WrapsAt (c : Clock) (n : Nat) : Prop :=
  (((n / slotNums : Nat) : Int) = c.m_circle_num ∧ ((n % slotNums : Nat) : Int) = c.m_slot_num) ∨
    2 ^ 31 ≤ n / slotNums

/-- What the `k`-th tick from now on commits. -/
def commitsOfTick (c : Clock) (k : Nat) : Except Fault (List Commit) := do
  let (c, _) ← exec step c (List.replicate (k - 1) .tick)
  commitTimers c

section

variable {c : Clock} {n k : Nat}

/-- The rings do not depend on the counters. -/
theorem RingsSound.at_ (hc : RingsSound c) (n : Nat) : RingsSound (c.at_ n) :=
  hc.counters _ _

/-- The last slot of a rotation, and the others. -/
theorem succ_div_mod (n : Nat) :
    (slotNums - 1 ≤ n % slotNums ∧ (n + 1) / slotNums = n / slotNums + 1 ∧
        (n + 1) % slotNums = 0) ∨
      (n % slotNums < slotNums - 1 ∧ (n + 1) / slotNums = n / slotNums ∧
        (n + 1) % slotNums = n % slotNums + 1) := by
  simp only [slotNums]
  omega

/-- The counters after the next tick, while the rotations are an `int`. -/
theorem nextCounters_at (hint : (n + 1) / slotNums < 2 ^ 31) :
    nextCounters (c.at_ n) = .ok (((n + 1) / slotNums : Nat), ((n + 1) % slotNums : Nat)) := by
  have hnums : slotNums = 60 := rfl
  have hrotation : (c.at_ n).m_current_rotation_num = (n / slotNums : Nat) := rfl
  have hslot : (c.at_ n).m_current_slot_num = (n % slotNums : Nat) := rfl
  rw [nextCounters, hrotation, hslot]
  obtain ⟨hlast, hdiv, hmod⟩ | ⟨hlast, hdiv, hmod⟩ := succ_div_mod n
  · rw [if_pos (by omega), if_pos (by omega), hdiv, hmod]
    rfl
  · rw [if_neg (by omega), hdiv, hmod]
    rfl

/-- Without a wrap the counters go on to the next tick. -/
theorem advance_at (hwrap : ¬ WrapsAt c (n + 1)) : advance (c.at_ n) = .ok (c.at_ (n + 1)) := by
  obtain ⟨hperiod, hint⟩ := not_or.mp hwrap
  rw [advance, nextCounters_at (Nat.not_le.mp hint), ok_bind]
  exact if_neg hperiod

/-- A tick without a wrap. -/
theorem tick_at (hc : RingsSound c) (hwrap : ¬ WrapsAt c (n + 1)) :
    ∃ commits, tick (c.at_ n) = .ok (c.at_ (n + 1), commits) := by
  obtain ⟨xs, -, -, hcommits⟩ := commitTimers_eq (hc.at_ n)
    (Nat.mod_lt n (by decide : slotNums > 0)) rfl
  rw [tick, hcommits, ok_bind, advance_at hwrap]
  exact ⟨_, rfl⟩

/-- Ticks in a row, none of which wraps. -/
theorem exec_ticks (hc : RingsSound c) (m : Nat) (hwrap : ∀ j, n < j → j ≤ n + m → ¬ WrapsAt c j) :
    ∃ outs, exec step (c.at_ n) (List.replicate m .tick) = .ok (c.at_ (n + m), outs) := by
  induction m generalizing n with
  | zero => exact ⟨[], rfl⟩
  | succ m ih =>
      obtain ⟨commits, htick⟩ := tick_at hc (hwrap (n + 1) (by omega) (by omega))
      obtain ⟨outs, hexec⟩ := ih (n := n + 1) fun j hj hj' => hwrap j (by omega) (by omega)
      refine ⟨commits :: outs, ?_⟩
      rw [List.replicate_succ, exec, step, htick, ok_bind]
      dsimp only
      rw [hexec, ok_bind, Nat.add_right_comm, pure_eq_ok]
      rfl

/-- The clock comes to the end of its period, and begins again. -/
def HasPeriod (c : Clock) : Prop :=
  0 ≤ c.m_circle_num ∧ c.m_circle_num < 2 ^ 31 ∧ 0 ≤ c.m_slot_num ∧ c.m_slot_num < slotNums ∧
    (c.m_circle_num ≠ 0 ∨ c.m_slot_num ≠ 0)

instance (c : Clock) : Decidable (HasPeriod c) := inferInstanceAs (Decidable (_ ∧ _))

/-- The number of ticks of the period. -/
theorem HasPeriod.exists_end (h : HasPeriod c) :
    ∃ n, 1 ≤ n ∧ n / slotNums < 2 ^ 31 ∧ ((n / slotNums : Nat) : Int) = c.m_circle_num ∧
      ((n % slotNums : Nat) : Int) = c.m_slot_num := by
  obtain ⟨hcircle, hint, hslot, hnums, hne⟩ := h
  obtain ⟨circle, hcircle'⟩ := Int.eq_ofNat_of_zero_le hcircle
  obtain ⟨slot, hslot'⟩ := Int.eq_ofNat_of_zero_le hslot
  simp only [slotNums] at hnums ⊢
  exact ⟨60 * circle + slot, by omega, by omega, by omega, by omega⟩

/-- Without a period the counters go on as long as the rotations are an `int`. -/
theorem not_wrapsAt (h : ¬ HasPeriod c) (hn : 1 ≤ n) (hint : n / slotNums < 2 ^ 31) :
    ¬ WrapsAt c n := by
  rintro (⟨hcircle, hslot⟩ | hover)
  · rw [HasPeriod] at h
    simp only [slotNums] at *
    omega
  · omega

/-- Ticks that take place have not wrapped, without a period. -/
theorem not_wrapsAt_of_exec (h : ¬ HasPeriod c) (m : Nat) (hint : n / slotNums < 2 ^ 31)
    {r : Clock × List (List Commit)}
    (hexec : exec step (c.at_ n) (List.replicate m .tick) = .ok r) :
    ∀ j, n < j → j ≤ n + m → ¬ WrapsAt c j := by
  induction m generalizing n r with
  | zero => omega
  | succ m ih =>
      rw [List.replicate_succ, exec] at hexec
      obtain ⟨⟨c₁, commits⟩, htick, hexec⟩ := bind_eq_ok.mp hexec
      obtain ⟨commits', -, htick⟩ := bind_eq_ok.mp htick
      obtain ⟨c₂, hadvance, htick⟩ := bind_eq_ok.mp htick
      cases htick
      -- the rotation that the tick counts is an `int`
      have hnext : (n + 1) / slotNums < 2 ^ 31 := by
        obtain ⟨counters, hcounters, -⟩ := bind_eq_ok.mp hadvance
        have hrotation : (c.at_ n).m_current_rotation_num = (n / slotNums : Nat) := rfl
        have hslot : (c.at_ n).m_current_slot_num = (n % slotNums : Nat) := rfl
        rw [nextCounters, hrotation, hslot] at hcounters
        obtain ⟨hlast, hdiv, -⟩ | ⟨hlast, hdiv, -⟩ := succ_div_mod n
        · have hnums : slotNums = 60 := rfl
          rw [if_pos (by omega)] at hcounters
          split at hcounters
          · next hlt => omega
          · cases hcounters
        · omega
      have hstep := not_wrapsAt h (by omega) hnext
      rw [advance_at hstep] at hadvance
      cases hadvance
      obtain ⟨⟨c₃, outs⟩, hrest, -⟩ := bind_eq_ok.mp hexec
      intro j hj hj'
      rcases Nat.lt_or_eq_of_le (Nat.succ_le_of_lt hj) with hlt | rfl
      · exact ih hnext hrest j hlt (by omega)
      · exact hstep

/-- After its period the clock is at its first tick again. -/
theorem exec_period (hc : RingsSound c) (hn : 1 ≤ n) (hint : n / slotNums < 2 ^ 31)
    (hcircle : ((n / slotNums : Nat) : Int) = c.m_circle_num)
    (hslot : ((n % slotNums : Nat) : Int) = c.m_slot_num) :
    ∃ outs, exec step (c.at_ 0) (List.replicate n .tick) = .ok (c.at_ 0, outs) := by
  obtain ⟨m, rfl⟩ : ∃ m, n = m + 1 := ⟨n - 1, by omega⟩
  have hbefore : ∀ j, 0 < j → j ≤ 0 + m → ¬ WrapsAt c j := by
    rintro j - hj (⟨hcircle', hslot'⟩ | hover)
    · have hdiv := Nat.div_add_mod j slotNums
      have hdiv' := Nat.div_add_mod (m + 1) slotNums
      rw [show j / slotNums = (m + 1) / slotNums by omega,
        show j % slotNums = (m + 1) % slotNums by omega] at hdiv
      omega
    · have hmono : j / slotNums ≤ (m + 1) / slotNums := Nat.div_le_div_right (by omega)
      omega
  obtain ⟨outs, hexec⟩ := exec_ticks (n := 0) hc m hbefore
  rw [Nat.zero_add] at hexec
  obtain ⟨xs, -, -, hcommits⟩ := commitTimers_eq (hc.at_ m)
    (Nat.mod_lt m (by decide : slotNums > 0)) rfl
  have hadvance : advance (c.at_ m) = .ok (c.at_ 0) := by
    rw [advance, nextCounters_at hint, ok_bind]
    exact if_pos ⟨hcircle, hslot⟩
  have htick : tick (c.at_ m) =
      .ok (c.at_ 0, xs.flatMap (commitsAt (c.at_ m).timers (m / slotNums : Nat)
        (m % slotNums : Nat))) := by
    rw [tick, hcommits, ok_bind, hadvance]
    rfl
  rw [List.replicate_succ', exec_append, hexec, ok_bind]
  simp only [exec, step, htick, ok_bind, pure_eq_ok]
  exact ⟨_, rfl⟩

/-- Each tick of a clock with a period has another one that commits the same. -/
theorem commitsOfTick_period (hc : RingsSound c) (hzero : c.at_ 0 = c) (hperiod : HasPeriod c)
    (hk : 1 ≤ k) : ∃ k', k < k' ∧ commitsOfTick c k' = commitsOfTick c k := by
  obtain ⟨n, hn, hint, hcircle, hslot⟩ := hperiod.exists_end
  obtain ⟨outs, hexec⟩ := exec_period hc hn hint hcircle hslot
  rw [hzero] at hexec
  refine ⟨n + k, by omega, ?_⟩
  rw [commitsOfTick, commitsOfTick, show n + k - 1 = n + (k - 1) by omega, List.replicate_add,
    exec_append, hexec, ok_bind]
  cases hrest : exec step c (List.replicate (k - 1) .tick) with
  | error e => simp [hrest]
  | ok r => simp [hrest, ok_bind]

/-- A timer is committed at most once while a ring is gone through. -/
theorem filter_commitsAt {timers : Timers} {rotation slot : Int} {a : Nat} {xs : List Nat}
    (hxs : xs.Nodup) :
    (xs.flatMap (commitsAt timers rotation slot)).filter (·.timer = some a) =
      if a ∈ xs then commitsAt timers rotation slot a else [] := by
  have hself : ∀ b, (commitsAt timers rotation slot b).filter (·.timer = some a) =
      if b = a then commitsAt timers rotation slot a else [] := by
    intro b
    rw [commitsAt]
    cases hb : dataOf timers b with
    | none =>
        by_cases hba : b = a
        · subst hba
          simp [commitsAt, hb]
        · simp [hba]
    | some t =>
        rw [Option.elim_some, commitOf]
        by_cases hba : b = a
        · subst hba
          rw [if_pos rfl, commitsAt, hb, Option.elim_some, commitOf]
          split <;> simp
        · split <;> simp [hba]
  induction xs with
  | nil => rfl
  | cons b xs ih =>
      obtain ⟨hb, hxs⟩ := List.nodup_cons.mp hxs
      rw [List.flatMap_cons, List.filter_append, hself, ih hxs]
      by_cases hba : b = a
      · subst hba
        simp [hb]
      · simp [hba, Ne.symm hba]

/-- What a tick of the first period commits for a timer. -/
theorem commitsOfTick_eq (hc : RingsSound c) (hzero : c.at_ 0 = c) (hk : 1 ≤ k)
    (hwrap : ∀ j, 1 ≤ j → j < k → ¬ WrapsAt c j) {a : Nat} {t : TimerData}
    (ht : dataOf c.timers a = some t) :
    ∃ commits, commitsOfTick c k = .ok commits ∧
      commits.filter (·.timer = some a) =
        commitOf ((k - 1) / slotNums : Nat) ((k - 1) % slotNums : Nat) (some a) t := by
  obtain ⟨outs, hexec⟩ := exec_ticks (n := 0) hc (k - 1) fun j hj hj' => hwrap j hj (by omega)
  rw [hzero, Nat.zero_add] at hexec
  obtain ⟨xs, hnodup, hxs, hcommits⟩ := commitTimers_eq (hc.at_ (k - 1))
    (Nat.mod_lt (k - 1) (by decide : slotNums > 0)) rfl
  refine ⟨_, by rw [commitsOfTick, hexec, ok_bind]; exact hcommits, ?_⟩
  rw [filter_commitsAt hnodup]
  split
  · exact commitsAt_eq ht
  · next hnot =>
      -- a timer of another slot
      have hslot : slotOf (c.at_ (k - 1)) a = some t.slot_num := by
        change (dataOf c.timers a).map (·.slot_num) = some t.slot_num
        rw [ht]
        rfl
      have hne : t.slot_num ≠ ((k - 1) % slotNums : Nat) := by
        intro heq
        exact hnot ((hxs a).mpr (by rw [hslot, heq]))
      rw [commitOf, if_neg fun h => hne h.2]

end

/-! ## rounding -/

/-- The seconds of a time. -/
def timerSecs (hours mins secs : Int) : Int := hours * 3600 + mins * 60 + secs

/-- The slot of a remainder: the slot it is in when at least half of it is over, else the
slot before. -/
def slotIndex (sec remind : Int) : Int :=
  if remind.tmod sec ≥ sec.tdiv 2 then remind.tdiv sec else remind.tdiv sec - 1

/-- The slot is that of a remainder, rounded to the nearest end of a slot. -/
def Rounds (sec q slot : Int) : Prop :=
  (sec / 2 ≤ q % sec ∧ slot = q / sec) ∨ (q % sec < sec / 2 ∧ 1 ≤ q / sec ∧ slot = q / sec - 1)

section

variable {sec hours mins secs q : Int}

/-- Quotients and remainders lie between what is divided and zero. -/
theorem tdiv_tmod_bounds {x y : Int} (hy : 1 ≤ y) :
    (min x 0 ≤ x.tdiv y ∧ x.tdiv y ≤ max x 0) ∧ min x 0 ≤ x.tmod y ∧ x.tmod y ≤ max x 0 := by
  have hmod : (x.tmod y).natAbs ≤ x.natAbs := by
    rw [Int.natAbs_tmod]
    exact Nat.mod_le _ _
  have hdiv : (x.tdiv y).natAbs ≤ x.natAbs := Int.natAbs_tdiv_le_natAbs x y
  rcases Int.le_total 0 x with hpos | hneg
  · have hdiv' := Int.tdiv_nonneg hpos (by omega : 0 ≤ y)
    have hmod' := Int.tmod_nonneg y hpos
    omega
  · have hdiv' := Int.tdiv_nonneg (show 0 ≤ -x by omega) (by omega : 0 ≤ y)
    have hmod' := Int.tmod_nonneg y (show 0 ≤ -x by omega)
    rw [Int.neg_tdiv] at hdiv'
    rw [Int.neg_tmod] at hmod'
    omega

theorem long_ok {x : Int} (hlow : -(2 ^ 63) ≤ x) (hhigh : x < 2 ^ 63) : long x = .ok x :=
  if_pos ⟨hlow, hhigh⟩

theorem longDiv_ok {x y : Int} (hy : 1 ≤ y) (hlow : -(2 ^ 63) ≤ x) (hhigh : x < 2 ^ 63) :
    longDiv x y = .ok (x.tdiv y) := by
  obtain ⟨hdiv, -⟩ := tdiv_tmod_bounds (x := x) hy
  rw [longDiv, if_neg (by omega), long_ok (by omega) (by omega)]

theorem longMod_ok {x y : Int} (hy : 1 ≤ y) (hlow : -(2 ^ 63) ≤ x) (hhigh : x < 2 ^ 63) :
    longMod x y = .ok (x.tmod y) := by
  rw [longMod, longDiv_ok hy hlow hhigh]
  rfl

/-- The rotation and the slot of a time that `long`s can count. -/
theorem timerSlot_eq (hsec : 1 ≤ sec) (hhours : 0 ≤ hours) (hmins : 0 ≤ mins) (hsecs : 0 ≤ secs)
    (htotal : timerSecs hours mins secs < 2 ^ 63) (hcircle : sec * slotNums < 2 ^ 63) :
    timerSlot sec hours mins secs =
      .ok (i32 (timerSecs hours mins secs / (sec * slotNums)),
        slotIndex sec (i32 (timerSecs hours mins secs % (sec * slotNums)))) := by
  rw [timerSecs] at htotal ⊢
  have hnums : (slotNums : Int) = 60 := rfl
  have hcircle' : 1 ≤ sec * slotNums := by
    rw [hnums]
    omega
  have hsum : secs + hours * 3600 + mins * 60 = hours * 3600 + mins * 60 + secs := by omega
  have htotal' : 0 ≤ hours * 3600 + mins * 60 + secs := by omega
  -- the remainder fits an `int`, and so do its slot and the rest of it
  obtain ⟨hlow, hhigh⟩ := isI32_i32 ((hours * 3600 + mins * 60 + secs) % (sec * slotNums))
  obtain ⟨hdiv, hmod⟩ :=
    tdiv_tmod_bounds (x := i32 ((hours * 3600 + mins * 60 + secs) % (sec * slotNums))) hsec
  have hslotnb := i32_eq_self (x := (i32 ((hours * 3600 + mins * 60 + secs) %
    (sec * slotNums))).tdiv sec) ⟨by omega, by omega⟩
  have hrest := i32_eq_self (x := (i32 ((hours * 3600 + mins * 60 + secs) %
    (sec * slotNums))).tmod sec) ⟨by omega, by omega⟩
  rw [timerSlot, long_ok (by omega) (by omega), ok_bind, long_ok (by omega) (by omega), ok_bind,
    long_ok (by omega) (by omega), ok_bind, hsum, long_ok (by omega) htotal, ok_bind,
    long_ok (by omega) hcircle, ok_bind, longDiv_ok hcircle' (by omega) htotal, ok_bind,
    longMod_ok hcircle' (by omega) htotal, ok_bind, Int.tdiv_eq_ediv_of_nonneg htotal',
    Int.tmod_eq_emod_of_nonneg htotal']
  dsimp only
  rw [longDiv_ok hsec (by omega) (by omega), ok_bind, longMod_ok hsec (by omega) (by omega),
    ok_bind, hslotnb, hrest, slotIndex]
  split <;> rfl

/-- A number that is returned as a `long` is that number. -/
theorem long_eq_ok {x y : Int} (h : long x = .ok y) : y = x ∧ x < 2 ^ 63 := by
  rw [long] at h
  split at h
  · next hx =>
      cases h
      exact ⟨rfl, hx.2⟩
  · cases h

/-- What is returned was counted without an overflow. -/
theorem timerSlot_bounds {r : Int × Int} (h : timerSlot sec hours mins secs = .ok r) :
    timerSecs hours mins secs < 2 ^ 63 ∧ sec * slotNums < 2 ^ 63 := by
  rw [timerSlot] at h
  rw [timerSecs]
  obtain ⟨h4hours, hh, h⟩ := bind_eq_ok.mp h
  obtain ⟨h4mins, hm, h⟩ := bind_eq_ok.mp h
  obtain ⟨h4secs, hs, h⟩ := bind_eq_ok.mp h
  obtain ⟨total, ht, h⟩ := bind_eq_ok.mp h
  obtain ⟨circle, hc, -⟩ := bind_eq_ok.mp h
  obtain ⟨rfl, -⟩ := long_eq_ok hh
  obtain ⟨rfl, -⟩ := long_eq_ok hm
  obtain ⟨rfl, -⟩ := long_eq_ok hs
  obtain ⟨-, ht⟩ := long_eq_ok ht
  obtain ⟨-, hc⟩ := long_eq_ok hc
  exact ⟨by omega, hc⟩

/-- The slot of a remainder of at least half a slot. -/
theorem rounds_slotIndex (hsec : 1 ≤ sec) (hq : sec / 2 ≤ q) : Rounds sec q (slotIndex sec q) := by
  have hpos : 0 ≤ q := by omega
  have hhalf : sec.tdiv 2 = sec / 2 := Int.tdiv_eq_ediv_of_nonneg (by omega)
  rw [Rounds, slotIndex, Int.tdiv_eq_ediv_of_nonneg hpos, Int.tmod_eq_emod_of_nonneg hpos, hhalf]
  by_cases hmod : sec / 2 ≤ q % sec
  · exact .inl ⟨hmod, if_pos hmod⟩
  · refine .inr ⟨by omega, ?_, if_neg hmod⟩
    by_contra hlt
    have hdiv : q / sec = 0 := by
      have := Int.ediv_nonneg hpos (by omega : 0 ≤ sec)
      omega
    have hself := Int.emod_add_mul_ediv q sec
    rw [hdiv, Int.mul_zero, Int.add_zero] at hself
    omega

/-- Less than half a slot has no index. -/
theorem slotIndex_neg (hsec : 1 ≤ sec) (hq : q < sec / 2) (hone : sec = 1 → 0 ≤ q) :
    slotIndex sec q < 0 := by
  have hhalf : sec.tdiv 2 = sec / 2 := Int.tdiv_eq_ediv_of_nonneg (by omega)
  rw [slotIndex, hhalf]
  rcases Int.lt_or_le q 0 with hneg | hpos
  · obtain ⟨hdiv, hmod⟩ := tdiv_tmod_bounds (x := q) hsec
    rw [if_neg (by omega)]
    omega
  · have hlt : q < sec := by omega
    rw [Int.tdiv_eq_zero_of_lt hpos hlt, Int.tmod_eq_of_lt hpos hlt, if_neg (by omega)]
    decide

end

/-! ## times and ticks -/

section

variable {sec total rotation r q slot : Int}

theorem tick_mul (sec rotation slot : Int) :
    (60 * rotation + slot) * sec = sec * 60 * rotation + slot * sec := by
  ring

/-- What rounding does to the time, up to the slot. -/
theorem Rounds.bounds (h : Rounds sec q slot) (hsec : 1 ≤ sec) :
    q - sec ≤ slot * sec + sec ∧ slot * sec ≤ q ∧ slot * sec + sec ≤ q + sec ∧
      (slot * sec < q ∨ sec = 1) := by
  have hself := Int.emod_add_mul_ediv q sec
  have hlt := Int.emod_lt_of_pos q (by omega : 0 < sec)
  have hpos := Int.emod_nonneg q (by omega : sec ≠ 0)
  obtain ⟨hhalf, rfl⟩ | ⟨hhalf, -, rfl⟩ := h
  · rw [Int.mul_comm]
    omega
  · rw [Int.sub_mul, Int.mul_comm, Int.one_mul]
    omega

/-- A remainder of less than a rotation has a slot of the array. -/
theorem Rounds.slot_lt (h : Rounds sec q slot) (hsec : 1 ≤ sec) (hpos : 0 ≤ q)
    (hlt : q < sec * slotNums) : ∃ i : Nat, i < slotNums ∧ slot = i := by
  have hdiv := Int.ediv_nonneg hpos (by omega : 0 ≤ sec)
  have hdiv' : q / sec < slotNums := by
    rw [Int.mul_comm] at hlt
    exact Int.ediv_lt_of_lt_mul (by omega) hlt
  refine ⟨slot.toNat, ?_, ?_⟩
  all_goals
    obtain ⟨-, rfl⟩ | ⟨-, hone, rfl⟩ := h
    all_goals omega

/-- The remainder of a time beyond the `int`s is rounded well only when it is at most two
slots long. -/
theorem Rounds.of_large (h : Rounds sec (i32 r) slot) (hsec : 1 ≤ sec) (hr : 2 ^ 31 ≤ r)
    (hq : 0 ≤ i32 r) : (r ≤ slot * sec + sec + sec → r ≤ 2 * sec) ∧ (r ≤ 2 * sec → slot = 0) := by
  have hturn := i32_add_le hr
  have hint := (isI32_i32 r).2
  obtain ⟨-, hle, -⟩ := h.bounds hsec
  by_cases hzero : i32 r / sec = 0
  · have hslot : slot = 0 := by
      obtain ⟨-, rfl⟩ | ⟨-, hone, -⟩ := h
      · exact hzero
      · omega
    subst hslot
    exact ⟨fun _ => by omega, fun _ => rfl⟩
  · have hsec' : sec ≤ i32 r := by
      by_contra hlt
      exact hzero (Int.ediv_eq_zero_of_lt hq (by omega))
    constructor
    · intro hr'
      omega
    · intro hr'
      omega

end

/-- No tick before this one is followed by a wrap. -/
def InPeriod (c : Clock) (k : Nat) : Prop := 1 ≤ k ∧ ∀ j, 1 ≤ j → j < k → ¬ WrapsAt c j

/-- The clock does not wrap before a time. -/
def NoWrapBefore (c : Clock) (total : Int) : Prop :=
  ∀ j : Nat, 1 ≤ j → j * c.m_slot_sec < total → ¬ WrapsAt c j

/-- `add_timer` succeeds with an index in the array, and in the first period of the clock the
callback is committed by one tick, once, within a slot length of the time. -/
def FiresInPeriod (c : Clock) (newtimer : Nat) (hours mins secs : Int) (my_callback data : Nat) :
    Prop :=
  ∃ c', addTimer c newtimer hours mins secs my_callback data = .ok c' ∧
    (∃ i < slotNums, slotOf c' newtimer = some (i : Int)) ∧
    ∃ k : Nat, InPeriod c' k ∧
      timerSecs hours mins secs - c.m_slot_sec ≤ k * c.m_slot_sec ∧
      k * c.m_slot_sec ≤ timerSecs hours mins secs + c.m_slot_sec ∧
      ∀ k', InPeriod c' k' → ∃ commits, commitsOfTick c' k' = .ok commits ∧
        commits.filter (·.timer = some newtimer) =
          if k' = k then [⟨some newtimer, my_callback, data⟩] else []

/-- `add_timer` succeeds with an index in the array, and of all ticks that take place the
callback is committed by one, once, within a slot length of the time. -/
def FiresNear (c : Clock) (newtimer : Nat) (hours mins secs : Int) (my_callback data : Nat) :
    Prop :=
  ∃ c', addTimer c newtimer hours mins secs my_callback data = .ok c' ∧
    (∃ i < slotNums, slotOf c' newtimer = some (i : Int)) ∧
    ∃ k : Nat, 1 ≤ k ∧
      timerSecs hours mins secs - c.m_slot_sec ≤ k * c.m_slot_sec ∧
      k * c.m_slot_sec ≤ timerSecs hours mins secs + c.m_slot_sec ∧
      (∃ commits, commitsOfTick c' k = .ok commits ∧
        commits.filter (·.timer = some newtimer) = [⟨some newtimer, my_callback, data⟩]) ∧
      ∀ k', 1 ≤ k' → k' ≠ k → ∀ commits, commitsOfTick c' k' = .ok commits →
        commits.filter (·.timer = some newtimer) = []

/-- At least half a slot of the last rotation is left, as an `int` too, or what is left is
at most two slots long where the `int` is another one; nothing overflows; and where slots
are one second long, the clock does not wrap at the very time. -/
structure OnTime (c : Clock) (total : Int) : Prop where
  total_lt : total < 2 ^ 63
  circle_lt : c.m_slot_sec * slotNums < 2 ^ 63
  half : (total % (c.m_slot_sec * slotNums) < 2 ^ 31 ∧
      c.m_slot_sec / 2 ≤ total % (c.m_slot_sec * slotNums)) ∨
    (c.m_slot_sec / 2 ≤ i32 (total % (c.m_slot_sec * slotNums)) ∧
      total % (c.m_slot_sec * slotNums) ≤ 2 * c.m_slot_sec)
  period : c.m_slot_sec = 1 → 1 ≤ total → ¬ WrapsAt c total.toNat

section

variable {c c' : Clock} {newtimer i : Nat} {t : TimerData}

/-- A clock at its first tick stays there when a timer is added. -/
theorem Added.at_zero (hadded : Added c c' newtimer t) (hzero : c.at_ 0 = c) : c'.at_ 0 = c' := by
  rw [hadded.same]
  exact congrArg (fun d : Clock => { d with
    timers := c'.timers, m_slot_timer_head := c'.m_slot_timer_head }) hzero

/-- The one tick that commits a timer. -/
theorem commits_of_added (hadded : Added c c' newtimer t) (hzero : c.at_ 0 = c)
    (hi : i < slotNums) (ht : t.slot_num = i) {k : Nat} (hk : InPeriod c' k) :
    ∃ commits, commitsOfTick c' k = .ok commits ∧
      commits.filter (·.timer = some newtimer) =
        if (k : Int) = 60 * t.valid_rotation_num + i + 1 then
          [⟨some newtimer, t.callback_func, t.data⟩]
        else [] := by
  have hdata : dataOf c'.timers newtimer = some t := by
    rw [hadded.data, Function.update_self]
  obtain ⟨commits, hcommits, hfilter⟩ :=
    commitsOfTick_eq hadded.sound (hadded.at_zero hzero) hk.1 hk.2 hdata
  refine ⟨commits, hcommits, hfilter.trans ?_⟩
  have hiff : (t.valid_rotation_num = ((k - 1) / slotNums : Nat) ∧
      t.slot_num = ((k - 1) % slotNums : Nat)) ↔
        (k : Int) = 60 * t.valid_rotation_num + i + 1 := by
    have hk' := hk.1
    rw [ht]
    simp only [slotNums] at hi ⊢
    omega
  rw [commitOf]
  exact if_congr hiff rfl rfl

/-- A timer that is added has an index. -/
theorem addTimer_index {hours mins secs : Int} {my_callback data : Nat}
    (h : addTimer c newtimer hours mins secs my_callback data = .ok c') :
    ∃ rotation slot, timerSlot c.m_slot_sec hours mins secs = .ok (rotation, slot) ∧ 0 ≤ slot ∧
      slot < slotNums := by
  rw [addTimer] at h
  obtain ⟨⟨rotation, slot⟩, htimer, h⟩ := bind_eq_ok.mp h
  obtain ⟨head, hhead, -⟩ := bind_eq_ok.mp h
  refine ⟨rotation, slot, htimer, ?_⟩
  rw [headAt] at hhead
  split at hhead
  · next hbounds => exact hbounds
  · cases hhead

/-- A timer that is added does not change when the clock wraps. -/
theorem wrapsAt_added (hadded : Added c c' newtimer t) (j : Nat) : WrapsAt c' j ↔ WrapsAt c j := by
  rw [hadded.same]
  rfl

/-- A timer that is added does not change the first period. -/
theorem inPeriod_added (hadded : Added c c' newtimer t) (k : Nat) :
    InPeriod c' k ↔ InPeriod c k := by
  simp only [InPeriod, wrapsAt_added hadded]

/-- A timer that is added does not change whether there is an end of it. -/
theorem hasPeriod_added (hadded : Added c c' newtimer t) : HasPeriod c' ↔ HasPeriod c := by
  rw [hadded.same]
  rfl

/-- A tick that takes place is in the first period, when there is no end of it. -/
theorem inPeriod_of_commits {k : Nat} {commits : List Commit} (hzero : c.at_ 0 = c)
    (hendless : ¬ HasPeriod c) (hk : 1 ≤ k) (h : commitsOfTick c k = .ok commits) :
    InPeriod c k := by
  obtain ⟨r, hexec, -⟩ := bind_eq_ok.mp h
  rw [← hzero] at hexec
  refine ⟨hk, fun j hj hjk => ?_⟩
  exact not_wrapsAt_of_exec hendless (k - 1) (by decide) hexec j hj (by omega)

/-- The callback is committed once, at the tick of its rotation and slot. -/
theorem firesInPeriod_iff_tick (hc : RingsSound c) (hzero : c.at_ 0 = c) (hnew : newtimer ∉ c.timers)
    (hi : i < slotNums) {hours mins secs rotation : Int}
    (hslot : timerSlot c.m_slot_sec hours mins secs = .ok (rotation, (i : Int)))
    (my_callback data : Nat) :
    FiresInPeriod c newtimer hours mins secs my_callback data ↔
      ∃ k : Nat, InPeriod c k ∧ (k : Int) = 60 * rotation + i + 1 ∧
        timerSecs hours mins secs - c.m_slot_sec ≤ k * c.m_slot_sec ∧
        k * c.m_slot_sec ≤ timerSecs hours mins secs + c.m_slot_sec := by
  obtain ⟨c', hadd, hadded⟩ := addTimer_spec hc hnew hi hslot my_callback data
  constructor
  · rintro ⟨c'', hadd', -, k, hk, hlow, hhigh, hfires⟩
    obtain rfl : c' = c'' := Except.ok.inj (hadd.symm.trans hadd')
    refine ⟨k, (inPeriod_added hadded k).mp hk, ?_, hlow, hhigh⟩
    obtain ⟨commits, hcommits, hfilter⟩ := hfires k hk
    obtain ⟨commits', hcommits', hfilter'⟩ := commits_of_added hadded hzero hi rfl hk
    obtain rfl : commits = commits' := Except.ok.inj (hcommits.symm.trans hcommits')
    rw [hfilter, if_pos rfl] at hfilter'
    by_contra hne
    rw [if_neg hne] at hfilter'
    cases hfilter'
  · rintro ⟨k, hk, htick, hlow, hhigh⟩
    have hself : slotOf c' newtimer = some (i : Int) := by
      rw [slotOf, hadded.data, Function.update_self]
      rfl
    refine ⟨c', hadd, ⟨i, hi, hself⟩, k, (inPeriod_added hadded k).mpr hk, hlow, hhigh,
      fun k' hk' => ?_⟩
    obtain ⟨commits, hcommits, hfilter⟩ := commits_of_added hadded hzero hi rfl hk'
    refine ⟨commits, hcommits, hfilter.trans (if_congr ?_ rfl rfl)⟩
    dsimp only
    omega

/-- A clock that has not wrapped before a time has counted its whole rotations. -/
theorem rotation_lt {total rotation r : Int}
    (htotal : r + c.m_slot_sec * slotNums * rotation = total) (hnowrap : NoWrapBefore c total)
    (hr : 0 < r) : rotation < 2 ^ 31 := by
  by_contra hge
  have hnums : (slotNums : Int) = 60 := rfl
  have hmul := tick_mul c.m_slot_sec rotation 0
  have hnowrap' := hnowrap (60 * rotation).toNat (by omega) (by
    rw [Int.toNat_of_nonneg (by omega)]
    rw [Int.add_zero, Int.zero_mul, Int.add_zero] at hmul
    rw [hnums] at htotal
    omega)
  refine hnowrap' (.inr ?_)
  simp only [slotNums]
  omega

end

section

variable {c : Clock} {total rotation r : Int} {i : Nat}

/-- A tick is near a time when what rounding does to the remainder is small, and no wrap
comes before it. -/
theorem tick_near (hsec : 1 ≤ c.m_slot_sec)
    (htotal : r + c.m_slot_sec * slotNums * rotation = total) (hnowrap : NoWrapBefore c total)
    (hrotation : 0 ≤ rotation) (hlow : r ≤ i * c.m_slot_sec + c.m_slot_sec + c.m_slot_sec)
    (hhigh : i * c.m_slot_sec ≤ r) (hstrict : i * c.m_slot_sec < r ∨ c.m_slot_sec = 1)
    (hperiod : c.m_slot_sec = 1 → 1 ≤ total → ¬ WrapsAt c total.toNat) :
    ∃ k : Nat, InPeriod c k ∧ (k : Int) = 60 * rotation + i + 1 ∧
      total - c.m_slot_sec ≤ k * c.m_slot_sec ∧ k * c.m_slot_sec ≤ total + c.m_slot_sec := by
  have hnums : (slotNums : Int) = 60 := rfl
  rw [hnums] at htotal
  have hmul := tick_mul c.m_slot_sec rotation i
  have hk : ((60 * rotation + i + 1).toNat : Int) = 60 * rotation + i + 1 := by omega
  refine ⟨(60 * rotation + i + 1).toNat, ⟨by omega, fun j hj hjk => ?_⟩, hk, ?_⟩
  · have hle : (j : Int) * c.m_slot_sec ≤ (60 * rotation + i) * c.m_slot_sec :=
      Int.mul_le_mul_of_nonneg_right (by omega) (by omega)
    by_cases hlt : (j : Int) * c.m_slot_sec < total
    · exact hnowrap j hj hlt
    · -- only a slot of one second has its end at the time itself
      have hone : c.m_slot_sec = 1 := by omega
      rw [hone] at hle hlt hmul htotal hhigh
      have htime : total.toNat = j := by omega
      exact htime ▸ hperiod hone (by omega)
  · rw [hk, Int.add_mul _ 1, hmul, Int.one_mul]
    omega

/-- The rounded slot of a tick near a time is not that of an `int` that is cut down, unless
the remainder is small. -/
theorem small_of_tick (hsec : 1 ≤ c.m_slot_sec)
    (htotal : r + c.m_slot_sec * slotNums * rotation = total) (hnowrap : NoWrapBefore c total)
    (hrotation : 0 ≤ rotation) (hq : c.m_slot_sec / 2 ≤ i32 r)
    (hi : Rounds c.m_slot_sec (i32 r) i) {k : Nat} (htick : (k : Int) = 60 * i32 rotation + i + 1)
    (hnear : total - c.m_slot_sec ≤ k * c.m_slot_sec) : r < 2 ^ 31 ∨ r ≤ 2 * c.m_slot_sec := by
  have hnums : (slotNums : Int) = 60 := rfl
  by_cases hint : r < 2 ^ 31
  · exact .inl hint
  · have hlt := rotation_lt htotal hnowrap (by omega)
    have hmul := tick_mul c.m_slot_sec rotation i
    have hk' : (k : Int) * c.m_slot_sec = (60 * rotation + i) * c.m_slot_sec + c.m_slot_sec := by
      rw [htick, i32_eq_self ⟨by omega, hlt⟩, Int.add_mul _ 1, Int.one_mul]
    rw [hnums] at htotal
    exact .inr ((hi.of_large hsec (by omega) (by omega)).1 (by omega))

/-- A tick near a time that the clock wraps at would be the one behind the wrap, or a turn
of the `int` away. -/
theorem not_wrapsAt_of_tick (hone : c.m_slot_sec = 1)
    (htotal : r + c.m_slot_sec * slotNums * rotation = total)
    (hr : 0 ≤ r) (hr' : r < c.m_slot_sec * slotNums) (hi : Rounds c.m_slot_sec (i32 r) i) {k : Nat}
    (hk : InPeriod c k) (htick : (k : Int) = 60 * i32 rotation + i + 1)
    (hnear : total - c.m_slot_sec ≤ k * c.m_slot_sec) (hpos : 1 ≤ total) :
    ¬ WrapsAt c total.toNat := by
  intro hwrap
  have hnums : (slotNums : Int) = 60 := rfl
  have hbefore : (k : Int) ≤ total := by
    by_contra hbehind
    exact hk.2 total.toNat (by omega) (by omega) hwrap
  rw [hone, hnums] at htotal hr'
  rw [hone] at hnear hi
  rw [i32_eq_self ⟨by omega, by omega⟩] at hi
  have hir : (i : Int) = r := by
    obtain ⟨-, hir⟩ | ⟨hmod, -⟩ := hi
    · rw [hir, Int.ediv_one]
    · rw [Int.emod_one] at hmod
      exact absurd hmod (by decide)
  by_cases hlt : rotation < 2 ^ 31
  · rw [i32_eq_self ⟨by omega, hlt⟩] at htick
    omega
  · have := i32_add_le (show 2 ^ 31 ≤ rotation by omega)
    omega

/-- The rotations are an `int` also where no remainder is left. -/
theorem rotation_lt_of_period (hsec : 1 ≤ c.m_slot_sec)
    (htotal : r + c.m_slot_sec * slotNums * rotation = total) (hnowrap : NoWrapBefore c total)
    (hr : 0 ≤ r) (hq : c.m_slot_sec / 2 ≤ i32 r)
    (hperiod : c.m_slot_sec = 1 → 1 ≤ total → ¬ WrapsAt c total.toNat) : rotation < 2 ^ 31 := by
  have hnums : (slotNums : Int) = 60 := rfl
  rcases Int.lt_or_eq_of_le hr with hpos | rfl
  · exact rotation_lt htotal hnowrap hpos
  · -- no remainder is half a slot only where slots are one second long
    have hzero : i32 0 = 0 := i32_eq_self ⟨by decide, by decide⟩
    rw [hzero] at hq
    have hone : c.m_slot_sec = 1 := by omega
    rw [hone, hnums] at htotal
    by_contra hge
    refine hperiod hone (by omega) (.inr ?_)
    simp only [slotNums]
    omega

/-- The tick of a time is near it exactly when the remainder is small enough, and the clock
does not wrap at the time itself. -/
theorem tick_near_iff (hsec : 1 ≤ c.m_slot_sec)
    (htotal : r + c.m_slot_sec * slotNums * rotation = total) (hnowrap : NoWrapBefore c total)
    (hrotation : 0 ≤ rotation) (hr : 0 ≤ r) (hr' : r < c.m_slot_sec * slotNums)
    (hq : c.m_slot_sec / 2 ≤ i32 r) (hi : Rounds c.m_slot_sec (i32 r) i) :
    (∃ k : Nat, InPeriod c k ∧ (k : Int) = 60 * i32 rotation + i + 1 ∧
        total - c.m_slot_sec ≤ k * c.m_slot_sec ∧ k * c.m_slot_sec ≤ total + c.m_slot_sec) ↔
      (r < 2 ^ 31 ∨ r ≤ 2 * c.m_slot_sec) ∧
        (c.m_slot_sec = 1 → 1 ≤ total → ¬ WrapsAt c total.toNat) := by
  constructor
  · rintro ⟨k, hk, htick, hnear, -⟩
    exact ⟨small_of_tick hsec htotal hnowrap hrotation hq hi htick hnear,
      fun hone => not_wrapsAt_of_tick hone htotal hr hr' hi hk htick hnear⟩
  · rintro ⟨hhalf, hperiod⟩
    have hlt := rotation_lt_of_period hsec htotal hnowrap hr hq hperiod
    obtain ⟨hlow, hhigh, -, hstrict⟩ := hi.bounds hsec
    rw [i32_eq_self ⟨by omega, hlt⟩]
    by_cases hint : r < 2 ^ 31
    · rw [i32_eq_self ⟨by omega, hint⟩] at hlow hhigh hstrict
      exact tick_near hsec htotal hnowrap hrotation (by omega) hhigh hstrict hperiod
    · have hsmall := hhalf.resolve_left hint
      have hzero := (hi.of_large hsec (by omega) (by omega)).2 hsmall
      have hmul : (i : Int) * c.m_slot_sec = 0 := by rw [hzero, Int.zero_mul]
      exact tick_near hsec htotal hnowrap hrotation (by omega) (by omega) (.inl (by omega)) hperiod

/-- With half a slot left there is an index, and then it is a matter of counting. -/
theorem firesInPeriod_iff_of_half (hc : RingsSound c) (hzero : c.at_ 0 = c) (hsec : 1 ≤ c.m_slot_sec)
    {newtimer : Nat} (hnew : newtimer ∉ c.timers) {hours mins secs : Int} (hhours : 0 ≤ hours)
    (hmins : 0 ≤ mins) (hsecs : 0 ≤ secs) (htotal : total = timerSecs hours mins secs)
    (hr : r = total % (c.m_slot_sec * slotNums)) (hnowrap : NoWrapBefore c total)
    (htotal' : total < 2 ^ 63) (hcircle : c.m_slot_sec * slotNums < 2 ^ 63)
    (hq : c.m_slot_sec / 2 ≤ i32 r) (my_callback data : Nat) :
    FiresInPeriod c newtimer hours mins secs my_callback data ↔
      (r < 2 ^ 31 ∨ r ≤ 2 * c.m_slot_sec) ∧
        (c.m_slot_sec = 1 → 1 ≤ total → ¬ WrapsAt c total.toNat) := by
  have hpos : 0 < c.m_slot_sec * slotNums := Int.mul_pos (by omega) (by decide)
  have hnonneg : 0 ≤ total := by
    rw [htotal, timerSecs]
    omega
  have hself := Int.emod_add_mul_ediv total (c.m_slot_sec * slotNums)
  have hr0 := Int.emod_nonneg total hpos.ne'
  have hr1 := Int.emod_lt_of_pos total hpos
  rw [← hr] at hself hr0 hr1
  have hle := i32_natCast_le r.toNat
  rw [Int.toNat_of_nonneg hr0] at hle
  have hrounds := rounds_slotIndex hsec hq
  obtain ⟨i, hi, hindex⟩ := hrounds.slot_lt hsec (by omega) (by omega)
  rw [htotal] at htotal'
  have htimer := timerSlot_eq hsec hhours hmins hsecs htotal' hcircle
  rw [← htotal, ← hr, hindex] at htimer
  rw [hindex] at hrounds
  rw [firesInPeriod_iff_tick hc hzero hnew hi htimer my_callback data, ← htotal]
  exact tick_near_iff hsec hself hnowrap (Int.ediv_nonneg hnonneg hpos.le) hr0 hr1 hq hrounds

/-- A timer that is added has half a slot left. -/
theorem half_of_firesInPeriod (hsec : 1 ≤ c.m_slot_sec) {newtimer : Nat} {hours mins secs : Int}
    (hhours : 0 ≤ hours) (hmins : 0 ≤ mins) (hsecs : 0 ≤ secs)
    (hr : r = timerSecs hours mins secs % (c.m_slot_sec * slotNums)) {my_callback data : Nat}
    (h : FiresInPeriod c newtimer hours mins secs my_callback data) :
    timerSecs hours mins secs < 2 ^ 63 ∧ c.m_slot_sec * slotNums < 2 ^ 63 ∧
      c.m_slot_sec / 2 ≤ i32 r := by
  have hcircle : 0 < c.m_slot_sec * slotNums := Int.mul_pos (by omega) (by decide)
  have hr0 := Int.emod_nonneg (timerSecs hours mins secs) hcircle.ne'
  have hr1 := Int.emod_lt_of_pos (timerSecs hours mins secs) hcircle
  rw [← hr] at hr0 hr1
  obtain ⟨c', hadd, -⟩ := h
  obtain ⟨rotation, slot, htimer, hpos, -⟩ := addTimer_index hadd
  obtain ⟨htotal, hcircle'⟩ := timerSlot_bounds htimer
  refine ⟨htotal, hcircle', ?_⟩
  rw [timerSlot_eq hsec hhours hmins hsecs htotal hcircle', ← hr] at htimer
  obtain ⟨-, rfl⟩ := Prod.mk.inj (Except.ok.inj htimer)
  by_contra hlt
  have hneg := slotIndex_neg hsec (Int.not_le.mp hlt) fun hone => by
    have hnums : (slotNums : Int) = 60 := rfl
    rw [hone, hnums] at hr1
    rw [i32_eq_self ⟨by omega, by omega⟩]
    exact hr0
  omega

end

/-- The first tick of a clock with its counters at 0. -/
theorem at_zero {c : Clock} (hrotation : c.m_current_rotation_num = 0) (hslot : c.m_current_slot_num = 0) :
    c.at_ 0 = c := by
  obtain ⟨sec, circle, num, heads, rotation, slot, timers⟩ := c
  simp only at hrotation hslot
  subst hrotation hslot
  rfl

/-- **Timers** fire once in the first period, and at the nearest tick, exactly when at least
half a slot of their last rotation is left (as an `int`), nothing overflows, and a clock
whose slots are one second long does not wrap at the very time. -/
theorem firesInPeriod_iff {c : Clock} (hc : RingsSound c) (hrotation : c.m_current_rotation_num = 0)
    (hslot : c.m_current_slot_num = 0) (hsec : 1 ≤ c.m_slot_sec) {newtimer : Nat}
    (hnew : newtimer ∉ c.timers) {hours mins secs : Int} (hhours : 0 ≤ hours) (hmins : 0 ≤ mins)
    (hsecs : 0 ≤ secs) (hnowrap : NoWrapBefore c (timerSecs hours mins secs))
    (my_callback data : Nat) :
    FiresInPeriod c newtimer hours mins secs my_callback data ↔
      OnTime c (timerSecs hours mins secs) := by
  have hzero := at_zero hrotation hslot
  have hcircle : 0 < c.m_slot_sec * slotNums := Int.mul_pos (by omega) (by decide)
  have hr := Int.emod_nonneg (timerSecs hours mins secs) hcircle.ne'
  have hmain := fun htotal hcircle' hq => firesInPeriod_iff_of_half hc hzero hsec hnew hhours hmins
    hsecs rfl rfl hnowrap htotal hcircle' hq my_callback data
  constructor
  · intro hfires
    obtain ⟨htotal, hcircle', hq⟩ := half_of_firesInPeriod hsec hhours hmins hsecs rfl hfires
    obtain ⟨hsmall, hperiod⟩ := (hmain htotal hcircle' hq).mp hfires
    refine ⟨htotal, hcircle', ?_, hperiod⟩
    by_cases hint : timerSecs hours mins secs % (c.m_slot_sec * slotNums) < 2 ^ 31
    · rw [i32_eq_self ⟨by omega, hint⟩] at hq
      exact .inl ⟨hint, hq⟩
    · exact .inr ⟨hq, hsmall.resolve_left hint⟩
  · intro hontime
    have hq : c.m_slot_sec / 2 ≤ i32 (timerSecs hours mins secs % (c.m_slot_sec * slotNums)) := by
      obtain ⟨hlt, hhalf⟩ | ⟨hhalf, -⟩ := hontime.half
      · rwa [i32_eq_self ⟨by omega, hlt⟩]
      · exact hhalf
    refine (hmain hontime.total_lt hontime.circle_lt hq).mpr ⟨?_, hontime.period⟩
    obtain ⟨hlt, -⟩ | ⟨-, hsmall⟩ := hontime.half
    · exact .inl hlt
    · exact .inr hsmall

/-- A timer that is added has its ring in a sound clock, and an index of the array. -/
theorem added_of_addTimer {c c' : Clock} (hc : RingsSound c) {newtimer : Nat}
    (hnew : newtimer ∉ c.timers) {hours mins secs : Int} {my_callback data : Nat}
    (h : addTimer c newtimer hours mins secs my_callback data = .ok c') :
    ∃ rotation, ∃ i < slotNums, Added c c' newtimer ⟨rotation, (i : Nat), data, my_callback⟩ := by
  obtain ⟨rotation, slot, htimer, hpos, hlt⟩ := addTimer_index h
  obtain ⟨i, rfl⟩ := Int.eq_ofNat_of_zero_le hpos
  obtain ⟨c'', hadd, hadded⟩ := addTimer_spec hc hnew (by omega) htimer my_callback data
  obtain rfl : c' = c'' := Except.ok.inj (h.symm.trans hadd)
  exact ⟨rotation, i, by omega, hadded⟩

/-- A callback is committed once for all when it is in the first period, and there is no
other. -/
theorem firesNear_iff_inPeriod {c : Clock} (hc : RingsSound c) (hzero : c.at_ 0 = c)
    {newtimer : Nat} (hnew : newtimer ∉ c.timers) {hours mins secs : Int}
    (my_callback data : Nat) :
    FiresNear c newtimer hours mins secs my_callback data ↔
      FiresInPeriod c newtimer hours mins secs my_callback data ∧ ¬ HasPeriod c := by
  constructor
  · rintro ⟨c', hadd, hindex, k, hk, hlow, hhigh, ⟨commits, hcommits, hfilter⟩, hothers⟩
    obtain ⟨rotation, i, hi, hadded⟩ := added_of_addTimer hc hnew hadd
    have hzero' := hadded.at_zero hzero
    have hendless : ¬ HasPeriod c' := by
      intro hperiod
      obtain ⟨k', hk', hsame⟩ := commitsOfTick_period hadded.sound hzero' hperiod hk
      have hnone := hothers k' (by omega) (by omega) commits (hsame.trans hcommits)
      rw [hfilter] at hnone
      cases hnone
    have hin : InPeriod c' k := inPeriod_of_commits hzero' hendless hk hcommits
    refine ⟨⟨c', hadd, hindex, k, hin, hlow, hhigh, fun k' hk' => ?_⟩, ?_⟩
    · obtain ⟨commits', hcommits', -⟩ := commits_of_added hadded hzero hi rfl hk'
      refine ⟨commits', hcommits', ?_⟩
      by_cases heq : k' = k
      · subst heq
        obtain rfl : commits = commits' := Except.ok.inj (hcommits.symm.trans hcommits')
        rw [if_pos rfl, hfilter]
      · rw [if_neg heq, hothers k' hk'.1 heq commits' hcommits']
    · rwa [hasPeriod_added hadded] at hendless
  · rintro ⟨⟨c', hadd, hindex, k, hk, hlow, hhigh, hfires⟩, hendless⟩
    obtain ⟨rotation, i, hi, hadded⟩ := added_of_addTimer hc hnew hadd
    have hzero' := hadded.at_zero hzero
    rw [← hasPeriod_added hadded] at hendless
    obtain ⟨commits, hcommits, hfilter⟩ := hfires k hk
    rw [if_pos rfl] at hfilter
    refine ⟨c', hadd, hindex, k, hk.1, hlow, hhigh, ⟨commits, hcommits, hfilter⟩, ?_⟩
    intro k' hk' hne commits' hcommits'
    obtain ⟨commits'', hcommits'', hfilter'⟩ :=
      hfires k' (inPeriod_of_commits hzero' hendless hk' hcommits')
    obtain rfl : commits' = commits'' := Except.ok.inj (hcommits'.symm.trans hcommits'')
    rw [hfilter', if_neg hne]

/-- **Timers** fire once and at the nearest tick exactly when at least half a slot of their
last rotation is left (as an `int`), nothing overflows, a clock whose slots are one second
long does not wrap at the very time, and the clock has no period after which it would
commit them again. -/
theorem firesNear_iff {c : Clock} (hc : RingsSound c) (hrotation : c.m_current_rotation_num = 0)
    (hslot : c.m_current_slot_num = 0) (hsec : 1 ≤ c.m_slot_sec) {newtimer : Nat}
    (hnew : newtimer ∉ c.timers) {hours mins secs : Int} (hhours : 0 ≤ hours) (hmins : 0 ≤ mins)
    (hsecs : 0 ≤ secs) (hnowrap : NoWrapBefore c (timerSecs hours mins secs))
    (my_callback data : Nat) :
    FiresNear c newtimer hours mins secs my_callback data ↔
      OnTime c (timerSecs hours mins secs) ∧ ¬ HasPeriod c := by
  rw [firesNear_iff_inPeriod hc (at_zero hrotation hslot) hnew,
    firesInPeriod_iff hc hrotation hslot hsec hnew hhours hmins hsecs hnowrap]

/-- A timer of three seconds, with slots of two seconds, on a clock whose last slot is none
of its slots. -/
theorem firesNear_three :
    NoWrapBefore (init 2 100 60) (timerSecs 0 0 3) ∧ FiresNear (init 2 100 60) 0 0 0 3 7 8 := by
  have hnowrap : NoWrapBefore (init 2 100 60) (timerSecs 0 0 3) := by
    intro j hj hlt
    have hsec : (init 2 100 60).m_slot_sec = 2 := rfl
    have htotal : timerSecs 0 0 3 = 3 := rfl
    rw [hsec, htotal] at hlt
    obtain rfl : j = 1 := by omega
    simp [WrapsAt, init, slotNums]
  have hontime : OnTime (init 2 100 60) (timerSecs 0 0 3) :=
    ⟨by decide, by decide, .inl (by decide), fun h => absurd h (by decide)⟩
  exact ⟨hnowrap, (firesNear_iff (rings_init 2 100 60) rfl rfl (by decide) (AList.notMem_empty 0)
    (by decide) (by decide) (by decide) hnowrap 7 8).mpr ⟨hontime, by decide⟩⟩

/-- A timer of one second, with slots of four seconds, has the index -1. -/
theorem addTimer_below_array :
    NoWrapBefore (init 4 100 0) (timerSecs 0 0 1) ∧
      ¬ FiresNear (init 4 100 0) 0 0 0 1 7 8 := by
  constructor
  · intro j hj hlt
    have hsec : (init 4 100 0).m_slot_sec = 4 := rfl
    have htotal : timerSecs 0 0 1 = 1 := rfl
    rw [hsec, htotal] at hlt
    omega
  · rintro ⟨c', hadd, -⟩
    obtain ⟨rotation, slot, htimer, hpos, -⟩ := addTimer_index hadd
    have hindex : timerSlot (init 4 100 0).m_slot_sec 0 0 1 = .ok (0, -1) := by decide +kernel
    rw [hindex] at htimer
    cases htimer
    exact absurd hpos (by decide)

end Clock
end MySrc
