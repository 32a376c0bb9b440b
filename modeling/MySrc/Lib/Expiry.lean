import Mathlib.Data.Nat.Init
import Mathlib.Logic.Function.Basic

/-!
# MySrc.Lib.Expiry

Stores whose cells expire.  A cell has a value and may have a deadline, from which on it is
not there any more; every command works on the cell of one key as it is then.

A cell that no command is about keeps its value up to its deadline, whatever is done to the
others: `Untouched` is that relation between two states, and it composes.
-/

namespace Lib

open Function (update update_self update_of_ne)

/-- A value, and when it expires, if ever. -/
abbrev Timed (α : Type*) := α × Option Nat

def Timed.aliveAt {α : Type*} (now : Nat) (c : Timed α) : Bool := c.2.all (now < ·)

theorem Timed.aliveAt_mono {α : Type*} {now now' : Nat} (h : now ≤ now') {c : Timed α}
    (hc : c.aliveAt now' = true) : c.aliveAt now = true := by
  rw [aliveAt, Option.all_eq_true_iff_get] at hc ⊢
  intro hsome
  have := hc hsome
  simp only [decide_eq_true_eq] at this ⊢
  omega

/-- What is alive later is alive now. -/
theorem filter_aliveAt {α : Type*} {now now' : Nat} (h : now ≤ now') (o : Option (Timed α)) :
    (o.filter (·.aliveAt now)).filter (·.aliveAt now') = o.filter (·.aliveAt now') := by
  have hboth : ∀ c : Timed α, (c.aliveAt now && c.aliveAt now') = c.aliveAt now' := by
    intro c
    by_cases hc : c.aliveAt now' = true
    · rw [hc, Timed.aliveAt_mono h hc, Bool.and_self]
    · simp [hc]
  rw [Option.filter_filter]
  exact congrArg (o.filter ·) (funext hboth)

structure Expiring (κ α : Type*) where
  now : Nat
  cells : κ → Option (Timed α)

namespace Expiring

variable {κ α : Type*}

/-- The cell of a key, if it is there. -/
def live (s : Expiring κ α) (k : κ) : Option (Timed α) := (s.cells k).filter (·.aliveAt s.now)

def get (s : Expiring κ α) (k : κ) : Option α := (s.live k).map (·.1)

/-- Time passes. -/
def wait (s : Expiring κ α) (secs : Nat) : Expiring κ α := { s with now := s.now + secs }

section

variable [DecidableEq κ]

/-- A command on one cell. -/
def modify (s : Expiring κ α) (k : κ) (f : Option (Timed α) → Option (Timed α)) : Expiring κ α :=
  { s with cells := update s.cells k (f (s.live k)) }

/-- The cell gets a deadline in `secs` seconds. -/
def expire (s : Expiring κ α) (k : κ) (secs : Nat) : Expiring κ α :=
  s.modify k (Option.map fun c => (c.1, some (s.now + secs)))

/-- A new value, with the deadline of the old one. -/
def put (s : Expiring κ α) (k : κ) (f : Option α → α) : Expiring κ α :=
  s.modify k fun c => some (f (c.map (·.1)), c.bind (·.2))

end

/-! ## one key -/

variable {s s' s'' : Expiring κ α} {k k' : κ}

theorem live_wait (secs : Nat) :
    (s.wait secs).live k = (s.live k).filter (·.aliveAt (s.now + secs)) := by
  rw [live, live, filter_aliveAt (Nat.le_add_right _ _), wait]

section

variable [DecidableEq κ] {f : Option (Timed α) → Option (Timed α)}

@[simp] theorem now_modify : (s.modify k f).now = s.now := rfl

theorem live_modify_self : (s.modify k f).live k = (f (s.live k)).filter (·.aliveAt s.now) := by
  simp [live, modify]

/-- A cell that is written is there: it keeps a deadline only if that is to come. -/
theorem isSome_live_put (s : Expiring κ α) (k : κ) (f : Option α → α) :
    ((s.put k f).live k).isSome = true := by
  rw [put, live_modify_self]
  cases hlive : s.live k with
  | none => simp [Timed.aliveAt, Option.filter]
  | some c =>
      have halive : c.aliveAt s.now = true := by
        rw [live, Option.filter_eq_some_iff] at hlive
        exact hlive.2
      rw [Timed.aliveAt] at halive
      simp [Timed.aliveAt, halive, Option.filter]

theorem live_expire {c : Timed α} {secs : Nat} (h : s.live k = some c) (hsecs : 0 < secs) :
    (s.expire k secs).live k = some (c.1, some (s.now + secs)) := by
  have hlater : s.now < s.now + secs := Nat.lt_add_of_pos_right hsecs
  rw [expire, live_modify_self, h, Option.map_some]
  simp [Timed.aliveAt, Option.filter, hlater]

theorem live_modify_of_ne (h : k ≠ k') : (s.modify k' f).live k = s.live k := by
  simp [live, modify, h]

end

/-! ## the others -/

/-- From `s` to `s'` the time `secs` passes, and nothing else happens to the cell of `k`. -/
def Untouched (k : κ) (secs : Nat) (s s' : Expiring κ α) : Prop :=
  s'.now = s.now + secs ∧ s'.live k = (s.live k).filter (·.aliveAt s'.now)

theorem Untouched.refl (k : κ) (s : Expiring κ α) : Untouched k 0 s s :=
  ⟨rfl, (filter_aliveAt (Nat.le_refl _) _).symm⟩

theorem Untouched.trans {m n : Nat} (h : Untouched k m s s') (h' : Untouched k n s' s'') :
    Untouched k (m + n) s s'' := by
  have hle : s'.now ≤ s''.now := by
    rw [h'.1]
    exact Nat.le_add_right _ _
  refine ⟨?_, ?_⟩
  · rw [h'.1, h.1, Nat.add_assoc]
  · rw [h'.2, h.2, filter_aliveAt hle]

theorem untouched_wait (k : κ) (s : Expiring κ α) (secs : Nat) :
    Untouched k secs s (s.wait secs) :=
  ⟨rfl, live_wait secs⟩

theorem untouched_modify [DecidableEq κ] (h : k ≠ k') (s : Expiring κ α)
    (f : Option (Timed α) → Option (Timed α)) : Untouched k 0 s (s.modify k' f) := by
  refine ⟨rfl, ?_⟩
  rw [live_modify_of_ne h, now_modify, live, filter_aliveAt (Nat.le_refl _)]

/-- **Expiry.**  A value with a deadline is there just as long as the deadline is to come. -/
theorem Untouched.get {secs : Nat} (h : Untouched k secs s s') {a : α} {d : Nat}
    (hlive : s.live k = some (a, some d)) :
    s'.get k = if s.now + secs < d then some a else none := by
  rw [Expiring.get, h.2, h.1, hlive]
  by_cases hd : s.now + secs < d
  · simp [Timed.aliveAt, hd]
  · simp [Timed.aliveAt, hd]

end Expiring

end Lib
