import MySrc.Lib.Run
import Mathlib.Logic.Function.Basic

/-!
# MySrc.Lib.Mutex

Threads that work on a shared state between `acquire` and `release` of a semaphore that
starts at one.

`κ` is what a thread knows while it is inside, and `work` one step of it there.  The lock
rule `mutex_invariant` says that a property of the shared state that every thread gives
back holds whenever nobody is inside, and that only one thread is inside at a time.
-/

namespace Lib

open Function (update)

/-- The shared state, the semaphore's counter, and the threads that are inside. -/
structure Guarded (σ κ : Type) where
  shared : σ
  sem : Nat
  inside : Nat → Option κ

/-- A step of the thread `tid`. -/
inductive MutexOp (κ ι : Type)
  /-- `acquire` returns, and the thread begins with `start` -/
  | acquire (tid : Nat) (start : κ)
  | work (tid : Nat) (input : ι)
  | release (tid : Nat)

section Mutex

variable {σ κ ι ο : Type} (work : σ → κ → ι → Except Fault (σ × κ × ο))
variable (starts done : κ → Prop)

/-- Before any thread is inside. -/
def Guarded.init (shared : σ) : Guarded σ κ := ⟨shared, 1, fun _ => none⟩

/-- The new state, and what a step inside puts out. -/
def mutexStep (s : Guarded σ κ) : MutexOp κ ι → Except Fault (Guarded σ κ × Option ο)
  | .acquire tid start =>
      .ok ({ s with sem := s.sem - 1, inside := update s.inside tid (some start) }, none)
  | .work tid input =>
      match s.inside tid with
      | none => .error .assertion
      | some k => do
          let (shared, k, o) ← work s.shared k input
          return ({ s with shared := shared, inside := update s.inside tid (some k) }, some o)
  | .release tid => .ok ({ s with sem := s.sem + 1, inside := update s.inside tid none }, none)

/-- `acquire` returns only when the counter is not zero, and a thread that is done releases. -/
def MutexOp.Enabled (s : Guarded σ κ) : MutexOp κ ι → Prop
  | .acquire tid start => s.inside tid = none ∧ 0 < s.sem ∧ starts start
  | .work tid _ => s.inside tid ≠ none
  | .release tid => ∃ k, s.inside tid = some k ∧ done k

/-- Nobody is inside, or one thread is. -/
def Guarded.Held (P : σ → Prop) (Q : σ → κ → Prop) (s : Guarded σ κ) : Prop :=
  s.sem = 1 ∧ (∀ tid, s.inside tid = none) ∧ P s.shared ∨
  s.sem = 0 ∧ ∃ tid k, s.inside tid = some k ∧ (∀ tid' ≠ tid, s.inside tid' = none) ∧ Q s.shared k

variable {work starts done} {P : σ → Prop} {Q : σ → κ → Prop} {s : Guarded σ κ}

/-- The thread that is inside. -/
theorem Guarded.Held.of_inside (h : s.Held P Q) (htid : s.inside tid = some k) :
    s.sem = 0 ∧ (∀ tid' ≠ tid, s.inside tid' = none) ∧ Q s.shared k := by
  obtain ⟨-, hnone, -⟩ | ⟨hsem, tid', k', hin, hother, hQ⟩ := h
  · rw [hnone tid] at htid
    cases htid
  · obtain rfl : tid = tid' := by
      by_contra hne
      rw [hother tid hne] at htid
      cases htid
    obtain rfl : k = k' := Option.some.inj (htid.symm.trans hin)
    exact ⟨hsem, hother, hQ⟩

theorem update_of_others {f : Nat → Option κ} (h : ∀ tid' ≠ tid, f tid' = none) (v : Option κ) :
    ∀ tid' ≠ tid, update f tid v tid' = none := by
  intro tid' hne
  rw [Function.update_of_ne hne]
  exact h tid' hne

/-- **The lock rule.** -/
theorem mutex_invariant (hstart : ∀ s k, starts k → P s → Q s k)
    (hwork : ∀ s k i s' k' o, Q s k → work s k i = .ok (s', k', o) → Q s' k')
    (hdone : ∀ s k, done k → Q s k → P s) {s₀ : σ} (h₀ : P s₀)
    {t : List (MutexOp κ ι × Option ο)}
    (hrun : Run (mutexStep work) (MutexOp.Enabled starts done) (Guarded.init s₀) t s) :
    s.Held P Q := by
  refine hrun.invariant (I := fun _ s => s.Held P Q) (.inl ⟨rfl, fun _ => rfl, h₀⟩) ?_
  intro t s op s' o h henabled hstep
  cases op with
  | acquire tid start =>
      obtain ⟨-, hpos, hs⟩ := henabled
      obtain ⟨hsem, hnone, hP⟩ | ⟨hsem, -⟩ := h
      · cases hstep
        refine .inr ⟨by simp [hsem], tid, start, Function.update_self .., ?_, hstart _ _ hs hP⟩
        exact update_of_others (fun tid' _ => hnone tid') _
      · omega
  | work tid input =>
      cases hin : s.inside tid with
      | none => exact absurd hin henabled
      | some k =>
          obtain ⟨hsem, hother, hQ⟩ := h.of_inside hin
          rw [mutexStep, hin] at hstep
          obtain ⟨⟨shared, k', out⟩, hw, hstep⟩ := bind_eq_ok.mp hstep
          cases hstep
          exact .inr ⟨hsem, tid, k', Function.update_self .., update_of_others hother _,
            hwork _ _ _ _ _ _ hQ hw⟩
  | release tid =>
      obtain ⟨k, hin, hk⟩ := henabled
      obtain ⟨hsem, hother, hQ⟩ := h.of_inside hin
      cases hstep
      refine .inl ⟨by simp [hsem], fun tid' => ?_, hdone _ _ hk hQ⟩
      by_cases hne : tid' = tid
      · rw [hne]
        exact Function.update_self ..
      · exact update_of_others hother _ tid' hne

end Mutex

end Lib
