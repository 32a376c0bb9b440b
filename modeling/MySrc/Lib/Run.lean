import Mathlib.Algebra.Group.Nat.Defs
import Mathlib.Algebra.Group.Int.Defs
import Mathlib.Tactic.Common

/-!
# MySrc.Lib.Run

Machines and their runs.

A program is a step function on an explicit state.  A step either succeeds,
with a new state and an output, or ends in a `Fault`: the program has left the
part of its language that is defined (it followed a null or dangling pointer,
went past the end of an array, failed an assertion, or loops for ever).

`Run step ok s₀ t s` says that `s` is reached from `s₀` by the inputs of the
trace `t`, none of which faulted.  `ok` says which inputs the environment may
give in a state (an allocator returns fresh addresses, a caller frees only
what it owns, …), so the same machine can be run under several contracts.
-/

namespace Lib

/-- The ways a step can leave the defined part of the language. -/
inductive Fault
  /-- a null pointer is followed -/
  | nullDeref
  /-- a pointer to memory that is not allocated (any more) is followed -/
  | dangling
  /-- an array is indexed past its end -/
  | outOfBounds
  /-- an uninitialised variable is read -/
  | uninitialised
  /-- signed arithmetic overflows -/
  | overflow
  /-- an `assert` fails -/
  | assertion
  /-- a loop never ends -/
  | diverge
  deriving Repr, DecidableEq

/-! ## computations that may fault -/

@[simp] theorem ok_bind (a : α) (f : α → Except ε β) : (Except.ok a >>= f) = f a := rfl

@[simp] theorem error_bind (e : ε) (f : α → Except ε β) :
    ((Except.error e : Except ε α) >>= f) = .error e := rfl

@[simp] theorem pure_eq_ok (a : α) : (pure a : Except ε α) = .ok a := rfl

/-- A sequence succeeds when both of its halves do. -/
theorem bind_eq_ok {x : Except ε α} {f : α → Except ε β} :
    x >>= f = .ok b ↔ ∃ a, x = .ok a ∧ f a = .ok b := by
  cases x with
  | error e => simp
  | ok a => simp

/-- A sequence fails when its first half does, or its second half after that. -/
theorem bind_eq_error {x : Except ε α} {f : α → Except ε β} :
    x >>= f = .error e ↔ x = .error e ∨ ∃ a, x = .ok a ∧ f a = .error e := by
  cases x with
  | error e' => simp
  | ok a => simp

/-- What is asked of a result can be computed. -/
instance decidableExistsOk {ε α : Type} {P : α → Prop} [∀ a, Decidable (P a)] (x : Except ε α) :
    Decidable (∃ a, x = .ok a ∧ P a) :=
  match x with
  | .error _ => isFalse (by simp)
  | .ok a => decidable_of_iff (P a) (by simp)

theorem eq_ok_of_toOption {x : Except ε α} (h : x.toOption = some a) : x = .ok a := by
  cases x with
  | error e => cases h
  | ok b => exact congrArg Except.ok (Option.some.inj h)

/-- A loop over a list succeeds when its body does on every element, provided
that the body's success depends on the element only. -/
theorem foldlM_ok_iff {f : β → α → Except ε β} {good : α → Prop}
    (hf : ∀ a b, (∃ b', f b a = .ok b') ↔ good a) {l : List α} {b : β} :
    (∃ b', l.foldlM f b = .ok b') ↔ ∀ a ∈ l, good a := by
  induction l generalizing b with
  | nil => simp
  | cons a l ih =>
      have ha := hf a b
      cases h : f b a with
      | error e => simp_all
      | ok b₁ => simp_all

/-- What the body of a loop keeps, the loop keeps. -/
theorem foldlM_invariant {f : β → α → Except ε β} {P : β → Prop}
    (hf : ∀ b a b', P b → f b a = .ok b' → P b') {l : List α} {b b' : β} (hb : P b)
    (h : l.foldlM f b = .ok b') : P b' := by
  induction l generalizing b with
  | nil =>
      cases h
      exact hb
  | cons a l ih =>
      rw [List.foldlM_cons] at h
      obtain ⟨b₁, hb₁, h⟩ := bind_eq_ok.mp h
      exact ih (hf b a b₁ hb hb₁) h

/-! ## runs -/

section Run

variable {σ ι ο : Type} (step : σ → ι → Except Fault (σ × ο)) (ok : σ → ι → Prop)

/-- `Run step ok s₀ t s`: the inputs of `t`, each allowed by `ok` in the state
it meets, lead from `s₀` to `s`; `t` records each input with its output. -/
inductive Run (s₀ : σ) : List (ι × ο) → σ → Prop
  | nil : Run s₀ [] s₀
  | snoc {t : List (ι × ο)} {s s' : σ} {i : ι} {o : ο} :
      Run s₀ t s → ok s i → step s i = .ok (s', o) → Run s₀ (t ++ [(i, o)]) s'

variable {step ok}

/-- **Invariant rule**: what holds at the start and is kept by every allowed
step holds, with the history so far, in every state reached. -/
theorem Run.invariant {I : List (ι × ο) → σ → Prop} {s₀ : σ} (hinit : I [] s₀)
    (hstep : ∀ t s i s' o, I t s → ok s i → step s i = .ok (s', o) → I (t ++ [(i, o)]) s')
    {t : List (ι × ο)} {s : σ} (h : Run step ok s₀ t s) : I t s := by
  induction h with
  | nil => exact hinit
  | snoc _ hok hs ih => exact hstep _ _ _ _ _ ih hok hs

/-- A run under one contract is a run under every weaker one. -/
theorem Run.mono {ok' : σ → ι → Prop} (hok : ∀ s i, ok s i → ok' s i) {s₀ s : σ} {t : List (ι × ο)}
    (h : Run step ok s₀ t s) : Run step ok' s₀ t s := by
  induction h with
  | nil => exact .nil
  | snoc _ hi hs ih => exact ih.snoc (hok _ _ hi) hs

/-- **Progress rule**: when every allowed step from the invariant succeeds and keeps
it, it holds in every state reached. -/
theorem Run.invariant_of_progress {I : List (ι × ο) → σ → Prop} {s₀ : σ} (hinit : I [] s₀)
    (hstep : ∀ t s i, I t s → ok s i → ∃ s' o, step s i = .ok (s', o) ∧ I (t ++ [(i, o)]) s')
    {t : List (ι × ο)} {s : σ} (h : Run step ok s₀ t s) : I t s := by
  refine h.invariant hinit ?_
  intro t s i s' o hI hok hs
  obtain ⟨s'', o', hs', hI'⟩ := hstep t s i hI hok
  rw [hs] at hs'
  obtain ⟨rfl, rfl⟩ := Prod.mk.inj (Except.ok.inj hs')
  exact hI'

/-- Replay a list of inputs, checking that each is allowed: the trace, and the
state reached. -/
def replay (step : σ → ι → Except Fault (σ × ο)) (ok : σ → ι → Prop)
    [∀ s i, Decidable (ok s i)] : σ → List ι → Option (List (ι × ο) × σ)
  | s, [] => some ([], s)
  | s, i :: is =>
      if ok s i then
        match step s i with
        | .ok (s', o) => (replay step ok s' is).map fun r => ((i, o) :: r.1, r.2)
        | .error _ => none
      else none

/-- What a replay reaches, a run reaches. -/
theorem Run.replay [∀ s i, Decidable (ok s i)] {s₀ s s' : σ} {is : List ι} {t t' : List (ι × ο)}
    (hrun : Run step ok s₀ t s) (h : Lib.replay step ok s is = some (t', s')) :
    Run step ok s₀ (t ++ t') s' := by
  induction is generalizing s t t' with
  | nil =>
      obtain ⟨rfl, rfl⟩ := Prod.mk.inj (Option.some.inj h)
      rwa [List.append_nil]
  | cons i is ih =>
      rw [Lib.replay] at h
      split at h
      · next hok =>
          split at h
          · next s₁ o hs =>
              obtain ⟨⟨t₁, s₂⟩, hr, heq⟩ := Option.map_eq_some_iff.mp h
              obtain ⟨rfl, rfl⟩ := Prod.mk.inj heq
              have := ih (hrun.snoc hok hs) hr
              rwa [List.append_assoc, List.singleton_append] at this
          · cases h
      · cases h

end Run

/-! ## executions and refinement -/

section Exec

variable {σ α ι ο : Type} (step : σ → ι → Except Fault (σ × ο)) (spec : α → ι → α × ο)

/-- Execute a list of inputs, collecting the outputs. -/
def exec : σ → List ι → Except Fault (σ × List ο)
  | s, [] => .ok (s, [])
  | s, i :: is => do
      let (s', o) ← step s i
      let (s'', os) ← exec s' is
      return (s'', o :: os)

/-- Execute a list of inputs on a specification, which cannot fault. -/
def execSpec : α → List ι → α × List ο
  | a, [] => (a, [])
  | a, i :: is => ((execSpec (spec a i).1 is).1, (spec a i).2 :: (execSpec (spec a i).1 is).2)

variable {step spec}

/-- One list of inputs after another. -/
theorem exec_append (is js : List ι) (s : σ) :
    exec step s (is ++ js) = (do
      let (s', os) ← exec step s is
      let (s'', os') ← exec step s' js
      return (s'', os ++ os')) := by
  induction is generalizing s with
  | nil =>
      cases hjs : exec step s js with
      | error e => simp [exec, hjs]
      | ok r => simp [exec, hjs]
  | cons i is ih =>
      rw [List.cons_append, exec, exec]
      cases hstep : step s i with
      | error e => rfl
      | ok r =>
          simp only [ok_bind, ih]
          cases his : exec step r.1 is with
          | error e => rfl
          | ok r' =>
              simp only [ok_bind, pure_eq_ok]
              cases hjs : exec step r'.1 js with
              | error e => rfl
              | ok r'' => rfl

/-- **Refinement rule**: when every step of the machine can be matched by the
specification, with the same output, so can every execution. -/
theorem exec_refines {R : σ → α → Prop}
    (hstep : ∀ s a i, R s a → ∃ s', step s i = .ok (s', (spec a i).2) ∧ R s' (spec a i).1)
    (is : List ι) {s : σ} {a : α} (h : R s a) :
    ∃ s', exec step s is = .ok (s', (execSpec spec a is).2) ∧ R s' (execSpec spec a is).1 := by
  induction is generalizing s a with
  | nil => exact ⟨s, rfl, h⟩
  | cons i is ih =>
      obtain ⟨s', hs', hR⟩ := hstep s a i h
      obtain ⟨s'', hs'', hR'⟩ := ih hR
      refine ⟨s'', ?_, hR'⟩
      rw [exec, hs', ok_bind]
      dsimp only
      rw [hs'']
      rfl

end Exec

end Lib
