import MySrc.Lib.Run

/-!
# MySrc.Lib.Logged

Computations that may fault and keep a log of what they did.  Unlike the state
of a computation in `Except`, the log survives a fault: it says what was done
up to then.
-/

namespace Lib

/-- A result, or a fault, with the events before it. -/
structure Logged (ε α : Type) where
  log : List ε
  result : Except Fault α

namespace Logged

variable {ε α β : Type}

/-- A computation without events. -/
def lift (x : Except Fault α) : Logged ε α := ⟨[], x⟩

instance : Monad (Logged ε) where
  pure a := ⟨[], .ok a⟩
  bind x f :=
    match x.result with
    | .error e => ⟨x.log, .error e⟩
    | .ok a => ⟨x.log ++ (f a).log, (f a).result⟩

/-- The computation returns `a`, and all of its events are good. -/
def Returns (good : ε → Prop) (x : Logged ε α) (a : α) : Prop :=
  (∀ e ∈ x.log, good e) ∧ x.result = .ok a

/-- The computation returns, and all of its events are good. -/
def Clean (good : ε → Prop) (x : Logged ε α) : Prop := ∃ a, Returns good x a

variable {good : ε → Prop}

theorem Returns.clean {x : Logged ε α} (h : Returns good x a) : Clean good x := ⟨a, h⟩

theorem returns_pure (a : α) : Returns good (pure a : Logged ε α) a :=
  ⟨fun _ h => absurd h List.not_mem_nil, rfl⟩

theorem returns_lift {x : Except Fault α} (h : x = .ok a) : Returns good (lift x : Logged ε α) a :=
  ⟨fun _ h => absurd h List.not_mem_nil, h⟩

/-- **Sequence rule**: the second half from the result of the first. -/
theorem Returns.bind {x : Logged ε α} {f : α → Logged ε β} (hx : Returns good x a)
    (hf : Returns good (f a) b) : Returns good (x >>= f) b := by
  obtain ⟨hlog, hres⟩ := hx
  have heq : x >>= f = ⟨x.log ++ (f a).log, (f a).result⟩ := by simp only [Bind.bind, hres]
  rw [heq]
  refine ⟨fun e he => ?_, hf.2⟩
  exact (List.mem_append.mp he).elim (hlog e) (hf.1 e)

/-- What a sequence has done, its first half has done. -/
theorem Clean.left {x : Logged ε α} {f : α → Logged ε β} (h : Clean good (x >>= f)) :
    Clean good x := by
  obtain ⟨b, hlog, hres⟩ := h
  cases hx : x.result with
  | error e => simp only [Bind.bind, hx] at hres; cases hres
  | ok a =>
      have heq : x >>= f = ⟨x.log ++ (f a).log, (f a).result⟩ := by simp only [Bind.bind, hx]
      rw [heq] at hlog
      exact ⟨a, fun e he => hlog e (List.mem_append_left _ he), hx⟩

/-- What a sequence has done, its second half has done. -/
theorem Clean.right {x : Logged ε α} {f : α → Logged ε β} (h : Clean good (x >>= f))
    (hx : Returns good x a) : Clean good (f a) := by
  obtain ⟨b, hlog, hres⟩ := h
  have heq : x >>= f = ⟨x.log ++ (f a).log, (f a).result⟩ := by simp only [Bind.bind, hx.2]
  rw [heq] at hlog hres
  exact ⟨b, fun e he => hlog e (List.mem_append_right _ he), hres⟩

/-- A clean sequence has two clean halves. -/
theorem Clean.of_bind {x : Logged ε α} {f : α → Logged ε β} (h : Clean good (x >>= f)) :
    ∃ a, Returns good x a ∧ Clean good (f a) := by
  obtain ⟨a, ha⟩ := h.left
  exact ⟨a, ha, h.right ha⟩

end Logged

end Lib
